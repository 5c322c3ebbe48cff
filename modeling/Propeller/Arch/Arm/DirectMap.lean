import Propeller.Arch.Arm.Compact
import Propeller.Arch.MemoryConfig
import Propeller.Support.RangeSet

/-!
# Arch.Arm.DirectMap — the linear map of ARM with a 3/1 split

`init_direct_map` cuts the memory ranges at the high memory base and maps what is below.  Whenever it returns, the
map is as asked for; but it returns only for memory that is made of sections, with a page behind the last one at
most (`init_direct_map_linear`).  The Level 2 table may have a recursive entry, as that of the start code does: then
the addresses of its window are left out.
-/

namespace Propeller
namespace Arm

open Paging

/-- The first address that is not mapped linearly, and all that are behind it. -/
def highMemory (split : VmSplit) : MemoryRange :=
  ⟨.invalidZone, getHighMemBase split.virtualBase, Arch.arm.wordLimit - 1 - getHighMemBase split.virtualBase + 1⟩

/-- One round of the loop of `init_direct_map`. -/
def mapLinearPart (P : Profile) (split : VmSplit) (pagesStart fuel : Nat) (st : TableState Desc) (range : MemoryRange) :
    Run (TableState Desc) := do
  let (left, _) ← unwrap (← range.exclude P .arm (highMemory split))
  match left with
  | some left => directMapMemory P split pagesStart left.base left.size false .compact fuel st
  | none => return st

def initDirectMap (P : Profile) (split : VmSplit) (pagesStart fuel : Nat) (ranges : List MemoryRange)
    (st : TableState Desc) : Run (TableState Desc) :=
  ranges.foldlM (mapLinearPart P split pagesStart fuel) st

variable {P : Profile} {st st' : TableState Desc} {root base size fuel x : Nat} {S : Set Nat} {r : MemoryRange}
  {ranges : List MemoryRange} {entry : Option Nat}

/-! ## One range -/

/-- 896 MiB. -/
theorem highMemBase_three : getHighMemBase VmSplit.three.virtualBase = 0x38000000 := by
  decide

/-- What is left of a range below the high memory base. -/
theorem exclude_highMemory {split : Option (Option MemoryRange × Option MemoryRange)} (hr : r.Fits .arm)
    (hpos : 0 < r.size) (h : r.exclude P .arm (highMemory .three) = .ok split) :
    ∃ left right, split = some (left, right) ∧ (left = none → 0x38000000 ≤ r.base) ∧
      ∀ l, left = some l → l.base = r.base ∧ l.base + l.size = min (r.base + r.size) 0x38000000 := by
  have hword : Arch.wordLimit .arm = 2 ^ 32 := rfl
  have hhigh : (highMemory .three).base = 0x38000000 := highMemBase_three
  have hstop : (highMemory .three).stop = 2 ^ 32 := by decide
  have hrs : r.stop = r.base + r.size := rfl
  have hle := hr.le
  have hlt := hr.lt
  rcases Range.exclude_eq_ok hr (by decide) hpos (by decide) h with ⟨⟨left, right⟩, rfl, hsplit⟩
  refine ⟨left, right, rfl, ?_⟩
  cases hsplit with
  | apart hapart =>
      refine ⟨by simp, ?_⟩
      rintro l ⟨⟩
      refine ⟨rfl, ?_⟩
      omega
  | covered hlo hhi =>
      refine ⟨fun _ => by omega, ?_⟩
      rintro l ⟨⟩
  | inside b hlo hhi hb hup =>
      refine ⟨by simp, ?_⟩
      rintro l ⟨⟩
      refine ⟨rfl, ?_⟩
      show r.base + ((highMemory .three).base - r.base) = _
      omega
  | head hlo hmid hhi =>
      refine ⟨by simp, ?_⟩
      rintro l ⟨⟩
      refine ⟨rfl, ?_⟩
      show r.base + ((highMemory .three).base - r.base) = _
      omega
  | tail hlo hmid hhi => omega

/-- A range of linear memory is mapped, and nothing else has changed outside of the recursive window. -/
structure LinearMapped (entry : Option Nat) (st st' : TableState Desc) (root base size : Nat) : Prop where
  inside : ∀ x, base ≤ x → x < base + size → mmu.walk st'.mem 1 root (0xc0000000 + x) = some x
  outside : ∀ x < 2 ^ 30, ¬ (base ≤ x ∧ x < base + size) → Visible mmu 1 entry (0xc0000000 + x) →
    mmu.leaf st'.mem 1 root (0xc0000000 + x) = mmu.leaf st.mem 1 root (0xc0000000 + x)

/-- A range that the loop maps has sections and at most one page. -/
theorem directMapMemory_spec (hlimit : base + size ≤ 0x38000000) (hbase : pageSize ∣ base) (hsize : pageSize ∣ size)
    (hentry : Avoids mmu 1 entry 0xc0000000 0x38000000) (hs : SoundBut mmu physLimit format.zero entry st 1 root S)
    (hclear : Clear mmu st 1 root (0xc0000000 + base) size)
    (hrun : directMapMemory P .three root base size false .compact fuel st = .ok st') :
    SectionsAndPage base size ∧ LinearMapped entry st st' root base size ∧
      ∃ S', SoundBut mmu physLimit format.zero entry st' 1 root S' := by
  have hword : Arch.wordLimit .arm = 2 ^ 32 := rfl
  have hkernel : VmSplit.three.virtualBase ≤ 0xc0000000 + base := Nat.le_add_right _ _
  have hsection : sectionSize = 2097152 := rfl
  have hfits : Fits .arm (0xc0000000 + base) base size := ⟨by omega, by omega, by omega⟩
  have hvis : Avoids mmu 1 entry (0xc0000000 + base) size := fun v hlo hhi => hentry v (by omega) (by omega)
  have hsum : addWord P .arm VmSplit.three.virtualBase base = .ok (0xc0000000 + base) :=
    addWord_of_lt (show 0xc0000000 + base < Arch.arm.wordLimit by omega)
  obtain ⟨e, he⟩ := replace_restore st entry root format.zero
  rw [directMapMemory, hsum, run_ok_bind] at hrun
  -- The run on the tree of tables, without the recursive entry.
  have hloop := checkAligned_eq_ok hrun
  rw [getFirstTableLevel_three hkernel, ← he,
    compactLoop_replace (l := TableLevel.level2) lawful tests hs hfits hvis] at hloop
  rcases run_eq_ok_of_map hloop with ⟨st₁, hloop', rfl⟩
  have hshape := compactLoop_level2_eq_ok hs hfits hsize hloop'
  have hvirt : pageSize ∣ 0xc0000000 + base := Nat.dvd_add (by decide) hbase
  have hmod : (0xc0000000 + base) % sectionSize = base % sectionSize := by
    rw [hsection]
    omega
  have hplaced : Placed mmu physLimit 1 1 (0xc0000000 + base) base size :=
    placed_of_sections hkernel (by omega) (by omega) hvirt hsize hmod hshape
  have halign : ∀ l : TableLevel, l.height ≤ 1 → l.height = 0 ∨ 1 = l.height := by
    intro l hl
    omega
  have hleaf : ∀ v, Visible mmu 1 entry v →
      mmu.leaf (st.replace entry root format.zero).mem 1 root v = mmu.leaf st.mem 1 root v := by
    intro v hv
    have hold := leaf_replace (d := e) hs hv
    rw [he] at hold
    exact hold.symm
  have hclear' : Clear mmu (st.replace entry root format.zero) 1 root (0xc0000000 + base) size := by
    intro v hlo hhi b hb
    rw [hleaf v (hvis v hlo hhi)] at hb
    exact hclear v hlo hhi b hb
  have hmaps : Maps mmu _ st₁ 1 root (0xc0000000 + base) base size :=
    compactLoop_maps (l := TableLevel.level2) lawful tests halign le_rfl hs hfits hplaced hclear' hloop'
  have hs₁ := hs.keeps (compactLoop_keeps (l := TableLevel.level2) lawful tests hs hfits hloop')
  refine ⟨?_, ⟨?_, ?_⟩, _, (hs₁.soundBut (lawful.zero 1)).replace⟩
  · rcases hshape with hzero | ⟨hdvd, hlast⟩
    · exact Or.inl hzero
    · exact Or.inr ⟨(Nat.dvd_add_right (by decide)).1 hdvd, hlast⟩
  · intro x hlo hhi
    have hwalk := hmaps.inside (0xc0000000 + x) (by omega) (by omega)
    rw [Nat.add_sub_add_left, Nat.add_sub_cancel' hlo, Mmu.walk] at hwalk
    rw [Mmu.walk, leaf_replace hs₁ (hentry _ (by omega) (by omega)), hwalk]
  · intro x hx hout hv
    have hcover : Paging.cover mmu 1 = 2 ^ 30 := rfl
    rw [leaf_replace hs₁ hv, ← hleaf _ hv]
    refine hmaps.outside _ ?_ (by omega)
    rw [hcover]
    omega

/-! ## All ranges -/

/-- The address is in one of the ranges, and below the high memory base of a 3/1 split (`highMemBase_three`). -/
def LinearIn (ranges : List MemoryRange) (x : Nat) : Prop :=
  x < 0x38000000 ∧ ∃ r ∈ ranges, x ∈ r.addrs

/-- Ranges of pages within the address space. -/
structure PageRange (r : MemoryRange) : Prop where
  fits : r.Fits .arm
  pos : 0 < r.size
  base_dvd : pageSize ∣ r.base
  size_dvd : pageSize ∣ r.size

/-- The part of the range in linear memory has sections and at most one page. -/
def LinearSections (r : MemoryRange) : Prop :=
  r.base < 0x38000000 → SectionsAndPage r.base (min (r.base + r.size) 0x38000000 - r.base)

/-- What one range does to the tables. -/
theorem mapLinearPart_spec (hr : PageRange r) (hentry : Avoids mmu 1 entry 0xc0000000 0x38000000)
    (hs : SoundBut mmu physLimit format.zero entry st 1 root S)
    (hclear : ∀ x, LinearIn [r] x → ClearAt mmu st 1 root (0xc0000000 + x))
    (hrun : mapLinearPart P .three root fuel st r = .ok st') :
    LinearSections r ∧ (∀ x, LinearIn [r] x → mmu.walk st'.mem 1 root (0xc0000000 + x) = some x) ∧
      (∀ x < 2 ^ 30, ¬ LinearIn [r] x → Visible mmu 1 entry (0xc0000000 + x) →
        mmu.leaf st'.mem 1 root (0xc0000000 + x) = mmu.leaf st.mem 1 root (0xc0000000 + x)) ∧
      ∃ S', SoundBut mmu physLimit format.zero entry st' 1 root S' := by
  have hmem : ∀ x, LinearIn [r] x ↔ x < 0x38000000 ∧ r.base ≤ x ∧ x < r.base + r.size := by
    intro x
    simp only [LinearIn, List.mem_singleton, exists_eq_left, Range.mem_addrs]
  rcases run_bind_eq_ok.1 hrun with ⟨split, hexcl, hone⟩
  rcases exclude_highMemory hr.fits hr.pos hexcl with ⟨left, right, rfl, hnone, hsome⟩
  simp only [unwrap, run_ok_bind] at hone
  cases left with
  | none =>
      have hhigh := hnone rfl
      obtain rfl := Except.ok.inj hone
      refine ⟨fun hlt => absurd hlt (by omega), ?_, fun _ _ _ _ => rfl, S, hs⟩
      intro x hx
      rw [hmem] at hx
      omega
  | some l =>
      rcases hsome l rfl with ⟨hbase, hstop⟩
      have hdvd : pageSize ∣ l.size := by
        have hmin : pageSize ∣ min (r.base + r.size) 0x38000000 := by
          rcases Nat.le_total (r.base + r.size) 0x38000000 with hle | hle
          · rw [Nat.min_eq_left hle]
            exact Nat.dvd_add hr.base_dvd hr.size_dvd
          · rw [Nat.min_eq_right hle]
            decide
        rw [← hstop, hbase] at hmin
        exact (Nat.dvd_add_right hr.base_dvd).1 hmin
      change directMapMemory P .three root l.base l.size false .compact fuel st = .ok st' at hone
      rw [hbase] at hstop hone
      have hclear' : Clear mmu st 1 root (0xc0000000 + r.base) l.size := by
        intro v hlo hhi
        obtain ⟨x, rfl⟩ := Nat.exists_eq_add_of_le (show 0xc0000000 ≤ v by omega)
        refine hclear x ?_
        rw [hmem]
        omega
      rcases directMapMemory_spec (by omega) hr.base_dvd hdvd hentry hs hclear' hone with ⟨hshape, hmapped, hsound⟩
      refine ⟨?_, ?_, ?_, hsound⟩
      · intro hlt
        rwa [← hstop, Nat.add_sub_cancel_left]
      · intro x hx
        rw [hmem] at hx
        exact hmapped.inside x hx.2.1 (by omega)
      · intro x hx hout
        rw [hmem] at hout
        exact hmapped.outside x hx (by omega)

theorem linearIn_cons : LinearIn (r :: ranges) x ↔ LinearIn [r] x ∨ LinearIn ranges x := by
  simp only [LinearIn, List.mem_cons, List.not_mem_nil, or_false, exists_eq_or_imp, exists_eq_left, and_or_left]

/-- The address takes no entry that linear memory does not take. -/
theorem LinearIn.visible (hx : LinearIn ranges x) (hentry : Avoids mmu 1 entry 0xc0000000 0x38000000) :
    Visible mmu 1 entry (0xc0000000 + x) := by
  have hlt := hx.1
  exact hentry _ (by omega) (by omega)

/-- Whenever `init_direct_map` returns, every address of linear memory is translated at the virtual base and no
other address of the kernel segment, outside of the recursive window, is translated otherwise than before; and linear
memory consists of sections, with a page behind the last one of a range at most. -/
theorem init_direct_map_linear (hm : ∀ r ∈ ranges, PageRange r) (hbefore : ranges.Pairwise RangeSet.Before)
    (hentry : Avoids mmu 1 entry 0xc0000000 0x38000000) (hs : SoundBut mmu physLimit format.zero entry st 1 root S)
    (hclear : ∀ x, LinearIn ranges x → ClearAt mmu st 1 root (0xc0000000 + x))
    (hrun : initDirectMap P .three root fuel ranges st = .ok st') :
    (∀ r ∈ ranges, LinearSections r) ∧
      (∀ x, LinearIn ranges x → mmu.walk st'.mem 1 root (0xc0000000 + x) = some x) ∧
      (∀ x < 2 ^ 30, ¬ LinearIn ranges x → Visible mmu 1 entry (0xc0000000 + x) →
        mmu.leaf st'.mem 1 root (0xc0000000 + x) = mmu.leaf st.mem 1 root (0xc0000000 + x)) ∧
      ∃ S', SoundBut mmu physLimit format.zero entry st' 1 root S' := by
  induction ranges generalizing st S with
  | nil =>
      obtain rfl := Except.ok.inj hrun
      refine ⟨fun r hr => absurd hr List.not_mem_nil, ?_, fun _ _ _ _ => rfl, S, hs⟩
      rintro x ⟨-, r, hr, -⟩
      exact absurd hr List.not_mem_nil
  | cons r ranges ih =>
      rw [initDirectMap, List.foldlM_cons] at hrun
      rcases run_bind_eq_ok.1 hrun with ⟨st₁, hfirst, hrest⟩
      rcases mapLinearPart_spec (hm r List.mem_cons_self) hentry hs
        (fun x hx => hclear x (linearIn_cons.2 (Or.inl hx))) hfirst with ⟨hshape, hin, hout, S₁, hs₁⟩
      have hbefore' := List.pairwise_cons.1 hbefore
      -- The other ranges are behind this one, so they are still clear, and later they leave it alone.
      have hapart : ∀ x, LinearIn ranges x → ¬ LinearIn [r] x := by
        rintro x ⟨-, r', hr', hx'⟩ ⟨-, r'', hr'', hx''⟩
        obtain rfl := List.mem_singleton.1 hr''
        have hle : r''.base + r''.size ≤ r'.base := hbefore'.1 r' hr'
        rw [Range.mem_addrs] at hx' hx''
        omega
      have hclear₁ : ∀ x, LinearIn ranges x → ClearAt mmu st₁ 1 root (0xc0000000 + x) := by
        intro x hx b hb
        have hlt := hx.1
        rw [hout x (by omega) (hapart x hx) (hx.visible hentry)] at hb
        exact hclear x (linearIn_cons.2 (Or.inr hx)) b hb
      rcases ih (fun r' hr' => hm r' (List.mem_cons_of_mem _ hr')) hbefore'.2 hs₁ hclear₁ hrest
        with ⟨hshapes, hin', hout', hsound⟩
      refine ⟨?_, ?_, ?_, hsound⟩
      · intro r' hr'
        rcases List.mem_cons.1 hr' with rfl | hr'
        · exact hshape
        · exact hshapes r' hr'
      · intro x hx
        by_cases hx' : LinearIn ranges x
        · exact hin' x hx'
        · have hfirst' := (linearIn_cons.1 hx).resolve_right hx'
          have hlt := hfirst'.1
          have hwalk := hin x hfirst'
          rw [Mmu.walk] at hwalk ⊢
          rw [hout' x (by omega) hx' (hx.visible hentry)]
          exact hwalk
      · intro x hx hnot hv
        rw [linearIn_cons, not_or] at hnot
        rw [hout' x hx hnot.2 hv, hout x hx hnot.1 hv]

/-- Two sections, a section and a page, and a section below the high memory base with memory behind it. -/
def smallMemory : List MemoryRange :=
  [⟨.linearMemoryZone, 0x200000, 0x400000⟩, ⟨.linearMemoryZone, 0x800000, 0x201000⟩,
    ⟨.linearMemoryZone, 0x37e00000, 0x400000⟩]

/-- A kernel in the first section, as the start code maps it, and the recursive entry. -/
def kernelTables : TableState Desc :=
  setupRecursiveMapping 0 ((emptyState format.zero 4).set 0 0 (0x401, 0))

theorem kernelTables_soundBut : SoundBut mmu physLimit format.zero (some recursiveEntry) kernelTables 1 0
    ({0} ∪ pages (emptyState format.zero 4) ((emptyState format.zero 4).set 0 0 (0x401, 0))) ∧
      ∀ x, 0x200000 ≤ x → x < 2 ^ 30 → Visible mmu 1 (some recursiveEntry) (0xc0000000 + x) →
        mmu.leaf kernelTables.mem 1 0 (0xc0000000 + x) = none := by
  have hempty : Sound mmu physLimit (emptyState format.zero 4) 1 0 {0} := emptyState_sound lawful (by decide) 1
  have hblock : ∀ next, mmu.decode 1 (0x401, 0) ≠ .table next := by
    intro next hd
    have hdec : decode 1 (0x401, 0) = .block 0 := by decide
    have htable : decode 1 (0x401, 0) = .table next := hd
    rw [hdec] at htable
    cases htable
  have hs := hempty.keeps (Keeps.block (i := 0) hempty hblock)
  refine ⟨soundBut_set hs (by decide), ?_⟩
  intro x hlo hhi hv
  have hindex : mmu.index 1 (0xc0000000 + x) ≠ 0 := by
    show (0xc0000000 + x) / 2097152 % 512 * 2 ≠ 0
    omega
  have hleaf : mmu.leaf kernelTables.mem 1 0 (0xc0000000 + x) =
      mmu.leaf ((emptyState format.zero 4).set 0 0 (0x401, 0)).mem 1 0 (0xc0000000 + x) := leaf_replace hs hv
  rw [hleaf]
  exact (Mmu.leaf_set_of_ne hempty.separate hindex).trans (emptyState_leaf lawful 4 1 0 _)

theorem init_direct_map_linear_small :
    ∃ st', initDirectMap .dev .three 0 8 smallMemory kernelTables = .ok st' ∧
      (∀ x, 0x200000 ≤ x → x < 0x600000 → mmu.walk st'.mem 1 0 (0xc0000000 + x) = some x) ∧
      mmu.walk st'.mem 1 0 0xc0a00000 = some 0xa00000 ∧ mmu.walk st'.mem 1 0 0xc0000000 = some 0 ∧
      mmu.leaf st'.mem 1 0 0xc0600000 = none ∧ mmu.leaf st'.mem 1 0 0xf8000000 = none := by
  have hok : (initDirectMap .dev .three 0 8 smallMemory kernelTables).isOk = true := by
    decide +kernel
  cases hrun : initDirectMap .dev .three 0 8 smallMemory kernelTables with
  | error e =>
      rw [hrun] at hok
      cases hok
  | ok st' =>
      rcases kernelTables_soundBut with ⟨hs, hnone⟩
      have hranges : ∀ r ∈ smallMemory, r.Fits .arm ∧ 0 < r.size ∧ pageSize ∣ r.base ∧ pageSize ∣ r.size := by decide
      have hm : ∀ r ∈ smallMemory, PageRange r := fun r hr =>
        ⟨(hranges r hr).1, (hranges r hr).2.1, (hranges r hr).2.2.1, (hranges r hr).2.2.2⟩
      have hbefore : smallMemory.Pairwise fun r r' => r.base + r.size ≤ r'.base := by decide
      have hmem : ∀ x, LinearIn smallMemory x ↔ x < 0x38000000 ∧ (0x200000 ≤ x ∧ x < 0x600000 ∨
          0x800000 ≤ x ∧ x < 0xa01000 ∨ 0x37e00000 ≤ x ∧ x < 0x38200000) := by
        intro x
        simp only [LinearIn, smallMemory, List.mem_cons, List.not_mem_nil, or_false, exists_eq_or_imp, exists_eq_left,
          Range.mem_addrs]
      have hentry : Avoids mmu 1 (some recursiveEntry) 0xc0000000 0x38000000 := by
        intro v hlo hhi hi
        have hindex : v / 2097152 % 512 * 2 = 1020 := Option.some.inj hi
        omega
      have hclear : ∀ x, LinearIn smallMemory x → ClearAt mmu kernelTables 1 0 (0xc0000000 + x) := by
        intro x hx b hb
        have hx' := (hmem x).1 hx
        rw [hnone x (by omega) (by omega) (hx.visible hentry)] at hb
        cases hb
      rcases init_direct_map_linear hm hbefore hentry hs hclear hrun with ⟨-, hin, hout, -⟩
      refine ⟨st', rfl, ?_, ?_, ?_, ?_, ?_⟩
      · intro x hlo hhi
        exact hin x ((hmem x).2 (by omega))
      · exact hin 0xa00000 ((hmem _).2 (by omega))
      · have hkept := hout 0 (by decide) (by rw [hmem]; omega) (by decide)
        rw [Mmu.walk, hkept]
        rfl
      · exact (hout 0x600000 (by decide) (by rw [hmem]; omega) (by decide)).trans
          (hnone _ (by decide) (by decide) (by decide))
      · exact (hout 0x38000000 (by decide) (by rw [hmem]; omega) (by decide)).trans
          (hnone _ (by decide) (by decide) (by decide))

end Arm
end Propeller
