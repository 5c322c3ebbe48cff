import Propeller.Arch.MapMemory

/-!
# Arch.Arm.Compact — compact mapping on ARM with a 3/1 split

The kernel segment of a 3/1 split is translated from Level 2 on.  The compact loop tests the virtual address
against the section size at both levels.  At Level 2 this is the entry size, but at Level 3 only the first
page of a table passes the test, and for every other page the loop asks for a table below the last level.
So the loop maps sections and, behind them, no more than one page.
-/

namespace Propeller
namespace Arm

open Paging

variable {P : Profile} {device : Bool} {virt base size fuel t : Nat} {st st' : TableState Desc} {S : Set Nat}

/-- The range is empty, or starts on a section and has sections and at most one page behind them. -/
def SectionsAndPage (virt size : Nat) : Prop :=
  size = 0 ∨ sectionSize ∣ virt ∧ (size % sectionSize = 0 ∨ size % sectionSize = pageSize)

instance (virt size : Nat) : Decidable (SectionsAndPage virt size) :=
  inferInstanceAs (Decidable (_ ∨ _ ∧ (_ ∨ _)))

/-! ## Level 3 -/

theorem compactLoop_level3_returns (hvirt : sectionSize ∣ virt) (hfits : Fits .arm virt base pageSize)
    (hadds : Adds P .arm virt base pageSize) (hfuel : 1 < fuel) :
    ∃ st', compactLoop format P .arm device fuel .level3 t virt base pageSize st = .ok st' := by
  cases fuel with
  | zero => omega
  | succ fuel =>
      rcases lawful.page .level3 base device rfl with ⟨d, hd⟩
      have hround : Round format device TableLevel.height (fun _ => 1)
          (checkAligned .arm (compactLoop format P .arm device fuel)) .level3 t virt base pageSize st pageSize d
          st := .block d hvirt le_rfl hd
      have hreturns := compactLoop_of_round (Q := fun _ => True) lawful tests le_rfl hfits hadds (by omega) hround
        (fun _ => trivial) (fun h => absurd h (lt_irrefl _))
      rcases hreturns with ⟨st', hrun, -⟩
      exact ⟨st', hrun⟩

/-- Only one page at the start of a section is mapped at Level 3. -/
theorem compactLoop_level3_eq_ok (hfits : Fits .arm virt base size) (hsize : pageSize ∣ size)
    (hpos : 0 < size)
    (hrun : compactLoop format P .arm device fuel .level3 t virt base size st = .ok st') :
    sectionSize ∣ virt ∧ size = pageSize := by
  have hpage : pageSize ≤ size := Nat.le_of_dvd hpos hsize
  have hvirt : sectionSize ∣ virt := by
    by_contra hnot
    exact compactLoop_last_unaligned lawful tests rfl hfits hnot hpage hrun
  refine ⟨hvirt, ?_⟩
  cases fuel with
  | zero => cases hrun
  | succ fuel =>
      rcases compactLoop_eq_ok lawful tests hpage hfits hrun with ⟨n, d, st₁, hround, -, hrest⟩
      cases hround with
      | tail _ _ _ _ halloc => exact absurd halloc (allocTableAndFill_zero lawful rfl)
      | head _ _ _ halloc => exact absurd halloc (allocTableAndFill_zero lawful rfl)
      | block _ _ _ _ =>
          by_contra hne
          -- The second page is not on a section.
          have hlt : pageSize < size := by omega
          have hsecond : ¬ sectionSize ∣ virt + pageSize := by
            rw [sectionSize, pageSize] at *
            omega
          have hleft : pageSize ≤ size - pageSize := Nat.le_of_dvd (by omega) (Nat.dvd_sub hsize dvd_rfl)
          exact compactLoop_last_unaligned lawful tests rfl (hfits.drop hpage) hsecond hleft (hrest hlt)

/-! ## Level 2 -/

theorem compactLoop_level2_returns (hs : Sound mmu physLimit st 1 t S) (hfits : Fits .arm virt base size)
    (hadds : Adds P .arm virt base size) (hvirt : sectionSize ∣ virt) (hbase : sectionSize ∣ base)
    (hsize : size % sectionSize = 0 ∨ size % sectionSize = pageSize) (hpages : HasPages st 1)
    (hfuel : size / sectionSize + 2 < fuel) :
    ∃ st', compactLoop format P .arm device fuel .level2 t virt base size st = .ok st' := by
  induction fuel generalizing virt base size st S with
  | zero => exact absurd hfuel (Nat.not_lt_zero _)
  | succ fuel ih =>
      have hfuel' : 1 < fuel := by
        have := Nat.zero_le (size / sectionSize)
        omega
      have hsection := sectionSize_eq
      have hpage : pageSize = 4096 := rfl
      rcases Nat.lt_or_ge size sectionSize with hlt | hge
      · rw [Nat.mod_eq_of_lt hlt] at hsize
        rcases hsize with rfl | rfl
        · exact ⟨st, compactLoop_of_lt pageSize_pos⟩
        · -- One page is left, for a table below.
          have hfill : ∀ l' next st₁ K, TableLevel.height l' = 0 → Sound mmu physLimit st₁ 0 next K →
              st₁.supply = st.supply → st.used ≤ st₁.used → st₁.used ≤ st.used + 1 →
              ∃ st₂, checkAligned .arm (compactLoop format P .arm device fuel) l' next virt base pageSize st₁ =
                .ok st₂ ∧ True := by
            intro l' next st₁ K hl' _ _ _ _
            obtain rfl : l' = .level3 := by
              cases l' <;> first | rfl | cases hl'
            have hreturns : ∃ st₂, compactLoop format P .arm device fuel .level3 next virt base pageSize st₁ =
                .ok st₂ := compactLoop_level3_returns hvirt hfits hadds hfuel'
            rcases hreturns with ⟨st₂, hst₂⟩
            refine ⟨st₂, ?_, trivial⟩
            rw [checkAligned_of_dvd hfits le_rfl ((by decide : pageSize ∣ sectionSize).trans hvirt)
              ((by decide : pageSize ∣ sectionSize).trans hbase)]
            exact hst₂
          rcases allocTableAndFill_returns (l := TableLevel.level2) (i := format.getDescriptorIndex virt .level2)
            (Q := fun _ => True) lawful rfl hs (hpages 0 (by decide)) hfill with ⟨d, st₁, halloc, -⟩
          have hround : Round format device TableLevel.height (fun _ => 1)
              (checkAligned .arm (compactLoop format P .arm device fuel)) .level2 t virt base pageSize st pageSize d
              st₁ := .tail d st₁ hvirt hlt halloc
          have hreturns := compactLoop_of_round (Q := fun _ => True) lawful tests le_rfl hfits hadds (by omega)
            hround (fun _ => trivial) (fun h => absurd h (lt_irrefl _))
          rcases hreturns with ⟨st', hrun, -⟩
          exact ⟨st', hrun⟩
      · -- A section.
        have hround : ∃ d, Round format device TableLevel.height (fun _ => 1)
            (checkAligned .arm (compactLoop format P .arm device fuel)) .level2 t virt base size st sectionSize d
            st := ⟨_, .block _ hvirt hge rfl⟩
        rcases hround with ⟨d, hround⟩
        have hkeeps := hround.keeps lawful hs (compactFill_keeps lawful tests hfits P device fuel)
        have hreturns := compactLoop_of_round (Q := fun _ => True) lawful tests (by omega) hfits hadds (by omega)
          hround (fun _ => trivial) ?_
        · rcases hreturns with ⟨st', hrun, -⟩
          exact ⟨st', hrun⟩
        · intro hlt
          have hmod : (size - sectionSize) % sectionSize = size % sectionSize := (Nat.mod_eq_sub_mod hge).symm
          have hdiv : (size - sectionSize) / sectionSize + 1 = size / sectionSize := by
            rw [hsection] at hge ⊢
            omega
          rcases ih (hs.keeps hkeeps) (hfits.drop hge) (hadds.drop hge) (dvd_add hvirt dvd_rfl)
            (dvd_add hbase dvd_rfl) (by rw [hmod]; exact hsize) hpages (by omega) with ⟨st', hrun⟩
          exact ⟨st', hrun, trivial⟩

theorem compactLoop_level2_eq_ok (hs : Sound mmu physLimit st 1 t S) (hfits : Fits .arm virt base size)
    (hsize : pageSize ∣ size)
    (hrun : compactLoop format P .arm device fuel .level2 t virt base size st = .ok st') :
    SectionsAndPage virt size := by
  induction fuel generalizing virt base size st S with
  | zero => cases hrun
  | succ fuel ih =>
      rcases Nat.eq_zero_or_pos size with rfl | hpos
      · exact Or.inl rfl
      · have hpage : pageSize ≤ size := Nat.le_of_dvd hpos hsize
        -- What is filled by a table below starts on a section and is a page.
        have hbelow : ∀ n d st₁, 0 < n → n ≤ size → pageSize ∣ n →
            allocTableAndFill format (checkAligned .arm (compactLoop format P .arm device fuel)) .level2
              (st.mem t (format.getDescriptorIndex virt .level2)) virt base n st = .ok (d, st₁) →
            sectionSize ∣ virt ∧ n = pageSize := by
          intro n d st₁ hn hle hdvd halloc
          rcases allocTableAndFill_eq_ok lawful rfl hs halloc with ⟨l', next, st₂, K, hl', hfill, -⟩
          obtain rfl : l' = .level3 := by
            cases l' <;> first | rfl | cases hl'
          exact compactLoop_level3_eq_ok (hfits.take hle) hdvd hn (checkAligned_eq_ok hfill)
        rcases compactLoop_eq_ok lawful tests hpage hfits hrun with ⟨n, d, st₁, hround, -, hrest⟩
        have hkeeps := hround.keeps lawful hs (compactFill_keeps lawful tests hfits P device fuel)
        have hdvd := hround.dvd hsize
        have hsection := sectionSize_eq
        cases hround with
        | block _ hvirt hle hd =>
            refine Or.inr ⟨hvirt, ?_⟩
            rcases Nat.lt_or_eq_of_le hle with hlt | heq
            · rcases ih (hs.keeps hkeeps) (hfits.drop hle) (Nat.dvd_sub hsize hdvd) (hrest hlt) with hz | ⟨-, hmod⟩
              · exact absurd hz (by omega)
              · have hmod' : (size - sectionSize) % sectionSize = size % sectionSize :=
                  (Nat.mod_eq_sub_mod hle).symm
                rw [← hmod']
                exact hmod
            · left
              rw [← heq]
              rfl
        | tail _ _ hvirt hlt halloc =>
            rcases hbelow _ _ _ hpos le_rfl hsize halloc with ⟨-, rfl⟩
            exact Or.inr ⟨hvirt, Or.inr rfl⟩
        | head _ _ hvirt halloc =>
            rcases Nat.eq_zero_or_pos (size % sectionSize) with hz | hp
            · exact absurd hrun (compactLoop_stuck lawful tests rfl hfits hvirt (Nat.dvd_of_mod_eq_zero hz) hpage)
            · exact absurd (hbelow _ _ _ hp (Nat.mod_le _ _) hdvd halloc).1 hvirt

/-! ## The kernel segment -/

theorem getFirstTableLevel_three (hkernel : VmSplit.three.virtualBase ≤ virt) :
    getFirstTableLevel .three virt = .level2 :=
  if_pos ⟨hkernel, rfl⟩

/-- The kernel segment is what one Level 2 table covers. -/
theorem segment_three (hkernel : VmSplit.three.virtualBase ≤ virt) (hvirt : virt < 2 ^ 32) :
    ∀ v, Segment .three virt v → v / Paging.cover mmu 1 = virt / Paging.cover mmu 1 := by
  intro v hv
  have hcover : Paging.cover mmu 1 = 2 ^ 30 := rfl
  rw [Segment, if_pos hkernel] at hv
  rw [VmSplit.virtualBase] at hkernel hv
  rw [hcover]
  omega

theorem placed_of_sections (hkernel : VmSplit.three.virtualBase ≤ virt) (hend : virt + size ≤ 2 ^ 32)
    (hlimit : base + size ≤ 2 ^ 32) (hpagev : pageSize ∣ virt) (hpages : pageSize ∣ size)
    (hmod : virt % sectionSize = base % sectionSize) (hshape : SectionsAndPage virt size) :
    Placed mmu physLimit 1 1 virt base size where
  le_limit := hlimit
  mod := hmod
  virt_dvd := hpagev
  size_dvd := hpages
  window := by
    have hcover : Paging.cover mmu 1 = 2 ^ 30 := rfl
    rw [VmSplit.virtualBase] at hkernel
    rw [hcover]
    omega
  cross := by
    intro j hj hlt
    rcases hshape with rfl | ⟨hdvd, -⟩
    · exact (Nat.mod_lt virt (span_pos j)).le
    · have hzero : virt % span j = 0 := Nat.mod_eq_zero_of_dvd ((span_dvd_span hj).trans hdvd)
      omega

theorem mapMemory_compact_fillsExactly_iff (P : Profile) (device : Bool) (entry : Option Nat)
    (hkernel : VmSplit.three.virtualBase ≤ virt) (hvirt : virt < 2 ^ 32) (hend : virt + size ≤ 2 ^ 32)
    (hbase : base < 2 ^ 32) (hlimit : base + size ≤ 2 ^ 32) (hpagev : pageSize ∣ virt) (hpageb : pageSize ∣ base)
    (hpages : pageSize ∣ size) (hmod : virt % sectionSize = base % sectionSize) :
    FillsExactly (fun fuel root => mapMemory P .three root virt base size device .compact fuel) mmu physLimit
      format.zero entry (Segment .three virt) (tablesBelow mmu 1) 1 virt base size ↔
        SectionsAndPage virt size ∧ Adds P .arm virt base size ∧ Avoids mmu 1 entry virt size := by
  have hword : Arch.wordLimit .arm = 2 ^ 32 := rfl
  have hfits : Fits .arm virt base size := by
    rw [VmSplit.virtualBase] at hkernel
    exact ⟨by omega, by omega, by omega⟩
  have hlevel := getFirstTableLevel_three hkernel
  constructor
  · -- In particular the call returns for an empty table.
    intro hexact
    have hs : Sound mmu physLimit (emptyState format.zero (tablesBelow mmu 1)) 1 0 {0} :=
      emptyState_sound lawful (by decide) 1
    rcases hexact.emptyState lawful (by decide) with ⟨fuel, st', hrun, hinside⟩
    have hloop := checkAligned_eq_ok hrun
    rw [hlevel] at hloop
    refine ⟨compactLoop_level2_eq_ok hs hfits hpages hloop, ?_, ?_⟩
    · rcases Nat.eq_zero_or_pos size with rfl | hpos
      · exact Or.inr ⟨hvirt, hbase⟩
      · exact compactLoop_adds lawful tests hfits hpages hpos hloop
    · intro v hlo hhi
      obtain ⟨x, rfl⟩ := Nat.exists_eq_add_of_le hlo
      exact (hinside x (by omega)).2.2
  · -- Sections as long as they fit, then a table for the one page that is left.
    rintro ⟨hshape, hadds, hvis⟩ st root S hs hclear hsupply
    have hrun_eq : ∀ st, mapMemory P .three root virt base size device .compact (size / sectionSize + 3) st =
        compactLoop format P .arm device (size / sectionSize + 3) .level2 root virt base size st := by
      intro st
      show fillTable _ _ _ _ _ _ (getFirstTableLevel .three virt) _ _ _ _ _ = _
      rw [hlevel]
      exact checkAligned_of_lt hvirt hbase hpagev hpageb
    refine exact_of_maps (size / sectionSize + 3) hs hclear hsupply (segment_three hkernel hvirt) ?_ hvis ?_ ?_
    · intro x hx
      rw [Segment, if_pos hkernel]
      exact ⟨hkernel.trans (Nat.le_add_right _ _), by omega⟩
    · intro st S d hs
      rw [hrun_eq, hrun_eq]
      exact compactLoop_replace (l := TableLevel.level2) lawful tests hs hfits hvis
    · intro st S hs hclear hsupply
      rw [hrun_eq]
      have hreturns : ∃ st', compactLoop format P .arm device (size / sectionSize + 3) .level2 root virt base size
          st = .ok st' := by
        rcases hshape with rfl | ⟨hdvd, hsize⟩
        · exact ⟨st, compactLoop_of_lt pageSize_pos⟩
        · have hdvdb : sectionSize ∣ base :=
            Nat.dvd_of_mod_eq_zero (hmod.symm.trans (Nat.mod_eq_zero_of_dvd hdvd))
          have hone : HasPages st 1 := fun m hm => hsupply m (hm.trans (by decide))
          exact compactLoop_level2_returns hs hfits hadds hdvd hdvdb hsize hone (Nat.lt_succ_self _)
      rcases hreturns with ⟨st', hrun⟩
      have hplaced := placed_of_sections hkernel hend hlimit hpagev hpages hmod hshape
      have halign : ∀ l : TableLevel, l.height ≤ 1 → l.height = 0 ∨ 1 = l.height := by
        intro l hl
        omega
      exact ⟨st', hrun, compactLoop_keeps (l := TableLevel.level2) lawful tests hs hfits hrun,
        compactLoop_maps (l := TableLevel.level2) lawful tests halign le_rfl hs hfits hplaced hclear hrun⟩

/-! ## The recursive window -/

/-- An entry that no address of the range takes is left alone. -/
theorem compactLoop_level2_other {k : Nat} (hs : Sound mmu physLimit st 1 t S) (hfits : Fits .arm virt base size)
    (hk : Avoids mmu 1 (some k) virt size)
    (hrun : compactLoop format P .arm device fuel .level2 t virt base size st = .ok st') :
    st'.mem t k = st.mem t k := by
  -- The tables are the same if the entry is written to what it is, so this write could come last.
  have hset : compactLoop format P .arm device fuel .level2 t virt base size (st.set t k (st.mem t k)) = _ :=
    compactLoop_set (l := TableLevel.level2) lawful tests hs hfits (apart_of_avoids hs hk)
  have hsame : st.set t k (st.mem t k) = st := by
    have hmem : st.mem.set t k (st.mem t k) = st.mem := by
      simp only [Tables.set, Function.update_eq_self]
    exact congrArg (fun mem => { st with mem := mem }) hmem
  rw [hsame, hrun] at hset
  have hst : st' = st'.set t k (st.mem t k) := Except.ok.inj hset
  rw [hst]
  exact Tables.set_self

/-- The window does not show a section. -/
theorem decode_zero_section {d : Desc} (hd : format.makeDescriptor .level2 base device = some d) : decode 0 d = .invalid := by
  obtain rfl := Option.some.inj hd
  refine decode_zero_of_type ?_
  rw [and_level2BlockLowMaskLong, block_type device (by decide)]
  decide

/-- The first section is written in the first round, and left alone by what follows. -/
theorem compactLoop_level2_first {d : Desc} (hs : Sound mmu physLimit (st.set t (mmu.index 1 virt) d) 1 t S)
    (hfits : Fits .arm virt base size) (hwin : virt % 2 ^ 30 + size ≤ 2 ^ 30) (hvirt : sectionSize ∣ virt)
    (hge : sectionSize ≤ size) (hdone : sectionSize = size → st' = st.set t (mmu.index 1 virt) d)
    (hrest : sectionSize < size → compactLoop format P .arm device fuel .level2 t (virt + sectionSize)
      (base + sectionSize) (size - sectionSize) (st.set t (mmu.index 1 virt) d) = .ok st') :
    st'.mem t (mmu.index 1 virt) = d := by
  have hset : (st.set t (mmu.index 1 virt) d).mem t (mmu.index 1 virt) = d := Tables.set_self
  rcases Nat.lt_or_eq_of_le hge with hlt | heq
  · refine (compactLoop_level2_other hs (hfits.drop hge) ?_ (hrest hlt)).trans hset
    intro w hw hw' hi
    have hsection := sectionSize_eq
    have hi' : w / 2097152 % 512 * 2 = virt / 2097152 % 512 * 2 := Option.some.inj hi
    have hmod : virt % 2097152 = 0 := Nat.mod_eq_zero_of_dvd hvirt
    omega
  · rw [hdone heq]
    exact hset

/-- What the map makes of an entry that the range takes: a section, or behind the whole sections a table, which is kept
if there is one. -/
structure Taken (st st' : TableState Desc) (t virt size v : Nat) : Prop where
  whole : v < virt + size / sectionSize * sectionSize → decode 0 (st'.mem t (mmu.index 1 v)) = .invalid
  table : virt + size / sectionSize * sectionSize ≤ v → ∃ next, decode 1 (st'.mem t (mmu.index 1 v)) = .table next
  kept : virt + size / sectionSize * sectionSize ≤ v → ∀ next, decode 1 (st.mem t (mmu.index 1 v)) = .table next →
    st'.mem t (mmu.index 1 v) = st.mem t (mmu.index 1 v)

/-- Behind the first section. -/
theorem Taken.behind {d : Desc} {v : Nat} (hge : sectionSize ≤ size) (hne : mmu.index 1 v ≠ mmu.index 1 virt)
    (h : Taken (st.set t (mmu.index 1 virt) d) st' t (virt + sectionSize) (size - sectionSize) v) :
    Taken st st' t virt size v := by
  have hsum : virt + sectionSize + (size - sectionSize) / sectionSize * sectionSize =
      virt + size / sectionSize * sectionSize := by
    rw [Nat.div_eq_sub_div (by decide) hge]
    ring
  have hold : (st.set t (mmu.index 1 virt) d).mem t (mmu.index 1 v) = st.mem t (mmu.index 1 v) :=
    Tables.set_of_ne_entry hne
  refine ⟨fun hlt => h.whole (hsum ▸ hlt), fun hle => h.table (hsum ▸ hle), fun hle next hd => ?_⟩
  rw [← hold] at hd ⊢
  exact h.kept (hsum ▸ hle) next hd

theorem compactLoop_level2_taken (hs : Sound mmu physLimit st 1 t S) (hfits : Fits .arm virt base size)
    (hwin : virt % 2 ^ 30 + size ≤ 2 ^ 30) (hvirt : sectionSize ∣ virt) (hpages : pageSize ∣ size)
    (hrun : compactLoop format P .arm device fuel .level2 t virt base size st = .ok st') {v : Nat}
    (hlo : virt ≤ v) (hhi : v < virt + size) : Taken st st' t virt size v := by
  have hsection := sectionSize_eq
  have hindex : ∀ w, mmu.index 1 w = w / 2097152 % 512 * 2 := fun _ => rfl
  induction fuel generalizing virt base size st S with
  | zero => cases hrun
  | succ fuel ih =>
      have hpage : pageSize ≤ size := Nat.le_of_dvd (by omega) hpages
      have hmod : virt % 2097152 = 0 := Nat.mod_eq_zero_of_dvd hvirt
      rcases compactLoop_eq_ok lawful tests hpage hfits hrun with ⟨n, d, st₁, hround, hdone, hrest⟩
      have hkeeps := hround.keeps lawful hs (compactFill_keeps lawful tests hfits P device fuel)
      cases hround with
      | head _ _ hnot _ => exact absurd hvirt hnot
      | block _ _ hge hd =>
          have hge' : sectionSize ≤ size := hge
          rcases Nat.lt_or_ge v (virt + sectionSize) with hlt | hbehind
          · have hsame : mmu.index 1 v = mmu.index 1 virt := by
              rw [hindex, hindex]
              omega
            have hfirst := compactLoop_level2_first (hs.keeps hkeeps) hfits hwin hvirt hge' hdone hrest
            have hend : sectionSize ≤ size / sectionSize * sectionSize := by
              rw [hsection] at hge' ⊢
              omega
            refine ⟨fun _ => ?_, fun hle => absurd hle (by omega), fun hle => absurd hle (by omega)⟩
            rw [hsame, hfirst]
            exact decode_zero_section hd
          · have hne : mmu.index 1 v ≠ mmu.index 1 virt := by
              rw [hindex, hindex]
              omega
            have hlt' : sectionSize < size := by omega
            refine Taken.behind hge' hne (ih (hs.keeps hkeeps) (hfits.drop hge') ?_ (dvd_add hvirt dvd_rfl)
              (Nat.dvd_sub hpages (by decide)) (hrest hlt') hbehind (by omega))
            rw [hsection] at *
            omega
      | tail _ _ _ hlt halloc =>
          have hzero : size / sectionSize = 0 := Nat.div_eq_of_lt hlt
          have hsame : mmu.index 1 v = mmu.index 1 virt := by
            have hlt' : size < 2097152 := hlt
            rw [hindex, hindex]
            omega
          rw [lawful.index] at halloc
          rcases allocTableAndFill_eq_ok (l := TableLevel.level2) lawful rfl hs halloc
            with ⟨l', next, st₂, K, hl', hfill, hopened⟩
          have hlast : st'.mem t (mmu.index 1 v) = d := by
            rw [hdone rfl, hsame]
            exact Tables.set_self
          refine ⟨fun h => absurd h (by rw [hzero]; omega), fun _ => ⟨next, ?_⟩, fun _ => ?_⟩
          · rw [hlast]
            exact hopened.decode
          · rw [hlast, hsame]
            exact hopened.same

/-- The same for the whole call, on tables with a recursive entry; other entries are left alone. -/
theorem mapMemory_compact_taken {root w count : Nat} (hkernel : VmSplit.three.virtualBase ≤ virt)
    (hfits : Fits .arm virt base size) (hpages : pageSize ∣ size) (hshape : SectionsAndPage virt size)
    (hstart : RecursiveStart st root w count virt size)
    (hrun : mapMemory P .three root virt base size device .compact fuel st = .ok st') :
    (∀ v, virt ≤ v → v < virt + size → Taken st st' root virt size v) ∧
      ∀ k, Avoids mmu 1 (some k) virt size → st'.mem root k = st.mem root k := by
  rcases hstart with ⟨hw, hrec, ⟨S, hs⟩, hvis, hclear, -⟩
  obtain ⟨e, he⟩ := replace_restore st (some (mmu.index 1 w)) root format.zero
  have hloop := checkAligned_eq_ok hrun
  rw [getFirstTableLevel_three hkernel, ← he,
    compactLoop_replace (l := TableLevel.level2) lawful tests hs hfits hvis] at hloop
  rcases run_eq_ok_of_map hloop with ⟨st₁, hloop', rfl⟩
  refine ⟨?_, ?_⟩
  · intro v hlo hhi
    have hwin : virt % 2 ^ 30 + size ≤ 2 ^ 30 := by
      have hend := hfits.virt
      have hword : Arch.wordLimit .arm = 2 ^ 32 := rfl
      rw [VmSplit.virtualBase] at hkernel
      omega
    rcases hshape with rfl | ⟨hdvd, -⟩
    · omega
    · have hnew : (st₁.replace (some (mmu.index 1 w)) root e).mem root (mmu.index 1 v) = st₁.mem root (mmu.index 1 v) :=
        mem_replace (hvis v hlo hhi)
      have hold : (st.replace (some (mmu.index 1 w)) root format.zero).mem root (mmu.index 1 v) =
          st.mem root (mmu.index 1 v) := mem_replace (hvis v hlo hhi)
      have htaken := compactLoop_level2_taken hs hfits hwin hdvd hpages hloop' hlo hhi
      refine ⟨fun hlt => ?_, fun hle => ?_, fun hle next hd => ?_⟩
      · rw [hnew]
        exact htaken.whole hlt
      · rw [hnew]
        exact htaken.table hle
      · rw [← hold] at hd ⊢
        rw [hnew]
        exact htaken.kept hle next hd
  · intro k hk
    have hold := compactLoop_level2_other hs hfits hk hloop'
    show (st₁.mem.set root (mmu.index 1 w) e) root k = _
    have hst : st.mem root k = ((st.replace (some (mmu.index 1 w)) root format.zero).mem.set root (mmu.index 1 w) e)
        root k := by
      conv_lhs => rw [← he]
      rfl
    rw [hst]
    by_cases hki : k = mmu.index 1 w
    · rw [hki, Tables.set_self, Tables.set_self]
    · rw [Tables.set_of_ne_entry hki, Tables.set_of_ne_entry hki, hold]

/-- With a recursive entry, the range is mapped as asked for, exactly if the sections that it takes as a whole have no
tables and the section of the last page has one: the window shows the tables that come and go. -/
theorem mapMemory_compact_recursive_iff {root w : Nat} (P : Profile) (device : Bool)
    (hkernel : VmSplit.three.virtualBase ≤ virt) (hvirt : virt < 2 ^ 32) (hend : virt + size ≤ 2 ^ 32)
    (hbase : base < 2 ^ 32) (hlimit : base + size ≤ 2 ^ 32) (hpagev : pageSize ∣ virt) (hpageb : pageSize ∣ base)
    (hpages : pageSize ∣ size) (hmod : virt % sectionSize = base % sectionSize) (hshape : SectionsAndPage virt size)
    (hadds : Adds P .arm virt base size) (hstart : RecursiveStart st root w (tablesBelow mmu 1) virt size) :
    Exact (fun fuel root => mapMemory P .three root virt base size device .compact fuel) mmu (Segment .three virt) 1
      virt base size st root ↔ ∀ v, virt ≤ v → v < virt + size →
        ((∃ next, decode 1 (st.mem root (mmu.index 1 v)) = .table next) ↔
          virt + size / sectionSize * sectionSize ≤ v) := by
  have hword : Arch.wordLimit .arm = 2 ^ 32 := rfl
  have hfits : Fits .arm virt base size := by
    rw [VmSplit.virtualBase] at hkernel
    exact ⟨by omega, by omega, by omega⟩
  have hentries := fun fuel st'
    (hrun : mapMemory P .three root virt base size device .compact fuel st = .ok st') =>
      mapMemory_compact_taken hkernel hfits hpages hshape hstart hrun
  rcases hstart with ⟨hw, hrec, ⟨S, hs⟩, hvis, hclear, hsupply⟩
  have hsame : ∀ fuel st', mapMemory P .three root virt base size device .compact fuel st = .ok st' →
      st'.mem root (mmu.index 1 w) = st.mem root (mmu.index 1 w) :=
    fun fuel st' hrun => (hentries fuel st' hrun).2 _ hvis
  constructor
  · rintro ⟨fuel, st', hrun, hall⟩ v hlo hhi
    have hshown := shown_of_mapped (v := v) hkernel hw hvis hrec (hsame fuel st' hrun) hall
    have htaken := (hentries fuel st' hrun).1 v hlo hhi
    constructor
    · rintro ⟨next, hd⟩
      by_contra hlt
      rw [htaken.whole (by omega), decode_zero_of_table hd] at hshown
      cases hshown
    · intro hle
      rcases htaken.table hle with ⟨next, hd⟩
      by_contra hnot
      rw [decode_zero_of_table hd, decode_zero_of_not_table fun next h => hnot ⟨next, h⟩] at hshown
      cases hshown
  · intro htables
    rcases (mapMemory_compact_fillsExactly_iff P device (some (mmu.index 1 w)) hkernel hvirt hend hbase hlimit hpagev
      hpageb hpages hmod).2 ⟨hshape, hadds, hvis⟩ st root S hs hclear hsupply with ⟨fuel, st', hrun, hmapped⟩
    refine ⟨fuel, st', hrun, mapped_of_shown hrec (hsame fuel st' hrun) hmapped ?_⟩
    intro v
    -- An entry of the range, or one that no address of the range takes.
    by_cases hin : ∃ v', virt ≤ v' ∧ v' < virt + size ∧ mmu.index 1 v' = mmu.index 1 v
    · rcases hin with ⟨v', hlo, hhi, heq⟩
      rw [← heq]
      have htaken := (hentries fuel st' hrun).1 v' hlo hhi
      rcases Nat.lt_or_ge v' (virt + size / sectionSize * sectionSize) with hlt | hge
      · rw [htaken.whole hlt, decode_zero_of_not_table fun next h =>
          absurd ((htables v' hlo hhi).1 ⟨next, h⟩) (Nat.not_le.2 hlt)]
      · rcases (htables v' hlo hhi).2 hge with ⟨next, hd⟩
        rw [htaken.kept hge next hd]
    · have hk : Avoids mmu 1 (some (mmu.index 1 v)) virt size :=
        fun v' hlo hhi hi => hin ⟨v', hlo, hhi, Option.some.inj hi⟩
      rw [(hentries fuel st' hrun).2 _ hk]

/-- For every range of pages in the kernel segment of a 3/1 split: from any tree of tables without blocks on
the walks of the range, and with pages for new tables, the compact map returns and is as asked for, exactly if
the range has this form and, in a build with overflow checks, ends before the address space does.  With a recursive
`entry` in the table this holds of all addresses outside of its window, for the ranges outside of it; and in the window,
exactly if no table comes or goes. -/
theorem mapMemory_compact_exact_iff (P : Profile) (device : Bool) (entry : Option Nat) {virt base size : Nat}
    (hkernel : VmSplit.three.virtualBase ≤ virt) (hvirt : virt < 2 ^ 32) (hend : virt + size ≤ 2 ^ 32)
    (hbase : base < 2 ^ 32) (hlimit : base + size ≤ 2 ^ 32) (hpagev : pageSize ∣ virt) (hpageb : pageSize ∣ base)
    (hpages : pageSize ∣ size) (hmod : virt % sectionSize = base % sectionSize) :
    (FillsExactly (fun fuel root => mapMemory P .three root virt base size device .compact fuel) mmu physLimit
      format.zero entry (Segment .three virt) (tablesBelow mmu 1) 1 virt base size ↔
        SectionsAndPage virt size ∧ Adds P .arm virt base size ∧ Avoids mmu 1 entry virt size) ∧
    (SectionsAndPage virt size → Adds P .arm virt base size → ∀ st root w,
      RecursiveStart st root w (tablesBelow mmu 1) virt size →
      (Exact (fun fuel root => mapMemory P .three root virt base size device .compact fuel) mmu (Segment .three virt) 1
        virt base size st root ↔ ∀ v, virt ≤ v → v < virt + size →
          ((∃ next, decode 1 (st.mem root (mmu.index 1 v)) = .table next) ↔
            virt + size / sectionSize * sectionSize ≤ v))) :=
  ⟨mapMemory_compact_fillsExactly_iff P device entry hkernel hvirt hend hbase hlimit hpagev hpageb hpages hmod,
    fun hshape hadds _ _ _ hstart => mapMemory_compact_recursive_iff P device hkernel hvirt hend hbase hlimit hpagev
      hpageb hpages hmod hshape hadds hstart⟩

/-- A section and a page: with the recursive entry of the start code, the table of the page shows up in the window. -/
theorem mapMemory_compact_exact_section :
    FillsExactly (fun fuel root => mapMemory .dev .three root 0xc0200000 0x200000 0x201000 false .compact fuel)
        mmu physLimit format.zero none (Segment .three 0xc0200000) (tablesBelow mmu 1) 1 0xc0200000 0x200000 0x201000 ∧
      FillsExactly (fun fuel root => mapMemory .dev .three root 0xc0200000 0x200000 0x201000 false .compact fuel)
        mmu physLimit format.zero (some recursiveEntry) (Segment .three 0xc0200000) (tablesBelow mmu 1) 1 0xc0200000
        0x200000 0x201000 ∧
      ¬ Exact (fun fuel root => mapMemory .dev .three root 0xc0200000 0x200000 0x201000 false .compact fuel) mmu
        (Segment .three 0xc0200000) 1 0xc0200000 0x200000 0x201000
        (setupRecursiveMapping 0 (emptyState format.zero (tablesBelow mmu 1))) 0 := by
  have hvis : Avoids mmu 1 (some recursiveEntry) 0xc0200000 0x201000 := by
    intro v hlo hhi hi
    have hindex : v / 2097152 % 512 * 2 = 1020 := Option.some.inj hi
    omega
  have hs : Sound mmu physLimit (emptyState format.zero (tablesBelow mmu 1)) 1 0 {0} :=
    emptyState_sound lawful (by decide) 1
  have hiff := fun entry => @mapMemory_compact_exact_iff .dev false entry 0xc0200000 0x200000 0x201000 (by decide)
    (by decide) (by decide) (by decide) (by decide) (by decide) (by decide) (by decide) (by decide)
  refine ⟨(hiff none).1.2 ⟨by decide, Or.inr (by decide), avoids_none⟩,
    (hiff (some recursiveEntry)).1.2 ⟨by decide, Or.inr (by decide), hvis⟩, ?_⟩
  intro hexact
  have htables := ((hiff none).2 (by decide) (Or.inr (by decide)) _ _ _
    (recursiveStart_setup hs (by decide) rfl (by decide) hvis (fun v _ _ => emptyState_clearAt lawful _ 1 0 v)
      (emptyState_hasPages _ _))).1 hexact
  rcases (htables 0xc0400000 (by decide) (by decide)).2 (by decide) with ⟨next, hd⟩
  have hinvalid : decode 1 ((setupRecursiveMapping 0 (emptyState format.zero (tablesBelow mmu 1))).mem 0
      (mmu.index 1 0xc0400000)) = .invalid := by
    decide
  rw [hinvalid] at hd
  cases hd

/-- Two pages at the start of a section. -/
theorem mapMemory_compact_two_pages :
    ¬ FillsExactly (fun fuel root => mapMemory .dev .three root 0xc0200000 0x200000 0x2000 false .compact fuel)
      mmu physLimit format.zero none (Segment .three 0xc0200000) (tablesBelow mmu 1) 1 0xc0200000 0x200000 0x2000 := by
  intro hexact
  have hs : Sound mmu physLimit (emptyState format.zero (tablesBelow mmu 1)) 1 0 {0} :=
    emptyState_sound lawful (by decide) 1
  rcases hexact.emptyState lawful (by decide) with ⟨fuel, st', hrun, -⟩
  have hshape := compactLoop_level2_eq_ok hs ⟨by decide, by decide, by decide⟩ (by decide) (checkAligned_eq_ok hrun)
  exact absurd hshape (by decide)

end Arm
end Propeller
