import Propeller.Arch.Aarch64.Boot

/-!
# Arch.Aarch64.BootMap — what the start code maps

The translation of every address through the tables of the start code, read off their entries.  The sections of
the kernel and of the device tree are at the virtual base, the stack of the primary core is below
`PRIMARY_STACK_START`, and nothing else is mapped.
-/

namespace Propeller
namespace Aarch64

open Paging

variable {mem : Tables Nat}

/-! ## The walks -/

/-- How the hardware reads the access to a page or block: the bit that denies writes. -/
def accessMmu : Mmu Nat where
  entries := fun _ => 512
  stride := 1
  decode h desc :=
    match decode h desc with
    | .block _ => .block (desc &&& mmAccessRo)
    | s => s

theorem accessMmu_block {h desc addr : Nat} (hdec : decode h desc = .block addr) :
    accessMmu.decode h desc = .block (desc &&& mmAccessRo) := by
  simp only [accessMmu, hdec]

theorem accessMmu_invalid {h desc : Nat} (hdec : decode h desc = .invalid) : accessMmu.decode h desc = .invalid := by
  simp only [accessMmu, hdec]

theorem accessMmu_table {h desc addr : Nat} (hdec : decode h desc = .table addr) :
    accessMmu.decode h desc = .table addr := by
  simp only [accessMmu, hdec]

/-- Whether writes to an address are denied. -/
def readOnly (mem : Tables Nat) (root v : Nat) : Bool :=
  (accessMmu.leaf mem 3 root v).any fun b => b.2 != 0

/-- Both readings find the same tables. -/
structure Reads (M : Mmu Nat) : Prop where
  index : ∀ h v, M.index h v = v / span h % 512
  table : ∀ h x, pageSize ∣ x → x < 2 ^ 48 → M.decode (h + 1) (x ||| mmPageTableFlag) = .table x
  zero : ∀ h, M.decode h 0 = .invalid

theorem reads_mmu : Reads mmu := by
  refine ⟨fun _ _ => Nat.mul_one _, ?_, fun h => lawful.zero h⟩
  intro h x hdvd hlt
  exact decode_page hdvd hlt (by decide) (by decide)

theorem reads_accessMmu : Reads accessMmu := by
  refine ⟨fun _ _ => Nat.mul_one _, ?_, fun h => accessMmu_invalid (lawful.zero h)⟩
  intro h x hdvd hlt
  exact accessMmu_table (reads_mmu.table h x hdvd hlt)

section Walk

variable {M : Mmu Nat} {root t next i v h : Nat}

/-- The entry of an address points to a table. -/
theorem Reads.leaf_table (hM : Reads M) (hindex : v / span (h + 1) % 512 = i)
    (hentry : mem t i = next ||| mmPageTableFlag) (hdvd : pageSize ∣ next) (hlt : next < 2 ^ 48) :
    M.leaf mem (h + 1) t v = M.leaf mem h next v := by
  refine Mmu.leaf_of_table ?_
  rw [hM.index, hindex, hentry]
  exact hM.table h next hdvd hlt

/-- The entry of an address is empty. -/
theorem Reads.leaf_zero (hM : Reads M) (hindex : v / span h % 512 = i) (hentry : mem t i = 0) :
    M.leaf mem h t v = none := by
  refine Mmu.leaf_of_invalid ?_
  rw [hM.index, hindex, hentry]
  exact hM.zero h

/-- The walk of an address of the first 512 GiB. -/
theorem LowTables.leaf {entry : Nat → Nat} (hM : Reads M) (h : LowTables mem root entry)
    (hdvd : pageSize ∣ root) (hlt : root + 2 * pageSize < 2 ^ 48) (hv : v / span 3 % 512 = 0) :
    M.leaf mem 3 root v =
      if v / span 2 % 512 = 0 then M.leaf mem 1 (root + pageSize + pageSize) v else none := by
  have hdvd1 : pageSize ∣ root + pageSize := Nat.dvd_add hdvd (Nat.dvd_refl _)
  have hdvd2 : pageSize ∣ root + pageSize + pageSize := Nat.dvd_add hdvd1 (Nat.dvd_refl _)
  rw [hM.leaf_table hv h.level1 hdvd1 (by omega)]
  split
  · rename_i hv2
    exact hM.leaf_table hv2 ((h.level2 0).trans (if_pos rfl)) hdvd2 (by omega)
  · rename_i hv2
    exact hM.leaf_zero rfl ((h.level2 _).trans (if_neg hv2))

/-- The walk of an address of the 512 GiB that the stack is in. -/
theorem StackTables.leaf {stackEnd : Nat} (hM : Reads M) (h : StackTables mem root stackEnd)
    (hdvd : pageSize ∣ root) (hlt : root + 5 * pageSize < 2 ^ 48) (hv : v / span 3 % 512 = 507) :
    M.leaf mem 3 root v =
      if v / span 2 % 512 = 511 ∧ v / span 1 % 512 = 511 then M.leaf mem 0 (root + 5 * pageSize) v else none := by
  have hstep : ∀ k, pageSize ∣ root + k * pageSize := fun k => Nat.dvd_add hdvd (Nat.dvd_mul_left _ _)
  rw [hM.leaf_table hv h.level1 (hstep 3) (by omega)]
  by_cases hv2 : v / span 2 % 512 = 511
  · rw [hM.leaf_table hv2 ((h.level2 511).trans (if_pos rfl)) (hstep 4) (by omega)]
    by_cases hv1 : v / span 1 % 512 = 511
    · rw [hM.leaf_table hv1 ((h.level3 511).trans (if_pos rfl)) (hstep 5) hlt, if_pos ⟨hv2, hv1⟩]
    · rw [if_neg fun h => hv1 h.2]
      exact hM.leaf_zero rfl ((h.level3 _).trans (if_neg hv1))
  · rw [if_neg fun h => hv2 h.1]
    exact hM.leaf_zero rfl ((h.level2 _).trans (if_neg hv2))

end Walk

/-! ## The translation of every address -/

/-- The sections that the start code maps, by their physical addresses. -/
def InSections (sym : BootSymbols) (blob blobSize x : Nat) : Prop :=
  x < sectionEnd sym.kernelEnd ∨ sectionStart blob ≤ x ∧ x < sectionEnd (blob + blobSize)

instance (sym : BootSymbols) (blob blobSize x : Nat) : Decidable (InSections sym blob blobSize x) :=
  inferInstanceAs (Decidable (_ ∨ _))

/-- The end of the stack of the primary core, as a virtual address. -/
def primaryStackEnd : Nat := primaryStackStart - kernelStackPages * pageSize

/-- What the start code maps, for all addresses of the kernel segment. -/
def bootMap (sym : BootSymbols) (blob blobSize v : Nat) : Option Nat :=
  if InSections sym blob blobSize (v - virtualBase) then some (v - virtualBase)
  else if primaryStackEnd ≤ v ∧ v < primaryStackStart then some (sym.stackEnd + (v - primaryStackEnd))
  else none

section Translate

variable {sym : BootSymbols} {blob blobSize x : Nat}

theorem dvd_sectionStart (addr : Nat) : 2 ^ 21 ∣ sectionStart addr :=
  Nat.dvd_mul_left _ _

theorem dvd_sectionEnd (addr : Nat) : 2 ^ 21 ∣ sectionEnd addr :=
  Nat.dvd_mul_left _ _

theorem sectionEnd_le {addr : Nat} (h : addr ≤ 2 ^ 30) : sectionEnd addr ≤ 2 ^ 30 := by
  rw [sectionEnd, sectionSize_eq]
  omega

/-- A section is below a multiple of its size if an address of it is. -/
theorem section_lt_iff {n : Nat} (hn : 2 ^ 21 ∣ n) : x / 2 ^ 21 * 2 ^ 21 < n ↔ x < n := by
  rcases hn with ⟨k, rfl⟩
  omega

theorem le_section_iff {n : Nat} (hn : 2 ^ 21 ∣ n) : n ≤ x / 2 ^ 21 * 2 ^ 21 ↔ n ≤ x := by
  rcases hn with ⟨k, rfl⟩
  omega

/-- The entry of the section that an address is in. -/
theorem sectionEntry_div (x : Nat) :
    sectionEntry sym blob blobSize (x / 2 ^ 21) =
      if sectionStart blob ≤ x ∧ x < sectionEnd (blob + blobSize) then
        x / 2 ^ 21 * 2 ^ 21 ||| (mmuNormalRoFlags ||| mmBlockFlag)
      else if x < sectionEnd sym.kernelEnd then x / 2 ^ 21 * 2 ^ 21 ||| (mmuNormalRwFlags ||| mmBlockFlag)
      else 0 := by
  simp only [sectionEntry, kernelEntry, sectionSize_eq, section_lt_iff (dvd_sectionEnd _),
    le_section_iff (dvd_sectionStart _)]

theorem decode_sectionEntry (sym : BootSymbols) (blob blobSize : Nat) (hx : x < 2 ^ 30) :
    decode 1 (sectionEntry sym blob blobSize (x / 2 ^ 21)) =
      if InSections sym blob blobSize x then .block (x / 2 ^ 21 * 2 ^ 21) else .invalid := by
  have hblock : ∀ flags < 2 ^ 12, flags % 4 = 1 →
      decode 1 (x / 2 ^ 21 * 2 ^ 21 ||| flags) = .block (x / 2 ^ 21 * 2 ^ 21) :=
    fun flags hlt htype => decode_block (Or.inl rfl) (Nat.dvd_mul_left _ _) (by omega) hlt htype
  rw [sectionEntry_div]
  by_cases hblob : sectionStart blob ≤ x ∧ x < sectionEnd (blob + blobSize)
  · have hin : InSections sym blob blobSize x := Or.inr hblob
    rw [if_pos hblob, if_pos hin, hblock _ (by decide) (by decide)]
  · rw [if_neg hblob]
    by_cases hkernel : x < sectionEnd sym.kernelEnd
    · have hin : InSections sym blob blobSize x := Or.inl hkernel
      rw [if_pos hkernel, if_pos hin, hblock _ (by decide) (by decide)]
    · have hout : ¬ InSections sym blob blobSize x := fun h => h.elim hkernel hblob
      rw [if_neg hkernel, if_neg hout]
      exact lawful.zero 1

/-- The access to a page or block is in the flags, which are below its address. -/
theorem or_and_mmAccessRo (flags : Nat) {addr : Nat} (hdvd : pageSize ∣ addr) :
    (addr ||| flags) &&& mmAccessRo = flags &&& mmAccessRo := by
  have hzero : addr.testBit 7 = false := by
    rcases hdvd with ⟨k, rfl⟩
    rw [Nat.mul_comm, show pageSize = 2 ^ 12 from rfl, Nat.testBit_mul_two_pow]
    rfl
  refine Nat.eq_of_testBit_eq fun j => ?_
  rw [Nat.testBit_and, Nat.testBit_and, Nat.testBit_or, show mmAccessRo = 2 ^ 7 from rfl, Nat.testBit_two_pow]
  by_cases hj : 7 = j
  · rw [← hj, hzero, Bool.false_or]
  · rw [decide_eq_false hj, Bool.and_false, Bool.and_false]

/-- The pages of the stack are written to. -/
theorem access_stackEntry {addr : Nat} (hdvd : pageSize ∣ addr) (hlt : addr < 2 ^ 48) :
    accessMmu.decode 0 (addr ||| (mmuNormalRwFlags ||| mmPageFlag)) = .block 0 := by
  have hdecode : decode 0 (addr ||| (mmuNormalRwFlags ||| mmPageFlag)) = .block addr :=
    decode_page hdvd hlt (by decide) (by decide)
  rw [accessMmu_block hdecode, or_and_mmAccessRo _ hdvd]
  rfl

/-- Only the sections of the device tree deny writes. -/
theorem access_sectionEntry (hx : x < 2 ^ 30) (hin : InSections sym blob blobSize x) :
    accessMmu.decode 1 (sectionEntry sym blob blobSize (x / 2 ^ 21)) =
      .block (if sectionStart blob ≤ x ∧ x < sectionEnd (blob + blobSize) then mmAccessRo else 0) := by
  have hdecode := decode_sectionEntry sym blob blobSize hx
  have hdvd : pageSize ∣ x / 2 ^ 21 * 2 ^ 21 :=
    (show pageSize ∣ 2 ^ 21 by decide).trans (Nat.dvd_mul_left _ _)
  rw [if_pos hin] at hdecode
  rw [accessMmu_block hdecode, sectionEntry_div]
  generalize x / 2 ^ 21 * 2 ^ 21 = addr at hdvd
  by_cases hblob : sectionStart blob ≤ x ∧ x < sectionEnd (blob + blobSize)
  · rw [if_pos hblob, if_pos hblob, or_and_mmAccessRo _ hdvd]
    rfl
  · rw [if_neg hblob, if_neg hblob, if_pos (hin.resolve_right hblob), or_and_mmAccessRo _ hdvd]
    rfl

theorem InSections.lt (hlimit : sym.kernelEnd ≤ 2 ^ 30) (hblob : blob + blobSize ≤ 2 ^ 30)
    (hin : InSections sym blob blobSize x) : x < 2 ^ 30 := by
  rcases hin with hkernel | ⟨-, hblob'⟩
  · exact hkernel.trans_le (sectionEnd_le hlimit)
  · exact hblob'.trans_le (sectionEnd_le hblob)

theorem span_one : span 1 = 2 ^ 21 := rfl

theorem span_two : span 2 = 2 ^ 30 := rfl

theorem span_three : span 3 = 2 ^ 39 := rfl

/-- The index of an address of the kernel segment. -/
theorem virtualBase_add_index {j : Nat} (hj : j ≤ 3) (x : Nat) :
    (virtualBase + x) / span j % 512 = x / span j % 512 := by
  have hdvd : span (j + 1) ∣ virtualBase := (span_dvd_span (by omega)).trans (⟨65535, rfl⟩ : span 4 ∣ virtualBase)
  rcases hdvd with ⟨k, hk⟩
  rw [hk, span_succ, Nat.mul_assoc, Nat.mul_add_div (span_pos j), Nat.mul_add_mod]

/-- The walk of an address through the tables that `init` gets, in both readings. -/
theorem KernelTables.leaf {M : Mmu Nat} {entry : Nat → Nat} (hM : Reads M) (hl : BootLayout sym)
    (hlimit : sym.kernelEnd ≤ 2 ^ 30) (h : KernelTables sym entry mem) (hx : x < 2 ^ 48) :
    M.leaf mem 3 sym.pagesStart (virtualBase + x) =
      if x < 2 ^ 30 then M.leaf mem 1 (sym.pagesStart + pageSize + pageSize) (virtualBase + x)
      else if 508 * 2 ^ 39 - 2 ^ 21 ≤ x ∧ x < 508 * 2 ^ 39 then
        M.leaf mem 0 (sym.pagesStart + 5 * pageSize) (virtualBase + x)
      else none := by
  have hpage : pageSize = 4096 := rfl
  have hend : sym.kernelEnd = sym.pagesStart + 16 * 4096 := hl.kernelEnd
  have hdvd := hl.dvd_pages
  have hindex := virtualBase_add_index (j := 3) (by decide) x
  -- The Level 1 table has two entries.
  by_cases h0 : x / span 3 % 512 = 0
  · rw [h.low.leaf hM hdvd (by omega) (hindex.trans h0), virtualBase_add_index (by decide), span_two]
    rw [span_three] at h0
    by_cases hlow : x / 2 ^ 30 % 512 = 0
    · rw [if_pos hlow, if_pos (by omega)]
    · rw [if_neg hlow, if_neg (by omega), if_neg (by omega)]
  · by_cases h507 : x / span 3 % 512 = 507
    · rw [h.stack.leaf hM hdvd (by omega) (hindex.trans h507), virtualBase_add_index (by decide),
        virtualBase_add_index (by decide), span_two, span_one]
      rw [span_three] at h507
      by_cases hstack : x / 2 ^ 30 % 512 = 511 ∧ x / 2 ^ 21 % 512 = 511
      · rw [if_pos hstack, if_neg (by omega), if_pos (by omega)]
      · rw [if_neg hstack, if_neg (by omega), if_neg (by omega)]
    · rw [hM.leaf_zero hindex (h.level1 _ h0 h507)]
      rw [span_three] at h0 h507
      rw [if_neg (by omega), if_neg (by omega)]

/-- The block of an address: a section, or a page of the stack. -/
theorem KernelTables.leaf_mmu {entry : Nat → Nat} (hl : BootLayout sym) (hlimit : sym.kernelEnd ≤ 2 ^ 30)
    (hblob : blob + blobSize ≤ 2 ^ 30) (h : KernelTables sym entry mem)
    (hentry : ∀ e, entry e = sectionEntry sym blob blobSize e) (hx : x < 2 ^ 48) :
    mmu.leaf mem 3 sym.pagesStart (virtualBase + x) =
      if InSections sym blob blobSize x then some (1, x / 2 ^ 21 * 2 ^ 21)
      else if 508 * 2 ^ 39 - 2 * 2 ^ 12 ≤ x ∧ x < 508 * 2 ^ 39 then
        some (0, sym.stackEnd + (x / 2 ^ 12 % 512 - 510) * pageSize)
      else none := by
  have hpage : pageSize = 4096 := rfl
  have hlt : InSections sym blob blobSize x → x < 2 ^ 30 := InSections.lt hlimit hblob
  rw [h.leaf reads_mmu hl hlimit hx]
  by_cases hlow : x < 2 ^ 30
  · have hindex : mmu.index 1 (virtualBase + x) = x / 2 ^ 21 := by
      rw [reads_mmu.index, virtualBase_add_index (by decide), span_one]
      omega
    have hdec : mmu.decode 1 (mem (sym.pagesStart + pageSize + pageSize) (mmu.index 1 (virtualBase + x))) =
        if InSections sym blob blobSize x then .block (x / 2 ^ 21 * 2 ^ 21) else .invalid := by
      rw [hindex, h.low.level3, hentry]
      exact decode_sectionEntry sym blob blobSize hlow
    rw [if_pos hlow]
    by_cases hin : InSections sym blob blobSize x
    · rw [if_pos hin] at hdec ⊢
      exact Mmu.leaf_of_block hdec
    · rw [if_neg hin] at hdec ⊢
      rw [if_neg (by omega)]
      exact Mmu.leaf_of_invalid hdec
  · rw [if_neg hlow, if_neg fun hin => hlow (hlt hin)]
    by_cases htable : 508 * 2 ^ 39 - 2 ^ 21 ≤ x ∧ x < 508 * 2 ^ 39
    · have hindex : mmu.index 0 (virtualBase + x) = x / 2 ^ 12 % 512 :=
        (reads_mmu.index 0 _).trans (virtualBase_add_index (by decide) x)
      have hlevel4 := h.stack.level4 (x / 2 ^ 12 % 512)
      rw [if_pos htable]
      by_cases hstack : 508 * 2 ^ 39 - 2 * 2 ^ 12 ≤ x
      · rw [if_pos ⟨hstack, htable.2⟩]
        rw [if_pos (by omega)] at hlevel4
        refine Mmu.leaf_of_block ?_
        rw [hindex, hlevel4]
        exact decode_page (hl.dvd_stack _) (hl.stack_lt hlimit (by omega)) (by decide) (by decide)
      · rw [if_neg fun hs => hstack hs.1]
        rw [if_neg (by omega)] at hlevel4
        refine Mmu.leaf_of_invalid ?_
        rw [hindex, hlevel4]
        exact lawful.zero 0
    · rw [if_neg htable, if_neg (by omega)]

/-- Every address of the kernel segment is translated as the map of the start code says. -/
theorem KernelTables.walk {entry : Nat → Nat} (hl : BootLayout sym) (hlimit : sym.kernelEnd ≤ 2 ^ 30)
    (hblob : blob + blobSize ≤ 2 ^ 30) (h : KernelTables sym entry mem)
    (hentry : ∀ e, entry e = sectionEntry sym blob blobSize e) (hx : x < 2 ^ 48) :
    mmu.walk mem 3 sym.pagesStart (virtualBase + x) = bootMap sym blob blobSize (virtualBase + x) := by
  have hstart : primaryStackStart = virtualBase + 508 * 2 ^ 39 := by decide
  have hend : primaryStackEnd = virtualBase + (508 * 2 ^ 39 - 2 * 2 ^ 12) := by decide
  rw [Mmu.walk, h.leaf_mmu hl hlimit hblob hentry hx, bootMap, Nat.add_sub_cancel_left, hstart, hend]
  by_cases hin : InSections sym blob blobSize x
  · rw [if_pos hin, if_pos hin, Option.map_some, virtualBase_add_mod (j := 1) (by decide), span_one]
    exact congrArg some (by omega)
  · rw [if_neg hin, if_neg hin]
    by_cases hstack : 508 * 2 ^ 39 - 2 * 2 ^ 12 ≤ x ∧ x < 508 * 2 ^ 39
    · have hv : virtualBase + (508 * 2 ^ 39 - 2 * 2 ^ 12) ≤ virtualBase + x ∧
          virtualBase + x < virtualBase + 508 * 2 ^ 39 :=
        ⟨Nat.add_le_add_left hstack.1 _, Nat.add_lt_add_left hstack.2 _⟩
      rw [if_pos hstack, if_pos hv, Option.map_some, virtualBase_add_mod (j := 0) (by decide), Nat.add_sub_add_left,
        show pageSize = 2 ^ 12 from rfl, show span 0 = 2 ^ 12 from rfl]
      exact congrArg some (by omega)
    · rw [if_neg hstack, if_neg, Option.map_none]
      exact fun hv => hstack ⟨Nat.le_of_add_le_add_left hv.1, Nat.lt_of_add_lt_add_left hv.2⟩

/-- The device tree is read-only, and nothing else is. -/
theorem KernelTables.readOnly {entry : Nat → Nat} (hl : BootLayout sym) (hlimit : sym.kernelEnd ≤ 2 ^ 30)
    (hblob : blob + blobSize ≤ 2 ^ 30) (h : KernelTables sym entry mem)
    (hentry : ∀ e, entry e = sectionEntry sym blob blobSize e) (hx : x < 2 ^ 48) :
    readOnly mem sym.pagesStart (virtualBase + x) = true ↔
      sectionStart blob ≤ x ∧ x < sectionEnd (blob + blobSize) := by
  have hlt : InSections sym blob blobSize x → x < 2 ^ 30 := InSections.lt hlimit hblob
  rw [Aarch64.readOnly, h.leaf reads_accessMmu hl hlimit hx]
  by_cases hlow : x < 2 ^ 30
  · have hindex : accessMmu.index 1 (virtualBase + x) = x / 2 ^ 21 := by
      rw [reads_accessMmu.index, virtualBase_add_index (by decide), span_one]
      omega
    have hdesc : mem (sym.pagesStart + pageSize + pageSize) (accessMmu.index 1 (virtualBase + x)) =
        sectionEntry sym blob blobSize (x / 2 ^ 21) := by
      rw [hindex, h.low.level3, hentry]
    rw [if_pos hlow]
    by_cases hin : InSections sym blob blobSize x
    · have hdec := access_sectionEntry hlow hin
      rw [← hdesc] at hdec
      rw [Mmu.leaf_of_block hdec, Option.any_some]
      by_cases hblob : sectionStart blob ≤ x ∧ x < sectionEnd (blob + blobSize)
      · rw [if_pos hblob]
        exact ⟨fun _ => hblob, fun _ => rfl⟩
      · rw [if_neg hblob]
        exact ⟨fun hne => absurd hne (by decide), fun hin => absurd hin hblob⟩
    · have hdec := decode_sectionEntry sym blob blobSize hlow
      rw [if_neg hin, ← hdesc] at hdec
      rw [Mmu.leaf_of_invalid (accessMmu_invalid hdec)]
      exact ⟨fun hne => absurd hne (by decide), fun hblob => absurd (Or.inr hblob) hin⟩
  · have hout : ¬ (sectionStart blob ≤ x ∧ x < sectionEnd (blob + blobSize)) := fun hblob => hlow (hlt (Or.inr hblob))
    rw [if_neg hlow, iff_false_intro hout, iff_false, Bool.not_eq_true]
    split
    · -- A page of the stack, or no page.
      have hlevel4 := h.stack.level4 (accessMmu.index 0 (virtualBase + x))
      split at hlevel4
      · rw [Mmu.leaf_of_block (hlevel4 ▸ access_stackEntry (hl.dvd_stack _) (hl.stack_lt hlimit (by omega)))]
        rfl
      · have hnone : accessMmu.leaf mem 0 (sym.pagesStart + 5 * pageSize) (virtualBase + x) = none := by
          refine Mmu.leaf_of_invalid ?_
          rw [hlevel4]
          exact reads_accessMmu.zero 0
        rw [hnone]
        rfl
    · rfl

/-- The second tree maps the sections of the kernel to themselves. -/
theorem BootTables.walk_identity {entry : Nat → Nat} (hl : BootLayout sym) (hlimit : sym.kernelEnd ≤ 2 ^ 30)
    (h : BootTables sym entry (kernelEntry sym) mem) (hx : x < 2 ^ 48) :
    mmu.walk mem 3 sym.idPagesStart x = if x < sectionEnd sym.kernelEnd then some x else none := by
  have hpage : pageSize = 4096 := rfl
  have hpages := hl.pages_eq
  have hend : sym.kernelEnd = sym.pagesStart + 16 * 4096 := hl.kernelEnd
  have hdvd : pageSize ∣ sym.idPagesStart := by
    rw [hl.idPages]
    exact dvd_add (hl.dvd_stack _) dvd_rfl
  have hsection := sectionEnd_le hlimit
  rw [Mmu.walk]
  by_cases h0 : x / span 3 % 512 = 0
  · rw [h.idLow.leaf reads_mmu hdvd (by omega) h0, span_two]
    rw [span_three] at h0
    by_cases hlow : x / 2 ^ 30 % 512 = 0
    · have hindex : mmu.index 1 x = x / 2 ^ 21 := by
        rw [reads_mmu.index, span_one]
        omega
      have hdesc : mem (sym.idPagesStart + pageSize + pageSize) (mmu.index 1 x) =
          if x < sectionEnd sym.kernelEnd then x / 2 ^ 21 * 2 ^ 21 ||| (mmuNormalRwFlags ||| mmBlockFlag) else 0 := by
        rw [hindex, h.idLow.level3]
        simp only [kernelEntry, sectionSize_eq, section_lt_iff (dvd_sectionEnd _)]
      rw [if_pos hlow]
      by_cases hkernel : x < sectionEnd sym.kernelEnd
      · rw [if_pos hkernel] at hdesc ⊢
        have hblock : mmu.decode 1 (x / 2 ^ 21 * 2 ^ 21 ||| (mmuNormalRwFlags ||| mmBlockFlag)) =
            .block (x / 2 ^ 21 * 2 ^ 21) :=
          decode_block (Or.inl rfl) (Nat.dvd_mul_left _ _) (by omega) (by decide) (by decide)
        rw [Mmu.leaf_of_block (hdesc ▸ hblock), Option.map_some, span_one]
        exact congrArg some (by omega)
      · rw [if_neg hkernel] at hdesc ⊢
        rw [reads_mmu.leaf_zero (reads_mmu.index 1 x).symm hdesc]
        rfl
    · rw [if_neg hlow, if_neg (by omega)]
      rfl
  · rw [reads_mmu.leaf_zero rfl (h.idLevel1 _ h0)]
    rw [span_three] at h0
    rw [if_neg (by omega)]
    rfl

/-- An entry for a section never points to a table. -/
theorem sectionEntry_ne_table (sym : BootSymbols) (blob blobSize e next : Nat) :
    decode 1 (sectionEntry sym blob blobSize e) ≠ .table next := by
  have hsection : ∀ flags < 2 ^ 12, flags % 4 = 1 → decode 1 (e * sectionSize ||| flags) ≠ .table next := by
    intro flags hlt htype hdec
    have hdvd : 2 ^ 2 ∣ e * sectionSize := (show 2 ^ 2 ∣ sectionSize by decide).trans (Nat.dvd_mul_left _ _)
    have hmod := (or_mod_two_pow (c := flags) hdvd).symm.trans (decode_eq_table hdec).2.1
    omega
  rw [sectionEntry, kernelEntry]
  split
  · exact hsection _ (by decide) (by decide)
  · split
    · exact hsection _ (by decide) (by decide)
    · rw [show decode 1 0 = .invalid from lawful.zero 1]
      exact fun h => Slot.noConfusion h

/-- The tables of a table that has one entry. -/
theorem separate_of_single {root h i next : Nat} {S : Set Nat} (hnext : mmu.Separate mem h next S) (hroot : root ∉ S)
    (hentry : ∀ j, j ≠ i → mem root j = 0) (hi : ∀ x, mmu.decode (h + 1) (mem root i) = .table x → x = next) :
    mmu.Separate mem (h + 1) root (insert root S) := by
  refine ⟨Set.mem_insert _ _, fun j => if j = i then S else ∅, ?_, ?_, ?_⟩
  · intro j
    by_cases hj : j = i
    · simp only [hj, if_true]
      exact ⟨Set.subset_insert _ _, hroot⟩
    · simp only [hj, if_false]
      exact ⟨Set.empty_subset _, Set.notMem_empty _⟩
  · intro j k hjk
    by_cases hj : j = i
    · have hk : k ≠ i := fun hk => hjk (hj.trans hk.symm)
      simp only [hk, if_false]
      exact Set.disjoint_empty _
    · simp only [hj, if_false]
      exact Set.empty_disjoint _
  · intro j x hdec
    by_cases hj : j = i
    · subst hj
      rw [hi x hdec]
      simp only [if_true]
      exact hnext
    · rw [hentry j hj, show mmu.decode (h + 1) 0 = .invalid from lawful.zero _] at hdec
      cases hdec

/-- The tables of `init` are six tables, and none of them is reached on two paths. -/
theorem KernelTables.separate {entry : Nat → Nat} (hl : BootLayout sym) (hlimit : sym.kernelEnd ≤ 2 ^ 30)
    (h : KernelTables sym entry mem) (hentry : ∀ e, entry e = sectionEntry sym blob blobSize e) :
    mmu.Separate mem 3 sym.pagesStart {t | ∃ k < 6, t = sym.pagesStart + k * pageSize} := by
  have hpage : pageSize = 4096 := rfl
  have hend : sym.kernelEnd = sym.pagesStart + 16 * 4096 := hl.kernelEnd
  have hdvd : ∀ k, pageSize ∣ sym.pagesStart + k * pageSize :=
    fun k => dvd_add hl.dvd_pages (Nat.dvd_mul_left _ _)
  have htwo : sym.pagesStart + pageSize + pageSize = sym.pagesStart + 2 * pageSize := by omega
  have hone : sym.pagesStart + pageSize = sym.pagesStart + 1 * pageSize := by omega
  have hptr : ∀ h k x, k < 6 → mmu.decode (h + 1) ((sym.pagesStart + k * pageSize) ||| mmPageTableFlag) = .table x →
      x = sym.pagesStart + k * pageSize := by
    intro h k x hk hdec
    rw [reads_mmu.table h _ (hdvd k) (by rw [hpage]; omega)] at hdec
    exact (Slot.table.inj hdec).symm
  -- The sections, and the tables above them.
  have hlow1 : mmu.Separate mem 1 (sym.pagesStart + 2 * pageSize) {sym.pagesStart + 2 * pageSize} := by
    refine ⟨rfl, fun _ => ∅, fun _ => ⟨Set.empty_subset _, Set.notMem_empty _⟩, fun _ _ _ => Set.disjoint_empty _, ?_⟩
    intro i next hdec
    rw [← htwo, h.low.level3, hentry] at hdec
    exact absurd hdec (sectionEntry_ne_table sym blob blobSize i next)
  have hlow2 : mmu.Separate mem 2 (sym.pagesStart + 1 * pageSize)
      {sym.pagesStart + 1 * pageSize, sym.pagesStart + 2 * pageSize} := by
    refine separate_of_single (i := 0) hlow1 (by rw [Set.mem_singleton_iff]; omega) ?_ ?_
    · intro j hj
      rw [← hone, h.low.level2, if_neg hj]
    · intro x
      rw [← hone, h.low.level2, if_pos rfl, htwo]
      exact hptr 1 2 x (by decide)
  -- The page table of the stack, and the tables above it.
  have hstack0 : mmu.Separate mem 0 (sym.pagesStart + 5 * pageSize) {sym.pagesStart + 5 * pageSize} := rfl
  have hstack1 : mmu.Separate mem 1 (sym.pagesStart + 4 * pageSize)
      {sym.pagesStart + 4 * pageSize, sym.pagesStart + 5 * pageSize} := by
    refine separate_of_single (i := 511) hstack0 (by rw [Set.mem_singleton_iff]; omega) ?_ ?_
    · intro j hj
      rw [h.stack.level3, if_neg hj]
    · intro x
      rw [h.stack.level3, if_pos rfl]
      exact hptr 0 5 x (by decide)
  have hstack2 : mmu.Separate mem 2 (sym.pagesStart + 3 * pageSize)
      {sym.pagesStart + 3 * pageSize, sym.pagesStart + 4 * pageSize, sym.pagesStart + 5 * pageSize} := by
    refine separate_of_single (i := 511) hstack1 ?_ ?_ ?_
    · rw [Set.mem_insert_iff, Set.mem_singleton_iff]
      omega
    · intro j hj
      rw [h.stack.level2, if_neg hj]
    · intro x
      rw [h.stack.level2, if_pos rfl]
      exact hptr 1 4 x (by decide)
  refine ⟨⟨0, by decide, by omega⟩, fun i => {t | (i = 0 ∧ ∃ k, 1 ≤ k ∧ k < 3 ∧ t = sym.pagesStart + k * pageSize) ∨
    i = 507 ∧ ∃ k, 3 ≤ k ∧ k < 6 ∧ t = sym.pagesStart + k * pageSize}, ?_, ?_, ?_⟩
  · intro i
    constructor
    · rintro t (⟨-, k, -, hk, rfl⟩ | ⟨-, k, -, hk, rfl⟩)
      · exact ⟨k, by omega, rfl⟩
      · exact ⟨k, by omega, rfl⟩
    · rintro (⟨-, k, hk, -, heq⟩ | ⟨-, k, hk, -, heq⟩)
      · rw [hpage] at heq
        omega
      · rw [hpage] at heq
        omega
  · intro i j hij
    rw [Set.disjoint_left]
    rintro t (⟨hi, k, hk, hk', rfl⟩ | ⟨hi, k, hk, hk', rfl⟩) (⟨hj, m, hm, hm', heq⟩ | ⟨hj, m, hm, hm', heq⟩)
    · omega
    · rw [hpage] at heq
      omega
    · rw [hpage] at heq
      omega
    · omega
  · intro i next hdec
    by_cases h0 : i = 0
    · rw [h0, h.low.level1, hone] at hdec
      rw [hptr 2 1 next (by decide) hdec]
      refine hlow2.mono ?_
      rintro t (rfl | rfl)
      · exact Or.inl ⟨h0, 1, by decide, by decide, rfl⟩
      · exact Or.inl ⟨h0, 2, by decide, by decide, rfl⟩
    · by_cases h507 : i = 507
      · rw [h507, h.stack.level1] at hdec
        rw [hptr 2 3 next (by decide) hdec]
        refine hstack2.mono ?_
        rintro t (rfl | rfl | rfl)
        · exact Or.inr ⟨h507, 3, by decide, by decide, rfl⟩
        · exact Or.inr ⟨h507, 4, by decide, by decide, rfl⟩
        · exact Or.inr ⟨h507, 5, by decide, by decide, rfl⟩
      · rw [h.level1 i h0 h507, show mmu.decode 3 0 = .invalid from lawful.zero 3] at hdec
        cases hdec

end Translate

section Boot

variable {kernelStart blob blobSize : Nat} {s : Sections}

/-- What the start code maps, whatever was in memory before, if the image and the device tree are in the first
GiB: the sections of both at the virtual base and the stack of the primary core, and nothing else.  Of these
only the sections of the device tree are read-only.  While the MMU is turned on, the kernel is mapped to itself
as well. -/
theorem boot_tables_translate (mem : Tables Nat) (hstart : virtualBase ≤ kernelStart)
    (hkernel : (bootSymbols kernelStart s).kernelEnd ≤ 2 ^ 30) (hsize : 0 < blobSize)
    (hblob : blob + blobSize ≤ 2 ^ 30) :
    (∀ v, virtualBase ≤ v → v < 2 ^ 64 →
      mmu.walk (bootPageTables (bootSymbols kernelStart s) blob blobSize mem) 3
        (bootSymbols kernelStart s).pagesStart v = bootMap (bootSymbols kernelStart s) blob blobSize v) ∧
      (∀ v, virtualBase ≤ v → v < 2 ^ 64 →
        (readOnly (bootPageTables (bootSymbols kernelStart s) blob blobSize mem)
          (bootSymbols kernelStart s).pagesStart v = true ↔
          sectionStart blob ≤ v - virtualBase ∧ v - virtualBase < sectionEnd (blob + blobSize))) ∧
      ∀ v < 2 ^ 48, mmu.walk (createKernelPageTables (bootSymbols kernelStart s) blob blobSize mem) 3
        (bootSymbols kernelStart s).idPagesStart v =
          if v < sectionEnd (bootSymbols kernelStart s).kernelEnd then some v else none := by
  have hl := bootSymbols_layout s hstart
  rcases createKernelPageTables_tables hl hkernel blob blobSize mem with ⟨entry, htables, hentry⟩
  have hboot := setupPrimaryCoreStack_tables hl htables
  have hoffset : ∀ v, virtualBase ≤ v → v < 2 ^ 64 → ∃ x < 2 ^ 48, v = virtualBase + x := by
    intro v hlo hhi
    refine ⟨v - virtualBase, ?_, by omega⟩
    rw [virtualBase] at hlo ⊢
    omega
  refine ⟨?_, ?_, fun v hv => htables.walk_identity hl hkernel hv⟩
  · intro v hlo hhi
    rcases hoffset v hlo hhi with ⟨x, hx, rfl⟩
    exact hboot.walk hl hkernel hblob (hentry hsize hblob) hx
  · intro v hlo hhi
    rcases hoffset v hlo hhi with ⟨x, hx, rfl⟩
    rw [Nat.add_sub_cancel_left]
    exact hboot.readOnly hl hkernel hblob (hentry hsize hblob) hx

/-- An image at 512 KiB. -/
def imageStart : Nat := virtualBase + 0x80000

def imageSections : Sections := ⟨0x12345, 0x4000, 0x1800, 0x2000, 0, 0⟩

/-- The first page of the stack, with the image at 512 KiB and the device tree at 752 MiB. -/
theorem boot_tables_translate_stack :
    virtualBase ≤ imageStart ∧ (bootSymbols imageStart imageSections).kernelEnd ≤ 2 ^ 30 ∧
      mmu.walk (bootPageTables (bootSymbols imageStart imageSections) 0x2f000000 0x8000 fun _ _ => 0) 3
        (bootSymbols imageStart imageSections).pagesStart 0xfffffdffffffe010 =
          some ((bootSymbols imageStart imageSections).stackEnd + 0x10) := by
  refine ⟨by decide, by decide, ?_⟩
  rw [(boot_tables_translate (fun _ _ => 0) (by decide) (by decide) (by decide) (by decide)).1 _ (by decide) (by decide)]
  decide

/-- The device tree is read through the tables, at the virtual base, exactly if it ends in the first GiB.  The
start code gets its address in 32 bits and its size from 32 bits. -/
theorem boot_blob_mapped_iff (mem : Tables Nat) (hstart : virtualBase ≤ kernelStart)
    (hkernel : (bootSymbols kernelStart s).kernelEnd ≤ 2 ^ 30) (hsize : 0 < blobSize)
    (hblob : blob < 2 ^ 32) (hsize' : blobSize < 2 ^ 32) :
    (∀ x < blobSize, mmu.walk (bootPageTables (bootSymbols kernelStart s) blob blobSize mem) 3
      (bootSymbols kernelStart s).pagesStart (virtualBase + blob + x) = some (blob + x)) ↔
      blob + blobSize ≤ 2 ^ 30 := by
  have hl := bootSymbols_layout s hstart
  rcases createKernelPageTables_tables hl hkernel blob blobSize mem with ⟨entry, htables, hentry⟩
  have hboot := setupPrimaryCoreStack_tables hl htables
  constructor
  · intro hall
    by_contra hnot
    -- The last address of the device tree is not in the first GiB.
    have hlast := hall (blobSize - 1) (by omega)
    have hleaf := hboot.leaf reads_mmu hl hkernel (show blob + (blobSize - 1) < 2 ^ 48 by omega)
    rw [if_neg (by omega), if_neg (by omega)] at hleaf
    rw [Nat.add_assoc, bootPageTables, Mmu.walk, hleaf] at hlast
    cases hlast
  · intro hblob' x hx
    have hin : InSections (bootSymbols kernelStart s) blob blobSize (blob + x) := by
      refine Or.inr ⟨?_, (show blob + x < blob + blobSize by omega).trans_le (le_sectionEnd _)⟩
      have hle : sectionStart blob ≤ blob := Nat.div_mul_le_self _ _
      omega
    rw [Nat.add_assoc, bootPageTables, hboot.walk hl hkernel hblob' (hentry hsize hblob') (by omega), bootMap,
      Nat.add_sub_cancel_left, if_pos hin]

/-- A device tree at the end of the first GiB, and one byte more. -/
theorem boot_blob_mapped_gib :
    (∀ x < 0x8000, mmu.walk (bootPageTables (bootSymbols imageStart imageSections) 0x3fff8000 0x8000 fun _ _ => 0) 3
      (bootSymbols imageStart imageSections).pagesStart (virtualBase + 0x3fff8000 + x) = some (0x3fff8000 + x)) ∧
      ¬ ∀ x < 0x8001, mmu.walk (bootPageTables (bootSymbols imageStart imageSections) 0x3fff8000 0x8001 fun _ _ => 0) 3
        (bootSymbols imageStart imageSections).pagesStart (virtualBase + 0x3fff8000 + x) = some (0x3fff8000 + x) := by
  have hiff := fun size h h' => @boot_blob_mapped_iff imageStart 0x3fff8000 size imageSections (fun _ _ => 0)
    (by decide) (by decide) h (by decide) h'
  exact ⟨(hiff 0x8000 (by decide) (by decide)).2 (by decide),
    fun hall => absurd ((hiff 0x8001 (by decide) (by decide)).1 hall) (by decide)⟩

end Boot

end Aarch64
end Propeller
