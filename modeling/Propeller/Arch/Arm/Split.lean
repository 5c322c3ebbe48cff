import Propeller.Arch.MapMemory

/-!
# Arch.Arm.Split — the kernel segment of a 2/2 split

With a 2/2 split the hardware uses bit 30 of a kernel address for Level 1, and the start code builds a Level 1
table with the entries 0 and 1.  The kernel takes the entry from bits 31 and 30, which is entry 2 or 3.
-/

namespace Propeller
namespace Arm

open Paging

/-- `init_table` of the start code, for the table at `root`.  The two Level 2 tables are the pages behind it.
Entries have two words. -/
def initTable (root virtStart : Nat) (mem : Tables Desc) : Tables Desc :=
  let entry := (virtStart >>> level1ShiftLong &&& 1) <<< 1
  let lower := root + pageSize
  let upper := lower + pageSize
  (mem.set root entry (lower ||| mmPageTableFlagLong, 0)).set root (entry + 2) (upper ||| mmPageTableFlagLong, 0)

variable {virt : Nat}

/-- The kernel and the hardware take different entries. -/
theorem getDescriptorIndex_ne (hlo : 2 ^ 31 ≤ virt) (hhi : virt < 2 ^ 32) :
    getDescriptorIndex virt .level1 ≠ (hardware .two virt).index 2 virt := by
  have hhard : hardware .two virt = mmuOf 2 := if_pos ⟨hlo, rfl⟩
  have hcode : getDescriptorIndex virt .level1 = virt / 2 ^ 30 % 4 * 2 := index_eq virt 30 2
  have hhw : (mmuOf 2).index 2 virt = virt / 2 ^ 30 % 2 * 2 := rfl
  rw [hhard, hcode, hhw]
  omega

/-- The start code leaves the entries that the kernel looks at empty. -/
theorem initTable_entry {root : Nat} {mem : Tables Desc} (hmem : ∀ i, mem root i = format.zero)
    (hlo : 2 ^ 31 ≤ virt) (hhi : virt < 2 ^ 32) :
    initTable root VmSplit.two.virtualBase mem root (getDescriptorIndex virt .level1) = format.zero := by
  have hcode : getDescriptorIndex virt .level1 = virt / 2 ^ 30 % 4 * 2 := index_eq virt 30 2
  have hentry : (VmSplit.two.virtualBase >>> level1ShiftLong &&& 1) <<< 1 = 0 := by decide
  rw [hcode, initTable, hentry, Tables.set_of_ne_entry (by omega), Tables.set_of_ne_entry (by omega)]
  exact hmem _

/-- `map_thread_local_table` finds no Level 2 table. -/
theorem mapThreadLocalTable_two {root tableAddr : Nat} {st : TableState Desc}
    (hentry : st.mem root (getDescriptorIndex virt .level1) = format.zero) :
    mapThreadLocalTable .two root virt tableAddr st = .error .unwrap := by
  have hlevel : getFirstTableLevel .two virt = .level1 := if_neg (fun h => nomatch h.2)
  have hnone : getPhysAddrFromDescriptor .level1 format.zero = none := rfl
  rw [mapThreadLocalTable]
  simp only [hlevel, if_true, hentry, hnone, unwrap]
  rfl

/-- The tables of the start code, before anything is mapped, are a tree. -/
theorem initTable_separate {root : Nat} {mem : Tables Desc} (hmem : ∀ t i, mem t i = format.zero)
    (hroot : pageSize ∣ root) (hlt : root + 2 * pageSize < physLimit) :
    mmu.Separate (initTable root VmSplit.two.virtualBase mem) 2 root
      {root, root + pageSize, root + 2 * pageSize} := by
  have hpos := pageSize_pos
  have hentry : (VmSplit.two.virtualBase >>> level1ShiftLong &&& 1) <<< 1 = 0 := by decide
  -- A page that the start code does not write is an empty table.
  have hempty : ∀ t, t ≠ root → mmu.Separate (initTable root VmSplit.two.virtualBase mem) 1 t {t} := by
    intro t ht
    refine Mmu.separate_of_invalid fun i => ?_
    rw [initTable, Tables.set_of_ne_table ht, Tables.set_of_ne_table ht, hmem]
    rfl
  -- What the two entries say.
  have htable : ∀ k, k = 1 ∨ k = 2 → decode 2 (root + k * pageSize ||| mmPageTableFlagLong, 0) =
      .table (root + k * pageSize) := by
    intro k hk
    refine decode_page ?_ ?_ (by decide) rfl
    · exact dvd_add hroot (Nat.dvd_mul_left _ _)
    · rw [physLimit] at hlt
      rcases hk with rfl | rfl <;> omega
  have hone : root + pageSize = root + 1 * pageSize := by rw [Nat.one_mul]
  have htwo : root + pageSize + pageSize = root + 2 * pageSize := by omega
  refine ⟨Or.inl rfl,
    fun i => {x | i = 0 ∧ x = root + pageSize ∨ i = 2 ∧ x = root + 2 * pageSize}, ?_, ?_, ?_⟩
  · intro i
    constructor
    · rintro x (⟨-, rfl⟩ | ⟨-, rfl⟩)
      · exact Or.inr (Or.inl rfl)
      · exact Or.inr (Or.inr rfl)
    · rintro (⟨-, hx⟩ | ⟨-, hx⟩) <;> omega
  · intro i j hij
    rw [Set.disjoint_left]
    rintro x (⟨hi, hx⟩ | ⟨hi, hx⟩) (⟨hj, hx'⟩ | ⟨hj, hx'⟩) <;> omega
  · intro i next hnext
    rw [initTable, hentry] at hnext
    by_cases h2 : i = 2
    · subst h2
      rw [Tables.set_self, htwo] at hnext
      obtain rfl := Slot.table.inj (hnext.symm.trans (htable 2 (Or.inr rfl)))
      refine (hempty _ (by omega)).mono ?_
      rintro x rfl
      exact Or.inr ⟨rfl, rfl⟩
    · rw [Tables.set_of_ne_entry h2] at hnext
      by_cases h0 : i = 0
      · subst h0
        rw [Tables.set_self, hone] at hnext
        obtain rfl := Slot.table.inj (hnext.symm.trans (htable 1 (Or.inl rfl)))
        rw [← hone]
        refine (hempty _ (by omega)).mono ?_
        rintro x rfl
        exact Or.inl ⟨rfl, rfl⟩
      · rw [Tables.set_of_ne_entry h0, hmem] at hnext
        cases hnext

/-! ## No agreement -/

/-- What follows for every kernel address of a 2/2 split: the entries differ, `map_thread_local_table` panics
on the table of the start code, and whatever is mapped at the address, no kernel address is translated in a
new way. -/
theorem two_split_disagrees (virt : Nat) (hlo : VmSplit.two.virtualBase ≤ virt) (hhi : virt < 2 ^ 32) :
    getDescriptorIndex virt .level1 ≠ (hardware .two virt).index 2 virt ∧
    (∀ (root tableAddr : Nat) (mem : Tables Desc) (st : TableState Desc), (∀ i, mem root i = format.zero) →
      st.mem = initTable root VmSplit.two.virtualBase mem →
      mapThreadLocalTable .two root virt tableAddr st = .error .unwrap) ∧
    (∀ (P : Profile) (strategy : MappingStrategy) (device : Bool) (root base size fuel : Nat)
      (st st' : TableState Desc) (S : Set Nat), Sound mmu physLimit st 2 root S → 0 < size →
      virt + size ≤ 2 ^ 32 → base + size ≤ 2 ^ 32 →
      (mapMemory P .two root virt base size device strategy fuel st = .ok st' ∨
        virt = VmSplit.two.virtualBase + base ∧
          directMapMemory P .two root base size device strategy fuel st = .ok st') →
      ∀ v, VmSplit.two.virtualBase ≤ v → v < 2 ^ 32 →
        (hardware .two v).walk st'.mem 2 root v = (hardware .two v).walk st.mem 2 root v) := by
  refine ⟨getDescriptorIndex_ne hlo hhi, ?_, ?_⟩
  · intro root tableAddr mem st hmem hst
    refine mapThreadLocalTable_two ?_
    rw [hst]
    exact initTable_entry hmem hlo hhi
  · intro P strategy device root base size fuel st st' S hs hpos hend hlimit hcall v hv hv'
    have hlevel : getFirstTableLevel .two virt = .level1 := if_neg (fun h => nomatch h.2)
    have hhard : hardware .two v = mmuOf 2 := if_pos ⟨hv, rfl⟩
    have hrun : fillTable format P .arm device strategy fuel .level1 root virt base size st = .ok st' := by
      rcases hcall with hmap | ⟨hvirt, hmap⟩
      · rw [mapMemory, hlevel] at hmap
        exact hmap
      · rcases run_bind_eq_ok.1 hmap with ⟨virt', hvirt', hmap⟩
        rw [addWord_of_lt (by rw [← hvirt]; exact hhi), ← hvirt] at hvirt'
        obtain rfl := Except.ok.inj hvirt'
        rw [hlevel] at hmap
        exact hmap
    rw [hhard]
    exact fillTable_two_unchanged hs hlo hend hlimit hpos hv hv' hrun

/-- The table of the start code at address zero, and six pages. -/
def startState : TableState Desc where
  mem := initTable 0 VmSplit.two.virtualBase fun _ _ => format.zero
  supply := fun m => if m < 6 then some (pageSize * (m + 3)) else none
  used := 0

theorem startState_sound : Sound mmu physLimit startState 2 0 {0, 0 + pageSize, 0 + 2 * pageSize} := by
  have hsupply : ∀ m x, startState.supply m = some x → m < 6 ∧ x = 4096 * (m + 3) := by
    intro m x hx
    simp only [startState] at hx
    split at hx
    · rename_i hm
      exact ⟨hm, (Option.some.inj hx).symm⟩
    · cases hx
  have hpage : pageSize = 4096 := rfl
  refine ⟨initTable_separate (fun _ _ => rfl) (Nat.dvd_zero _) (by decide), ?_, ?_, ?_⟩
  · rintro x (rfl | rfl | rfl) <;> decide
  · intro m x _ hx
    rcases hsupply m x hx with ⟨hm, rfl⟩
    refine ⟨?_, ?_, Nat.dvd_mul_right _ _⟩
    · rw [Set.mem_insert_iff, Set.mem_insert_iff, Set.mem_singleton_iff]
      omega
    · rw [physLimit]
      omega
  · intro m k x _ _ hm hk
    have hm' := (hsupply m x hm).2
    have hk' := (hsupply k x hk).2
    omega

/-- A page at the start of the kernel segment: the call returns, and the page is not mapped. -/
theorem two_split_page_unmapped :
    ∃ fuel st', mapMemory .dev .two 0 0x80000000 0x80000 0x1000 false .granular fuel startState = .ok st' ∧
      (hardware .two 0x80000000).walk st'.mem 2 0 0x80000000 = none := by
  have hfits : Fits .arm 0x80000000 0x80000 0x1000 := ⟨by decide, by decide, by decide⟩
  have hpages : HasPages startState (TableLevel.height .level1) := by
    intro m hm
    refine ⟨pageSize * (0 + m + 3), if_pos ?_⟩
    have hm2 : m < 2 := hm
    show 0 + m < 6
    omega
  have hreturns : ∃ st', granularLoop format .dev .arm false 4 .level1 0 0x80000000 0x80000 0x1000 startState =
      .ok st' :=
    granularLoop_returns lawful startState_sound hfits (by decide) (by decide) (by decide) (by decide) (by decide)
      hpages (by decide)
  rcases hreturns with ⟨st', hrun⟩
  have hmap : mapMemory .dev .two 0 0x80000000 0x80000 0x1000 false .granular 4 startState = .ok st' :=
    (checkAligned_of_dvd hfits le_rfl (by decide) (by decide)).trans hrun
  refine ⟨4, st', hmap, ?_⟩
  rw [(two_split_disagrees 0x80000000 (by decide) (by decide)).2.2 _ _ _ _ _ _ _ _ _ _ startState_sound (by decide)
    (by decide) (by decide) (Or.inl hmap) 0x80000000 (by decide) (by decide)]
  rfl

/-- The first kernel address. -/
theorem two_split_first_address :
    getDescriptorIndex 0x80000000 .level1 ≠ (hardware .two 0x80000000).index 2 0x80000000 ∧
      ∀ st : TableState Desc, st.mem = initTable 0 VmSplit.two.virtualBase (fun _ _ => format.zero) →
        mapThreadLocalTable .two 0 0x80000000 0x3000 st = .error .unwrap := by
  refine ⟨by decide, fun st hst => ?_⟩
  refine mapThreadLocalTable_two ?_
  rw [hst]
  rfl

end Arm
end Propeller
