import Propeller.Arch.MemoryConfig

/-!
# Arch.Arm.Stacks — the stacks of the exception modes

Every core has five stacks.  The start code places those of the primary core at the end of the ISR stack area,
`init_isr_stacks` those of the other cores from its beginning.  Each stack is a slot of the area: a guard page and
the pages of the stack.  The area has four slots for a core, and the cores are four slots apart.  So a fifth stack
is in the slot of the first stack of the next core.
-/

namespace Propeller
namespace Arm

/-- The virtual addresses of a stack; a stack grows down from `top`. -/
structure Stack where
  base : Nat
  top : Nat
  deriving DecidableEq, Repr

def primarySvcStackStart : Nat := 0xfe400000

/-- `setup_stacks`: the stack pointers of the modes SVC, IRQ, ABT, UND and FIQ, one slot below the other. -/
def setupStacks (kernelStackPages : Nat) : List Nat :=
  let size := (kernelStackPages + 1) * pageSize
  let svc := primarySvcStackStart
  let irq := svc - size
  let abt := irq - size
  let und := abt - size
  let fiq := und - size
  [svc, irq, abt, und, fiq]

/-- The stacks of the primary core. -/
def primaryStacks (kernelStackPages : Nat) : List Stack :=
  (setupStacks kernelStackPages).map fun top => ⟨top - kernelStackPages * pageSize, top⟩

/-- The size of a stack with its guard page. -/
def stepSize (P : Profile) (kernelStackPages : Nat) : Run Nat := do
  let pages ← addWord P .arm kernelStackPages 1
  return pages <<< pageShift % Arch.arm.wordLimit

/-- The part of `init_memory_config` that places the ISR stack area. -/
def isrStackAreaVirtualBase (P : Profile) (kernelStackPages coreCount : Nat) : Run Nat := do
  let size ← stepSize P kernelStackPages
  let size ← mulWord P .arm size 4
  let size ← mulWord P .arm size coreCount
  subWord P .arm pageDatabaseVirtualBase size

/-- The loop of `init_isr_stacks` over the stacks of a core that are left. -/
def initCoreStacks (P : Profile) (stackSize stepSize entryIndex : Nat) :
    List Nat → Nat → (Nat → Nat) → Run (List Stack × (Nat → Nat))
  | [], _, table => .ok ([], table)
  | s :: rest, stackVbase, table => do
      let top ← addWord P .arm stackVbase stackSize
      let next ← addWord P .arm stackVbase stepSize
      let (mapped, table) ← initCoreStacks P stackSize stepSize entryIndex rest next
        (Function.update table (entryIndex + s) top)
      return (⟨stackVbase, top⟩ :: mapped, table)

/-- The loop of `init_isr_stacks` over the cores that are left; `table` is the list of the stack pointers. -/
def initCores (P : Profile) (stackAreaBase stackSize stepSize : Nat) :
    List Nat → Nat → Nat → (Nat → Nat) → Run (List Stack × (Nat → Nat))
  | [], _, _, table => .ok ([], table)
  | id :: ids, index, entryIndex, table => do
      let offset ← mulWord P .arm stepSize 4
      let offset ← mulWord P .arm offset (index - 1)
      let stackVbase ← addWord P .arm stackAreaBase offset
      let stackVbase ← addWord P .arm stackVbase (1 <<< pageShift)
      let (mapped, table) ← initCoreStacks P stackSize stepSize entryIndex [1, 2, 3, 4, 5] stackVbase
        (Function.update table entryIndex id)
      let (rest, table) ← initCores P stackAreaBase stackSize stepSize ids (index + 1) (entryIndex + 6) table
      return (mapped ++ rest, table)

/-- `init_isr_stacks` for cores with the identifiers `ids`: the stacks that it maps, and the list of the stack
pointers. -/
def initIsrStacks (P : Profile) (kernelStackPages : Nat) (ids : List Nat) (stackAreaBase : Nat)
    (table : Nat → Nat) : Run (List Stack × (Nat → Nat)) := do
  let size ← stepSize P kernelStackPages
  initCores P stackAreaBase (kernelStackPages <<< pageShift % Arch.arm.wordLimit) size (ids.drop 1) 1 5 table

/-- No two stacks overlap, the page below a stack belongs to no stack, and all of them are inside of the ISR stack
area. -/
structure Separate (stackAreaBase : Nat) (all : List Stack) : Prop where
  disjoint : all.Pairwise fun r r' => r.top ≤ r'.base ∨ r'.top ≤ r.base
  guard : ∀ r ∈ all, ∀ r' ∈ all, r'.top + pageSize ≤ r.base ∨ r.base ≤ r'.base
  inside : ∀ r ∈ all, stackAreaBase ≤ r.base ∧ r.top ≤ pageDatabaseVirtualBase

/-! ## Slots -/

/-- The stack in the slot `q` of the area. -/
def slot (kernelStackPages stackAreaBase q : Nat) : Stack :=
  ⟨stackAreaBase + q * ((kernelStackPages + 1) * pageSize) + pageSize,
    stackAreaBase + (q + 1) * ((kernelStackPages + 1) * pageSize)⟩

variable {P : Profile} {pages base q size n : Nat} {ids : List Nat}

theorem slot_next (pages base q : Nat) :
    (slot pages base q).base + pages * pageSize = (slot pages base q).top ∧
      (slot pages base q).base + (pages + 1) * pageSize = (slot pages base (q + 1)).base := by
  simp only [slot, Nat.add_mul, Nat.one_mul]
  omega

theorem initCoreStacks_eq (entryIndex : Nat) (ss : List Nat) (table : Nat → Nat)
    (hlt : (slot pages base (q + ss.length)).base < Arch.arm.wordLimit) :
    ∃ table', initCoreStacks P (pages * pageSize) ((pages + 1) * pageSize) entryIndex ss (slot pages base q).base table =
      .ok ((List.range ss.length).map fun s => slot pages base (q + s), table') := by
  induction ss generalizing q table with
  | nil => exact ⟨table, rfl⟩
  | cons s ss ih =>
      have hnext := slot_next pages base q
      -- The last slot bounds all sums of the loop, so none of them wraps.
      have hmono : (slot pages base (q + 1)).base ≤ (slot pages base (q + (s :: ss).length)).base := by
        have hmul := Nat.mul_le_mul_right ((pages + 1) * pageSize) (show q + 1 ≤ q + (s :: ss).length by simp)
        simp only [slot]
        omega
      have htop : (slot pages base q).base + pages * pageSize < Arch.arm.wordLimit := by
        have hle : (slot pages base q).base + pages * pageSize ≤ (slot pages base q).base + (pages + 1) * pageSize :=
          Nat.add_le_add_left (Nat.mul_le_mul_right _ (Nat.le_succ pages)) _
        omega
      rcases ih (q := q + 1) (Function.update table (entryIndex + s) (slot pages base q).top)
        (by rwa [Nat.add_assoc, Nat.add_comm 1]) with ⟨table', hrest⟩
      refine ⟨table', ?_⟩
      rw [initCoreStacks, addWord_of_lt htop, run_ok_bind, addWord_of_lt (by omega), run_ok_bind, hnext.1, hnext.2, hrest]
      -- The stacks of the loop are the first slot and the slots of the rest, counted from the next one.
      have hlist : (List.range (s :: ss).length).map (fun s => slot pages base (q + s)) =
          slot pages base q :: (List.range ss.length).map fun s => slot pages base (q + 1 + s) := by
        rw [List.length_cons, List.range_succ_eq_map, List.map_cons, List.map_map, Nat.add_zero]
        refine congrArg _ (List.map_congr_left fun j _ => ?_)
        rw [Function.comp, Nat.succ_eq_add_one, Nat.add_assoc, Nat.add_comm 1]
      rw [hlist]
      rfl

/-- The cores are four slots apart, and each has five. -/
def coreSlots (pages base k : Nat) : List Stack :=
  (List.range 5).map fun s => slot pages base (4 * k + s)

/-- The first stack of a core. -/
theorem coreBase_eq {k : Nat} (hstep : (pages + 1) * pageSize * 4 < Arch.arm.wordLimit)
    (hlt : (slot pages base (4 * k)).base < Arch.arm.wordLimit) :
    ∃ step offset stackVbase, mulWord P .arm ((pages + 1) * pageSize) 4 = .ok step ∧
      mulWord P .arm step (k + 1 - 1) = .ok offset ∧ addWord P .arm base offset = .ok stackVbase ∧
      addWord P .arm stackVbase (1 <<< pageShift) = .ok (slot pages base (4 * k)).base := by
  have hoffset : (pages + 1) * pageSize * 4 * k = 4 * k * ((pages + 1) * pageSize) := by
    rw [Nat.mul_assoc, Nat.mul_comm]
  simp only [slot] at hlt ⊢
  refine ⟨_, 4 * k * ((pages + 1) * pageSize), _, mulWord_of_lt hstep, ?_, addWord_of_lt (by omega), addWord_of_lt hlt⟩
  rw [Nat.add_sub_cancel, mulWord_of_lt (by omega), hoffset]

theorem initCores_eq (k entryIndex : Nat) (table : Nat → Nat)
    (hstep : (pages + 1) * pageSize * 4 < Arch.arm.wordLimit)
    (hlt : (slot pages base (4 * (k + ids.length) + 1)).base < Arch.arm.wordLimit) :
    ∃ table', initCores P base (pages * pageSize) ((pages + 1) * pageSize) ids (k + 1) entryIndex table =
      .ok ((List.range ids.length).flatMap fun j => coreSlots pages base (k + j), table') := by
  induction ids generalizing k entryIndex table with
  | nil => exact ⟨table, rfl⟩
  | cons id ids ih =>
      have hmono : ∀ q, q ≤ 4 * (k + (id :: ids).length) + 1 → (slot pages base q).base < Arch.arm.wordLimit := by
        intro q hq
        have hmul := Nat.mul_le_mul_right ((pages + 1) * pageSize) hq
        simp only [slot] at hlt ⊢
        omega
      have hlen : (id :: ids).length = ids.length + 1 := rfl
      rcases coreBase_eq (P := P) hstep (hmono (4 * k) (by omega)) with ⟨_, _, _, hmul, hoffset, hadd, hbase⟩
      rcases initCoreStacks_eq (P := P) (q := 4 * k) entryIndex [1, 2, 3, 4, 5] (Function.update table entryIndex id)
        (hmono (4 * k + 5) (by omega)) with ⟨table₁, hfive⟩
      rcases ih (k + 1) (entryIndex + 6) table₁ (hmono _ (by omega)) with ⟨table₂, hrest⟩
      refine ⟨table₂, ?_⟩
      have hlist : (List.range (id :: ids).length).flatMap (fun j => coreSlots pages base (k + j)) =
          coreSlots pages base k ++ (List.range ids.length).flatMap fun j => coreSlots pages base (k + 1 + j) := by
        rw [List.length_cons, List.range_succ_eq_map, List.flatMap_cons, List.flatMap_map, Nat.add_zero]
        refine congrArg _ (List.flatMap_congr fun j _ => ?_)
        rw [Nat.succ_eq_add_one, Nat.add_assoc, Nat.add_comm 1]
      rw [hlist, initCores, hmul, run_ok_bind, hoffset, run_ok_bind, hadd, run_ok_bind, hbase, run_ok_bind, hfive]
      simp only [run_ok_bind, hrest]
      rfl

/-! ## The area -/

/-- The area is as large as the slots in it, four for a core. -/
theorem isrStackAreaVirtualBase_eq (P : Profile) {n : Nat} (hn : 0 < n)
    (hfits : (pages + 1) * pageSize * 4 * n ≤ pageDatabaseVirtualBase) :
    stepSize P pages = .ok ((pages + 1) * pageSize) ∧
      isrStackAreaVirtualBase P pages n = .ok (pageDatabaseVirtualBase - (pages + 1) * pageSize * 4 * n) := by
  have hle : (pages + 1) * pageSize * 4 ≤ (pages + 1) * pageSize * 4 * n := Nat.le_mul_of_pos_right _ hn
  have hdb : pageDatabaseVirtualBase < Arch.arm.wordLimit := by decide
  have hpages : pages + 1 ≤ (pages + 1) * pageSize := Nat.le_mul_of_pos_right _ pageSize_pos
  have hstep : stepSize P pages = .ok ((pages + 1) * pageSize) := by
    rw [stepSize, addWord_of_lt (by omega), run_ok_bind, Nat.shiftLeft_eq, ← pageSize_eq, Nat.mod_eq_of_lt (by omega)]
    rfl
  refine ⟨hstep, ?_⟩
  rw [isrStackAreaVirtualBase, hstep, run_ok_bind, mulWord_of_lt (by omega), run_ok_bind, mulWord_of_lt (by omega),
    run_ok_bind, subWord_of_le hfits hdb]

/-- The stacks of the primary core are in the last slots. -/
theorem primaryStacks_eq {n : Nat} (hn : 2 ≤ n) (hfits : (pages + 1) * pageSize * 4 * n ≤ pageDatabaseVirtualBase) :
    primaryStacks pages =
      [1, 2, 3, 4, 5].map fun j => slot pages (pageDatabaseVirtualBase - (pages + 1) * pageSize * 4 * n) (4 * n - j) := by
  have hstart : primarySvcStackStart = pageDatabaseVirtualBase := rfl
  have hslot : ∀ j, 1 ≤ j → j ≤ 5 →
      slot pages (pageDatabaseVirtualBase - (pages + 1) * pageSize * 4 * n) (4 * n - j) =
        ⟨primarySvcStackStart - (j - 1) * ((pages + 1) * pageSize) - pages * pageSize,
          primarySvcStackStart - (j - 1) * ((pages + 1) * pageSize)⟩ := by
    intro j hj hj'
    have hall : (pages + 1) * pageSize * 4 * n = (4 * n - j) * ((pages + 1) * pageSize) + j * ((pages + 1) * pageSize) := by
      rw [← Nat.add_mul, Nat.sub_add_cancel (by omega), Nat.mul_assoc, Nat.mul_comm]
    have hj : j * ((pages + 1) * pageSize) = (j - 1) * ((pages + 1) * pageSize) + (pages + 1) * pageSize := by
      rw [← Nat.succ_mul, Nat.succ_eq_add_one, Nat.sub_add_cancel hj]
    have hone : (pages + 1) * pageSize = pages * pageSize + pageSize := Nat.succ_mul _ _
    rw [slot, hstart, Nat.add_mul (4 * n - j) 1, Nat.one_mul]
    simp only [Stack.mk.injEq]
    omega
  simp only [List.map_cons, List.map_nil, hslot 1 (by decide) (by decide), hslot 2 (by decide) (by decide),
    hslot 3 (by decide) (by decide), hslot 4 (by decide) (by decide), hslot 5 (by decide) (by decide), primaryStacks,
    setupStacks, List.cons.injEq, Stack.mk.injEq, and_true]
  omega

/-- The stacks that `init_isr_stacks` maps, five for a core after the first. -/
theorem initIsrStacks_eq (P : Profile) (table : Nat → Nat) (hids : 2 ≤ ids.length)
    (hfits : (pages + 1) * pageSize * 4 * ids.length ≤ pageDatabaseVirtualBase) :
    ∃ table', initIsrStacks P pages ids (pageDatabaseVirtualBase - (pages + 1) * pageSize * 4 * ids.length) table =
      .ok ((List.range (ids.length - 1)).flatMap
        (coreSlots pages (pageDatabaseVirtualBase - (pages + 1) * pageSize * 4 * ids.length)), table') := by
  have hdb : pageDatabaseVirtualBase < Arch.arm.wordLimit := by decide
  have hstep := isrStackAreaVirtualBase_eq P (show 0 < ids.length by omega) hfits
  -- The area ends at the page database, and the last slot is inside it.
  have hall : (pages + 1) * pageSize * 4 * ids.length = 4 * ids.length * ((pages + 1) * pageSize) := by
    rw [Nat.mul_assoc, Nat.mul_comm]
  have hlast : (slot pages (pageDatabaseVirtualBase - (pages + 1) * pageSize * 4 * ids.length)
      (4 * (0 + (ids.drop 1).length) + 1)).base < Arch.arm.wordLimit := by
    have hmul := Nat.mul_le_mul_right ((pages + 1) * pageSize)
      (show 4 * (0 + (ids.drop 1).length) + 1 + 1 ≤ 4 * ids.length by rw [List.length_drop]; omega)
    have hone : (pages + 1) * pageSize = pages * pageSize + pageSize := Nat.succ_mul _ _
    rw [Nat.add_mul _ 1, Nat.one_mul] at hmul
    simp only [slot]
    omega
  have hfour : (pages + 1) * pageSize * 4 < Arch.arm.wordLimit :=
    (Nat.le_mul_of_pos_right _ (show 0 < ids.length by omega)).trans_lt (hfits.trans_lt hdb)
  have hpages : pages <<< pageShift % Arch.arm.wordLimit = pages * pageSize := by
    have hle : pages * pageSize ≤ (pages + 1) * pageSize * 4 := by
      rw [Nat.add_mul]
      omega
    rw [Nat.shiftLeft_eq, ← pageSize_eq, Nat.mod_eq_of_lt (by omega)]
  rcases initCores_eq (P := P) 0 5 table hfour hlast with ⟨table', heq⟩
  refine ⟨table', ?_⟩
  rw [initIsrStacks, hstep.1, run_ok_bind, hpages, heq, List.length_drop]
  simp only [Nat.zero_add]

/-- The fourth stack of the last core is in the slot of the FIQ stack of the primary core. -/
theorem shared_slot (pages base : Nat) {n : Nat} (hn : 2 ≤ n) :
    slot pages base (4 * n - 5) ∈ [1, 2, 3, 4, 5].map (fun j => slot pages base (4 * n - j)) ∧
      slot pages base (4 * n - 5) ∈ (List.range (n - 1)).flatMap (coreSlots pages base) := by
  refine ⟨List.mem_map.mpr ⟨5, by decide, rfl⟩, List.mem_flatMap.mpr ⟨n - 2, List.mem_range.mpr (by omega), ?_⟩⟩
  refine List.mem_map.mpr ⟨3, by decide, ?_⟩
  rw [show 4 * (n - 2) + 3 = 4 * n - 5 by omega]

theorem not_separate_of_mem {base : Nat} {r : Stack} {left right : List Stack} (hl : r ∈ left) (hr : r ∈ right)
    (hlt : r.base < r.top) : ¬ Separate base (left ++ right) := by
  intro h
  have hapart := (List.pairwise_append.mp h.disjoint).2.2 r hl r hr
  omega

theorem slot_base_lt_top (hpages : 0 < pages) (base q : Nat) : (slot pages base q).base < (slot pages base q).top := by
  have hpos : 0 < pages * pageSize := Nat.mul_pos hpages pageSize_pos
  rw [← (slot_next pages base q).1]
  omega

/-- The part of `Separate` that holds: all stacks are in slots of the area, and a slot begins with the guard page. -/
theorem guarded (hn : 2 ≤ n) (hfits : (pages + 1) * pageSize * 4 * n ≤ pageDatabaseVirtualBase) :
    let base := pageDatabaseVirtualBase - (pages + 1) * pageSize * 4 * n
    let all := primaryStacks pages ++ (List.range (n - 1)).flatMap (coreSlots pages base)
    (∀ r ∈ all, ∀ r' ∈ all, r'.top + pageSize ≤ r.base ∨ r.base ≤ r'.base) ∧
      ∀ r ∈ all, base ≤ r.base ∧ r.top ≤ pageDatabaseVirtualBase := by
  intro base all
  have hslots : ∀ r ∈ all, ∃ q < 4 * n, r = slot pages base q := by
    intro r hr
    rcases List.mem_append.mp hr with hr | hr
    · rw [primaryStacks_eq hn hfits] at hr
      rcases List.mem_map.mp hr with ⟨j, hj, rfl⟩
      have hpos : 0 < j := by
        revert hj
        simp only [List.mem_cons, List.not_mem_nil, or_false]
        omega
      exact ⟨4 * n - j, by omega, rfl⟩
    · rcases List.mem_flatMap.mp hr with ⟨k, hk, hr⟩
      rcases List.mem_map.mp hr with ⟨s, hs, rfl⟩
      rw [List.mem_range] at hk hs
      exact ⟨4 * k + s, by omega, rfl⟩
  refine ⟨fun r hr r' hr' => ?_, fun r hr => ?_⟩
  · rcases hslots r hr with ⟨q, -, rfl⟩
    rcases hslots r' hr' with ⟨q', -, rfl⟩
    -- Slots are in the order of their numbers.
    rcases Nat.lt_or_ge q' q with hlt | hle
    · have hmul := Nat.mul_le_mul_right ((pages + 1) * pageSize) (show q' + 1 ≤ q from hlt)
      simp only [slot]
      omega
    · have hmul := Nat.mul_le_mul_right ((pages + 1) * pageSize) hle
      simp only [slot]
      omega
  · rcases hslots r hr with ⟨q, hq, rfl⟩
    have hmul := Nat.mul_le_mul_right ((pages + 1) * pageSize) (show q + 1 ≤ 4 * n from hq)
    have hall : (pages + 1) * pageSize * 4 * n = 4 * n * ((pages + 1) * pageSize) := by
      rw [Nat.mul_assoc, Nat.mul_comm]
    have hbase : base + (pages + 1) * pageSize * 4 * n = pageDatabaseVirtualBase := Nat.sub_add_cancel hfits
    simp only [slot]
    omega

/-- With two cores or more the stacks of the primary core and of the last core overlap, whatever the size of a
stack. -/
theorem initIsrStacks_overlaps (P : Profile) (table : Nat → Nat) (hids : 2 ≤ ids.length) (hmax : ids.length ≤ 16)
    (hpages : ∃ k, pages = 2 ^ k)
    (hfits : (pages + 1) * pageSize * 4 * ids.length ≤ pageDatabaseVirtualBase) :
    ∃ base mapped table', isrStackAreaVirtualBase P pages ids.length = .ok base ∧
      initIsrStacks P pages ids base table = .ok (mapped, table') ∧
      ¬ Separate base (primaryStacks pages ++ mapped) := by
  have hpos : 0 < pages := by
    rcases hpages with ⟨k, rfl⟩
    exact Nat.two_pow_pos k
  rcases initIsrStacks_eq P table hids hfits with ⟨table', hmapped⟩
  refine ⟨_, _, table', (isrStackAreaVirtualBase_eq P (by omega) hfits).2, hmapped, ?_⟩
  rw [primaryStacks_eq hids hfits]
  have hshared := shared_slot pages (pageDatabaseVirtualBase - (pages + 1) * pageSize * 4 * ids.length) hids
  exact not_separate_of_mem hshared.1 hshared.2 (slot_base_lt_top hpos _ _)

theorem initIsrStacks_overlaps_two :
    ∃ base mapped table', isrStackAreaVirtualBase .dev 2 2 = .ok base ∧
      initIsrStacks .dev 2 [0, 1] base (fun _ => 0) = .ok (mapped, table') ∧
      ¬ Separate base (primaryStacks 2 ++ mapped) :=
  @initIsrStacks_overlaps 2 [0, 1] .dev (fun _ => 0) (by decide) (by decide) ⟨1, rfl⟩ (by decide)

/-- Two cores with stacks of two pages: the IRQ stack of the second core is the FIQ stack of the first. -/
theorem initIsrStacks_shares_stack :
    ∃ mapped table', isrStackAreaVirtualBase .release 2 2 = .ok 0xfe3e8000 ∧
      initIsrStacks .release 2 [0, 1] 0xfe3e8000 (fun _ => 0) = .ok (mapped, table') ∧
      ⟨0xfe3f2000, 0xfe3f4000⟩ ∈ primaryStacks 2 ∧ ⟨0xfe3f2000, 0xfe3f4000⟩ ∈ mapped ∧
      ¬ Separate 0xfe3e8000 (primaryStacks 2 ++ mapped) := by
  refine ⟨_, _, rfl, rfl, by decide, by decide, ?_⟩
  exact not_separate_of_mem (r := ⟨0xfe3f2000, 0xfe3f4000⟩) (by decide) (by decide) (by decide)

end Arm
end Propeller
