import Propeller.Arch.Aarch64.Init
import Propeller.Arch.Cpu

/-!
# Arch.Aarch64.Stacks — the stacks of the cores

The ISR stack area ends where the page database begins.  It has a slot for each core: a guard page and the pages
of the stack.  The start code has put the stack of the primary core into the last slot, and `init_isr_stacks` puts
those of the other cores into the slots from the first one on.  The list of the stacks has two words for a core.
-/

namespace Propeller
namespace Aarch64

open Paging Cpu

/-! ## The source -/

/-- `PAGE_DATABASE_VIRTUAL_BASE` -/
def pageDatabaseVirtualBase : Nat := 0xfffffe0000000000

/-- The part of `init_memory_config` that places the ISR stack area. -/
def isrStackAreaVirtualBase (pages coreCount : Nat) : Nat :=
  pageDatabaseVirtualBase - ((pages + 1) <<< pageShift) * coreCount

/-- `write_primary_core_stack_entry` -/
def writePrimaryCoreStackEntry (id : Nat) (list : Nat → Nat) : Nat → Nat :=
  Function.update (Function.update list 0 id) 1 primaryStackStart

/-- What `init_isr_stacks` takes from the configuration, and the pages that it uses. -/
structure StackConfig where
  virtualBase : Nat
  pagesStart : Nat
  stackList : Nat
  stackPages : Nat
  areaBase : Nat
  deriving DecidableEq, Repr

/-- The loop of `init_isr_stacks` over the cores that are left.  `block` has the answers of the allocator for
the stack of each core, and the supply of the state those for the page tables. -/
def initCores (P : Profile) (k : StackConfig) (block : Nat → Option Nat) (fuel : Nat) :
    List Nat → Nat → Nat → (Nat → Nat) → TableState Nat → Run ((Nat → Nat) × TableState Nat)
  | [], _, _, list, st => .ok (list, st)
  | id :: ids, index, entryIndex, list, st => do
      let stackSize := k.stackPages <<< pageShift
      let stepSize := (k.stackPages + 1) <<< pageShift
      let stackBase ← unwrap (block index)
      -- The address of the entry is computed and never used.
      let offset ← mulWord P .aarch64 index 2
      let entry ← addWord P .aarch64 k.virtualBase k.stackList
      let _entry ← addWord P .aarch64 entry (offset <<< Arch.wordShift .aarch64)
      let offset ← mulWord P .aarch64 stepSize (index - 1)
      let stackVbase ← addWord P .aarch64 k.areaBase offset
      let stackVbase ← addWord P .aarch64 stackVbase (1 <<< pageShift)
      let list := Function.update list entryIndex id
      let stackTop ← addWord P .aarch64 stackVbase stackSize
      let list := Function.update list (entryIndex + 1) stackTop
      let st ← mapMemory P k.pagesStart stackVbase stackBase stackSize false .granular fuel st
      initCores P k block fuel ids (index + 1) (entryIndex + 2) list st

/-- `init_isr_stacks` for cores with the identifiers `ids`. -/
def initIsrStacks (P : Profile) (k : StackConfig) (block : Nat → Option Nat) (fuel : Nat) (ids : List Nat)
    (list : Nat → Nat) (st : TableState Nat) : Run ((Nat → Nat) × TableState Nat) :=
  initCores P k block fuel (ids.drop 1) 1 2 list st

/-! ## Slots -/

/-- The end of the stack of the core `i`, which is not the primary one: its lowest address. -/
def stackEndOf (areaBase pages i : Nat) : Nat :=
  areaBase + (i - 1) * ((pages + 1) * pageSize) + pageSize

/-- The stack of the core, with its guard page. -/
def InSlot (areaBase pages i v : Nat) : Prop :=
  stackEndOf areaBase pages i ≤ v ∧ v < stackEndOf areaBase pages i + pages * pageSize

section Cores

variable {P : Profile} {k : StackConfig} {block : Nat → Option Nat} {fuel : Nat} {ids : List Nat}
  {list list' : Nat → Nat} {st st' : TableState Nat} {S : Set Nat}

theorem stackEndOf_succ (areaBase pages i : Nat) (hi : 1 ≤ i) :
    stackEndOf areaBase pages (i + 1) = stackEndOf areaBase pages i + (pages + 1) * pageSize := by
  obtain ⟨j, rfl⟩ := Nat.exists_eq_add_of_le hi
  rw [stackEndOf, stackEndOf, Nat.add_sub_cancel, show 1 + j - 1 = j by omega, Nat.add_comm 1 j, Nat.succ_mul]
  omega

/-- The stack of a core ends with a guard page behind the stack of the core before it. -/
theorem stackEndOf_lt (areaBase pages : Nat) {i j : Nat} (hi : 1 ≤ i) (hij : i < j) :
    stackEndOf areaBase pages i + pages * pageSize + pageSize ≤ stackEndOf areaBase pages j := by
  induction j, hij using Nat.le_induction with
  | base =>
      rw [stackEndOf_succ areaBase pages i hi, Nat.succ_mul]
      omega
  | succ j hij ih =>
      rw [stackEndOf_succ areaBase pages j (by omega)]
      omega

theorem InSlot.unique {areaBase pages i j v : Nat} (hi : 1 ≤ i) (hj : 1 ≤ j) (h : InSlot areaBase pages i v)
    (h' : InSlot areaBase pages j v) : i = j := by
  rcases Nat.lt_trichotomy i j with hlt | heq | hgt
  · have hle := stackEndOf_lt areaBase pages hi hlt
    have hlo := h.2
    have hhi := h'.1
    omega
  · exact heq
  · have hle := stackEndOf_lt areaBase pages hj hgt
    have hlo := h'.2
    have hhi := h.1
    omega

/-- What the loop is given: aligned blocks, and an area in the kernel segment that has a slot for every core. -/
structure StackArea (k : StackConfig) (block : Nat → Option Nat) (n : Nat) : Prop where
  pos : 0 < k.stackPages
  area_dvd : pageSize ∣ k.areaBase
  segment : Aarch64.virtualBase ≤ k.areaBase
  limit : stackEndOf k.areaBase k.stackPages n < 2 ^ 64
  block_dvd : ∀ i b, block i = some b → pageSize ∣ b
  block_limit : ∀ i b, block i = some b → b + k.stackPages * pageSize ≤ 2 ^ 48
  window : ∀ i, 1 ≤ i → i < n → stackEndOf k.areaBase k.stackPages i % span 1 + k.stackPages * pageSize ≤ span 1

theorem StackArea.dvd_stackEndOf {n : Nat} (ha : StackArea k block n) (i : Nat) :
    pageSize ∣ stackEndOf k.areaBase k.stackPages i :=
  dvd_add (dvd_add ha.area_dvd ((Nat.dvd_mul_left _ _).trans (Nat.dvd_mul_left _ _))) dvd_rfl

theorem StackArea.le_stackEndOf {n : Nat} (_ : StackArea k block n) (i : Nat) :
    k.areaBase ≤ stackEndOf k.areaBase k.stackPages i := by
  rw [stackEndOf]
  omega

/-- The addresses of the kernel segment are in one table of the first level. -/
theorem segment_div {v w : Nat} (hv : Aarch64.virtualBase ≤ v) (hv' : v < 2 ^ 64) (hw : Aarch64.virtualBase ≤ w)
    (hw' : w < 2 ^ 64) : v / span 4 = w / span 4 := by
  rw [show span 4 = 2 ^ 48 from rfl]
  rw [Aarch64.virtualBase] at hv hw
  omega

/-- One core: the values of its entry, and the range that is mapped. -/
theorem initCores_cons_eq_ok {id index entryIndex n : Nat} (ha : StackArea k block n) (hindex : 1 ≤ index)
    (hn : index < n)
    (hrun : initCores P k block fuel (id :: ids) index entryIndex list st = .ok (list', st')) :
    ∃ b st₁, block index = some b ∧
      mapMemory P k.pagesStart (stackEndOf k.areaBase k.stackPages index) b (k.stackPages * pageSize) false .granular
        fuel st = .ok st₁ ∧
      initCores P k block fuel ids (index + 1) (entryIndex + 2)
        (Function.update (Function.update list entryIndex id) (entryIndex + 1)
          (stackEndOf k.areaBase k.stackPages index + k.stackPages * pageSize)) st₁ = .ok (list', st') := by
  have hword : Arch.wordLimit .aarch64 = 2 ^ 64 := rfl
  have hshift : ∀ m, m <<< pageShift = m * pageSize := fun m => Nat.shiftLeft_eq m pageShift
  have hlimit := ha.limit
  have hlt := stackEndOf_lt k.areaBase k.stackPages hindex hn
  have hend : stackEndOf k.areaBase k.stackPages index =
      k.areaBase + (k.stackPages + 1) * pageSize * (index - 1) + pageSize := by
    rw [stackEndOf, Nat.mul_comm (index - 1)]
  rcases run_bind_eq_ok.1 hrun with ⟨b, hb, hrun⟩
  rcases run_bind_eq_ok.1 hrun with ⟨_, -, hrun⟩
  rcases run_bind_eq_ok.1 hrun with ⟨_, -, hrun⟩
  rcases run_bind_eq_ok.1 hrun with ⟨_, -, hrun⟩
  rw [hshift, mulWord_of_lt (by rw [hword]; omega), run_ok_bind, addWord_of_lt (by rw [hword]; omega), run_ok_bind,
    hshift, Nat.one_mul, addWord_of_lt (by rw [hword]; omega), run_ok_bind, hshift, ← hend,
    addWord_of_lt (by rw [hword]; omega), run_ok_bind] at hrun
  rcases run_bind_eq_ok.1 hrun with ⟨st₁, hmap, hrun⟩
  refine ⟨b, st₁, ?_, hmap, hrun⟩
  cases hblock : block index with
  | none =>
      rw [hblock] at hb
      cases hb
  | some b' =>
      rw [hblock] at hb
      exact congrArg some (Except.ok.inj hb)

/-- What the loop leaves for the cores from `index` on. -/
structure CoresMapped (k : StackConfig) (block : Nat → Option Nat) (index : Nat) (ids : List Nat)
    (list list' : Nat → Nat) (st st' : TableState Nat) : Prop where
  stack : ∀ i, index ≤ i → i < index + ids.length → ∃ b, block i = some b ∧ ∀ y < k.stackPages * pageSize,
    translate st' k.pagesStart (stackEndOf k.areaBase k.stackPages i + y) = some (b + y)
  outside : ∀ v, Aarch64.virtualBase ≤ v → v < 2 ^ 64 →
    (∀ i, index ≤ i → i < index + ids.length → ¬ InSlot k.areaBase k.stackPages i v) →
    mmu.leaf st'.mem 3 k.pagesStart v = mmu.leaf st.mem 3 k.pagesStart v
  id : ∀ j, (hj : j < ids.length) → list' (2 * (index + j)) = ids[j]
  top : ∀ j < ids.length, list' (2 * (index + j) + 1) =
    stackEndOf k.areaBase k.stackPages (index + j) + k.stackPages * pageSize
  before : ∀ w < 2 * index, list' w = list w
  behind : ∀ w, 2 * (index + ids.length) ≤ w → list' w = list w

theorem initCores_mapped {index n : Nat} (ha : StackArea k block n) (hindex : 1 ≤ index)
    (hn : index + ids.length ≤ n) (hs : Sound mmu physLimit st 3 k.pagesStart S)
    (hclear : ∀ i, index ≤ i → i < index + ids.length →
      Clear mmu st 3 k.pagesStart (stackEndOf k.areaBase k.stackPages i) (k.stackPages * pageSize))
    (hrun : initCores P k block fuel ids index (2 * index) list st = .ok (list', st')) :
    CoresMapped k block index ids list list' st st' := by
  induction ids generalizing index list st S with
  | nil =>
      rcases Prod.mk.inj (Except.ok.inj hrun) with ⟨rfl, rfl⟩
      exact ⟨fun i hlo hhi => absurd hhi (Nat.not_lt.2 hlo), fun _ _ _ _ => rfl, fun j hj => absurd hj (Nat.not_lt_zero j),
        fun j hj => absurd hj (Nat.not_lt_zero j), fun _ _ => rfl, fun _ _ => rfl⟩
  | cons id ids ih =>
      rw [List.length_cons] at hn hclear
      rcases initCores_cons_eq_ok ha hindex (by omega) hrun with ⟨b, st₁, hblock, hmap, hrest⟩
      have hlimit := ha.limit
      have hfit := stackEndOf_lt k.areaBase k.stackPages hindex (show index < n by omega)
      rcases mapMemory_maps hs (ha.dvd_stackEndOf index) (ha.block_dvd index b hblock) (Nat.dvd_mul_left _ _)
        (Nat.mul_pos ha.pos pageSize_pos) (by omega) (ha.block_limit index b hblock) (ha.window index hindex (by omega))
        (hclear index le_rfl (by omega)) hmap with ⟨hmaps, hsound⟩
      have hsame : ∀ v, Aarch64.virtualBase ≤ v → v < 2 ^ 64 → ¬ InSlot k.areaBase k.stackPages index v →
          mmu.leaf st₁.mem 3 k.pagesStart v = mmu.leaf st.mem 3 k.pagesStart v := by
        intro v hlo hhi hout
        refine hmaps.outside v ?_ hout
        rw [cover_eq]
        exact segment_div hlo hhi (ha.segment.trans (ha.le_stackEndOf index)) (by omega)
      -- The slots of the cores that are left are still clear.
      have hclear₁ : ∀ i, index + 1 ≤ i → i < index + 1 + ids.length →
          Clear mmu st₁ 3 k.pagesStart (stackEndOf k.areaBase k.stackPages i) (k.stackPages * pageSize) := by
        intro i hlo hhi v hv hv' b' hb'
        have hi := stackEndOf_lt k.areaBase k.stackPages (show 1 ≤ i by omega)
          (show i < n by omega)
        rw [hsame v ((ha.segment.trans (ha.le_stackEndOf i)).trans hv) (by omega)] at hb'
        · exact hclear i (by omega) (by omega) v hv hv' b' hb'
        · intro hin
          have heq := hin.unique hindex (by omega) ⟨hv, hv'⟩
          omega
      have hcores := ih (by omega) (by omega) hsound hclear₁ hrest
      refine ⟨?_, ?_, ?_, ?_, ?_, ?_⟩
      · intro i hlo hhi
        rw [List.length_cons] at hhi
        rcases Nat.eq_or_lt_of_le hlo with rfl | hlt
        · refine ⟨b, hblock, ?_⟩
          intro y hy
          -- The other cores leave this stack alone.
          have hleaf := hcores.outside (stackEndOf k.areaBase k.stackPages index + y)
            ((ha.segment.trans (ha.le_stackEndOf index)).trans (Nat.le_add_right _ _)) (by omega) ?_
          · have hwalk := hmaps.inside (stackEndOf k.areaBase k.stackPages index + y) (Nat.le_add_right _ _) (by omega)
            rw [Nat.add_sub_cancel_left] at hwalk
            rw [translate, Mmu.walk, hleaf]
            exact hwalk
          · intro i hlo' hhi' hin
            have heq := hin.unique (by omega) hindex ⟨Nat.le_add_right _ _, by omega⟩
            omega
        · exact hcores.stack i (by omega) (by omega)
      · intro v hlo hhi hout
        rw [List.length_cons] at hout
        rw [hcores.outside v hlo hhi fun i hlo' hhi' => hout i (by omega) (by omega)]
        exact hsame v hlo hhi (hout index le_rfl (by omega))
      · intro j hj
        cases j with
        | zero =>
            rw [Nat.add_zero, hcores.before _ (by omega), Function.update_of_ne (by omega), Function.update_self]
            rfl
        | succ j =>
            rw [show index + (j + 1) = index + 1 + j by omega]
            exact hcores.id j (Nat.lt_of_succ_lt_succ hj)
      · intro j hj
        cases j with
        | zero =>
            simp only [Nat.add_zero]
            rw [hcores.before _ (by omega), Function.update_self]
        | succ j =>
            rw [show index + (j + 1) = index + 1 + j by omega]
            exact hcores.top j (Nat.lt_of_succ_lt_succ hj)
      · intro w hw
        rw [hcores.before w (by omega), Function.update_of_ne (by omega), Function.update_of_ne (by omega)]
      · intro w hw
        rw [List.length_cons] at hw
        rw [hcores.behind w (by omega), Function.update_of_ne (by omega), Function.update_of_ne (by omega)]

end Cores

/-! ## The stacks of the kernel -/

/-- The start of the stack of a core: the address behind the stack. -/
def stackStartOf (areaBase i : Nat) : Nat :=
  areaBase + i * ((kernelStackPages + 1) * pageSize)

section Kernel

variable {P : Profile} {k : StackConfig} {block : Nat → Option Nat} {fuel n : Nat} {ids : List Nat}
  {list list' : Nat → Nat} {st st' : TableState Nat} {S : Set Nat}

theorem isrStackAreaVirtualBase_eq (hn : n ≤ MAX_CORES .aarch64) :
    isrStackAreaVirtualBase kernelStackPages n + n * 12288 = 0xfffffe0000000000 := by
  have hmax : MAX_CORES .aarch64 = 256 := rfl
  have hslot : (kernelStackPages + 1) <<< pageShift = 12288 := rfl
  rw [isrStackAreaVirtualBase, hslot, pageDatabaseVirtualBase, Nat.mul_comm]
  omega

theorem stackEndOf_eq {i : Nat} (hi : 1 ≤ i) (areaBase : Nat) :
    stackEndOf areaBase kernelStackPages i + 8192 = stackStartOf areaBase i := by
  obtain ⟨j, rfl⟩ := Nat.exists_eq_add_of_le hi
  have hslot : (kernelStackPages + 1) * pageSize = 12288 := rfl
  have hpage : pageSize = 4096 := rfl
  rw [stackEndOf, stackStartOf, hslot, hpage, Nat.add_sub_cancel_left]
  omega

/-- With two pages no stack crosses a multiple of 2 MiB, for any number of cores. -/
theorem stackArea_of_kernel (hk : k.stackPages = kernelStackPages) (hn : n ≤ MAX_CORES .aarch64)
    (harea : k.areaBase = isrStackAreaVirtualBase kernelStackPages n)
    (hdvd : ∀ i b, block i = some b → pageSize ∣ b)
    (hlimit : ∀ i b, block i = some b → b + kernelStackPages * pageSize ≤ 2 ^ 48) : StackArea k block n := by
  have hmax : MAX_CORES .aarch64 = 256 := rfl
  have hpage : pageSize = 4096 := rfl
  have hbase := isrStackAreaVirtualBase_eq hn
  have hstart : ∀ i, 1 ≤ i → stackEndOf k.areaBase kernelStackPages i + 8192 = k.areaBase + i * 12288 :=
    fun i hi => stackEndOf_eq hi k.areaBase
  rw [← harea] at hbase
  refine ⟨by rw [hk]; decide, ?_, ?_, ?_, hdvd, by rw [hk]; exact hlimit, ?_⟩
  · rw [hpage]
    omega
  · rw [virtualBase]
    omega
  · rw [hk]
    rcases Nat.eq_zero_or_pos n with rfl | hpos
    · rw [stackEndOf, hpage]
      omega
    · have hlast := hstart n hpos
      omega
  · intro i hi hi'
    have hi'' := hstart i hi
    rw [hk, show kernelStackPages * pageSize = 8192 from rfl, show span 1 = 2097152 from rfl]
    omega

/-- Whenever `init_isr_stacks` returns, the list has the identifier and the stack of each core, with the entry of the
primary core as the start code has written it, the stacks are mapped to what the allocator gave for them, below each
stack is a page that is not mapped, that of the primary core included, and nothing else has changed. -/
theorem init_isr_stacks_mapped {primary : Nat} (hk : k.stackPages = kernelStackPages) (hprimary : ids[0]? = some primary)
    (hcount : ids.length ≤ MAX_CORES .aarch64) (harea : k.areaBase = isrStackAreaVirtualBase kernelStackPages ids.length)
    (hdvd : ∀ i b, block i = some b → pageSize ∣ b)
    (hlimit : ∀ i b, block i = some b → b + kernelStackPages * pageSize ≤ 2 ^ 48)
    (hs : Sound mmu physLimit st 3 k.pagesStart S)
    (hfree : ∀ v, k.areaBase ≤ v → v < primaryStackEnd → translate st k.pagesStart v = none)
    (hrun : initIsrStacks P k block fuel ids (writePrimaryCoreStackEntry primary list) st = .ok (list', st')) :
    (∀ i, (hi : i < ids.length) → list' (2 * i) = ids[i]) ∧ list' 1 = primaryStackStart ∧
    (∀ i, 1 ≤ i → i < ids.length → list' (2 * i + 1) = stackStartOf k.areaBase i ∧
      ∃ b, block i = some b ∧ ∀ y < kernelStackPages * pageSize,
        translate st' k.pagesStart (stackStartOf k.areaBase i - kernelStackPages * pageSize + y) = some (b + y)) ∧
    (∀ i, 1 ≤ i → i ≤ ids.length → ∀ y < pageSize,
      translate st' k.pagesStart (stackStartOf k.areaBase i - (kernelStackPages + 1) * pageSize + y) = none) ∧
    (∀ v, virtualBase ≤ v → v < 2 ^ 64 → ¬ (k.areaBase ≤ v ∧ v < primaryStackEnd) →
      translate st' k.pagesStart v = translate st k.pagesStart v) ∧
    ∀ w, 2 * ids.length ≤ w → list' w = list w := by
  obtain ⟨hpos, hfirst⟩ := List.getElem?_eq_some_iff.1 hprimary
  have hsize : kernelStackPages * pageSize = 8192 := rfl
  have hslot : (kernelStackPages + 1) * pageSize = 12288 := rfl
  have hpage : pageSize = 4096 := rfl
  have hlast : primaryStackEnd = 0xfffffdffffffe000 := rfl
  have hbase := isrStackAreaVirtualBase_eq hcount
  rw [← harea] at hbase
  have hsegment : virtualBase ≤ k.areaBase := by
    have hmax : MAX_CORES .aarch64 = 256 := rfl
    rw [virtualBase]
    omega
  have hstart : ∀ i, 1 ≤ i → stackEndOf k.areaBase k.stackPages i + 8192 = stackStartOf k.areaBase i := by
    intro i hi
    rw [hk]
    exact stackEndOf_eq hi k.areaBase
  have hvalue : ∀ i, stackStartOf k.areaBase i = k.areaBase + i * 12288 := fun _ => rfl
  have hlen : (ids.drop 1).length = ids.length - 1 := List.length_drop
  have ha := stackArea_of_kernel hk hcount harea hdvd hlimit
  -- The slots of the other cores are free.
  have hclear : ∀ i, 1 ≤ i → i < 1 + (ids.drop 1).length →
      Clear mmu st 3 k.pagesStart (stackEndOf k.areaBase k.stackPages i) (k.stackPages * pageSize) := by
    intro i hi hi' v hlo hhi b hb
    have hi'' := hstart i hi
    rw [hk, hvalue] at hi''
    have hnone := hfree v ((ha.le_stackEndOf i).trans hlo) (by rw [hk, hsize] at hhi; omega)
    rw [translate, Mmu.walk, hb] at hnone
    cases hnone
  have hcores := initCores_mapped ha le_rfl (by omega) hs hclear hrun
  have hsame : ∀ v, virtualBase ≤ v → v < 2 ^ 64 →
      (∀ i, 1 ≤ i → i < ids.length → ¬ InSlot k.areaBase k.stackPages i v) →
      translate st' k.pagesStart v = translate st k.pagesStart v := by
    intro v hlo hhi hout
    rw [translate, translate, Mmu.walk, Mmu.walk, hcores.outside v hlo hhi fun i hi hi' => hout i hi (by omega)]
  refine ⟨?_, ?_, ?_, ?_, ?_, ?_⟩
  · intro i hi
    rcases Nat.eq_zero_or_pos i with rfl | hi'
    · rw [hfirst]
      exact hcores.before 0 (by omega)
    · obtain ⟨j, rfl⟩ := Nat.exists_eq_add_of_le hi'
      rw [hcores.id j (by omega), List.getElem_drop]
  · exact hcores.before 1 (by omega)
  · intro i hi hi'
    obtain ⟨j, rfl⟩ := Nat.exists_eq_add_of_le hi
    have htop := hcores.top j (by omega)
    have hi'' := hstart (1 + j) hi
    refine ⟨?_, ?_⟩
    · rw [htop, hk, hsize, ← hi'', hk]
    · rcases hcores.stack (1 + j) hi (by omega) with ⟨b, hb, hmapped⟩
      refine ⟨b, hb, fun y hy => ?_⟩
      rw [hsize, ← hi'', Nat.add_sub_cancel]
      exact hmapped y (by rw [hk]; exact hy)
  · intro i hi hi' y hy
    have hi'' := hvalue i
    rw [hslot, hi'', hsame _ (by omega) (by omega), hfree _ (by omega) (by omega)]
    rintro j hj hj' ⟨hlo, hhi⟩
    have hj'' := hstart j hj
    rw [hk, hsize] at hhi
    rw [hk] at hlo hj''
    rw [hvalue] at hj''
    omega
  · intro v hlo hhi hout
    refine hsame v hlo hhi ?_
    rintro i hi hi' ⟨hlo', hhi'⟩
    have hi'' := hstart i hi
    refine hout ⟨(ha.le_stackEndOf i).trans hlo', ?_⟩
    rw [hk, hsize] at hhi'
    rw [hk, hvalue] at hi''
    omega
  · intro w hw
    rw [hcores.behind w (by omega), writePrimaryCoreStackEntry, Function.update_of_ne (by omega),
      Function.update_of_ne (by omega)]

/-- The tables of the start code leave the area free, but for the stack of the primary core. -/
theorem bootState_area {sym : BootSymbols} {blob blobSize v : Nat} (hl : BootLayout sym) (hlimit : sym.kernelEnd ≤ 2 ^ 30)
    (hsize : 0 < blobSize) (hblob : blob + blobSize ≤ 2 ^ 30) (mem : Tables Nat) (hn : n ≤ MAX_CORES .aarch64)
    (hlo : isrStackAreaVirtualBase kernelStackPages n ≤ v) (hhi : v < primaryStackEnd) :
    translate (bootState sym blob blobSize mem) sym.pagesStart v = none := by
  have hmax : MAX_CORES .aarch64 = 256 := rfl
  have hprimary : primaryStackEnd = 0xfffffdffffffe000 := rfl
  have hbase := isrStackAreaVirtualBase_eq hn
  obtain ⟨x, rfl⟩ := Nat.exists_eq_add_of_le (show virtualBase ≤ v by rw [virtualBase]; omega)
  have hx : 2 ^ 30 ≤ x := by
    rw [virtualBase] at hlo
    omega
  have hx' : x < 2 ^ 48 := by
    rw [virtualBase] at hhi
    omega
  rw [bootState_translate hl hlimit hsize hblob mem hx', bootMap, Nat.add_sub_cancel_left, if_neg, if_neg]
  · rintro ⟨hle, -⟩
    omega
  · intro hsec
    have hlt := hsec.lt hlimit hblob
    omega

/-- The second of two cores. -/
theorem init_isr_stacks_mapped_two :
    ∃ list' st', initIsrStacks .dev ⟨virtualBase, 0x1f0000, 0x1df000, 2, 0xfffffdffffffa000⟩
        (fun i => if i = 1 then some 0x400000 else none) 10 [0, 1] (writePrimaryCoreStackEntry 0 fun _ => 0)
        (bootState (bootSymbols imageStart ⟨0x15d000, 0, 0, 0, 0, 0⟩) 0x200000 0x8000 fun _ _ => 0) =
          .ok (list', st') ∧
      list' 0 = 0 ∧ list' 1 = 0xfffffe0000000000 ∧ list' 2 = 1 ∧ list' 3 = 0xfffffdffffffd000 ∧ list' 4 = 0 ∧
      translate st' 0x1f0000 0xfffffdffffffcfff = some 0x401fff ∧
      translate st' 0x1f0000 0xfffffdffffffd000 = none := by
  obtain ⟨⟨list', st'⟩, hrun⟩ : ∃ r, initIsrStacks .dev ⟨virtualBase, 0x1f0000, 0x1df000, 2, 0xfffffdffffffa000⟩
      (fun i => if i = 1 then some 0x400000 else none) 10 [0, 1] (writePrimaryCoreStackEntry 0 fun _ => 0)
      (bootState (bootSymbols imageStart ⟨0x15d000, 0, 0, 0, 0, 0⟩) 0x200000 0x8000 fun _ _ => 0) = .ok r := by
    refine exists_of_isOk ?_
    decide +kernel
  have hblock : ∀ i b, (if i = 1 then some 0x400000 else none) = some b → b = 0x400000 := by
    intro i b hb
    split at hb
    · exact (Option.some.inj hb).symm
    · cases hb
  have hl : BootLayout (bootSymbols imageStart ⟨0x15d000, 0, 0, 0, 0, 0⟩) := bootSymbols_layout _ (by decide)
  have hpages : (bootSymbols imageStart ⟨0x15d000, 0, 0, 0, 0, 0⟩).pagesStart = 0x1f0000 := by decide
  have hsound : Sound mmu physLimit
      (bootState (bootSymbols imageStart ⟨0x15d000, 0, 0, 0, 0, 0⟩) 0x200000 0x8000 fun _ _ => 0) 3
      (bootSymbols imageStart ⟨0x15d000, 0, 0, 0, 0, 0⟩).pagesStart _ :=
    bootState_sound hl (by decide) (by decide) (by decide) fun _ _ => 0
  have hfree : ∀ v, isrStackAreaVirtualBase kernelStackPages 2 ≤ v → v < primaryStackEnd → translate
      (bootState (bootSymbols imageStart ⟨0x15d000, 0, 0, 0, 0, 0⟩) 0x200000 0x8000 fun _ _ => 0)
      (bootSymbols imageStart ⟨0x15d000, 0, 0, 0, 0, 0⟩).pagesStart v = none :=
    fun v => bootState_area hl (by decide) (by decide) (by decide) (fun _ _ => 0) (by decide)
  rw [hpages] at hsound hfree
  have harea : isrStackAreaVirtualBase kernelStackPages 2 = 0xfffffdffffffa000 := by decide
  rw [harea] at hfree
  rcases init_isr_stacks_mapped rfl rfl (by decide) harea.symm (fun i b hb => by rw [hblock i b hb]; decide)
    (fun i b hb => by rw [hblock i b hb]; decide) hsound hfree hrun with ⟨hid, hprimary, hstacks, hguard, -, hbehind⟩
  rcases hstacks 1 le_rfl (by decide) with ⟨htop, b, hb, hstack⟩
  obtain rfl := hblock 1 b hb
  exact ⟨list', st', hrun, hid 0 (by decide), hprimary, hid 1 (by decide), htop, hbehind 4 le_rfl,
    hstack 0x1fff (by decide), hguard 2 (by decide) le_rfl 0 (by decide)⟩

end Kernel

end Aarch64
end Propeller
