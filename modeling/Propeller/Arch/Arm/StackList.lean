import Mathlib.Data.Nat.ModEq
import Mathlib.Tactic.Ring
import Propeller.Arch.Arm.Mm
import Propeller.Arch.Arm.Stacks

/-!
# Arch.Arm.StackList — the list of the stack pointers

The kernel stack list has a record of six words for each core: the thread id and the stack pointers of the five
modes.  The start code writes the record of the primary core, `init_isr_stacks` the others.  Its index starts at 5,
not at 6, so every record is one word too low and the first one replaces the SVC stack pointer of the primary core.
-/

namespace Propeller
namespace Arm

open Paging

/-! ## The source -/

/-- The list after `setup_stacks`, with the registers of the start code; `words` is what the memory holds before. -/
def setupStackList (kernelStackPages id : Nat) (words : Nat → Nat) : Nat → Nat :=
  let size := (kernelStackPages + 1) * pageSize % Arch.arm.wordLimit
  let sub := fun r => (r + Arch.arm.wordLimit - size) % Arch.arm.wordLimit
  let svc := primarySvcStackStart
  let irq := sub svc
  let abt := sub irq
  let und := sub abt
  let fiq := sub und
  fun w => match w with
    | 0 => id
    | 1 => fiq
    | 2 => und
    | 3 => abt
    | 4 => irq
    | 5 => svc
    | w => words w

/-- `initCoreStacks` with the allocation and the mapping of the stacks. -/
def allocCoreStacks (P : Profile) (split : VmSplit) (pagesStart fuel stackSize stepSize entryIndex : Nat) :
    List Nat → Nat → (Nat → Nat) → TableState Desc → Run ((Nat → Nat) × TableState Desc)
  | [], _, table, st => .ok (table, st)
  | s :: rest, stackVbase, table, st => do
      let (stackBase, st) ← st.alloc
      let top ← addWord P .arm stackVbase stackSize
      let st ← mapMemory P split pagesStart stackVbase stackBase stackSize false .granular fuel st
      let next ← addWord P .arm stackVbase stepSize
      allocCoreStacks P split pagesStart fuel stackSize stepSize entryIndex rest next
        (Function.update table (entryIndex + s) top) st

/-- `initCores` with the allocation and the mapping of the stacks. -/
def allocCores (P : Profile) (split : VmSplit) (pagesStart fuel stackAreaBase stackSize stepSize : Nat) :
    List Nat → Nat → Nat → (Nat → Nat) → TableState Desc → Run ((Nat → Nat) × TableState Desc)
  | [], _, _, table, st => .ok (table, st)
  | id :: ids, index, entryIndex, table, st => do
      let offset ← mulWord P .arm stepSize 4
      let offset ← mulWord P .arm offset (index - 1)
      let stackVbase ← addWord P .arm stackAreaBase offset
      let stackVbase ← addWord P .arm stackVbase (1 <<< pageShift)
      let (table, st) ← allocCoreStacks P split pagesStart fuel stackSize stepSize entryIndex [1, 2, 3, 4, 5] stackVbase
        (Function.update table entryIndex id) st
      allocCores P split pagesStart fuel stackAreaBase stackSize stepSize ids (index + 1) (entryIndex + 6) table st

/-- `init_isr_stacks` for cores with the identifiers `ids`, with the page allocator and the page tables. -/
def allocIsrStacks (P : Profile) (split : VmSplit) (pagesStart fuel kernelStackPages : Nat) (ids : List Nat)
    (stackAreaBase : Nat) (table : Nat → Nat) (st : TableState Desc) : Run ((Nat → Nat) × TableState Desc) := do
  let size ← stepSize P kernelStackPages
  allocCores P split pagesStart fuel stackAreaBase (kernelStackPages <<< pageShift % Arch.arm.wordLimit) size
    (ids.drop 1) 1 5 table st

/-! ## The layout -/

/-- The stack pointer that `init_isr_stacks` computes for the stack `s` from 1 to 5 of the core `i`. -/
def stackTop (kernelStackPages stackAreaBase i s : Nat) : Nat :=
  (stackAreaBase + (4 * (i - 1) + s) * ((kernelStackPages + 1) * pageSize)) % Arch.arm.wordLimit

/-- The layout of the list: the record of the core `i` is at `6 * i`, and that of the primary core is as before. -/
structure Listed (kernelStackPages stackAreaBase : Nat) (ids : List Nat) (before list : Nat → Nat) : Prop where
  id : ∀ i, 1 ≤ i → (h : i < ids.length) → list (6 * i) = ids[i]
  stack : ∀ i, 1 ≤ i → i < ids.length → ∀ s, 1 ≤ s → s ≤ 5 →
    list (6 * i + s) = stackTop kernelStackPages stackAreaBase i s
  primary : ∀ w < 6, list w = before w

/-- The words of the list: the record of the core `i` is at `6 * i - 1`. -/
def shiftedWord (kernelStackPages stackAreaBase : Nat) (ids : List Nat) (before : Nat → Nat) (w : Nat) : Nat :=
  if 5 ≤ w ∧ w + 1 < 6 * ids.length then
    if (w + 1) % 6 = 0 then ids.getD ((w + 1) / 6) 0
    else stackTop kernelStackPages stackAreaBase ((w + 1) / 6) ((w + 1) % 6)
  else before w

/-! ## The loops -/

variable {P : Profile} {split : VmSplit} {pagesStart fuel pages base stackSize size entryIndex index : Nat}
  {ids : List Nat} {table table' : Nat → Nat} {st st' : TableState Desc}

/-- What the allocator returns has no effect on the list. -/
theorem allocCoreStacks_table {ss : List Nat} {vbase : Nat}
    (h : allocCoreStacks P split pagesStart fuel stackSize size entryIndex ss vbase table st = .ok (table', st')) :
    ∃ mapped, initCoreStacks P stackSize size entryIndex ss vbase table = .ok (mapped, table') := by
  induction ss generalizing vbase table st with
  | nil =>
      rcases Prod.mk.inj (Except.ok.inj h) with ⟨rfl, -⟩
      exact ⟨[], rfl⟩
  | cons s ss ih =>
      rcases run_bind_eq_ok.mp h with ⟨⟨stackBase, st₁⟩, -, h⟩
      rcases run_bind_eq_ok.mp h with ⟨top, htop, h⟩
      rcases run_bind_eq_ok.mp h with ⟨st₂, -, h⟩
      rcases run_bind_eq_ok.mp h with ⟨next, hnext, h⟩
      rcases ih h with ⟨mapped, hrest⟩
      refine ⟨⟨vbase, top⟩ :: mapped, ?_⟩
      rw [initCoreStacks, htop, run_ok_bind, hnext, run_ok_bind, hrest]
      rfl

theorem allocCores_table
    (h : allocCores P split pagesStart fuel base stackSize size ids index entryIndex table st = .ok (table', st')) :
    ∃ mapped, initCores P base stackSize size ids index entryIndex table = .ok (mapped, table') := by
  induction ids generalizing index entryIndex table st with
  | nil =>
      rcases Prod.mk.inj (Except.ok.inj h) with ⟨rfl, -⟩
      exact ⟨[], rfl⟩
  | cons id ids ih =>
      rcases run_bind_eq_ok.mp h with ⟨step, hstep, h⟩
      rcases run_bind_eq_ok.mp h with ⟨offset, hoffset, h⟩
      rcases run_bind_eq_ok.mp h with ⟨start, hstart, h⟩
      rcases run_bind_eq_ok.mp h with ⟨vbase, hvbase, h⟩
      rcases run_bind_eq_ok.mp h with ⟨⟨table₁, st₁⟩, hfive, h⟩
      rcases allocCoreStacks_table hfive with ⟨mapped, hmapped⟩
      rcases ih h with ⟨rest, hrest⟩
      refine ⟨mapped ++ rest, ?_⟩
      rw [initCores, hstep, run_ok_bind, hoffset, run_ok_bind, hstart, run_ok_bind, hvbase, run_ok_bind, hmapped]
      simp only [run_ok_bind, hrest]
      rfl

theorem allocIsrStacks_table
    (h : allocIsrStacks P split pagesStart fuel pages ids base table st = .ok (table', st')) :
    ∃ mapped, initIsrStacks P pages ids base table = .ok (mapped, table') := by
  rcases run_bind_eq_ok.mp h with ⟨step, hstep, h⟩
  rcases allocCores_table h with ⟨mapped, hmapped⟩
  refine ⟨mapped, ?_⟩
  rw [initIsrStacks, hstep, run_ok_bind, hmapped]

/-- The stack pointers of a core, for any part of the loop. -/
theorem initCoreStacks_word {a k vbase : Nat} {mapped : List Stack} (w : Nat)
    (h : initCoreStacks P stackSize size entryIndex (List.range' a k) vbase table = .ok (mapped, table')) :
    table' w = if entryIndex + a ≤ w ∧ w < entryIndex + a + k then
      (vbase + (w - (entryIndex + a)) * size + stackSize) % Arch.arm.wordLimit else table w := by
  induction k generalizing a vbase table mapped with
  | zero =>
      rcases Prod.mk.inj (Except.ok.inj h) with ⟨-, rfl⟩
      rw [if_neg (by omega)]
  | succ k ih =>
      rw [List.range'_succ] at h
      rcases run_bind_eq_ok.mp h with ⟨top, htop, h⟩
      rcases run_bind_eq_ok.mp h with ⟨next, hnext, h⟩
      rcases run_bind_eq_ok.mp h with ⟨⟨rest, table₁⟩, hrest, h⟩
      rcases Prod.mk.inj (Except.ok.inj h) with ⟨-, rfl⟩
      rw [ih hrest]
      -- The word is before the one that this step writes, that word, or written by the rest.
      rcases Nat.lt_trichotomy w (entryIndex + a) with hlt | rfl | hgt
      · rw [if_neg (by omega), if_neg (by omega), Function.update_of_ne (by omega)]
      · rw [if_neg (by omega), if_pos (by omega), Function.update_self, addWord_eq_mod htop, Nat.sub_self, Nat.zero_mul,
          Nat.add_zero]
      · -- The rest counts its stacks from the next base, which wraps at the word limit.
        have hone : w - (entryIndex + a) = w - (entryIndex + (a + 1)) + 1 := by omega
        have hbounds : (entryIndex + (a + 1) ≤ w ∧ w < entryIndex + (a + 1) + k) ↔
            entryIndex + a ≤ w ∧ w < entryIndex + a + (k + 1) := by omega
        rw [if_congr hbounds rfl rfl, Function.update_of_ne (by omega), addWord_eq_mod hnext, hone, Nat.succ_mul]
        refine if_congr Iff.rfl ?_ rfl
        rw [Nat.add_assoc, Nat.mod_add_mod]
        congr 1
        omega

theorem initCores_word {k : Nat} {mapped : List Stack} (w : Nat)
    (h : initCores P base stackSize size ids (k + 1) entryIndex table = .ok (mapped, table')) :
    table' w = if entryIndex ≤ w ∧ w < entryIndex + 6 * ids.length then
      if (w - entryIndex) % 6 = 0 then ids.getD ((w - entryIndex) / 6) 0
      else (base + size * 4 * (k + (w - entryIndex) / 6) + pageSize + ((w - entryIndex) % 6 - 1) * size + stackSize) %
        Arch.arm.wordLimit
      else table w := by
  induction ids generalizing k entryIndex table mapped with
  | nil =>
      rcases Prod.mk.inj (Except.ok.inj h) with ⟨-, rfl⟩
      rw [if_neg (by simp)]
  | cons id ids ih =>
      rcases run_bind_eq_ok.mp h with ⟨step, hstep, h⟩
      rcases run_bind_eq_ok.mp h with ⟨offset, hoffset, h⟩
      rcases run_bind_eq_ok.mp h with ⟨start, hstart, h⟩
      rcases run_bind_eq_ok.mp h with ⟨vbase, hvbase, h⟩
      rcases run_bind_eq_ok.mp h with ⟨⟨five, table₁⟩, hfive, h⟩
      rcases run_bind_eq_ok.mp h with ⟨⟨rest, table₂⟩, hrest, h⟩
      rcases Prod.mk.inj (Except.ok.inj h) with ⟨-, rfl⟩
      have hfirst := initCoreStacks_word (a := 1) (k := 5) w hfive
      -- The wraps of the single operations add up to one wrap of the sum.
      have hbase : vbase = (base + size * 4 * k + pageSize) % Arch.arm.wordLimit := by
        rw [addWord_eq_mod hvbase, addWord_eq_mod hstart, mulWord_eq_mod hoffset, mulWord_eq_mod hstep,
          Nat.add_sub_cancel, Nat.mod_mul_mod, Nat.add_mod_mod, Nat.mod_add_mod]
        rfl
      rw [ih hrest, hfirst, List.length_cons]
      -- The first core has six words: its identifier and five stacks, all before the words of the rest.
      rcases Nat.lt_or_ge w (entryIndex + 6) with hlt | hge
      · rw [if_neg (by omega)]
        rcases Nat.lt_trichotomy w entryIndex with hlow | rfl | hgt
        · rw [if_neg (by omega), if_neg (by omega), Function.update_of_ne (by omega)]
        · rw [if_neg (by omega), if_pos (by omega), Function.update_self, Nat.sub_self, if_pos rfl]
          rfl
        · have hmod : (w - entryIndex) % 6 = w - entryIndex := Nat.mod_eq_of_lt (by omega)
          have hdiv : (w - entryIndex) / 6 = 0 := Nat.div_eq_of_lt (by omega)
          rw [if_pos (by omega), if_pos (by omega), hmod, hdiv, if_neg (by omega), hbase, Nat.add_zero k, ← Nat.sub_sub,
            Nat.add_assoc (_ % _), Nat.mod_add_mod, ← Nat.add_assoc]
      · have hnext : w - entryIndex = w - (entryIndex + 6) + 6 := by omega
        have hbounds : (entryIndex + 6 ≤ w ∧ w < entryIndex + 6 + 6 * ids.length) ↔
            entryIndex ≤ w ∧ w < entryIndex + 6 * (ids.length + 1) := by omega
        rw [if_congr hbounds rfl rfl, if_neg (show ¬ (entryIndex + 1 ≤ w ∧ _) by omega),
          Function.update_of_ne (by omega), hnext, Nat.add_mod_right, Nat.add_div_right _ (by decide), List.getD_cons_succ,
          Nat.add_assoc k 1, Nat.add_comm 1]

/-- A stack and its guard page are as large as the distance of two stacks. -/
theorem top_eq_stackTop (pages base q : Nat) {r : Nat} (hr : 0 < r) :
    (base + (pages + 1) * pageSize % Arch.arm.wordLimit * 4 * q + pageSize +
        (r - 1) * ((pages + 1) * pageSize % Arch.arm.wordLimit) + pages * pageSize % Arch.arm.wordLimit) %
        Arch.arm.wordLimit =
      stackTop pages base (q + 1) r := by
  have hstep : (pages + 1) * pageSize % Arch.arm.wordLimit ≡ (pages + 1) * pageSize [MOD Arch.arm.wordLimit] :=
    Nat.mod_modEq _ _
  have hsize : pages * pageSize % Arch.arm.wordLimit ≡ pages * pageSize [MOD Arch.arm.wordLimit] := Nat.mod_modEq _ _
  refine ((((((hstep.mul_right 4).mul_right q).add_left base).add_right pageSize).add (hstep.mul_left (r - 1))).add
    hsize).trans ?_
  have hsum : base + (pages + 1) * pageSize * 4 * q + pageSize + (r - 1) * ((pages + 1) * pageSize) + pages * pageSize =
      base + (4 * (q + 1 - 1) + r) * ((pages + 1) * pageSize) := by
    rcases Nat.exists_eq_add_of_lt hr with ⟨r, rfl⟩
    simp only [Nat.add_sub_cancel]
    ring_nf
  rw [hsum]

/-- Every word of the list after `init_isr_stacks`. -/
theorem allocIsrStacks_word
    (h : allocIsrStacks P split pagesStart fuel pages ids base table st = .ok (table', st')) (w : Nat) :
    table' w = shiftedWord pages base ids table w := by
  rcases allocIsrStacks_table h with ⟨mapped, hinit⟩
  rcases run_bind_eq_ok.mp hinit with ⟨size, hsize, hcores⟩
  have hstep : size = (pages + 1) * pageSize % Arch.arm.wordLimit := by
    rcases run_bind_eq_ok.mp hsize with ⟨count, hcount, hshift⟩
    rw [← Except.ok.inj hshift, addWord_eq_mod hcount, Nat.shiftLeft_eq, Nat.mod_mul_mod, ← pageSize_eq]
  have hstack : pages <<< pageShift % Arch.arm.wordLimit = pages * pageSize % Arch.arm.wordLimit := by
    rw [Nat.shiftLeft_eq, ← pageSize_eq]
  have hlen : (ids.drop 1).length = ids.length - 1 := List.length_drop
  rw [initCores_word (k := 0) w hcores, shiftedWord, hlen]
  have hbounds : (5 ≤ w ∧ w < 5 + 6 * (ids.length - 1)) ↔ 5 ≤ w ∧ w + 1 < 6 * ids.length := by omega
  rw [if_congr hbounds rfl rfl]
  split
  next hw =>
    have hmod : (w - 5) % 6 = (w + 1) % 6 := by omega
    have hdiv : (w + 1) / 6 = (w - 5) / 6 + 1 := by omega
    rw [hmod, hdiv]
    split
    next => rw [List.getD_eq_getElem?_getD, List.getElem?_drop, ← List.getD_eq_getElem?_getD, Nat.add_comm 1]
    next hr => rw [hstep, hstack, Nat.zero_add, top_eq_stackTop pages base _ (Nat.pos_of_ne_zero hr)]
  next => rfl

/-! ## When the records are in place -/

/-- Two stack pointers of a core are the same only if a stack with its guard page is as large as the whole address
space. -/
theorem wrap_of_stackTop_eq {i : Nat} (h : stackTop pages base i 1 = stackTop pages base i 2) : 2 ^ 20 ∣ pages + 1 := by
  have hmod : base + (4 * (i - 1) + 1) * ((pages + 1) * pageSize) + 0 ≡
      base + (4 * (i - 1) + 1) * ((pages + 1) * pageSize) + (pages + 1) * pageSize [MOD Arch.arm.wordLimit] := by
    rw [Nat.add_zero, Nat.add_assoc, ← Nat.succ_mul]
    exact h
  have hdvd : 2 ^ 20 * 2 ^ 12 ∣ (pages + 1) * 2 ^ 12 := (Nat.modEq_zero_iff_dvd).mp (Nat.ModEq.add_left_cancel' _ hmod).symm
  exact Nat.dvd_of_mul_dvd_mul_right (by decide) hdvd

/-- Then all stacks and the whole area are at one address. -/
theorem stackTop_of_wrap (hwrap : 2 ^ 20 ∣ pages + 1) (i s : Nat) :
    stackTop pages base i s = base % Arch.arm.wordLimit := by
  have hdvd : Arch.arm.wordLimit ∣ (4 * (i - 1) + s) * ((pages + 1) * pageSize) :=
    Dvd.dvd.mul_left (Nat.mul_dvd_mul_right hwrap pageSize) _
  rw [stackTop, Nat.add_mod, Nat.mod_eq_zero_of_dvd hdvd, Nat.add_zero, Nat.mod_mod]

theorem area_of_wrap {n : Nat} (hwrap : 2 ^ 20 ∣ pages + 1) (harea : isrStackAreaVirtualBase P pages n = .ok base) :
    base = primarySvcStackStart := by
  rcases run_bind_eq_ok.mp harea with ⟨step, hstep, h⟩
  rcases run_bind_eq_ok.mp h with ⟨size₁, hsize₁, h⟩
  rcases run_bind_eq_ok.mp h with ⟨size₂, hsize₂, h⟩
  have hzero : step = 0 := by
    rcases run_bind_eq_ok.mp hstep with ⟨count, hcount, hshift⟩
    rw [← Except.ok.inj hshift, addWord_eq_mod hcount, Nat.shiftLeft_eq, Nat.mod_mul_mod]
    exact Nat.mod_eq_zero_of_dvd (Nat.mul_dvd_mul_right hwrap (2 ^ pageShift))
  have hsize : size₂ = 0 := by
    rw [mulWord_eq_mod hsize₂, mulWord_eq_mod hsize₁, hzero, Nat.zero_mul, Nat.zero_mod, Nat.zero_mul, Nat.zero_mod]
  rw [hsize, subWord_of_le (Nat.zero_le _) (by decide)] at h
  exact (Except.ok.inj h).symm

/-- If all stack pointers and identifiers are the same, a shift by one word is not seen. -/
theorem shiftedWord_const {c w : Nat} {before : Nat → Nat} (htop : ∀ i s, stackTop pages base i s = c)
    (hids : ∀ i, 1 ≤ i → (h : i < ids.length) → ids[i] = c) (hlast : before (6 * ids.length - 1) = c)
    (hlow : 5 ≤ w) (hw : w < 6 * ids.length) : shiftedWord pages base ids before w = c := by
  rw [shiftedWord]
  split_ifs with hin hmod
  · have hlt : (w + 1) / 6 < ids.length := by omega
    rw [List.getD_eq_getElem?_getD, List.getElem?_eq_getElem hlt, Option.getD_some, hids _ (by omega) hlt]
  · exact htop _ _
  · rw [show w = 6 * ids.length - 1 by omega, hlast]

/-- `init_isr_stacks` leaves the list in the documented layout only by coincidence: a stack with its guard page is as
large as the address space, all cores have the SVC stack pointer of the primary core as their thread id, and the word
behind the last record was that value before. -/
theorem allocIsrStacks_listed_iff {id : Nat} {words : Nat → Nat} (hids : 2 ≤ ids.length) (hmax : ids.length ≤ 16)
    (harea : isrStackAreaVirtualBase P pages ids.length = .ok base)
    (h : allocIsrStacks P split pagesStart fuel pages ids base (setupStackList pages id words) st = .ok (table', st')) :
    Listed pages base ids (setupStackList pages id words) table' ↔
      2 ^ 20 ∣ pages + 1 ∧ (∀ i, 1 ≤ i → (h : i < ids.length) → ids[i] = primarySvcStackStart) ∧
        words (6 * ids.length - 1) = primarySvcStackStart := by
  have hword := allocIsrStacks_word h
  have hbehind : setupStackList pages id words (6 * ids.length - 1) = words (6 * ids.length - 1) := by
    rcases Nat.exists_eq_add_of_le (show 6 ≤ 6 * ids.length - 1 by omega) with ⟨k, hk⟩
    rw [hk, Nat.add_comm]
    rfl
  constructor
  · intro hlisted
    -- The shift makes the first two stacks of core 1 the same word, which needs stacks of a full word space.
    have htops : stackTop pages base 1 1 = stackTop pages base 1 2 := by
      rw [← hlisted.stack 1 le_rfl hids 1 le_rfl (by decide), hword, shiftedWord, if_pos (by omega)]
      rfl
    have hwrap := wrap_of_stackTop_eq htops
    have hbase : ∀ i s, stackTop pages base i s = primarySvcStackStart := by
      intro i s
      rw [stackTop_of_wrap hwrap, area_of_wrap hwrap harea]
      rfl
    refine ⟨hwrap, fun i hi hlt => ?_, ?_⟩
    · rw [← hlisted.id i hi hlt, hword, shiftedWord, if_pos (by omega), if_neg (by omega), hbase]
    · have hlast := hlisted.stack (ids.length - 1) (by omega) (by omega) 5 (by decide) le_rfl
      rw [hbase, show 6 * (ids.length - 1) + 5 = 6 * ids.length - 1 by omega, hword, shiftedWord, if_neg (by omega),
        hbehind] at hlast
      exact hlast
  · rintro ⟨hwrap, hsame, hlast⟩
    have hbase : ∀ i s, stackTop pages base i s = primarySvcStackStart := by
      intro i s
      rw [stackTop_of_wrap hwrap, area_of_wrap hwrap harea]
      rfl
    -- Then all tops are the same address, and the shift of a constant list is not visible.
    have hconst : ∀ w, 5 ≤ w → w < 6 * ids.length → table' w = primarySvcStackStart := by
      intro w hlow hw
      rw [hword, shiftedWord_const hbase hsame (hbehind.trans hlast) hlow hw]
    refine ⟨fun i hi hlt => ?_, fun i hi hlt s hs hs' => ?_, fun w hw => ?_⟩
    · rw [hconst _ (by omega) (by omega), hsame i hi hlt]
    · rw [hconst _ (by omega) (by omega), hbase]
    · rcases Nat.lt_or_ge w 5 with hlt | hge
      · rw [hword, shiftedWord, if_neg (by omega)]
      · obtain rfl : w = 5 := by omega
        rw [hconst 5 le_rfl (by omega)]
        rfl

/-- A page allocator with twenty blocks is enough for the stacks of two pages of a second core. -/
theorem allocIsrStacks_two (P : Profile) :
    isrStackAreaVirtualBase P 2 2 = .ok 0xfe3e8000 ∧
      ∃ r, allocIsrStacks P .three 0 600 2 [0, 1] 0xfe3e8000 (setupStackList 2 0 fun _ => 0)
        (emptyState format.zero 20) = .ok r := by
  have hok : (allocIsrStacks P .three 0 600 2 [0, 1] 0xfe3e8000 (setupStackList 2 0 fun _ => 0)
      (emptyState format.zero 20)).isOk = true := by
    cases P <;> decide +kernel
  refine ⟨by cases P <;> decide, ?_⟩
  cases hrun : allocIsrStacks P .three 0 600 2 [0, 1] 0xfe3e8000 (setupStackList 2 0 fun _ => 0)
      (emptyState format.zero 20) with
  | ok r => exact ⟨r, rfl⟩
  | error e =>
      rw [hrun] at hok
      cases hok

theorem allocIsrStacks_not_listed_two :
    ∃ list st', allocIsrStacks .dev .three 0 600 2 [0, 1] 0xfe3e8000 (setupStackList 2 0 fun _ => 0)
      (emptyState format.zero 20) = .ok (list, st') ∧
      ¬ Listed 2 0xfe3e8000 [0, 1] (setupStackList 2 0 fun _ => 0) list := by
  rcases allocIsrStacks_two .dev with ⟨harea, ⟨list, st'⟩, hrun⟩
  refine ⟨list, st', hrun, fun hlisted => ?_⟩
  have hwrap := ((allocIsrStacks_listed_iff (by decide) (by decide) harea hrun).mp hlisted).1
  revert hwrap
  decide

/-- Two cores: the thread id of the second core is in place of the SVC stack pointer of the first. -/
theorem allocIsrStacks_clobbers_primary :
    ∃ list st', allocIsrStacks .release .three 0 600 2 [0, 1] 0xfe3e8000 (setupStackList 2 0 fun _ => 0)
      (emptyState format.zero 20) = .ok (list, st') ∧ list 5 = 1 ∧ list 6 = 0xfe3eb000 ∧
      setupStackList 2 0 (fun _ => 0) 5 = 0xfe400000 ∧
      ¬ Listed 2 0xfe3e8000 [0, 1] (setupStackList 2 0 fun _ => 0) list := by
  rcases allocIsrStacks_two .release with ⟨-, ⟨list, st'⟩, hrun⟩
  have hfive : list 5 = 1 := allocIsrStacks_word hrun 5
  refine ⟨list, st', hrun, hfive, allocIsrStacks_word hrun 6, rfl, fun hlisted => ?_⟩
  have hkept := hlisted.primary 5 (by decide)
  rw [hfive] at hkept
  cases hkept

end Arm
end Propeller
