import Mathlib.Algebra.BigOperators.Group.Finset.Basic
import Propeller.Mm.Slab.World

/-!
# Slab.Places — where bundles and objects are

A bundle is referenced by a core, as its current or its standby bundle, or it is on one of the two lists
of the bundle manager.  An object is with a client, in a bundle, or in its slab.  Both are counted:
`refCount` is the number of references to a bundle and `storedCount` the number of slots in use that
hold an object.  This file has the counts, how they change when one core changes, and the effect of the
bundle manager's functions on its lists.
-/

namespace Propeller
namespace Slab

variable {A : Arch} {shO shB : Shape A} {virtBase n : Nat} {s : SlabAllocator}
  {regions : List (Nat × Nat)} {cO cB : Contents} {m m' : Mem} {b i j k o x v : Nat}
  {es fs xs : List Nat} {grant : Option Nat}

/-! ## Counting over cores -/

/-- When one core changes, only its share of the sum does. -/
theorem sum_update_core {f g : Nat → Nat} (hi : i < n) (h : ∀ j < n, j ≠ i → g j = f j) :
    ∑ j ∈ Finset.range n, g j + f i = ∑ j ∈ Finset.range n, f j + g i := by
  have hmem := Finset.mem_range.2 hi
  rw [← Finset.add_sum_erase _ g hmem, ← Finset.add_sum_erase _ f hmem]
  have hrest : ∑ j ∈ (Finset.range n).erase i, g j = ∑ j ∈ (Finset.range n).erase i, f j :=
    Finset.sum_congr rfl fun j hj =>
      h j (Finset.mem_range.1 (Finset.mem_of_mem_erase hj)) (Finset.ne_of_mem_erase hj)
  omega

theorem le_sum_core {f : Nat → Nat} (hi : i < n) : f i ≤ ∑ j ∈ Finset.range n, f j :=
  Finset.single_le_sum (fun _ _ => Nat.zero_le _) (Finset.mem_range.2 hi)

/-- Two cores have no more than the sum. -/
theorem add_le_sum_core {f : Nat → Nat} (hi : i < n) (hj : j < n) (hne : i ≠ j) :
    f i + f j ≤ ∑ k ∈ Finset.range n, f k := by
  have hmem := Finset.mem_range.2 hi
  have hmem' : j ∈ (Finset.range n).erase i := Finset.mem_erase.2 ⟨hne.symm, Finset.mem_range.2 hj⟩
  rw [← Finset.add_sum_erase _ f hmem]
  exact Nat.add_le_add_left (Finset.single_le_sum (fun _ _ => Nat.zero_le _) hmem') _

/-! ## References and slots -/

/-- The number of references of a core to the bundle `b`. -/
def CoreCache.refs (cache : CoreCache) (b : Nat) : Nat :=
  (if cache.current = b then 1 else 0) + if cache.standby = b then 1 else 0

/-- The number of references to the bundle `b`, where `es` and `fs` are the lists of the manager. -/
def refCount (s : SlabAllocator) (n : Nat) (es fs : List Nat) (b : Nat) : Nat :=
  es.count b + fs.count b + ∑ i ∈ Finset.range n, (s.cache i).refs b

/-- The first `k` slots of a bundle. -/
def slots (A : Arch) (m : Mem) (b k : Nat) : List Nat :=
  (List.range k).map fun j => m (slotAddr A b j)

/-- The objects in the bundles of a core. -/
def CoreCache.objs (A : Arch) (m : Mem) (cache : CoreCache) : List Nat :=
  slots A m cache.current cache.currCount ++ slots A m cache.standby cache.stbyCount

/-- The objects in the full bundles of the manager. -/
def fullObjs (A : Arch) (m : Mem) (fs : List Nat) : List Nat :=
  fs.flatMap fun b => slots A m b BUNDLE_SIZE

/-- The number of slots in use that hold the object `o`. -/
def storedCount (A : Arch) (s : SlabAllocator) (n : Nat) (fs : List Nat) (o : Nat) : Nat :=
  ∑ i ∈ Finset.range n, ((s.cache i).objs A s.mem).count o + (fullObjs A s.mem fs).count o

theorem slots_zero (m : Mem) (b : Nat) : slots A m b 0 = [] := rfl

theorem slots_succ (m : Mem) (b k : Nat) :
    slots A m b (k + 1) = slots A m b k ++ [m (slotAddr A b k)] := by
  simp [slots, List.range_succ]

theorem slots_congr (h : ∀ j < k, m' (slotAddr A b j) = m (slotAddr A b j)) :
    slots A m' b k = slots A m b k :=
  List.map_congr_left fun j hj => h j (List.mem_range.1 hj)

/-! ## What holds of the bundles -/

/-- The counts of a core go with its bundles. -/
structure CacheOk (cache : CoreCache) : Prop where
  curr_le : cache.currCount ≤ BUNDLE_SIZE
  stby_le : cache.stbyCount ≤ BUNDLE_SIZE
  curr_zero : cache.current = 0 → cache.currCount = 0
  stby_zero : cache.standby = 0 → cache.stbyCount = 0

/-- The lists of the manager are `es` and `fs`, no bundle has more references than it was allocated, and
the `next` words of the cores' bundles are poisoned. -/
structure Bundles (A : Arch) (n : Nat) (s : SlabAllocator) (cB : Contents) (es fs : List Nat) :
    Prop where
  empty : Chain (BUNDLE_SIZE * A.wordBytes) s.mem s.bundleMgr.empty es
  full : Chain (BUNDLE_SIZE * A.wordBytes) s.mem s.bundleMgr.full fs
  refs : ∀ b, b ≠ 0 → refCount s n es fs b ≤ cB.out.count b
  poison : ∀ i < n, ∀ b, b ≠ 0 → 0 < (s.cache i).refs b →
    s.mem (slotAddr A b BUNDLE_SIZE) = A.poison
  caches : ∀ i < n, CacheOk (s.cache i)

theorem Chain.ne_zero {off head : Nat} (h : Chain off m head xs) (hx : x ∈ xs) : x ≠ 0 := by
  induction xs generalizing head with
  | nil => cases hx
  | cons y ys ih =>
      rcases List.mem_cons.1 hx with rfl | hx
      · exact h.2.1
      · exact ih h.2.2 hx

theorem Chain.head_eq_zero_iff {off head : Nat} (h : Chain off m head xs) : head = 0 ↔ xs = [] := by
  cases xs with
  | nil =>
      have hz : head = 0 := h
      simp [hz]
  | cons y ys =>
      constructor
      · rintro rfl
        exact absurd h.1.symm h.2.1
      · intro hnil
        cases hnil

namespace Bundles

theorem refs_le_refCount (es fs : List Nat) (hi : i < n) : (s.cache i).refs b ≤ refCount s n es fs b := by
  have hle := le_sum_core (f := fun j => (s.cache j).refs b) hi
  rw [refCount]
  omega

theorem mem_out_of_refs (h : Bundles A n s cB es fs) (hi : i < n) (hb : b ≠ 0)
    (href : 0 < (s.cache i).refs b) : b ∈ cB.out := by
  have hle := h.refs b hb
  have hcore := refs_le_refCount (s := s) (b := b) es fs hi
  exact List.count_pos_iff.1 (by omega)

theorem mem_out_of_empty (h : Bundles A n s cB es fs) (hb : b ∈ es) : b ∈ cB.out := by
  have hle := h.refs b (h.empty.ne_zero hb)
  have hpos := List.count_pos_iff.2 hb
  rw [refCount] at hle
  exact List.count_pos_iff.1 (by omega)

theorem mem_out_of_full (h : Bundles A n s cB es fs) (hb : b ∈ fs) : b ∈ cB.out := by
  have hle := h.refs b (h.full.ne_zero hb)
  have hpos := List.count_pos_iff.2 hb
  rw [refCount] at hle
  exact List.count_pos_iff.1 (by omega)

end Bundles

theorem CoreCache.refs_current (cache : CoreCache) : 0 < cache.refs cache.current := by
  simp [CoreCache.refs]

theorem CoreCache.refs_standby (cache : CoreCache) : 0 < cache.refs cache.standby := by
  simp [CoreCache.refs]

theorem CoreCache.refs_swap (cache : CoreCache) (b : Nat) :
    (swapCacheBundles cache).refs b = cache.refs b :=
  Nat.add_comm _ _

/-- A bundle has at most one reference. -/
theorem Bundles.refCount_le_one (h : Bundles A n s cB es fs) (hnd : cB.out.Nodup) (hb : b ≠ 0) :
    refCount s n es fs b ≤ 1 :=
  (h.refs b hb).trans (List.nodup_iff_count_le_one.1 hnd b)

/-- The slots of the bundles that are out are as before. -/
def SlotsKept (A : Arch) (cB : Contents) (m m' : Mem) : Prop :=
  ∀ b ∈ cB.out, ∀ j < BUNDLE_SIZE, m' (slotAddr A b j) = m (slotAddr A b j)

/-- The objects of a core do not change when its slots do not. -/
theorem Bundles.objs_congr (h : Bundles A n s cB es fs) (hi : i < n)
    (hm : ∀ b ∈ cB.out, 0 < (s.cache i).refs b → ∀ j < BUNDLE_SIZE,
      m' (slotAddr A b j) = s.mem (slotAddr A b j)) :
    (s.cache i).objs A m' = (s.cache i).objs A s.mem := by
  have hok := h.caches i hi
  have hcurr : slots A m' (s.cache i).current (s.cache i).currCount =
      slots A s.mem (s.cache i).current (s.cache i).currCount := by
    by_cases hzero : (s.cache i).current = 0
    · rw [hok.curr_zero hzero, slots_zero, slots_zero]
    · have href := (s.cache i).refs_current
      exact slots_congr fun j hj => hm _ (h.mem_out_of_refs hi hzero href) href j
        (hj.trans_le hok.curr_le)
  have hstby : slots A m' (s.cache i).standby (s.cache i).stbyCount =
      slots A s.mem (s.cache i).standby (s.cache i).stbyCount := by
    by_cases hzero : (s.cache i).standby = 0
    · rw [hok.stby_zero hzero, slots_zero, slots_zero]
    · have href := (s.cache i).refs_standby
      exact slots_congr fun j hj => hm _ (h.mem_out_of_refs hi hzero href) href j
        (hj.trans_le hok.stby_le)
  rw [CoreCache.objs, CoreCache.objs, hcurr, hstby]

theorem fullObjs_congr (hm : ∀ b ∈ fs, ∀ j < BUNDLE_SIZE,
    m' (slotAddr A b j) = m (slotAddr A b j)) : fullObjs A m' fs = fullObjs A m fs :=
  List.flatMap_congr fun b hb => slots_congr fun j hj => hm b hb j hj

/-! ## The lists of the bundle manager -/

section Manager

variable {head : Nat}

/-- A list is not affected by a write to the `next` word of another bundle. -/
theorem Chain.update_next (h : Chain (BUNDLE_SIZE * A.wordBytes) m head xs) (hb : b ∉ xs) :
    Chain (BUNDLE_SIZE * A.wordBytes) (Function.update m (slotAddr A b BUNDLE_SIZE) v) head xs := by
  refine h.congr fun x hx => Function.update_of_ne ?_ _ _
  intro heq
  have hxb : x = b := Nat.add_right_cancel heq
  exact hb (hxb ▸ hx)

theorem getBundleWrapperMut_eq (hb : b ≠ 0) :
    getBundleWrapperMut A b = .ok (slotAddr A b BUNDLE_SIZE) := by
  simp only [getBundleWrapperMut, require_pos hb, run_ok_bind]
  rfl

/-- Returning a bundle puts it in front of the list. -/
theorem returnBundle_spec (h : Chain (BUNDLE_SIZE * A.wordBytes) m head xs) (hb0 : b ≠ 0)
    (hb : b ∉ xs) (hp : m (slotAddr A b BUNDLE_SIZE) = A.poison) :
    returnBundle A b head m =
        .ok (b, Function.update m (slotAddr A b BUNDLE_SIZE) head) ∧
      Chain (BUNDLE_SIZE * A.wordBytes) (Function.update m (slotAddr A b BUNDLE_SIZE) head) b
        (b :: xs) := by
  constructor
  · simp only [returnBundle, if_neg hb0, getBundleWrapperMut_eq hb0, run_ok_bind, require_pos hp]
    rfl
  · refine ⟨rfl, hb0, ?_⟩
    have hself : Function.update m (slotAddr A b BUNDLE_SIZE) head (b + BUNDLE_SIZE * A.wordBytes) =
        head := Function.update_self _ _ _
    rw [hself]
    exact h.update_next hb

theorem returnBundle_zero : returnBundle A 0 head m = .ok (head, m) :=
  if_pos rfl

/-- Popping a bundle takes it off the list and poisons its `next` word. -/
theorem popBundle_spec (h : Chain (BUNDLE_SIZE * A.wordBytes) m head (b :: xs)) (hb : b ∉ xs) :
    popBundle A head m = .ok (b, m (slotAddr A b BUNDLE_SIZE),
        Function.update m (slotAddr A b BUNDLE_SIZE) A.poison) ∧
      Chain (BUNDLE_SIZE * A.wordBytes) (Function.update m (slotAddr A b BUNDLE_SIZE) A.poison)
        (m (slotAddr A b BUNDLE_SIZE)) xs := by
  rcases h with ⟨rfl, hb0, htail⟩
  refine ⟨?_, Chain.update_next htail hb⟩
  simp only [popBundle, getBundleWrapperMut_eq hb0, run_ok_bind]
  rfl

end Manager

end Slab
end Propeller
