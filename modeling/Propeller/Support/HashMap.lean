import Mathlib.Data.List.Induction
import Mathlib.Logic.Function.Basic
import Propeller.Arch

/-!
# Support.HashMap — the fixed-size hash map and its FNV-1a hash

The map is an array of `N` optional pairs with quadratic probing.  The sizes in the kernel are far below
`2 ^ 31` and the hashes below `2 ^ 32`, so that the 64-bit arithmetic of `make_probe_index` does not
overflow.
-/

namespace Propeller

/-! ## FNV-1a -/

namespace Fnv1a

def basis : Nat := 0x811c9dc5

def prime : Nat := 0x01000193

/-- `Fnv1aHasher::write`. -/
def write (state : Nat) (bytes : List Nat) : Nat :=
  bytes.foldl (fun state c => (state ^^^ c) * prime % 2 ^ 32) state

end Fnv1a

/-- The bytes of a word in memory, least significant first. -/
def wordToBytes (A : Arch) (word : Nat) : List Nat :=
  (List.range A.wordBytes).map fun i => (word >>> (8 * i)) % 256

/-- The hash of a `usize`. -/
def hashWord (A : Arch) (word : Nat) : Nat :=
  Fnv1a.write Fnv1a.basis (wordToBytes A word)

/-- The hash of a byte string: its length, then its bytes. -/
def hashBytes (A : Arch) (bytes : List Nat) : Nat :=
  Fnv1a.write (Fnv1a.write Fnv1a.basis (wordToBytes A bytes.length)) bytes

/-- The hash of a `&[u8]`. -/
def hashSlice (A : Arch) (slice : List UInt8) : Nat :=
  hashBytes A (slice.map UInt8.toNat)

/-- `as_bytes()` of an ASCII string. -/
def asBytes (s : String) : List UInt8 :=
  s.toList.map fun c => UInt8.ofNat c.toNat

/-! ## The map -/

structure HashMap (K V : Type) (N : Nat) where
  map : Nat → Option (K × V)

namespace HashMap

variable {K V : Type} {N : Nat}

def makeProbeIndex (h i m : Nat) : Nat :=
  (h + i * i) % m

/-- The indices that are probed for the hash `h`, in order. -/
def probes (N h : Nat) : List Nat :=
  (List.range N).map fun i => makeProbeIndex h i N

def new : HashMap K V N :=
  ⟨fun _ => none⟩

def clear (m : HashMap K V N) : HashMap K V N :=
  ⟨fun idx => if idx < N then none else m.map idx⟩

variable [DecidableEq K]

/-- The loop of `insert` over the indices that are left. -/
def insertAt (key : K) (value : V) (m : HashMap K V N) : List Nat → Bool × HashMap K V N
  | [] => (false, m)
  | idx :: rest =>
      match m.map idx with
      | some p =>
          if p.1 = key then (true, ⟨Function.update m.map idx (some (p.1, value))⟩)
          else insertAt key value m rest
      | none => (true, ⟨Function.update m.map idx (some (key, value))⟩)

def insert (hash : K → Nat) (key : K) (value : V) (m : HashMap K V N) : Bool × HashMap K V N :=
  insertAt key value m (probes N (hash key))

/-- The loop of `find` over the indices that are left. -/
def findAt (key : K) (m : HashMap K V N) : List Nat → Option V
  | [] => none
  | idx :: rest =>
      match m.map idx with
      | some p => if p.1 = key then some p.2 else findAt key m rest
      | none => findAt key m rest

def find (hash : K → Nat) (key : K) (m : HashMap K V N) : Option V :=
  findAt key m (probes N (hash key))

/-- The loop of `erase` over the indices that are left. -/
def eraseAt (key : K) (m : HashMap K V N) : List Nat → Bool × HashMap K V N
  | [] => (false, m)
  | idx :: rest =>
      match m.map idx with
      | some p =>
          if p.1 = key then (true, ⟨Function.update m.map idx none⟩)
          else eraseAt key m rest
      | none => eraseAt key m rest

def erase (hash : K → Nat) (key : K) (m : HashMap K V N) : Bool × HashMap K V N :=
  eraseAt key m (probes N (hash key))

/-- The map with the pairs of a list inserted in order. -/
def insertAll (hash : K → Nat) (pairs : List (K × V)) : HashMap K V N :=
  pairs.foldl (fun m p => (insert hash p.1 p.2 m).2) new

/-- The sum that `make_probe_index` computes does not overflow a `u64`. -/
theorem probe_lt {h i : Nat} (hN : N < 2 ^ 31) (hh : h < 2 ^ 32) (hi : i < N) : h + i * i < 2 ^ 64 := by
  have hsq : i * i < 2 ^ 31 * 2 ^ 31 := Nat.mul_lt_mul'' (hi.trans hN) (hi.trans hN)
  omega

/-! ## Single calls -/

section Calls

variable {key key' : K} {value : V} {m m' : HashMap K V N} {idxs : List Nat} {idx : Nat}

/-- The slot holds the key. -/
def Holds (m : HashMap K V N) (key : K) (idx : Nat) : Prop :=
  ∃ value, m.map idx = some (key, value)

/-- The slot holds another key. -/
def Taken (m : HashMap K V N) (key : K) (idx : Nat) : Prop :=
  ∃ p, m.map idx = some p ∧ p.1 ≠ key

omit [DecidableEq K] in
theorem Taken.not_holds (h : m.Taken key idx) : ¬ m.Holds key idx := by
  rcases h with ⟨p, hp, hne⟩
  rintro ⟨value, hidx⟩
  obtain rfl := Option.some.inj (hp.symm.trans hidx)
  exact hne rfl

/-- `insert` fails if all slots hold other keys.  Otherwise it writes to the first one that does not. -/
theorem insertAt_cases (key : K) (value : V) (m : HashMap K V N) (idxs : List Nat) :
    insertAt key value m idxs = (false, m) ∧ (∀ idx ∈ idxs, m.Taken key idx) ∨
      ∃ pre idx post, idxs = pre ++ idx :: post ∧ (∀ i ∈ pre, m.Taken key i) ∧ ¬ m.Taken key idx ∧
        insertAt key value m idxs = (true, ⟨Function.update m.map idx (some (key, value))⟩) := by
  induction idxs with
  | nil => exact Or.inl ⟨rfl, fun _ hidx => absurd hidx List.not_mem_nil⟩
  | cons i rest ih =>
      rw [insertAt]
      split
      next p hp =>
        split
        -- The slot has the key: its value is replaced, and the search stops as at a free slot.
        next hkey =>
          subst hkey
          refine Or.inr ⟨[], i, rest, rfl, fun _ hi => absurd hi List.not_mem_nil, ?_, rfl⟩
          rintro ⟨q, hq, hne⟩
          exact hne (congrArg Prod.fst (Option.some.inj (hq.symm.trans hp)))
        next hkey =>
          have hi : m.Taken key i := ⟨p, hp, hkey⟩
          rcases ih with ⟨hrun, hrest⟩ | ⟨pre, idx, post, rfl, hpre, hidx, hrun⟩
          · exact Or.inl ⟨hrun, List.forall_mem_cons.2 ⟨hi, hrest⟩⟩
          · exact Or.inr ⟨i :: pre, idx, post, rfl, List.forall_mem_cons.2 ⟨hi, hpre⟩, hidx, hrun⟩
      next hnone =>
        refine Or.inr ⟨[], i, rest, rfl, fun _ hi => absurd hi List.not_mem_nil, ?_, rfl⟩
        rintro ⟨q, hq, -⟩
        exact absurd (hnone.symm.trans hq) (by simp)

theorem findAt_cons_holds (h : m.map idx = some (key, value)) : findAt key m (idx :: idxs) = some value := by
  simp only [findAt, h, if_true]

theorem findAt_cons_not_holds (h : ¬ m.Holds key idx) : findAt key m (idx :: idxs) = findAt key m idxs := by
  rw [findAt]
  split
  next p hp =>
    refine if_neg ?_
    rintro rfl
    exact h ⟨p.2, hp⟩
  next => rfl

theorem eraseAt_cons_not_holds (h : ¬ m.Holds key idx) : eraseAt key m (idx :: idxs) = eraseAt key m idxs := by
  rw [eraseAt]
  split
  next p hp =>
    refine if_neg ?_
    rintro rfl
    exact h ⟨p.2, hp⟩
  next => rfl

theorem findAt_eq_none_iff : findAt key m idxs = none ↔ ∀ idx ∈ idxs, ¬ m.Holds key idx := by
  induction idxs with
  | nil => exact iff_of_true rfl fun _ hidx => absurd hidx List.not_mem_nil
  | cons i rest ih =>
      rw [List.forall_mem_cons]
      by_cases hi : m.Holds key i
      · rcases hi with ⟨value, hv⟩
        rw [findAt_cons_holds hv]
        exact iff_of_false (by simp) fun hall => hall.1 ⟨value, hv⟩
      · rw [findAt_cons_not_holds hi, ih]
        exact (and_iff_right hi).symm

/-- `erase` empties the first slot that holds the key. -/
theorem eraseAt_cases (key : K) (m : HashMap K V N) (idxs : List Nat) :
    eraseAt key m idxs = (false, m) ∧ (∀ idx ∈ idxs, ¬ m.Holds key idx) ∨
      ∃ idx ∈ idxs, m.Holds key idx ∧ eraseAt key m idxs = (true, ⟨Function.update m.map idx none⟩) := by
  induction idxs with
  | nil => exact Or.inl ⟨rfl, fun _ hidx => absurd hidx List.not_mem_nil⟩
  | cons i rest ih =>
      by_cases hi : m.Holds key i
      · refine Or.inr ⟨i, List.mem_cons_self, hi, ?_⟩
        rcases hi with ⟨value, hv⟩
        simp only [eraseAt, hv, if_true]
      · rw [eraseAt_cons_not_holds hi]
        rcases ih with ⟨hrun, hrest⟩ | ⟨idx, hidx, hold, hrun⟩
        · exact Or.inl ⟨hrun, List.forall_mem_cons.2 ⟨hi, hrest⟩⟩
        · exact Or.inr ⟨idx, List.mem_cons_of_mem _ hidx, hold, hrun⟩

/-- What `find` returns depends only on the slots that hold the key. -/
theorem findAt_congr (h : ∀ idx value, m.map idx = some (key, value) ↔ m'.map idx = some (key, value)) :
    findAt key m idxs = findAt key m' idxs := by
  induction idxs with
  | nil => rfl
  | cons i rest ih =>
      by_cases hold : m.Holds key i
      · rcases hold with ⟨value, hv⟩
        rw [findAt_cons_holds hv, findAt_cons_holds ((h i value).1 hv)]
      · have hold' : ¬ m'.Holds key i := fun ⟨value, hv⟩ => hold ⟨value, (h i value).2 hv⟩
        rw [findAt_cons_not_holds hold, findAt_cons_not_holds hold', ih]

/-- A slot that does not hold the key is written without it. -/
theorem findAt_update {p : Option (K × V)} (hidx : ¬ m.Holds key idx) (hp : ∀ value, p ≠ some (key, value)) :
    findAt key (⟨Function.update m.map idx p⟩ : HashMap K V N) idxs = findAt key m idxs := by
  refine findAt_congr fun i value => ?_
  by_cases hi : i = idx
  · subst hi
    simp only [Function.update_self]
    exact iff_of_false (hp value) fun hv => hidx ⟨value, hv⟩
  · simp only [Function.update_of_ne hi]

/-- The first slot that is not taken by another key is the first one that holds the key then. -/
theorem findAt_insert {pre post : List Nat} (hpre : ∀ i ∈ pre, m.Taken key i) (hidx : ¬ m.Taken key idx) :
    findAt key (⟨Function.update m.map idx (some (key, value))⟩ : HashMap K V N) (pre ++ idx :: post) =
      some value := by
  induction pre with
  | nil => exact findAt_cons_holds (Function.update_self _ _ _)
  | cons i pre ih =>
      rcases List.forall_mem_cons.1 hpre with ⟨hi, hrest⟩
      have hne : i ≠ idx := by
        rintro rfl
        exact hidx hi
      have hnot : ¬ Holds (⟨Function.update m.map idx (some (key, value))⟩ : HashMap K V N) key i := by
        rintro ⟨v, hv⟩
        simp only [Function.update_of_ne hne] at hv
        exact hi.not_holds ⟨v, hv⟩
      rw [List.cons_append, findAt_cons_not_holds hnot, ih hrest]

end Calls

/-! ## The map as a function -/

section Maps

variable {hash : K → Nat} {key key' : K} {value : V} {m : HashMap K V N}

/-- Every key is in a slot that is probed for it. -/
def Placed (hash : K → Nat) (m : HashMap K V N) : Prop :=
  ∀ idx p, m.map idx = some p → idx ∈ probes N (hash p.1)

omit [DecidableEq K] in
theorem placed_new : Placed hash (new : HashMap K V N) :=
  fun _ _ hp => nomatch hp

omit [DecidableEq K] in
theorem Placed.holds (h : Placed hash m) {idx : Nat} (hidx : m.Holds key idx) : idx ∈ probes N (hash key) := by
  rcases hidx with ⟨value, hv⟩
  exact h idx _ hv

/-- `insert` succeeds if some slot of the key is not taken by another key. -/
theorem insert_eq_true_iff : (insert hash key value m).1 = true ↔ ∃ idx ∈ probes N (hash key), ¬ m.Taken key idx := by
  rw [insert]
  rcases insertAt_cases key value m (probes N (hash key)) with ⟨hrun, hall⟩ | ⟨pre, idx, post, heq, -, hidx, hrun⟩
  · rw [hrun]
    exact iff_of_false (by simp) fun ⟨idx, hidx, hnot⟩ => hnot (hall idx hidx)
  · rw [hrun]
    exact iff_of_true rfl ⟨idx, heq ▸ List.mem_append_right _ List.mem_cons_self, hidx⟩

theorem insert_eq_false (h : (insert hash key value m).1 = false) : (insert hash key value m).2 = m := by
  rw [insert] at h ⊢
  rcases insertAt_cases key value m (probes N (hash key)) with ⟨hrun, -⟩ | ⟨_, _, _, -, -, -, hrun⟩
  · rw [hrun]
  · rw [hrun] at h
    cases h

/-- An insertion changes one slot, if any. -/
theorem insert_cases (hash : K → Nat) (key : K) (value : V) (m : HashMap K V N) :
    insert hash key value m = (false, m) ∨
      ∃ idx ∈ probes N (hash key), ¬ m.Taken key idx ∧
        insert hash key value m = (true, ⟨Function.update m.map idx (some (key, value))⟩) := by
  rcases insertAt_cases key value m (probes N (hash key)) with ⟨hrun, -⟩ | ⟨pre, idx, post, heq, -, hidx, hrun⟩
  · exact Or.inl hrun
  · exact Or.inr ⟨idx, heq ▸ List.mem_append_right _ List.mem_cons_self, hidx, hrun⟩

theorem Placed.insert (h : Placed hash m) (key : K) (value : V) : Placed hash (insert hash key value m).2 := by
  rcases insert_cases hash key value m with hrun | ⟨idx, hidx, -, hrun⟩
  · rwa [hrun]
  · rw [hrun]
    intro i p hp
    by_cases hi : i = idx
    · subst hi
      obtain rfl := Option.some.inj ((Function.update_self i _ m.map).symm.trans hp)
      exact hidx
    · exact h i p ((Function.update_of_ne hi _ m.map).symm.trans hp)

theorem find_insert (h : (insert hash key value m).1 = true) :
    find hash key (insert hash key value m).2 = some value := by
  rw [HashMap.insert] at h ⊢
  rcases insertAt_cases key value m (probes N (hash key)) with ⟨hrun, -⟩ | ⟨pre, idx, post, heq, hpre, hidx, hrun⟩
  · rw [hrun] at h
    cases h
  · rw [hrun, find, heq]
    exact findAt_insert hpre hidx

/-- A key that could not be inserted is not found. -/
theorem find_insert_eq_none (h : (insert hash key value m).1 = false) :
    find hash key (insert hash key value m).2 = none := by
  rw [insert_eq_false h, find, findAt_eq_none_iff]
  intro idx hidx
  have hall : ¬ ∃ idx ∈ probes N (hash key), ¬ m.Taken key idx := by
    rw [← insert_eq_true_iff, h]
    exact Bool.false_ne_true
  exact (not_not.1 fun hnot => hall ⟨idx, hidx, hnot⟩).not_holds

/-- What is found of an inserted key is its new value. -/
theorem eq_of_find_insert {v : V} (h : find hash key (insert hash key value m).2 = some v) : v = value := by
  match hins : (insert hash key value m).1 with
  | true => exact (Option.some.inj ((find_insert hins).symm.trans h)).symm
  | false => exact absurd ((find_insert_eq_none hins).symm.trans h) (by simp)

theorem find_insert_of_ne (hne : key' ≠ key) (value : V) :
    find hash key' (insert hash key value m).2 = find hash key' m := by
  rcases insert_cases hash key value m with hrun | ⟨idx, hidx, hfree, hrun⟩
  · rw [hrun]
  · rw [hrun, find, find]
    refine findAt_update ?_ ?_
    · rintro ⟨v, hv⟩
      exact hfree ⟨_, hv, hne⟩
    · intro v heq
      exact hne (congrArg Prod.fst (Option.some.inj heq)).symm

/-- Only slots behind the key are free among those that are probed for it; if it is in none, then there are no
free slots.  So the key takes no free slot when it is inserted again. -/
def Settled (hash : K → Nat) (m : HashMap K V N) (key : K) : Prop :=
  ∀ pre idx post, probes N (hash key) = pre ++ idx :: post → m.map idx = none → ∃ i ∈ pre, m.Holds key i

/-- A settled key is in the map, or an insertion fails. -/
theorem insert_settled (h : Settled hash m key) (value : V) :
    insert hash key value m = (false, m) ∨
      ∃ idx ∈ probes N (hash key), m.Holds key idx ∧
        insert hash key value m = (true, ⟨Function.update m.map idx (some (key, value))⟩) := by
  rcases insertAt_cases key value m (probes N (hash key)) with ⟨hrun, -⟩ | ⟨pre, idx, post, heq, hpre, hidx, hrun⟩
  · exact Or.inl hrun
  · refine Or.inr ⟨idx, heq ▸ List.mem_append_right _ List.mem_cons_self, ?_, hrun⟩
    match hp : m.map idx with
    | none =>
        rcases h pre idx post heq hp with ⟨i, hi, hold⟩
        exact absurd hold (hpre i hi).not_holds
    | some p =>
        by_contra hnot
        refine hidx ⟨p, hp, ?_⟩
        rintro rfl
        exact hnot ⟨p.2, hp⟩

/-- A slot that is free after an insertion was free before it. -/
theorem insert_free {idx : Nat} (h : (insert hash key value m).2.map idx = none) : m.map idx = none := by
  rcases insert_cases hash key value m with hrun | ⟨i, -, -, hrun⟩
  · rwa [hrun] at h
  · rw [hrun] at h
    by_cases hi : idx = i
    · subst hi
      exact absurd ((Function.update_self idx _ m.map).symm.trans h) (by simp)
    · exact (Function.update_of_ne hi _ m.map).symm.trans h

/-- An inserted key is settled. -/
theorem settled_insert (hash : K → Nat) (key : K) (value : V) (m : HashMap K V N) :
    Settled hash (insert hash key value m).2 key := by
  intro pre idx post heq hfree
  have hold := insert_free hfree
  rw [HashMap.insert] at hfree ⊢
  rcases insertAt_cases key value m (probes N (hash key)) with ⟨-, hall⟩ | ⟨pre', i, post', heq', hpre', -, hrun⟩
  · rcases hall idx (heq ▸ List.mem_append_right _ List.mem_cons_self) with ⟨p, hp, -⟩
    exact absurd (hold.symm.trans hp) (by simp)
  · rw [hrun] at hfree ⊢
    -- The slot that was written stands before the free one.
    have hi : i ∈ pre := by
      rcases List.append_eq_append_iff.1 (heq'.symm.trans heq) with ⟨as, rfl, hcons⟩ | ⟨bs, rfl, hcons⟩
      · cases as with
        | nil =>
            obtain rfl := (List.cons.inj hcons).1
            exact absurd ((Function.update_self i _ m.map).symm.trans hfree) (by simp)
        | cons a as =>
            obtain rfl := (List.cons.inj hcons).1
            exact List.mem_append_right _ List.mem_cons_self
      · cases bs with
        | nil =>
            obtain rfl := (List.cons.inj hcons).1
            exact absurd ((Function.update_self idx _ m.map).symm.trans hfree) (by simp)
        | cons b bs =>
            obtain rfl := (List.cons.inj hcons).1
            rcases hpre' idx (List.mem_append_right _ List.mem_cons_self) with ⟨p, hp, -⟩
            exact absurd (hold.symm.trans hp) (by simp)
    exact ⟨i, hi, value, Function.update_self _ _ _⟩

/-- Other keys stay where they are. -/
theorem Settled.insert_of_ne (h : Settled hash m key') (hne : key' ≠ key) (value : V) :
    Settled hash (insert hash key value m).2 key' := by
  intro pre idx post heq hfree
  rcases h pre idx post heq (insert_free hfree) with ⟨i, hi, v, hv⟩
  refine ⟨i, hi, v, ?_⟩
  rcases insert_cases hash key value m with hrun | ⟨j, -, hj, hrun⟩
  · rwa [hrun]
  · rw [hrun]
    have hij : i ≠ j := by
      rintro rfl
      exact hj ⟨_, hv, hne⟩
    exact (Function.update_of_ne hij _ m.map).trans hv

/-- `erase` succeeds exactly if `find` does. -/
theorem erase_eq_true_iff : (erase hash key m).1 = true ↔ (find hash key m).isSome := by
  rw [← Option.not_isNone, Bool.not_eq_true', ← Bool.not_eq_true, Option.isNone_iff_eq_none, find,
    findAt_eq_none_iff, erase]
  rcases eraseAt_cases key m (probes N (hash key)) with ⟨hrun, hall⟩ | ⟨idx, hidx, hold, hrun⟩
  · rw [hrun]
    exact iff_of_false (by simp) (not_not_intro hall)
  · rw [hrun]
    exact iff_of_true rfl fun hall => hall idx hidx hold

/-- An erasure empties one slot, if any. -/
theorem erase_cases (h : Placed hash m) (key : K) :
    erase hash key m = (false, m) ∧ (∀ idx, ¬ m.Holds key idx) ∨
      ∃ idx, m.Holds key idx ∧ erase hash key m = (true, ⟨Function.update m.map idx none⟩) := by
  rcases eraseAt_cases key m (probes N (hash key)) with ⟨hrun, hall⟩ | ⟨idx, -, hold, hrun⟩
  · exact Or.inl ⟨hrun, fun idx hidx => hall idx (h.holds hidx) hidx⟩
  · exact Or.inr ⟨idx, hold, hrun⟩

theorem Placed.erase (h : Placed hash m) (key : K) : Placed hash (erase hash key m).2 := by
  rcases erase_cases h key with ⟨hrun, -⟩ | ⟨idx, -, hrun⟩
  · rwa [hrun]
  · rw [hrun]
    intro i p hp
    by_cases hi : i = idx
    · subst hi
      exact absurd ((Function.update_self i _ m.map).symm.trans hp) (by simp)
    · exact h i p ((Function.update_of_ne hi _ m.map).symm.trans hp)

theorem find_erase_of_ne (h : Placed hash m) (hne : key' ≠ key) :
    find hash key' (erase hash key m).2 = find hash key' m := by
  rcases erase_cases h key with ⟨hrun, -⟩ | ⟨idx, ⟨value, hv⟩, hrun⟩
  · rw [hrun]
  · rw [hrun, find, find]
    refine findAt_update ?_ fun v heq => nomatch heq
    rintro ⟨v, hv'⟩
    exact hne (congrArg Prod.fst (Option.some.inj (hv'.symm.trans hv)))

/-- The key is in one slot at most. -/
def Single (m : HashMap K V N) (key : K) : Prop :=
  ∀ idx idx', m.Holds key idx → m.Holds key idx' → idx = idx'

/-- An erased key is found no more exactly if it was in one slot at most. -/
theorem find_erase_eq_none_iff (h : Placed hash m) :
    find hash key (erase hash key m).2 = none ↔ m.Single key := by
  have hplaced := h.erase key
  rw [find, findAt_eq_none_iff]
  rcases erase_cases h key with ⟨hrun, hnone⟩ | ⟨idx, hold, hrun⟩
  · rw [hrun]
    exact iff_of_true (fun idx _ => hnone idx) fun idx _ hidx => absurd hidx (hnone idx)
  · rw [hrun] at hplaced ⊢
    have hother : ∀ i, i ≠ idx →
        (Holds (⟨Function.update m.map idx none⟩ : HashMap K V N) key i ↔ m.Holds key i) := by
      intro i hi
      simp only [Holds, Function.update_of_ne hi]
    constructor
    · intro hall
      -- Every slot that holds the key is the one that was emptied.
      have hidx : ∀ i, m.Holds key i → i = idx := by
        intro i hi
        by_contra hne
        have hstill := (hother i hne).2 hi
        exact hall i (hplaced.holds hstill) hstill
      intro i j hi hj
      rw [hidx i hi, hidx j hj]
    · intro hsingle i _ hi
      by_cases hne : i = idx
      · subst hne
        rcases hi with ⟨v, hv⟩
        simp only [Function.update_self] at hv
        cases hv
      · exact hne (hsingle i idx ((hother i hne).1 hi) hold)

omit [DecidableEq K] in
/-- A placed map has its pairs below `N`. -/
theorem placed_clear (h : Placed hash m) : (clear m).map = fun _ => none := by
  funext idx
  simp only [clear]
  split
  next => rfl
  next hN =>
    match hp : m.map idx with
    | none => rfl
    | some p =>
        rcases List.mem_map.1 (h idx p hp) with ⟨i, hi, rfl⟩
        exact absurd (Nat.mod_lt _ (Nat.zero_lt_of_lt (List.mem_range.1 hi))) hN

end Maps

/-! ## Sequences of calls -/

inductive Call (K V : Type)
  | insert (key : K) (value : V)
  | find (key : K)
  | erase (key : K)
  | clear

def Call.apply (hash : K → Nat) (m : HashMap K V N) : Call K V → HashMap K V N
  | .insert key value => (m.insert hash key value).2
  | .find _ => m
  | .erase key => (m.erase hash key).2
  | .clear => m.clear

/-- The finite map after a call: only an insertion or an erasure that returned true counts. -/
def Call.record (hash : K → Nat) (m : HashMap K V N) (latest : K → Option V) : Call K V → K → Option V
  | .insert key value =>
      if (m.insert hash key value).1 then Function.update latest key (some value) else latest
  | .find _ => latest
  | .erase key => if (m.erase hash key).1 then Function.update latest key none else latest
  | .clear => fun _ => none

/-- A hash map and the finite map that its calls describe. -/
structure Recorded (K V : Type) (N : Nat) where
  map : HashMap K V N
  latest : K → Option V

def runCalls (hash : K → Nat) (calls : List (Call K V)) : Recorded K V N :=
  calls.foldl (fun s call => ⟨call.apply hash s.map, call.record hash s.map s.latest⟩) ⟨new, fun _ => none⟩

/-- `find` returns what the finite map has, and `erase` succeeds exactly if `find` does. -/
structure Agrees (hash : K → Nat) (s : Recorded K V N) : Prop where
  find : ∀ key, s.map.find hash key = s.latest key
  erase : ∀ key, (s.map.erase hash key).1 = true ↔ (s.map.find hash key).isSome

section Runs

variable {hash : K → Nat} {m : HashMap K V N} {calls : List (Call K V)}

theorem Placed.apply (h : Placed hash m) (call : Call K V) : Placed hash (call.apply hash m) := by
  cases call with
  | insert key value => exact h.insert key value
  | find key => exact h
  | erase key => exact h.erase key
  | clear =>
      intro idx p hp
      rw [Call.apply, placed_clear h] at hp
      cases hp

theorem runCalls_concat (call : Call K V) :
    (runCalls hash (calls ++ [call]) : Recorded K V N) =
      ⟨call.apply hash (runCalls hash calls : Recorded K V N).map,
        call.record hash (runCalls hash calls : Recorded K V N).map (runCalls hash calls : Recorded K V N).latest⟩ := by
  rw [runCalls, List.foldl_append]
  rfl

theorem placed_runCalls (hash : K → Nat) (calls : List (Call K V)) :
    Placed hash (runCalls hash calls : Recorded K V N).map := by
  induction calls using List.reverseRecOn with
  | nil => exact placed_new
  | append_singleton calls call ih =>
      rw [runCalls_concat]
      exact ih.apply call

/-- One more call keeps the map and the finite map together exactly if it erases no key that is in two
slots. -/
theorem find_apply_iff (h : Placed hash m) {latest : K → Option V} (hfind : ∀ key, m.find hash key = latest key)
    (call : Call K V) :
    (∀ key, (call.apply hash m).find hash key = call.record hash m latest key) ↔
      ∀ key, call = .erase key → m.Single key := by
  cases call with
  | insert key value =>
      refine iff_of_true ?_ fun _ heq => nomatch heq
      intro key'
      by_cases hins : (m.insert hash key value).1 = true
      · rw [Call.apply, Call.record, if_pos hins]
        by_cases hkey : key' = key
        · subst hkey
          rw [find_insert hins, Function.update_self]
        · rw [find_insert_of_ne hkey, Function.update_of_ne hkey, hfind]
      · rw [Call.apply, Call.record, if_neg hins, insert_eq_false (Bool.not_eq_true _ ▸ hins), hfind]
  | find key => exact iff_of_true hfind fun _ heq => nomatch heq
  | erase key =>
      -- After an erase the record has no value for the key, whether or not there was one to erase.
      have hkey : (Call.erase key).record hash m latest key = none := by
        rw [Call.record]
        split
        next => exact Function.update_self _ _ _
        next herase =>
          rw [erase_eq_true_iff, Option.not_isSome_iff_eq_none, hfind] at herase
          exact herase
      -- The other keys are found as before, so only a second copy of the key can be in the way.
      have hother : ∀ key', key' ≠ key →
          ((Call.erase key).apply hash m).find hash key' = (Call.erase key).record hash m latest key' := by
        intro key' hne
        rw [Call.apply, find_erase_of_ne h hne, hfind, Call.record]
        split
        next => rw [Function.update_of_ne hne]
        next => rfl
      constructor
      · rintro hall _ ⟨⟩
        rw [← find_erase_eq_none_iff h]
        exact (hall key).trans hkey
      · intro hsingle key'
        by_cases hne : key' = key
        · subst hne
          exact ((find_erase_eq_none_iff h).2 (hsingle key' rfl)).trans hkey.symm
        · exact hother key' hne
  | clear =>
      refine iff_of_true ?_ fun _ heq => nomatch heq
      intro key
      rw [Call.apply, Call.record, find, findAt_eq_none_iff]
      rintro idx - ⟨value, hv⟩
      rw [placed_clear h] at hv
      cases hv

/-- In all states of a run the hash map is the finite map that its calls describe, exactly if no key is
erased while it is in two slots. -/
theorem runCalls_agrees_iff (hash : K → Nat) (calls : List (Call K V)) :
    (∀ before, before <+: calls → Agrees hash (runCalls hash before : Recorded K V N)) ↔
      ∀ before key, before ++ [.erase key] <+: calls → (runCalls hash before : Recorded K V N).map.Single key := by
  induction calls using List.reverseRecOn with
  | nil =>
      refine iff_of_true ?_ ?_
      · intro before hbefore
        rw [List.prefix_nil.1 hbefore]
        refine ⟨?_, fun _ => erase_eq_true_iff⟩
        intro key
        exact findAt_eq_none_iff.2 fun _ _ ⟨_, hv⟩ => nomatch hv
      · intro before key hbefore
        exact absurd (List.prefix_nil.1 hbefore) (by simp)
  | append_singleton calls call ih =>
      -- What is said about the calls before, and about the last one.
      have hagrees : (∀ before, before <+: calls ++ [call] → Agrees hash (runCalls hash before : Recorded K V N)) ↔
          (∀ before, before <+: calls → Agrees hash (runCalls hash before : Recorded K V N)) ∧
            Agrees hash (runCalls hash (calls ++ [call]) : Recorded K V N) := by
        simp only [List.prefix_concat_iff, or_imp, forall_and, forall_eq]
        exact and_comm
      have hsingle : (∀ before key, before ++ [Call.erase key] <+: calls ++ [call] →
            (runCalls hash before : Recorded K V N).map.Single key) ↔
          (∀ before key, before ++ [Call.erase key] <+: calls →
            (runCalls hash before : Recorded K V N).map.Single key) ∧
          ∀ key, call = .erase key → (runCalls hash calls : Recorded K V N).map.Single key := by
        constructor
        · intro hall
          refine ⟨fun before key hbefore => hall before key (hbefore.trans (List.prefix_append _ _)), ?_⟩
          rintro key rfl
          exact hall calls key List.prefix_rfl
        · rintro ⟨hbefores, hlast⟩ before key hbefore
          rcases List.prefix_concat_iff.1 hbefore with heq | hbefore
          · rcases List.append_inj' heq rfl with ⟨rfl, hcall⟩
            exact hlast key (List.singleton_inj.1 hcall).symm
          · exact hbefores before key hbefore
      rw [hagrees, hsingle, ih]
      refine and_congr_right fun hcalls => ?_
      have hfind := (ih.2 hcalls calls List.prefix_rfl).find
      rw [runCalls_concat, ← find_apply_iff (placed_runCalls hash calls) hfind call]
      exact ⟨fun h => h.find, fun h => ⟨h, fun _ => erase_eq_true_iff⟩⟩

end Runs

/-- The keys 5 and 58 collide.  The second one is inserted again after the first one was erased. -/
def reinsertedCalls : List (Call Nat Nat) :=
  [.insert 5 0, .insert 58 1, .erase 5, .insert 58 2, .erase 58]

/-- The map of the core identifiers finds a key that was erased. -/
theorem runCalls_finds_erased :
    (runCalls (hashWord .aarch64) reinsertedCalls : Recorded Nat Nat 389).map.find (hashWord .aarch64) 58 = some 1 ∧
      (runCalls (hashWord .aarch64) reinsertedCalls : Recorded Nat Nat 389).latest 58 = none ∧
      ¬ ∀ before, before <+: reinsertedCalls →
        Agrees (hashWord .aarch64) (runCalls (hashWord .aarch64) before : Recorded Nat Nat 389) := by
  have hfind : (runCalls (hashWord .aarch64) reinsertedCalls : Recorded Nat Nat 389).map.find
      (hashWord .aarch64) 58 = some 1 := by
    decide +kernel
  have hlatest : (runCalls (hashWord .aarch64) reinsertedCalls : Recorded Nat Nat 389).latest 58 = none := by
    decide +kernel
  refine ⟨hfind, hlatest, ?_⟩
  intro hall
  have hagrees := (hall reinsertedCalls List.prefix_rfl).find 58
  rw [hfind, hlatest] at hagrees
  cases hagrees

/-! ## What can be found -/

theorem findAt_eq_none {key : K} {m : HashMap K V N} {idxs : List Nat}
    (h : ∀ idx p, m.map idx = some p → p.1 ≠ key) : findAt key m idxs = none := by
  induction idxs with
  | nil => rfl
  | cons idx rest ih =>
      rw [findAt]
      split
      · rename_i p hp
        rw [if_neg (h idx p hp), ih]
      · exact ih

/-- Only the key of an insertion gets into the map. -/
theorem insertAt_keys {key : K} {value : V} {m : HashMap K V N} {idxs : List Nat} {idx : Nat}
    {p : K × V} (h : (insertAt key value m idxs).2.map idx = some p) :
    p.1 = key ∨ ∃ q, m.map idx = some q ∧ q.1 = p.1 := by
  induction idxs with
  | nil => exact Or.inr ⟨p, h, rfl⟩
  | cons i rest ih =>
      rw [insertAt] at h
      split at h
      · rename_i q hq
        split at h
        · rename_i hkey
          by_cases hi : idx = i
          · subst hi
            simp only [Function.update_self, Option.some.injEq] at h
            left
            rw [← h, hkey]
          · simp only [Function.update_of_ne hi] at h
            exact Or.inr ⟨p, h, rfl⟩
        · exact ih h
      · by_cases hi : idx = i
        · subst hi
          simp only [Function.update_self, Option.some.injEq] at h
          left
          rw [← h]
        · simp only [Function.update_of_ne hi] at h
          exact Or.inr ⟨p, h, rfl⟩

theorem insertAll_keys {hash : K → Nat} {pairs : List (K × V)} {idx : Nat} {p : K × V}
    (h : (insertAll hash pairs : HashMap K V N).map idx = some p) : p.1 ∈ pairs.map Prod.fst := by
  have hgen : ∀ (m : HashMap K V N) (pairs : List (K × V)) (p : K × V),
      (pairs.foldl (fun m p => (insert hash p.1 p.2 m).2) m).map idx = some p →
        p.1 ∈ pairs.map Prod.fst ∨ ∃ q, m.map idx = some q ∧ q.1 = p.1 := by
    intro m pairs
    induction pairs generalizing m with
    | nil =>
        intro p hp
        exact Or.inr ⟨p, hp, rfl⟩
    | cons r rest ih =>
        intro p hp
        rcases ih _ p hp with hmem | ⟨q, hq, hqp⟩
        · exact Or.inl (List.mem_cons_of_mem _ hmem)
        · rcases insertAt_keys hq with hkey | ⟨q', hq', hqq⟩
          · left
            rw [← hqp, hkey]
            exact List.mem_cons_self
          · exact Or.inr ⟨q', hq', hqq.trans hqp⟩
  rcases hgen _ _ _ h with hmem | ⟨q, hq, -⟩
  · exact hmem
  · cases hq

/-- A key that was not inserted is not found. -/
theorem find_insertAll_of_notMem {hash : K → Nat} {pairs : List (K × V)} {key : K}
    (h : key ∉ pairs.map Prod.fst) : find hash key (insertAll hash pairs : HashMap K V N) = none := by
  refine findAt_eq_none fun idx p hp heq => ?_
  exact h (heq ▸ insertAll_keys hp)

end HashMap
end Propeller
