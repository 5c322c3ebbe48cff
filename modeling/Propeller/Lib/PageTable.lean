import Mathlib.Data.Set.Lattice
import Mathlib.Order.CompletePartialOrder
import Mathlib.Logic.Function.Basic
import Mathlib.Tactic.Ring

/-!
# PageTable — radix tables and the walk of the hardware

A memory management unit translates an address by walking tables: at each height one entry is chosen by
some bits of the address, and the entry is invalid, maps a block, or points to a table of the next height
down.  This file has the walk, and what an edit of one entry does to it when the tables that are reached
on different paths are different tables.

* `Mmu.leaf` / `Mmu.walk` — the block an address is in, and the translation of the address;
* `Mmu.Separate` — the tables below a table lie in a set and no table is reached on two paths;
* `Mmu.Separate.set` / `Mmu.Below.setTable` — the two edits of an entry.
-/

namespace Propeller

/-- What an entry of a table says. -/
inductive Slot
  | invalid
  | block (addr : Nat)
  | table (addr : Nat)
  deriving DecidableEq, Repr

/-- What one entry of a table covers, by the height of the table: 4 KiB, 2 MiB, 1 GiB, 512 GiB. -/
def span (h : Nat) : Nat :=
  2 ^ (12 + 9 * h)

theorem span_succ (h : Nat) : span (h + 1) = span h * 512 := by
  rw [span, span]
  ring

theorem span_pos (h : Nat) : 0 < span h :=
  Nat.two_pow_pos _

theorem span_dvd_span {i j : Nat} (h : i ≤ j) : span i ∣ span j :=
  Nat.pow_dvd_pow 2 (by omega)

theorem span_le_span {i j : Nat} (h : i ≤ j) : span i ≤ span j :=
  Nat.le_of_dvd (span_pos j) (span_dvd_span h)

/-- The memory of the tables: the entries of each table. -/
abbrev Tables (D : Type) : Type := Nat → Nat → D

namespace Tables

variable {D : Type} {mem : Tables D} {t i j : Nat} {d : D}

def set (mem : Tables D) (t i : Nat) (d : D) : Tables D :=
  Function.update mem t (Function.update (mem t) i d)

@[simp] theorem set_self : mem.set t i d t i = d := by
  simp [set]

theorem set_of_ne_table {x : Nat} (hx : x ≠ t) : mem.set t i d x = mem x := by
  simp [set, hx]

theorem set_of_ne_entry (hj : j ≠ i) : mem.set t i d t j = mem t j := by
  simp [set, hj]

end Tables

/-- How the hardware reads tables: the number of entries of a table by its height, how far apart entries
are, and what an entry says. -/
structure Mmu (D : Type) where
  entries : Nat → Nat
  stride : Nat
  decode : Nat → D → Slot

namespace Mmu

variable {D : Type} (M : Mmu D)

def index (h v : Nat) : Nat :=
  v / span h % M.entries h * M.stride

/-- The block that the walk of an address ends at, and the height of the table it is found in. -/
def leaf (mem : Tables D) : Nat → Nat → Nat → Option (Nat × Nat)
  | 0, t, v =>
      match M.decode 0 (mem t (M.index 0 v)) with
      | .block addr => some (0, addr)
      | _ => none
  | h + 1, t, v =>
      match M.decode (h + 1) (mem t (M.index (h + 1) v)) with
      | .block addr => some (h + 1, addr)
      | .table next => leaf mem h next v
      | .invalid => none

/-- The translation of an address from a table of the given height. -/
def walk (mem : Tables D) (h t v : Nat) : Option Nat :=
  (M.leaf mem h t v).map fun b => b.2 + v % span b.1

/-- The tables that are reached from a table lie in the set, and each of them on one path only. -/
def Separate (mem : Tables D) : Nat → Nat → Set Nat → Prop
  | 0, t, S => t ∈ S
  | h + 1, t, S => t ∈ S ∧ ∃ C : Nat → Set Nat,
      (∀ i, C i ⊆ S ∧ t ∉ C i) ∧ (∀ i j, i ≠ j → Disjoint (C i) (C j)) ∧
        ∀ i next, M.decode (h + 1) (mem t i) = .table next → Separate mem h next (C i)

variable {M} {mem mem' : Tables D} {h t v i : Nat} {S S' : Set Nat} {d : D}

theorem Separate.root_mem (hs : M.Separate mem h t S) : t ∈ S := by
  cases h with
  | zero => exact hs
  | succ h => exact hs.1

theorem Separate.mono (hs : M.Separate mem h t S) (hsub : S ⊆ S') : M.Separate mem h t S' := by
  cases h with
  | zero => exact hsub hs
  | succ h =>
      rcases hs with ⟨ht, C, hC, hdisj, hnext⟩
      exact ⟨hsub ht, C, fun i => ⟨(hC i).1.trans hsub, (hC i).2⟩, hdisj, hnext⟩

/-- Only the tables of the set matter. -/
theorem Separate.congr (hs : M.Separate mem h t S) (hmem : ∀ x ∈ S, mem' x = mem x) :
    M.Separate mem' h t S ∧ ∀ v, M.leaf mem' h t v = M.leaf mem h t v := by
  induction h generalizing t S with
  | zero =>
      refine ⟨hs, fun v => ?_⟩
      rw [leaf, leaf, hmem t hs]
  | succ h ih =>
      rcases hs with ⟨ht, C, hC, hdisj, hnext⟩
      have hsame := hmem t ht
      -- The tables below an entry are tables of `S`, so they are the same too.
      have hbelow := fun i next hd =>
        ih (hnext i next hd) fun x hx => hmem x ((hC i).1 hx)
      refine ⟨⟨ht, C, hC, hdisj, ?_⟩, fun v => ?_⟩
      · intro i next hd
        rw [hsame] at hd
        exact (hbelow i next hd).1
      · rw [leaf, leaf, hsame]
        cases hd : M.decode (h + 1) (mem t (M.index (h + 1) v)) with
        | invalid => rfl
        | block addr => rfl
        | table next => exact (hbelow _ next hd).2 v

theorem leaf_of_invalid (hd : M.decode h (mem t (M.index h v)) = .invalid) : M.leaf mem h t v = none := by
  cases h with
  | zero => rw [leaf, hd]
  | succ h => rw [leaf, hd]

theorem leaf_of_block {addr : Nat} (hd : M.decode h (mem t (M.index h v)) = .block addr) :
    M.leaf mem h t v = some (h, addr) := by
  cases h with
  | zero => rw [leaf, hd]
  | succ h => rw [leaf, hd]

theorem leaf_of_table {next : Nat} (hd : M.decode (h + 1) (mem t (M.index (h + 1) v)) = .table next) :
    M.leaf mem (h + 1) t v = M.leaf mem h next v := by
  rw [leaf, hd]

theorem separate_of_invalid (hd : ∀ i, M.decode h (mem t i) = .invalid) : M.Separate mem h t {t} := by
  cases h with
  | zero => exact Set.mem_singleton t
  | succ h =>
      refine ⟨Set.mem_singleton t, fun _ => ∅, fun i => ⟨Set.empty_subset _, Set.notMem_empty t⟩, ?_, ?_⟩
      · intro i j _
        exact Set.disjoint_empty _
      · intro i next hnext
        rw [hd i] at hnext
        cases hnext

/-! ## Which entry an address takes -/

/-- Of addresses that share a table, those that share an entry share what the entry covers. -/
theorem index_eq_iff {w : Nat} (hstride : 0 < M.stride)
    (hwin : v / (span h * M.entries h) = w / (span h * M.entries h)) :
    M.index h v = M.index h w ↔ v / span h = w / span h := by
  rw [← Nat.div_div_eq_div_mul, ← Nat.div_div_eq_div_mul] at hwin
  constructor
  · intro heq
    have hmod : v / span h % M.entries h = w / span h % M.entries h :=
      Nat.eq_of_mul_eq_mul_right hstride heq
    rw [← Nat.div_add_mod (v / span h) (M.entries h), hwin, hmod, Nat.div_add_mod]
  · intro heq
    rw [index, index, heq]

/-- Addresses that differ by what a table covers take the same entries from it. -/
theorem leaf_add_mul_span (hentries : ∀ j ≤ h, M.entries j = 512) (k : Nat) :
    M.leaf mem h t (v + k * span (h + 1)) = M.leaf mem h t v := by
  -- The walk reads the address through its indices, and these do not see whole spans above `h`.
  have hindex : ∀ j ≤ h, M.index j (v + k * span (h + 1)) = M.index j v := by
    intro j hj
    rcases span_dvd_span (Nat.succ_le_succ hj) with ⟨c, hc⟩
    have hsum : v + k * span (h + 1) = v + span j * (512 * (c * k)) := by
      rw [hc, span_succ]
      ring
    rw [index, index, hsum, Nat.add_mul_div_left _ _ (span_pos j), hentries j hj, Nat.add_mul_mod_self_left]
  generalize v + k * span (h + 1) = w at hindex
  induction h generalizing t with
  | zero =>
      rw [leaf, leaf, hindex 0 le_rfl]
  | succ h ih =>
      rw [leaf, leaf, hindex (h + 1) le_rfl]
      cases M.decode (h + 1) (mem t (M.index (h + 1) v)) with
      | invalid => rfl
      | block addr => rfl
      | table next =>
          exact ih (fun j hj => hentries j (by omega)) fun j hj => hindex j (by omega)

/-! ## Edits -/

/-- Another entry of the table is not the edited one. -/
theorem leaf_set_of_ne (hs : M.Separate mem h t S) (hi : M.index h v ≠ i) :
    M.leaf (mem.set t i d) h t v = M.leaf mem h t v := by
  cases h with
  | zero => rw [leaf, leaf, Tables.set_of_ne_entry hi]
  | succ h =>
      rcases hs with ⟨-, C, hC, -, hnext⟩
      rw [leaf, leaf, Tables.set_of_ne_entry hi]
      cases hd : M.decode (h + 1) (mem t (M.index (h + 1) v)) with
      | invalid => rfl
      | block addr => rfl
      | table next =>
          refine ((hnext _ next hd).congr ?_).2 v
          intro x hx
          refine Tables.set_of_ne_table ?_
          rintro rfl
          exact (hC _).2 hx

/-- An entry that is not a pointer leaves a tree of tables. -/
theorem Separate.set (hs : M.Separate mem h t S) (hd : ∀ next, M.decode h d ≠ .table next) :
    M.Separate (mem.set t i d) h t S := by
  cases h with
  | zero => exact hs
  | succ h =>
      rcases hs with ⟨ht, C, hC, hdisj, hnext⟩
      refine ⟨ht, C, hC, hdisj, ?_⟩
      intro j next hj
      by_cases hij : j = i
      · rw [hij, Tables.set_self] at hj
        exact absurd hj (hd next)
      · rw [Tables.set_of_ne_entry hij] at hj
        refine ((hnext j next hj).congr ?_).1
        intro x hx
        refine Tables.set_of_ne_table ?_
        rintro rfl
        exact (hC j).2 hx

theorem leaf_set_block {addr : Nat} (hd : M.decode h d = .block addr) (hi : M.index h v = i) :
    M.leaf (mem.set t i d) h t v = some (h, addr) := by
  subst hi
  refine leaf_of_block ?_
  rw [Tables.set_self, hd]

/-- The tables below one entry: they lie in `K`, apart from the tables below the other entries. -/
structure Below (M : Mmu D) (mem : Tables D) (h t i : Nat) (S K : Set Nat) : Prop where
  subset : K ⊆ S
  notMem : t ∉ K
  others : ∃ C : Nat → Set Nat, (∀ j, j ≠ i → C j ⊆ S ∧ t ∉ C j ∧ Disjoint (C j) K) ∧
    (∀ j k, j ≠ i → k ≠ i → j ≠ k → Disjoint (C j) (C k)) ∧
      ∀ j next, j ≠ i → M.decode (h + 1) (mem t j) = .table next → M.Separate mem h next (C j)

/-- The set below an entry that points to a table. -/
theorem Separate.below (hs : M.Separate mem (h + 1) t S) (i : Nat) :
    ∃ K, M.Below mem h t i S K ∧
      ∀ next, M.decode (h + 1) (mem t i) = .table next → M.Separate mem h next K := by
  rcases hs with ⟨ht, C, hC, hdisj, hnext⟩
  refine ⟨C i, ⟨(hC i).1, (hC i).2, C, ?_, ?_, fun j next _ => hnext j next⟩, hnext i⟩
  · intro j hj
    exact ⟨(hC j).1, (hC j).2, hdisj j i hj⟩
  · intro j k _ _ hjk
    exact hdisj j k hjk

/-- More tables below the entry: none of them is below another entry. -/
theorem Below.extend {K K' : Set Nat} (hb : M.Below mem h t i S K) (hS : S ⊆ S') (hK' : K' ⊆ S')
    (hnot : t ∉ K') (hold : ∀ x ∈ K', x ∈ S → x ∈ K) : M.Below mem h t i S' K' := by
  rcases hb with ⟨-, -, C, hC, hdisj, hnext⟩
  refine ⟨hK', hnot, C, ?_, hdisj, hnext⟩
  intro j hj
  rcases hC j hj with ⟨hsub, hnotj, hdisjj⟩
  refine ⟨hsub.trans hS, hnotj, ?_⟩
  rw [Set.disjoint_left] at hdisjj ⊢
  intro x hx hxK
  exact hdisjj hx (hold x hxK (hsub hx))

/-- A pointer entry in a table.  The tables below the entry have been edited before, and no other. -/
theorem Below.setTable {next : Nat} {K : Set Nat} (hb : M.Below mem h t i S K) (ht : t ∈ S)
    (hd : M.decode (h + 1) d = .table next) (hs : M.Separate mem' h next K)
    (hsame : ∀ x ∈ S, x ∉ K → mem' x = mem x) :
    M.Separate (mem'.set t i d) (h + 1) t S ∧
      (∀ v, M.index (h + 1) v = i → M.leaf (mem'.set t i d) (h + 1) t v = M.leaf mem' h next v) ∧
      ∀ v, M.index (h + 1) v ≠ i → M.leaf (mem'.set t i d) (h + 1) t v = M.leaf mem (h + 1) t v := by
  rcases hb with ⟨hsub, hnot, C, hC, hdisj, hnext⟩
  have hsamet := hsame t ht hnot
  have hbelow : ∀ x ∈ K, mem'.set t i d x = mem' x := by
    intro x hx
    refine Tables.set_of_ne_table ?_
    rintro rfl
    exact hnot hx
  -- The tables below the other entries are as they were.
  have hothers : ∀ j, j ≠ i → ∀ x ∈ C j, mem'.set t i d x = mem x := by
    intro j hj x hx
    rcases hC j hj with ⟨hsubj, hnotj, hdisjj⟩
    have hne : x ≠ t := by
      rintro rfl
      exact hnotj hx
    rw [Tables.set_of_ne_table hne]
    exact hsame x (hsubj hx) (Set.disjoint_left.1 hdisjj hx)
  refine ⟨⟨ht, Function.update C i K, ?_, ?_, ?_⟩, ?_, ?_⟩
  · intro j
    by_cases hj : j = i
    · subst hj
      rw [Function.update_self]
      exact ⟨hsub, hnot⟩
    · rw [Function.update_of_ne hj]
      exact ⟨(hC j hj).1, (hC j hj).2.1⟩
  · intro j k hjk
    by_cases hj : j = i
    · subst hj
      rw [Function.update_self, Function.update_of_ne hjk.symm]
      exact (hC k hjk.symm).2.2.symm
    · rw [Function.update_of_ne hj]
      by_cases hk : k = i
      · subst hk
        rw [Function.update_self]
        exact (hC j hj).2.2
      · rw [Function.update_of_ne hk]
        exact hdisj j k hj hk hjk
  · intro j next' hj'
    by_cases hj : j = i
    · subst hj
      rw [Tables.set_self, hd] at hj'
      cases hj'
      rw [Function.update_self]
      exact (hs.congr hbelow).1
    · rw [Tables.set_of_ne_entry hj, hsamet] at hj'
      rw [Function.update_of_ne hj]
      exact ((hnext j next' hj hj').congr (hothers j hj)).1
  · rintro v rfl
    have hentry : M.decode (h + 1) (mem'.set t (M.index (h + 1) v) d t (M.index (h + 1) v)) =
        .table next := by
      rw [Tables.set_self, hd]
    exact (leaf_of_table hentry).trans ((hs.congr hbelow).2 v)
  · intro v hv
    rw [leaf, leaf, Tables.set_of_ne_entry hv, hsamet]
    cases hdv : M.decode (h + 1) (mem t (M.index (h + 1) v)) with
    | invalid => rfl
    | block addr => rfl
    | table next' => exact ((hnext _ next' hv hdv).congr (hothers _ hv)).2 v

end Mmu
end Propeller
