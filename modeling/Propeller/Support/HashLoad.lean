import Mathlib.Data.Finset.Card
import Mathlib.Data.Int.ModEq
import Mathlib.Data.Nat.Prime.Basic
import Mathlib.Tactic.NormNum.Prime
import Propeller.Support.HashMap

/-!
# Support.HashLoad — a hash map below half load

The probes `h + i²` of a key take `(N + 1) / 2` different values modulo a prime `N`, so a table with fewer
slots in use has a free slot for every key.  As long as nothing is erased, `find` returns what the latest
successful insertion has stored.
-/

namespace Propeller
namespace HashMap

variable {K V : Type} {N : Nat}

/-! ## Quadratic residues -/

/-- Two probes of the first half are different. -/
theorem makeProbeIndex_inj (hN : N.Prime) {h i j : Nat} (hij : i < j) (hj : i + j < N) :
    makeProbeIndex h i N ≠ makeProbeIndex h j N := by
  intro heq
  have hmod : Nat.ModEq N (i * i) (j * j) := Nat.ModEq.add_left_cancel' h heq
  have hle : i * i ≤ j * j := Nat.mul_le_mul hij.le hij.le
  have hdvd : N ∣ j * j - i * i := (Nat.modEq_iff_dvd' hle).1 hmod
  -- `j² - i²` is a product of two numbers between `0` and `N`.
  rw [Nat.mul_self_sub_mul_self_eq] at hdvd
  rcases (Nat.Prime.dvd_mul hN).1 hdvd with hsum | hdiff
  · have hle' := Nat.le_of_dvd (by omega) hsum
    omega
  · have hle' := Nat.le_of_dvd (by omega) hdiff
    omega

/-- The slots that the first half of the probes looks at. -/
def firstProbes (N h : Nat) : Finset Nat :=
  (Finset.range ((N + 1) / 2)).image fun i => makeProbeIndex h i N

theorem card_firstProbes (hN : N.Prime) (h : Nat) : (firstProbes N h).card = (N + 1) / 2 := by
  rw [firstProbes, Finset.card_image_of_injOn, Finset.card_range]
  intro i hi j hj heq
  have hi' := Finset.mem_range.1 hi
  have hj' := Finset.mem_range.1 hj
  rcases Nat.lt_trichotomy i j with hlt | rfl | hlt
  · exact absurd heq (makeProbeIndex_inj hN hlt (by omega))
  · rfl
  · exact absurd heq.symm (makeProbeIndex_inj hN hlt (by omega))

theorem mem_probes_of_firstProbes {h idx : Nat} (hN : 0 < N) (hidx : idx ∈ firstProbes N h) :
    idx ∈ probes N h ∧ idx < N := by
  rcases Finset.mem_image.1 hidx with ⟨i, hi, rfl⟩
  have hi' := Finset.mem_range.1 hi
  exact ⟨List.mem_map.2 ⟨i, List.mem_range.2 (by omega), rfl⟩, Nat.mod_lt _ hN⟩

/-! ## Load -/

/-- The slots that hold a pair. -/
def occupied (m : HashMap K V N) : Finset Nat :=
  (Finset.range N).filter fun idx => (m.map idx).isSome

variable [DecidableEq K] {hash : K → Nat}

/-- Fewer slots in use than the probes look at leave one free. -/
theorem insert_of_occupied_lt (hN : N.Prime) (m : HashMap K V N) (key : K) (value : V)
    (hload : m.occupied.card < (N + 1) / 2) : (insert hash key value m).1 = true := by
  rw [insert_eq_true_iff]
  by_contra hall
  have hsub : firstProbes N (hash key) ⊆ m.occupied := by
    intro idx hidx
    rcases mem_probes_of_firstProbes hN.pos hidx with ⟨hprobe, hlt⟩
    have htaken : m.Taken key idx := by
      by_contra hnot
      exact hall ⟨idx, hprobe, hnot⟩
    rcases htaken with ⟨p, hp, -⟩
    exact Finset.mem_filter.2 ⟨Finset.mem_range.2 hlt, by rw [hp]; rfl⟩
  have hle := Finset.card_le_card hsub
  rw [card_firstProbes hN] at hle
  omega

/-! ## Insertions alone -/

/-- The calls that insert the pairs of a list. -/
def insertCalls (pairs : List (K × V)) : List (Call K V) :=
  pairs.map fun p => .insert p.1 p.2

/-- After insertions alone, `find` returns what the latest successful one has stored. -/
theorem find_insertCalls (hash : K → Nat) (pairs : List (K × V)) (key : K) :
    (runCalls hash (insertCalls pairs) : Recorded K V N).map.find hash key =
      (runCalls hash (insertCalls pairs) : Recorded K V N).latest key := by
  induction pairs using List.reverseRecOn generalizing key with
  | nil => exact findAt_eq_none fun _ _ hp => nomatch hp
  | append_singleton pairs p ih =>
      have hcalls : insertCalls (pairs ++ [p]) = insertCalls pairs ++ [.insert p.1 p.2] := by
        rw [insertCalls, List.map_append]
        rfl
      rw [hcalls, runCalls_concat]
      refine (find_apply_iff (placed_runCalls hash _) ih (.insert p.1 p.2)).2 ?_ key
      intro k hk
      cases hk

/-- Below half load every insertion succeeds, no probe overflows a `u64`, and without erasures `find` returns
the value of the latest successful insertion, or nothing. -/
theorem insert_below_half_load (hash : K → Nat) (hhash : ∀ key, hash key < 2 ^ 32) (hN : N.Prime)
    (hlt : N < 2 ^ 31) :
    (∀ (m : HashMap K V N) (key : K) (value : V), m.occupied.card < (N + 1) / 2 →
      (insert hash key value m).1 = true ∧ ∀ i < N, hash key + i * i < 2 ^ 64) ∧
    ∀ (pairs : List (K × V)) (key : K),
      (runCalls hash (insertCalls pairs) : Recorded K V N).map.find hash key =
        (runCalls hash (insertCalls pairs) : Recorded K V N).latest key :=
  ⟨fun m key value hload => ⟨insert_of_occupied_lt hN m key value hload,
    fun _ hi => probe_lt hlt (hhash key) hi⟩, find_insertCalls hash⟩

theorem Fnv1a_write_lt {state : Nat} (hstate : state < 2 ^ 32) (bytes : List Nat) :
    Fnv1a.write state bytes < 2 ^ 32 := by
  induction bytes generalizing state with
  | nil => exact hstate
  | cons c bytes ih => exact ih (Nat.mod_lt _ (by decide))

/-- The map of the core identifiers, with 389 slots. -/
theorem insert_below_half_load_cores :
    Nat.Prime 389 ∧
      (∀ (m : HashMap Nat Nat 389) (key value : Nat), m.occupied.card < (389 + 1) / 2 →
        (insert (hashWord .aarch64) key value m).1 = true ∧
          ∀ i < 389, hashWord .aarch64 key + i * i < 2 ^ 64) ∧
      ∀ (pairs : List (Nat × Nat)) (key : Nat),
        (runCalls (hashWord .aarch64) (insertCalls pairs) : Recorded Nat Nat 389).map.find
            (hashWord .aarch64) key =
          (runCalls (hashWord .aarch64) (insertCalls pairs) : Recorded Nat Nat 389).latest key := by
  have hprime : Nat.Prime 389 := by norm_num
  exact ⟨hprime, insert_below_half_load (hashWord .aarch64) (fun _ => Fnv1a_write_lt (by decide) _) hprime
    (by decide)⟩

end HashMap
end Propeller
