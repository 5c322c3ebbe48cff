import Mathlib.Logic.Relation

/-!
# Lib.Loop — loops that are left with a value

A round of a loop goes on with a new state, leaves the loop with a value, or fails.  A loop with a measure that
every round decreases does not run out of fuel; what it returns is what its last round leaves with.
-/

namespace Loop

variable {ε σ β : Type}

/-- The loop itself; `out` is the failure of a loop that runs out of fuel. -/
def iterate (out : ε) (step : σ → Except ε (σ ⊕ β)) : Nat → σ → Except ε β
  | 0, _ => .error out
  | fuel + 1, s =>
      match step s with
      | .error e => .error e
      | .ok (.inr b) => .ok b
      | .ok (.inl s') => iterate out step fuel s'

/-- One round goes on with `s'`. -/
def Next (step : σ → Except ε (σ ⊕ β)) (s s' : σ) : Prop :=
  step s = .ok (.inl s')

/-- Some rounds lead to `s'`. -/
def Reaches (step : σ → Except ε (σ ⊕ β)) : σ → σ → Prop :=
  Relation.ReflTransGen (Next step)

/-- Every round that goes on decreases the measure. -/
def Decreases (step : σ → Except ε (σ ⊕ β)) (μ : σ → Nat) : Prop :=
  ∀ s s', Next step s s' → μ s' < μ s

/-- How a round leaves the loop, if it does. -/
def leaves : Except ε (σ ⊕ β) → Option (Except ε β)
  | .error e => some (.error e)
  | .ok (.inr b) => some (.ok b)
  | .ok (.inl _) => none

variable {out : ε} {step : σ → Except ε (σ ⊕ β)} {μ : σ → Nat} {s s' t : σ} {fuel : Nat} {b : β} {e : ε}
  {r : Except ε β}

theorem Reaches.refl (s : σ) : Reaches step s s :=
  Relation.ReflTransGen.refl

theorem Reaches.trans (h : Reaches step s s') (h' : Reaches step s' t) : Reaches step s t :=
  Relation.ReflTransGen.trans h h'

theorem Reaches.single (h : step s = .ok (.inl s')) : Reaches step s s' :=
  Relation.ReflTransGen.single h

theorem Reaches.head (h : step s = .ok (.inl s')) (h' : Reaches step s' t) : Reaches step s t :=
  Relation.ReflTransGen.head h h'

/-- A round that leaves the loop is the last one. -/
theorem Reaches.eq_of_leaves (h : Reaches step s t) (hr : leaves (step s) = some r) : t = s := by
  rcases Relation.ReflTransGen.cases_head h with heq | ⟨s', hnext, -⟩
  · exact heq.symm
  · rw [show step s = .ok (.inl s') from hnext] at hr
    cases hr

/-- A round that goes on is followed by the rest. -/
theorem Reaches.tail_of_next (h : Reaches step s t) (hnext : step s = .ok (.inl s')) (ht : leaves (step t) = some r) :
    Reaches step s' t := by
  rcases Relation.ReflTransGen.cases_head h with heq | ⟨u, hu, hrest⟩
  · rw [← heq, hnext] at ht
    cases ht
  · have heq : u = s' := by
      have hu' : step s = .ok (.inl u) := hu
      rw [hnext] at hu'
      exact (Sum.inl.inj (Except.ok.inj hu')).symm
    exact heq ▸ hrest

/-- Every state that is reached leads to the last one. -/
theorem Reaches.to_last (h : Reaches step s t) (ht : leaves (step t) = some r) (h' : Reaches step s s') :
    Reaches step s' t := by
  induction h' with
  | refl => exact h
  | tail _ hnext ih => exact ih.tail_of_next hnext ht

/-- With enough fuel the loop returns what its last round leaves with. -/
theorem iterate_eq_iff (hμ : Decreases step μ) (hfuel : μ s < fuel) :
    iterate out step fuel s = r ↔ ∃ t, Reaches step s t ∧ leaves (step t) = some r := by
  -- The measure gets smaller with every step, so the fuel never runs out.
  induction fuel generalizing s with
  | zero => exact absurd hfuel (Nat.not_lt_zero _)
  | succ fuel ih =>
      rw [iterate]
      split
      next e he =>
        have hleave : leaves (step s) = some (.error e) := by rw [he]; rfl
        constructor
        · rintro rfl
          exact ⟨s, Reaches.refl s, hleave⟩
        · rintro ⟨t, ht, hr⟩
          rw [ht.eq_of_leaves hleave, hleave] at hr
          exact Option.some.inj hr
      next b hb =>
        have hleave : leaves (step s) = some (.ok b) := by rw [hb]; rfl
        constructor
        · rintro rfl
          exact ⟨s, Reaches.refl s, hleave⟩
        · rintro ⟨t, ht, hr⟩
          rw [ht.eq_of_leaves hleave, hleave] at hr
          exact Option.some.inj hr
      next s' hs' =>
        have hlt := hμ s s' hs'
        rw [ih (by omega)]
        constructor
        · rintro ⟨t, ht, hr⟩
          exact ⟨t, Reaches.head hs' ht, hr⟩
        · rintro ⟨t, ht, hr⟩
          exact ⟨t, ht.tail_of_next hs' hr, hr⟩

/-- The last round. -/
theorem exists_last (out : ε) (hμ : Decreases step μ) (hfuel : μ s < fuel) :
    ∃ t, Reaches step s t ∧ leaves (step t) = some (iterate out step fuel s) :=
  (iterate_eq_iff hμ hfuel).1 rfl

/-- A round that goes on does not change what the loop returns. -/
theorem iterate_of_next (hμ : Decreases step μ) (hfuel : μ s < fuel) (hnext : step s = .ok (.inl s')) :
    iterate out step fuel s = iterate out step fuel s' := by
  have hlt := hμ s s' hnext
  rcases exists_last out hμ (Nat.lt_trans hlt hfuel) with ⟨t, ht, hr⟩
  exact (iterate_eq_iff hμ hfuel).2 ⟨t, Reaches.head hnext ht, hr⟩

/-- The value of a loop whose last round is known. -/
theorem iterate_of_reaches (hμ : Decreases step μ) (hfuel : μ s < fuel) (h : Reaches step s t)
    (ht : step t = .ok (.inr b)) : iterate out step fuel s = .ok b :=
  (iterate_eq_iff hμ hfuel).2 ⟨t, h, by rw [ht]; rfl⟩

/-- A loop fails exactly when a round does that it comes to. -/
theorem iterate_eq_error_iff (hμ : Decreases step μ) (hfuel : μ s < fuel) :
    iterate out step fuel s = .error e ↔ ∃ t, Reaches step s t ∧ step t = .error e := by
  rw [iterate_eq_iff hμ hfuel]
  constructor
  · rintro ⟨t, ht, hr⟩
    refine ⟨t, ht, ?_⟩
    match hstep : step t with
    | .error e' =>
        rw [hstep] at hr
        exact Except.error.inj (Option.some.inj hr) ▸ rfl
    | .ok (.inr b) =>
        rw [hstep] at hr
        cases hr
    | .ok (.inl s') =>
        rw [hstep] at hr
        cases hr
  · rintro ⟨t, ht, hstep⟩
    exact ⟨t, ht, by rw [hstep]; rfl⟩

/-- What every round preserves holds of every state that is reached. -/
theorem Reaches.invariant {I : σ → Prop} (h : Reaches step s t) (hs : I s)
    (hstep : ∀ s s', I s → step s = .ok (.inl s') → I s') : I t := by
  induction h with
  | refl => exact hs
  | tail _ hnext ih => exact hstep _ _ ih hnext

end Loop
