import Mathlib.Logic.Relation

/-!
# Lib.Steps — runs of a system that is driven by events

An event may happen where its guard holds, and the step that it makes may fail.  What every such step keeps holds
along every run.  A list of events of which every guard has been checked is a run.
-/

namespace Steps

variable {ε σ α : Type} {guard guard' : σ → α → Prop} {step : σ → α → Except ε σ} {I : σ → Prop} {s s' s'' : σ}
  {e : α} {es : List α}

/-- Events whose guards hold lead from the one state to the other. -/
def Reaches (guard : σ → α → Prop) (step : σ → α → Except ε σ) : σ → σ → Prop :=
  Relation.ReflTransGen fun s s' => ∃ e, guard s e ∧ step s e = .ok s'

theorem Reaches.invariant (hrun : Reaches guard step s s')
    (hstep : ∀ s e s', I s → guard s e → step s e = .ok s' → I s') (h : I s) : I s' := by
  induction hrun with
  | refl => exact h
  | tail _ hlast ih =>
      rcases hlast with ⟨e, hguard, hrun⟩
      exact hstep _ e _ ih hguard hrun

theorem Reaches.mono (hrun : Reaches guard step s s') (hguard : ∀ s e, guard s e → guard' s e) :
    Reaches guard' step s s' := by
  refine Relation.ReflTransGen.mono ?_ _ _ hrun
  rintro s s' ⟨e, he, hstep⟩
  exact ⟨e, hguard s e he, hstep⟩

/-- A run along which `I` holds meets every guard that `I` implies. -/
theorem Reaches.strengthen (hrun : Reaches guard step s s')
    (hstep : ∀ s e s', I s → guard s e → step s e = .ok s' → I s') (h : I s)
    (hguard : ∀ s e, I s → guard s e → guard' s e) : Reaches guard' step s s' := by
  have hboth : I s' ∧ Reaches guard' step s s' := by
    induction hrun with
    | refl => exact ⟨h, Relation.ReflTransGen.refl⟩
    | tail _ hlast ih =>
        rcases hlast with ⟨e, he, hrun⟩
        exact ⟨hstep _ e _ ih.1 he hrun, ih.2.tail ⟨e, hguard _ e ih.1 he, hrun⟩⟩
  exact hboth.2

/-- Where `I` holds no guarded step fails, and `I` holds after it. -/
def Keeps (guard : σ → α → Prop) (step : σ → α → Except ε σ) (I : σ → Prop) : Prop :=
  ∀ s e, I s → guard s e → ∃ s', step s e = .ok s' ∧ I s'

theorem Keeps.run (hk : Keeps guard step I) (hrun : Reaches guard step s s') (h : I s) : I s' := by
  refine hrun.invariant ?_ h
  intro s e s' hI hguard hstep
  rcases hk s e hI hguard with ⟨s₁, hstep₁, h₁⟩
  obtain rfl := Except.ok.inj (hstep.symm.trans hstep₁)
  exact h₁

theorem Keeps.progress (hk : Keeps guard step I) (h : I s) (hguard : guard s e) : ∃ s', step s e = .ok s' := by
  rcases hk s e h hguard with ⟨s', hstep, -⟩
  exact ⟨s', hstep⟩

/-- These events lead from the one state to the other. -/
inductive Follows (guard : σ → α → Prop) (step : σ → α → Except ε σ) (s : σ) : List α → σ → Prop
  | refl : Follows guard step s [] s
  | snoc {es : List α} {e : α} {s' s'' : σ} (h : Follows guard step s es s') (hguard : guard s' e)
      (hstep : step s' e = .ok s'') : Follows guard step s (es ++ [e]) s''

namespace Follows

theorem head (hguard : guard s e) (hstep : step s e = .ok s') (h : Follows guard step s' es s'') :
    Follows guard step s (e :: es) s'' := by
  induction h with
  | refl => exact snoc refl hguard hstep
  | snoc _ hguard' hstep' ih => exact ih.snoc hguard' hstep'

theorem reaches (h : Follows guard step s es s') : Reaches guard step s s' := by
  induction h with
  | refl => exact Relation.ReflTransGen.refl
  | snoc _ hguard hstep ih => exact Relation.ReflTransGen.tail ih ⟨_, hguard, hstep⟩

/-- What every step of the events keeps. -/
theorem invariant (hrun : Follows guard step s es s')
    (hstep : ∀ s, ∀ e ∈ es, ∀ s', I s → guard s e → step s e = .ok s' → I s') (h : I s) : I s' := by
  induction hrun with
  | refl => exact h
  | snoc _ hguard hlast ih =>
      refine hstep _ _ (List.mem_append_right _ List.mem_cons_self) _ (ih ?_) hguard hlast
      exact fun s e he => hstep s e (List.mem_append_left _ he)

end Follows

/-- The state that a list of events leads to; `bad` is the failure of a guard. -/
def trace (bad : ε) (guard : σ → α → Prop) [∀ s e, Decidable (guard s e)] (step : σ → α → Except ε σ) (s : σ) :
    List α → Except ε σ
  | [] => .ok s
  | e :: es =>
      if guard s e then
        match step s e with
        | .ok s' => trace bad guard step s' es
        | .error x => .error x
      else .error bad

section Trace

variable {bad : ε} [∀ s e, Decidable (guard s e)]

theorem trace_cons_of_ok (hguard : guard s e) (hstep : step s e = .ok s') :
    trace bad guard step s (e :: es) = trace bad guard step s' es := by
  rw [trace, if_pos hguard, hstep]

theorem follows_of_trace (h : trace bad guard step s es = .ok s') : Follows guard step s es s' := by
  induction es generalizing s with
  | nil =>
      obtain rfl := Except.ok.inj h
      exact .refl
  | cons e es ih =>
      rw [trace] at h
      split at h
      next hguard =>
        split at h
        next s₁ hstep => exact (ih h).head hguard hstep
        next => cases h
      next => cases h

theorem reaches_of_trace (h : trace bad guard step s es = .ok s') : Reaches guard step s s' :=
  (follows_of_trace h).reaches

end Trace

end Steps
