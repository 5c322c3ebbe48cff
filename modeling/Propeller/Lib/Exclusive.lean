import Mathlib.Logic.Function.Basic
import Mathlib.Logic.Relation

/-!
# Lib.Exclusive — lock words that are taken with exclusive loads and stores

Some parties share a family of words.  A party takes a word by loading it with a reservation, and by
storing to it if it has read zero and still has the reservation; a store to a word ends the reservations
the other parties have of it.  The owner of a word gives it back by storing zero.

Nothing is assumed about what else a party does, or about reservations: they may be lost at any time.
The invariant `Inv` of such a system says that a word is the number of its owners.
-/

namespace Exclusive

variable {C L : Type}

/-- What the protocol knows about one party: the word it has reserved, the word it has read zero from
and is going to store to, and how often it owns each word. -/
structure View (L : Type) where
  reserved : Option L
  ready : Option L
  owned : L → Nat

/-- The words and the parties. -/
structure State (C L : Type) where
  word : L → Nat
  view : C → View L

/-- The word `l` is the number of its owners, and there is at most one. -/
def Counted (σ : State C L) (l : L) : Prop :=
  (σ.word l = 0 ∧ ∀ c, (σ.view c).owned l = 0) ∨
    (σ.word l = 1 ∧ ∃ c, (σ.view c).owned l = 1 ∧ ∀ d, d ≠ c → (σ.view d).owned l = 0)

/-- The invariant of the protocol. -/
structure Inv (σ : State C L) : Prop where
  counted : ∀ l, Counted σ l
  fresh : ∀ c l, (σ.view c).ready = some l → (σ.view c).reserved = some l → σ.word l = 0

variable {σ τ : State C L} {c d : C} {l : L} {v v' : View L}

/-- Words whose owners a step leaves alone stay counted. -/
theorem Counted.of_same (h : Counted σ l) (hword : τ.word l = σ.word l)
    (hview : ∀ c, (τ.view c).owned l = (σ.view c).owned l) : Counted τ l := by
  simpa only [Counted, hword, hview] using h

/-! ## What the invariant says -/

theorem Inv.owner_unique (h : Inv σ) (hc : 0 < (σ.view c).owned l) (hd : 0 < (σ.view d).owned l) :
    c = d := by
  rcases h.counted l with ⟨-, hfree⟩ | ⟨-, e, -, hother⟩
  · exact absurd (hfree c) (Nat.ne_of_gt hc)
  · have hce : c = e := by_contra fun hne => Nat.ne_of_gt hc (hother c hne)
    have hde : d = e := by_contra fun hne => Nat.ne_of_gt hd (hother d hne)
    exact hce.trans hde.symm

theorem Inv.owned_eq_one (h : Inv σ) (hc : 0 < (σ.view c).owned l) :
    (σ.view c).owned l = 1 ∧ σ.word l = 1 := by
  rcases h.counted l with ⟨-, hfree⟩ | ⟨hword, e, he, hother⟩
  · exact absurd (hfree c) (Nat.ne_of_gt hc)
  · have hce : c = e := by_contra fun hne => Nat.ne_of_gt hc (hother c hne)
    exact ⟨hce ▸ he, hword⟩

theorem Inv.not_owned (h : Inv σ) (hl : σ.word l = 0) (c : C) : (σ.view c).owned l = 0 := by
  rcases h.counted l with ⟨-, hfree⟩ | ⟨hword, -⟩
  · exact hfree c
  · omega

/-! ## The steps -/

variable [DecidableEq C] [DecidableEq L]

/-- A party loses its reservation of the word `l`. -/
def View.clear (v : View L) (l : L) : View L :=
  { v with reserved := if v.reserved = some l then none else v.reserved }

/-- A party goes on to `v'` and stores nothing.  It owns what it did; if it has a reservation and is ready
to store, then it was so before, or the word is zero now. -/
structure Quiet (word : L → Nat) (v v' : View L) : Prop where
  owned : v'.owned = v.owned
  ready : ∀ l, v'.ready = some l → v'.reserved = some l →
    word l = 0 ∨ (v.ready = some l ∧ v.reserved = some l)

/-- A party that is ready to store takes the word `l` under its reservation. -/
structure Takes (l : L) (v v' : View L) : Prop where
  ready : v.ready = some l
  reserved : v.reserved = some l
  idle : v'.ready = none
  owned : v'.owned = Function.update v.owned l (v.owned l + 1)

/-- An owner of the word `l` gives it back. -/
structure Releases (l : L) (v v' : View L) : Prop where
  owner : 0 < v.owned l
  idle : v'.ready = none
  owned : v'.owned = Function.update v.owned l (v.owned l - 1)

/-- The party `c` goes on to `v`. -/
def State.move (σ : State C L) (c : C) (v : View L) : State C L :=
  { σ with view := Function.update σ.view c v }

/-- The party `c` stores `x` to the word `l` and goes on to `v`. -/
def State.store (σ : State C L) (c : C) (l : L) (x : Nat) (v : View L) : State C L where
  word := Function.update σ.word l x
  view d := if d = c then v else (σ.view d).clear l

/-- The steps of the protocol. -/
inductive Step : State C L → State C L → Prop
  | quiet {σ : State C L} {c : C} {v : View L} (h : Quiet σ.word (σ.view c) v) :
      Step σ (σ.move c v)
  | take {σ : State C L} {c : C} {l : L} {v : View L} (h : Takes l (σ.view c) v) :
      Step σ (σ.store c l 1 v)
  | release {σ : State C L} {c : C} {l : L} {v : View L} (h : Releases l (σ.view c) v) :
      Step σ (σ.store c l 0 v)

/-! ## The views after a step -/

@[simp] theorem View.clear_owned (v : View L) (l : L) : (v.clear l).owned = v.owned := rfl

@[simp] theorem View.clear_ready (v : View L) (l : L) : (v.clear l).ready = v.ready := rfl

theorem View.clear_reserved_eq {k : L} (h : (v.clear l).reserved = some k) :
    v.reserved = some k ∧ k ≠ l := by
  unfold View.clear at h
  dsimp only at h
  split at h
  · cases h
  · rename_i hne
    exact ⟨h, fun hkl => hne (hkl ▸ h)⟩

omit [DecidableEq L] in
@[simp] theorem State.move_word (σ : State C L) (c : C) (v : View L) : (σ.move c v).word = σ.word := rfl

omit [DecidableEq L] in
theorem State.move_view (σ : State C L) (c d : C) (v : View L) :
    (σ.move c v).view d = if d = c then v else σ.view d := by
  simp [State.move, Function.update_apply]

theorem State.store_word (σ : State C L) (c : C) (l k : L) (x : Nat) (v : View L) :
    (σ.store c l x v).word k = if k = l then x else σ.word k := by
  simp [State.store, Function.update_apply]

theorem State.store_view (σ : State C L) (c d : C) (l : L) (x : Nat) (v : View L) :
    (σ.store c l x v).view d = if d = c then v else (σ.view d).clear l := rfl

theorem store_owned_other {k : L} {x : Nat} (hv : v.owned k = (σ.view c).owned k) (d : C) :
    ((σ.store c l x v).view d).owned k = (σ.view d).owned k := by
  rw [State.store_view]
  split
  · rename_i hdc
    rw [hdc, hv]
  · rfl

/-- After a store, whoever is ready under a reservation has reserved another word. -/
theorem fresh_store {x : Nat} (h : Inv σ) (hv : v.ready = none) (d : C) (k : L)
    (hready : ((σ.store c l x v).view d).ready = some k)
    (hres : ((σ.store c l x v).view d).reserved = some k) : (σ.store c l x v).word k = 0 := by
  rw [State.store_view] at hready hres
  split at hready
  · rw [hv] at hready
    cases hready
  · rename_i hdc
    rw [if_neg hdc] at hres
    rcases View.clear_reserved_eq hres with ⟨hres', hkl⟩
    rw [State.store_word, if_neg hkl]
    exact h.fresh d k hready hres'

/-! ## The steps keep the invariant -/

omit [DecidableEq L] in
theorem Inv.move (h : Inv σ) (hq : Quiet σ.word (σ.view c) v) : Inv (σ.move c v) := by
  refine ⟨?_, ?_⟩
  · intro l
    refine (h.counted l).of_same rfl ?_
    intro d
    rw [State.move_view]
    split
    · rename_i hdc
      rw [hdc, hq.owned]
    · rfl
  · intro d l hready hres
    rw [State.move_view] at hready hres
    split at hready
    · rename_i hdc
      rw [if_pos hdc] at hres
      rcases hq.ready l hready hres with hzero | ⟨hready', hres'⟩
      · exact hzero
      · exact h.fresh c l hready' hres'
    · rename_i hdc
      rw [if_neg hdc] at hres
      exact h.fresh d l hready hres

theorem Inv.take (h : Inv σ) (ht : Takes l (σ.view c) v) : Inv (σ.store c l 1 v) := by
  -- The word was zero, so nobody owned it.
  have hzero : σ.word l = 0 := h.fresh c l ht.ready ht.reserved
  refine ⟨?_, fresh_store h ht.idle⟩
  intro k
  by_cases hkl : k = l
  · subst hkl
    refine Or.inr ⟨by rw [State.store_word, if_pos rfl], c, ?_, ?_⟩
    · rw [State.store_view, if_pos rfl, ht.owned, Function.update_self, h.not_owned hzero c]
    · intro d hd
      rw [State.store_view, if_neg hd, View.clear_owned, h.not_owned hzero d]
  · refine (h.counted k).of_same ?_ (store_owned_other ?_)
    · rw [State.store_word, if_neg hkl]
    · rw [ht.owned, Function.update_of_ne hkl]

theorem Inv.release (h : Inv σ) (hr : Releases l (σ.view c) v) : Inv (σ.store c l 0 v) := by
  refine ⟨?_, fresh_store h hr.idle⟩
  intro k
  by_cases hkl : k = l
  · subst hkl
    refine Or.inl ⟨by rw [State.store_word, if_pos rfl], ?_⟩
    intro d
    rw [State.store_view]
    split
    · have hone := (h.owned_eq_one hr.owner).1
      rw [hr.owned, Function.update_self, hone]
    · rename_i hdc
      -- Another owner would be this one.
      rw [View.clear_owned]
      by_contra hpos
      exact hdc (h.owner_unique (Nat.pos_of_ne_zero hpos) hr.owner)
  · refine (h.counted k).of_same ?_ (store_owned_other ?_)
    · rw [State.store_word, if_neg hkl]
    · rw [hr.owned, Function.update_of_ne hkl]

theorem Inv.step (h : Inv σ) (hstep : Step σ τ) : Inv τ := by
  cases hstep with
  | quiet hq => exact h.move hq
  | take ht => exact h.take ht
  | release hr => exact h.release hr

end Exclusive
