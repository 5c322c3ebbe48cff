import Propeller.Mm.Buddy.Clients
import Propeller.Sync.Guarded

/-!
# Mm.Service — page allocators that the cores share

Every page allocator of the kernel is the object of a `SpinLock`.  A core that wants pages, or gives pages
back, calls the allocator under the guard.  Between its calls it has the blocks to itself: it writes to their
pages, or passes a block on to another core.

The list `held` says who has which block.  It is no part of the kernel; a client keeps the rules if it gives
back only what it holds.  For every lock with an allocator, the blocks that the calls so far have handed out
and not taken back are those on the list and the one that a call is about to take back (`Ledger`), so that no
page is held twice (`Ledger.held`), wherever the cores are in their calls.
-/

namespace Propeller
namespace Mm

open Sync Buddy

variable {A : Arch} {C M : Type} {U : Set Nat} {a b : Nat}

/-! ## Calls -/

/-- A call, the block it has got, and what else the core keeps during the call. -/
structure CallData (M : Type) where
  call : PageCall
  block : Option (Nat × Nat)
  locals : M

/-- The section makes its call, in however many accesses. -/
def Implements (A : Arch) (s : Section (Run State) (CallData M)) : Prop :=
  ∀ t, (s.run t).1 = (s.input.call.run A t).1 ∧ (s.run t).2.block = (s.input.call.run A t).2

/-- A call in one access. -/
def callAtOnce (A : Arch) (call : PageCall) : Section (Run State) (CallData Unit) where
  program := [fun x => ((x.2.call.run A x.1).1, { x.2 with block := (x.2.call.run A x.1).2 })]
  input := ⟨call, none, ()⟩

theorem callAtOnce_implements (A : Arch) (call : PageCall) : Implements A (callAtOnce A call) :=
  fun _ => ⟨rfl, rfl⟩

/-! ## Cores and blocks -/

/-- A block of the allocator behind a lock, held by a core. -/
structure Holding (C : Type) where
  core : C
  lock : Nat
  block : Nat × Nat
  deriving DecidableEq

/-- The pages of the block. -/
def Holding.pages (x : Holding C) : Set Nat :=
  pagesAt x.block.1 x.block.2

/-- The cores with their locks and allocators, and who holds which block. -/
structure Service (C M : Type) where
  world : World C (Run State) (CallData M)
  held : List (Holding C)

/-- What a core does: a step with the locks, or it passes a block on. -/
inductive Service.Event (C M : Type)
  | world (e : Sync.Event (Run State) (CallData M))
  | pass (d : C) (x : Holding C)

/-- The block that a core has got from the call it is in. -/
def Service.got (σ : Service C M) (c : C) (a : Nat) : Option (Holding C) :=
  match σ.world.session c a with
  | some s => s.data.block.map fun block => ⟨c, a, block⟩
  | none => none

variable [DecidableEq C]

/-- One step of the core `c`.  A core gives back and passes on what it holds. -/
def Service.step (A : Arch) (σ : Service C M) (c : C) : Service.Event C M → Option (Service C M)
  | .world (.enter a s) => do
      let w ← σ.world.step A c (.enter a s)
      match s.input.call.freed with
      | none => return ⟨w, σ.held⟩
      | some block => if ⟨c, a, block⟩ ∈ σ.held then return ⟨w, σ.held.erase ⟨c, a, block⟩⟩ else none
  | .world (.finish a) => do
      let w ← σ.world.step A c (.finish a)
      return ⟨w, (σ.got c a).toList ++ σ.held⟩
  | .world e => do
      let w ← σ.world.step A c e
      return ⟨w, σ.held⟩
  | .pass d x => if x ∈ σ.held ∧ x.core = c then some ⟨σ.world, ⟨d, x.lock, x.block⟩ :: σ.held.erase x⟩ else none

/-- Sections under the guard of an allocator are calls. -/
def Service.Proper (A : Arch) : Service.Event C M → Prop
  | .world (.enter _ s) => Implements A s ∧ s.input.call.Fits A
  | _ => True

/-- Some steps of the cores lead from `σ` to `σ'`. -/
def Service.Reaches (A : Arch) : Service C M → Service C M → Prop :=
  Relation.ReflTransGen fun σ σ' => ∃ c e, Service.Proper A e ∧ σ.step A c e = some σ'

/-- The steps of a run, one by one. -/
def Service.trace (A : Arch) (σ : Service C M) : List (C × Service.Event C M) → Option (Service C M)
  | [] => some σ
  | (c, e) :: es => do
      let σ ← σ.step A c e
      σ.trace A es

/-- Nothing has been handed out. -/
def Service.start (regs : C → Nat → Nat) (obj : Nat → Run State) : Service C M :=
  ⟨World.start regs obj, []⟩

variable {σ σ' : Service C M} {c d : C} {e : Service.Event C M} {obj₀ : Nat → Run State}
  {t : Run State} {out : List (Nat × Nat)}

theorem Service.reaches_of_trace {es : List (C × Service.Event C M)} (hproper : ∀ p ∈ es, Service.Proper A p.2)
    (h : σ.trace A es = some σ') : σ.Reaches A σ' := by
  induction es generalizing σ with
  | nil =>
      obtain rfl := Option.some.inj h
      exact Relation.ReflTransGen.refl
  | cons p es ih =>
      rcases p with ⟨c, e⟩
      rcases Option.bind_eq_some_iff.1 h with ⟨σ₁, hstep, hrest⟩
      refine Relation.ReflTransGen.head ⟨c, e, hproper _ List.mem_cons_self, hstep⟩ ?_
      exact ih (fun q hq => hproper q (List.mem_cons_of_mem _ hq)) hrest

/-- A step is one of these. -/
theorem Service.step_cases (h : σ.step A c e = some σ') :
    (∃ a s w, e = .world (.enter a s) ∧ σ.world.step A c (.enter a s) = some w ∧
      ((s.input.call.freed = none ∧ σ' = ⟨w, σ.held⟩) ∨
        ∃ block, s.input.call.freed = some block ∧ ⟨c, a, block⟩ ∈ σ.held ∧
          σ' = ⟨w, σ.held.erase ⟨c, a, block⟩⟩)) ∨
    (∃ a w, e = .world (.finish a) ∧ σ.world.step A c (.finish a) = some w ∧
      σ' = ⟨w, (σ.got c a).toList ++ σ.held⟩) ∨
    (∃ a w, σ.world.step A c (.access a) = some w ∧ σ' = ⟨w, σ.held⟩) ∨
    (∃ act w, σ.world.step A c (.core act) = some w ∧ σ' = ⟨w, σ.held⟩) ∨
    (∃ d x, e = .pass d x ∧ x ∈ σ.held ∧ σ' = ⟨σ.world, ⟨d, x.lock, x.block⟩ :: σ.held.erase x⟩) := by
  cases e with
  | pass d x =>
      simp only [Service.step] at h
      split at h
      · rename_i hx
        obtain rfl := Option.some.inj h
        exact Or.inr (Or.inr (Or.inr (Or.inr ⟨d, x, rfl, hx.1, rfl⟩)))
      · cases h
  | world e =>
      cases e with
      | core act =>
          rcases Option.bind_eq_some_iff.1 h with ⟨w, hw, h⟩
          obtain rfl := Option.some.inj h
          exact Or.inr (Or.inr (Or.inr (Or.inl ⟨act, w, hw, rfl⟩)))
      | access a =>
          rcases Option.bind_eq_some_iff.1 h with ⟨w, hw, h⟩
          obtain rfl := Option.some.inj h
          exact Or.inr (Or.inr (Or.inl ⟨a, w, hw, rfl⟩))
      | finish a =>
          rcases Option.bind_eq_some_iff.1 h with ⟨w, hw, h⟩
          obtain rfl := Option.some.inj h
          exact Or.inr (Or.inl ⟨a, w, rfl, hw, rfl⟩)
      | enter a s =>
          rcases Option.bind_eq_some_iff.1 h with ⟨w, hw, h⟩
          refine Or.inl ⟨a, s, w, rfl, hw, ?_⟩
          cases hfreed : s.input.call.freed with
          | none =>
              simp only [hfreed] at h
              obtain rfl := Option.some.inj h
              exact Or.inl ⟨rfl, rfl⟩
          | some block =>
              simp only [hfreed] at h
              split at h
              · rename_i hmem
                obtain rfl := Option.some.inj h
                exact Or.inr ⟨block, rfl, hmem, rfl⟩
              · cases h

/-! ## Blocks of one allocator -/

/-- The blocks of the allocator behind the lock `a` that are held. -/
def heldAt (held : List (Holding C)) (a : Nat) : List (Nat × Nat) :=
  (held.filter fun x => x.lock = a).map Holding.block

omit [DecidableEq C] in
theorem heldAt_perm {held held' : List (Holding C)} (h : held.Perm held') (a : Nat) :
    (heldAt held a).Perm (heldAt held' a) :=
  (h.filter _).map _

omit [DecidableEq C] in
theorem heldAt_cons (x : Holding C) (held : List (Holding C)) (a : Nat) :
    heldAt (x :: held) a = (if x.lock = a then [x.block] else []) ++ heldAt held a := by
  by_cases hx : x.lock = a
  · simp [heldAt, hx]
  · simp [heldAt, hx]

/-! ## Blocks and calls -/

/-- The objects of a lock in a serial order of its sections are determined. -/
theorem serial_unique {T L : Type} {t t₁ t₂ : T} {log : List (Section T L × L)} (h₁ : Serial t log t₁)
    (h₂ : Serial t log t₂) : t₁ = t₂ := by
  induction log generalizing t with
  | nil => exact h₁.trans h₂.symm
  | cons p rest ih => exact ih h₁.2 h₂.2

/-- The allocator behind the lock `a` after the calls that are over, and the blocks it has out: those that the
cores hold, and the one that the call on its way gives back. -/
structure Ledger (A : Arch) (U : Set Nat) (obj₀ : Nat → Run State) (a : Nat) (σ : Service C M) (t : Run State)
    (out : List (Nat × Nat)) : Prop where
  serial : Serial (obj₀ a) (σ.world.log a) t
  sound : Sound A U t out
  idle : (∀ c, σ.world.session c a = none) → out.Perm (heldAt σ.held a)
  busy : ∀ c s, σ.world.session c a = some s → Implements A s.whole ∧ s.whole.input.call.Fits A ∧
    out.Perm (s.whole.input.call.freed.toList ++ heldAt σ.held a)

namespace Ledger

omit [DecidableEq C] in
/-- Nothing has happened to the sections of the lock, and the same blocks are held. -/
theorem of_same (h : Ledger A U obj₀ a σ t out) (hlog : σ'.world.log a = σ.world.log a)
    (hsession : ∀ c, σ'.world.session c a = σ.world.session c a)
    (hheld : (heldAt σ.held a).Perm (heldAt σ'.held a)) : Ledger A U obj₀ a σ' t out := by
  refine ⟨?_, h.sound, ?_, ?_⟩
  · rw [hlog]
    exact h.serial
  · intro hidle
    refine (h.idle ?_).trans hheld
    intro c
    rw [← hsession c]
    exact hidle c
  · intro c s hs
    rw [hsession c] at hs
    rcases h.busy c s hs with ⟨himpl, hfits, hperm⟩
    exact ⟨himpl, hfits, hperm.trans (List.Perm.append_left _ hheld)⟩

/-- A core enters a call: the block that it gives back is no longer held. -/
theorem enter {s : Section (Run State) (CallData M)} {w : World C (Run State) (CallData M)}
    {held : List (Holding C)} (h : Ledger A U obj₀ a σ t out) (hinv : GuardInv A obj₀ σ.world)
    (himpl : Implements A s) (hfits : s.input.call.Fits A) (hstep : σ.world.step A c (.enter b s) = some w)
    (hheld : (heldAt σ.held b).Perm (s.input.call.freed.toList ++ heldAt held b))
    (hother : ∀ a, a ≠ b → (heldAt σ.held a).Perm (heldAt held a)) : Ledger A U obj₀ a ⟨w, held⟩ t out := by
  rcases World.step_cases hstep with ⟨act, m, he, -⟩ | ⟨b', s', he, hguard, hnone, rfl⟩ |
    ⟨b', whole, f, rest, data, he, -⟩ | ⟨b', whole, data, he, -⟩
  · cases he
  · obtain ⟨rfl, rfl⟩ := Event.enter.inj he
    by_cases hab : a = b
    · subst hab
      have hidle : ∀ d, σ.world.session d a = none := by
        intro d
        by_cases hdc : d = c
        · rw [hdc, hnone]
        · exact hinv.only hguard d hdc
      refine ⟨h.serial, h.sound, ?_, ?_⟩
      · intro hall
        have hself := hall c
        simp only [session_self] at hself
        cases hself
      · intro d s' hs'
        simp only [World.setSession_apply] at hs'
        split at hs'
        · obtain rfl := Option.some.inj hs'
          exact ⟨himpl, hfits, (h.idle hidle).trans hheld⟩
        · rw [hidle d] at hs'
          cases hs'
    · exact h.of_same rfl (session_other hab) (hother a hab)
  · cases he
  · cases he

/-- An access of a section, on whichever lock. -/
theorem access {w : World C (Run State) (CallData M)} (h : Ledger A U obj₀ a σ t out)
    (hstep : σ.world.step A c (.access b) = some w) : Ledger A U obj₀ a ⟨w, σ.held⟩ t out := by
  rcases World.step_cases hstep with ⟨act, m, he, -⟩ | ⟨b', s', he, -⟩ | ⟨b', whole, f, rest, data, he, hs, rfl⟩ |
    ⟨b', whole, data, he, -⟩
  · cases he
  · cases he
  · obtain rfl := Event.access.inj he
    by_cases hab : a = b
    · subst hab
      refine ⟨h.serial, h.sound, ?_, ?_⟩
      · intro hall
        have hself := hall c
        simp only [session_self] at hself
        cases hself
      · -- The section is the same as before, with less to do.
        intro d s' hs'
        simp only [World.setSession_apply] at hs'
        split at hs'
        · obtain rfl := Option.some.inj hs'
          exact h.busy c ⟨whole, f :: rest, data⟩ hs
        · exact h.busy d s' hs'
    · exact h.of_same rfl (session_other hab) (List.Perm.refl _)
  · cases he

/-- A call is over: the core has the block that it got. -/
theorem finish {w : World C (Run State) (CallData M)} (h : ∃ t out, Ledger A U obj₀ a σ t out)
    (hinv : GuardInv A obj₀ σ.world) (hstep : σ.world.step A c (.finish b) = some w) :
    ∃ t out, Ledger A U obj₀ a ⟨w, (σ.got c b).toList ++ σ.held⟩ t out := by
  rcases World.step_cases hstep with ⟨act, m, he, -⟩ | ⟨b', s', he, -⟩ | ⟨b', whole, f, rest, data, he, -⟩ |
    ⟨b', whole, data, he, hs, rfl⟩
  · cases he
  · cases he
  · cases he
  · obtain rfl := Event.finish.inj he
    have hgot : σ.got c b = data.block.map fun block => ⟨c, b, block⟩ := by
      simp only [Service.got, hs]
    rcases h with ⟨t, out, h⟩
    by_cases hab : a = b
    · subst hab
      rcases hinv.order a with ⟨t', hserial, -, hrun⟩
      obtain rfl := serial_unique h.serial hserial
      rcases h.busy c _ hs with ⟨himpl, hfits, hperm⟩
      -- The call has left the allocator and the data where it would have left them at once.
      have hdone : (σ.world.obj a, data) = whole.run t := hrun c _ hs
      have hdata : data = (whole.run t).2 := congrArg Prod.snd hdone
      have hblock : data.block = (whole.input.call.run A t).2 := by rw [hdata, (himpl t).2]
      rcases h.sound.call hfits hperm with ⟨out', hsound, hperm'⟩
      have hidle : ∀ d, σ.world.setSession c a none d a = none := by
        intro d
        rw [World.setSession_apply]
        split
        · rfl
        · rename_i hd
          exact hinv.only (hinv.guard c a _ hs) d fun hdc => hd ⟨hdc, rfl⟩
      have hheld : out'.Perm (heldAt ((σ.got c a).toList ++ σ.held) a) := by
        rw [hgot]
        rw [← hblock] at hperm'
        cases hb : data.block with
        | none => simpa [hb] using hperm'
        | some block =>
            rw [hb] at hperm'
            simpa [heldAt_cons] using hperm'
      refine ⟨(whole.input.call.run A t).1, out', ?_, hsound, fun _ => hheld, ?_⟩
      · simp only [Function.update_self]
        rw [hdata, ← (himpl t).1]
        exact h.serial.concat whole
      · intro d s hs'
        simp only [hidle d] at hs'
        cases hs'
    · refine ⟨t, out, h.of_same (Function.update_of_ne hab _ _) (session_other hab) ?_⟩
      rw [hgot]
      cases data.block with
      | none => exact List.Perm.refl _
      | some block => simp [heldAt_cons, Ne.symm hab]

theorem step (h : ∃ t out, Ledger A U obj₀ a σ t out) (hinv : GuardInv A obj₀ σ.world)
    (hproper : Service.Proper A e) (hstep : σ.step A c e = some σ') : ∃ t out, Ledger A U obj₀ a σ' t out := by
  rcases Service.step_cases hstep with ⟨b, s, w, rfl, hw, hheld⟩ | ⟨b, w, rfl, hw, rfl⟩ | ⟨b, w, hw, rfl⟩ |
    ⟨act, w, hw, rfl⟩ | ⟨d, x, rfl, hx, rfl⟩
  · rcases h with ⟨t, out, h⟩
    rcases hheld with ⟨hfreed, rfl⟩ | ⟨block, hfreed, hmem, rfl⟩
    · refine ⟨t, out, h.enter hinv hproper.1 hproper.2 hw ?_ fun _ _ => List.Perm.refl _⟩
      rw [hfreed]
      exact List.Perm.refl _
    · have hcons := fun a => heldAt_perm (List.perm_cons_erase hmem) a
      refine ⟨t, out, h.enter hinv hproper.1 hproper.2 hw ?_ ?_⟩
      · rw [hfreed]
        simpa [heldAt_cons] using hcons b
      · intro a hab
        simpa [heldAt_cons, Ne.symm hab] using hcons a
  · exact finish h hinv hw
  · rcases h with ⟨t, out, h⟩
    exact ⟨t, out, h.access hw⟩
  · rcases h with ⟨t, out, h⟩
    rcases World.step_cases hw with ⟨act', m, -, -, -, rfl⟩ | ⟨b', s', he, -⟩ | ⟨b', whole, f, rest, data, he, -⟩ |
      ⟨b', whole, data, he, -⟩
    · exact ⟨t, out, h.of_same rfl (fun _ => rfl) (List.Perm.refl _)⟩
    · cases he
    · cases he
    · cases he
  · -- Another core has the block now.
    rcases h with ⟨t, out, h⟩
    refine ⟨t, out, h.of_same rfl (fun _ => rfl) ?_⟩
    refine (heldAt_perm (List.perm_cons_erase hx) a).trans ?_
    rw [heldAt_cons, heldAt_cons]

end Ledger

/-- A step of the service is a step of the locks, or leaves them alone. -/
theorem guardInv_step (hinv : GuardInv A obj₀ σ.world) (hstep : σ.step A c e = some σ') :
    GuardInv A obj₀ σ'.world := by
  rcases Service.step_cases hstep with ⟨b, s, w, rfl, hw, ⟨-, rfl⟩ | ⟨block, -, -, rfl⟩⟩ | ⟨b, w, rfl, hw, rfl⟩ |
    ⟨b, w, hw, rfl⟩ | ⟨act, w, hw, rfl⟩ | ⟨d, x, rfl, hx, rfl⟩
  · exact hinv.step hw
  · exact hinv.step hw
  · exact hinv.step hw
  · exact hinv.step hw
  · exact hinv.step hw
  · exact hinv

omit [DecidableEq C] in
/-- A lock whose allocator has handed out nothing. -/
theorem Ledger.start {regs : C → Nat → Nat} {s : State} {F : Set Block} (hobj : obj₀ a = .ok s)
    (hbase : 2 ^ (BLOCK_LEVELS - 1) ∣ s.basePage) (hsafe : Safe A U ⟨s, []⟩ F []) :
    Ledger A U obj₀ a (Service.start regs obj₀ : Service C M) (.ok s) [] := by
  refine ⟨hobj.symm, Sound.of_safe hbase hsafe, fun _ => List.Perm.refl _, ?_⟩
  intro c s hs
  cases hs

/-- Wherever the cores are, the ledger of a lock that began with an allocator accounts for its blocks. -/
theorem Ledger.run {regs : C → Nat → Nat} {s : State} {F : Set Block} (hobj : obj₀ a = .ok s)
    (hbase : 2 ^ (BLOCK_LEVELS - 1) ∣ s.basePage) (hsafe : Safe A U ⟨s, []⟩ F [])
    (hrun : (Service.start regs obj₀ : Service C M).Reaches A σ) : ∃ t out, Ledger A U obj₀ a σ t out := by
  have hboth : GuardInv A obj₀ σ.world ∧ ∃ t out, Ledger A U obj₀ a σ t out := by
    induction hrun with
    | refl => exact ⟨GuardInv.run Relation.ReflTransGen.refl, _, _, Ledger.start hobj hbase hsafe⟩
    | tail _ hlast ih =>
        rcases hlast with ⟨c, e, hproper, hstep⟩
        exact ⟨guardInv_step ih.1 hstep, Ledger.step ih.2 ih.1 hproper hstep⟩
  exact hboth.2

omit [DecidableEq C] in
/-- The blocks that are held share no page, and lie in the pages of the allocator. -/
theorem Ledger.held (h : Ledger A U obj₀ a σ t out) :
    ((heldAt σ.held a).Pairwise fun b b' => Disjoint (pagesAt b.1 b.2) (pagesAt b'.1 b'.2)) ∧
      ∀ b ∈ heldAt σ.held a, pagesAt b.1 b.2 ⊆ U := by
  have hperm : ∃ more, out.Perm (more ++ heldAt σ.held a) := by
    by_cases hfree : ∀ c, σ.world.session c a = none
    · exact ⟨[], h.idle hfree⟩
    · rcases not_forall.1 hfree with ⟨c, hc⟩
      rcases Option.ne_none_iff_exists'.1 hc with ⟨s, hs⟩
      exact ⟨_, (h.busy c s hs).2.2⟩
  rcases hperm with ⟨more, hperm⟩
  have hpair := (hperm.pairwise_iff fun hd => Disjoint.symm hd).1 h.sound.apart
  refine ⟨(List.pairwise_append.1 hpair).2.1, ?_⟩
  intro b hb
  exact h.sound.inside b (hperm.symm.subset (List.mem_append_right _ hb))

end Mm
end Propeller
