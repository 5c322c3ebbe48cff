import Propeller.Sync.SpinLock

/-!
# Sync.Guarded — the objects that spin locks protect

A `SpinLock<T>` is a lock variable and an object.  The object is reached through a guard only: `deref` and
`deref_mut` borrow the guard, so that whatever a core does with the object is over when it drops the guard.
What it does between is a section: some accesses, each of which reads and writes the object and some data of
the core's own.

The accesses of different cores take turns like their instructions do.  Still the sections of a lock are
serial (`guarded_serial`): each of them reads and leaves what it would if it ran at once, after the sections
that were over before it.
-/

namespace Propeller
namespace Sync

variable {C T L : Type}

/-! ## Sections -/

/-- An access to the object, with the data of the core. -/
abbrev Access (T L : Type) := T × L → T × L

/-- What a core wants to do under a guard, and the data it brings. -/
structure Section (T L : Type) where
  program : List (Access T L)
  input : L

/-- The accesses one after another. -/
def runAccesses (fs : List (Access T L)) (x : T × L) : T × L :=
  fs.foldl (fun y f => f y) x

/-- A section that runs at once. -/
def Section.run (s : Section T L) (t : T) : T × L :=
  runAccesses s.program (t, s.input)

/-- A section on its way: what is left of it, and the data so far. -/
structure Session (T L : Type) where
  whole : Section T L
  todo : List (Access T L)
  data : L

/-- The sections of the list, each with the data it left, run one after another from `t` to `t'`. -/
def Serial (t : T) : List (Section T L × L) → T → Prop
  | [], t' => t' = t
  | (s, l) :: rest, t' => (s.run t).2 = l ∧ Serial (s.run t).1 rest t'

theorem Serial.concat {t t' : T} {log : List (Section T L × L)} (h : Serial t log t') (s : Section T L) :
    Serial t (log ++ [(s, (s.run t').2)]) (s.run t').1 := by
  induction log generalizing t with
  | nil =>
      obtain rfl : t' = t := h
      exact ⟨rfl, rfl⟩
  | cons p rest ih => exact ⟨h.1, ih h.2⟩

/-! ## Cores and objects -/

/-- The machine, the object of each lock, the sections on their way, and the sections that are over. -/
structure World (C T L : Type) where
  machine : Machine C
  obj : Nat → T
  session : C → Nat → Option (Session T L)
  log : Nat → List (Section T L × L)

/-- What a core does. -/
inductive Event (T L : Type)
  /-- a step of the machine -/
  | core (act : Action)
  /-- a section under the guard of the lock `a` -/
  | enter (a : Nat) (s : Section T L)
  /-- the next access of the section -/
  | access (a : Nat)
  /-- the end of the section -/
  | finish (a : Nat)

/-- A call of `sync_spin_unlock` drops a guard that no section borrows. -/
def World.allows (w : World C T L) (c : C) : Action → Bool
  | .call .unlock a _ => (w.session c a).isNone
  | _ => true

variable [DecidableEq C]

/-- Set the section of a core on a lock. -/
def World.setSession (w : World C T L) (c : C) (a : Nat) (s : Option (Session T L)) :
    C → Nat → Option (Session T L) :=
  Function.update w.session c (Function.update (w.session c) a s)

/-- One step of the core `c`, if it can take it.  Sections are entered, go on and end in the code between
the routines. -/
def World.step (A : Arch) (w : World C T L) (c : C) : Event T L → Option (World C T L)
  | .core act =>
      if w.allows c act then (w.machine.step A (code A) c act).map fun m => { w with machine := m } else none
  | .enter a s =>
      if (w.machine.core c).frame = none ∧ a ∈ (w.machine.core c).guards ∧ (w.session c a).isNone then
        some { w with session := w.setSession c a (some ⟨s, s.program, s.input⟩) }
      else none
  | .access a =>
      if (w.machine.core c).frame = none then
        match w.session c a with
        | some ⟨whole, f :: rest, data⟩ =>
            some { w with
              obj := Function.update w.obj a (f (w.obj a, data)).1
              session := w.setSession c a (some ⟨whole, rest, (f (w.obj a, data)).2⟩) }
        | _ => none
      else none
  | .finish a =>
      if (w.machine.core c).frame = none then
        match w.session c a with
        | some ⟨whole, [], data⟩ =>
            some { w with
              session := w.setSession c a none
              log := Function.update w.log a (w.log a ++ [(whole, data)]) }
        | _ => none
      else none

/-- Some steps of the cores lead from `w` to `w'`. -/
def World.Reaches (A : Arch) : World C T L → World C T L → Prop :=
  Relation.ReflTransGen fun w w' => ∃ c e, w.step A c e = some w'

/-- The steps of a run, one by one. -/
def World.trace (A : Arch) (w : World C T L) : List (C × Event T L) → Option (World C T L)
  | [] => some w
  | (c, e) :: es => do
      let w ← w.step A c e
      w.trace A es

/-- Nothing has happened to the objects. -/
def World.start (regs : C → Nat → Nat) (obj : Nat → T) : World C T L :=
  ⟨Machine.start regs, obj, fun _ _ => none, fun _ => []⟩

variable {A : Arch} {w w' : World C T L} {c d : C} {a b : Nat} {e : Event T L} {obj₀ : Nat → T}

theorem World.reaches_of_trace {es : List (C × Event T L)} (h : w.trace A es = some w') : w.Reaches A w' := by
  induction es generalizing w with
  | nil =>
      obtain rfl := Option.some.inj h
      exact Relation.ReflTransGen.refl
  | cons p es ih =>
      rcases p with ⟨c, e⟩
      rcases Option.bind_eq_some_iff.1 h with ⟨w₁, hstep, hrest⟩
      exact Relation.ReflTransGen.head ⟨c, e, hstep⟩ (ih hrest)

/-- A step is one of these. -/
theorem World.step_cases (h : w.step A c e = some w') :
    (∃ act m, e = .core act ∧ w.allows c act = true ∧ w.machine.step A (code A) c act = some m ∧
      w' = { w with machine := m }) ∨
    (∃ b s, e = .enter b s ∧ b ∈ (w.machine.core c).guards ∧ w.session c b = none ∧
      w' = { w with session := w.setSession c b (some ⟨s, s.program, s.input⟩) }) ∨
    (∃ b whole f rest data, e = .access b ∧ w.session c b = some ⟨whole, f :: rest, data⟩ ∧
      w' = { w with
        obj := Function.update w.obj b (f (w.obj b, data)).1
        session := w.setSession c b (some ⟨whole, rest, (f (w.obj b, data)).2⟩) }) ∨
    (∃ b whole data, e = .finish b ∧ w.session c b = some ⟨whole, [], data⟩ ∧
      w' = { w with
        session := w.setSession c b none
        log := Function.update w.log b (w.log b ++ [(whole, data)]) }) := by
  cases e with
  | core act =>
      simp only [World.step] at h
      split at h
      · rename_i hallow
        rcases Option.map_eq_some_iff.1 h with ⟨m, hm, rfl⟩
        exact Or.inl ⟨act, m, rfl, hallow, hm, rfl⟩
      · cases h
  | enter b s =>
      simp only [World.step] at h
      split at h
      · rename_i hok
        obtain rfl := Option.some.inj h
        exact Or.inr (Or.inl ⟨b, s, rfl, hok.2.1, Option.isNone_iff_eq_none.1 hok.2.2, rfl⟩)
      · cases h
  | access b =>
      simp only [World.step] at h
      split at h
      · split at h
        · rename_i hs
          obtain rfl := Option.some.inj h
          exact Or.inr (Or.inr (Or.inl ⟨b, _, _, _, _, rfl, hs, rfl⟩))
        · cases h
      · cases h
  | finish b =>
      simp only [World.step] at h
      split at h
      · split at h
        · rename_i hs
          obtain rfl := Option.some.inj h
          exact Or.inr (Or.inr (Or.inr ⟨b, _, _, rfl, hs, rfl⟩))
        · cases h
      · cases h

theorem World.setSession_apply (w : World C T L) (c d : C) (a b : Nat) (s : Option (Session T L)) :
    w.setSession c a s d b = if d = c ∧ b = a then s else w.session d b := by
  unfold World.setSession
  by_cases hd : d = c
  · subst hd
    by_cases hb : b = a
    · simp [hb]
    · simp [hb]
  · simp [hd]

/-! ## Guards of sections -/

/-- A guard is lost by the call of `sync_spin_unlock` only. -/
theorem guards_step {m m' : Machine C} {act : Action} (h : m.step A (code A) c act = some m')
    (hmem : a ∈ (m.core d).guards) :
    a ∈ (m'.core d).guards ∨ (d = c ∧ ∃ regs, act = .call .unlock a regs) := by
  by_cases hdc : d = c
  · subst hdc
    rcases Machine.step_cases h with ⟨r, x, regs, k, rfl, hcall, rfl⟩ | ⟨f, i, k, e, rfl, hf, hi, hx, rfl⟩ |
      ⟨-, rfl⟩ | ⟨-, rfl⟩
    · rcases Core.call_eq_some.1 hcall with ⟨-, rfl⟩
      rw [Machine.apply_core_self]
      by_cases hr : r = .unlock
      · subst hr
        by_cases hx : x = a
        · exact Or.inr ⟨rfl, regs, by rw [hx]⟩
        · refine Or.inl ?_
          simpa using (List.mem_erase_of_ne (Ne.symm hx)).2 hmem
      · exact Or.inl (by simpa [hr] using hmem)
    · rw [Machine.apply_core_self]
      exact Or.inl (Instr.execute_guards hx hmem)
    · exact Or.inl (by simpa using hmem)
    · exact Or.inl (by simpa using hmem)
  · refine Or.inl ?_
    rcases Machine.step_cases h with ⟨r, x, regs, k, -, -, rfl⟩ | ⟨f, i, k, e, -, -, -, -, rfl⟩ |
      ⟨-, rfl⟩ | ⟨-, rfl⟩ <;> rw [Machine.apply_core_ne hdc, Core.see_guards] <;> exact hmem

/-- The object of the lock `a` is where the sections that are over left it, or on its way from there. -/
def InOrder (obj₀ : Nat → T) (w : World C T L) (a : Nat) : Prop :=
  ∃ t, Serial (obj₀ a) (w.log a) t ∧ ((∀ c, w.session c a = none) → w.obj a = t) ∧
    ∀ c s, w.session c a = some s → runAccesses s.todo (w.obj a, s.data) = s.whole.run t

/-- The invariant of the objects. -/
structure GuardInv (A : Arch) (obj₀ : Nat → T) (w : World C T L) : Prop where
  lock : LockInv A w.machine
  guard : ∀ c a s, w.session c a = some s → a ∈ (w.machine.core c).guards
  order : ∀ a, InOrder obj₀ w a

omit [DecidableEq C] in
/-- Steps that leave the object, the log and the sections of a lock alone. -/
theorem InOrder.of_same (h : InOrder obj₀ w a) (hobj : w'.obj a = w.obj a) (hlog : w'.log a = w.log a)
    (hsession : ∀ c, w'.session c a = w.session c a) : InOrder obj₀ w' a := by
  simpa only [InOrder, hobj, hlog, hsession] using h

/-! ## The steps keep the order -/

theorem GuardInv.core {act : Action} {m : Machine C} (h : GuardInv A obj₀ w) (hallow : w.allows c act = true)
    (hstep : w.machine.step A (code A) c act = some m) : GuardInv A obj₀ { w with machine := m } := by
  refine ⟨h.lock.step hstep, ?_, ?_⟩
  · intro d a s hs
    rcases guards_step hstep (h.guard d a s hs) with hmem | ⟨rfl, regs, rfl⟩
    · exact hmem
    · -- The guard of a section is not dropped.
      rw [World.allows, show w.session d a = some s from hs] at hallow
      cases hallow
  · intro a
    exact (h.order a).of_same rfl rfl (fun _ => rfl)

/-- What sets the section of the core `c` on the lock `b` leaves the other locks alone. -/
theorem session_other {s : Option (Session T L)} (hab : a ≠ b) (d : C) :
    w.setSession c b s d a = w.session d a := by
  rw [World.setSession_apply, if_neg fun h => hab h.2]

theorem session_self {s : Option (Session T L)} : w.setSession c b s c b = s := by
  rw [World.setSession_apply, if_pos ⟨rfl, rfl⟩]

theorem session_of_some {s : Option (Session T L)} {s' : Session T L}
    (h : w.setSession c b s d a = some s') : (d = c ∧ a = b) ∨ w.session d a = some s' := by
  rw [World.setSession_apply] at h
  split at h
  · rename_i hda
    exact Or.inl hda
  · exact Or.inr h

omit [DecidableEq C] in
/-- The one section on a lock. -/
theorem InOrder.of_session {t : T} {s : Session T L} (hserial : Serial (obj₀ a) (w.log a) t)
    (hs : w.session c a = some s) (honly : ∀ d, d ≠ c → w.session d a = none)
    (hrun : runAccesses s.todo (w.obj a, s.data) = s.whole.run t) : InOrder obj₀ w a := by
  refine ⟨t, hserial, ?_, ?_⟩
  · intro hall
    rw [hall c] at hs
    cases hs
  · intro d s' hs'
    by_cases hdc : d = c
    · subst hdc
      obtain rfl := Option.some.inj (hs.symm.trans hs')
      exact hrun
    · rw [honly d hdc] at hs'
      cases hs'

omit [DecidableEq C] in
theorem InOrder.of_free (hserial : Serial (obj₀ a) (w.log a) (w.obj a)) (hfree : ∀ c, w.session c a = none) :
    InOrder obj₀ w a := by
  refine ⟨w.obj a, hserial, fun _ => rfl, ?_⟩
  intro c s hs
  rw [hfree c] at hs
  cases hs

omit [DecidableEq C] in
/-- The core with a guard is the only one with a section. -/
theorem GuardInv.only (h : GuardInv A obj₀ w) (hguard : a ∈ (w.machine.core c).guards) (d : C) (hdc : d ≠ c) :
    w.session d a = none := by
  cases hd : w.session d a with
  | none => rfl
  | some s =>
      exact absurd (h.lock.protocol.owner_unique (Core.owned_pos_of_guard (A := A) (h.guard d a s hd))
        (Core.owned_pos_of_guard hguard)) hdc

/-- The guards of the sections after one of them has changed. -/
theorem GuardInv.guard_set {s : Option (Session T L)} (h : GuardInv A obj₀ w)
    (hguard : b ∈ (w.machine.core c).guards) (d : C) (a : Nat) (s' : Session T L)
    (hs' : w.setSession c b s d a = some s') : a ∈ (w.machine.core d).guards := by
  rcases session_of_some hs' with ⟨rfl, rfl⟩ | hs'
  · exact hguard
  · exact h.guard d a s' hs'

theorem GuardInv.only_set {s : Option (Session T L)} (h : GuardInv A obj₀ w)
    (hguard : b ∈ (w.machine.core c).guards) (d : C) (hdc : d ≠ c) : w.setSession c b s d b = none := by
  rw [World.setSession_apply, if_neg fun hd => hdc hd.1]
  exact h.only hguard d hdc

theorem GuardInv.enter {s : Section T L} (h : GuardInv A obj₀ w) (hguard : b ∈ (w.machine.core c).guards)
    (hnone : w.session c b = none) :
    GuardInv A obj₀ { w with session := w.setSession c b (some ⟨s, s.program, s.input⟩) } := by
  refine ⟨h.lock, h.guard_set hguard, ?_⟩
  intro a
  by_cases hab : a = b
  · subst hab
    rcases h.order a with ⟨t, hserial, hobj, -⟩
    have hfree : ∀ d, w.session d a = none := by
      intro d
      by_cases hdc : d = c
      · rw [hdc, hnone]
      · exact h.only hguard d hdc
    refine InOrder.of_session hserial session_self (h.only_set hguard) ?_
    simp only [Section.run, hobj hfree]
  · exact (h.order a).of_same rfl rfl (session_other hab)

theorem GuardInv.access {whole : Section T L} {f : Access T L} {rest : List (Access T L)} {data : L}
    (h : GuardInv A obj₀ w) (hs : w.session c b = some ⟨whole, f :: rest, data⟩) :
    GuardInv A obj₀ { w with
      obj := Function.update w.obj b (f (w.obj b, data)).1
      session := w.setSession c b (some ⟨whole, rest, (f (w.obj b, data)).2⟩) } := by
  have hguard := h.guard c b _ hs
  refine ⟨h.lock, h.guard_set hguard, ?_⟩
  intro a
  by_cases hab : a = b
  · subst hab
    rcases h.order a with ⟨t, hserial, -, hrun⟩
    refine InOrder.of_session hserial session_self (h.only_set hguard) ?_
    simpa [runAccesses] using hrun c _ hs
  · exact (h.order a).of_same (Function.update_of_ne hab _ _) rfl (session_other hab)

theorem GuardInv.finish {whole : Section T L} {data : L} (h : GuardInv A obj₀ w)
    (hs : w.session c b = some ⟨whole, [], data⟩) :
    GuardInv A obj₀ { w with
      session := w.setSession c b none
      log := Function.update w.log b (w.log b ++ [(whole, data)]) } := by
  have hguard := h.guard c b _ hs
  refine ⟨h.lock, h.guard_set hguard, ?_⟩
  intro a
  by_cases hab : a = b
  · subst hab
    rcases h.order a with ⟨t, hserial, -, hrun⟩
    -- Nothing is left to do, so the object and the data are what the whole section leaves.
    have hdone : (w.obj a, data) = whole.run t := hrun c _ hs
    refine InOrder.of_free ?_ ?_
    · have hobj : w.obj a = (whole.run t).1 := congrArg Prod.fst hdone
      have hdata : data = (whole.run t).2 := congrArg Prod.snd hdone
      simp only [Function.update_self]
      rw [hobj, hdata]
      exact hserial.concat whole
    · intro d
      by_cases hdc : d = c
      · rw [hdc]
        exact session_self
      · exact h.only_set hguard d hdc
  · exact (h.order a).of_same rfl (Function.update_of_ne hab _ _) (session_other hab)

theorem GuardInv.step (h : GuardInv A obj₀ w) (hstep : w.step A c e = some w') : GuardInv A obj₀ w' := by
  rcases World.step_cases hstep with ⟨act, m, -, hallow, hm, rfl⟩ | ⟨b, s, -, hguard, hnone, rfl⟩ |
    ⟨b, whole, f, rest, data, -, hs, rfl⟩ | ⟨b, whole, data, -, hs, rfl⟩
  · exact h.core hallow hm
  · exact h.enter hguard hnone
  · exact h.access hs
  · exact h.finish hs

theorem GuardInv.run {regs : C → Nat → Nat} (h : (World.start regs obj₀ : World C T L).Reaches A w) :
    GuardInv A obj₀ w := by
  induction h with
  | refl =>
      refine ⟨LockInv.start regs, ?_, ?_⟩
      · intro c a s hs
        cases hs
      · intro a
        exact InOrder.of_free rfl fun _ => rfl
  | tail _ hlast ih =>
      rcases hlast with ⟨c, e, hstep⟩
      exact ih.step hstep

/-- The sections of a lock are serial, whatever the cores do in between: there is an object `t` that the
sections that are over lead to, one after another, each with the data it left.  The object of the lock is `t`
if no section is on its way.  Otherwise there is one such section only, of the core that holds the guard, and
what is left of it leads where the whole of it leads from `t`. -/
theorem guarded_serial {regs : C → Nat → Nat} (h : (World.start regs obj₀ : World C T L).Reaches A w) (a : Nat) :
    ∃ t, Serial (obj₀ a) (w.log a) t ∧ ((∀ c, w.session c a = none) → w.obj a = t) ∧
      ∀ c s, w.session c a = some s → a ∈ (w.machine.core c).guards ∧ (∀ d, d ≠ c → w.session d a = none) ∧
        runAccesses s.todo (w.obj a, s.data) = s.whole.run t := by
  have hinv := GuardInv.run h
  rcases hinv.order a with ⟨t, hserial, hobj, hrun⟩
  refine ⟨t, hserial, hobj, ?_⟩
  intro c s hs
  exact ⟨hinv.guard c a s hs, hinv.only (hinv.guard c a s hs), hrun c s hs⟩

/-- A counter is read and then written. -/
def increment : Section Nat Nat where
  program := [fun x => (x.1, x.1), fun x => (x.2 + 1, x.2)]
  input := 0

/-- Two cores increment the counter of one lock.  The second one comes while the first is at it. -/
def increments : List (Bool × Event Nat Nat) :=
  List.flatten [
    [(false, .core (.call .lock 64 fun _ => 7))], List.replicate 9 (false, .core .exec),
    [(false, .enter 64 increment), (false, .access 64), (true, .core (.call .lock 64 fun _ => 9))],
    List.replicate 6 (true, .core .exec),
    [(false, .access 64), (false, .finish 64), (false, .core (.call .unlock 64 fun _ => 5))],
    List.replicate 2 (false, .core .exec), List.replicate 6 (true, .core .exec),
    [(true, .enter 64 increment), (true, .access 64), (true, .access 64), (true, .finish 64)]]

theorem guarded_serial_increments :
    ∃ w, (World.start (fun _ _ => 0) fun _ => 0).trace .aarch64 increments = some w ∧ w.obj 64 = 2 ∧
      ∃ t, Serial 0 (w.log 64) t ∧ w.obj 64 = t := by
  have hrun : ((World.start (fun _ _ => 0) fun _ => 0).trace .aarch64 increments).any
      (fun w => decide (w.obj 64 = 2 ∧ ∀ c, (w.session c 64).isNone)) = true := by decide +kernel
  rcases (Option.any_eq_true _ _).1 hrun with ⟨w, htrace, hw⟩
  rcases of_decide_eq_true hw with ⟨htwo, hfree⟩
  rcases guarded_serial (World.reaches_of_trace htrace) 64 with ⟨t, hserial, hobj, -⟩
  exact ⟨w, htrace, htwo, t, hserial, hobj fun c => Option.isNone_iff_eq_none.1 (hfree c)⟩

end Sync
end Propeller
