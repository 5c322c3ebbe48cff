import Propeller.Sync.SpinLock

/-!
# Sync.Progress — no core sleeps through the release of a lock

A core that finds a lock taken waits in `wfe` for an event.  On AArch64 it keeps the reservation of the lock
variable while it waits, and the store of the release, which ends the reservation, is the event.  On ARM
stores do not make events: the core that releases the lock sends one with `sev`, two lines after its store.

Either way a lock that is free wakes whoever waits for it (`spin_lock_wakes`), and a core that wants a free
lock gets it after a few instructions if it is not disturbed (`spin_lock_finishes`).
-/

namespace Propeller
namespace Sync

variable {C : Type} [DecidableEq C] {A : Arch} {m m' : Machine C} {c d : C} {a pc n : Nat} {act : Action}
  {word : Nat → Nat} {k k' : Core} {f : Frame} {i : Instr} {e : Effect}

/-! ## AArch64 -/

/-- On AArch64, what a core in `sync_spin_lock` has to wake it. -/
structure AwakeAarch64 (word : Nat → Nat) (k : Core) (a pc : Nat) : Prop where
  prefetch : pc = 2 → k.event = true
  waits : pc = 3 → k.event = true ∨ (k.reserved = some a ∧ word a ≠ 0)
  loaded : pc = 5 → k.event = true ∨ (k.reserved = some a ∧ word a = k.regs 9)
  stores : pc = 6 → k.event = true ∨ k.reserved = some a
  stored : pc = 7 → k.regs 9 ≠ 0 → k.event = true

theorem AwakeAarch64.of_event (h : k.event = true) : AwakeAarch64 word k a pc :=
  ⟨fun _ => h, fun _ => Or.inl h, fun _ => Or.inl h, fun _ => Or.inl h, fun _ _ => h⟩

/-- A store of another core ends the reservation, with an event, or does not touch the lock variable of a
core that has no event. -/
theorem AwakeAarch64.see (h : AwakeAarch64 word k a pc) (e : Effect) :
    AwakeAarch64 (e.words word) (k.see .aarch64 e) a pc := by
  cases e with
  | none => exact h
  | event => exact .of_event rfl
  | store x v =>
      by_cases hres : k.reserved = some x
      · exact .of_event (by simp [Core.see, hres])
      · have hsame : k.see .aarch64 (.store x v) = k := if_neg hres
        have hword : k.reserved = some a → (Effect.store x v).words word a = word a := by
          intro ha
          refine Function.update_of_ne ?_ _ _
          rintro rfl
          exact hres ha
        rw [hsame]
        refine ⟨h.prefetch, ?_, ?_, h.stores, h.stored⟩
        · intro hpc
          rcases h.waits hpc with hev | ⟨ha, hne⟩
          · exact Or.inl hev
          · exact Or.inr ⟨ha, by rwa [hword ha]⟩
        · intro hpc
          rcases h.loaded hpc with hev | ⟨ha, heq⟩
          · exact Or.inl hev
          · exact Or.inr ⟨ha, by rw [hword ha, heq]⟩

/-- The lines of `sync_spin_lock` keep something to wake the core. -/
theorem AwakeAarch64.execute (h : AwakeAarch64 word k a pc) (hregs : RegsOk .aarch64 .lock a pc k.regs k.zero)
    (hi : (codeAarch64 .lock)[pc]? = some i) (hx : i.execute word k ⟨.lock, a, pc⟩ = some (k', e))
    {b q : Nat} (hf : k'.frame = some ⟨.lock, b, q⟩) : AwakeAarch64 (e.words word) k' b q := by
  rcases List.getElem?_eq_some_iff.1 hi with ⟨hpc, hi⟩
  rcases hregs with ⟨haddr, -⟩
  simp only [codeAarch64, List.length_cons, List.length_nil] at hpc
  interval_cases pc <;> simp only [codeAarch64, List.getElem_cons_zero, List.getElem_cons_succ] at hi <;>
    subst hi <;> simp only [Instr.execute, Core.meets, if_true, Op.execute] at hx
  case «8» =>
    obtain ⟨rfl, rfl⟩ := Prod.mk.inj (Option.some.inj hx)
    cases hf
  case «0» | «1» | «2» | «4» =>
    obtain ⟨rfl, rfl⟩ := Prod.mk.inj (Option.some.inj hx)
    cases hf
    constructor <;>
      simp [Core.next, Core.goto, Core.write, Core.read, wzr, Effect.words, haddr, h.prefetch]
  case «3» =>
    split at hx <;> cases hx
    cases hf
    constructor <;> simp
  case «5» =>
    -- A core that has read zero goes on to the store, any other one back to the `wfe`.
    split at hx <;> cases hx <;> cases hf
    · refine ⟨by simp, by simp, by simp, ?_, by simp⟩
      intro _
      rcases h.loaded rfl with hev | ⟨hres, -⟩
      · exact Or.inl hev
      · exact Or.inr hres
    · rename_i hne
      refine ⟨by simp, ?_, by simp, by simp, by simp⟩
      intro _
      rcases h.loaded rfl with hev | ⟨hres, hword⟩
      · exact Or.inl hev
      · refine Or.inr ⟨hres, ?_⟩
        rw [Effect.words, hword]
        exact hne
  case «6» =>
    have hstores := h.stores rfl
    split at hx <;> cases hx <;> cases hf <;> constructor <;>
      simp_all [Core.next, Core.goto, Core.read, wzr, Effect.words, Core.write]
  case «7» =>
    have hstored := h.stored rfl
    split at hx <;> cases hx <;> cases hf <;> constructor <;>
      simp_all [Core.next, Core.goto, Core.read, wzr, Effect.words]

/-! ## ARM -/

/-- On ARM, a core between the store of `sync_spin_unlock` and the `sev`. -/
def Core.Waking (k : Core) (a : Nat) : Prop :=
  k.frame = some ⟨.unlock, a, 3⟩ ∨ k.frame = some ⟨.unlock, a, 4⟩

/-- The core `c` has its event, or there is no need for it, or another core is going to send it. -/
def Roused (m : Machine C) (c : C) (a : Nat) : Prop :=
  (m.core c).event = true ∨ m.word a ≠ 0 ∨ ∃ d, (m.core d).Waking a

/-- On ARM, what a core that has found the lock taken has to wake it. -/
structure AwakeArm (m : Machine C) (c : C) (a pc : Nat) : Prop where
  loaded : pc = 2 → (m.core c).regs 1 ≠ 0 → Roused m c a
  waits : pc = 3 → (m.core c).zero = false → Roused m c a

/-- The store of zero is followed by a `sev`. -/
theorem arm_store_zero {x v : Nat} (hok : k.Ok .arm) (hf : k.frame = some f)
    (hi : (codeArm f.routine)[f.pc]? = some i) (hx : i.execute word k f = some (k', .store x v)) :
    v ≠ 0 ∨ k'.Waking x := by
  have hregs := hok f hf
  rcases Instr.execute_store hx with ⟨hf', t, n, hop, rfl, rfl⟩
  rcases f with ⟨r, b, pc⟩
  rcases List.getElem?_eq_some_iff.1 hi with ⟨hpc, hi⟩
  cases r <;> simp only [codeArm, List.length_cons, List.length_nil] at hpc <;>
    interval_cases pc <;> simp only [codeArm, List.getElem_cons_zero, List.getElem_cons_succ] at hi <;>
    subst hi <;> simp at hop
  case lock.«4» =>
    obtain ⟨rfl, rfl⟩ := hop
    have hone : k.regs 2 = 1 := hregs.2.1 (by simp)
    simp [Core.read, wzr, hone]
  case tryLock.«5» =>
    obtain ⟨rfl, rfl⟩ := hop
    have hone : k.regs 2 = 1 := hregs.2.2.1 (by simp)
    simp [Core.read, wzr, hone]
  case unlock.«2» =>
    obtain ⟨rfl, rfl⟩ := hop
    have haddr : k.regs 0 = b := hregs.1
    simp [Core.Waking, Core.read, wzr, haddr, hf']

/-- A core that has released a lock sends the event. -/
theorem arm_waking (h : k.Waking a) (hf : k.frame = some f) (hi : (codeArm f.routine)[f.pc]? = some i)
    (hx : i.execute word k f = some (k', e)) : k'.Waking a ∨ (e = .event ∧ k'.event = true) := by
  rcases h with h | h <;> obtain rfl := Option.some.inj (hf.symm.trans h)
  · obtain rfl : i = ⟨.order, .al⟩ := (Option.some.inj hi).symm
    cases hx
    exact Or.inl (Or.inr rfl)
  · obtain rfl : i = ⟨.sev, .al⟩ := (Option.some.inj hi).symm
    cases hx
    exact Or.inr ⟨rfl, rfl⟩

/-- Events are kept but by the `wfe` that waits for them. -/
theorem Core.see_event (h : k.event = true) : (k.see A e).event = true := by
  cases e with
  | none => exact h
  | event => rfl
  | store x v =>
      simp only [Core.see]
      split
      · simp [h]
      · exact h

/-- What a step of the core `d` has to do with the core `c` that waits. -/
theorem Roused.apply (h : Roused m c a) (hevent : (m.core c).event = true → ((m.apply .arm d k e).core c).event = true)
    (hstore : ∀ x v, e = .store x v → v ≠ 0 ∨ k.Waking x)
    (hwaking : (m.core d).Waking a → k.Waking a ∨ (e = .event ∧ k.event = true)) :
    Roused (m.apply .arm d k e) c a := by
  rcases h with hev | hword | ⟨d', hd'⟩
  · exact Or.inl (hevent hev)
  · -- The lock variable is still taken, or has just been released.
    cases e with
    | none => exact Or.inr (Or.inl hword)
    | event => exact Or.inr (Or.inl hword)
    | store x v =>
        by_cases hx : a = x
        · subst hx
          rcases hstore a v rfl with hv | hw
          · refine Or.inr (Or.inl ?_)
            simpa [Effect.words] using hv
          · refine Or.inr (Or.inr ⟨d, ?_⟩)
            rwa [Machine.apply_core_self]
        · refine Or.inr (Or.inl ?_)
          simpa [Effect.words, Function.update_of_ne hx] using hword
  · by_cases hdd : d' = d
    · subst hdd
      rcases hwaking hd' with hw | ⟨rfl, hself⟩
      · refine Or.inr (Or.inr ⟨d', ?_⟩)
        rwa [Machine.apply_core_self]
      · -- The event reaches every core.
        refine Or.inl ?_
        by_cases hc : c = d'
        · rw [hc, Machine.apply_core_self]
          exact hself
        · rw [Machine.apply_core_ne hc]
          rfl
    · refine Or.inr (Or.inr ⟨d', ?_⟩)
      rw [Machine.apply_core_ne hdd, Core.Waking, Core.see_frame]
      exact hd'

/-! ## Every core that waits is woken -/

/-- What wakes the core `c`, if it is in `sync_spin_lock`. -/
def Awake (A : Arch) (m : Machine C) (c : C) : Prop :=
  ∀ a pc, (m.core c).frame = some ⟨.lock, a, pc⟩ →
    match A with
    | .aarch64 => AwakeAarch64 m.word (m.core c) a pc
    | .arm => AwakeArm m c a pc

theorem Awake.other_aarch64 (h : Awake .aarch64 m c) (hcd : c ≠ d) : Awake .aarch64 (m.apply .aarch64 d k e) c := by
  intro a pc hf
  rw [Machine.apply_core_ne hcd] at hf ⊢
  exact (h a pc (Core.see_frame.symm.trans hf)).see e

theorem awake_step_aarch64 (hinv : LockInv .aarch64 m) (h : ∀ c, Awake .aarch64 m c)
    (hstep : m.step .aarch64 (code .aarch64) d act = some m') (c : C) : Awake .aarch64 m' c := by
  rcases Machine.step_cases hstep with ⟨r, x, regs, k, -, hcall, rfl⟩ | ⟨f, i, k, e, -, hf, hi, hx, rfl⟩ |
    ⟨-, rfl⟩ | ⟨-, rfl⟩ <;> by_cases hcd : c = d
  · subst hcd
    intro a pc hf
    rw [Machine.apply_core_self] at hf
    rcases Core.call_eq_some.1 hcall with ⟨-, rfl⟩
    cases hf
    constructor <;> simp
  · exact (h c).other_aarch64 hcd
  · subst hcd
    intro a pc hf'
    rw [Machine.apply_core_self] at hf' ⊢
    rcases Instr.execute_frame hx with hnone | ⟨q, hq, -⟩
    · rw [hnone] at hf'
      cases hf'
    · obtain ⟨hr, ha, -⟩ := Frame.mk.inj (Option.some.inj (hq.symm.trans hf'))
      rcases f with ⟨r, b, q⟩
      subst hr ha
      exact (h c _ _ hf).execute (hinv.regs c _ hf) hi hx hf'
  · exact (h c).other_aarch64 hcd
  · subst hcd
    intro a pc _
    rw [Machine.apply_core_self]
    exact .of_event (by simp)
  · exact (h c).other_aarch64 hcd
  · subst hcd
    intro a pc _
    rw [Machine.apply_core_self]
    exact .of_event rfl
  · exact (h c).other_aarch64 hcd

/-- A step on ARM that leaves the routine and the registers of the core alone. -/
theorem Awake.apply_arm (h : Awake .arm m c)
    (hframe : ((m.apply .arm d k e).core c).frame = (m.core c).frame)
    (hregs : ((m.apply .arm d k e).core c).regs = (m.core c).regs)
    (hzero : ((m.apply .arm d k e).core c).zero = (m.core c).zero)
    (hevent : (m.core c).event = true → ((m.apply .arm d k e).core c).event = true)
    (hstore : ∀ x v, e = .store x v → v ≠ 0 ∨ k.Waking x)
    (hwaking : ∀ a, (m.core d).Waking a → k.Waking a ∨ (e = .event ∧ k.event = true)) :
    Awake .arm (m.apply .arm d k e) c := by
  intro a pc hf
  rw [hframe] at hf
  rcases h a pc hf with ⟨hloaded, hwaits⟩
  refine ⟨?_, ?_⟩
  · intro hpc hne
    rw [hregs] at hne
    exact (hloaded hpc hne).apply hevent hstore (hwaking a)
  · intro hpc hz
    rw [hzero] at hz
    exact (hwaits hpc hz).apply hevent hstore (hwaking a)

/-- Another core's step on ARM. -/
theorem Awake.other_arm (h : Awake .arm m c) (hcd : c ≠ d)
    (hstore : ∀ x v, e = .store x v → v ≠ 0 ∨ k.Waking x)
    (hwaking : ∀ a, (m.core d).Waking a → k.Waking a ∨ (e = .event ∧ k.event = true)) :
    Awake .arm (m.apply .arm d k e) c := by
  refine h.apply_arm ?_ ?_ ?_ ?_ hstore hwaking <;> rw [Machine.apply_core_ne hcd]
  · exact Core.see_frame
  · exact Core.see_regs
  · exact Core.see_zero
  · exact Core.see_event

/-- A reservation is lost or an event arrives on ARM. -/
theorem Awake.lose_arm (h : Awake .arm m c) (r : Option Nat) (b : Bool) (hb : (m.core d).event = true → b = true) :
    Awake .arm (m.apply .arm d { m.core d with reserved := r, event := b } .none) c := by
  by_cases hcd : c = d
  · subst hcd
    refine h.apply_arm ?_ ?_ ?_ ?_ (by simp) (fun a hw => Or.inl hw) <;> rw [Machine.apply_core_self]
    exact hb
  · exact h.other_arm hcd (by simp) (fun a hw => Or.inl hw)

omit [DecidableEq C] in
theorem AwakeArm.of_pc (h₂ : pc ≠ 2) (h₃ : pc ≠ 3) : AwakeArm m c a pc :=
  ⟨fun h => absurd h h₂, fun h => absurd h h₃⟩

/-- A line of `sync_spin_lock` on ARM. -/
theorem AwakeArm.execute (h : AwakeArm m c a pc) (hf : (m.core c).frame = some ⟨.lock, a, pc⟩)
    (hregs : RegsOk .arm .lock a pc (m.core c).regs (m.core c).zero) (hi : (codeArm .lock)[pc]? = some i)
    (hx : i.execute m.word (m.core c) ⟨.lock, a, pc⟩ = some (k, e)) {b q : Nat}
    (hf' : k.frame = some ⟨.lock, b, q⟩) : AwakeArm (m.apply .arm c k e) c b q := by
  have hq : q = pc + 1 ∨ i.op = .b q ∨ ∃ n, i.op = .cbnz n q := by
    rcases Instr.execute_frame hx with hnone | ⟨q', hq', hnext⟩
    · rw [hnone] at hf'
      cases hf'
    · obtain ⟨-, -, rfl⟩ := Frame.mk.inj (Option.some.inj (hq'.symm.trans hf'))
      exact hnext
  rcases List.getElem?_eq_some_iff.1 hi with ⟨hpc, hi⟩
  rcases hregs with ⟨haddr, -, -⟩
  simp only [codeArm, List.length_cons, List.length_nil] at hpc
  interval_cases pc <;> simp only [codeArm, List.getElem_cons_zero, List.getElem_cons_succ] at hi <;>
    subst hi
  case «1» =>
    cases hx
    cases hf'
    refine ⟨?_, by simp⟩
    intro _ hne
    refine Or.inr (Or.inl ?_)
    simpa [Core.next, Core.goto, Core.write, Core.read, wzr, haddr, Effect.words] using hne
  case «2» =>
    cases hx
    cases hf'
    refine ⟨by simp, ?_⟩
    intro _ hz
    have hne : (m.core c).regs 1 ≠ 0 := by simpa [Core.next, Core.goto, Core.read, wzr] using hz
    refine (h.loaded rfl hne).apply ?_ (by simp) ?_
    · simp [Core.next, Core.goto]
    · rintro (hw | hw) <;> rw [hf] at hw <;> cases hw
  all_goals
    -- The other lines are followed by neither of the two.
    simp at hq
    exact AwakeArm.of_pc (by omega) (by omega)

theorem awake_step_arm (hinv : LockInv .arm m) (h : ∀ c, Awake .arm m c)
    (hstep : m.step .arm (code .arm) d act = some m') (c : C) : Awake .arm m' c := by
  rcases Machine.step_cases hstep with ⟨r, x, regs, k, -, hcall, rfl⟩ | ⟨f, i, k, e, -, hf, hi, hx, rfl⟩ |
    ⟨-, rfl⟩ | ⟨-, rfl⟩
  · rcases Core.call_eq_some.1 hcall with ⟨⟨hidle, -⟩, rfl⟩
    by_cases hcd : c = d
    · subst hcd
      intro a pc hf
      rw [Machine.apply_core_self] at hf
      cases hf
      exact AwakeArm.of_pc (by decide) (by decide)
    · refine (h c).other_arm hcd (by simp) ?_
      rintro a (hw | hw) <;> rw [hidle] at hw <;> cases hw
  · by_cases hcd : c = d
    · subst hcd
      intro a pc hf'
      rw [Machine.apply_core_self] at hf'
      rcases Instr.execute_frame hx with hnone | ⟨q, hq, -⟩
      · rw [hnone] at hf'
        cases hf'
      · obtain ⟨hr, ha, -⟩ := Frame.mk.inj (Option.some.inj (hq.symm.trans hf'))
        rcases f with ⟨r, b, q⟩
        subst hr ha
        exact (h c _ _ hf).execute hf (hinv.regs c _ hf) hi hx hf'
    · refine (h c).other_arm hcd ?_ ?_
      · rintro x v rfl
        exact arm_store_zero (hinv.regs d) hf hi hx
      · intro a hw
        exact arm_waking hw hf hi hx
  · exact (h c).lose_arm _ _ (by simp)
  · exact (h c).lose_arm _ _ (by simp)

theorem awake_run {regs : C → Nat → Nat} (h : Reaches A (code A) (Machine.start regs) m) (c : C) :
    LockInv A m ∧ Awake A m c := by
  have hall : LockInv A m ∧ ∀ c, Awake A m c := by
    induction h with
    | refl =>
        refine ⟨LockInv.start regs, ?_⟩
        intro c a pc hf
        cases hf
    | tail _ hlast ih =>
        rcases hlast with ⟨d, act, hstep⟩
        refine ⟨ih.1.step hstep, ?_⟩
        cases A with
        | aarch64 => exact awake_step_aarch64 ih.1 ih.2 hstep
        | arm => exact awake_step_arm ih.1 ih.2 hstep
  exact ⟨hall.1, hall.2 c⟩


/-- The lines of the routines follow each other up to the return. -/
theorem code_next {r : Routine} (hi : (code A r)[pc]? = some i) :
    i = ⟨.ret, .al⟩ ∨ (pc + 1 < (code A r).length ∧ i.op ≠ .ret) := by
  rcases List.getElem?_eq_some_iff.1 hi with ⟨hpc, hi⟩
  cases A <;> cases r <;> simp only [code, codeAarch64, codeArm, List.length_cons, List.length_nil] at hpc ⊢ <;>
    interval_cases pc <;> simp [code, codeAarch64, codeArm] at hi <;> subst hi <;> decide

theorem code_target {r : Routine} {t : Nat} (hi : (code A r)[pc]? = some i)
    (ht : i.op = .b t ∨ ∃ n, i.op = .cbnz n t) : t < (code A r).length := by
  rcases List.getElem?_eq_some_iff.1 hi with ⟨hpc, hi⟩
  cases A <;> cases r <;> simp only [code, codeAarch64, codeArm, List.length_cons, List.length_nil] at hpc ⊢ <;>
    interval_cases pc <;> simp [code, codeAarch64, codeArm] at hi <;> subst hi <;> simp at ht <;> omega

/-- A core in a routine is at one of its lines. -/
def InCode (A : Arch) (m : Machine C) : Prop :=
  ∀ c f, (m.core c).frame = some f → f.pc < (code A f.routine).length

theorem InCode.step (h : InCode A m) (hstep : m.step A (code A) d act = some m') : InCode A m' := by
  have hother : ∀ k e, (∀ f, k.frame = some f → f.pc < (code A f.routine).length) →
      InCode A (m.apply A d k e) := by
    intro k e hk c f hf
    by_cases hcd : c = d
    · rw [hcd, Machine.apply_core_self] at hf
      exact hk f hf
    · rw [Machine.apply_core_ne hcd, Core.see_frame] at hf
      exact h c f hf
  rcases Machine.step_cases hstep with ⟨r, x, regs, k, -, hcall, rfl⟩ | ⟨f, i, k, e, -, hf, hi, hx, rfl⟩ |
    ⟨-, rfl⟩ | ⟨-, rfl⟩
  · rcases Core.call_eq_some.1 hcall with ⟨-, rfl⟩
    refine hother _ _ ?_
    intro f hf
    cases hf
    cases A <;> cases r <;> simp [code, codeAarch64, codeArm]
  · refine hother _ _ ?_
    intro f' hf'
    rcases Instr.execute_frame hx with hnone | ⟨q, hq, hnext⟩
    · rw [hnone] at hf'
      cases hf'
    · obtain rfl := Option.some.inj (hq.symm.trans hf')
      rcases hnext with rfl | htarget
      · rcases code_next hi with rfl | ⟨hlt, -⟩
        · cases hx
          cases hq
        · exact hlt
      · exact code_target hi htarget
  · exact hother _ _ (h d)
  · exact hother _ _ (h d)

theorem InCode.run {regs : C → Nat → Nat} (h : Reaches A (code A) (Machine.start regs) m) : InCode A m := by
  induction h with
  | refl =>
      intro c f hf
      cases hf
  | tail _ hlast ih =>
      rcases hlast with ⟨d, act, hstep⟩
      exact ih.step hstep

/-- Only a `wfe` without an event stops a core. -/
theorem Instr.execute_eq_none (h : i.execute word k f = none) :
    i.op = .wfe ∧ k.meets i.cond = true ∧ k.event = false := by
  unfold Instr.execute at h
  split at h
  · rename_i hmeets
    rcases i with ⟨op, cond⟩
    cases op with
    | wfe =>
        refine ⟨rfl, hmeets, ?_⟩
        by_contra hev
        simp [Op.execute, hev] at h
    | strex s t n | cbnz n t =>
        simp only [Op.execute] at h
        split at h <;> cases h
    | _ => cases h
  · cases h

/-- `sync_spin_lock` waits at one line, on ARM if the lock was taken. -/
theorem wfe_line (hi : (code A .lock)[pc]? = some i) (hop : i.op = .wfe) :
    pc = 3 ∧ (A = .arm → i.cond = .ne) := by
  rcases List.getElem?_eq_some_iff.1 hi with ⟨hpc, hi⟩
  cases A <;> simp only [code, codeAarch64, codeArm, List.length_cons, List.length_nil] at hpc <;>
    interval_cases pc <;> simp [code, codeAarch64, codeArm] at hi <;> subst hi <;> simp at hop ⊢

/-- No core sleeps in `sync_spin_lock` while the lock is free: in every state of every run, it can go on, or,
on ARM, another core has just released the lock and is going to send the event. -/
theorem spin_lock_wakes {regs : C → Nat → Nat} (h : Reaches A (code A) (Machine.start regs) m)
    (hf : (m.core c).frame = some ⟨.lock, a, pc⟩) (hfree : m.word a = 0) :
    (∃ m', m.step A (code A) c .exec = some m') ∨ (A = .arm ∧ ∃ d, (m.core d).Waking a) := by
  rcases awake_run h c with ⟨-, hawake⟩
  obtain ⟨i, hi⟩ : ∃ i, (code A .lock)[pc]? = some i := ⟨_, List.getElem?_eq_getElem (InCode.run h c _ hf)⟩
  cases hx : i.execute m.word (m.core c) ⟨.lock, a, pc⟩ with
  | some p =>
      refine Or.inl ⟨m.apply A c p.1 p.2, ?_⟩
      simp [Machine.step, hf, hi, hx]
  | none =>
      rcases Instr.execute_eq_none hx with ⟨hop, hmeets, hev⟩
      rcases wfe_line hi hop with ⟨rfl, hcond⟩
      cases A with
      | aarch64 =>
          rcases (hawake a 3 hf).waits rfl with hev' | ⟨-, hne⟩
          · exact absurd hev' (by simp [hev])
          · exact absurd hfree hne
      | arm =>
          rw [hcond rfl] at hmeets
          have hz : (m.core c).zero = false := by simpa [Core.meets] using hmeets
          rcases (hawake a 3 hf).waits rfl hz with hev' | hne | hw
          · exact absurd hev' (by simp [hev])
          · exact absurd hfree hne
          · exact Or.inr ⟨rfl, hw⟩

/-- On ARM, a core finds a lock taken and goes to sleep, and the owner releases it up to its store. -/
def released : List (Bool × Action) :=
  List.flatten [
    [(false, .call .lock 64 fun _ => 7)], List.replicate 9 (false, .exec),
    [(true, .call .lock 64 fun _ => 9)], List.replicate 3 (true, .exec),
    [(false, .call .unlock 64 fun _ => 5)], List.replicate 3 (false, .exec)]

theorem spin_lock_wakes_released :
    ∃ m, trace .arm (code .arm) (Machine.start fun _ _ => 0) released = some m ∧
      m.word 64 = 0 ∧ (m.step .arm (code .arm) true .exec).isNone ∧ ∃ d, (m.core d).Waking 64 := by
  have hrun : (trace .arm (code .arm) (Machine.start fun _ _ => 0) released).any
      (fun m => decide ((m.core true).frame = some ⟨.lock, 64, 3⟩ ∧ m.word 64 = 0 ∧
        (m.step .arm (code .arm) true .exec).isNone)) = true := by decide +kernel
  rcases (Option.any_eq_true _ _).1 hrun with ⟨m, htrace, hm⟩
  rcases of_decide_eq_true hm with ⟨hf, hfree, hnone⟩
  refine ⟨m, htrace, hfree, hnone, ?_⟩
  rcases spin_lock_wakes (reaches_of_trace htrace) hf hfree with ⟨m', hstep⟩ | ⟨-, hw⟩
  · rw [hstep] at hnone
    cases hnone
  · exact hw

/-! ## A free lock is taken -/

/-- After at most `n` instructions of its own, the core `c` holds a guard of the lock. -/
def Finishes (A : Arch) (m : Machine C) (c : C) (a n : Nat) : Prop :=
  ∃ own ≤ n, ∃ m', trace A (code A) m (List.replicate own (c, .exec)) = some m' ∧ a ∈ (m'.core c).guards

theorem Finishes.mono {n' : Nat} (h : Finishes A m c a n) (hn : n ≤ n') : Finishes A m c a n' := by
  rcases h with ⟨own, hown, hrun⟩
  exact ⟨own, hown.trans hn, hrun⟩

theorem step_exec (hf : (m.core d).frame = some f) (hi : (code A f.routine)[f.pc]? = some i)
    (hx : i.execute m.word (m.core d) f = some (k, e)) : m.step A (code A) d .exec = some (m.apply A d k e) := by
  simp [Machine.step, hf, hi, hx]

/-- An instruction of the core, and then the rest. -/
theorem Finishes.exec (h : Finishes A (m.apply A c k e) c a n) (hf : (m.core c).frame = some f)
    (hi : (code A f.routine)[f.pc]? = some i) (hx : i.execute m.word (m.core c) f = some (k, e)) :
    Finishes A m c a (n + 1) := by
  rcases h with ⟨own, hown, m', hrun, hguard⟩
  refine ⟨own + 1, Nat.succ_le_succ hown, m', ?_, hguard⟩
  simp only [List.replicate_succ, trace, step_exec hf hi hx]
  exact hrun

/-! ### AArch64 -/

theorem finishes_aarch64_ret (hf : (m.core c).frame = some ⟨.lock, a, 8⟩) : Finishes .aarch64 m c a 1 := by
  refine Finishes.exec (n := 0) ⟨0, Nat.le_refl 0, _, rfl, ?_⟩ hf rfl rfl
  simp [Core.leave, Core.granted]

theorem finishes_aarch64_stored (hf : (m.core c).frame = some ⟨.lock, a, 7⟩) (hw : (m.core c).regs 9 = 0) :
    Finishes .aarch64 m c a 2 := by
  have hx : (Op.cbnz 9 3).execute m.word (m.core c) ⟨.lock, a, 7⟩ = some ((m.core c).next ⟨.lock, a, 7⟩, .none) := by
    simp [Op.execute, Core.read, wzr, hw]
  exact (finishes_aarch64_ret (by simp [Core.next, Core.goto])).exec hf rfl hx

theorem finishes_aarch64_store (hf : (m.core c).frame = some ⟨.lock, a, 6⟩) (haddr : (m.core c).regs 0 = a)
    (hres : (m.core c).reserved = some a) : Finishes .aarch64 m c a 3 := by
  have hx : ∃ e, (Op.strex 9 10 0).execute m.word (m.core c) ⟨.lock, a, 6⟩ =
      some (({ m.core c with reserved := none }.write 9 0).next ⟨.lock, a, 6⟩, e) := by
    simp [Op.execute, Core.read, wzr, haddr, hres]
  rcases hx with ⟨e, hx⟩
  refine (finishes_aarch64_stored ?_ ?_).exec hf rfl hx <;> simp [Core.next, Core.goto, Core.write]

theorem finishes_aarch64_loaded (hf : (m.core c).frame = some ⟨.lock, a, 5⟩) (haddr : (m.core c).regs 0 = a)
    (hw : (m.core c).regs 9 = 0) (hres : (m.core c).reserved = some a) : Finishes .aarch64 m c a 4 := by
  have hx : (Op.cbnz 9 3).execute m.word (m.core c) ⟨.lock, a, 5⟩ = some ((m.core c).next ⟨.lock, a, 5⟩, .none) := by
    simp [Op.execute, Core.read, wzr, hw]
  refine (finishes_aarch64_store ?_ ?_ ?_).exec hf rfl hx <;> simp [Core.next, Core.goto, haddr, hres]

theorem finishes_aarch64_load (hf : (m.core c).frame = some ⟨.lock, a, 4⟩) (haddr : (m.core c).regs 0 = a)
    (hfree : m.word a = 0) : Finishes .aarch64 m c a 5 := by
  refine (finishes_aarch64_loaded ?_ ?_ ?_ ?_).exec hf rfl rfl <;>
    simp [Core.next, Core.goto, Core.write, Core.read, wzr, haddr, hfree]

theorem finishes_aarch64_wait (hf : (m.core c).frame = some ⟨.lock, a, 3⟩) (haddr : (m.core c).regs 0 = a)
    (hfree : m.word a = 0) (hev : (m.core c).event = true) : Finishes .aarch64 m c a 6 := by
  have hx : Op.wfe.execute m.word (m.core c) ⟨.lock, a, 3⟩ =
      some ({ m.core c with event := false }.next ⟨.lock, a, 3⟩, .none) := if_pos hev
  refine (finishes_aarch64_load ?_ ?_ ?_).exec hf rfl hx <;> simp [Core.next, Core.goto, haddr, hfree, Effect.words]

/-- A core whose exclusive store has failed tries again. -/
theorem finishes_aarch64_failed (hf : (m.core c).frame = some ⟨.lock, a, 7⟩) (haddr : (m.core c).regs 0 = a)
    (hfree : m.word a = 0) (hw : (m.core c).regs 9 ≠ 0) (hev : (m.core c).event = true) :
    Finishes .aarch64 m c a 7 := by
  have hx : (Op.cbnz 9 3).execute m.word (m.core c) ⟨.lock, a, 7⟩ = some ((m.core c).goto ⟨.lock, a, 7⟩ 3, .none) := by
    simp [Op.execute, Core.read, wzr, hw]
  refine (finishes_aarch64_wait ?_ ?_ ?_ ?_).exec hf rfl hx <;> simp [Core.goto, haddr, hfree, hev, Effect.words]

theorem finishes_aarch64_storing (hf : (m.core c).frame = some ⟨.lock, a, 6⟩) (haddr : (m.core c).regs 0 = a)
    (hfree : m.word a = 0) (h : (m.core c).event = true ∨ (m.core c).reserved = some a) :
    Finishes .aarch64 m c a 8 := by
  by_cases hres : (m.core c).reserved = some a
  · exact (finishes_aarch64_store hf haddr hres).mono (by decide)
  · have hx : (Op.strex 9 10 0).execute m.word (m.core c) ⟨.lock, a, 6⟩ =
        some (({ m.core c with reserved := none }.write 9 1).next ⟨.lock, a, 6⟩, .none) := by
      simp [Op.execute, Core.read, wzr, haddr, hres]
    refine (finishes_aarch64_failed ?_ ?_ ?_ ?_ ?_).exec hf rfl hx <;>
      simp [Core.next, Core.goto, Core.write, haddr, hfree, h.resolve_right hres, Effect.words]

theorem finishes_aarch64_loading (hf : (m.core c).frame = some ⟨.lock, a, 5⟩) (haddr : (m.core c).regs 0 = a)
    (hfree : m.word a = 0)
    (h : (m.core c).event = true ∨ ((m.core c).reserved = some a ∧ m.word a = (m.core c).regs 9)) :
    Finishes .aarch64 m c a 9 := by
  by_cases hw : (m.core c).regs 9 = 0
  · have hx : (Op.cbnz 9 3).execute m.word (m.core c) ⟨.lock, a, 5⟩ =
        some ((m.core c).next ⟨.lock, a, 5⟩, .none) := by
      simp [Op.execute, Core.read, wzr, hw]
    refine (finishes_aarch64_storing ?_ ?_ ?_ ?_).exec hf rfl hx
    · simp [Core.next, Core.goto]
    · simp [Core.next, Core.goto, haddr]
    · simp [Effect.words, hfree]
    · rw [Machine.apply_core_self]
      exact h.imp_right And.left
  · have hev : (m.core c).event = true := by
      rcases h with hev | ⟨-, hword⟩
      · exact hev
      · exact absurd (hword.symm.trans hfree) hw
    have hx : (Op.cbnz 9 3).execute m.word (m.core c) ⟨.lock, a, 5⟩ =
        some ((m.core c).goto ⟨.lock, a, 5⟩ 3, .none) := by
      simp [Op.execute, Core.read, wzr, hw]
    refine ((finishes_aarch64_wait ?_ ?_ ?_ ?_).exec hf rfl hx).mono (by decide) <;>
      simp [Core.goto, haddr, hfree, hev, Effect.words]

theorem finishes_aarch64_prefetch (hf : (m.core c).frame = some ⟨.lock, a, 2⟩) (haddr : (m.core c).regs 0 = a)
    (hfree : m.word a = 0) (hev : (m.core c).event = true) : Finishes .aarch64 m c a 7 := by
  refine (finishes_aarch64_wait ?_ ?_ ?_ ?_).exec hf rfl rfl <;>
    simp [Core.next, Core.goto, haddr, hfree, hev, Effect.words]

theorem finishes_aarch64_sevl (hf : (m.core c).frame = some ⟨.lock, a, 1⟩) (haddr : (m.core c).regs 0 = a)
    (hfree : m.word a = 0) : Finishes .aarch64 m c a 8 := by
  refine (finishes_aarch64_prefetch ?_ ?_ ?_ ?_).exec hf rfl rfl <;>
    simp [Core.next, Core.goto, haddr, hfree, Effect.words]

theorem finishes_aarch64_enter (hf : (m.core c).frame = some ⟨.lock, a, 0⟩) (haddr : (m.core c).regs 0 = a)
    (hfree : m.word a = 0) : Finishes .aarch64 m c a 9 := by
  refine (finishes_aarch64_sevl ?_ ?_ ?_).exec hf rfl rfl <;>
    simp [Core.next, Core.goto, Core.write, haddr, hfree, Effect.words]

/-- From any line of `sync_spin_lock`. -/
theorem finishes_aarch64 (hf : (m.core c).frame = some ⟨.lock, a, pc⟩) (hpc : pc < (code .aarch64 .lock).length)
    (hregs : RegsOk .aarch64 .lock a pc (m.core c).regs (m.core c).zero)
    (h : AwakeAarch64 m.word (m.core c) a pc) (hfree : m.word a = 0) : Finishes .aarch64 m c a 9 := by
  rcases hregs with ⟨haddr, -⟩
  simp only [code, codeAarch64, List.length_cons, List.length_nil] at hpc
  interval_cases pc
  case «0» => exact finishes_aarch64_enter hf haddr hfree
  case «1» => exact (finishes_aarch64_sevl hf haddr hfree).mono (by decide)
  case «2» => exact (finishes_aarch64_prefetch hf haddr hfree (h.prefetch rfl)).mono (by decide)
  case «3» =>
    have hev : (m.core c).event = true := (h.waits rfl).resolve_right fun hw => hw.2 hfree
    exact (finishes_aarch64_wait hf haddr hfree hev).mono (by decide)
  case «4» => exact (finishes_aarch64_load hf haddr hfree).mono (by decide)
  case «5» => exact finishes_aarch64_loading hf haddr hfree (h.loaded rfl)
  case «6» => exact (finishes_aarch64_storing hf haddr hfree (h.stores rfl)).mono (by decide)
  case «7» =>
    by_cases hw : (m.core c).regs 9 = 0
    · exact (finishes_aarch64_stored hf hw).mono (by decide)
    · exact (finishes_aarch64_failed hf haddr hfree hw (h.stored rfl hw)).mono (by decide)
  case «8» => exact (finishes_aarch64_ret hf).mono (by decide)

/-! ### ARM -/

theorem finishes_arm_ret (hf : (m.core c).frame = some ⟨.lock, a, 8⟩) : Finishes .arm m c a 1 := by
  refine Finishes.exec (n := 0) ⟨0, Nat.le_refl 0, _, rfl, ?_⟩ hf rfl rfl
  simp [Core.leave, Core.granted]

theorem finishes_arm_dmb (hf : (m.core c).frame = some ⟨.lock, a, 7⟩) : Finishes .arm m c a 2 :=
  (finishes_arm_ret (by simp [Core.next, Core.goto])).exec hf rfl rfl

theorem finishes_arm_stored (hf : (m.core c).frame = some ⟨.lock, a, 6⟩) (hz : (m.core c).zero = true) :
    Finishes .arm m c a 3 := by
  have hx : Instr.execute m.word (m.core c) ⟨.lock, a, 6⟩ ⟨.b 1, .ne⟩ =
      some ((m.core c).next ⟨.lock, a, 6⟩, .none) := by
    simp [Instr.execute, Core.meets, hz]
  exact (finishes_arm_dmb (by simp [Core.next, Core.goto])).exec hf rfl hx

theorem finishes_arm_status (hf : (m.core c).frame = some ⟨.lock, a, 5⟩) (hz : (m.core c).zero = true)
    (hw : (m.core c).regs 1 = 0) : Finishes .arm m c a 4 := by
  have hx : Instr.execute m.word (m.core c) ⟨.lock, a, 5⟩ ⟨.cmp 1 0, .eq⟩ =
      some ({ m.core c with zero := true }.next ⟨.lock, a, 5⟩, .none) := by
    simp [Instr.execute, Core.meets, hz, Op.execute, Core.read, wzr, hw]
  refine (finishes_arm_stored ?_ ?_).exec hf rfl hx <;> simp [Core.next, Core.goto]

theorem finishes_arm_store (hf : (m.core c).frame = some ⟨.lock, a, 4⟩) (haddr : (m.core c).regs 0 = a)
    (hz : (m.core c).zero = true) (hres : (m.core c).reserved = some a) : Finishes .arm m c a 5 := by
  have hx : ∃ e, Instr.execute m.word (m.core c) ⟨.lock, a, 4⟩ ⟨.strex 1 2 0, .eq⟩ =
      some (({ m.core c with reserved := none }.write 1 0).next ⟨.lock, a, 4⟩, e) := by
    simp [Instr.execute, Core.meets, hz, Op.execute, Core.read, wzr, haddr, hres]
  rcases hx with ⟨e, hx⟩
  refine (finishes_arm_status ?_ ?_ ?_).exec hf rfl hx <;> simp [Core.next, Core.goto, Core.write, hz]

theorem finishes_arm_pass (hf : (m.core c).frame = some ⟨.lock, a, 3⟩) (haddr : (m.core c).regs 0 = a)
    (hz : (m.core c).zero = true) (hres : (m.core c).reserved = some a) : Finishes .arm m c a 6 := by
  have hx : Instr.execute m.word (m.core c) ⟨.lock, a, 3⟩ ⟨.wfe, .ne⟩ =
      some ((m.core c).next ⟨.lock, a, 3⟩, .none) := by
    simp [Instr.execute, Core.meets, hz]
  refine (finishes_arm_store ?_ ?_ ?_ ?_).exec hf rfl hx <;> simp [Core.next, Core.goto, haddr, hz, hres]

theorem finishes_arm_loaded (hf : (m.core c).frame = some ⟨.lock, a, 2⟩) (haddr : (m.core c).regs 0 = a)
    (hw : (m.core c).regs 1 = 0) (hres : (m.core c).reserved = some a) : Finishes .arm m c a 7 := by
  refine (finishes_arm_pass ?_ ?_ ?_ ?_).exec hf rfl rfl <;>
    simp [Core.next, Core.goto, Core.read, wzr, haddr, hw, hres]

theorem finishes_arm_load (hf : (m.core c).frame = some ⟨.lock, a, 1⟩) (haddr : (m.core c).regs 0 = a)
    (hfree : m.word a = 0) : Finishes .arm m c a 8 := by
  refine (finishes_arm_loaded ?_ ?_ ?_ ?_).exec hf rfl rfl <;>
    simp [Core.next, Core.goto, Core.write, Core.read, wzr, haddr, hfree]

theorem finishes_arm_enter (hf : (m.core c).frame = some ⟨.lock, a, 0⟩) (haddr : (m.core c).regs 0 = a)
    (hfree : m.word a = 0) : Finishes .arm m c a 9 := by
  refine (finishes_arm_load ?_ ?_ ?_).exec hf rfl rfl <;>
    simp [Core.next, Core.goto, Core.write, haddr, hfree, Effect.words]

/-- A core that has not got the lock tries again. -/
theorem finishes_arm_again (hf : (m.core c).frame = some ⟨.lock, a, 6⟩) (haddr : (m.core c).regs 0 = a)
    (hfree : m.word a = 0) : Finishes .arm m c a 9 := by
  by_cases hz : (m.core c).zero = true
  · exact (finishes_arm_stored hf hz).mono (by decide)
  · have hx : Instr.execute m.word (m.core c) ⟨.lock, a, 6⟩ ⟨.b 1, .ne⟩ =
        some ((m.core c).goto ⟨.lock, a, 6⟩ 1, .none) := by
      simp [Instr.execute, Core.meets, hz, Op.execute]
    refine (finishes_arm_load ?_ ?_ ?_).exec hf rfl hx <;> simp [Core.goto, haddr, hfree, Effect.words]

theorem finishes_arm_checking (hf : (m.core c).frame = some ⟨.lock, a, 5⟩) (haddr : (m.core c).regs 0 = a)
    (hfree : m.word a = 0) : Finishes .arm m c a 10 := by
  by_cases hz : (m.core c).zero = true
  · have hx : Instr.execute m.word (m.core c) ⟨.lock, a, 5⟩ ⟨.cmp 1 0, .eq⟩ =
        some ({ m.core c with zero := (m.core c).read 1 = 0 }.next ⟨.lock, a, 5⟩, .none) := by
      simp [Instr.execute, Core.meets, hz, Op.execute]
    refine (finishes_arm_again ?_ ?_ ?_).exec hf rfl hx <;> simp [Core.next, Core.goto, haddr, hfree, Effect.words]
  · have hx : Instr.execute m.word (m.core c) ⟨.lock, a, 5⟩ ⟨.cmp 1 0, .eq⟩ =
        some ((m.core c).next ⟨.lock, a, 5⟩, .none) := by
      simp [Instr.execute, Core.meets, hz]
    refine (finishes_arm_again ?_ ?_ ?_).exec hf rfl hx <;> simp [Core.next, Core.goto, haddr, hfree, Effect.words]

theorem finishes_arm_storing (hf : (m.core c).frame = some ⟨.lock, a, 4⟩) (haddr : (m.core c).regs 0 = a)
    (hfree : m.word a = 0) : Finishes .arm m c a 11 := by
  by_cases hz : (m.core c).zero = true
  · by_cases hres : (m.core c).reserved = some a
    · exact (finishes_arm_store hf haddr hz hres).mono (by decide)
    · have hx : Instr.execute m.word (m.core c) ⟨.lock, a, 4⟩ ⟨.strex 1 2 0, .eq⟩ =
          some (({ m.core c with reserved := none }.write 1 1).next ⟨.lock, a, 4⟩, .none) := by
        simp [Instr.execute, Core.meets, hz, Op.execute, Core.read, wzr, haddr, hres]
      refine (finishes_arm_checking ?_ ?_ ?_).exec hf rfl hx <;>
        simp [Core.next, Core.goto, Core.write, haddr, hfree, Effect.words]
  · have hx : Instr.execute m.word (m.core c) ⟨.lock, a, 4⟩ ⟨.strex 1 2 0, .eq⟩ =
        some ((m.core c).next ⟨.lock, a, 4⟩, .none) := by
      simp [Instr.execute, Core.meets, hz]
    refine (finishes_arm_checking ?_ ?_ ?_).exec hf rfl hx <;> simp [Core.next, Core.goto, haddr, hfree, Effect.words]

theorem finishes_arm_waiting (hf : (m.core c).frame = some ⟨.lock, a, 3⟩) (haddr : (m.core c).regs 0 = a)
    (hfree : m.word a = 0) (h : (m.core c).zero = false → (m.core c).event = true) : Finishes .arm m c a 12 := by
  by_cases hz : (m.core c).zero = true
  · have hx : Instr.execute m.word (m.core c) ⟨.lock, a, 3⟩ ⟨.wfe, .ne⟩ =
        some ((m.core c).next ⟨.lock, a, 3⟩, .none) := by
      simp [Instr.execute, Core.meets, hz]
    refine (finishes_arm_storing ?_ ?_ ?_).exec hf rfl hx <;> simp [Core.next, Core.goto, haddr, hfree, Effect.words]
  · have hz : (m.core c).zero = false := by simpa using hz
    have hx : Instr.execute m.word (m.core c) ⟨.lock, a, 3⟩ ⟨.wfe, .ne⟩ =
        some ({ m.core c with event := false }.next ⟨.lock, a, 3⟩, .none) := by
      simp [Instr.execute, Core.meets, Op.execute, hz, h hz]
    refine (finishes_arm_storing ?_ ?_ ?_).exec hf rfl hx <;> simp [Core.next, Core.goto, haddr, hfree, Effect.words]

theorem finishes_arm_loading (hf : (m.core c).frame = some ⟨.lock, a, 2⟩) (haddr : (m.core c).regs 0 = a)
    (hfree : m.word a = 0) (h : (m.core c).regs 1 ≠ 0 → (m.core c).event = true) : Finishes .arm m c a 13 := by
  refine (finishes_arm_waiting ?_ ?_ ?_ ?_).exec hf rfl rfl
  · simp [Core.next, Core.goto]
  · simp [Core.next, Core.goto, haddr]
  · simp [Effect.words, hfree]
  · rw [Machine.apply_core_self]
    intro hz
    exact h (by simpa [Core.next, Core.goto, Core.read, wzr] using hz)

/-- From any line of `sync_spin_lock`, if a core that has found the lock taken has its event. -/
theorem finishes_arm (hf : (m.core c).frame = some ⟨.lock, a, pc⟩) (hpc : pc < (code .arm .lock).length)
    (hregs : RegsOk .arm .lock a pc (m.core c).regs (m.core c).zero) (hfree : m.word a = 0)
    (hloaded : pc = 2 → (m.core c).regs 1 ≠ 0 → (m.core c).event = true)
    (hwaits : pc = 3 → (m.core c).zero = false → (m.core c).event = true) : Finishes .arm m c a 13 := by
  rcases hregs with ⟨haddr, -⟩
  simp only [code, codeArm, List.length_cons, List.length_nil] at hpc
  interval_cases pc
  case «0» => exact (finishes_arm_enter hf haddr hfree).mono (by decide)
  case «1» => exact (finishes_arm_load hf haddr hfree).mono (by decide)
  case «2» => exact finishes_arm_loading hf haddr hfree (hloaded rfl)
  case «3» => exact (finishes_arm_waiting hf haddr hfree (hwaits rfl)).mono (by decide)
  case «4» => exact (finishes_arm_storing hf haddr hfree).mono (by decide)
  case «5» => exact (finishes_arm_checking hf haddr hfree).mono (by decide)
  case «6» => exact (finishes_arm_again hf haddr hfree).mono (by decide)
  case «7» => exact (finishes_arm_dmb hf).mono (by decide)
  case «8» => exact (finishes_arm_ret hf).mono (by decide)

/-- The core that has released the lock sends the event, which takes it two instructions at most. -/
theorem finishes_arm_waking (hf : (m.core c).frame = some ⟨.lock, a, pc⟩) (hpc : pc < (code .arm .lock).length)
    (hregs : RegsOk .arm .lock a pc (m.core c).regs (m.core c).zero) (hfree : m.word a = 0)
    (hw : (m.core d).Waking a) :
    ∃ other ≤ 2, ∃ m', trace .arm (code .arm) m (List.replicate other (d, .exec)) = some m' ∧
      Finishes .arm m' c a 13 := by
  have hcd : c ≠ d := by
    rintro rfl
    rcases hw with hw | hw <;> rw [hf] at hw <;> cases hw
  -- The `sev` gives an event to every core.
  have hsev : ∀ {m : Machine C}, (m.core c).frame = some ⟨.lock, a, pc⟩ →
      RegsOk .arm .lock a pc (m.core c).regs (m.core c).zero → m.word a = 0 →
      (m.core d).frame = some ⟨.unlock, a, 4⟩ →
      ∃ m', m.step .arm (code .arm) d .exec = some m' ∧ Finishes .arm m' c a 13 := by
    intro m hf hregs hfree hd
    refine ⟨_, step_exec hd rfl rfl, finishes_arm ?_ hpc ?_ ?_ ?_ ?_⟩
    · rw [Machine.apply_core_ne hcd, Core.see_frame, hf]
    · rwa [Machine.apply_core_ne hcd, Core.see_regs, Core.see_zero]
    · simpa [Effect.words] using hfree
    · rw [Machine.apply_core_ne hcd]
      exact fun _ _ => rfl
    · rw [Machine.apply_core_ne hcd]
      exact fun _ _ => rfl
  rcases hw with hw | hw
  · have hfirst : m.step .arm (code .arm) d .exec =
        some (m.apply .arm d ((m.core d).next ⟨.unlock, a, 3⟩) .none) := step_exec hw rfl rfl
    have hsecond := hsev (m := m.apply .arm d ((m.core d).next ⟨.unlock, a, 3⟩) .none)
      (by rw [Machine.apply_core_ne hcd, Core.see_frame, hf])
      (by rwa [Machine.apply_core_ne hcd, Core.see_regs, Core.see_zero])
      (by simpa [Effect.words] using hfree) (by simp [Core.next, Core.goto])
    rcases hsecond with ⟨m', hstep, hfin⟩
    refine ⟨2, le_rfl, m', ?_, hfin⟩
    simp only [List.replicate_succ, List.replicate_zero, trace, hfirst]
    exact congrArg (fun s => s.bind some) hstep
  · rcases hsev hf hregs hfree hw with ⟨m', hstep, hfin⟩
    refine ⟨1, by decide, m', ?_, hfin⟩
    simp only [List.replicate_succ, List.replicate_zero, trace, hstep]
    rfl

/-- From every state that the cores reach, a core in `sync_spin_lock` gets a lock that is free by instructions of its
own, fifteen at most together with those that come first on ARM: a core that has just released the lock has at most
two left until it sends the event. -/
theorem spin_lock_finishes {regs : C → Nat → Nat} (h : Reaches A (code A) (Machine.start regs) m)
    (hf : (m.core c).frame = some ⟨.lock, a, pc⟩) (hfree : m.word a = 0) :
    ∃ d other own, other + own ≤ 15 ∧ (other = 0 ∨ A = .arm ∧ (m.core d).Waking a ∧ other ≤ 2) ∧
      ∃ m', trace A (code A) m (List.replicate other (d, .exec) ++ List.replicate own (c, .exec)) = some m' ∧
        a ∈ (m'.core c).guards := by
  rcases awake_run h c with ⟨hinv, hawake⟩
  have hpc := InCode.run h c _ hf
  have hregs := hinv.regs c _ hf
  cases A with
  | aarch64 =>
      rcases (finishes_aarch64 hf hpc hregs (hawake a pc hf) hfree).mono (show _ ≤ 15 by decide)
        with ⟨own, hown, m', hrun, hguard⟩
      exact ⟨c, 0, own, by omega, Or.inl rfl, m', hrun, hguard⟩
  | arm =>
      by_cases hwaking : ∃ d, (m.core d).Waking a
      · rcases hwaking with ⟨d, hw⟩
        rcases finishes_arm_waking hf hpc hregs hfree hw with ⟨other, hother, m₁, hfirst, own, hown, m', hrun, hguard⟩
        exact ⟨d, other, own, by omega, Or.inr ⟨rfl, hw, hother⟩, m', (trace_append hfirst).trans hrun, hguard⟩
      · have hevent : Roused m c a → (m.core c).event = true := by
          rintro (hev | hne | hw)
          · exact hev
          · exact absurd hfree hne
          · exact absurd hw hwaking
        rcases finishes_arm hf hpc hregs hfree (fun hpc hne => hevent ((hawake a pc hf).loaded hpc hne))
          (fun hpc hz => hevent ((hawake a pc hf).waits hpc hz)) with ⟨own, hown, m', hrun, hguard⟩
        exact ⟨c, 0, own, by omega, Or.inl rfl, m', hrun, hguard⟩

theorem spin_lock_finishes_released :
    ∃ m, trace .arm (code .arm) (Machine.start fun _ _ => 0) released = some m ∧ 64 ∉ (m.core true).guards ∧
      ∃ d other own, other + own ≤ 15 ∧ (other = 0 ∨ Arch.arm = .arm ∧ (m.core d).Waking 64 ∧ other ≤ 2) ∧
        ∃ m', trace .arm (code .arm) m (List.replicate other (d, .exec) ++ List.replicate own (true, .exec)) = some m' ∧
          64 ∈ (m'.core true).guards := by
  have hrun : (trace .arm (code .arm) (Machine.start fun _ _ => 0) released).any
      (fun m => decide ((m.core true).frame = some ⟨.lock, 64, 3⟩ ∧ m.word 64 = 0 ∧
        64 ∉ (m.core true).guards)) = true := by decide +kernel
  rcases (Option.any_eq_true _ _).1 hrun with ⟨m, htrace, hm⟩
  rcases of_decide_eq_true hm with ⟨hf, hfree, hnot⟩
  exact ⟨m, htrace, hnot, spin_lock_finishes (reaches_of_trace htrace) hf hfree⟩

end Sync
end Propeller
