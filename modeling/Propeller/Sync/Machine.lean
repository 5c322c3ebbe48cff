import Mathlib.Logic.Relation
import Mathlib.Data.List.Basic
import Propeller.Arch

/-!
# Sync.Machine — cores, exclusive monitors and events

The instructions that the routines of `start/spin_lock.s` are made of, on any number of cores with one
memory.  The cores take turns by the instruction, in any order.  A core has the registers and the zero
flag, an exclusive monitor, and the event register that `wfe` waits for.

* An exclusive load reserves its address.  An exclusive store succeeds if the core still has the
  reservation, and ends it in any case.
* A store ends the reservations that other cores have of its address.  On AArch64, a core whose
  reservation ends that way gets an event; on ARM it does not.
* A core may lose its reservation at any time, and may get an event at any time.

The memory is the lock words.  Every access takes effect at once: the barriers and the acquire and
release forms of the accesses are there to get this from the hardware, and do nothing here.
-/

namespace Propeller
namespace Sync

/-! ## Instructions -/

/-- The condition an instruction of ARM is executed under. -/
inductive Cond
  | al
  | eq
  | ne
  deriving DecidableEq, Repr

/-- The instructions.  Registers are numbers, targets of branches are lines of the routine. -/
inductive Op
  /-- `mov d, #v` -/
  | movImm (d v : Nat)
  /-- `mov d, s` -/
  | mov (d s : Nat)
  /-- `prfm`, `dmb` and `dsb` -/
  | order
  | sevl
  | sev
  | wfe
  /-- `ldaxr t, [n]` and `ldrex t, [n]` -/
  | ldrex (t n : Nat)
  /-- `stxr s, t, [n]` and `strex s, t, [n]` -/
  | strex (s t n : Nat)
  /-- `stlr t, [n]` and `str t, [n]` -/
  | str (t n : Nat)
  /-- `cmp n, #v` -/
  | cmp (n v : Nat)
  | cbnz (n target : Nat)
  | b (target : Nat)
  /-- `ret` and `mov pc, lr` -/
  | ret
  deriving DecidableEq, Repr

/-- An instruction and its condition. -/
structure Instr where
  op : Op
  cond : Cond := .al
  deriving DecidableEq, Repr

/-- `wzr`, the register that reads as zero. -/
def wzr : Nat := 31

/-- The routines of `spin_lock.s`. -/
inductive Routine
  | lock
  | tryLock
  | unlock
  deriving DecidableEq, Repr

/-- A routine a core is in: the address it was called with, and the next line. -/
structure Frame where
  routine : Routine
  addr : Nat
  pc : Nat
  deriving DecidableEq, Repr

/-! ## Cores -/

/-- A core.  Outside of the routines, it runs code that holds the guards `guards`, each the address of the
lock variable it has to give back. -/
structure Core where
  regs : Nat → Nat
  zero : Bool
  frame : Option Frame
  guards : List Nat
  event : Bool
  reserved : Option Nat

namespace Core

def read (k : Core) (r : Nat) : Nat :=
  if r = wzr then 0 else k.regs r

def write (k : Core) (r v : Nat) : Core :=
  { k with regs := Function.update k.regs r v }

/-- The core goes on at the line `pc` of the routine. -/
def goto (k : Core) (f : Frame) (pc : Nat) : Core :=
  { k with frame := some { f with pc := pc } }

def next (k : Core) (f : Frame) : Core :=
  k.goto f (f.pc + 1)

/-- Does the condition hold? -/
def meets (k : Core) : Cond → Bool
  | .al => true
  | .eq => k.zero
  | .ne => !k.zero

/-- Does the caller of the routine get a guard?  `SpinLock::lock` always makes one, `SpinLock::try_lock` makes
one if `spin_try_lock` finds zero in the register of the result. -/
def granted (k : Core) (f : Frame) : Bool :=
  match f.routine with
  | .lock => true
  | .tryLock => k.read 0 = 0
  | .unlock => false

/-- The routine returns. -/
def leave (k : Core) (f : Frame) : Core :=
  { k with frame := none, guards := if k.granted f then f.addr :: k.guards else k.guards }

end Core

/-- What an instruction does beyond its core. -/
inductive Effect
  | none
  | store (addr value : Nat)
  | event
  deriving DecidableEq, Repr

/-- An instruction of the core `k`, which is at the frame `f`.  A core in `wfe` that has no event does not
go on. -/
def Op.execute (word : Nat → Nat) (k : Core) (f : Frame) : Op → Option (Core × Effect)
  | .movImm d v => some ((k.write d v).next f, .none)
  | .mov d s => some ((k.write d (k.read s)).next f, .none)
  | .order => some (k.next f, .none)
  | .sevl => some ({ k with event := true }.next f, .none)
  | .sev => some ({ k with event := true }.next f, .event)
  | .wfe => if k.event then some ({ k with event := false }.next f, .none) else none
  | .ldrex t n =>
      some (({ k with reserved := some (k.read n) }.write t (word (k.read n))).next f, .none)
  | .strex s t n =>
      if k.reserved = some (k.read n) then
        some (({ k with reserved := none }.write s 0).next f, .store (k.read n) (k.read t))
      else some (({ k with reserved := none }.write s 1).next f, .none)
  | .str t n => some (k.next f, .store (k.read n) (k.read t))
  | .cmp n v => some ({ k with zero := k.read n = v }.next f, .none)
  | .cbnz n target =>
      if k.read n = 0 then some (k.next f, .none) else some (k.goto f target, .none)
  | .b target => some (k.goto f target, .none)
  | .ret => some (k.leave f, .none)

/-- An instruction whose condition does not hold is passed over. -/
def Instr.execute (word : Nat → Nat) (k : Core) (f : Frame) (i : Instr) : Option (Core × Effect) :=
  if k.meets i.cond then i.op.execute word k f else some (k.next f, .none)

/-! ## The machine -/

/-- The lock words and the cores. -/
structure Machine (C : Type) where
  word : Nat → Nat
  core : C → Core

/-- The lock words after an effect. -/
def Effect.words (word : Nat → Nat) : Effect → Nat → Nat
  | .none => word
  | .store a v => Function.update word a v
  | .event => word

/-- A core sees what another core does: a store ends its reservation of the address. -/
def Core.see (A : Arch) (k : Core) : Effect → Core
  | .none => k
  | .store a _ =>
      if k.reserved = some a then
        { k with reserved := none, event := k.event || decide (A = .aarch64) }
      else k
  | .event => { k with event := true }

variable {C : Type} [DecidableEq C]

/-- The core `c` becomes `k`, with the effect `e` on the rest. -/
def Machine.apply (A : Arch) (m : Machine C) (c : C) (k : Core) (e : Effect) : Machine C where
  word := e.words m.word
  core d := if d = c then k else (m.core d).see A e

/-- What happens next on a core. -/
inductive Action
  /-- code outside of the routines calls one of them, with anything in the registers beyond the first -/
  | call (r : Routine) (a : Nat) (regs : Nat → Nat)
  /-- the next instruction of the routine -/
  | exec
  /-- the reservation is lost -/
  | lose
  /-- an event arrives -/
  | wake

/-- Code outside of the routines makes a call.  A guard is given up by the call of `sync_spin_unlock`. -/
def Core.call (k : Core) (r : Routine) (a : Nat) (regs : Nat → Nat) : Option Core :=
  if k.frame = none ∧ (r = .unlock → a ∈ k.guards) then
    some { k with
      regs := Function.update regs 0 a
      frame := some ⟨r, a, 0⟩
      guards := if r = .unlock then k.guards.erase a else k.guards }
  else none

/-- One step of the core `c`, if it can take it.  `code` is the text of the routines. -/
def Machine.step (A : Arch) (code : Routine → List Instr) (m : Machine C) (c : C) :
    Action → Option (Machine C)
  | .call r a regs => ((m.core c).call r a regs).map fun k => m.apply A c k .none
  | .exec => do
      let f ← (m.core c).frame
      let i ← (code f.routine)[f.pc]?
      let (k, e) ← i.execute m.word (m.core c) f
      pure (m.apply A c k e)
  | .lose =>
      some (m.apply A c
        { m.core c with reserved := none, event := (m.core c).event || decide (A = .aarch64) } .none)
  | .wake => some (m.apply A c { m.core c with event := true } .none)

/-- Some steps of the cores lead from `m` to `m'`. -/
def Reaches (A : Arch) (code : Routine → List Instr) : Machine C → Machine C → Prop :=
  Relation.ReflTransGen fun m m' => ∃ c a, m.step A code c a = some m'

/-- The steps of a run, one by one. -/
def trace (A : Arch) (code : Routine → List Instr) (m : Machine C) : List (C × Action) → Option (Machine C)
  | [] => some m
  | (c, a) :: es => do
      let m ← m.step A code c a
      trace A code m es

/-- No core is in a routine or holds a guard, and every lock variable is zero. -/
def Machine.start (regs : C → Nat → Nat) : Machine C where
  word _ := 0
  core c := ⟨regs c, false, none, [], false, none⟩

variable {A : Arch} {code : Routine → List Instr} {m m' m'' : Machine C} {c d : C} {k k' : Core} {f : Frame}
  {e : Effect} {word : Nat → Nat}

@[simp] theorem Machine.apply_word : (m.apply A c k e).word = e.words m.word := rfl

@[simp] theorem Machine.apply_core_self : (m.apply A c k e).core c = k := if_pos rfl

theorem Machine.apply_core_ne (h : d ≠ c) : (m.apply A c k e).core d = (m.core d).see A e := if_neg h

/-- What another core does changes neither the routine nor the registers nor the guards. -/
@[simp] theorem Core.see_frame : (k.see A e).frame = k.frame := by
  cases e <;> simp [Core.see, apply_ite Core.frame]

@[simp] theorem Core.see_regs : (k.see A e).regs = k.regs := by
  cases e <;> simp [Core.see, apply_ite Core.regs]

@[simp] theorem Core.see_zero : (k.see A e).zero = k.zero := by
  cases e <;> simp [Core.see, apply_ite Core.zero]

@[simp] theorem Core.see_guards : (k.see A e).guards = k.guards := by
  cases e <;> simp [Core.see, apply_ite Core.guards]

/-- Only the stores store. -/
theorem Op.execute_store {op : Op} {x v : Nat} (h : op.execute word k f = some (k', .store x v)) :
    k'.frame = some { f with pc := f.pc + 1 } ∧
      ∃ t n, (op = .str t n ∨ ∃ s, op = .strex s t n) ∧ x = k.read n ∧ v = k.read t := by
  cases op with
  | str t n =>
      cases h
      exact ⟨rfl, t, n, Or.inl rfl, rfl, rfl⟩
  | strex s t n =>
      simp only [Op.execute] at h
      split at h
      · cases h
        exact ⟨rfl, t, n, Or.inr ⟨s, rfl⟩, rfl, rfl⟩
      · cases h
  | wfe =>
      simp only [Op.execute] at h
      split at h <;> cases h
  | cbnz n target =>
      simp only [Op.execute] at h
      split at h <;> cases h
  | _ => cases h

theorem Instr.execute_store {i : Instr} {x v : Nat} (h : i.execute word k f = some (k', .store x v)) :
    k'.frame = some { f with pc := f.pc + 1 } ∧
      ∃ t n, (i.op = .str t n ∨ ∃ s, i.op = .strex s t n) ∧ x = k.read n ∧ v = k.read t := by
  unfold Instr.execute at h
  split at h
  · exact Op.execute_store h
  · cases h

/-- An instruction leaves the routine or goes on in it, at the next line if it is not a branch. -/
theorem Op.execute_frame {op : Op} (h : op.execute word k f = some (k', e)) :
    k'.frame = none ∨ ∃ pc, k'.frame = some { f with pc := pc } ∧
      (pc = f.pc + 1 ∨ op = .b pc ∨ ∃ n, op = .cbnz n pc) := by
  cases op with
  | ret =>
      cases h
      exact Or.inl rfl
  | wfe | strex s t n =>
      simp only [Op.execute] at h
      split at h <;> cases h <;> exact Or.inr ⟨_, rfl, Or.inl rfl⟩
  | cbnz n target =>
      simp only [Op.execute] at h
      split at h <;> cases h
      · exact Or.inr ⟨_, rfl, Or.inl rfl⟩
      · exact Or.inr ⟨_, rfl, Or.inr (Or.inr ⟨n, rfl⟩)⟩
  | b target =>
      cases h
      exact Or.inr ⟨_, rfl, Or.inr (Or.inl rfl)⟩
  | _ =>
      cases h
      exact Or.inr ⟨_, rfl, Or.inl rfl⟩

theorem Instr.execute_frame {i : Instr} (h : i.execute word k f = some (k', e)) :
    k'.frame = none ∨ ∃ pc, k'.frame = some { f with pc := pc } ∧
      (pc = f.pc + 1 ∨ i.op = .b pc ∨ ∃ n, i.op = .cbnz n pc) := by
  unfold Instr.execute at h
  split at h
  · exact Op.execute_frame h
  · cases h
    exact Or.inr ⟨_, rfl, Or.inl rfl⟩

/-- An instruction takes no guard away. -/
theorem Op.execute_guards {op : Op} {a : Nat} (h : op.execute word k f = some (k', e)) (hmem : a ∈ k.guards) :
    a ∈ k'.guards := by
  cases op with
  | ret =>
      cases h
      by_cases hg : k.granted f = true
      · simp [Core.leave, hg, hmem]
      · simp [Core.leave, hg, hmem]
  | wfe | strex s t n | cbnz n t =>
      simp only [Op.execute] at h
      split at h <;> cases h <;> exact hmem
  | _ =>
      cases h
      exact hmem

theorem Instr.execute_guards {i : Instr} {a : Nat} (h : i.execute word k f = some (k', e)) (hmem : a ∈ k.guards) :
    a ∈ k'.guards := by
  unfold Instr.execute at h
  split at h
  · exact Op.execute_guards h hmem
  · cases h
    exact hmem

theorem trace_append {es es' : List (C × Action)} (h : trace A code m es = some m') :
    trace A code m (es ++ es') = trace A code m' es' := by
  induction es generalizing m with
  | nil =>
      obtain rfl := Option.some.inj h
      rfl
  | cons p es ih =>
      rcases p with ⟨c, a⟩
      rcases Option.bind_eq_some_iff.1 h with ⟨m₁, hstep, hrest⟩
      rw [List.cons_append, trace, hstep]
      exact ih hrest

theorem reaches_of_trace {es : List (C × Action)} (h : trace A code m es = some m') : Reaches A code m m' := by
  induction es generalizing m with
  | nil =>
      obtain rfl := Option.some.inj h
      exact Relation.ReflTransGen.refl
  | cons p es ih =>
      rcases p with ⟨c, a⟩
      rcases Option.bind_eq_some_iff.1 h with ⟨m₁, hstep, hrest⟩
      exact Relation.ReflTransGen.head ⟨c, a, hstep⟩ (ih hrest)

/-- A step of a core is one of these. -/
theorem Machine.step_cases {a : Action} (h : m.step A code c a = some m') :
    (∃ r x regs k, a = .call r x regs ∧ (m.core c).call r x regs = some k ∧ m' = m.apply A c k .none) ∨
    (∃ f i k e, a = .exec ∧ (m.core c).frame = some f ∧ (code f.routine)[f.pc]? = some i ∧
      i.execute m.word (m.core c) f = some (k, e) ∧ m' = m.apply A c k e) ∨
    (a = .lose ∧ m' = m.apply A c
      { m.core c with reserved := none, event := (m.core c).event || decide (A = .aarch64) } .none) ∨
    (a = .wake ∧ m' = m.apply A c { m.core c with event := true } .none) := by
  cases a with
  | call r x regs =>
      rcases Option.map_eq_some_iff.1 h with ⟨k, hcall, rfl⟩
      exact Or.inl ⟨r, x, regs, k, rfl, hcall, rfl⟩
  | exec =>
      rcases Option.bind_eq_some_iff.1 h with ⟨f, hf, h⟩
      rcases Option.bind_eq_some_iff.1 h with ⟨i, hi, h⟩
      rcases Option.bind_eq_some_iff.1 h with ⟨⟨k, e⟩, hk, h⟩
      exact Or.inr (Or.inl ⟨f, i, k, e, rfl, hf, hi, hk, (Option.some.inj h).symm⟩)
  | lose => exact Or.inr (Or.inr (Or.inl ⟨rfl, (Option.some.inj h).symm⟩))
  | wake => exact Or.inr (Or.inr (Or.inr ⟨rfl, (Option.some.inj h).symm⟩))

/-- What a call leaves. -/
theorem Core.call_eq_some {r : Routine} {a : Nat} {regs : Nat → Nat} :
    k.call r a regs = some k' ↔
      (k.frame = none ∧ (r = .unlock → a ∈ k.guards)) ∧
        k' = { k with
          regs := Function.update regs 0 a
          frame := some ⟨r, a, 0⟩
          guards := if r = .unlock then k.guards.erase a else k.guards } := by
  unfold Core.call
  split
  · rename_i hok
    exact ⟨fun h => ⟨hok, (Option.some.inj h).symm⟩, fun h => by rw [h.2]⟩
  · rename_i hok
    exact ⟨fun h => absurd h (by simp), fun h => absurd h.1 hok⟩

end Sync
end Propeller
