import Mathlib.Tactic.IntervalCases
import Propeller.Lib.Exclusive
import Propeller.Sync.Machine

/-!
# Sync.SpinLock — the spin locks of both architectures

The text of `sync_spin_lock`, `sync_spin_try_lock` and `sync_spin_unlock`, line by line, and what the cores
of any run of it do together.

A core is described to the protocol of `Lib.Exclusive` by the line it is at (`phase`): it may have read zero
from the lock variable and be on its way to the exclusive store, or it may have stored and own the lock, or
neither.  With what the registers hold at each line (`Core.Ok`) every instruction is a step of the protocol,
so the lock variable is always the number of owners of the lock.
-/

namespace Propeller
namespace Sync

open Exclusive (View Quiet Takes Releases)

/-! ## The routines -/

/-- `aarch64/start/spin_lock.s`; `x` and `w` registers by their number. -/
def codeAarch64 : Routine → List Instr
  | .lock =>
      [ ⟨.movImm 10 1, .al⟩,      -- 0:  mov w10, #1
        ⟨.sevl, .al⟩,             -- 1:  sevl
        ⟨.order, .al⟩,            -- 2:  prfm pstl1keep, [x0]
        ⟨.wfe, .al⟩,              -- 3:  wfe
        ⟨.ldrex 9 0, .al⟩,        -- 4:  ldaxr w9, [x0]
        ⟨.cbnz 9 3, .al⟩,         -- 5:  cbnz w9, 1b
        ⟨.strex 9 10 0, .al⟩,     -- 6:  stxr w9, w10, [x0]
        ⟨.cbnz 9 3, .al⟩,         -- 7:  cbnz w9, 1b
        ⟨.ret, .al⟩ ]             -- 8:  ret
  | .tryLock =>
      [ ⟨.mov 9 0, .al⟩,          -- 0:  mov x9, x0
        ⟨.movImm 10 1, .al⟩,      -- 1:  mov w10, #1
        ⟨.order, .al⟩,            -- 2:  prfm pstl1keep, [x0]
        ⟨.ldrex 0 9, .al⟩,        -- 3:  ldaxr w0, [x9]
        ⟨.cbnz 0 6, .al⟩,         -- 4:  cbnz w0, 1f
        ⟨.strex 0 10 9, .al⟩,     -- 5:  stxr w0, w10, [x9]
        ⟨.ret, .al⟩ ]             -- 6:  ret
  | .unlock =>
      [ ⟨.str wzr 0, .al⟩,        -- 0:  stlr wzr, [x0]
        ⟨.ret, .al⟩ ]             -- 1:  ret

/-- `arm/start/spin_lock.s`. -/
def codeArm : Routine → List Instr
  | .lock =>
      [ ⟨.movImm 2 1, .al⟩,       -- 0:  mov r2, #1
        ⟨.ldrex 1 0, .al⟩,        -- 1:  ldrex r1, [r0]
        ⟨.cmp 1 0, .al⟩,          -- 2:  cmp r1, #0
        ⟨.wfe, .ne⟩,              -- 3:  wfene
        ⟨.strex 1 2 0, .eq⟩,      -- 4:  strexeq r1, r2, [r0]
        ⟨.cmp 1 0, .eq⟩,          -- 5:  cmpeq r1, #0
        ⟨.b 1, .ne⟩,              -- 6:  bne 1b
        ⟨.order, .al⟩,            -- 7:  dmb
        ⟨.ret, .al⟩ ]             -- 8:  mov pc, lr
  | .tryLock =>
      [ ⟨.mov 1 0, .al⟩,          -- 0:  mov r1, r0
        ⟨.movImm 2 1, .al⟩,       -- 1:  mov r2, #1
        ⟨.ldrex 0 1, .al⟩,        -- 2:  ldrex r0, [r1]
        ⟨.cmp 0 0, .al⟩,          -- 3:  cmp r0, #0
        ⟨.b 9, .ne⟩,              -- 4:  bne 1f
        ⟨.strex 0 2 1, .al⟩,      -- 5:  strex r0, r2, [r1]
        ⟨.cmp 0 0, .al⟩,          -- 6:  cmp r0, #0
        ⟨.b 9, .ne⟩,              -- 7:  bne 1f
        ⟨.order, .al⟩,            -- 8:  dmb
        ⟨.ret, .al⟩ ]             -- 9:  mov pc, lr
  | .unlock =>
      [ ⟨.movImm 2 0, .al⟩,       -- 0:  mov r2, #0
        ⟨.order, .al⟩,            -- 1:  dmb
        ⟨.str 2 0, .al⟩,          -- 2:  str r2, [r0]
        ⟨.order, .al⟩,            -- 3:  dsb
        ⟨.sev, .al⟩,              -- 4:  sev
        ⟨.ret, .al⟩ ]             -- 5:  mov pc, lr

/-- The text of the routines. -/
def code : Arch → Routine → List Instr
  | .aarch64 => codeAarch64
  | .arm => codeArm

/-! ## What a core has of a lock -/

/-- What a core in a routine has of the lock of its call. -/
inductive Phase
  | away
  | ready
  | owner
  deriving DecidableEq, Repr

/-- What a core at the line `pc` has of the lock, as far as its registers and flag show. -/
def phase (A : Arch) (r : Routine) (pc : Nat) (regs : Nat → Nat) (z : Bool) : Phase :=
  match A, r with
  | .aarch64, .lock =>
      if pc = 5 then if regs 9 = 0 then .ready else .away
      else if pc = 6 then .ready
      else if pc = 7 then if regs 9 = 0 then .owner else .away
      else if pc = 8 then .owner else .away
  | .aarch64, .tryLock =>
      if pc = 4 then if regs 0 = 0 then .ready else .away
      else if pc = 5 then .ready
      else if pc = 6 then if regs 0 = 0 then .owner else .away
      else .away
  | .aarch64, .unlock => if pc = 0 then .owner else .away
  | .arm, .lock =>
      if pc = 2 then if regs 1 = 0 then .ready else .away
      else if pc = 3 ∨ pc = 4 then if z then .ready else .away
      else if pc = 5 then if z ∧ regs 1 = 0 then .owner else .away
      else if pc = 6 then if z then .owner else .away
      else if pc = 7 ∨ pc = 8 then .owner else .away
  | .arm, .tryLock =>
      if pc = 3 then if regs 0 = 0 then .ready else .away
      else if pc = 4 then if z then .ready else .away
      else if pc = 5 then .ready
      else if pc = 6 then if regs 0 = 0 then .owner else .away
      else if pc = 7 then if z then .owner else .away
      else if pc = 8 then .owner
      else if pc = 9 then if regs 0 = 0 then .owner else .away
      else .away
  | .arm, .unlock => if pc < 3 then .owner else .away

/-- What the registers and the flag hold at the line `pc` of a routine that was called with `a`. -/
def RegsOk : Arch → Routine → Nat → Nat → (Nat → Nat) → Bool → Prop
  | .aarch64, .lock, a, pc, regs, _ => regs 0 = a ∧ (0 < pc → regs 10 = 1)
  | .aarch64, .tryLock, a, pc, regs, _ =>
      (pc = 0 → regs 0 = a) ∧ (0 < pc → regs 9 = a) ∧ (1 < pc → regs 10 = 1)
  | .aarch64, .unlock, a, _, regs, _ => regs 0 = a
  | .arm, .lock, a, pc, regs, z =>
      regs 0 = a ∧ (0 < pc → regs 2 = 1) ∧ (pc = 3 → (z = true ↔ regs 1 = 0))
  | .arm, .tryLock, a, pc, regs, z =>
      (pc = 0 → regs 0 = a) ∧ (0 < pc → regs 1 = a) ∧ (1 < pc → regs 2 = 1) ∧
        (pc = 4 ∨ pc = 7 → (z = true ↔ regs 0 = 0)) ∧ (pc = 8 → regs 0 = 0)
  | .arm, .unlock, a, pc, regs, _ => regs 0 = a ∧ (0 < pc → regs 2 = 0)

namespace Core

/-- The registers of a core are right for the line it is at. -/
def Ok (A : Arch) (k : Core) : Prop :=
  ∀ f, k.frame = some f → RegsOk A f.routine f.addr f.pc k.regs k.zero

/-- What a core at the frame `f` has of the lock of its call. -/
def phaseAt (A : Arch) (k : Core) (f : Frame) : Phase :=
  phase A f.routine f.pc k.regs k.zero

/-- A core, as the protocol sees it. -/
def view (A : Arch) (k : Core) : View Nat where
  reserved := k.reserved
  ready := k.frame.bind fun f => if k.phaseAt A f = .ready then some f.addr else none
  owned a := k.guards.count a +
    (k.frame.elim 0 fun f => if k.phaseAt A f = .owner ∧ f.addr = a then 1 else 0)

end Core

/-- What an effect is in the protocol. -/
def Simulates (word : Nat → Nat) (v v' : View Nat) : Effect → Prop
  | .none => Quiet word v v'
  | .store a x => (x = 1 ∧ Takes a v v') ∨ (x = 0 ∧ Releases a v v')
  | .event => Quiet word v v'

variable {A : Arch} {word : Nat → Nat} {k k' : Core} {f : Frame} {i : Instr} {e : Effect}

/-! ## Instructions in the protocol -/

theorem Core.Ok.of_frame {f' : Frame} (hf : k.frame = some f')
    (h : RegsOk A f'.routine f'.addr f'.pc k.regs k.zero) : k.Ok A := by
  intro f'' hf''
  obtain rfl := Option.some.inj (hf.symm.trans hf'')
  exact h

theorem Core.view_ready (hf : k.frame = some f) :
    (k.view A).ready = if k.phaseAt A f = .ready then some f.addr else none := by
  simp [Core.view, hf]

theorem Core.view_owned (hf : k.frame = some f) (a : Nat) :
    (k.view A).owned a = k.guards.count a + if k.phaseAt A f = .owner ∧ f.addr = a then 1 else 0 := by
  simp [Core.view, hf]

/-- Within a routine, a core does not get ready or an owner without a store or the load of a zero. -/
theorem quiet_of_phase {f' : Frame} (hf : k.frame = some f) (hf' : k'.frame = some f')
    (haddr : f'.addr = f.addr) (hguards : k'.guards = k.guards)
    (howner : k'.phaseAt A f' = .owner ↔ k.phaseAt A f = .owner)
    (hready : k'.phaseAt A f' = .ready →
      word f.addr = 0 ∨ (k.phaseAt A f = .ready ∧ k'.reserved = k.reserved)) :
    Quiet word (k.view A) (k'.view A) := by
  refine ⟨?_, ?_⟩
  · funext a
    simp only [Core.view_owned hf, Core.view_owned hf', hguards, haddr, howner]
  · intro l hl hres
    rw [Core.view_ready hf'] at hl
    split at hl
    · rename_i hr
      obtain rfl := Option.some.inj hl
      rw [haddr] at hres ⊢
      rcases hready hr with hzero | ⟨hphase, hsame⟩
      · exact Or.inl hzero
      · refine Or.inr ⟨?_, ?_⟩
        · rw [Core.view_ready hf, if_pos hphase]
        · exact hsame.symm.trans hres
    · cases hl

/-- A core that was ready and has stored under its reservation is an owner. -/
theorem takes_of_phase {f' : Frame} (hf : k.frame = some f) (hf' : k'.frame = some f')
    (haddr : f'.addr = f.addr) (hguards : k'.guards = k.guards) (hphase : k.phaseAt A f = .ready)
    (hphase' : k'.phaseAt A f' = .owner) (hres : k.reserved = some f.addr) :
    Takes f.addr (k.view A) (k'.view A) := by
  refine ⟨?_, hres, ?_, ?_⟩
  · rw [Core.view_ready hf, if_pos hphase]
  · rw [Core.view_ready hf', hphase']
    simp
  · funext a
    rw [Function.update_apply]
    simp only [Core.view_owned hf, Core.view_owned hf', hguards, haddr, hphase, hphase']
    by_cases ha : f.addr = a
    · simp [ha]
    · simp [ha, Ne.symm ha]

/-- An owner that has stored zero is none any more. -/
theorem releases_of_phase {f' : Frame} (hf : k.frame = some f) (hf' : k'.frame = some f')
    (haddr : f'.addr = f.addr) (hguards : k'.guards = k.guards) (hphase : k.phaseAt A f = .owner)
    (hphase' : k'.phaseAt A f' = .away) : Releases f.addr (k.view A) (k'.view A) := by
  refine ⟨?_, ?_, ?_⟩
  · rw [Core.view_owned hf, hphase]
    simp
  · rw [Core.view_ready hf', hphase']
    simp
  · funext a
    rw [Function.update_apply]
    simp only [Core.view_owned hf, Core.view_owned hf', hguards, haddr, hphase, hphase']
    by_cases ha : f.addr = a
    · simp [ha]
    · simp [ha, Ne.symm ha]

/-- A routine returns to code that gets a guard just if the core is an owner. -/
theorem quiet_leave (hf : k.frame = some f) (howner : k.phaseAt A f = .owner ↔ k.granted f = true) :
    Quiet word (k.view A) ((k.leave f).view A) := by
  refine ⟨?_, ?_⟩
  · funext a
    simp only [Core.view_owned hf, howner]
    by_cases hg : k.granted f = true
    · by_cases ha : f.addr = a
      · simp [Core.leave, Core.view, hg, ha]
      · simp [Core.leave, Core.view, hg, ha]
    · simp [Core.leave, Core.view, hg]
  · intro l hl
    cases hl

/-! ## The routines in the protocol -/

@[simp] theorem Phase.ready_ite_ne_owner {p : Prop} [Decidable p] :
    (if p then Phase.ready else .away) ≠ .owner := by
  split <;> decide

@[simp] theorem Phase.owner_ite_ne_ready {p : Prop} [Decidable p] :
    (if p then Phase.owner else .away) ≠ .ready := by
  split <;> decide

/-- The core `k` goes on to `k'`, which keeps to the lines, by a step of the protocol. -/
def Follows (A : Arch) (word : Nat → Nat) (k k' : Core) (e : Effect) : Prop :=
  k'.Ok A ∧ Simulates word (k.view A) (k'.view A) e

/-- An exclusive store of one to the lock variable, by a core that is ready. -/
theorem follows_strex {s t n : Nat} (hf : k.frame = some f) (haddr : k.read n = f.addr) (hone : k.read t = 1)
    (hready : k.phaseAt A f = .ready)
    (howner : phase A f.routine (f.pc + 1) (Function.update k.regs s 0) k.zero = .owner)
    (haway : phase A f.routine (f.pc + 1) (Function.update k.regs s 1) k.zero = .away)
    (hregs : ∀ v, RegsOk A f.routine f.addr (f.pc + 1) (Function.update k.regs s v) k.zero)
    (hx : (Op.strex s t n).execute word k f = some (k', e)) : Follows A word k k' e := by
  simp only [Op.execute, haddr, hone] at hx
  split at hx <;> obtain ⟨rfl, rfl⟩ := Prod.mk.inj (Option.some.inj hx)
  · rename_i hres
    exact ⟨.of_frame rfl (hregs 0), Or.inl ⟨rfl, takes_of_phase hf rfl rfl rfl hready howner hres⟩⟩
  · refine ⟨.of_frame rfl (hregs 1), quiet_of_phase hf rfl rfl rfl ?_ ?_⟩
    · exact ⟨fun h => absurd (haway.symm.trans h) (by decide), fun h => absurd (hready.symm.trans h) (by decide)⟩
    · exact fun h => absurd (haway.symm.trans h) (by decide)

/-- A store of zero to the lock variable, by an owner. -/
theorem follows_str {t n : Nat} (hf : k.frame = some f) (haddr : k.read n = f.addr) (hzero : k.read t = 0)
    (howner : k.phaseAt A f = .owner) (haway : phase A f.routine (f.pc + 1) k.regs k.zero = .away)
    (hregs : RegsOk A f.routine f.addr (f.pc + 1) k.regs k.zero)
    (hx : (Op.str t n).execute word k f = some (k', e)) : Follows A word k k' e := by
  simp only [Op.execute, haddr, hzero] at hx
  obtain ⟨rfl, rfl⟩ := Prod.mk.inj (Option.some.inj hx)
  exact ⟨.of_frame rfl hregs, Or.inr ⟨rfl, releases_of_phase hf rfl rfl rfl howner haway⟩⟩

theorem follows_ret (hf : k.frame = some f) (howner : k.phaseAt A f = .owner ↔ k.granted f = true)
    (hx : Op.ret.execute word k f = some (k', e)) : Follows A word k k' e := by
  obtain ⟨rfl, rfl⟩ := Prod.mk.inj (Option.some.inj hx)
  refine ⟨?_, quiet_leave hf howner⟩
  intro f' hf'
  cases hf'

theorem follows_aarch64_lock {a pc : Nat} (hf : k.frame = some ⟨.lock, a, pc⟩)
    (hregs : RegsOk .aarch64 .lock a pc k.regs k.zero) (hi : (codeAarch64 .lock)[pc]? = some i)
    (hx : i.execute word k ⟨.lock, a, pc⟩ = some (k', e)) : Follows .aarch64 word k k' e := by
  rcases List.getElem?_eq_some_iff.1 hi with ⟨hpc, hi⟩
  simp only [RegsOk] at hregs
  simp only [codeAarch64, List.length_cons, List.length_nil] at hpc
  interval_cases pc <;> simp only [codeAarch64, List.getElem_cons_zero, List.getElem_cons_succ] at hi <;>
    subst hi <;> simp only [Instr.execute, Core.meets, if_true] at hx
  case «0» | «1» | «2» | «4» =>
    obtain ⟨rfl, rfl⟩ := Prod.mk.inj (Option.some.inj hx)
    refine ⟨.of_frame rfl ?_, quiet_of_phase hf rfl rfl rfl ?_ ?_⟩ <;>
      simp_all [RegsOk, Core.phaseAt, phase, Core.next, Core.goto, Core.write, Core.read, wzr]
  case «3» | «5» | «7» =>
    simp only [Op.execute] at hx
    split at hx <;> cases hx <;>
      refine ⟨.of_frame rfl ?_, quiet_of_phase hf rfl rfl rfl ?_ ?_⟩ <;>
        simp_all [RegsOk, Core.phaseAt, phase, Core.next, Core.goto, Core.read, wzr]
  case «6» =>
    refine follows_strex hf ?_ ?_ ?_ ?_ ?_ ?_ hx <;> simp_all [RegsOk, Core.phaseAt, phase, Core.read, wzr]
  case «8» =>
    refine follows_ret hf ?_ hx
    simp [Core.phaseAt, phase, Core.granted]

theorem follows_aarch64_tryLock {a pc : Nat} (hf : k.frame = some ⟨.tryLock, a, pc⟩)
    (hregs : RegsOk .aarch64 .tryLock a pc k.regs k.zero) (hi : (codeAarch64 .tryLock)[pc]? = some i)
    (hx : i.execute word k ⟨.tryLock, a, pc⟩ = some (k', e)) : Follows .aarch64 word k k' e := by
  rcases List.getElem?_eq_some_iff.1 hi with ⟨hpc, hi⟩
  simp only [RegsOk] at hregs
  simp only [codeAarch64, List.length_cons, List.length_nil] at hpc
  interval_cases pc <;> simp only [codeAarch64, List.getElem_cons_zero, List.getElem_cons_succ] at hi <;>
    subst hi <;> simp only [Instr.execute, Core.meets, if_true] at hx
  case «0» | «1» | «2» | «3» =>
    obtain ⟨rfl, rfl⟩ := Prod.mk.inj (Option.some.inj hx)
    refine ⟨.of_frame rfl ?_, quiet_of_phase hf rfl rfl rfl ?_ ?_⟩ <;>
      simp_all [RegsOk, Core.phaseAt, phase, Core.next, Core.goto, Core.write, Core.read, wzr]
  case «4» =>
    simp only [Op.execute] at hx
    split at hx <;> cases hx <;>
      refine ⟨.of_frame rfl ?_, quiet_of_phase hf rfl rfl rfl ?_ ?_⟩ <;>
        simp_all [RegsOk, Core.phaseAt, phase, Core.next, Core.goto, Core.read, wzr]
  case «5» =>
    refine follows_strex hf ?_ ?_ ?_ ?_ ?_ ?_ hx <;> simp_all [RegsOk, Core.phaseAt, phase, Core.read, wzr]
  case «6» =>
    refine follows_ret hf ?_ hx
    simp [Core.phaseAt, phase, Core.granted, Core.read, wzr]

theorem follows_aarch64_unlock {a pc : Nat} (hf : k.frame = some ⟨.unlock, a, pc⟩)
    (hregs : RegsOk .aarch64 .unlock a pc k.regs k.zero) (hi : (codeAarch64 .unlock)[pc]? = some i)
    (hx : i.execute word k ⟨.unlock, a, pc⟩ = some (k', e)) : Follows .aarch64 word k k' e := by
  rcases List.getElem?_eq_some_iff.1 hi with ⟨hpc, hi⟩
  simp only [RegsOk] at hregs
  simp only [codeAarch64, List.length_cons, List.length_nil] at hpc
  interval_cases pc <;> simp only [codeAarch64, List.getElem_cons_zero, List.getElem_cons_succ] at hi <;>
    subst hi <;> simp only [Instr.execute, Core.meets, if_true] at hx
  case «0» =>
    refine follows_str hf ?_ ?_ ?_ ?_ ?_ hx <;> simp_all [RegsOk, Core.phaseAt, phase, Core.read, wzr]
  case «1» =>
    refine follows_ret hf ?_ hx
    simp [Core.phaseAt, phase, Core.granted]

theorem follows_arm_lock {a pc : Nat} (hf : k.frame = some ⟨.lock, a, pc⟩)
    (hregs : RegsOk .arm .lock a pc k.regs k.zero) (hi : (codeArm .lock)[pc]? = some i)
    (hx : i.execute word k ⟨.lock, a, pc⟩ = some (k', e)) : Follows .arm word k k' e := by
  rcases List.getElem?_eq_some_iff.1 hi with ⟨hpc, hi⟩
  simp only [RegsOk] at hregs
  simp only [codeArm, List.length_cons, List.length_nil] at hpc
  interval_cases pc <;> simp only [codeArm, List.getElem_cons_zero, List.getElem_cons_succ] at hi <;>
    subst hi <;> simp only [Instr.execute, Core.meets, if_true] at hx
  case «0» | «1» | «2» | «7» =>
    obtain ⟨rfl, rfl⟩ := Prod.mk.inj (Option.some.inj hx)
    refine ⟨.of_frame rfl ?_, quiet_of_phase hf rfl rfl rfl ?_ ?_⟩ <;>
      simp_all [RegsOk, Core.phaseAt, phase, Core.next, Core.goto, Core.write, Core.read, wzr]
  case «3» =>
    by_cases hz : k.zero = true
    · simp [hz] at hx
      obtain ⟨rfl, rfl⟩ := hx
      refine ⟨.of_frame rfl ?_, quiet_of_phase hf rfl rfl rfl ?_ ?_⟩ <;>
        simp_all [RegsOk, Core.phaseAt, phase, Core.next, Core.goto]
    · simp [hz, Op.execute] at hx
      obtain ⟨-, rfl, rfl⟩ := hx
      refine ⟨.of_frame rfl ?_, quiet_of_phase hf rfl rfl rfl ?_ ?_⟩ <;>
        simp_all [RegsOk, Core.phaseAt, phase, Core.next, Core.goto]
  case «5» | «6» =>
    simp only [Op.execute] at hx
    by_cases hz : k.zero = true <;> simp [hz] at hx <;> obtain ⟨rfl, rfl⟩ := hx <;>
      refine ⟨.of_frame rfl ?_, quiet_of_phase hf rfl rfl rfl ?_ ?_⟩ <;>
        simp_all [RegsOk, Core.phaseAt, phase, Core.next, Core.goto, Core.read, wzr]
  case «4» =>
    by_cases hz : k.zero = true <;> simp only [hz, if_true] at hx
    · refine follows_strex hf ?_ ?_ ?_ ?_ ?_ ?_ hx <;> simp_all [RegsOk, Core.phaseAt, phase, Core.read, wzr]
    · obtain ⟨rfl, rfl⟩ := Prod.mk.inj (Option.some.inj hx)
      refine ⟨.of_frame rfl ?_, quiet_of_phase hf rfl rfl rfl ?_ ?_⟩ <;>
        simp_all [RegsOk, Core.phaseAt, phase, Core.next, Core.goto]
  case «8» =>
    refine follows_ret hf ?_ hx
    simp [Core.phaseAt, phase, Core.granted]

theorem follows_arm_tryLock {a pc : Nat} (hf : k.frame = some ⟨.tryLock, a, pc⟩)
    (hregs : RegsOk .arm .tryLock a pc k.regs k.zero) (hi : (codeArm .tryLock)[pc]? = some i)
    (hx : i.execute word k ⟨.tryLock, a, pc⟩ = some (k', e)) : Follows .arm word k k' e := by
  rcases List.getElem?_eq_some_iff.1 hi with ⟨hpc, hi⟩
  simp only [RegsOk] at hregs
  simp only [codeArm, List.length_cons, List.length_nil] at hpc
  interval_cases pc <;> simp only [codeArm, List.getElem_cons_zero, List.getElem_cons_succ] at hi <;>
    subst hi <;> simp only [Instr.execute, Core.meets, if_true] at hx
  case «0» | «1» | «2» | «3» | «6» | «8» =>
    obtain ⟨rfl, rfl⟩ := Prod.mk.inj (Option.some.inj hx)
    refine ⟨.of_frame rfl ?_, quiet_of_phase hf rfl rfl rfl ?_ ?_⟩ <;>
      simp_all [RegsOk, Core.phaseAt, phase, Core.next, Core.goto, Core.write, Core.read, wzr]
  case «4» | «7» =>
    simp only [Op.execute] at hx
    by_cases hz : k.zero = true <;> simp [hz] at hx <;> obtain ⟨rfl, rfl⟩ := hx <;>
      refine ⟨.of_frame rfl ?_, quiet_of_phase hf rfl rfl rfl ?_ ?_⟩ <;>
        simp_all [RegsOk, Core.phaseAt, phase, Core.next, Core.goto]
  case «5» =>
    refine follows_strex hf ?_ ?_ ?_ ?_ ?_ ?_ hx <;> simp_all [RegsOk, Core.phaseAt, phase, Core.read, wzr]
  case «9» =>
    refine follows_ret hf ?_ hx
    simp [Core.phaseAt, phase, Core.granted, Core.read, wzr]

theorem follows_arm_unlock {a pc : Nat} (hf : k.frame = some ⟨.unlock, a, pc⟩)
    (hregs : RegsOk .arm .unlock a pc k.regs k.zero) (hi : (codeArm .unlock)[pc]? = some i)
    (hx : i.execute word k ⟨.unlock, a, pc⟩ = some (k', e)) : Follows .arm word k k' e := by
  rcases List.getElem?_eq_some_iff.1 hi with ⟨hpc, hi⟩
  simp only [RegsOk] at hregs
  simp only [codeArm, List.length_cons, List.length_nil] at hpc
  interval_cases pc <;> simp only [codeArm, List.getElem_cons_zero, List.getElem_cons_succ] at hi <;>
    subst hi <;> simp only [Instr.execute, Core.meets, if_true] at hx
  case «0» | «1» | «3» | «4» =>
    obtain ⟨rfl, rfl⟩ := Prod.mk.inj (Option.some.inj hx)
    refine ⟨.of_frame rfl ?_, quiet_of_phase hf rfl rfl rfl ?_ ?_⟩ <;>
      simp_all [RegsOk, Core.phaseAt, phase, Core.next, Core.goto, Core.write]
  case «2» =>
    refine follows_str hf ?_ ?_ ?_ ?_ ?_ hx <;> simp_all [RegsOk, Core.phaseAt, phase, Core.read, wzr]
  case «5» =>
    refine follows_ret hf ?_ hx
    simp [Core.phaseAt, phase, Core.granted]

/-- Every instruction of the routines is a step of the protocol. -/
theorem follows_code (hok : k.Ok A) (hf : k.frame = some f) (hi : (code A f.routine)[f.pc]? = some i)
    (hx : i.execute word k f = some (k', e)) : Follows A word k k' e := by
  have hregs := hok f hf
  rcases f with ⟨r, a, pc⟩
  cases A with
  | aarch64 =>
      cases r with
      | lock => exact follows_aarch64_lock hf hregs hi hx
      | tryLock => exact follows_aarch64_tryLock hf hregs hi hx
      | unlock => exact follows_aarch64_unlock hf hregs hi hx
  | arm =>
      cases r with
      | lock => exact follows_arm_lock hf hregs hi hx
      | tryLock => exact follows_arm_tryLock hf hregs hi hx
      | unlock => exact follows_arm_unlock hf hregs hi hx

/-- So is a call. -/
theorem follows_call {r : Routine} {a : Nat} {regs : Nat → Nat} (hx : k.call r a regs = some k') :
    Follows A word k k' .none := by
  rcases Core.call_eq_some.1 hx with ⟨⟨hidle, hguard⟩, rfl⟩
  refine ⟨.of_frame rfl ?_, ?_, ?_⟩
  · cases A <;> cases r <;> simp [RegsOk]
  · -- The guard that a call of `sync_spin_unlock` takes is what the core owns in the routine.
    funext x
    cases r with
    | lock | tryLock => cases A <;> simp [Core.view, hidle, Core.phaseAt, phase]
    | unlock =>
        have hmem := hguard rfl
        by_cases hx : a = x
        · subst hx
          have hpos := List.count_pos_iff.2 hmem
          cases A <;> simp [Core.view, hidle, Core.phaseAt, phase] <;> omega
        · cases A <;> simp [Core.view, hidle, Core.phaseAt, phase, hx, List.count_erase_of_ne (Ne.symm hx)]
  · intro l hl
    cases A <;> cases r <;> simp [Core.view, Core.phaseAt, phase] at hl

/-! ## Machines in the protocol -/

variable {C : Type} [DecidableEq C] {m m' : Machine C} {c d : C} {a : Nat} {act : Action}

/-- A machine, as the protocol sees it. -/
def Machine.abs (A : Arch) (m : Machine C) : Exclusive.State C Nat where
  word := m.word
  view c := (m.core c).view A

/-- The protocol does not see events. -/
theorem Core.view_event (k : Core) (b : Bool) : { k with event := b }.view A = k.view A := rfl

theorem Core.view_reserved (k : Core) (r : Option Nat) (b : Bool) :
    { k with reserved := r, event := b }.view A = { k.view A with reserved := r } := rfl

theorem abs_apply_quiet (he : e = .none ∨ e = .event) :
    (m.apply A c k e).abs A = (m.abs A).move c (k.view A) := by
  have hword : e.words m.word = m.word := by rcases he with rfl | rfl <;> rfl
  have hsee : ∀ d, ((m.core d).see A e).view A = (m.core d).view A := by
    intro d
    rcases he with rfl | rfl
    · rfl
    · exact Core.view_event _ _
  simp only [Machine.abs, Exclusive.State.move, Machine.apply_word, hword, Exclusive.State.mk.injEq, true_and]
  funext d
  by_cases hd : d = c
  · simp [hd]
  · simp [Machine.apply_core_ne hd, hsee, hd]

theorem Core.view_see_store (k : Core) (a v : Nat) :
    (k.see A (.store a v)).view A = (k.view A).clear a := by
  have hres : (k.view A).reserved = k.reserved := rfl
  simp only [Core.see, View.clear, hres]
  by_cases h : k.reserved = some a
  · rw [if_pos h, if_pos h, Core.view_reserved]
  · rw [if_neg h, if_neg h, ← hres]

theorem abs_apply_store {v : Nat} :
    (m.apply A c k (.store a v)).abs A = (m.abs A).store c a v (k.view A) := by
  simp only [Machine.abs, Exclusive.State.store, Machine.apply_word, Effect.words,
    Exclusive.State.mk.injEq, true_and]
  funext d
  by_cases hd : d = c
  · simp [hd]
  · simp [Machine.apply_core_ne hd, Core.view_see_store, hd]

/-- A core that follows the protocol takes a step of it with the whole machine. -/
theorem Follows.step (h : Follows A m.word (m.core c) k e) :
    Exclusive.Step (m.abs A) ((m.apply A c k e).abs A) := by
  cases e with
  | none =>
      rw [abs_apply_quiet (Or.inl rfl)]
      exact .quiet h.2
  | store a v =>
      rw [abs_apply_store]
      rcases h.2 with ⟨rfl, htake⟩ | ⟨rfl, hrel⟩
      · exact .take htake
      · exact .release hrel
  | event =>
      rw [abs_apply_quiet (Or.inr rfl)]
      exact .quiet h.2

/-- The registers of the other cores stay right. -/
theorem Follows.ok (h : Follows A m.word (m.core c) k e) (hok : ∀ d, (m.core d).Ok A) (d : C) :
    ((m.apply A c k e).core d).Ok A := by
  by_cases hd : d = c
  · rw [hd, Machine.apply_core_self]
    exact h.1
  · rw [Machine.apply_core_ne hd]
    intro f hf
    rw [Core.see_regs, Core.see_zero]
    exact hok d f (Core.see_frame.symm.trans hf)

/-- Every step of the machine is a core that follows the protocol. -/
theorem step_follows (hok : ∀ d, (m.core d).Ok A) (h : m.step A (code A) c act = some m') :
    ∃ k e, Follows A m.word (m.core c) k e ∧ m' = m.apply A c k e := by
  rcases Machine.step_cases h with ⟨r, x, regs, k, -, hcall, rfl⟩ | ⟨f, i, k, e, -, hf, hi, hx, rfl⟩ |
    ⟨-, rfl⟩ | ⟨-, rfl⟩
  · exact ⟨k, .none, follows_call hcall, rfl⟩
  · exact ⟨k, e, follows_code (hok c) hf hi hx, rfl⟩
  · refine ⟨{ m.core c with reserved := none, event := _ }, .none, ⟨hok c, rfl, ?_⟩, rfl⟩
    intro l _ hres
    cases hres
  · refine ⟨{ m.core c with event := true }, .none, ⟨hok c, rfl, ?_⟩, rfl⟩
    intro l hready hres
    exact Or.inr ⟨hready, hres⟩

/-- The invariant of the spin locks. -/
structure LockInv (A : Arch) (m : Machine C) : Prop where
  regs : ∀ c, (m.core c).Ok A
  protocol : Exclusive.Inv (m.abs A)

omit [DecidableEq C] in
theorem LockInv.start (regs : C → Nat → Nat) : LockInv A (Machine.start regs) := by
  refine ⟨?_, ?_, ?_⟩
  · intro c f hf
    cases hf
  · intro a
    exact Or.inl ⟨rfl, fun c => by simp [Machine.abs, Machine.start, Core.view]⟩
  · intro c l hready
    cases hready

theorem LockInv.step (h : LockInv A m) (hstep : m.step A (code A) c act = some m') : LockInv A m' := by
  rcases step_follows h.regs hstep with ⟨k, e, hfollows, rfl⟩
  exact ⟨hfollows.ok h.regs, h.protocol.step hfollows.step⟩

theorem LockInv.run (h : LockInv A m) (hrun : Reaches A (code A) m m') : LockInv A m' := by
  induction hrun with
  | refl => exact h
  | tail _ hlast ih =>
      rcases hlast with ⟨c, act, hstep⟩
      exact ih.step hstep

/-! ## Mutual exclusion -/

theorem Core.owned_pos_of_guard (h : a ∈ k.guards) : 0 < (k.view A).owned a :=
  Nat.add_pos_left (List.count_pos_iff.2 h) _

omit [DecidableEq C] in
theorem LockInv.guard (h : LockInv A m) (hc : a ∈ (m.core c).guards) :
    m.word a = 1 ∧ (m.core c).guards.count a = 1 := by
  rcases h.protocol.owned_eq_one (Core.owned_pos_of_guard (A := A) hc) with ⟨hone, hword⟩
  refine ⟨hword, ?_⟩
  have hpos := List.count_pos_iff.2 hc
  have hle : (m.core c).guards.count a ≤ ((m.abs A).view c).owned a := Nat.le_add_right _ _
  omega

/-- In every state that any cores reach in any order of their instructions, on either architecture, a lock
has at most one guard, and while there is one the lock variable is one.  A lock variable that is not zero
belongs to exactly one core: it holds the guard, or is about to get it or to give it back. -/
theorem spin_lock_exclusive {regs : C → Nat → Nat} (h : Reaches A (code A) (Machine.start regs) m) (a : Nat) :
    (∀ c, a ∈ (m.core c).guards →
      m.word a = 1 ∧ (m.core c).guards.count a = 1 ∧ ∀ d, a ∈ (m.core d).guards → d = c) ∧
    (m.word a ≠ 0 → m.word a = 1 ∧ ∃ c, ((m.core c).view A).owned a = 1 ∧
      ∀ d, d ≠ c → ((m.core d).view A).owned a = 0) := by
  have hinv : LockInv A m := (LockInv.start regs).run h
  refine ⟨?_, ?_⟩
  · intro c hc
    refine ⟨(hinv.guard hc).1, (hinv.guard hc).2, ?_⟩
    intro d hd
    exact hinv.protocol.owner_unique (Core.owned_pos_of_guard (A := A) hd) (Core.owned_pos_of_guard hc)
  · intro hne
    rcases hinv.protocol.counted a with ⟨hzero, -⟩ | ⟨hone, c, hc, hother⟩
    · exact absurd hzero hne
    · exact ⟨hone, c, hc, hother⟩

/-- Two cores read zero from the lock variable of one lock, and the first of them stores. -/
def contend : List (Bool × Action) :=
  List.flatten [
    [(false, .call .lock 64 fun _ => 7), (true, .call .lock 64 fun _ => 9)],
    (List.replicate 7 [(false, .exec), (true, .exec)]).flatten,
    List.replicate 2 (false, .exec)]

theorem spin_lock_exclusive_contend :
    ∃ m, trace .aarch64 (code .aarch64) (Machine.start fun _ _ => 0) contend = some m ∧
      m.word 64 = 1 ∧ ∀ c, 64 ∈ (m.core c).guards ↔ c = false := by
  have hrun : (trace .aarch64 (code .aarch64) (Machine.start fun _ _ => 0) contend).any
      (fun m => decide (64 ∈ (m.core false).guards)) = true := by decide +kernel
  rcases (Option.any_eq_true _ _).1 hrun with ⟨m, htrace, hm⟩
  have hheld := of_decide_eq_true hm
  rcases (spin_lock_exclusive (reaches_of_trace htrace) 64).1 false hheld with ⟨hword, -, honly⟩
  refine ⟨_, htrace, hword, ?_⟩
  intro c
  constructor
  · intro hc
    exact honly c hc
  · rintro rfl
    exact hheld

end Sync
end Propeller
