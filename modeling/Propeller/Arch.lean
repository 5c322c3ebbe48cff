import Mathlib.Algebra.Group.Nat.Defs
import Mathlib.Data.Nat.Log

/-!
# Arch — what the kernel takes from the architecture

The kernel is built for two architectures.  Everything the memory subsystem reads from `arch::*` is
either a constant of the architecture (word width, page size) or a value of the kernel configuration
that the start code passes in (`KernelConfig`).

Addresses and sizes are `usize` words.  They are modelled as `Nat`; every operation that the
overflow checks of the development profile would stop is an explicit `Panic.overflow`, and the
operations the source asks to wrap are taken modulo `2 ^ A.wordBits`.
-/

namespace Propeller

/-- The supported architectures. -/
inductive Arch
  | aarch64
  | arm
  deriving DecidableEq, Repr

namespace Arch

/-- `usize::BITS`. -/
def wordBits : Arch → Nat
  | .aarch64 => 64
  | .arm => 32

/-- `bits::WORD_BIT_SHIFT`, the logarithm of the word width. -/
def wordBitShift : Arch → Nat
  | .aarch64 => 6
  | .arm => 5

/-- `bits::WORD_BYTES`. -/
def wordBytes (A : Arch) : Nat :=
  A.wordBits >>> 3

/-- `bits::WORD_SHIFT`, the logarithm of the word size in bytes. -/
def wordShift : Arch → Nat
  | .aarch64 => 3
  | .arm => 2

/-- `bits::CHECKSUM_SEED`. -/
def checksumSeed : Arch → Nat
  | .aarch64 => 0x09a52af1c62bd04b
  | .arm => 0xe9daacd5

/-- `bits::POISON`. -/
def poison : Arch → Nat
  | .aarch64 => 0xcccccccccccccccc
  | .arm => 0xcccccccc

/-- The largest word plus one. -/
def wordLimit (A : Arch) : Nat :=
  2 ^ A.wordBits

theorem wordBits_eq (A : Arch) : A.wordBits = 2 ^ A.wordBitShift := by
  cases A <;> rfl

theorem wordBits_pos (A : Arch) : 0 < A.wordBits := by
  cases A <;> decide

end Arch

/-- `get_page_shift()`, the same on both architectures. -/
def pageShift : Nat := 12

/-- `get_page_size()`. -/
def pageSize : Nat := 4096

theorem pageSize_eq : pageSize = 2 ^ pageShift := rfl

theorem pageSize_pos : 0 < pageSize := by decide

/-- `get_section_size()`, the same on both architectures. -/
def sectionSize : Nat := 0x200000

theorem sectionSize_eq : sectionSize = 2 ^ 21 := rfl

/-- The fields of `KernelConfig` that the memory subsystem reads. -/
structure KernelConfig where
  virtualBase : Nat
  kernelBase : Nat
  vmSplit : Nat
  deriving DecidableEq, Repr

/-- `get_maximum_physical_address()`: the complement of the kernel base. -/
def getMaximumPhysicalAddress (A : Arch) (cfg : KernelConfig) : Nat :=
  cfg.kernelBase ^^^ (A.wordLimit - 1)

/-- The ways the memory subsystem stops the kernel. -/
inductive Panic
  /-- arithmetic overflow, `attempt to add/subtract with overflow` -/
  | overflow
  /-- slice index out of bounds -/
  | index
  /-- `unwrap()` of `None` -/
  | unwrap
  /-- `assert!(node.verify_checksum())` -/
  | checksum
  /-- an address that must be aligned is not -/
  | alignment
  /-- `assert_eq!(block.prev, block.next)` in `remove_from_list` -/
  | listLinks
  /-- `assert_eq!(head_addr, block_addr)` in `remove_from_list` -/
  | listHead
  /-- the arguments of `free` do not describe a block of the allocator -/
  | badBlock
  /-- the counters or the free list of a slab contradict each other -/
  | slabState
  /-- a slab of the object type is larger than the page allocator's blocks or holds no object -/
  | slabSize
  /-- a word that must be poisoned is not -/
  | notPoisoned
  /-- `assert_ne!(obj_addr, 0)` -/
  | nullObject
  /-- `panic!("Could not split range; set is full.")` -/
  | rangeSetFull
  /-- a page allocator has no page for a new table -/
  | noTablePage
  /-- `assert!(get_memory_layout(..))` or `assert_ne!(meta_base, 0)`: no memory -/
  | noMemory
  /-- an assertion of `arch::arm::task` and its local mappings -/
  | localMapping
  /-- `attempt to divide by zero` -/
  | division
  /-- a loop of the source did not end within the given fuel -/
  | diverges
  deriving DecidableEq, Repr

/-- A computation that may stop the kernel. -/
abbrev Run (α : Type) : Type := Except Panic α

/-- `assert!(p)`. -/
def require (p : Prop) [Decidable p] (e : Panic) : Run Unit :=
  if p then .ok () else .error e

/-- Checked subtraction. -/
def checkedSub (a b : Nat) : Run Nat :=
  if b ≤ a then .ok (a - b) else .error .overflow

/-- Checked addition. -/
def checkedAdd (A : Arch) (a b : Nat) : Run Nat :=
  if a + b < A.wordLimit then .ok (a + b) else .error .overflow

section Run

variable {α β : Type}

@[simp] theorem run_pure_eq_ok {a b : α} : (pure a : Run α) = .ok b ↔ a = b := by
  constructor
  · intro h
    exact Except.ok.inj h
  · rintro rfl
    rfl

/-- A sequence returns exactly when both parts do. -/
theorem run_bind_eq_ok {x : Run α} {f : α → Run β} {b : β} :
    (x >>= f) = .ok b ↔ ∃ a, x = .ok a ∧ f a = .ok b := by
  cases x with
  | error e => simp [Bind.bind, Except.bind]
  | ok a => simp [Bind.bind, Except.bind]

@[simp] theorem run_ok_bind (a : α) (f : α → Run β) : (Except.ok a >>= f) = f a := rfl

@[simp] theorem run_error_bind (e : Panic) (f : α → Run β) :
    ((Except.error e : Run α) >>= f) = .error e := rfl

/-- Only what a part returns matters to the rest. -/
theorem run_bind_congr {x : Run α} {f g : α → Run β} (h : ∀ a, x = .ok a → f a = g a) : x >>= f = x >>= g := by
  cases x with
  | error e => rfl
  | ok a => exact h a rfl

/-- A result that is known up to a projection comes from a run that returns. -/
theorem run_eq_ok_of_map {x : Run α} {f : α → β} {b : β} (h : x.map f = .ok b) :
    ∃ a, x = .ok a ∧ f a = b := by
  cases x with
  | error e => simp [Except.map] at h
  | ok a => exact ⟨a, rfl, Except.ok.inj h⟩

theorem require_eq_ok {p : Prop} [Decidable p] {e : Panic} {u : Unit} :
    require p e = .ok u ↔ p := by
  unfold require
  split <;> simp_all

theorem require_pos {p : Prop} [Decidable p] {e : Panic} (h : p) : require p e = .ok () :=
  if_pos h

/-- `unwrap()`. -/
def unwrap {α : Type} : Option α → Run α
  | some a => .ok a
  | none => .error .unwrap

theorem unwrap_eq_ok {α : Type} {o : Option α} {a : α} : unwrap o = .ok a ↔ o = some a := by
  cases o with
  | none => simp [unwrap]
  | some b => simp [unwrap]

theorem checkedSub_eq_ok {a b c : Nat} : checkedSub a b = .ok c ↔ b ≤ a ∧ a - b = c := by
  unfold checkedSub
  split <;> simp_all

theorem checkedSub_of_le {a b : Nat} (h : b ≤ a) : checkedSub a b = .ok (a - b) :=
  if_pos h

theorem checkedAdd_eq_ok {A : Arch} {a b c : Nat} :
    checkedAdd A a b = .ok c ↔ a + b < A.wordLimit ∧ a + b = c := by
  unfold checkedAdd
  split <;> simp_all

theorem checkedAdd_of_lt {A : Arch} {a b : Nat} (h : a + b < A.wordLimit) :
    checkedAdd A a b = .ok (a + b) :=
  if_pos h

end Run

end Propeller
