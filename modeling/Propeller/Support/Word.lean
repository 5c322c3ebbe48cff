import Propeller.Support.Bits

/-!
# Support.Word — machine arithmetic

The arithmetic of the source is checked in a development build and wraps in a release build.
-/

namespace Propeller

/-- How the kernel is built. -/
inductive Profile
  | dev
  | release
  deriving DecidableEq, Repr

variable {A : Arch} {P : Profile} {a b c : Nat}

def addWord (P : Profile) (A : Arch) (a b : Nat) : Run Nat :=
  match P with
  | .dev => checkedAdd A a b
  | .release => .ok ((a + b) % A.wordLimit)

def subWord (P : Profile) (A : Arch) (a b : Nat) : Run Nat :=
  match P with
  | .dev => checkedSub a b
  | .release => .ok ((a + A.wordLimit - b) % A.wordLimit)

def mulWord (P : Profile) (A : Arch) (a b : Nat) : Run Nat :=
  match P with
  | .dev => if a * b < A.wordLimit then .ok (a * b) else .error .overflow
  | .release => .ok (a * b % A.wordLimit)

/-- `x << s` for a shift below the word size. -/
def wordShl (A : Arch) (x s : Nat) : Nat :=
  (x <<< s) % 2 ^ A.wordBits

/-- `x << s`; a release build takes the shift modulo the word size. -/
def shlWord (P : Profile) (A : Arch) (x s : Nat) : Run Nat :=
  match P with
  | .dev => if s < A.wordBits then .ok (wordShl A x s) else .error .overflow
  | .release => .ok (wordShl A x (s % A.wordBits))

/-- `align_up` in a build of the given profile. -/
def alignUpWord (P : Profile) (A : Arch) (addr boundary : Nat) : Run Nat := do
  let b := boundary - 1
  let sum ← addWord P A addr b
  return sum &&& wordNot A b

theorem addWord_of_lt (h : a + b < A.wordLimit) : addWord P A a b = .ok (a + b) := by
  cases P with
  | dev => exact checkedAdd_of_lt h
  | release => rw [addWord, Nat.mod_eq_of_lt h]

theorem subWord_of_le (h : b ≤ a) (ha : a < A.wordLimit) : subWord P A a b = .ok (a - b) := by
  cases P with
  | dev => exact checkedSub_of_le h
  | release =>
      have hsum : a + A.wordLimit - b = a - b + A.wordLimit := by omega
      rw [subWord, hsum, Nat.add_mod_right, Nat.mod_eq_of_lt (by omega)]

/-- A sum that reaches the end of the address space wraps to zero. -/
theorem addWord_eq_ok_of_limit (h : a + b = A.wordLimit) (hc : addWord P A a b = .ok c) : c = 0 := by
  cases P with
  | dev =>
      have := (checkedAdd_eq_ok.1 hc).1
      omega
  | release =>
      rw [addWord, h, Nat.mod_self] at hc
      exact (Except.ok.inj hc).symm

theorem mulWord_of_lt (h : a * b < A.wordLimit) : mulWord P A a b = .ok (a * b) := by
  cases P with
  | dev => exact if_pos h
  | release => rw [mulWord, Nat.mod_eq_of_lt h]

theorem addWord_eq_mod (h : addWord P A a b = .ok c) : c = (a + b) % A.wordLimit := by
  cases P with
  | dev =>
      rcases checkedAdd_eq_ok.mp h with ⟨hlt, rfl⟩
      exact (Nat.mod_eq_of_lt hlt).symm
  | release => exact (Except.ok.inj h).symm

theorem mulWord_eq_mod (h : mulWord P A a b = .ok c) : c = a * b % A.wordLimit := by
  cases P with
  | dev =>
      simp only [mulWord] at h
      split at h
      next hlt => rw [← Except.ok.inj h, Nat.mod_eq_of_lt hlt]
      next => cases h
  | release => exact (Except.ok.inj h).symm

theorem alignUpWord_two_pow {addr k : Nat} (h : addr + (2 ^ k - 1) < A.wordLimit) (hk : k ≤ A.wordBits) :
    alignUpWord P A addr (2 ^ k) = .ok ((addr + (2 ^ k - 1)) / 2 ^ k * 2 ^ k) := by
  simp only [alignUpWord, addWord_of_lt h, run_ok_bind, and_wordNot_two_pow h hk]
  rfl

end Propeller
