import Propeller.Support.Bitmap
import Propeller.Support.Word

/-!
# Support.Logarithms — population counts and logarithms in machine arithmetic

`onesWord`, `floorLog2Word` and `ceilLog2Word` are the functions of `bits64.rs` and `bits32.rs` with the arithmetic
of a build.  No addition of theirs reaches the end of the word and no subtraction goes below zero, so a development
build returns what a release build returns.
-/

namespace Propeller

/-! ## The source functions -/

def onesWord64 (P : Profile) (n : Nat) : Run Nat := do
  let n ← subWord P .aarch64 n ((n >>> 1) &&& 0x5555555555555555)
  let n ← addWord P .aarch64 ((n >>> 2) &&& 0x3333333333333333) (n &&& 0x3333333333333333)
  let n ← addWord P .aarch64 (n >>> 4) n
  let n := n &&& 0x0f0f0f0f0f0f0f0f
  let n ← addWord P .aarch64 n (n >>> 8)
  let n ← addWord P .aarch64 n (n >>> 16)
  let n ← addWord P .aarch64 n (n >>> 32)
  return n &&& 0x7f

def onesWord32 (P : Profile) (n : Nat) : Run Nat := do
  let n ← subWord P .arm n ((n >>> 1) &&& 0x55555555)
  let n ← addWord P .arm ((n >>> 2) &&& 0x33333333) (n &&& 0x33333333)
  let n ← addWord P .arm (n >>> 4) n
  let n := n &&& 0x0f0f0f0f
  let n ← addWord P .arm n (n >>> 8)
  let n ← addWord P .arm n (n >>> 16)
  return n &&& 0x3f

def onesWord (P : Profile) : Arch → Nat → Run Nat
  | .aarch64 => onesWord64 P
  | .arm => onesWord32 P

def floorLog2Word (P : Profile) (A : Arch) (n : Nat) : Run Nat :=
  onesWord P A (smear (smearShifts A) n >>> 1)

def ceilLog2Word (P : Profile) (A : Arch) (n : Nat) : Run Nat := do
  let m := n &&& wrappingPred A n
  let m := m ||| wordNot A (wrappingPred A m)
  let m := m >>> (A.wordBits - 1)
  let count ← onesWord P A (smear (smearShifts A) n >>> 1)
  addWord P A count m

/-! ## No overflow -/

variable {A : Arch} {P : Profile} {n c : Nat}

theorem addWord_comm (P : Profile) (A : Arch) (a b : Nat) : addWord P A a b = addWord P A b a := by
  cases P <;> simp only [addWord, checkedAdd, Nat.add_comm]

/-- A word is added to its own upper bits. -/
theorem addWord_shiftRight (P : Profile) (s : Nat) (hn : n ≤ c) (hc : c + c < A.wordLimit) :
    addWord P A n (n >>> s) = .ok (n + n >>> s) ∧ n + n >>> s ≤ c + c := by
  have hle := Nat.shiftRight_le n s
  exact ⟨addWord_of_lt (by omega), by omega⟩

/-- The steps that leave the number of bits of every byte, whatever follows. -/
theorem fields_returns {α : Type} (P : Profile) {m₁ m₂ : Nat} (hn : n < A.wordLimit)
    (hmask : m₂ + m₂ + (m₂ + m₂) < A.wordLimit) (rest : Nat → Run α) :
    (do
      let x ← subWord P A n (n >>> 1 &&& m₁)
      let y ← addWord P A (x >>> 2 &&& m₂) (x &&& m₂)
      let z ← addWord P A (y >>> 4) y
      rest z) =
    rest ((((n - (n >>> 1 &&& m₁)) >>> 2 &&& m₂) + ((n - (n >>> 1 &&& m₁)) &&& m₂)) >>> 4 +
      (((n - (n >>> 1 &&& m₁)) >>> 2 &&& m₂) + ((n - (n >>> 1 &&& m₁)) &&& m₂))) := by
  rw [subWord_of_le (Nat.and_le_left.trans (Nat.shiftRight_le n 1)) hn, run_ok_bind]
  generalize n - (n >>> 1 &&& m₁) = x
  have hhigh : x >>> 2 &&& m₂ ≤ m₂ := Nat.and_le_right
  have hlow : x &&& m₂ ≤ m₂ := Nat.and_le_right
  rw [addWord_of_lt (by omega), run_ok_bind]
  rcases addWord_shiftRight P 4 (Nat.add_le_add hhigh hlow) hmask with ⟨hsum, -⟩
  rw [addWord_comm, hsum, run_ok_bind, Nat.add_comm]

theorem onesWord64_eq (P : Profile) (hn : n < Arch.wordLimit .aarch64) : onesWord64 P n = .ok (ones64 n) := by
  rw [onesWord64, fields_returns P hn (by decide), ones64]
  generalize hz : _ &&& 0x0f0f0f0f0f0f0f0f = z
  have hle₀ : z ≤ 0x0f0f0f0f0f0f0f0f := hz ▸ Nat.and_le_right
  rcases addWord_shiftRight (A := .aarch64) P 8 hle₀ (by decide) with ⟨hsum₁, hle₁⟩
  rcases addWord_shiftRight (A := .aarch64) P 16 hle₁ (by decide) with ⟨hsum₂, hle₂⟩
  rcases addWord_shiftRight (A := .aarch64) P 32 hle₂ (by decide) with ⟨hsum₃, -⟩
  simp only [hsum₁, run_ok_bind, hsum₂, hsum₃]
  rfl

theorem onesWord32_eq (P : Profile) (hn : n < Arch.wordLimit .arm) : onesWord32 P n = .ok (ones32 n) := by
  rw [onesWord32, fields_returns P hn (by decide), ones32]
  generalize hz : _ &&& 0x0f0f0f0f = z
  have hle₀ : z ≤ 0x0f0f0f0f := hz ▸ Nat.and_le_right
  rcases addWord_shiftRight (A := .arm) P 8 hle₀ (by decide) with ⟨hsum₁, hle₁⟩
  rcases addWord_shiftRight (A := .arm) P 16 hle₁ (by decide) with ⟨hsum₂, -⟩
  simp only [hsum₁, run_ok_bind, hsum₂]
  rfl

theorem onesWord_eq (P : Profile) (hn : n < A.wordLimit) : onesWord P A n = .ok (ones A n) := by
  cases A with
  | aarch64 => exact onesWord64_eq P hn
  | arm => exact onesWord32_eq P hn

/-! ## The logarithms -/

theorem smear_lt (hn : n < A.wordLimit) : smear (smearShifts A) n < A.wordLimit := by
  rcases Nat.eq_zero_or_pos n with rfl | hpos
  · cases A <;> decide
  · have hlog : n.log2 < A.wordBits := (Nat.log2_lt hpos.ne').2 hn
    have hle : 2 ^ (n.log2 + 1) ≤ A.wordLimit := Nat.pow_le_pow_right (by decide) hlog
    have htwo := Nat.two_pow_pos (n.log2 + 1)
    rw [smear_eq hpos hn]
    omega

theorem floorLog2Word_eq (P : Profile) (hn : n < A.wordLimit) : floorLog2Word P A n = .ok (floorLog2 A n) :=
  onesWord_eq P ((Nat.shiftRight_le _ 1).trans_lt (smear_lt hn))

theorem ceilLog2Word_eq (P : Profile) (hn : n < A.wordLimit) : ceilLog2Word P A n = .ok (ceilLog2 A n) := by
  have hfloor : onesWord P A (smear (smearShifts A) n >>> 1) = .ok (floorLog2 A n) := floorLog2Word_eq P hn
  have hceil : Nat.clog 2 n ≤ A.wordBits := Nat.clog_le_of_le_pow hn.le
  have hbits : A.wordBits < A.wordLimit := Nat.lt_two_pow_self
  have hsum := ceilLog2_eq hn
  simp only [ceilLog2] at hsum
  simp only [ceilLog2Word, hfloor, run_ok_bind]
  rw [addWord_of_lt]
  · rfl
  · rw [floorLog2, hsum]
    omega

/-- In every build, `ones` counts the bits of a word, `floor_log2` is the largest power of two below it and
`ceil_log2` the least one above it; none of the three overflows. -/
theorem logarithms_exact (P : Profile) (hn : n < A.wordLimit) :
    onesWord P A n = .ok ((List.range A.wordBits).countP (n.testBit ·)) ∧
    (∃ k, floorLog2Word P A n = .ok k ∧ (n = 0 → k = 0) ∧ (0 < n → 2 ^ k ≤ n ∧ ∀ j, 2 ^ j ≤ n → j ≤ k)) ∧
    ∃ k, ceilLog2Word P A n = .ok k ∧ (n = 0 → k = 0) ∧ (0 < n → n ≤ 2 ^ k ∧ ∀ j, n ≤ 2 ^ j → k ≤ j) := by
  refine ⟨?_, ⟨n.log2, ?_, ?_, ?_⟩, Nat.clog 2 n, ?_, ?_, ?_⟩
  · rw [onesWord_eq P hn, ones_eq hn]
  · rw [floorLog2Word_eq P hn, floorLog2_eq hn]
  · rintro rfl
    rfl
  · intro hpos
    exact ⟨Nat.log2_self_le hpos.ne', fun j hj => (Nat.le_log2 hpos.ne').2 hj⟩
  · rw [ceilLog2Word_eq P hn, ceilLog2_eq hn]
  · rintro rfl
    exact Nat.clog_zero_right 2
  · intro _
    exact ⟨Nat.le_pow_clog (by decide) n, fun j hj => Nat.clog_le_of_le_pow hj⟩

theorem logarithms_exact_hundred :
    100 < Arch.wordLimit .arm ∧
    onesWord .dev .arm 100 = .ok ((List.range (Arch.wordBits .arm)).countP (Nat.testBit 100 ·)) ∧
    (∃ k, floorLog2Word .dev .arm 100 = .ok k ∧ (100 = 0 → k = 0) ∧
      (0 < 100 → 2 ^ k ≤ 100 ∧ ∀ j, 2 ^ j ≤ 100 → j ≤ k)) ∧
    ∃ k, ceilLog2Word .dev .arm 100 = .ok k ∧ (100 = 0 → k = 0) ∧
      (0 < 100 → 100 ≤ 2 ^ k ∧ ∀ j, 100 ≤ 2 ^ j → k ≤ j) :=
  ⟨by decide, logarithms_exact .dev (by decide)⟩

end Propeller
