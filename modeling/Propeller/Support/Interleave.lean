import Propeller.Lib.OrMap
import Propeller.Support.Word

/-!
# Support.Interleave — interleaved words

`interleave_bits` spreads the lower halves of two words over every other bit, `compact_odd_bits` and
`compact_even_bits` collect them again.  All three consist of shifts, masks and unions, so they are settled by what
they do to single bits.  The first step of `interleave_bits` does not clear the upper half: its mask keeps the third
quarter of the word, and these bits end where those of the second quarter do.
-/

namespace Propeller

/-! ## The source functions -/

/-- `compact_odd_bits` of `bits64.rs`. -/
def compactOddBits64 (n : Nat) : Nat :=
  let n := ((n &&& 0x4444444444444444) >>> 1) ||| (n &&& 0x1111111111111111)
  let n := ((n &&& 0x3030303030303030) >>> 2) ||| (n &&& 0x0303030303030303)
  let n := ((n &&& 0x0f000f000f000f00) >>> 4) ||| (n &&& 0x000f000f000f000f)
  let n := ((n &&& 0x00ff000000ff0000) >>> 8) ||| (n &&& 0x000000ff000000ff)
  let n := ((n &&& 0x0000ffff00000000) >>> 16) ||| (n &&& 0x000000000000ffff)
  n

/-- `compact_odd_bits` of `bits32.rs`. -/
def compactOddBits32 (n : Nat) : Nat :=
  let n := ((n &&& 0x44444444) >>> 1) ||| (n &&& 0x11111111)
  let n := ((n &&& 0x30303030) >>> 2) ||| (n &&& 0x03030303)
  let n := ((n &&& 0x0f000f00) >>> 4) ||| (n &&& 0x000f000f)
  let n := ((n &&& 0x00ff0000) >>> 8) ||| (n &&& 0x000000ff)
  n

def compactOddBits : Arch → Nat → Nat
  | .aarch64 => compactOddBits64
  | .arm => compactOddBits32

def compactEvenBits (A : Arch) (n : Nat) : Nat :=
  compactOddBits A (n >>> 1)

/-- What `interleave_bits` of `bits64.rs` does to either argument. -/
def spreadBits64 (x : Nat) : Nat :=
  let x := (x ||| wordShl .aarch64 x 16) &&& 0x0000ffff0000ffff
  let x := (x ||| wordShl .aarch64 x 8) &&& 0x00ff00ff00ff00ff
  let x := (x ||| wordShl .aarch64 x 4) &&& 0x0f0f0f0f0f0f0f0f
  let x := (x ||| wordShl .aarch64 x 2) &&& 0x3333333333333333
  let x := (x ||| wordShl .aarch64 x 1) &&& 0x5555555555555555
  x

/-- What `interleave_bits` of `bits32.rs` does to either argument. -/
def spreadBits32 (x : Nat) : Nat :=
  let x := (x ||| wordShl .arm x 8) &&& 0x00ff00ff
  let x := (x ||| wordShl .arm x 4) &&& 0x0f0f0f0f
  let x := (x ||| wordShl .arm x 2) &&& 0x33333333
  let x := (x ||| wordShl .arm x 1) &&& 0x55555555
  x

def spreadBits : Arch → Nat → Nat
  | .aarch64 => spreadBits64
  | .arm => spreadBits32

def interleaveBits (A : Arch) (a b : Nat) : Nat :=
  spreadBits A a ||| wordShl A (spreadBits A b) 1

/-! ## Single bits -/

namespace OrMap

theorem wordShl {f : Nat → Nat} (hf : OrMap f) (A : Arch) (s : Nat) : OrMap fun x => wordShl A (f x) s :=
  (hf.shiftedLeft s).truncated A.wordBits

/-- A round of `compact_odd_bits`. -/
theorem gather {f : Nat → Nat} (hf : OrMap f) (high s low : Nat) :
    OrMap fun x => ((f x &&& high) >>> s) ||| (f x &&& low) :=
  ((hf.masked high).shiftedRight s).union (hf.masked low)

/-- A round of `interleave_bits`. -/
theorem scatter {f : Nat → Nat} (hf : OrMap f) (A : Arch) (s mask : Nat) :
    OrMap fun x => (f x ||| Propeller.wordShl A (f x) s) &&& mask :=
  (hf.union (hf.wordShl A s)).masked mask

end OrMap

theorem orMap_compactOddBits (A : Arch) : OrMap (compactOddBits A) := by
  cases A with
  | aarch64 =>
      exact ((((OrMap.id.gather 0x4444444444444444 1 0x1111111111111111).gather 0x3030303030303030 2
        0x0303030303030303).gather 0x0f000f000f000f00 4 0x000f000f000f000f).gather 0x00ff000000ff0000 8
        0x000000ff000000ff).gather 0x0000ffff00000000 16 0x000000000000ffff
  | arm =>
      exact (((OrMap.id.gather 0x44444444 1 0x11111111).gather 0x30303030 2 0x03030303).gather 0x0f000f00 4
        0x000f000f).gather 0x00ff0000 8 0x000000ff

theorem orMap_spreadBits (A : Arch) : OrMap (spreadBits A) := by
  cases A with
  | aarch64 =>
      exact ((((OrMap.id.scatter .aarch64 16 0x0000ffff0000ffff).scatter .aarch64 8 0x00ff00ff00ff00ff).scatter
        .aarch64 4 0x0f0f0f0f0f0f0f0f).scatter .aarch64 2 0x3333333333333333).scatter .aarch64 1 0x5555555555555555
  | arm =>
      exact (((OrMap.id.scatter .arm 8 0x00ff00ff).scatter .arm 4 0x0f0f0f0f).scatter .arm 2 0x33333333).scatter
        .arm 1 0x55555555

theorem orMap_compactEvenBits (A : Arch) : OrMap (compactEvenBits A) :=
  (orMap_compactOddBits A).comp (OrMap.id.shiftedRight 1)

/-- The lower half of a word, with the third quarter on top of the second one. -/
def foldedHalf (A : Arch) (x : Nat) : Nat :=
  x % 2 ^ (A.wordBits / 2) ||| ((x >>> (A.wordBits / 2)) % 2 ^ (A.wordBits / 4)) <<< (A.wordBits / 4)

theorem orMap_foldedHalf (A : Arch) : OrMap (foldedHalf A) :=
  (OrMap.id.truncated _).union (((OrMap.id.shiftedRight _).truncated _).shiftedLeft _)

/-! ## Round trips -/

variable {A : Arch} {a b n x : Nat}

theorem compactOddBits_spreadBits (hx : x < A.wordLimit) : compactOddBits A (spreadBits A x) = foldedHalf A x := by
  refine ((orMap_compactOddBits A).comp (orMap_spreadBits A)).eq_of_two_pow (orMap_foldedHalf A) ?_ hx
  cases A <;> decide

theorem compactEvenBits_spreadBits (hx : x < A.wordLimit) : compactEvenBits A (spreadBits A x) = 0 := by
  refine ((orMap_compactEvenBits A).comp (orMap_spreadBits A)).eq_of_two_pow OrMap.none ?_ hx
  cases A <;> decide

theorem compactOddBits_shifted (hx : x < A.wordLimit) : compactOddBits A (wordShl A (spreadBits A x) 1) = 0 := by
  refine ((orMap_compactOddBits A).comp ((orMap_spreadBits A).wordShl A 1)).eq_of_two_pow OrMap.none ?_ hx
  cases A <;> decide

theorem compactEvenBits_shifted (hx : x < A.wordLimit) :
    compactEvenBits A (wordShl A (spreadBits A x) 1) = foldedHalf A x := by
  refine ((orMap_compactEvenBits A).comp ((orMap_spreadBits A).wordShl A 1)).eq_of_two_pow (orMap_foldedHalf A) ?_ hx
  cases A <;> decide

theorem interleaveBits_compact (hn : n < A.wordLimit) :
    interleaveBits A (compactOddBits A n) (compactEvenBits A n) = n := by
  refine (((orMap_spreadBits A).comp (orMap_compactOddBits A)).union
    (((orMap_spreadBits A).comp (orMap_compactEvenBits A)).wordShl A 1)).eq_of_two_pow OrMap.id ?_ hn
  cases A <;> decide

/-- Where the third quarter of a word has a bit, the second one has it as well. -/
def UpperHidden (A : Arch) (x : Nat) : Prop :=
  ∀ i < A.wordBits / 4, x.testBit (A.wordBits / 2 + i) = true → x.testBit (A.wordBits / 4 + i) = true

instance (A : Arch) (x : Nat) : Decidable (UpperHidden A x) :=
  inferInstanceAs (Decidable (∀ i < A.wordBits / 4, _))

theorem quarters (A : Arch) : A.wordBits / 2 = A.wordBits / 4 + A.wordBits / 4 := by
  cases A <;> rfl

theorem foldedHalf_eq_iff (A : Arch) (x : Nat) : foldedHalf A x = x % 2 ^ (A.wordBits / 2) ↔ UpperHidden A x := by
  have hquarters := quarters A
  constructor
  · intro heq i hi hbit
    have htest := congrArg (Nat.testBit · (A.wordBits / 4 + i)) heq
    simp only [foldedHalf, Nat.testBit_or, Nat.testBit_shiftLeft, Nat.testBit_mod_two_pow, Nat.testBit_shiftRight,
      Nat.add_sub_cancel_left, hbit] at htest
    simpa [hi, show A.wordBits / 4 + i < A.wordBits / 2 by omega] using htest
  · intro hhidden
    apply Nat.eq_of_testBit_eq
    intro j
    simp only [foldedHalf, Nat.testBit_or, Nat.testBit_shiftLeft, Nat.testBit_mod_two_pow, Nat.testBit_shiftRight]
    -- Only the bits of the second quarter have two sources.
    by_cases hj : A.wordBits / 4 ≤ j ∧ j < A.wordBits / 2
    · have hback : A.wordBits / 4 + (j - A.wordBits / 4) = j := by omega
      have himp := hhidden (j - A.wordBits / 4) (by omega)
      rw [hback] at himp
      cases hlow : x.testBit j with
      | true => simp [hj.2]
      | false =>
          have hhigh : x.testBit (A.wordBits / 2 + (j - A.wordBits / 4)) = false := by
            rw [Bool.eq_false_iff]
            intro hset
            rw [himp hset] at hlow
            cases hlow
          simp [hhigh]
    · have hout : ¬ (A.wordBits / 4 ≤ j ∧ j - A.wordBits / 4 < A.wordBits / 4) := by omega
      rw [Bool.or_eq_left_iff_imp]
      intro hset
      simp only [Bool.and_eq_true, decide_eq_true_eq] at hset
      exact absurd ⟨hset.1, hset.2.1⟩ hout

/-- The halves come back exactly if no bit of the third quarter shows; every word is put together again. -/
theorem interleaveBits_inverse_iff (ha : a < A.wordLimit) (hb : b < A.wordLimit) (hn : n < A.wordLimit) :
    (compactOddBits A (interleaveBits A a b) = a % 2 ^ (A.wordBits / 2) ∧
        compactEvenBits A (interleaveBits A a b) = b % 2 ^ (A.wordBits / 2) ↔
      UpperHidden A a ∧ UpperHidden A b) ∧
    interleaveBits A (compactOddBits A n) (compactEvenBits A n) = n := by
  refine ⟨?_, interleaveBits_compact hn⟩
  have hodd : compactOddBits A (interleaveBits A a b) = foldedHalf A a := by
    rw [interleaveBits, (orMap_compactOddBits A).or, compactOddBits_spreadBits ha, compactOddBits_shifted hb,
      Nat.or_zero]
  have heven : compactEvenBits A (interleaveBits A a b) = foldedHalf A b := by
    rw [interleaveBits, (orMap_compactEvenBits A).or, compactEvenBits_spreadBits ha, compactEvenBits_shifted hb,
      Nat.zero_or]
  rw [hodd, heven, foldedHalf_eq_iff, foldedHalf_eq_iff]

theorem interleaveBits_inverse_ones :
    (compactOddBits .aarch64 (interleaveBits .aarch64 0xffffffffffffffff 3) =
          0xffffffffffffffff % 2 ^ (Arch.wordBits .aarch64 / 2) ∧
        compactEvenBits .aarch64 (interleaveBits .aarch64 0xffffffffffffffff 3) = 3 % 2 ^ (Arch.wordBits .aarch64 / 2) ↔
      UpperHidden .aarch64 0xffffffffffffffff ∧ UpperHidden .aarch64 3) ∧
    interleaveBits .aarch64 (compactOddBits .aarch64 6) (compactEvenBits .aarch64 6) = 6 :=
  interleaveBits_inverse_iff (by decide) (by decide) (by decide)

/-- A bit of the upper half gets into the result, on both architectures. -/
theorem interleaveBits_upper_shows :
    compactOddBits .aarch64 (interleaveBits .aarch64 0x100000000 0) ≠ 0x100000000 % 2 ^ 32 ∧
      compactOddBits .arm (interleaveBits .arm 0x10000 0) ≠ 0x10000 % 2 ^ 16 := by
  decide

end Propeller
