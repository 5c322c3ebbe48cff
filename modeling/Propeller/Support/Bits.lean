import Mathlib.Data.Nat.Factorization.Basic
import Propeller.Arch

/-!
# Bits — the word tricks of `support::bits` and `arch::bits`

The functions are those of `support/bits.rs` and of the two `arch/common/bits/bits*.rs` files, word
for word.  Their specifications are what the rest of the development uses: alignment is divisibility,
`floorLog2` is `Nat.log2`, `ceilLog2` is `Nat.clog 2` and `leastSignificantBit` is the largest power
of two that divides its argument.
-/

namespace Propeller

/-! ## The source functions -/

/-- `!n` on a word. -/
def wordNot (A : Arch) (n : Nat) : Nat :=
  n ^^^ (A.wordLimit - 1)

/-- `n.wrapping_sub(1)`. -/
def wrappingPred (A : Arch) (n : Nat) : Nat :=
  (n + (A.wordLimit - 1)) % A.wordLimit

def alignDown (A : Arch) (addr boundary : Nat) : Nat :=
  addr &&& wordNot A (boundary - 1)

def alignUp (A : Arch) (addr boundary : Nat) : Run Nat := do
  let b := boundary - 1
  let sum ← checkedAdd A addr b
  return sum &&& wordNot A b

def isAligned (A : Arch) (addr boundary : Nat) : Bool :=
  addr &&& wordNot A (boundary - 1) == addr

def isPowerOf2 (n : Nat) : Bool :=
  n != 0 && n &&& (n - 1) == 0

def leastSignificantBit (A : Arch) (n : Nat) : Nat :=
  n &&& ((wordNot A n + 1) % A.wordLimit)

def xorChecksum (A : Arch) (words : List Nat) : Nat :=
  words.foldl (· ^^^ ·) A.checksumSeed

/-- The population count of `bits64.rs`. -/
def ones64 (n : Nat) : Nat :=
  let n := n - ((n >>> 1) &&& 0x5555555555555555)
  let n := ((n >>> 2) &&& 0x3333333333333333) + (n &&& 0x3333333333333333)
  let n := ((n >>> 4) + n) &&& 0x0f0f0f0f0f0f0f0f
  let n := n + (n >>> 8)
  let n := n + (n >>> 16)
  let n := n + (n >>> 32)
  n &&& 0x7f

/-- The population count of `bits32.rs`. -/
def ones32 (n : Nat) : Nat :=
  let n := n - ((n >>> 1) &&& 0x55555555)
  let n := ((n >>> 2) &&& 0x33333333) + (n &&& 0x33333333)
  let n := ((n >>> 4) + n) &&& 0x0f0f0f0f
  let n := n + (n >>> 8)
  let n := n + (n >>> 16)
  n &&& 0x3f

def ones : Arch → Nat → Nat
  | .aarch64 => ones64
  | .arm => ones32

/-- The shifts by which both logarithms copy the top bit into all lower ones. -/
def smearShifts : Arch → List Nat
  | .aarch64 => [1, 2, 4, 8, 16, 32]
  | .arm => [1, 2, 4, 8, 16]

/-- `n |= n >> s` for every shift in turn. -/
def smear (shifts : List Nat) (n : Nat) : Nat :=
  shifts.foldl (fun n s => n ||| n >>> s) n

def floorLog2 (A : Arch) (n : Nat) : Nat :=
  ones A (smear (smearShifts A) n >>> 1)

def ceilLog2 (A : Arch) (n : Nat) : Nat :=
  let m := n &&& wrappingPred A n
  let m := m ||| wordNot A (wrappingPred A m)
  let m := m >>> (A.wordBits - 1)
  ones A (smear (smearShifts A) n >>> 1) + m

/-! ## Words -/

theorem two_le_wordLimit (A : Arch) : 2 ≤ A.wordLimit := by
  cases A <;> decide

theorem wordNot_eq {A : Arch} {n : Nat} (hn : n < A.wordLimit) :
    wordNot A n = A.wordLimit - (n + 1) := by
  unfold wordNot Arch.wordLimit at *
  apply Nat.eq_of_testBit_eq
  intro i
  rw [Nat.testBit_xor, Nat.testBit_two_pow_sub_one, Nat.testBit_two_pow_sub_succ hn]
  by_cases hi : i < A.wordBits
  · simp [hi]
  · have hzero : n.testBit i = false :=
      Nat.testBit_lt_two_pow (hn.trans_le (Nat.pow_le_pow_right (by decide) (by omega)))
    simp [hi, hzero]

theorem wrappingPred_of_pos {A : Arch} {n : Nat} (hpos : 0 < n) (hn : n < A.wordLimit) :
    wrappingPred A n = n - 1 := by
  have hsum : n + (A.wordLimit - 1) = A.wordLimit + (n - 1) := by omega
  rw [wrappingPred, hsum, Nat.add_mod_left, Nat.mod_eq_of_lt (by omega)]

theorem wrappingPred_zero (A : Arch) : wrappingPred A 0 = A.wordLimit - 1 := by
  have := two_le_wordLimit A
  rw [wrappingPred, Nat.zero_add, Nat.mod_eq_of_lt (by omega)]

/-! ## Alignment -/

/-- Masking off the low `k` bits of a word. -/
theorem and_wordNot_two_pow {A : Arch} {addr k : Nat} (ha : addr < A.wordLimit)
    (hk : k ≤ A.wordBits) : addr &&& wordNot A (2 ^ k - 1) = addr / 2 ^ k * 2 ^ k := by
  have hlow : 2 ^ k - 1 < A.wordLimit := by
    have hle : 2 ^ k ≤ A.wordLimit := Nat.pow_le_pow_right (by decide) hk
    have hpos : 0 < 2 ^ k := Nat.two_pow_pos k
    omega
  rw [← Nat.shiftRight_eq_div_pow, ← Nat.shiftLeft_eq, wordNot_eq hlow]
  apply Nat.eq_of_testBit_eq
  intro i
  rw [Nat.testBit_and, Arch.wordLimit, Nat.testBit_two_pow_sub_succ hlow,
    Nat.testBit_two_pow_sub_one, Nat.testBit_shiftLeft, Nat.testBit_shiftRight]
  by_cases hik : i < k
  · simp [hik]
  · rw [Nat.add_sub_cancel' (by omega : k ≤ i)]
    by_cases hiw : i < A.wordBits
    · simp [hik, hiw, Nat.le_of_not_lt hik]
    · have hzero : addr.testBit i = false :=
        Nat.testBit_lt_two_pow (ha.trans_le (Nat.pow_le_pow_right (by decide) (by omega)))
      simp [hzero]

theorem alignDown_eq {A : Arch} {addr k : Nat} (ha : addr < A.wordLimit) (hk : k ≤ A.wordBits) :
    alignDown A addr (2 ^ k) = addr / 2 ^ k * 2 ^ k :=
  and_wordNot_two_pow ha hk

theorem isAligned_iff {A : Arch} {addr k : Nat} (ha : addr < A.wordLimit) (hk : k ≤ A.wordBits) :
    isAligned A addr (2 ^ k) = true ↔ 2 ^ k ∣ addr := by
  rw [isAligned, beq_iff_eq, and_wordNot_two_pow ha hk]
  constructor
  · intro h
    exact ⟨addr / 2 ^ k, by rw [Nat.mul_comm]; exact h.symm⟩
  · intro h
    exact Nat.div_mul_cancel h

/-- An address is a page address of the word exactly when aligning it down keeps it. -/
theorem alignDown_eq_self_iff {A : Arch} {addr k : Nat} (hk : k ≤ A.wordBits) :
    alignDown A addr (2 ^ k) = addr ↔ addr < A.wordLimit ∧ 2 ^ k ∣ addr := by
  constructor
  · intro h
    have hlow : 2 ^ k - 1 < A.wordLimit := by
      have hle : 2 ^ k ≤ A.wordLimit := Nat.pow_le_pow_right (by decide) hk
      have hpos : 0 < 2 ^ k := Nat.two_pow_pos k
      omega
    have hlt : addr < A.wordLimit := by
      have hle : addr ≤ wordNot A (2 ^ k - 1) := h ▸ Nat.and_le_right
      rw [wordNot_eq hlow] at hle
      omega
    rw [alignDown_eq hlt hk] at h
    exact ⟨hlt, Nat.dvd_iff_div_mul_eq _ _ |>.2 h⟩
  · rintro ⟨hlt, hdvd⟩
    rw [alignDown_eq hlt hk]
    exact Nat.div_mul_cancel hdvd

theorem isPowerOf2_iff {n : Nat} : isPowerOf2 n = true ↔ ∃ k, n = 2 ^ k := by
  have h := @Nat.ne_zero_and_sub_one_eq_zero_iff_isPowerOfTwo n
  rw [Nat.isPowerOfTwo] at h
  rw [← h]
  simp [isPowerOf2]

/-! ## The least significant bit -/

/-- An odd number and its negation share only bit zero. -/
theorem odd_and_two_pow_sub {q v : Nat} (hq : 2 * q + 1 < 2 ^ (v + 1)) :
    (2 * q + 1) &&& (2 ^ (v + 1) - (2 * q + 1)) = 1 := by
  have hqv : q < 2 ^ v := by
    rw [Nat.pow_succ] at hq
    omega
  have hneg : 2 ^ (v + 1) - (2 * q + 1) = 2 * (2 ^ v - (q + 1)) + 1 := by
    rw [Nat.pow_succ]
    omega
  rw [hneg]
  apply Nat.eq_of_testBit_eq
  intro i
  cases i with
  | zero => simp
  | succ i =>
      have hhalf : ∀ m, (2 * m + 1) / 2 = m := by
        intro m
        omega
      rw [Nat.testBit_and, Nat.testBit_succ, Nat.testBit_succ, Nat.testBit_succ, hhalf, hhalf,
        Nat.testBit_two_pow_sub_succ hqv]
      cases q.testBit i <;> simp

theorem leastSignificantBit_spec {A : Arch} {n : Nat} (hpos : 0 < n) (hn : n < A.wordLimit) :
    ∃ j, leastSignificantBit A n = 2 ^ j ∧ 2 ^ j ∣ n ∧ ¬ 2 ^ (j + 1) ∣ n := by
  -- `n` is an odd number with `j` zeros behind it, and so is its two's complement.
  obtain ⟨j, m, hodd, hnm⟩ := Nat.exists_eq_two_pow_mul_odd hpos.ne'
  obtain ⟨q, rfl⟩ := hodd
  refine ⟨j, ?_, ⟨_, hnm⟩, ?_⟩
  · have hneg : (wordNot A n + 1) % A.wordLimit = A.wordLimit - n := by
      rw [wordNot_eq hn, Nat.mod_eq_of_lt (by omega)]
      omega
    have hjw : j < A.wordBits := by
      have hle : 2 ^ j ≤ n := Nat.le_of_dvd hpos ⟨_, hnm⟩
      exact (Nat.pow_lt_pow_iff_right (by decide)).1 (hle.trans_lt hn)
    obtain ⟨v, hv⟩ : ∃ v, A.wordBits = j + (v + 1) := ⟨A.wordBits - j - 1, by omega⟩
    have hlim : A.wordLimit = 2 ^ j * 2 ^ (v + 1) := by
      rw [Arch.wordLimit, hv, Nat.pow_add]
    have hq : 2 * q + 1 < 2 ^ (v + 1) := by
      rw [hnm, hlim] at hn
      exact Nat.lt_of_mul_lt_mul_left hn
    calc leastSignificantBit A n
        = n &&& (A.wordLimit - n) := by rw [leastSignificantBit, hneg]
      _ = (2 * q + 1) * 2 ^ j &&& (2 ^ (v + 1) - (2 * q + 1)) * 2 ^ j := by
          rw [hlim, hnm, ← Nat.mul_sub, Nat.mul_comm (2 ^ j), Nat.mul_comm (2 ^ j)]
      _ = ((2 * q + 1) &&& (2 ^ (v + 1) - (2 * q + 1))) * 2 ^ j := by
          rw [← Nat.shiftLeft_eq, ← Nat.shiftLeft_eq, ← Nat.shiftLeft_eq, Nat.shiftLeft_and_distrib]
      _ = 2 ^ j := by rw [odd_and_two_pow_sub hq, Nat.one_mul]
  · rintro ⟨c, hc⟩
    rw [hnm, Nat.pow_succ, Nat.mul_assoc] at hc
    have := Nat.eq_of_mul_eq_mul_left (Nat.two_pow_pos j) hc
    omega

/-! ## Logarithms -/

/-- `x` has a bit exactly where `n` has one at most `m - 1` places further up. -/
def Smeared (n m x : Nat) : Prop :=
  ∀ i, x.testBit i = true ↔ ∃ d < m, n.testBit (i + d) = true

theorem Smeared.step {n m x : Nat} (h : Smeared n m x) : Smeared n (m + m) (x ||| x >>> m) := by
  intro i
  rw [Nat.testBit_or, Nat.testBit_shiftRight, Bool.or_eq_true, h i, h (m + i)]
  constructor
  · rintro (⟨d, hd, hbit⟩ | ⟨d, hd, hbit⟩)
    · exact ⟨d, by omega, hbit⟩
    · exact ⟨m + d, by omega, by rwa [show i + (m + d) = m + i + d by omega]⟩
  · rintro ⟨d, hd, hbit⟩
    by_cases hdm : d < m
    · exact Or.inl ⟨d, hdm, hbit⟩
    · exact Or.inr ⟨d - m, by omega, by rwa [show m + i + (d - m) = i + d by omega]⟩

theorem smeared_smear (A : Arch) (n : Nat) : Smeared n A.wordBits (smear (smearShifts A) n) := by
  have h1 : Smeared n 1 n := by
    intro i
    constructor
    · intro h
      exact ⟨0, by decide, h⟩
    · rintro ⟨d, hd, h⟩
      obtain rfl : d = 0 := by omega
      exact h
  have h32 := h1.step.step.step.step.step
  cases A with
  | aarch64 => exact h32.step
  | arm => exact h32

/-- Smearing the top bit down fills every lower bit. -/
theorem smear_eq {A : Arch} {n : Nat} (hpos : 0 < n) (hn : n < A.wordLimit) :
    smear (smearShifts A) n = 2 ^ (n.log2 + 1) - 1 := by
  apply Nat.eq_of_testBit_eq
  intro i
  rw [Nat.testBit_two_pow_sub_one, Bool.eq_iff_iff, smeared_smear A n i, decide_eq_true_iff]
  have hlog : n.log2 < A.wordBits := (Nat.log2_lt hpos.ne').2 hn
  constructor
  · rintro ⟨d, -, hbit⟩
    have hle : 2 ^ (i + d) ≤ n := Nat.ge_two_pow_of_testBit hbit
    have := (Nat.le_log2 hpos.ne').2 hle
    omega
  · intro hi
    refine ⟨n.log2 - i, by omega, ?_⟩
    rw [show i + (n.log2 - i) = n.log2 by omega]
    exact Nat.testBit_log2 hpos.ne'

/-- The population count of a block of `k` low ones. -/
theorem ones_two_pow_sub_one (A : Arch) {k : Nat} (hk : k < A.wordBits) : ones A (2 ^ k - 1) = k := by
  cases A with
  | aarch64 =>
      have h : ∀ k < 64, ones64 (2 ^ k - 1) = k := by decide
      exact h k hk
  | arm =>
      have h : ∀ k < 32, ones32 (2 ^ k - 1) = k := by decide
      exact h k hk

theorem floorLog2_eq {A : Arch} {n : Nat} (hn : n < A.wordLimit) : floorLog2 A n = n.log2 := by
  rcases Nat.eq_zero_or_pos n with rfl | hpos
  · cases A <;> decide
  · have hlog : n.log2 < A.wordBits := (Nat.log2_lt hpos.ne').2 hn
    have hhalf : (2 ^ (n.log2 + 1) - 1) / 2 = 2 ^ n.log2 - 1 := by
      rw [Nat.pow_succ]
      omega
    rw [floorLog2, smear_eq hpos hn, Nat.shiftRight_eq_div_pow, Nat.pow_one, hhalf,
      ones_two_pow_sub_one A hlog]

/-- The flag `ceil_log2` adds is set exactly when some bit below the top one is. -/
theorem nonzero_flag {A : Arch} {m : Nat} (hm : m < A.wordLimit) :
    (m ||| wordNot A (wrappingPred A m)) >>> (A.wordBits - 1) = if m = 0 then 0 else 1 := by
  have hlim := two_le_wordLimit A
  by_cases h0 : m = 0
  · subst h0
    rw [wrappingPred_zero, wordNot_eq (by omega)]
    simp [Nat.sub_add_cancel (by omega : 1 ≤ A.wordLimit)]
  · rw [wrappingPred_of_pos (by omega) hm, wordNot_eq (by omega), if_neg h0]
    have hw := A.wordBits_pos
    have htop : A.wordLimit = 2 * 2 ^ (A.wordBits - 1) := by
      rw [Arch.wordLimit, Nat.mul_comm, ← Nat.pow_succ, Nat.succ_eq_add_one, Nat.sub_add_cancel hw]
    have hneg : A.wordLimit - (m - 1 + 1) = A.wordLimit - m := by omega
    rw [hneg, Nat.shiftRight_eq_div_pow]
    have hlt : m ||| (A.wordLimit - m) < A.wordLimit :=
      Nat.or_lt_two_pow hm (by unfold Arch.wordLimit at *; omega)
    have hge : 2 ^ (A.wordBits - 1) ≤ m ||| (A.wordLimit - m) := by
      by_cases hbig : 2 ^ (A.wordBits - 1) ≤ m
      · exact hbig.trans Nat.left_le_or
      · exact le_trans (by omega) Nat.right_le_or
    refine Nat.div_eq_of_lt_le (by omega) (by omega)

theorem ceilLog2_eq {A : Arch} {n : Nat} (hn : n < A.wordLimit) : ceilLog2 A n = Nat.clog 2 n := by
  have hfloor : ones A (smear (smearShifts A) n >>> 1) = n.log2 := floorLog2_eq hn
  have hand : n &&& wrappingPred A n < A.wordLimit := lt_of_le_of_lt Nat.and_le_left hn
  simp only [ceilLog2]
  rw [hfloor, nonzero_flag hand]
  rcases Nat.eq_zero_or_pos n with rfl | hpos
  · simp
  · rw [wrappingPred_of_pos hpos hn]
    have hlo := Nat.log2_self_le hpos.ne'
    have hhi := Nat.lt_log2_self (n := n)
    by_cases hpow : n &&& (n - 1) = 0
    · obtain ⟨k, rfl⟩ := (Nat.and_sub_one_eq_zero_iff_isPowerOfTwo hpos.ne').1 hpow
      simp [hpow, Nat.log2_two_pow]
    · rw [if_neg hpow]
      -- `n` lies strictly between two powers of two.
      have hne : n ≠ 2 ^ n.log2 := by
        intro heq
        exact hpow ((Nat.and_sub_one_eq_zero_iff_isPowerOfTwo hpos.ne').2 ⟨_, heq⟩)
      have hle : Nat.clog 2 n ≤ n.log2 + 1 := Nat.clog_le_of_le_pow hhi.le
      have hgt : n.log2 < Nat.clog 2 n := (Nat.lt_clog_iff_pow_lt (by decide)).2 (by omega)
      omega

/-! ## Fields of words -/

/-- The bits from `m` up to `n`, in place. -/
def bitField (m n x : Nat) : Nat :=
  x % 2 ^ n / 2 ^ m * 2 ^ m

/-- A mask of the bits from `m` to `n`. -/
theorem and_two_pow_sub_two_pow {m n : Nat} (h : m ≤ n) (x : Nat) :
    x &&& (2 ^ n - 2 ^ m) = bitField m n x := by
  have hmask : 2 ^ n - 2 ^ m = (2 ^ (n - m) - 1) * 2 ^ m := by
    rw [Nat.sub_mul, ← Nat.pow_add, Nat.sub_add_cancel h, Nat.one_mul]
  rw [bitField, hmask, ← Nat.shiftLeft_eq, ← Nat.shiftLeft_eq, ← Nat.shiftRight_eq_div_pow]
  apply Nat.eq_of_testBit_eq
  intro i
  rw [Nat.testBit_and, Nat.testBit_shiftLeft, Nat.testBit_shiftLeft, Nat.testBit_shiftRight,
    Nat.testBit_two_pow_sub_one, Nat.testBit_mod_two_pow]
  by_cases hi : m ≤ i
  · have hsum : m + (i - m) = i := by omega
    by_cases hin : i < n
    · simp [hi, hsum, hin, show i - m < n - m by omega]
    · simp [hi, hsum, hin, show ¬ i - m < n - m by omega]
  · simp [hi]

/-- Low bits do not change the field above them. -/
theorem bitField_or {m n addr c : Nat} (haddr : 2 ^ m ∣ addr) (hlt : addr < 2 ^ n) (hc : c < 2 ^ m) :
    bitField m n (addr ||| c) = addr := by
  have hlow : c % 2 ^ n / 2 ^ m = 0 := Nat.div_eq_of_lt ((Nat.mod_le _ _).trans_lt hc)
  rw [bitField, Nat.or_mod_two_pow, Nat.mod_eq_of_lt hlt, ← Nat.shiftRight_eq_div_pow,
    Nat.shiftRight_or_distrib, Nat.shiftRight_eq_div_pow, Nat.shiftRight_eq_div_pow, hlow, Nat.or_zero]
  exact Nat.div_mul_cancel haddr

theorem bitField_of_dvd {m n addr : Nat} (haddr : 2 ^ m ∣ addr) (hlt : addr < 2 ^ n) :
    bitField m n addr = addr := by
  rw [bitField, Nat.mod_eq_of_lt hlt, Nat.div_mul_cancel haddr]

theorem or_mod_two_pow {m addr c : Nat} (haddr : 2 ^ m ∣ addr) : (addr ||| c) % 2 ^ m = c % 2 ^ m := by
  rw [Nat.or_mod_two_pow, Nat.mod_eq_zero_of_dvd haddr, Nat.zero_or]

end Propeller
