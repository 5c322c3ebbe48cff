import Mathlib.Data.Finset.Card
import Propeller.Lib.Fields
import Propeller.Support.Bits

/-!
# Support.Bitmap — population counts and bitmaps

`ones` adds up the bits of a word in fields of increasing width.  A `Bitmap` is an array of words; it stores the
bits below its length, the other ones stay zero.
-/

namespace Propeller

open Fields

/-! ## Population counts -/

/-- Eight bytes that are added up in three steps. -/
theorem sum_eight_bytes {es : List Nat} (hlen : es.length = 8) (hle : ∀ e ∈ es, e ≤ 8) {x y z : Nat}
    (hx : x = Nat.ofDigits (2 ^ 8) es + Nat.ofDigits (2 ^ 8) es >>> 8) (hy : y = x + x >>> 16)
    (hz : z = y + y >>> 32) : z &&& 0x7f = es.sum := by
  have hlt : ∀ {c : Nat} {ds : List Nat}, (∀ d ∈ ds, d ≤ c) → c < 2 ^ 8 → ∀ d ∈ ds, d < 2 ^ 8 :=
    fun h hc d hd => (h d hd).trans_lt hc
  match es with
  | [a, b, c, d, e, f, g, h] =>
      have hle₁ := addShifted_le 1 hle
      have hle₂ := addShifted_le 2 hle₁
      have hle₃ := addShifted_le 4 hle₂
      rw [add_shiftRight (k := 1) (by simp) (hlt hle (by decide))] at hx
      rw [hx, add_shiftRight (k := 2) (by simp [addShifted]) (hlt hle₁ (by decide))] at hy
      rw [hz, hy, add_shiftRight (k := 4) (by simp [addShifted]) (hlt hle₂ (by decide))]
      have hsum : a + b + (c + d) + (e + f + (g + h)) ≤ 64 := hle₃ _ List.mem_cons_self
      simp only [addShifted, List.drop, List.replicate, List.cons_append, List.nil_append, List.zipWith_cons_cons,
        Nat.ofDigits_cons, List.sum_cons, List.sum_nil]
      rw [show (0x7f : Nat) = 2 ^ 7 - 1 from rfl, Nat.and_two_pow_sub_one_eq_mod]
      omega

theorem sum_four_bytes {es : List Nat} (hlen : es.length = 4) (hle : ∀ e ∈ es, e ≤ 8) {x y : Nat}
    (hx : x = Nat.ofDigits (2 ^ 8) es + Nat.ofDigits (2 ^ 8) es >>> 8) (hy : y = x + x >>> 16) :
    y &&& 0x3f = es.sum := by
  have hlt : ∀ {c : Nat} {ds : List Nat}, (∀ d ∈ ds, d ≤ c) → c < 2 ^ 8 → ∀ d ∈ ds, d < 2 ^ 8 :=
    fun h hc d hd => (h d hd).trans_lt hc
  match es with
  | [a, b, c, d] =>
      have hle₁ := addShifted_le 1 hle
      have hle₂ := addShifted_le 2 hle₁
      rw [add_shiftRight (k := 1) (by simp) (hlt hle (by decide))] at hx
      rw [hy, hx, add_shiftRight (k := 2) (by simp [addShifted]) (hlt hle₁ (by decide))]
      have hsum : a + b + (c + d) ≤ 32 := hle₂ _ List.mem_cons_self
      simp only [addShifted, List.drop, List.replicate, List.cons_append, List.nil_append, List.zipWith_cons_cons,
        Nat.ofDigits_cons, List.sum_cons, List.sum_nil]
      rw [show (0x3f : Nat) = 2 ^ 6 - 1 from rfl, Nat.and_two_pow_sub_one_eq_mod]
      omega

/-- The first three steps leave the number of bits of every byte. -/
theorem byte_counts {n k x y z : Nat} (hn : n < 2 ^ (2 * (2 * (2 * k))))
    (hx : x = n - (n >>> 1 &&& mask 1 (2 * (2 * k))))
    (hy : y = (x >>> 2 &&& mask 2 (2 * k)) + (x &&& mask 2 (2 * k)))
    (hz : z = (y >>> 4 + y) &&& mask 4 k) :
    ∃ es : List Nat, es.length = k ∧ (∀ e ∈ es, e ≤ 8) ∧ z = Nat.ofDigits (2 ^ 8) es ∧
      es.sum = (List.range (2 * (2 * (2 * k)))).countP (n.testBit ·) := by
  have hlen₀ := length_bits (2 * (2 * (2 * k))) n
  have hle₀ := bits_le (2 * (2 * (2 * k))) n
  have hlen₁ := length_pairSums hlen₀
  have hle₁ := pairSums_le hlen₀ hle₀
  have hlen₂ := length_pairSums hlen₁
  have hle₂ := pairSums_le hlen₁ hle₁
  have hlen₃ := length_pairSums hlen₂
  have hle₃ := pairSums_le hlen₂ hle₂
  refine ⟨_, hlen₃, hle₃, ?_, ?_⟩
  · -- Each step adds neighbouring digits, and the base is squared: bits, pairs, nibbles, bytes.
    have hx' : x = Nat.ofDigits (2 ^ 2) (pairSums (bits (2 * (2 * (2 * k))) n)) := by
      rw [hx]
      conv_lhs => rw [← ofDigits_bits hn]
      exact masked_sub hlen₀ fun d hd => Nat.lt_succ_of_le (hle₀ d hd)
    have hy' : y = Nat.ofDigits (2 ^ 4) (pairSums (pairSums (bits (2 * (2 * (2 * k))) n))) := by
      rw [hy, hx']
      exact masked_sum hlen₁ fun d hd => (hle₁ d hd).trans_lt (by decide)
    rw [hz, hy']
    exact sum_masked hlen₂ (by decide) hle₂
  · rw [sum_pairSums hlen₂, sum_pairSums hlen₁, sum_pairSums hlen₀, sum_bits]

theorem ones64_eq {n : Nat} (hn : n < 2 ^ 64) : ones64 n = (List.range 64).countP (n.testBit ·) := by
  have hmasks : mask 1 32 = 0x5555555555555555 ∧ mask 2 16 = 0x3333333333333333 ∧
      mask 4 8 = 0x0f0f0f0f0f0f0f0f := by
    decide
  rcases byte_counts (k := 8) hn rfl rfl rfl with ⟨es, hlen, hle, hes, hsum⟩
  simp only [hmasks.1, hmasks.2.1, hmasks.2.2] at hes
  rw [← hsum, ← sum_eight_bytes hlen hle rfl rfl rfl, ← hes]
  rfl

theorem ones32_eq {n : Nat} (hn : n < 2 ^ 32) : ones32 n = (List.range 32).countP (n.testBit ·) := by
  have hmasks : mask 1 16 = 0x55555555 ∧ mask 2 8 = 0x33333333 ∧ mask 4 4 = 0x0f0f0f0f := by
    decide
  rcases byte_counts (k := 4) hn rfl rfl rfl with ⟨es, hlen, hle, hes, hsum⟩
  simp only [hmasks.1, hmasks.2.1, hmasks.2.2] at hes
  rw [← hsum, ← sum_four_bytes hlen hle rfl rfl, ← hes]
  rfl

/-- `ones` counts the bits that are set. -/
theorem ones_eq {A : Arch} {n : Nat} (hn : n < A.wordLimit) : ones A n = (List.range A.wordBits).countP (n.testBit ·) := by
  cases A with
  | aarch64 => exact ones64_eq hn
  | arm => exact ones32_eq hn

/-! ## Bitmaps -/

/-- `Bitmap<MAP_WORDS>`. -/
structure Bitmap (A : Arch) (mapWords : Nat) where
  bitmap : List Nat
  bits : Nat
  length_eq : bitmap.length = mapWords
  word_lt : ∀ word ∈ bitmap, word < A.wordLimit
  bits_le : bits ≤ mapWords <<< A.wordBitShift

namespace Bitmap

variable {A : Arch} {mapWords : Nat}

def new (A : Arch) (mapWords bits : Nat) : Bitmap A mapWords where
  bitmap := List.replicate mapWords 0
  bits := min bits (mapWords <<< A.wordBitShift)
  length_eq := List.length_replicate
  word_lt := fun _ hword => (List.mem_replicate.1 hword).2 ▸ Nat.two_pow_pos _
  bits_le := Nat.min_le_right _ _

def len (b : Bitmap A mapWords) : Nat :=
  b.bits

def getWordAndShift (A : Arch) (bit : Nat) : Nat × Nat :=
  (bit >>> A.wordBitShift, bit &&& (A.wordBits - 1))

/-- One word of the map is replaced. -/
def modifyWord (b : Bitmap A mapWords) (word : Nat) (f : Nat → Nat) (hf : ∀ w < A.wordLimit, f w < A.wordLimit) :
    Bitmap A mapWords where
  bitmap := b.bitmap.modify word f
  bits := b.bits
  length_eq := by rw [List.length_modify, b.length_eq]
  word_lt := by
    intro w hw
    rcases List.mem_iff_getElem.1 hw with ⟨i, hi, rfl⟩
    rw [List.getElem_modify]
    split
    · exact hf _ (b.word_lt _ (List.getElem_mem _))
    · exact b.word_lt _ (List.getElem_mem _)
  bits_le := b.bits_le

theorem shift_lt (A : Arch) (bit : Nat) : (getWordAndShift A bit).2 < A.wordBits := by
  have hpos := A.wordBits_pos
  have hle : bit &&& (A.wordBits - 1) ≤ A.wordBits - 1 := Nat.and_le_right
  rw [getWordAndShift]
  omega

theorem one_shiftLeft_lt (A : Arch) (bit : Nat) : 1 <<< (getWordAndShift A bit).2 < A.wordLimit := by
  rw [Nat.one_shiftLeft]
  exact Nat.pow_lt_pow_right (by decide) (shift_lt A bit)

def setBit (b : Bitmap A mapWords) (bit : Nat) : Bitmap A mapWords :=
  if b.bits ≤ bit then b
  else b.modifyWord (getWordAndShift A bit).1 (· ||| 1 <<< (getWordAndShift A bit).2) fun _ hw =>
    Nat.or_lt_two_pow hw (one_shiftLeft_lt A bit)

def clearBit (b : Bitmap A mapWords) (bit : Nat) : Bitmap A mapWords :=
  if b.bits ≤ bit then b
  else b.modifyWord (getWordAndShift A bit).1 (· &&& wordNot A (1 <<< (getWordAndShift A bit).2)) fun _ hw =>
    Nat.and_le_left.trans_lt hw

/-- The number of zeros below the lowest bit that is set. -/
def trailingZeros (A : Arch) (n : Nat) : Nat :=
  ((List.range A.wordBits).find? (n.testBit ·)).getD A.wordBits

/-- The loop of `first_zero` over the words that are left. -/
def firstZeroFrom (A : Arch) : List Nat → Nat → Nat
  | [], index => index
  | word :: words, index =>
      if trailingZeros A (wordNot A word) < A.wordBits then index + trailingZeros A (wordNot A word)
      else firstZeroFrom A words (index + A.wordBits)

def firstZero (b : Bitmap A mapWords) : Option Nat :=
  if b.bits ≤ firstZeroFrom A b.bitmap 0 then none else some (firstZeroFrom A b.bitmap 0)

def ones (b : Bitmap A mapWords) : Nat :=
  b.bitmap.foldl (fun count word => count + Propeller.ones A word) 0

/-! ## The bits that are set -/

/-- The bit `bit` of some words is set. -/
def wordsBit (A : Arch) (words : List Nat) (bit : Nat) : Bool :=
  (words.getD (bit / A.wordBits) 0).testBit (bit % A.wordBits)

def isSet (b : Bitmap A mapWords) (bit : Nat) : Bool :=
  wordsBit A b.bitmap bit

theorem getWordAndShift_eq (A : Arch) (bit : Nat) : getWordAndShift A bit = (bit / A.wordBits, bit % A.wordBits) := by
  rw [getWordAndShift, Nat.shiftRight_eq_div_pow, A.wordBits_eq, Nat.and_two_pow_sub_one_eq_mod]

variable {b : Bitmap A mapWords} {bit i : Nat}

theorem bits_le_mul (b : Bitmap A mapWords) : b.bits ≤ mapWords * A.wordBits := by
  rw [A.wordBits_eq, ← Nat.shiftLeft_eq]
  exact b.bits_le

theorem word_inside (h : bit < b.bits) : bit / A.wordBits < b.bitmap.length := by
  rw [b.length_eq]
  exact (Nat.div_lt_iff_lt_mul A.wordBits_pos).2 (h.trans_le b.bits_le_mul)

/-- A change to the word of one bit. -/
theorem isSet_modifyWord {f : Nat → Nat} {v : Bool → Bool} (hf : ∀ w < A.wordLimit, f w < A.wordLimit) (h : bit < b.bits)
    (hbit : ∀ w j, j < A.wordBits → (f w).testBit j = if j = bit % A.wordBits then v (w.testBit j) else w.testBit j) :
    (b.modifyWord (bit / A.wordBits) f hf).isSet i = if i = bit then v (b.isSet i) else b.isSet i := by
  have hinside := word_inside h
  have hmod := Nat.mod_lt i A.wordBits_pos
  rw [isSet, isSet, wordsBit, wordsBit, modifyWord, List.getD_eq_getElem?_getD, List.getD_eq_getElem?_getD,
    List.getElem?_modify]
  by_cases hword : bit / A.wordBits = i / A.wordBits
  · simp only [if_pos hword]
    rw [← hword, List.getElem?_eq_getElem hinside, Option.map_eq_map, Option.map_some, Option.getD_some,
      Option.getD_some, hbit _ _ hmod]
    have hiff : i % A.wordBits = bit % A.wordBits ↔ i = bit := by
      constructor
      · intro hshift
        rw [← Nat.div_add_mod i A.wordBits, ← Nat.div_add_mod bit A.wordBits, hword, hshift]
      · rintro rfl
        rfl
    simp only [hiff]
  · have hne : i ≠ bit := by
      rintro rfl
      exact hword rfl
    simp only [if_neg hword, if_neg hne, id_map']

theorem isSet_setBit (h : bit < b.bits) : (b.setBit bit).isSet i = (decide (i = bit) || b.isSet i) := by
  rw [setBit, if_neg (Nat.not_le.2 h)]
  simp only [getWordAndShift_eq]
  rw [isSet_modifyWord _ h (v := fun _ => true)]
  · split <;> simp [*]
  · intro w j _
    rw [Nat.testBit_or, Nat.one_shiftLeft, Nat.testBit_two_pow]
    by_cases hj : j = bit % A.wordBits
    · simp [hj]
    · simp [hj, Ne.symm hj]

theorem isSet_clearBit (h : bit < b.bits) : (b.clearBit bit).isSet i = (!decide (i = bit) && b.isSet i) := by
  rw [clearBit, if_neg (Nat.not_le.2 h)]
  simp only [getWordAndShift_eq]
  rw [isSet_modifyWord _ h (v := fun _ => false)]
  · split <;> simp [*]
  · intro w j hj
    rw [Nat.testBit_and, wordNot, Nat.testBit_xor, Nat.one_shiftLeft, Nat.testBit_two_pow, Arch.wordLimit,
      Nat.testBit_two_pow_sub_one]
    by_cases hjb : j = bit % A.wordBits
    · simp [hjb, hjb ▸ hj]
    · simp [hjb, hj, Ne.symm hjb]

theorem setBit_bits (b : Bitmap A mapWords) (bit : Nat) : (b.setBit bit).bits = b.bits := by
  rw [setBit]
  split <;> rfl

theorem clearBit_bits (b : Bitmap A mapWords) (bit : Nat) : (b.clearBit bit).bits = b.bits := by
  rw [clearBit]
  split <;> rfl

theorem new_bits (A : Arch) (mapWords bits : Nat) : (new A mapWords bits).bits = min bits (mapWords * A.wordBits) := by
  rw [A.wordBits_eq, ← Nat.shiftLeft_eq]
  rfl

theorem isSet_new (A : Arch) (mapWords bits bit : Nat) : (new A mapWords bits).isSet bit = false := by
  have hword : (List.replicate mapWords 0).getD (bit / A.wordBits) 0 = 0 := by
    rw [List.getD_eq_getElem?_getD, List.getElem?_replicate]
    split <;> rfl
  rw [isSet, wordsBit, new, hword, Nat.zero_testBit]

theorem wordsBit_cons (A : Arch) (word : Nat) (words : List Nat) (bit : Nat) :
    wordsBit A (word :: words) bit =
      if bit < A.wordBits then word.testBit bit else wordsBit A words (bit - A.wordBits) := by
  rw [wordsBit]
  split
  next hlt => rw [Nat.div_eq_of_lt hlt, Nat.mod_eq_of_lt hlt, List.getD_cons_zero]
  next hge =>
    have hle := Nat.le_of_not_lt hge
    rw [wordsBit, Nat.div_eq_sub_div A.wordBits_pos hle, Nat.mod_eq_sub_mod hle, List.getD_cons_succ]

/-! ## The first zero -/

theorem trailingZeros_cases (A : Arch) (n : Nat) :
    trailingZeros A n < A.wordBits ∧ n.testBit (trailingZeros A n) = true ∧
        (∀ j < trailingZeros A n, n.testBit j = false) ∨
      trailingZeros A n = A.wordBits ∧ ∀ j < A.wordBits, n.testBit j = false := by
  rw [trailingZeros]
  match hfind : (List.range A.wordBits).find? (n.testBit ·) with
  | none =>
      refine Or.inr ⟨rfl, fun j hj => ?_⟩
      simpa using List.find?_eq_none.1 hfind j (List.mem_range.2 hj)
  | some z =>
      rcases List.find?_range_eq_some.1 hfind with ⟨hz, hmem, hlow⟩
      refine Or.inl ⟨List.mem_range.1 hmem, hz, fun j hj => ?_⟩
      simpa using hlow j hj

theorem testBit_wordNot {word : Nat} (h : bit < A.wordBits) : (wordNot A word).testBit bit = !word.testBit bit := by
  rw [wordNot, Nat.testBit_xor, Arch.wordLimit, Nat.testBit_two_pow_sub_one]
  simp [h]

/-- The loop stops at the first bit that is not set, or behind the last word. -/
theorem firstZeroFrom_eq (A : Arch) (words : List Nat) (index : Nat) :
    ∃ r, firstZeroFrom A words index = index + r ∧ r ≤ words.length * A.wordBits ∧
      (∀ j < r, wordsBit A words j = true) ∧ (r < words.length * A.wordBits → wordsBit A words r = false) := by
  induction words generalizing index with
  | nil =>
      refine ⟨0, rfl, Nat.zero_le _, fun j hj => absurd hj (Nat.not_lt_zero j), fun h => ?_⟩
      rw [List.length_nil, Nat.zero_mul] at h
      exact absurd h (Nat.lt_irrefl 0)
  | cons word words ih =>
      rw [firstZeroFrom, List.length_cons, Nat.succ_mul]
      -- The zeros of a word are the ones of its complement.
      rcases trailingZeros_cases A (wordNot A word) with ⟨hlt, hz, hlow⟩ | ⟨heq, hall⟩
      · rw [if_pos hlt]
        refine ⟨_, rfl, by omega, ?_, ?_⟩
        · intro j hj
          have hjb := hlow j hj
          rw [testBit_wordNot (hj.trans hlt), Bool.not_eq_false'] at hjb
          rw [wordsBit_cons, if_pos (hj.trans hlt), hjb]
        · intro _
          rw [testBit_wordNot hlt, Bool.not_eq_true'] at hz
          rw [wordsBit_cons, if_pos hlt, hz]
      · rw [if_neg (by omega)]
        rcases ih (index + A.wordBits) with ⟨r, hr, hle, hset, hzero⟩
        refine ⟨A.wordBits + r, by rw [hr, Nat.add_assoc], by omega, ?_, ?_⟩
        · intro j hj
          rw [wordsBit_cons]
          split
          next hjb =>
            have hbit := hall j hjb
            rwa [testBit_wordNot hjb, Bool.not_eq_false'] at hbit
          next hjb => exact hset _ (by omega)
        · intro hlt
          rw [wordsBit_cons, if_neg (by omega), Nat.add_sub_cancel_left]
          exact hzero (by omega)

/-- `first_zero` returns the first bit of the map that is not set. -/
theorem firstZero_eq_some (h : b.firstZero = some i) : i < b.bits ∧ b.isSet i = false ∧ ∀ j < i, b.isSet j = true := by
  rcases firstZeroFrom_eq A b.bitmap 0 with ⟨r, hr, -, hset, hzero⟩
  rw [firstZero, hr, Nat.zero_add] at h
  split at h
  next => cases h
  next hlt =>
    obtain rfl := Option.some.inj h
    rw [b.length_eq] at hzero
    exact ⟨Nat.lt_of_not_le hlt, hzero ((Nat.lt_of_not_le hlt).trans_le b.bits_le_mul), hset⟩

theorem firstZero_eq_none (h : b.firstZero = none) : ∀ j < b.bits, b.isSet j = true := by
  rcases firstZeroFrom_eq A b.bitmap 0 with ⟨r, hr, -, hset, -⟩
  rw [firstZero, hr, Nat.zero_add] at h
  split at h
  next hle => exact fun j hj => hset j (hj.trans_le hle)
  next => cases h

/-! ## The number of ones -/

theorem foldl_ones {words : List Nat} (hlt : ∀ word ∈ words, word < A.wordLimit) (count : Nat) :
    words.foldl (fun count word => count + Propeller.ones A word) count =
      count + (List.range (words.length * A.wordBits)).countP (wordsBit A words) := by
  induction words generalizing count with
  | nil => simp
  | cons word words ih =>
      rw [List.forall_mem_cons] at hlt
      have hlow : (List.range A.wordBits).countP (wordsBit A (word :: words)) = Propeller.ones A word := by
        rw [ones_eq hlt.1]
        refine List.countP_congr fun j hj => ?_
        rw [wordsBit_cons, if_pos (List.mem_range.1 hj)]
      have hhigh : ((List.range (words.length * A.wordBits)).map (A.wordBits + ·)).countP (wordsBit A (word :: words)) =
          (List.range (words.length * A.wordBits)).countP (wordsBit A words) := by
        rw [List.countP_map]
        refine List.countP_congr fun j _ => ?_
        rw [Function.comp, wordsBit_cons, if_neg (by omega), Nat.add_sub_cancel_left]
      rw [List.foldl_cons, ih hlt.2, List.length_cons, Nat.succ_mul, Nat.add_comm (words.length * A.wordBits),
        List.range_add, List.countP_append, hlow, hhigh, Nat.add_assoc]

/-- The bits that are set. -/
def marked (b : Bitmap A mapWords) : Finset Nat :=
  (Finset.range (mapWords * A.wordBits)).filter (b.isSet ·)

theorem ones_eq_card (b : Bitmap A mapWords) : b.ones = b.marked.card := by
  rw [ones, foldl_ones b.word_lt, Nat.zero_add, b.length_eq, List.countP_eq_length_filter, marked, Finset.card_def,
    Finset.filter_val, Finset.range_val, ← Multiset.coe_range, Multiset.filter_coe, Multiset.coe_card]
  simp only [Bool.decide_eq_true]
  rfl

end Bitmap
end Propeller
