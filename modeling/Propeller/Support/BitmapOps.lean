import Propeller.Support.Bitmap

/-!
# Support.BitmapOps — sequences of operations on a bitmap

The operations on single bits respect the length of a map, those on the whole map act on full words.  Within the
length, a map behaves as a vector of booleans (`runOps_refines`).  Beyond it, the operations on the whole map set and
clear bits that no other operation can reach, and `ones` counts them (`runOps_ones_iff`).

The capacity of a map, `mapWords <<< wordBitShift`, is taken to be a word.
-/

namespace Propeller
namespace Bitmap

variable {A : Arch} {mapWords : Nat}

/-! ## The source functions -/

/-- Every word of the map is replaced. -/
def mapWord (b : Bitmap A mapWords) (f : Nat → Nat) (hf : ∀ w < A.wordLimit, f w < A.wordLimit) :
    Bitmap A mapWords where
  bitmap := b.bitmap.map f
  bits := b.bits
  length_eq := by rw [List.length_map, b.length_eq]
  word_lt := by
    intro w hw
    rcases List.mem_map.1 hw with ⟨v, hv, rfl⟩
    exact hf v (b.word_lt v hv)
  bits_le := b.bits_le

theorem max_lt (A : Arch) : A.wordLimit - 1 < A.wordLimit :=
  Nat.sub_lt (Nat.two_pow_pos _) Nat.one_pos

def toggleBit (b : Bitmap A mapWords) (bit : Nat) : Bitmap A mapWords :=
  if b.bits ≤ bit then b
  else b.modifyWord (getWordAndShift A bit).1 (· ^^^ 1 <<< (getWordAndShift A bit).2) fun _ hw =>
    Nat.xor_lt_two_pow hw (one_shiftLeft_lt A bit)

def setAllBits (b : Bitmap A mapWords) : Bitmap A mapWords :=
  b.mapWord (fun _ => A.wordLimit - 1) fun _ _ => max_lt A

def clearAllBits (b : Bitmap A mapWords) : Bitmap A mapWords :=
  b.mapWord (fun _ => 0) fun _ _ => Nat.two_pow_pos _

def toggleAllBits (b : Bitmap A mapWords) : Bitmap A mapWords :=
  b.mapWord (· ^^^ (A.wordLimit - 1)) fun _ hw => Nat.xor_lt_two_pow hw (max_lt A)

/-- `test_bit`; the word of a bit below the length is in the map (`word_inside`). -/
def testBit (b : Bitmap A mapWords) (bit : Nat) : Option Bool :=
  if b.bits ≤ bit then none
  else some (b.bitmap.getD (getWordAndShift A bit).1 0 &&& 1 <<< (getWordAndShift A bit).2 != 0)

end Bitmap

/-! ## Sequences of operations -/

/-- A call that changes a bitmap. -/
inductive BitmapOp
  | setBit (bit : Nat)
  | clearBit (bit : Nat)
  | toggleBit (bit : Nat)
  | setAllBits
  | clearAllBits
  | toggleAllBits
  deriving DecidableEq, Repr

namespace BitmapOp

/-- The same call for a vector of booleans; an index that is out of range is ignored. -/
def onVector {n : Nat} (v : Vector Bool n) : BitmapOp → Vector Bool n
  | .setBit bit => v.setIfInBounds bit true
  | .clearBit bit => v.setIfInBounds bit false
  | .toggleBit bit => v.setIfInBounds bit (!v[bit]?.getD false)
  | .setAllBits => Vector.replicate n true
  | .clearAllBits => Vector.replicate n false
  | .toggleAllBits => v.map (!·)

/-- What the call does to the bits beyond the length, which all have one value. -/
def onPadding (p : Bool) : BitmapOp → Bool
  | .setBit _ | .clearBit _ | .toggleBit _ => p
  | .setAllBits => true
  | .clearAllBits => false
  | .toggleAllBits => !p

end BitmapOp

namespace Bitmap

variable {A : Arch} {mapWords : Nat} {b : Bitmap A mapWords} {bit i n : Nat} {v : Vector Bool n} {p : Bool}

def applyOp (b : Bitmap A mapWords) : BitmapOp → Bitmap A mapWords
  | .setBit bit => b.setBit bit
  | .clearBit bit => b.clearBit bit
  | .toggleBit bit => b.toggleBit bit
  | .setAllBits => b.setAllBits
  | .clearAllBits => b.clearAllBits
  | .toggleAllBits => b.toggleAllBits

def runOps (b : Bitmap A mapWords) (ops : List BitmapOp) : Bitmap A mapWords :=
  ops.foldl applyOp b

/-! ## What one operation does -/

theorem isSet_setBit_eq_ite (h : bit < b.bits) :
    (b.setBit bit).isSet i = if i = bit then true else b.isSet i := by
  rw [isSet_setBit h]
  split <;> simp [*]

theorem isSet_clearBit_eq_ite (h : bit < b.bits) :
    (b.clearBit bit).isSet i = if i = bit then false else b.isSet i := by
  rw [isSet_clearBit h]
  split <;> simp [*]

theorem isSet_toggleBit (h : bit < b.bits) :
    (b.toggleBit bit).isSet i = if i = bit then !b.isSet i else b.isSet i := by
  rw [toggleBit, if_neg (Nat.not_le.2 h)]
  simp only [getWordAndShift_eq]
  rw [isSet_modifyWord _ h (v := (!·))]
  intro w j _
  rw [Nat.testBit_xor, Nat.one_shiftLeft, Nat.testBit_two_pow]
  by_cases hj : j = bit % A.wordBits
  · simp [hj]
  · simp [hj, Ne.symm hj]

/-- A change to every word that treats all bits alike. -/
theorem isSet_mapWord {f : Nat → Nat} {v : Bool → Bool} (hf : ∀ w < A.wordLimit, f w < A.wordLimit)
    (hbit : ∀ w j, j < A.wordBits → (f w).testBit j = v (w.testBit j)) (hi : i < mapWords * A.wordBits) :
    (b.mapWord f hf).isSet i = v (b.isSet i) := by
  have hinside : i / A.wordBits < b.bitmap.length := by
    rw [b.length_eq]
    exact (Nat.div_lt_iff_lt_mul A.wordBits_pos).2 hi
  rw [isSet, isSet, wordsBit, wordsBit, mapWord, List.getD_eq_getElem?_getD, List.getD_eq_getElem?_getD,
    List.getElem?_map, List.getElem?_eq_getElem hinside, Option.map_some, Option.getD_some, Option.getD_some,
    hbit _ _ (Nat.mod_lt i A.wordBits_pos)]

theorem testBit_max {j : Nat} (hj : j < A.wordBits) : (A.wordLimit - 1).testBit j = true := by
  rw [Arch.wordLimit, Nat.testBit_two_pow_sub_one, decide_eq_true hj]

theorem isSet_setAllBits (hi : i < mapWords * A.wordBits) : b.setAllBits.isSet i = true :=
  isSet_mapWord (v := fun _ => true) _ (fun _ _ hj => testBit_max hj) hi

theorem isSet_clearAllBits (hi : i < mapWords * A.wordBits) : b.clearAllBits.isSet i = false :=
  isSet_mapWord (v := fun _ => false) _ (fun _ j _ => Nat.zero_testBit j) hi

theorem isSet_toggleAllBits (hi : i < mapWords * A.wordBits) : b.toggleAllBits.isSet i = !b.isSet i := by
  refine isSet_mapWord (v := (!·)) _ ?_ hi
  intro w j hj
  rw [Nat.testBit_xor, testBit_max hj, Bool.xor_true]

theorem toggleBit_bits (b : Bitmap A mapWords) (bit : Nat) : (b.toggleBit bit).bits = b.bits := by
  rw [toggleBit]
  split <;> rfl

theorem applyOp_bits (b : Bitmap A mapWords) (op : BitmapOp) : (b.applyOp op).bits = b.bits := by
  cases op with
  | setBit bit => exact setBit_bits b bit
  | clearBit bit => exact clearBit_bits b bit
  | toggleBit bit => exact toggleBit_bits b bit
  | setAllBits => rfl
  | clearAllBits => rfl
  | toggleAllBits => rfl

theorem runOps_bits (b : Bitmap A mapWords) (ops : List BitmapOp) : (b.runOps ops).bits = b.bits := by
  induction ops generalizing b with
  | nil => rfl
  | cons op ops ih =>
      rw [runOps, List.foldl_cons, ← runOps, ih, applyOp_bits]

theorem testBit_eq (b : Bitmap A mapWords) (bit : Nat) :
    b.testBit bit = if bit < b.bits then some (b.isSet bit) else none := by
  by_cases h : bit < b.bits
  · rw [testBit, if_neg (Nat.not_le.2 h), if_pos h, getWordAndShift_eq, isSet, wordsBit, Nat.one_shiftLeft,
      Nat.and_two_pow]
    cases (b.bitmap.getD (bit / A.wordBits) 0).testBit (bit % A.wordBits) with
    | true => simp
    | false => simp
  · rw [testBit, if_pos (Nat.le_of_not_lt h), if_neg h]

/-! ## The vector of the bits within the length -/

/-- The bits of the map below its length are those of the vector. -/
structure Refines (b : Bitmap A mapWords) (v : Vector Bool n) : Prop where
  bits : b.bits = n
  bit : ∀ i < n, v[i]? = some (b.isSet i)

namespace Refines

theorem inside (h : Refines b v) (hi : i < n) : i < mapWords * A.wordBits :=
  (h.bits ▸ hi).trans_le b.bits_le_mul

/-- A call for a single bit. -/
theorem setIfInBounds {b' : Bitmap A mapWords} {x : Bool} (h : Refines b v) (hbits : b'.bits = b.bits)
    (hout : b.bits ≤ bit → b' = b) (hin : bit < b.bits → ∀ i, b'.isSet i = if i = bit then x else b.isSet i) :
    Refines b' (v.setIfInBounds bit x) := by
  refine ⟨hbits.trans h.bits, fun i hi => ?_⟩
  rw [Vector.getElem?_setIfInBounds]
  rcases Nat.lt_or_ge bit b.bits with hlt | hge
  · have hlt' : bit < n := h.bits ▸ hlt
    by_cases heq : bit = i
    · rw [if_pos heq, if_pos hlt', hin hlt, if_pos heq.symm]
    · rw [if_neg heq, hin hlt, if_neg (Ne.symm heq), h.bit i hi]
  · have hne : bit ≠ i := by
      have := h.bits
      omega
    rw [if_neg hne, hout hge, h.bit i hi]

theorem applyOp (h : Refines b v) (op : BitmapOp) : Refines (b.applyOp op) (op.onVector v) := by
  -- The per-bit calls update one entry or none, the others all of them.
  cases op with
  | setBit bit =>
      exact h.setIfInBounds (setBit_bits b bit) (fun hge => if_pos hge) fun hlt i => isSet_setBit_eq_ite hlt
  | clearBit bit =>
      exact h.setIfInBounds (clearBit_bits b bit) (fun hge => if_pos hge) fun hlt i => isSet_clearBit_eq_ite hlt
  | toggleBit bit =>
      refine h.setIfInBounds (toggleBit_bits b bit) (fun hge => if_pos hge) fun hlt i => ?_
      show (b.toggleBit bit).isSet i = _
      rw [isSet_toggleBit hlt, h.bit bit (h.bits ▸ hlt), Option.getD_some]
      by_cases heq : i = bit
      · rw [if_pos heq, if_pos heq, heq]
      · rw [if_neg heq, if_neg heq]
  | setAllBits =>
      refine ⟨h.bits, fun i hi => ?_⟩
      show (Vector.replicate n true)[i]? = some (b.setAllBits.isSet i)
      rw [Vector.getElem?_replicate_of_lt hi, isSet_setAllBits (h.inside hi)]
  | clearAllBits =>
      refine ⟨h.bits, fun i hi => ?_⟩
      show (Vector.replicate n false)[i]? = some (b.clearAllBits.isSet i)
      rw [Vector.getElem?_replicate_of_lt hi, isSet_clearAllBits (h.inside hi)]
  | toggleAllBits =>
      refine ⟨h.bits, fun i hi => ?_⟩
      show (v.map (!·))[i]? = some (b.toggleAllBits.isSet i)
      rw [Vector.getElem?_map, h.bit i hi, Option.map_some, isSet_toggleAllBits (h.inside hi)]

theorem runOps (h : Refines b v) (ops : List BitmapOp) : Refines (b.runOps ops) (ops.foldl BitmapOp.onVector v) := by
  induction ops generalizing b v with
  | nil => exact h
  | cons op ops ih => exact ih (h.applyOp op)

theorem new (A : Arch) (mapWords bits : Nat) :
    Refines (Bitmap.new A mapWords bits) (Vector.replicate (Bitmap.new A mapWords bits).len false) := by
  refine ⟨rfl, fun i hi => ?_⟩
  rw [Vector.getElem?_replicate_of_lt hi, isSet_new]

theorem testBit (h : Refines b v) (i : Nat) : b.testBit i = v[i]? := by
  rw [testBit_eq, h.bits]
  by_cases hi : i < n
  · rw [if_pos hi, h.bit i hi]
  · rw [if_neg hi, Vector.getElem?_eq_none (Nat.le_of_not_lt hi)]

theorem getElem?_eq_some (h : Refines b v) {x : Bool} : v[i]? = some x ↔ i < b.bits ∧ b.isSet i = x := by
  rw [← h.testBit, testBit_eq]
  by_cases hi : i < b.bits
  · simp [hi]
  · simp [hi]

theorem firstZero_eq_some_iff (h : Refines b v) :
    b.firstZero = some i ↔ v[i]? = some false ∧ ∀ j < i, v[j]? = some true := by
  constructor
  · intro hzero
    rcases firstZero_eq_some hzero with ⟨hi, hclear, hset⟩
    exact ⟨h.getElem?_eq_some.2 ⟨hi, hclear⟩, fun j hj => h.getElem?_eq_some.2 ⟨hj.trans hi, hset j hj⟩⟩
  · rintro ⟨hclear, hset⟩
    rcases h.getElem?_eq_some.1 hclear with ⟨hi, hiclear⟩
    match hzero : b.firstZero with
    | none =>
        rw [firstZero_eq_none hzero i hi] at hiclear
        cases hiclear
    | some k =>
        rcases firstZero_eq_some hzero with ⟨-, hkclear, hkset⟩
        rcases Nat.lt_trichotomy i k with hlt | rfl | hgt
        · rw [hkset i hlt] at hiclear
          cases hiclear
        · rfl
        · rw [(h.getElem?_eq_some.1 (hset k hgt)).2] at hkclear
          cases hkclear

theorem firstZero_eq_none_iff (h : Refines b v) : b.firstZero = none ↔ ∀ i < n, v[i]? = some true := by
  constructor
  · intro hzero i hi
    rw [h.bit i hi, firstZero_eq_none hzero i (h.bits ▸ hi)]
  · intro hall
    match hzero : b.firstZero with
    | none => rfl
    | some k =>
        rcases firstZero_eq_some hzero with ⟨hk, hclear, -⟩
        have hset := hall k (h.bits ▸ hk)
        rw [(h.getElem?_eq_some.1 hset).2] at hclear
        cases hclear

end Refines

/-- After any calls, a map agrees with the vector that has seen the same calls: in every bit, and in its first
zero. -/
theorem runOps_refines (A : Arch) (mapWords bits : Nat) (ops : List BitmapOp) :
    let b := (new A mapWords bits).runOps ops
    let v := ops.foldl BitmapOp.onVector (Vector.replicate (new A mapWords bits).len false)
    b.len = (new A mapWords bits).len ∧ (∀ i, b.testBit i = v[i]?) ∧
      (∀ i, b.firstZero = some i ↔ v[i]? = some false ∧ ∀ j < i, v[j]? = some true) ∧
      (b.firstZero = none ↔ ∀ i < b.len, v[i]? = some true) := by
  intro b v
  have h : Refines b v := (Refines.new A mapWords bits).runOps ops
  have hlen : b.len = (new A mapWords bits).len := runOps_bits _ ops
  refine ⟨hlen, h.testBit, fun i => h.firstZero_eq_some_iff, ?_⟩
  rw [hlen]
  exact h.firstZero_eq_none_iff

/-! ## The bits beyond the length -/

/-- All bits beyond the length have one value. -/
def PaddedWith (b : Bitmap A mapWords) (p : Bool) : Prop :=
  ∀ i, b.bits ≤ i → i < mapWords * A.wordBits → b.isSet i = p

namespace PaddedWith

/-- A call for a single bit does not reach them. -/
theorem of_single {b' : Bitmap A mapWords} (h : PaddedWith b p) (hbits : b'.bits = b.bits)
    (hout : b.bits ≤ bit → b' = b) (hin : bit < b.bits → ∀ i, i ≠ bit → b'.isSet i = b.isSet i) :
    PaddedWith b' p := by
  intro i hi hcap
  rw [hbits] at hi
  rcases Nat.lt_or_ge bit b.bits with hlt | hge
  · rw [hin hlt i (by omega), h i hi hcap]
  · rw [hout hge, h i hi hcap]

theorem applyOp (h : PaddedWith b p) (op : BitmapOp) : PaddedWith (b.applyOp op) (op.onPadding p) := by
  cases op with
  | setBit bit =>
      refine h.of_single (setBit_bits b bit) (fun hge => if_pos hge) fun hlt i hne => ?_
      exact (isSet_setBit_eq_ite hlt).trans (if_neg hne)
  | clearBit bit =>
      refine h.of_single (clearBit_bits b bit) (fun hge => if_pos hge) fun hlt i hne => ?_
      exact (isSet_clearBit_eq_ite hlt).trans (if_neg hne)
  | toggleBit bit =>
      refine h.of_single (toggleBit_bits b bit) (fun hge => if_pos hge) fun hlt i hne => ?_
      exact (isSet_toggleBit hlt).trans (if_neg hne)
  | setAllBits => exact fun i _ hcap => isSet_setAllBits hcap
  | clearAllBits => exact fun i _ hcap => isSet_clearAllBits hcap
  | toggleAllBits =>
      intro i hi hcap
      show b.toggleAllBits.isSet i = !p
      rw [isSet_toggleAllBits hcap, h i hi hcap]

theorem runOps (h : PaddedWith b p) (ops : List BitmapOp) :
    PaddedWith (b.runOps ops) (ops.foldl BitmapOp.onPadding p) := by
  induction ops generalizing b p with
  | nil => exact h
  | cons op ops ih => exact ih (h.applyOp op)

theorem new (A : Arch) (mapWords bits : Nat) : PaddedWith (Bitmap.new A mapWords bits) false :=
  fun i _ _ => isSet_new A mapWords bits i

/-- `ones` counts the bits beyond the length together with those below it. -/
theorem ones_eq (h : PaddedWith b p) :
    b.ones = (List.range b.len).countP (fun i => b.testBit i == some true) +
      if p then mapWords * A.wordBits - b.bits else 0 := by
  -- The bits of all words are those of the map and the padding.
  have hcap : mapWords * A.wordBits = b.bits + (mapWords * A.wordBits - b.bits) := by
    have := b.bits_le_mul
    omega
  have hlow : (List.range b.bits).countP (wordsBit A b.bitmap) =
      (List.range b.len).countP (fun i => b.testBit i == some true) := by
    refine List.countP_congr fun i hi => ?_
    rw [testBit_eq, if_pos (List.mem_range.1 hi)]
    simp [isSet]
  have hhigh : ((List.range (mapWords * A.wordBits - b.bits)).map (b.bits + ·)).countP (wordsBit A b.bitmap) =
      if p then mapWords * A.wordBits - b.bits else 0 := by
    have hall : ∀ i ∈ (List.range (mapWords * A.wordBits - b.bits)).map (b.bits + ·),
        wordsBit A b.bitmap i = p := by
      intro i hi
      rcases List.mem_map.1 hi with ⟨j, hj, rfl⟩
      have hj' := List.mem_range.1 hj
      exact h _ (Nat.le_add_right _ _) (by omega)
    cases p with
    | true =>
        rw [List.countP_eq_length.2 hall, List.length_map, List.length_range]
        rfl
    | false => exact List.countP_eq_zero.2 fun i hi => by simp [hall i hi]
  rw [Bitmap.ones, foldl_ones b.word_lt, Nat.zero_add, b.length_eq]
  conv_lhs => rw [hcap]
  rw [List.range_add, List.countP_append, hlow, hhigh]

end PaddedWith

/-- `ones` is the number of bits that are set exactly if the map uses all its words or the calls for the whole map
have left the other bits clear. -/
theorem runOps_ones_iff (A : Arch) (mapWords bits : Nat) (ops : List BitmapOp) :
    let b := (new A mapWords bits).runOps ops
    b.ones = (List.range b.len).countP (fun i => b.testBit i == some true) ∧ b.ones ≤ b.len ↔
      mapWords * A.wordBits ≤ bits ∨ ops.foldl BitmapOp.onPadding false = false := by
  intro b
  have hpadded : PaddedWith b (ops.foldl BitmapOp.onPadding false) := (PaddedWith.new A mapWords bits).runOps ops
  have hones := hpadded.ones_eq
  have hbits : b.bits = min bits (mapWords * A.wordBits) := (runOps_bits _ ops).trans (new_bits A mapWords bits)
  have hcount : (List.range b.len).countP (fun i => b.testBit i == some true) ≤ b.len :=
    List.countP_le_length.trans_eq List.length_range
  cases hpad : ops.foldl BitmapOp.onPadding false with
  | true =>
      rw [hpad, if_pos rfl] at hones
      simp only [Bool.true_eq_false, or_false]
      have hlen : b.len = b.bits := rfl
      omega
  | false =>
      rw [hpad] at hones
      simp only [Bool.false_eq_true, if_false, Nat.add_zero] at hones
      simp only [or_true, iff_true]
      exact ⟨hones, hones.trans_le hcount⟩

/-- All bits of a map of 32 bits are set; `ones` counts 128. -/
theorem runOps_counts_padding :
    let b := (new .aarch64 2 32).runOps [.setAllBits]
    b.len = 32 ∧ (List.range b.len).countP (fun i => b.testBit i == some true) = 32 ∧ b.ones = 128 ∧
      ¬ b.ones ≤ b.len := by
  decide

end Bitmap
end Propeller
