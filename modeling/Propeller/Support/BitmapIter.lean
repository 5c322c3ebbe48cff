import Propeller.Lib.Loop
import Propeller.Support.BitmapOps
import Propeller.Support.Word

/-!
# Support.BitmapIter — iteration over the bits of a map

`BitmapIter` counts the bits of the map in `index`; `word` and `bit` are meant to follow.  But `bit` stays zero, so
`word` does, and every round tests the first word with a mask of `1 << index`.  An iteration is therefore right for maps
of one word.  Beyond that the shift stops a development build, and a release build sees the first word again.
-/

namespace Propeller

structure BitmapIter where
  index : Nat
  word : Nat
  bit : Nat
  deriving DecidableEq, Repr

namespace BitmapIter

variable {A : Arch} {mapWords : Nat}

/-! ## The source functions -/

/-- `into_iter`. -/
def intoIter : BitmapIter :=
  ⟨0, 0, 0⟩

/-- A round of the loop in `next`.  The index is below the length, so it can be increased. -/
def nextRound (P : Profile) (b : Bitmap A mapWords) (it : BitmapIter) :
    Run (BitmapIter ⊕ (Option Nat × BitmapIter)) :=
  if it.index < b.bits then do
    let index := it.index
    let word ← match b.bitmap[it.word]? with
      | some word => pure word
      | none => .error .index
    let mask ← shlWord P A 1 index
    let val := word &&& mask != 0
    let word ← if (it.bit + 1) % A.wordLimit = 0 then addWord P A it.word 1 else pure it.word
    let it := { it with index := index + 1, word }
    if val then return .inr (some index, it)
    else return .inl it
  else return .inr (none, it)

def next (P : Profile) (b : Bitmap A mapWords) (it : BitmapIter) : Run (Option Nat × BitmapIter) :=
  Loop.iterate .diverges (nextRound P b) (b.bits + 1) it

/-- The values that a `for` loop over the iterator sees, with fuel for the calls of `next`. -/
def collect (P : Profile) (b : Bitmap A mapWords) : Nat → BitmapIter → Run (List Nat)
  | 0, _ => .error .diverges
  | fuel + 1, it => do
      match ← next P b it with
      | (none, _) => return []
      | (some index, it) =>
          let indices ← collect P b fuel it
          return index :: indices

/-- `for index in &map`. -/
def indices (P : Profile) (b : Bitmap A mapWords) : Run (List Nat) :=
  collect P b (b.bits + 1) intoIter

/-! ## What is tested -/

variable {P : Profile} {b : Bitmap A mapWords} {i n fuel fuel' : Nat}

/-- What the round for the bit `i` finds. -/
def tested (P : Profile) (b : Bitmap A mapWords) (i : Nat) : Run Bool :=
  if P = .dev ∧ A.wordBits ≤ i then .error .overflow else .ok (b.isSet (i % A.wordBits))

/-- The tests of the `n` bits from `i` on. -/
def tests (P : Profile) (b : Bitmap A mapWords) : Nat → Nat → Run (List Nat)
  | 0, _ => .ok []
  | n + 1, i => do
      let val ← tested P b i
      let rest ← tests P b n (i + 1)
      return if val then i :: rest else rest

theorem and_mask (w s : Nat) (hs : s < A.wordBits) : (w &&& wordShl A 1 s != 0) = w.testBit s := by
  have hlt : 2 ^ s < 2 ^ A.wordBits := Nat.pow_lt_pow_right (by decide) hs
  rw [wordShl, Nat.one_shiftLeft, Nat.mod_eq_of_lt hlt, Nat.and_two_pow]
  cases w.testBit s with
  | true => simp
  | false => simp

theorem nextRound_done (P : Profile) (h : b.bits ≤ i) : nextRound P b ⟨i, 0, 0⟩ = .ok (.inr (none, ⟨i, 0, 0⟩)) := by
  rw [nextRound, if_neg (Nat.not_lt.2 h)]
  rfl

/-- The first word is read, whatever the index is. -/
theorem nextRound_eq (P : Profile) (h : i < b.bits) :
    nextRound P b ⟨i, 0, 0⟩ = do
      let val ← tested P b i
      if val then return .inr (some i, ⟨i + 1, 0, 0⟩) else return .inl ⟨i + 1, 0, 0⟩ := by
  have hlen : 0 < b.bitmap.length := (Nat.zero_le _).trans_lt (Bitmap.word_inside h)
  have hpos := A.wordBits_pos
  have hmod := Nat.mod_lt i hpos
  have hword : ∀ s < A.wordBits, b.isSet s = (b.bitmap.get ⟨0, hlen⟩).testBit s := by
    intro s hs
    rw [Bitmap.isSet, Bitmap.wordsBit, Nat.div_eq_of_lt hs, Nat.mod_eq_of_lt hs, List.getD_eq_getElem?_getD,
      List.getElem?_eq_getElem hlen, Option.getD_some]
    rfl
  -- `bit` is zero here, so it does not roll over.
  have hbit : ¬ (0 + 1) % A.wordLimit = 0 := by
    cases A <;> decide
  simp only [nextRound, if_pos h, List.getElem?_eq_getElem hlen, pure_bind, if_neg hbit, tested]
  by_cases hpanic : P = .dev ∧ A.wordBits ≤ i
  · rw [if_pos hpanic]
    simp only [shlWord, hpanic.1, if_neg (Nat.not_lt.2 hpanic.2), run_error_bind]
  · have hshl : shlWord P A 1 i = .ok (wordShl A 1 (i % A.wordBits)) := by
      cases P with
      | dev =>
          have hlt : i < A.wordBits := by
            by_contra hge
            exact hpanic ⟨rfl, Nat.le_of_not_lt hge⟩
          rw [shlWord, if_pos hlt, Nat.mod_eq_of_lt hlt]
      | release => rfl
    rw [if_neg hpanic]
    simp only [hshl, run_ok_bind, and_mask _ _ hmod, hword _ hmod]
    rfl

/-! ## Whole iterations -/

/-- What `collect` does with a call of `next` that has returned. -/
def collectRest (P : Profile) (b : Bitmap A mapWords) (fuel : Nat) : Option Nat × BitmapIter → Run (List Nat)
  | (none, _) => .ok []
  | (some index, it) => do
      let indices ← collect P b fuel it
      return index :: indices

theorem collect_succ (P : Profile) (b : Bitmap A mapWords) (fuel : Nat) (it : BitmapIter) :
    collect P b (fuel + 1) it = next P b it >>= collectRest P b fuel := by
  rw [collect]
  congr 1

/-- A loop that has come to the bit `i` tests the bits from there on, in this call of `next` or in later ones. -/
theorem iterate_collectRest (P : Profile) (b : Bitmap A mapWords) (hfuel : b.bits - i < fuel)
    (hfuel' : b.bits - i ≤ fuel') :
    (Loop.iterate .diverges (nextRound P b) fuel ⟨i, 0, 0⟩ >>= collectRest P b fuel') = tests P b (b.bits - i) i := by
  -- Induction on the number of bits that are left.
  generalize hn : b.bits - i = n at hfuel hfuel' ⊢
  induction n generalizing i fuel fuel' with
  | zero =>
      obtain ⟨f, rfl⟩ := Nat.exists_eq_succ_of_ne_zero hfuel.ne'
      rw [Loop.iterate, nextRound_done P (by omega)]
      rfl
  | succ n ih =>
      obtain ⟨f, rfl⟩ : ∃ f, fuel = f + 1 := ⟨fuel - 1, by omega⟩
      rw [Loop.iterate, nextRound_eq P (by omega), tests]
      cases tested P b i with
      | error e => rfl
      | ok set =>
          cases set with
          | false =>
              have hrest : (Loop.iterate .diverges (nextRound P b) f ⟨i + 1, 0, 0⟩ >>= collectRest P b fuel') =
                  tests P b n (i + 1) := ih (by omega) (by omega) (by omega)
              simp only [run_ok_bind, Bool.false_eq_true, if_false]
              rw [← hrest]
              exact (bind_pure _).symm
          | true =>
              obtain ⟨g, rfl⟩ : ∃ g, fuel' = g + 1 := ⟨fuel' - 1, by omega⟩
              have hrest : (Loop.iterate .diverges (nextRound P b) (b.bits + 1) ⟨i + 1, 0, 0⟩ >>= collectRest P b g) =
                  tests P b n (i + 1) := ih (by omega) (by omega) (by omega)
              simp only [run_ok_bind, if_true]
              rw [← hrest]
              show collectRest P b (g + 1) (some i, ⟨i + 1, 0, 0⟩) = _
              rw [collectRest, collect_succ, next]

theorem indices_eq_tests (P : Profile) (b : Bitmap A mapWords) : indices P b = tests P b b.bits 0 := by
  rw [indices, collect_succ, next]
  exact iterate_collectRest P b (Nat.lt_succ_self _) (Nat.le_refl _)

/-- A build that does not stop sees the bits of the first word over and over. -/
theorem tests_eq (h : ∀ j < i + n, ¬ (P = .dev ∧ A.wordBits ≤ j)) :
    tests P b n i = .ok ((List.range' i n).filter fun j => b.isSet (j % A.wordBits)) := by
  induction n generalizing i with
  | zero => rfl
  | succ n ih =>
      rw [tests, tested, if_neg (h i (by omega)), run_ok_bind, ih fun j hj => h j (by omega), run_ok_bind,
        List.range'_succ, List.filter_cons]
      rfl

/-- A development build stops at the first bit behind the first word. -/
theorem tests_panics (h : i ≤ A.wordBits) (hn : A.wordBits < i + n) : tests .dev b n i = .error .overflow := by
  induction n generalizing i with
  | zero => omega
  | succ n ih =>
      rw [tests, tested]
      by_cases heq : i = A.wordBits
      · rw [if_pos ⟨rfl, heq.ge⟩]
        rfl
      · rw [if_neg (by omega), run_ok_bind, ih (by omega) (by omega)]
        rfl

/-- The bits that are set, in order. -/
def setIndices (b : Bitmap A mapWords) : List Nat :=
  (List.range b.len).filter fun i => b.testBit i == some true

theorem filter_range_eq_iff {p q : Nat → Bool} :
    (List.range n).filter p = (List.range n).filter q ↔ ∀ i < n, p i = q i := by
  constructor
  · intro h i hi
    have hmem : i ∈ (List.range n).filter p ↔ i ∈ (List.range n).filter q := by rw [h]
    simp only [List.mem_filter, List.mem_range, hi, true_and] at hmem
    exact Bool.eq_iff_iff.2 hmem
  · intro h
    exact List.filter_congr fun i hi => h i (List.mem_range.1 hi)

/-- The map has one word at most, or the build is a release and every bit equals the one in the same place of the
first word. -/
def OneWord (P : Profile) (b : Bitmap A mapWords) : Prop :=
  b.len ≤ A.wordBits ∨ P = .release ∧ ∀ i < b.len, b.testBit i = b.testBit (i % A.wordBits)

/-- Iteration returns the bits that are set, in order, exactly for such maps. -/
theorem indices_exact_iff (P : Profile) (b : Bitmap A mapWords) : indices P b = .ok (setIndices b) ↔ OneWord P b := by
  have hlen : b.len = b.bits := rfl
  have hmod : ∀ i < b.bits, i % A.wordBits < b.bits := fun i hi => (Nat.mod_le _ _).trans_lt hi
  have hset : setIndices b = (List.range b.bits).filter (b.isSet ·) := by
    refine List.filter_congr fun i hi => ?_
    rw [Bitmap.testBit_eq, if_pos (hlen ▸ List.mem_range.1 hi)]
    cases b.isSet i <;> rfl
  rw [indices_eq_tests, hset, OneWord, hlen]
  -- With more bits than a word has, the profiles differ.
  rcases Nat.lt_or_ge A.wordBits b.bits with hmore | hone
  · cases P with
    | dev =>
        -- `1 << index` overflows at the first index of the second word.
        rw [tests_panics (Nat.zero_le _) (by omega)]
        exact iff_of_false (fun h => nomatch h) fun h => h.elim (fun hle => by omega) fun h => nomatch h.1
    | release =>
        -- The shift is taken modulo the word size, so the first word is read again and again.
        have hreturns : ∀ j < 0 + b.bits, ¬ (Profile.release = .dev ∧ A.wordBits ≤ j) := fun j _ h => nomatch h.1
        rw [tests_eq hreturns, ← List.range_eq_range', Except.ok.injEq, filter_range_eq_iff]
        constructor
        · intro h
          refine Or.inr ⟨rfl, fun i hi => ?_⟩
          rw [Bitmap.testBit_eq, Bitmap.testBit_eq, if_pos hi, if_pos (hmod i hi), h i hi]
        · rintro (hle | ⟨-, h⟩) i hi
          · omega
          · have hbit := h i hi
            rw [Bitmap.testBit_eq, Bitmap.testBit_eq, if_pos hi, if_pos (hmod i hi)] at hbit
            exact (Option.some.inj hbit).symm
  · rw [tests_eq (fun j hj h => by omega), ← List.range_eq_range']
    refine iff_of_true (congrArg Except.ok (List.filter_congr fun i hi => ?_)) (Or.inl hone)
    rw [Nat.mod_eq_of_lt ((List.mem_range.1 hi).trans_le hone)]

/-- Bit 100 of an affinity mask of four words is set: one build stops, the other one does not find it. -/
theorem indices_miss_second_word :
    let b := (Bitmap.new .aarch64 4 256).setBit 100
    setIndices b = [100] ∧ indices .dev b = .error .overflow ∧ indices .release b = .ok [] := by
  decide +kernel

end BitmapIter
end Propeller
