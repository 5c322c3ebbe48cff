import Propeller.Mm.Buddy.Lists

/-!
# Buddy.Flags — the flag bitmaps

Eleven bitmaps of one bit per block pair are packed back to back into the flag words.  `Geometry`
says that the offsets and the length are those `make_levels` computed; under it every pair of every
level has a bit of its own inside the slice, so toggling one pair leaves all others alone.
-/

namespace Propeller
namespace Buddy

variable {A : Arch} {s s' : State} {l m k n : Nat}

/-! ## Layout -/

/-- The number of pairs a level has a bit for. -/
def pairCount (size l : Nat) : Nat :=
  (size / pageSize / 2 ^ l + 1) / 2

theorem levelStart_fst (A : Arch) (size l : Nat) :
    (levelStart A size l).1 = size / pageSize / 2 ^ l := by
  induction l with
  | zero => simp [levelStart, calcFirstLevel, Nat.shiftRight_eq_div_pow, pageSize_eq]
  | succ l ih =>
      rw [levelStart, Function.iterate_succ_apply', ← levelStart]
      simp only [calcNextLevel, ih, Nat.shiftRight_eq_div_pow]
      rw [Nat.div_div_eq_div_mul, Nat.pow_one, ← Nat.pow_succ]

theorem levelStart_snd_succ (A : Arch) (size l : Nat) :
    (levelStart A size (l + 1)).2 =
      (levelStart A size l).2 + (pairCount size l + A.wordBits - 1) / A.wordBits := by
  rw [levelStart, Function.iterate_succ_apply', ← levelStart]
  simp only [calcNextLevel, levelStart_fst, Nat.shiftRight_eq_div_pow, ← A.wordBits_eq]
  rfl

theorem levelStart_snd_mono (A : Arch) (size : Nat) (h : l ≤ m) :
    (levelStart A size l).2 ≤ (levelStart A size m).2 := by
  induction h with
  | refl => exact le_rfl
  | step _ ih =>
      rw [levelStart_snd_succ]
      exact ih.trans (Nat.le_add_right _ _)

/-- The word that holds a pair's bit lies before the next level's words. -/
theorem pair_word_lt (A : Arch) {size : Nat} (hk : k < pairCount size l) :
    (levelStart A size l).2 + k / A.wordBits < (levelStart A size (l + 1)).2 := by
  rw [levelStart_snd_succ]
  have hpos := A.wordBits_pos
  have hlt : k / A.wordBits < (pairCount size l + A.wordBits - 1) / A.wordBits := by
    rw [Nat.lt_iff_add_one_le, Nat.le_div_iff_mul_le hpos, Nat.add_mul, Nat.one_mul]
    have := Nat.div_mul_le_self k A.wordBits
    omega
  omega

/-- The offsets and the number of flag words are those of `make_levels`. -/
structure Geometry (A : Arch) (s : State) : Prop where
  offset : ∀ l, (s.levels l).offset = (levelStart A s.size l).2
  length : s.flags.length = (levelStart A s.size BLOCK_LEVELS).2

theorem Geometry.frame {touched : Nat → Prop} (hg : Geometry A s) (hf : Frame s s' l touched) :
    Geometry A s' := by
  refine ⟨?_, ?_⟩
  · intro m
    rw [hf.offset, hf.size]
    exact hg.offset m
  · rw [hf.flags, hf.size]
    exact hg.length

/-- Two pairs share a flag bit only if they are the same pair of the same level. -/
theorem pair_position_inj {size k' : Nat} (hk : k < pairCount size l) (hk' : k' < pairCount size m)
    (hword : (levelStart A size l).2 + k / A.wordBits = (levelStart A size m).2 + k' / A.wordBits)
    (hbit : k % A.wordBits = k' % A.wordBits) : l = m ∧ k = k' := by
  have hlm : l = m := by
    rcases Nat.lt_trichotomy l m with hlt | heq | hgt
    · have h1 := pair_word_lt A hk
      have h2 := levelStart_snd_mono A size (show l + 1 ≤ m from hlt)
      have h3 := Nat.zero_le (k' / A.wordBits)
      omega
    · exact heq
    · have h1 := pair_word_lt A hk'
      have h2 := levelStart_snd_mono A size (show m + 1 ≤ l from hgt)
      have h3 := Nat.zero_le (k / A.wordBits)
      omega
  subst hlm
  refine ⟨rfl, ?_⟩
  have hq : k / A.wordBits = k' / A.wordBits := by omega
  rw [← Nat.div_add_mod k A.wordBits, ← Nat.div_add_mod k' A.wordBits, hq, hbit]

/-! ## Reading and toggling -/

/-- The number of a block at its level, relative to the beginning of the area. -/
def blockNum (s : State) (a l : Nat) : Nat :=
  (a - s.base) / pageSize / 2 ^ l

/-- The flag bit of pair `k` at level `l`. -/
def flagSet (A : Arch) (s : State) (l k : Nat) : Bool :=
  (s.flags.getD ((s.levels l).offset + k / A.wordBits) 0).testBit (k % A.wordBits)

theorem getFlagIndexAndBit_eq {a : Nat} (ha : s.base ≤ a) :
    getFlagIndexAndBit A s a l =
      .ok ((s.levels l).offset + blockNum s a l / 2 / A.wordBits,
        blockNum s a l / 2 % A.wordBits) := by
  simp only [getFlagIndexAndBit, checkedSub_of_le ha, run_ok_bind, Nat.shiftRight_eq_div_pow,
    ← A.wordBits_eq, blockNum, pageSize_eq, Nat.pow_one]
  rw [A.wordBits_eq, Nat.and_two_pow_sub_one_eq_mod]
  rfl

theorem flag_index_lt (hg : Geometry A s) (hl : l < BLOCK_LEVELS) (hk : k < pairCount s.size l) :
    (s.levels l).offset + k / A.wordBits < s.flags.length := by
  rw [hg.offset, hg.length]
  exact (pair_word_lt A hk).trans_le (levelStart_snd_mono A s.size hl)

theorem getFlagWord_eq {i : Nat} (hi : i < s.flags.length) :
    getFlagWord s i = .ok (s.flags.getD i 0) := by
  simp [getFlagWord, List.getD_eq_getElem?_getD, hi]

/-- The test of `free` reads the flag of the pair. -/
theorem flag_test_iff : s.flags.getD ((s.levels l).offset + k / A.wordBits) 0 &&&
      (1 <<< (k % A.wordBits)) = 0 ↔ flagSet A s l k = false := by
  rw [flagSet, Nat.one_shiftLeft]
  constructor
  · intro h
    have hbit := congrArg (fun w => w.testBit (k % A.wordBits)) h
    simpa using hbit
  · intro h
    apply Nat.eq_of_testBit_eq
    intro i
    rw [Nat.testBit_and, Nat.testBit_two_pow, Nat.zero_testBit]
    by_cases hi : k % A.wordBits = i
    · subst hi
      rw [h, Bool.false_and]
    · simp [hi]

/-- The state after the flag of pair `k` at level `l` has been toggled. -/
def toggled (A : Arch) (s : State) (l k : Nat) : State :=
  { s with
    flags := s.flags.set ((s.levels l).offset + k / A.wordBits)
      (s.flags.getD ((s.levels l).offset + k / A.wordBits) 0 ^^^ (1 <<< (k % A.wordBits))) }

theorem toggleFlag_eq (hi : (s.levels l).offset + k / A.wordBits < s.flags.length) :
    toggleFlag s ((s.levels l).offset + k / A.wordBits) (k % A.wordBits) =
      .ok (toggled A s l k) := by
  rw [toggleFlag, getFlagWord_eq hi]
  rfl

theorem Geometry.toggled (hg : Geometry A s) (l k : Nat) : Geometry A (toggled A s l k) := by
  refine ⟨hg.offset, ?_⟩
  rw [Buddy.toggled, List.length_set]
  exact hg.length

/-- Toggling a pair flips its flag and no other. -/
theorem flagSet_toggled {k' : Nat} (hg : Geometry A s) (hl : l < BLOCK_LEVELS)
    (hk : k < pairCount s.size l) (hk' : k' < pairCount s.size m) :
    flagSet A (toggled A s l k) m k' =
      if l = m ∧ k = k' then !(flagSet A s l k) else flagSet A s m k' := by
  have hlt := flag_index_lt hg hl hk
  have hinj := @pair_position_inj A l m k s.size k' hk hk'
  rw [← hg.offset, ← hg.offset] at hinj
  unfold flagSet Buddy.toggled
  simp only [List.getD_eq_getElem?_getD, List.getElem?_set]
  -- Another word, another bit of the word, or the same pair: positions are injective.
  by_cases hword : (s.levels l).offset + k / A.wordBits = (s.levels m).offset + k' / A.wordBits
  · have hlt' : (s.levels m).offset + k' / A.wordBits < s.flags.length := hword ▸ hlt
    simp only [hword, if_true, hlt', Option.getD_some, Nat.testBit_xor, Nat.one_shiftLeft,
      Nat.testBit_two_pow]
    by_cases hbit : k % A.wordBits = k' % A.wordBits
    · obtain ⟨rfl, rfl⟩ := hinj hword hbit
      simp
    · have hne : ¬ (l = m ∧ k = k') := by
        rintro ⟨rfl, rfl⟩
        exact hbit rfl
      simp [hbit, hne]
  · have hne : ¬ (l = m ∧ k = k') := by
      rintro ⟨rfl, rfl⟩
      exact hword rfl
    simp [hword, hne]

end Buddy
end Propeller
