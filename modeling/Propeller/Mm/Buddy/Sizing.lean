import Propeller.Mm.Buddy.Flags

/-!
# Buddy.Sizing — the size of the metadata

`calc_metadata_size` and `make_levels` walk through the eleven levels with two loops of their own.  The model has the
blocks and the offset of a level in closed form (`levelStart`).  Here the loops are written out, and the size of the
metadata is compared with the positions that `get_flag_index_and_bit` gives to the blocks of an area.
-/

namespace Propeller
namespace Buddy

/-! ## The loops -/

/-- The loop of `calc_metadata_size`, with `n` rounds left. -/
def sizeLoop (A : Arch) : Nat → Nat × Nat → Nat × Nat
  | 0, level => level
  | n + 1, level => sizeLoop A n (calcNextLevel A level)

/-- The loop of `make_levels` over the levels that are left. -/
def levelsLoop (A : Arch) : List BlockLevel → Nat × Nat → List BlockLevel × (Nat × Nat)
  | [], level => ([], level)
  | first :: rest, level =>
      let (levels, last) := levelsLoop A rest (calcNextLevel A level)
      ({ first with offset := level.2 } :: levels, last)

/-- The bytes that `calc_metadata_size` returns. -/
def metadataBytes (A : Arch) (size : Nat) : Nat :=
  (sizeLoop A BLOCK_LEVELS (calcFirstLevel size)).2 <<< A.wordShift

/-- The levels and the bytes that `make_levels` returns. -/
def levelsAndBytes (A : Arch) (size : Nat) : List BlockLevel × Nat :=
  let (levels, last) := levelsLoop A (List.replicate BLOCK_LEVELS ⟨0, 0⟩) (calcFirstLevel size)
  (levels, last.2 <<< A.wordShift)

variable {A : Arch} {s : State} {size l m a b : Nat}

theorem sizeLoop_eq (A : Arch) (n : Nat) (level : Nat × Nat) : sizeLoop A n level = (calcNextLevel A)^[n] level := by
  induction n generalizing level with
  | zero => rfl
  | succ n ih => exact ih (calcNextLevel A level)

theorem metadataBytes_eq (A : Arch) (size : Nat) : metadataBytes A size = calcMetadataSize A size := by
  rw [metadataBytes, sizeLoop_eq]
  rfl

theorem levelsLoop_eq (A : Arch) (n : Nat) (level : Nat × Nat) :
    (levelsLoop A (List.replicate n ⟨0, 0⟩) level).2 = (calcNextLevel A)^[n] level ∧
      ∀ l < n, (levelsLoop A (List.replicate n ⟨0, 0⟩) level).1[l]? = some ⟨0, ((calcNextLevel A)^[l] level).2⟩ := by
  induction n generalizing level with
  | zero => exact ⟨rfl, fun l hl => absurd hl (Nat.not_lt_zero l)⟩
  | succ n ih =>
      refine ⟨(ih (calcNextLevel A level)).1, fun l hl => ?_⟩
      cases l with
      | zero => rfl
      | succ l => exact (ih (calcNextLevel A level)).2 l (Nat.lt_of_succ_lt_succ hl)

theorem levelsAndBytes_eq (A : Arch) (size : Nat) :
    (levelsAndBytes A size).2 = (makeLevels A size).2 ∧
      ∀ l < BLOCK_LEVELS, (levelsAndBytes A size).1[l]? = some ((makeLevels A size).1 l) := by
  have hloop := levelsLoop_eq A BLOCK_LEVELS (calcFirstLevel size)
  exact ⟨congrArg (fun last : Nat × Nat => last.2 <<< A.wordShift) hloop.1, hloop.2⟩

/-! ## The size -/

theorem pairCount_mono {size' : Nat} (h : size ≤ size') (l : Nat) : pairCount size l ≤ pairCount size' l := by
  have hblocks : size / pageSize / 2 ^ l ≤ size' / pageSize / 2 ^ l := Nat.div_le_div_right (Nat.div_le_div_right h)
  exact Nat.div_le_div_right (Nat.succ_le_succ hblocks)

theorem levelStart_mono_size (A : Arch) {size' : Nat} (h : size ≤ size') (l : Nat) :
    (levelStart A size l).2 ≤ (levelStart A size' l).2 := by
  induction l with
  | zero => exact le_rfl
  | succ l ih =>
      rw [levelStart_snd_succ, levelStart_snd_succ]
      refine Nat.add_le_add ih (Nat.div_le_div_right ?_)
      have hpairs := pairCount_mono h l
      omega

/-- The words of a level are no more than the pages of the area. -/
theorem levelStart_le (A : Arch) (size l : Nat) : (levelStart A size l).2 ≤ l * (size / pageSize) := by
  induction l with
  | zero => exact Nat.zero_le _
  | succ l ih =>
      have hpairs : pairCount size l ≤ size / pageSize := by
        have hhalf : ∀ n : Nat, (n + 1) / 2 ≤ n := by omega
        exact (hhalf _).trans (Nat.div_le_self _ _)
      have hwords : (pairCount size l + A.wordBits - 1) / A.wordBits ≤ pairCount size l := by
        have hpos := A.wordBits_pos
        rcases Nat.eq_zero_or_pos (pairCount size l) with hzero | hpair
        · rw [hzero, Nat.zero_add, Nat.div_eq_of_lt (by omega)]
        · have hsum : pairCount size l + A.wordBits - 1 = pairCount size l - 1 + A.wordBits := by omega
          have hle : (pairCount size l - 1) / A.wordBits ≤ pairCount size l - 1 := Nat.div_le_self _ _
          rw [hsum, Nat.add_div_right _ hpos]
          omega
      rw [levelStart_snd_succ, Nat.succ_mul]
      omega

/-- No addition or shift of the two functions leaves the word: the metadata is smaller than the area. -/
theorem metadataBytes_le (A : Arch) (size : Nat) : metadataBytes A size ≤ size := by
  have hwords := levelStart_le A size BLOCK_LEVELS
  have hpages := Nat.div_mul_le_self size pageSize
  have hlevels : BLOCK_LEVELS = 11 := rfl
  have hbytes : 2 ^ A.wordShift ≤ 8 := by cases A <;> decide
  have hpage : pageSize = 4096 := rfl
  rw [metadataBytes_eq, calcMetadataSize, Nat.shiftLeft_eq]
  have hmul := Nat.mul_le_mul hwords hbytes
  rw [hlevels] at hmul
  rw [hpage] at hpages hmul
  rw [hlevels]
  omega

/-! ## Positions -/

/-- The pages of the block of level `l` at `a` are in the area. -/
structure InsideArea (base size l a : Nat) : Prop where
  aligned : pageSize ∣ a
  lower : base ≤ a
  upper : a + 2 ^ l * pageSize ≤ base + size

/-- The number of a block's pair, relative to the beginning of the area. -/
def pairNumber (base l a : Nat) : Nat :=
  (a - base) / pageSize / 2 ^ l / 2

theorem InsideArea.pair_lt (h : InsideArea s.base size l a) : blockNum s a l / 2 < pairCount size l := by
  have hspan : a - s.base + 2 ^ l * pageSize ≤ size := by
    have hlower := h.lower
    have hupper := h.upper
    omega
  have hpages : (a - s.base) / pageSize + 2 ^ l ≤ size / pageSize := by
    rw [← Nat.add_mul_div_right _ _ pageSize_pos]
    exact Nat.div_le_div_right hspan
  have hblock : blockNum s a l + 1 ≤ size / pageSize / 2 ^ l := by
    rw [blockNum, ← Nat.add_div_right _ (Nat.two_pow_pos l)]
    exact Nat.div_le_div_right hpages
  rw [pairCount]
  omega

/-- `calc_metadata_size` is the size of `make_levels`, it grows with the area, every block of the area has its flag in
the metadata, and two blocks share a flag only as the two halves of a pair. -/
theorem metadata_sufficient (A : Arch) (size : Nat) :
    metadataBytes A size = (levelsAndBytes A size).2 ∧
      (∀ size', size ≤ size' → metadataBytes A size ≤ metadataBytes A size') ∧
      ∀ s : State, pageSize ∣ s.base → (∀ l < BLOCK_LEVELS, (levelsAndBytes A size).1[l]? = some (s.levels l)) →
        (∀ l < BLOCK_LEVELS, ∀ a, InsideArea s.base size l a →
          ∃ index bit, getFlagIndexAndBit A s a l = .ok (index, bit) ∧ index < metadataBytes A size / A.wordBytes) ∧
        ∀ l < BLOCK_LEVELS, ∀ a, InsideArea s.base size l a → ∀ m < BLOCK_LEVELS, ∀ b, InsideArea s.base size m b →
          getFlagIndexAndBit A s a l = getFlagIndexAndBit A s b m →
            l = m ∧ pairNumber s.base l a = pairNumber s.base m b := by
  have hlevels := levelsAndBytes_eq A size
  refine ⟨(metadataBytes_eq A size).trans hlevels.1.symm, fun size' h => ?_, fun s _ hs => ?_⟩
  · rw [metadataBytes_eq, metadataBytes_eq, calcMetadataSize, calcMetadataSize, Nat.shiftLeft_eq, Nat.shiftLeft_eq]
    exact Nat.mul_le_mul_right _ (levelStart_mono_size A h BLOCK_LEVELS)
  have hoffset : ∀ l < BLOCK_LEVELS, (s.levels l).offset = (levelStart A size l).2 := by
    intro l hl
    have hlevel := Option.some.inj ((hs l hl).symm.trans (hlevels.2 l hl))
    rw [hlevel]
    rfl
  have hwords : metadataBytes A size / A.wordBytes = (levelStart A size BLOCK_LEVELS).2 := by
    have hbytes : A.wordBytes = 2 ^ A.wordShift := by cases A <;> rfl
    rw [metadataBytes_eq, calcMetadataSize, Nat.shiftLeft_eq, hbytes, Nat.mul_div_cancel _ (Nat.two_pow_pos _)]
  refine ⟨fun l hl a ha => ⟨_, _, getFlagIndexAndBit_eq ha.lower, ?_⟩, fun l hl a ha m hm b hb heq => ?_⟩
  · rw [hoffset l hl, hwords]
    exact (pair_word_lt A ha.pair_lt).trans_le (levelStart_snd_mono A size hl)
  · rw [getFlagIndexAndBit_eq ha.lower, getFlagIndexAndBit_eq hb.lower, hoffset l hl, hoffset m hm] at heq
    rcases Prod.mk.inj (Except.ok.inj heq) with ⟨hword, hbit⟩
    exact pair_position_inj ha.pair_lt hb.pair_lt hword hbit

/-- Seven pages: the last block of two pages has its flag in the metadata, apart from the flag of the last page. -/
theorem metadata_sufficient_seven_pages :
    let s : State := ⟨0x1000, 0x7000, (makeLevels .aarch64 0x7000).1, [], 0, 0, fun _ => ⟨0, 0, 0⟩⟩
    metadataBytes .aarch64 0x7000 = (levelsAndBytes .aarch64 0x7000).2 ∧
      metadataBytes .aarch64 0x7000 ≤ metadataBytes .aarch64 0x8000 ∧
      (∃ index bit, getFlagIndexAndBit .aarch64 s 0x5000 1 = .ok (index, bit) ∧
        index < metadataBytes .aarch64 0x7000 / Arch.aarch64.wordBytes) ∧
      getFlagIndexAndBit .aarch64 s 0x5000 1 ≠ getFlagIndexAndBit .aarch64 s 0x7000 0 := by
  intro s
  rcases metadata_sufficient .aarch64 0x7000 with ⟨hsize, hmono, hblocks⟩
  rcases hblocks s (by decide) (levelsAndBytes_eq .aarch64 0x7000).2 with ⟨hindex, hshared⟩
  have hpair : InsideArea s.base 0x7000 1 0x5000 := ⟨by decide, by decide, by decide⟩
  have hlast : InsideArea s.base 0x7000 0 0x7000 := ⟨by decide, by decide, by decide⟩
  refine ⟨hsize, hmono 0x8000 (by decide), hindex 1 (by decide) 0x5000 hpair, fun heq => ?_⟩
  exact absurd (hshared 1 (by decide) 0x5000 hpair 0 (by decide) 0x7000 hlast heq).1 (by decide)

end Buddy
end Propeller
