import Mathlib.Data.Nat.Bitwise
import Propeller.Lib.Dyadic

/-!
# Buddy — pairing blocks relative to an origin

A buddy system numbers the blocks of each level from some origin and pairs the numbers `2 k` and
`2 k + 1`.  When the origin is not a multiple of the block length, the blocks themselves may still be
aligned, but then the two numbers of a pair need not be the two halves of an aligned block.  This file
has the arithmetic for an arbitrary origin `b`:

* `number b B` and `buddy b B` — the number of a block and the other block of its pair;
* `merged b B` — the union of the two, one level up;
* `merged_aligned_iff` — the union is aligned exactly when an even number of blocks of the level lies
  before the first one at or after the origin.
-/

namespace Propeller

/-! ## Setting and flipping one bit -/

theorem or_two_pow (p l : Nat) : p ||| 2 ^ l = if p.testBit l then p else p + 2 ^ l := by
  -- As for the exclusive or.
  induction l generalizing p with
  | zero =>
      have hdiv : (p ||| 2 ^ 0) / 2 = p / 2 := by simp [Nat.or_div_two]
      have hmod : (p ||| 2 ^ 0) % 2 = 1 := by simp [Nat.or_mod_two_eq_one]
      simp only [Nat.testBit_zero, decide_eq_true_eq]
      split <;> omega
  | succ l ih =>
      have hpow : 2 ^ (l + 1) = 2 * 2 ^ l := by rw [Nat.pow_succ, Nat.mul_comm]
      have hdiv : (p ||| 2 ^ (l + 1)) / 2 = p / 2 ||| 2 ^ l := by
        rw [Nat.or_div_two, hpow, Nat.mul_div_cancel_left _ (by decide)]
      have hmod : (p ||| 2 ^ (l + 1)) % 2 = 1 ↔ p % 2 = 1 := by
        rw [Nat.or_mod_two_eq_one, hpow]
        omega
      rw [ih] at hdiv
      rw [Nat.testBit_succ]
      by_cases hbit : (p / 2).testBit l = true
      · rw [if_pos hbit] at hdiv ⊢
        omega
      · rw [if_neg hbit] at hdiv ⊢
        omega

theorem xor_two_pow (p l : Nat) : p ^^^ 2 ^ l = if p.testBit l then p - 2 ^ l else p + 2 ^ l := by
  -- Bit by bit from below: the operation on `p` is the one on `p / 2`, and the lowest bit is known.
  induction l generalizing p with
  | zero =>
      have hdiv : (p ^^^ 2 ^ 0) / 2 = p / 2 := by simp [Nat.xor_div_two]
      have hmod : (p ^^^ 2 ^ 0) % 2 = 1 ↔ ¬ p % 2 = 1 := by
        rw [Nat.xor_mod_two_eq_one, Nat.pow_zero]
        omega
      simp only [Nat.testBit_zero, decide_eq_true_eq]
      split <;> omega
  | succ l ih =>
      have hpow : 2 ^ (l + 1) = 2 * 2 ^ l := by rw [Nat.pow_succ, Nat.mul_comm]
      have hdiv : (p ^^^ 2 ^ (l + 1)) / 2 = p / 2 ^^^ 2 ^ l := by
        rw [Nat.xor_div_two, hpow, Nat.mul_div_cancel_left _ (by decide)]
      have hmod : (p ^^^ 2 ^ (l + 1)) % 2 = 1 ↔ p % 2 = 1 := by
        rw [Nat.xor_mod_two_eq_one, hpow]
        omega
      rw [ih] at hdiv
      rw [Nat.testBit_succ]
      by_cases hbit : (p / 2).testBit l = true
      · have hge : 2 ^ l ≤ p / 2 := Nat.ge_two_pow_of_testBit hbit
        rw [if_pos hbit] at hdiv ⊢
        omega
      · rw [if_neg hbit] at hdiv ⊢
        omega

/-! ## Pairs -/

namespace Block

variable {b : Nat} {B C : Block}

/-- The number of a block among the blocks of its level, counted from `b`. -/
def number (b : Nat) (B : Block) : Nat :=
  (B.page - b) / 2 ^ B.level

/-- The other block of a block's pair. -/
def buddy (b : Nat) (B : Block) : Block :=
  ⟨B.level, ((B.page - b) ^^^ 2 ^ B.level) + b⟩

/-- The union of a block and its buddy. -/
def merged (b : Nat) (B : Block) : Block :=
  ⟨B.level + 1, min B.page (buddy b B).page⟩

@[simp] theorem buddy_level (b : Nat) (B : Block) : (buddy b B).level = B.level := rfl

@[simp] theorem merged_level (b : Nat) (B : Block) : (merged b B).level = B.level + 1 := rfl

/-- Where the buddy starts, by the parity of the block's number. -/
theorem buddy_cases (hb : b ≤ B.page) :
    (number b B % 2 = 0 ∧ (buddy b B).page = B.page + 2 ^ B.level) ∨
      (number b B % 2 = 1 ∧ b + 2 ^ B.level ≤ B.page ∧ (buddy b B).page + 2 ^ B.level = B.page) := by
  have hbit : (B.page - b).testBit B.level = decide (number b B % 2 = 1) :=
    Nat.testBit_eq_decide_div_mod_eq
  have hpage : (buddy b B).page = ((B.page - b) ^^^ 2 ^ B.level) + b := rfl
  -- The bit that is flipped is the parity of the block's number.
  rw [xor_two_pow, hbit] at hpage
  by_cases hodd : number b B % 2 = 1
  · have hle : 2 ^ B.level ≤ B.page - b := by
      by_contra hlt
      have hzero : number b B = 0 := Nat.div_eq_of_lt (Nat.lt_of_not_le hlt)
      omega
    refine Or.inr ⟨hodd, by omega, ?_⟩
    simp only [hodd, decide_true, if_true] at hpage
    omega
  · refine Or.inl ⟨by omega, ?_⟩
    simp only [hodd, decide_false] at hpage
    rw [hpage]
    simp
    omega

/-- The two blocks of a pair have the two numbers of the pair. -/
theorem number_buddy (hb : b ≤ B.page) :
    number b (buddy b B) / 2 = number b B / 2 ∧ number b (buddy b B) ≠ number b B := by
  have hpos : 0 < 2 ^ B.level := Nat.two_pow_pos _
  have hdef : number b (buddy b B) = ((buddy b B).page - b) / 2 ^ B.level := rfl
  rcases buddy_cases hb with ⟨heven, hpage⟩ | ⟨hodd, hle, hpage⟩
  · have hnum : number b (buddy b B) = number b B + 1 := by
      rw [hdef, hpage, show B.page + 2 ^ B.level - b = B.page - b + 2 ^ B.level by omega,
        Nat.add_div_right _ hpos]
      rfl
    omega
  · have hnum : number b (buddy b B) + 1 = number b B := by
      rw [hdef, ← Nat.add_div_right _ hpos,
        show (buddy b B).page - b + 2 ^ B.level = B.page - b by omega]
      rfl
    omega

theorem le_buddy_page (hb : b ≤ B.page) : b ≤ (buddy b B).page := by
  have hpos : 0 < 2 ^ B.level := Nat.two_pow_pos _
  rcases buddy_cases hb with ⟨-, hpage⟩ | ⟨-, hle, hpage⟩ <;> omega

theorem Aligned.buddy (hB : B.Aligned) (hb : b ≤ B.page) : (buddy b B).Aligned := by
  rcases buddy_cases hb with ⟨-, hpage⟩ | ⟨-, hle, hpage⟩
  · rw [Aligned, hpage]
    exact Nat.dvd_add hB (Nat.dvd_refl _)
  · rw [Aligned, buddy_level]
    have hdvd : 2 ^ B.level ∣ (Block.buddy b B).page + 2 ^ B.level := hpage ▸ hB
    exact (Nat.dvd_add_left (Nat.dvd_refl _)).1 hdvd

/-- An aligned block is found by its level and its number. -/
theorem Aligned.eq_of_number_eq (hB : B.Aligned) (hC : C.Aligned) (hbB : b ≤ B.page)
    (hbC : b ≤ C.page) (hlevel : B.level = C.level) (hnum : number b B = number b C) : B = C := by
  have hpos : 0 < 2 ^ B.level := Nat.two_pow_pos _
  have hlow := Nat.div_add_mod (B.page - b) (2 ^ B.level)
  have hlow' := Nat.div_add_mod (C.page - b) (2 ^ B.level)
  have hmod := Nat.mod_lt (B.page - b) hpos
  have hmod' := Nat.mod_lt (C.page - b) hpos
  have hq : (B.page - b) / 2 ^ B.level = (C.page - b) / 2 ^ B.level := by
    unfold number at hnum
    rwa [← hlevel] at hnum
  rw [hq] at hlow
  -- The two pages are less than one block length apart.
  rcases Nat.le_total B.page C.page with hle | hle
  · refine (hC.eq_of_level_eq hB hlevel.symm (C.page_mem_pages) ?_).symm
    rw [mem_pages]
    omega
  · refine hB.eq_of_level_eq hC hlevel (B.page_mem_pages) ?_
    rw [mem_pages, ← hlevel]
    omega

/-! ## Merging -/

theorem le_merged_page (hb : b ≤ B.page) : b ≤ (merged b B).page :=
  le_min hb (le_buddy_page hb)

theorem mem_pages_merged {q : Nat} (hb : b ≤ B.page) :
    q ∈ (merged b B).pages ↔ q ∈ B.pages ∨ q ∈ (buddy b B).pages := by
  have hpow : 2 ^ (B.level + 1) = 2 ^ B.level + 2 ^ B.level := by ring
  have hmin : (merged b B).page = min B.page (buddy b B).page := rfl
  have hpos : 0 < 2 ^ B.level := Nat.two_pow_pos _
  simp only [mem_pages, merged_level, buddy_level, hpow, hmin]
  rcases buddy_cases hb with ⟨-, hpage⟩ | ⟨-, hle, hpage⟩
  · rw [Nat.min_eq_left (by omega)]
    omega
  · rw [Nat.min_eq_right (by omega)]
    omega

/-- The blocks of level `l` that lie before the first one at or after `b` come in pairs. -/
def EvenStart (b l : Nat) : Prop :=
  2 ∣ (b + 2 ^ l - 1) / 2 ^ l

instance (b l : Nat) : Decidable (EvenStart b l) :=
  inferInstanceAs (Decidable (2 ∣ _))

/-- Numbers of aligned blocks are differences of quotients. -/
theorem Aligned.number_eq (hB : B.Aligned) (hb : b ≤ B.page) :
    number b B + (b + 2 ^ B.level - 1) / 2 ^ B.level = B.page / 2 ^ B.level := by
  have hpos : 0 < 2 ^ B.level := Nat.two_pow_pos _
  obtain ⟨q, hq⟩ := hB
  generalize hc : (b + 2 ^ B.level - 1) / 2 ^ B.level = c
  have hlow := Nat.div_add_mod (b + 2 ^ B.level - 1) (2 ^ B.level)
  have hmod := Nat.mod_lt (b + 2 ^ B.level - 1) hpos
  rw [hc] at hlow
  have hcq : c ≤ q := by
    have hlt : 2 ^ B.level * c < 2 ^ B.level * (q + 1) := by
      rw [Nat.mul_add, ← hq]
      omega
    exact Nat.lt_succ_iff.1 (Nat.lt_of_mul_lt_mul_left hlt)
  obtain ⟨d, rfl⟩ := Nat.exists_eq_add_of_le hcq
  rw [Nat.mul_add] at hq
  have hsub : B.page - b = 2 ^ B.level * d + (2 ^ B.level * c - b) := by omega
  rw [number, hsub, Nat.mul_add_div hpos, Nat.div_eq_of_lt (by omega : 2 ^ B.level * c - b < _),
    hq, ← Nat.mul_add, Nat.mul_div_cancel_left _ hpos]
  omega

/-- The union of a pair of aligned blocks is aligned exactly when the pairs start evenly. -/
theorem Aligned.merged_iff (hB : B.Aligned) (hb : b ≤ B.page) :
    (merged b B).Aligned ↔ EvenStart b B.level := by
  have hpos : 0 < 2 ^ B.level := Nat.two_pow_pos _
  have hmin : (merged b B).page = min B.page (Block.buddy b B).page := rfl
  -- The lower block of the pair has an even number.
  have key : ∀ C : Block, C.Aligned → b ≤ C.page → C.level = B.level → number b C % 2 = 0 →
      (2 ^ (B.level + 1) ∣ C.page ↔ EvenStart b B.level) := by
    intro C hC hbC hl heven
    have hnum := hC.number_eq hbC
    obtain ⟨q, hq⟩ := hC
    rw [hl] at hnum hq
    rw [hq, Nat.mul_div_cancel_left _ hpos] at hnum
    rw [hq, Nat.pow_succ, Nat.mul_dvd_mul_iff_left hpos, EvenStart]
    omega
  rw [Aligned, merged_level, hmin]
  rcases buddy_cases hb with ⟨heven, hpage⟩ | ⟨hodd, hle, hpage⟩
  · rw [Nat.min_eq_left (by omega)]
    exact key B hB hb rfl heven
  · rw [Nat.min_eq_right (by omega)]
    obtain ⟨hsame, hne⟩ := number_buddy hb
    exact key _ (hB.buddy hb) (le_buddy_page hb) rfl (by omega)

/-- An origin that is a multiple of `2 ^ top` pairs all levels below `top` evenly. -/
theorem evenStart_of_dvd {top l : Nat} (hb : 2 ^ top ∣ b) (hl : l < top) : EvenStart b l := by
  have hpos : 0 < 2 ^ l := Nat.two_pow_pos _
  obtain ⟨q, rfl⟩ : 2 ^ (l + 1) ∣ b := (Nat.pow_dvd_pow 2 hl).trans hb
  have hsplit : 2 ^ (l + 1) * q + 2 ^ l - 1 = 2 ^ l * (2 * q) + (2 ^ l - 1) := by
    rw [Nat.pow_succ, Nat.mul_assoc]
    omega
  rw [EvenStart, hsplit, Nat.mul_add_div hpos, Nat.div_eq_of_lt (by omega), Nat.add_zero]
  exact Nat.dvd_mul_right 2 q

end Block
end Propeller
