import Propeller.Lib.BuddyStore
import Propeller.Mm.Buddy.Blocks

/-!
# Buddy.Books — heads and flags against a set of blocks

`Books A s F` says that the allocator's own records describe the set `F` of blocks: the heads point at
members of `F` and every flag is the exclusive or of its two buddies' membership in `F`.  It says
nothing about the nodes in memory, so it survives whatever happens to them.  A list edit that returns
keeps the books: `Books.insert` and `Books.erase`.
-/

namespace Propeller
namespace Buddy

variable {A : Arch} {s s' : State} {l m k a : Nat} {B C : Block} {F : Set Block}

/-- The number of the first page of the area. -/
def State.basePage (s : State) : Nat :=
  s.base / pageSize

/-- The physical address of a block. -/
def addrOf (B : Block) : Nat :=
  B.page * pageSize

/-- The block lies in the area of the allocator. -/
def Inside (s : State) (B : Block) : Prop :=
  s.basePage ≤ B.page ∧ B.page + 2 ^ B.level ≤ s.basePage + s.size / pageSize

instance (s : State) (B : Block) : Decidable (Inside s B) :=
  inferInstanceAs (Decidable (_ ∧ _))

/-- The block with number `j` at level `l` is in `F`. -/
def Member (b : Nat) (F : Set Block) (l j : Nat) : Prop :=
  ∃ B ∈ F, B.level = l ∧ B.number b = j

/-- The heads and the flags of the allocator describe the set `F`. -/
structure Books (A : Arch) (s : State) (F : Set Block) : Prop where
  geometry : Geometry A s
  base_dvd : pageSize ∣ s.base
  limit : s.base + s.size < A.wordLimit
  aligned : ∀ B ∈ F, B.Aligned
  level_lt : ∀ B ∈ F, B.level < BLOCK_LEVELS
  inside : ∀ B ∈ F, Inside s B
  heads : ∀ l < BLOCK_LEVELS, s.head l ≠ 0 → ∃ B ∈ F, B.level = l ∧ addrOf B = s.head l
  flags : ∀ l < BLOCK_LEVELS, ∀ k < pairCount s.size l,
    flagSet A s l k = true ↔
      Xor (Member s.basePage F l (2 * k)) (Member s.basePage F l (2 * k + 1))

/-! ## Addresses -/

@[simp] theorem addrOf_div (B : Block) : addrOf B / pageSize = B.page :=
  Nat.mul_div_cancel _ pageSize_pos

theorem addrOf_inj (h : addrOf B = addrOf C) : B.page = C.page :=
  Nat.eq_of_mul_eq_mul_right pageSize_pos h

theorem blockAt_addrOf (B : Block) : blockAt B.level (addrOf B) = B := by
  rw [blockAt, addrOf_div]

theorem blockNum_addrOf (hbase : pageSize ∣ s.base) :
    blockNum s (addrOf B) B.level = B.number s.basePage := by
  have hb : s.base = s.basePage * pageSize := (Nat.div_mul_cancel hbase).symm
  rw [blockNum, addrOf, hb, ← Nat.sub_mul, Nat.mul_div_cancel _ pageSize_pos, Block.number]

theorem base_le_addrOf (hbase : pageSize ∣ s.base) (hB : Inside s B) : s.base ≤ addrOf B := by
  have hb : s.base = s.basePage * pageSize := (Nat.div_mul_cancel hbase).symm
  rw [hb, addrOf]
  exact Nat.mul_le_mul_right _ hB.1

/-- The pair of a block of the area has a flag. -/
theorem Inside.pair_lt (hB : Inside s B) : B.number s.basePage / 2 < pairCount s.size B.level := by
  have hpos : 0 < 2 ^ B.level := Nat.two_pow_pos _
  have hlt : B.number s.basePage < s.size / pageSize / 2 ^ B.level := by
    rw [Nat.lt_iff_add_one_le, Block.number, Nat.le_div_iff_mul_le hpos, Nat.add_mul, Nat.one_mul]
    have hle := Nat.div_mul_le_self (B.page - s.basePage) (2 ^ B.level)
    have := hB.1
    have := hB.2
    omega
  unfold pairCount
  omega

theorem Inside.frame {touched : Nat → Prop} (hB : Inside s B) (hf : EditFrame s s' l touched) :
    Inside s' B := by
  unfold Inside State.basePage at *
  rwa [hf.base, hf.size]

/-! ## Toggling a flag -/

/-- A pair's exclusive or changes exactly when one of its two memberships does. -/
theorem xor_toggle {M M' : Nat → Nat → Prop} {l₀ n₀ : Nat}
    (h : ∀ l j, M' l j ↔ Xor (M l j) (l₀ = l ∧ n₀ = j)) (l k : Nat) :
    Xor (M' l (2 * k)) (M' l (2 * k + 1)) ↔
      if l₀ = l ∧ n₀ / 2 = k then ¬ Xor (M l (2 * k)) (M l (2 * k + 1))
      else Xor (M l (2 * k)) (M l (2 * k + 1)) := by
  have hpair : l₀ = l ∧ n₀ / 2 = k ↔ (l₀ = l ∧ n₀ = 2 * k) ∨ (l₀ = l ∧ n₀ = 2 * k + 1) := by omega
  have hone : ¬ ((l₀ = l ∧ n₀ = 2 * k) ∧ (l₀ = l ∧ n₀ = 2 * k + 1)) := by omega
  rw [h, h]
  -- No pair is toggled twice.
  by_cases he : l₀ = l ∧ n₀ = 2 * k
  · have ho : ¬ (l₀ = l ∧ n₀ = 2 * k + 1) := fun ho => hone ⟨he, ho⟩
    rw [if_pos (hpair.2 (Or.inl he))]
    grind
  · by_cases ho : l₀ = l ∧ n₀ = 2 * k + 1
    · rw [if_pos (hpair.2 (Or.inr ho))]
      grind
    · rw [if_neg (fun hp => (hpair.1 hp).elim he ho)]
      grind

theorem flagSet_frame {touched : Nat → Prop} (hf : Frame s s' l touched) (m k : Nat) :
    flagSet A s' m k = flagSet A s m k := by
  rw [flagSet, flagSet, hf.flags, hf.offset]

theorem flagSet_flagged {touched : Nat → Prop} {s₁ : State} (hg : Geometry A s)
    (hf : Frame s s₁ l touched) (hl : l < BLOCK_LEVELS)
    (hpair : blockNum s a l / 2 < pairCount s.size l) (hk : k < pairCount s.size m) :
    flagSet A (flagged A s s₁ l a) m k =
      if l = m ∧ blockNum s a l / 2 = k then !(flagSet A s l (blockNum s a l / 2))
      else flagSet A s m k := by
  rw [← hf.size] at hpair hk
  rw [flagged, flagSet_toggled (hg.frame hf) hl hpair hk, flagSet_frame hf, flagSet_frame hf]

/-! ## Edits -/

namespace Books

theorem counters (h : Books A s F) (f c : Nat) :
    Books A { s with freeMem := f, allocMem := c } F :=
  ⟨⟨h.geometry.offset, h.geometry.length⟩, h.base_dvd, h.limit, h.aligned, h.level_lt, h.inside,
    h.heads, h.flags⟩

/-- Two blocks of the area with one level and one number are equal. -/
theorem eq_of_number_eq (h : Books A s F) (hC : C ∈ F) (hB : B.Aligned) (hin : Inside s B)
    (hlevel : C.level = B.level) (hnum : C.number s.basePage = B.number s.basePage) : C = B :=
  (h.aligned C hC).eq_of_number_eq hB (h.inside C hC).1 hin.1 hlevel hnum

theorem member_iff (h : Books A s F) (hB : B.Aligned) (hin : s.basePage ≤ B.page) :
    Member s.basePage F B.level (B.number s.basePage) ↔ B ∈ F := by
  constructor
  · rintro ⟨C, hC, hlevel, hnum⟩
    have heq : C = B := (h.aligned C hC).eq_of_number_eq hB (h.inside C hC).1 hin hlevel hnum
    exact heq ▸ hC
  · intro hB
    exact ⟨B, hB, rfl, rfl⟩

/-- An edit that toggles the flag of `B` keeps the books for a set that differs in `B`. -/
theorem toggle {s₁ : State} {F' : Set Block} (h : Books A s F)
    (hf : Frame s s₁ B.level (fun _ => True)) (hB : B.Aligned) (hl : B.level < BLOCK_LEVELS)
    (hin : Inside s B) (hF' : ∀ C ∈ F', C = B ∨ C ∈ F)
    (hmem : ∀ l j, Member s.basePage F' l j ↔
      Xor (Member s.basePage F l j) (B.level = l ∧ B.number s.basePage = j))
    (hheads : ∀ l < BLOCK_LEVELS, s₁.head l ≠ 0 → ∃ C ∈ F', C.level = l ∧ addrOf C = s₁.head l) :
    Books A (flagged A s s₁ B.level (addrOf B)) F' := by
  have hedit : EditFrame s (flagged A s s₁ B.level (addrOf B)) B.level (fun _ => True) :=
    hf.flagged
  have hpage : (flagged A s s₁ B.level (addrOf B)).basePage = s.basePage := by
    rw [State.basePage, hedit.base, State.basePage]
  have hnum := blockNum_addrOf (B := B) h.base_dvd
  have hpair : blockNum s (addrOf B) B.level / 2 < pairCount s.size B.level :=
    hnum ▸ hin.pair_lt
  -- Only the flag of the pair of `B` changes.
  refine ⟨(h.geometry.frame hf).toggled _ _, ?_, ?_, ?_, ?_, ?_, hheads, ?_⟩
  · rw [hedit.base]
    exact h.base_dvd
  · rw [hedit.base, hedit.size]
    exact h.limit
  · intro C hC
    rcases hF' C hC with rfl | hC
    · exact hB
    · exact h.aligned C hC
  · intro C hC
    rcases hF' C hC with rfl | hC
    · exact hl
    · exact h.level_lt C hC
  · intro C hC
    rcases hF' C hC with rfl | hC
    · exact hin.frame hedit
    · exact (h.inside C hC).frame hedit
  · intro l hl' k hk
    rw [hedit.size] at hk
    rw [hpage, flagSet_flagged h.geometry hf hl hpair hk, hnum, xor_toggle hmem]
    split
    · rename_i hin'
      obtain ⟨rfl, rfl⟩ := hin'
      rw [Bool.not_eq_true', ← Bool.not_eq_true, not_iff_not]
      exact h.flags _ hl _ hk
    · exact h.flags l hl' k hk

/-- Adding a block that is not in the set. -/
theorem insert (h : Books A s F) (hB : B.Aligned) (hl : B.level < BLOCK_LEVELS)
    (hin : Inside s B) (hnot : B ∉ F) (hrun : addToList A s B.level (addrOf B) = .ok s') :
    Books A s' (insert B F) := by
  obtain ⟨-, -, -, s₁, hlink, rfl⟩ := addToList_eq_ok.1 hrun
  obtain ⟨hf, hhead⟩ := linkBlock_frame hlink
  refine h.toggle hf hB hl hin (fun C hC => hC) ?_ ?_
  · intro l j
    -- A pair has no two members with one number, so the new member is the exclusive or.
    have hno : ¬ (Member s.basePage F l j ∧ B.level = l ∧ B.number s.basePage = j) := by
      rintro ⟨hm, rfl, rfl⟩
      exact hnot ((h.member_iff hB hin.1).1 hm)
    have hor : Member s.basePage (Insert.insert B F) l j ↔
        Member s.basePage F l j ∨ B.level = l ∧ B.number s.basePage = j := by
      constructor
      · rintro ⟨C, rfl | hC, hC'⟩
        · exact Or.inr hC'
        · exact Or.inl ⟨C, hC, hC'⟩
      · rintro (⟨C, hC, hC'⟩ | hB')
        · exact ⟨C, Or.inr hC, hC'⟩
        · exact ⟨B, Or.inl rfl, hB'⟩
    rw [hor, xor_iff_or_and_not_and]
    exact (and_iff_left hno).symm
  · intro l hl' hne
    -- The new block is the head of its list only if the list was empty.
    by_cases hlB : l = B.level
    · subst hlB
      rw [hhead] at hne ⊢
      split
      · exact ⟨B, Or.inl rfl, rfl, rfl⟩
      · rename_i hold
        obtain ⟨C, hC, hC'⟩ := h.heads _ hl hold
        exact ⟨C, Or.inr hC, hC'⟩
    · rw [hf.head l hlB] at hne ⊢
      obtain ⟨C, hC, hC'⟩ := h.heads l hl' hne
      exact ⟨C, Or.inr hC, hC'⟩

/-- Removing a block of the set. -/
theorem erase (h : Books A s F) (hB : B ∈ F)
    (hrun : removeFromList A s B.level (addrOf B) = .ok s') : Books A s' (F \ {B}) := by
  obtain ⟨-, -, s₁, hunlink, rfl⟩ := removeFromList_eq_ok.1 hrun
  obtain ⟨hf, hhead⟩ := unlinkBlock_frame hunlink
  have hal := h.aligned B hB
  have hin := h.inside B hB
  refine h.toggle hf hal (h.level_lt B hB) hin (fun C hC => Or.inr hC.1) ?_ ?_
  · intro l j
    -- The member that goes away is the only one with its number.
    have hyes : B.level = l ∧ B.number s.basePage = j → Member s.basePage F l j :=
      fun hB' => ⟨B, hB, hB'⟩
    have hand : Member s.basePage (F \ {B}) l j ↔
        Member s.basePage F l j ∧ ¬ (B.level = l ∧ B.number s.basePage = j) := by
      constructor
      · rintro ⟨C, hC, rfl, rfl⟩
        refine ⟨⟨C, hC.1, rfl, rfl⟩, ?_⟩
        rintro ⟨hlevel, hnum⟩
        exact hC.2 (h.eq_of_number_eq hC.1 hal hin hlevel.symm hnum.symm)
      · rintro ⟨⟨C, hC, hC'⟩, hne⟩
        refine ⟨C, ⟨hC, ?_⟩, hC'⟩
        rintro rfl
        exact hne hC'
    rw [hand, xor_def]
    constructor
    · exact Or.inl
    · rintro (hm | ⟨hB', hm⟩)
      · exact hm
      · exact absurd (hyes hB') hm
  · intro l hl' hne
    -- A head that is another block stays a member.
    have hkeep : s.head l ≠ 0 → (l = B.level → s.head l ≠ addrOf B) →
        ∃ C ∈ F \ {B}, C.level = l ∧ addrOf C = s.head l := by
      intro hne' hother
      obtain ⟨C, hC, hlevel, haddr⟩ := h.heads l hl' hne'
      refine ⟨C, ⟨hC, ?_⟩, hlevel, haddr⟩
      rintro rfl
      exact hother hlevel.symm haddr.symm
    by_cases hlB : l = B.level
    · subst hlB
      rw [hhead] at hne ⊢
      split at hne
      · exact absurd rfl hne
      · rename_i hother
        rw [if_neg hother]
        exact hkeep hne fun _ => hother
    · rw [hf.head l hlB] at hne ⊢
      exact hkeep hne fun heq => absurd heq hlB

end Books

end Buddy
end Propeller
