import Mathlib.Logic.Relation
import Propeller.Lib.Buddy

/-!
# BuddyStore — the free store of a buddy system as a set of blocks

Returning a block climbs: while the buddy of the block in hand is in the store, the two are merged and
the climb goes on one level up (`mergeInto`).  `Climb b P B C` says that the climb from `B` comes to
`C`, where `P` tells which blocks have a free buddy.  Results, for a store `F` that is a tiling:

* `mergeInto_tiling` — the store stays a tiling as long as the pairs merged start evenly;
* `cover_mergeInto` — nothing is lost as long as the climb stops within the levels it has;
* `splitInto_tiling`, `cover_splitInto` — the same for taking a block and returning its upper halves.
-/

namespace Propeller
namespace Block

variable {b n : Nat} {B C : Block} {P Q : Block → Prop} {F : Set Block}

/-! ## Climbing -/

/-- The climb from `B` comes to `C` when `P` tells which blocks have a free buddy. -/
def Climb (b : Nat) (P : Block → Prop) : Block → Block → Prop :=
  Relation.ReflTransGen fun C D => P C ∧ D = merged b C

theorem Climb.refl (b : Nat) (P : Block → Prop) (B : Block) : Climb b P B B :=
  Relation.ReflTransGen.refl

theorem Climb.up (hP : P B) (h : Climb b P (merged b B) C) : Climb b P B C :=
  Relation.ReflTransGen.head ⟨hP, rfl⟩ h

theorem Climb.cases (h : Climb b P B C) : C = B ∨ P B ∧ Climb b P (merged b B) C := by
  rcases Relation.ReflTransGen.cases_head h with heq | ⟨D, ⟨hP, rfl⟩, hrest⟩
  · exact Or.inl heq.symm
  · exact Or.inr ⟨hP, hrest⟩

theorem Climb.level_le (h : Climb b P B C) : B.level ≤ C.level := by
  induction h with
  | refl => exact le_rfl
  | tail _ hstep ih =>
      rw [hstep.2, merged_level]
      omega

/-- A climb only depends on the levels from its start on. -/
theorem Climb.congr (h : Climb b P B C) (hPQ : ∀ D, B.level ≤ D.level → P D → Q D) :
    Climb b Q B C := by
  induction h with
  | refl => exact Climb.refl b Q B
  | tail hclimb hstep ih =>
      exact Relation.ReflTransGen.tail ih ⟨hPQ _ (Climb.level_le hclimb) hstep.1, hstep.2⟩

/-! ## Returning a block -/

open Classical in
/-- The store after `B` is returned, with `n` levels to climb. -/
noncomputable def mergeInto (b : Nat) : Nat → Block → Set Block → Set Block
  | 0, _, F => F
  | n + 1, B, F =>
      if buddy b B ∈ F then mergeInto b n (merged b B) (F \ {buddy b B}) else insert B F

/-- A block in hand: aligned, not before the origin, and apart from the store. -/
structure InHand (b : Nat) (F : Set Block) (B : Block) : Prop where
  aligned : B.Aligned
  origin : b ≤ B.page
  apart : ∀ C ∈ F, ∀ p, p ∈ B.pages → p ∉ C.pages

theorem InHand.not_mem (h : InHand b F B) : B ∉ F := by
  intro hB
  exact h.apart B hB B.page B.page_mem_pages B.page_mem_pages

/-- Merging with a buddy from the store gives a block in hand of the rest of the store. -/
theorem InHand.merge (h : InHand b F B) (hF : Tiling F) (hbuddy : buddy b B ∈ F)
    (heven : EvenStart b B.level) : InHand b (F \ {buddy b B}) (merged b B) := by
  refine ⟨(h.aligned.merged_iff h.origin).2 heven, le_merged_page h.origin, ?_⟩
  intro C hC p hp hpC
  rcases (mem_pages_merged h.origin).1 hp with hp | hp
  · exact h.apart C hC.1 p hp hpC
  · exact hC.2 (hF.disjoint C hC.1 _ hbuddy p hpC hp)

/-- Removing a block of a lower level does not change a climb. -/
theorem Climb.erase_iff (hl : C.level < B.level) {D : Block} :
    Climb b (fun E => buddy b E ∈ F \ {C}) B D ↔ Climb b (fun E => buddy b E ∈ F) B D := by
  constructor
  · intro h
    exact h.congr fun E _ hE => hE.1
  · intro h
    refine h.congr fun E hE hmem => ⟨hmem, ?_⟩
    rintro rfl
    rw [buddy_level] at hl
    omega

/-- What a climb from the merged block meets, the climb from the block meets. -/
theorem Climb.of_merged (hbuddy : buddy b B ∈ F)
    (h : Climb b (fun E => buddy b E ∈ F \ {buddy b B}) (merged b B) C) :
    Climb b (fun E => buddy b E ∈ F) B C := by
  have hl : (buddy b B).level < (merged b B).level := by
    rw [buddy_level, merged_level]
    omega
  exact Climb.up hbuddy ((Climb.erase_iff hl).1 h)

theorem mergeInto_tiling (hF : Tiling F) (hB : InHand b F B)
    (heven : ∀ C, Climb b (fun E => buddy b E ∈ F) B C → buddy b C ∈ F →
      C.level + 1 < B.level + n → EvenStart b C.level) : Tiling (mergeInto b n B F) := by
  induction n generalizing B F with
  | zero => exact hF
  | succ n ih =>
      unfold mergeInto
      split
      · rename_i hbuddy
        have hsub : Tiling (F \ {buddy b B}) := hF.mono Set.sdiff_subset
        -- In the last round the merged block is not stored, so nothing is asked of it.
        cases n with
        | zero => exact hsub
        | succ n =>
            refine ih hsub (hB.merge hF hbuddy (heven B (Climb.refl b _ B) hbuddy (by omega))) ?_
            intro C hC hmem hlt
            rw [merged_level] at hlt
            exact heven C (Climb.of_merged hbuddy hC) hmem.1 (by omega)
      · exact hF.insert hB.aligned hB.apart

theorem cover_insert (B : Block) (F : Set Block) : cover (insert B F) = cover F ∪ B.pages := by
  ext p
  simp only [mem_cover, Set.mem_union, Set.mem_insert_iff]
  constructor
  · rintro ⟨C, rfl | hC, hp⟩
    · exact Or.inr hp
    · exact Or.inl ⟨C, hC, hp⟩
  · rintro (⟨C, hC, hp⟩ | hp)
    · exact ⟨C, Or.inr hC, hp⟩
    · exact ⟨B, Or.inl rfl, hp⟩

/-- A member can be taken out of the covered set and put back. -/
theorem cover_erase_union (hB : B ∈ F) : cover (F \ {B}) ∪ B.pages = cover F := by
  rw [← cover_insert, Set.insert_sdiff_singleton, Set.insert_eq_of_mem hB]

theorem pages_merged (hb : b ≤ B.page) : (merged b B).pages = B.pages ∪ (buddy b B).pages := by
  ext p
  exact mem_pages_merged hb

/-- Returning a block adds its numbers, provided the climb stops in time. -/
theorem cover_mergeInto (hb : b ≤ B.page) (hn : 0 < n)
    (hstop : ∀ C, Climb b (fun E => buddy b E ∈ F) B C → buddy b C ∈ F →
      C.level + 1 < B.level + n) : cover (mergeInto b n B F) = cover F ∪ B.pages := by
  induction n generalizing B F with
  | zero => omega
  | succ n ih =>
      unfold mergeInto
      split
      · rename_i hbuddy
        have hlt := hstop B (Climb.refl b _ B) hbuddy
        rw [ih (le_merged_page hb) (by omega)]
        · rw [pages_merged hb, Set.union_comm B.pages, ← Set.union_assoc, cover_erase_union hbuddy]
        · intro C hC hmem
          have := hstop C (Climb.of_merged hbuddy hC) hmem.1
          rw [merged_level]
          omega
      · exact cover_insert B F

/-- Returning a block never adds other numbers than its own. -/
theorem cover_mergeInto_subset (hb : b ≤ B.page) : cover (mergeInto b n B F) ⊆ cover F ∪ B.pages := by
  induction n generalizing B F with
  | zero => exact Set.subset_union_left
  | succ n ih =>
      unfold mergeInto
      split
      · rename_i hbuddy
        refine (ih (le_merged_page hb)).trans ?_
        rw [pages_merged hb, Set.union_comm B.pages, ← Set.union_assoc, cover_erase_union hbuddy]
      · exact (cover_insert B F).subset

/-- A block of the new store is an old one or the one the climb ended with. -/
theorem mem_mergeInto (hC : C ∈ mergeInto b n B F) :
    C ∈ F ∨ Climb b (fun E => buddy b E ∈ F) B C ∧ buddy b C ∉ F ∧ C.level < B.level + n := by
  induction n generalizing B F with
  | zero => exact Or.inl hC
  | succ n ih =>
      unfold mergeInto at hC
      split at hC
      · rename_i hbuddy
        rcases ih hC with hC | ⟨hclimb, hnot, hlt⟩
        · exact Or.inl hC.1
        · have hlevel := hclimb.level_le
          rw [merged_level] at hlt hlevel
          refine Or.inr ⟨Climb.of_merged hbuddy hclimb, ?_, by omega⟩
          intro hmem
          -- The buddies met later are of higher levels than the one taken here.
          refine hnot ⟨hmem, ?_⟩
          intro heq
          have := congrArg Block.level heq
          rw [buddy_level, buddy_level] at this
          omega
      · rename_i hbuddy
        rcases hC with rfl | hC
        · exact Or.inr ⟨Climb.refl b _ C, hbuddy, by omega⟩
        · exact Or.inl hC

/-! ## Taking a block -/

/-- The upper halves that are cut off a block on the way down to level `k`. -/
def upperHalves (k : Nat) (B : Block) : Set Block :=
  {C | ∃ l, k ≤ l ∧ l < B.level ∧ C = ⟨l, B.page + 2 ^ l⟩}

/-- The store after `B` is taken and all but its first `2 ^ k` numbers are returned. -/
def splitInto (k : Nat) (B : Block) (F : Set Block) : Set Block :=
  (F \ {B}) ∪ upperHalves k B

theorem upperHalves_subset {k : Nat} (hC : C ∈ upperHalves k B) : C.pages ⊆ B.pages := by
  obtain ⟨l, -, hl, rfl⟩ := hC
  intro p hp
  have hpow : 2 ^ (l + 1) ≤ 2 ^ B.level := Nat.pow_le_pow_right (by decide) hl
  rw [Nat.pow_succ] at hpow
  rw [mem_pages] at hp ⊢
  simp only at hp
  omega

theorem mem_pages_iff_upperHalves {k q : Nat} (hk : k ≤ B.level) :
    q ∈ B.pages ↔ q ∈ (⟨k, B.page⟩ : Block).pages ∨ q ∈ cover (upperHalves k B) := by
  rw [show B.pages = (⟨B.level, B.page⟩ : Block).pages from rfl, mem_pages_split hk]
  refine or_congr_right ?_
  constructor
  · rintro ⟨l, hkl, hl, hq⟩
    exact ⟨_, ⟨l, hkl, hl, rfl⟩, hq⟩
  · rintro ⟨C, ⟨l, hkl, hl, rfl⟩, hq⟩
    exact ⟨l, hkl, hl, hq⟩

theorem upperHalves_tiling (hB : B.Aligned) (k : Nat) : Tiling (upperHalves k B) := by
  have hhalf : ∀ l < B.level, (⟨l, B.page + 2 ^ l⟩ : Block).Aligned := by
    intro l hl
    exact Nat.dvd_add ((Nat.pow_dvd_pow 2 hl.le).trans hB) (Nat.dvd_refl _)
  refine ⟨?_, ?_⟩
  · rintro C ⟨l, -, hl, rfl⟩
    exact hhalf l hl
  · rintro C ⟨l, -, hl, rfl⟩ D ⟨m, -, hm, rfl⟩ p hpC hpD
    rw [mem_pages] at hpC hpD
    simp only at hpC hpD
    rcases Nat.lt_trichotomy l m with hlt | rfl | hgt
    · have hpow : 2 ^ (l + 1) ≤ 2 ^ m := Nat.pow_le_pow_right (by decide) hlt
      rw [Nat.pow_succ] at hpow
      omega
    · rfl
    · have hpow : 2 ^ (m + 1) ≤ 2 ^ l := Nat.pow_le_pow_right (by decide) hgt
      rw [Nat.pow_succ] at hpow
      omega

/-- Nothing is lost when a block is cut. -/
theorem cover_splitInto {k : Nat} (hB : B ∈ F) (hk : k ≤ B.level) :
    cover (splitInto k B F) ∪ (⟨k, B.page⟩ : Block).pages = cover F := by
  ext q
  rw [← cover_erase_union hB, Set.mem_union, Set.mem_union, mem_pages_iff_upperHalves hk]
  have hsplit : q ∈ cover (splitInto k B F) ↔ q ∈ cover (F \ {B}) ∨ q ∈ cover (upperHalves k B) := by
    constructor
    · rintro ⟨C, hC | hC, hq⟩
      · exact Or.inl ⟨C, hC, hq⟩
      · exact Or.inr ⟨C, hC, hq⟩
    · rintro (⟨C, hC, hq⟩ | ⟨C, hC, hq⟩)
      · exact ⟨C, Or.inl hC, hq⟩
      · exact ⟨C, Or.inr hC, hq⟩
  rw [hsplit, or_assoc, or_comm (a := q ∈ cover (upperHalves k B))]

theorem splitInto_tiling {k : Nat} (hF : Tiling F) (hB : B ∈ F) : Tiling (splitInto k B F) := by
  have hhalves := upperHalves_tiling (hF.aligned B hB) k
  have hapart : ∀ C ∈ F \ {B}, ∀ D ∈ upperHalves k B, ∀ p, p ∈ C.pages → p ∉ D.pages := by
    intro C hC D hD p hpC hpD
    exact hC.2 (hF.disjoint C hC.1 B hB p hpC (upperHalves_subset hD hpD))
  refine ⟨?_, ?_⟩
  · rintro C (hC | hC)
    · exact hF.aligned C hC.1
    · exact hhalves.aligned C hC
  · rintro C (hC | hC) D (hD | hD) p hpC hpD
    · exact hF.disjoint C hC.1 D hD.1 p hpC hpD
    · exact absurd hpD (hapart C hC D hD p hpC)
    · exact absurd hpC (hapart D hD C hC p hpD)
    · exact hhalves.disjoint C hC D hD p hpC hpD

/-- No upper half of a member is a member. -/
theorem half_not_mem {l : Nat} (hF : Tiling F) (hB : B ∈ F) (hl : l < B.level) :
    (⟨l, B.page + 2 ^ l⟩ : Block) ∉ F \ {B} := by
  intro hmem
  have hsub : (⟨l, B.page + 2 ^ l⟩ : Block).pages ⊆ B.pages :=
    upperHalves_subset ⟨l, le_rfl, hl, rfl⟩
  exact hmem.2 (hF.disjoint _ hmem.1 B hB _ (page_mem_pages _) (hsub (page_mem_pages _)))

/-- The block taken is apart from the rest of the store. -/
theorem inHand_splitInto {k : Nat} (hF : Tiling F) (hB : B ∈ F) (hb : b ≤ B.page) (hk : k ≤ B.level) :
    InHand b (splitInto k B F) ⟨k, B.page⟩ := by
  refine ⟨(Nat.pow_dvd_pow 2 hk).trans (hF.aligned B hB), hb, ?_⟩
  rintro C (hC | ⟨l, hkl, hl, rfl⟩) p hp hpC
  · exact hC.2 (hF.disjoint C hC.1 B hB p hpC ((mem_pages_iff_upperHalves hk).2 (Or.inl hp)))
  · exact not_mem_upper_half hkl hp hpC
end Block
end Propeller
