import Mathlib.Data.Set.Lattice
import Mathlib.Order.CompletePartialOrder
import Mathlib.Order.Interval.Set.Disjoint
import Mathlib.Tactic.Ring

/-!
# Dyadic — aligned power-of-two blocks

A block is `2 ^ level` consecutive numbers; it is aligned when it starts at a multiple of its length.
Two aligned blocks are nested or disjoint, so a family of pairwise disjoint aligned blocks (`Tiling`)
is rigid: once no two halves of an aligned block are both in it (`Coalesced`), it is determined by
the numbers it covers.  That is the normal form a buddy system keeps its free store in.

* `Tiling.exists_superblock` — an aligned block inside the covered set lies in one block of a
  coalesced tiling;
* `Tiling.eq_of_cover_eq` — two coalesced tilings of one set are equal.
-/

namespace Propeller

/-- `2 ^ level` consecutive numbers from `page` on. -/
structure Block where
  level : Nat
  page : Nat
  deriving DecidableEq, Repr

namespace Block

variable {B C : Block} {p : Nat}

/-- The numbers of a block. -/
def pages (B : Block) : Set Nat :=
  Set.Ico B.page (B.page + 2 ^ B.level)

/-- The block starts at a multiple of its length. -/
def Aligned (B : Block) : Prop :=
  2 ^ B.level ∣ B.page

instance (B : Block) : Decidable B.Aligned :=
  inferInstanceAs (Decidable (2 ^ B.level ∣ B.page))

theorem mem_pages : p ∈ B.pages ↔ B.page ≤ p ∧ p < B.page + 2 ^ B.level :=
  Iff.rfl

theorem page_mem_pages (B : Block) : B.page ∈ B.pages :=
  ⟨le_rfl, Nat.lt_add_of_pos_right (Nat.two_pow_pos _)⟩

/-- A block is not longer than one that contains it. -/
theorem level_le_of_subset (h : B.pages ⊆ C.pages) : B.level ≤ C.level := by
  by_contra hlt
  have hpow : 2 ^ C.level < 2 ^ B.level := Nat.pow_lt_pow_right (by decide) (Nat.lt_of_not_le hlt)
  have hpos : 0 < 2 ^ B.level := Nat.two_pow_pos B.level
  have hfirst := h B.page_mem_pages
  have hlast := h (mem_pages.2 (show B.page ≤ B.page + 2 ^ B.level - 1 ∧
    B.page + 2 ^ B.level - 1 < B.page + 2 ^ B.level by omega))
  rw [mem_pages] at hfirst hlast
  omega

/-- Of two aligned blocks that share a number, the shorter one lies in the longer one. -/
theorem Aligned.subset (hB : B.Aligned) (hC : C.Aligned) (hle : B.level ≤ C.level)
    (hpB : p ∈ B.pages) (hpC : p ∈ C.pages) : B.pages ⊆ C.pages := by
  obtain ⟨x, hx⟩ := hB
  obtain ⟨y, hy⟩ := (Nat.pow_dvd_pow 2 hle).trans hC
  obtain ⟨z, hz⟩ := Nat.pow_dvd_pow 2 hle
  rw [mem_pages] at hpB hpC
  have hpos : 0 < 2 ^ B.level := Nat.two_pow_pos _
  -- Both are made of blocks of the smaller size, and a common page puts `B` among those of `C`.
  have hlo : y ≤ x := by
    have hlt : 2 ^ B.level * y < 2 ^ B.level * (x + 1) := by
      rw [← hy, Nat.mul_add, ← hx]
      omega
    exact Nat.lt_succ_iff.1 (Nat.lt_of_mul_lt_mul_left hlt)
  have hhi : x + 1 ≤ y + z := by
    have hlt : 2 ^ B.level * x < 2 ^ B.level * (y + z) := by
      rw [← hx, Nat.mul_add, ← hy, ← hz]
      omega
    exact Nat.lt_of_mul_lt_mul_left hlt
  have hlo' : 2 ^ B.level * y ≤ 2 ^ B.level * x := Nat.mul_le_mul_left _ hlo
  have hhi' : 2 ^ B.level * (x + 1) ≤ 2 ^ B.level * (y + z) := Nat.mul_le_mul_left _ hhi
  rw [Nat.mul_add, Nat.mul_add, ← hz] at hhi'
  intro q hq
  rw [mem_pages] at hq ⊢
  omega

/-- Aligned blocks of one length that share a number are equal. -/
theorem Aligned.eq_of_level_eq (hB : B.Aligned) (hC : C.Aligned) (hlevel : B.level = C.level)
    (hpB : p ∈ B.pages) (hpC : p ∈ C.pages) : B = C := by
  have hBC := hB.subset hC hlevel.le hpB hpC B.page_mem_pages
  have hCB := hC.subset hB hlevel.ge hpC hpB C.page_mem_pages
  rw [mem_pages] at hBC hCB
  cases B
  cases C
  simp only at hlevel hBC hCB
  subst hlevel
  congr
  omega

/-- A block is the union of its halves. -/
theorem mem_pages_succ {l p q : Nat} :
    q ∈ (⟨l + 1, p⟩ : Block).pages ↔
      q ∈ (⟨l, p⟩ : Block).pages ∨ q ∈ (⟨l, p + 2 ^ l⟩ : Block).pages := by
  have hpow : 2 ^ (l + 1) = 2 ^ l + 2 ^ l := by ring
  simp only [mem_pages, hpow]
  omega

/-- A block is its lowest sub-block of level `k` and the upper halves met on the way down to it. -/
theorem mem_pages_split {k l p q : Nat} (hkl : k ≤ l) :
    q ∈ (⟨l, p⟩ : Block).pages ↔
      q ∈ (⟨k, p⟩ : Block).pages ∨
        ∃ m, k ≤ m ∧ m < l ∧ q ∈ (⟨m, p + 2 ^ m⟩ : Block).pages := by
  induction hkl with
  | refl =>
      constructor
      · exact Or.inl
      · rintro (h | ⟨m, hkm, hml, -⟩)
        · exact h
        · omega
  | @step l hkl ih =>
      rw [mem_pages_succ, ih]
      constructor
      · rintro ((h | ⟨m, hkm, hml, h⟩) | h)
        · exact Or.inl h
        · exact Or.inr ⟨m, hkm, by omega, h⟩
        · exact Or.inr ⟨l, hkl, by omega, h⟩
      · rintro (h | ⟨m, hkm, hml, h⟩)
        · exact Or.inl (Or.inl h)
        · rcases Nat.lt_succ_iff_lt_or_eq.1 hml with hlt | rfl
          · exact Or.inl (Or.inr ⟨m, hkm, hlt, h⟩)
          · exact Or.inr h

/-- The sub-block the halves are cut off from shares no number with them. -/
theorem not_mem_upper_half {k m p q : Nat} (hkm : k ≤ m) (hq : q ∈ (⟨k, p⟩ : Block).pages) :
    q ∉ (⟨m, p + 2 ^ m⟩ : Block).pages := by
  have hpow : 2 ^ k ≤ 2 ^ m := Nat.pow_le_pow_right (by decide) hkm
  simp only [mem_pages] at hq ⊢
  omega

theorem Aligned.lower_half {l p : Nat} (h : (⟨l + 1, p⟩ : Block).Aligned) :
    (⟨l, p⟩ : Block).Aligned :=
  (Nat.pow_dvd_pow 2 (Nat.le_succ l)).trans h

theorem Aligned.upper_half {l p : Nat} (h : (⟨l + 1, p⟩ : Block).Aligned) :
    (⟨l, p + 2 ^ l⟩ : Block).Aligned :=
  Nat.dvd_add ((Nat.pow_dvd_pow 2 (Nat.le_succ l)).trans h) (Nat.dvd_refl _)

end Block

/-! ## Families of blocks -/

/-- The numbers covered by a family of blocks. -/
def cover (F : Set Block) : Set Nat :=
  {p | ∃ B ∈ F, p ∈ B.pages}

theorem mem_cover {F : Set Block} {p : Nat} : p ∈ cover F ↔ ∃ B ∈ F, p ∈ B.pages :=
  Iff.rfl

theorem cover_union (F G : Set Block) : cover (F ∪ G) = cover F ∪ cover G := by
  ext p
  simp only [mem_cover, Set.mem_union, or_and_right, exists_or]

/-- A family of aligned, pairwise disjoint blocks. -/
structure Tiling (F : Set Block) : Prop where
  aligned : ∀ B ∈ F, B.Aligned
  disjoint : ∀ B ∈ F, ∀ C ∈ F, ∀ p, p ∈ B.pages → p ∈ C.pages → B = C

/-- No aligned block up to length `2 ^ top` is split into two members. -/
def Coalesced (top : Nat) (F : Set Block) : Prop :=
  ∀ l p, l < top → 2 ^ (l + 1) ∣ p → ¬ (⟨l, p⟩ ∈ F ∧ ⟨l, p + 2 ^ l⟩ ∈ F)

namespace Tiling

variable {F G : Set Block} {top : Nat}

theorem mono (hF : Tiling F) (hGF : G ⊆ F) : Tiling G :=
  ⟨fun B hB => hF.aligned B (hGF hB),
    fun B hB C hC p hpB hpC => hF.disjoint B (hGF hB) C (hGF hC) p hpB hpC⟩

/-- An aligned block apart from all members can be added. -/
theorem insert {B : Block} (hF : Tiling F) (hB : B.Aligned)
    (hapart : ∀ C ∈ F, ∀ p, p ∈ B.pages → p ∉ C.pages) : Tiling (insert B F) := by
  refine ⟨?_, ?_⟩
  · rintro C (rfl | hC)
    · exact hB
    · exact hF.aligned C hC
  · rintro C (rfl | hC) D (rfl | hD) p hpC hpD
    · rfl
    · exact absurd hpD (hapart D hD p hpC)
    · exact absurd hpC (hapart C hC p hpD)
    · exact hF.disjoint C hC D hD p hpC hpD

/-- Two tilings with no number in common. -/
theorem union (hF : Tiling F) (hG : Tiling G) (hapart : ∀ C ∈ F, ∀ D ∈ G, ∀ p, p ∈ C.pages → p ∉ D.pages) :
    Tiling (F ∪ G) := by
  refine ⟨?_, ?_⟩
  · rintro C (hC | hC)
    · exact hF.aligned C hC
    · exact hG.aligned C hC
  · rintro C (hC | hC) D (hD | hD) p hpC hpD
    · exact hF.disjoint C hC D hD p hpC hpD
    · exact absurd hpD (hapart C hC D hD p hpC)
    · exact absurd hpC (hapart D hD C hC p hpD)
    · exact hG.disjoint C hC D hD p hpC hpD

/-- An aligned block inside the covered set of a coalesced tiling lies in one member. -/
theorem exists_superblock (hF : Tiling F) (hco : Coalesced top F) {l p : Nat} (hl : l ≤ top)
    (hal : (⟨l, p⟩ : Block).Aligned) (hsub : (⟨l, p⟩ : Block).pages ⊆ cover F) :
    ∃ C ∈ F, (⟨l, p⟩ : Block).pages ⊆ C.pages := by
  induction l generalizing p with
  | zero =>
      obtain ⟨C, hC, hpC⟩ := hsub (Block.page_mem_pages ⟨0, p⟩)
      refine ⟨C, hC, ?_⟩
      exact hal.subset (hF.aligned C hC) (Nat.zero_le _) (Block.page_mem_pages _) hpC
  | succ l ih =>
      have hlow : (⟨l, p⟩ : Block).pages ⊆ cover F := fun q hq =>
        hsub (Block.mem_pages_succ.2 (Or.inl hq))
      have hupp : (⟨l, p + 2 ^ l⟩ : Block).pages ⊆ cover F := fun q hq =>
        hsub (Block.mem_pages_succ.2 (Or.inr hq))
      obtain ⟨C, hC, hpC⟩ := ih (by omega) hal.lower_half hlow
      obtain ⟨D, hD, hpD⟩ := ih (by omega) hal.upper_half hupp
      -- The member over either half covers the whole block unless it is that half.
      have hwhole : ∀ E ∈ F, l + 1 ≤ E.level → ∀ q, q ∈ (⟨l + 1, p⟩ : Block).pages →
          q ∈ E.pages → (⟨l + 1, p⟩ : Block).pages ⊆ E.pages := fun E hE hle q hq hqE =>
        hal.subset (hF.aligned E hE) hle hq hqE
      have hlevel : ∀ {n q : Nat} {E : Block}, E ∈ F → (⟨n, q⟩ : Block).Aligned →
          (⟨n, q⟩ : Block).pages ⊆ E.pages → E.level ≤ n → E = ⟨n, q⟩ := by
        intro n q E hE hnq hsubE hle
        have hmemE := hsubE (Block.page_mem_pages ⟨n, q⟩)
        exact (hF.aligned E hE).eq_of_level_eq hnq (hle.antisymm (Block.level_le_of_subset hsubE)) hmemE
          (Block.page_mem_pages _)
      by_cases hCl : l + 1 ≤ C.level
      · exact ⟨C, hC, hwhole C hC hCl p (Block.page_mem_pages _) (hpC (Block.page_mem_pages _))⟩
      by_cases hDl : l + 1 ≤ D.level
      · refine ⟨D, hD, hwhole D hD hDl (p + 2 ^ l) ?_ (hpD (Block.page_mem_pages _))⟩
        exact Block.mem_pages_succ.2 (Or.inr (Block.page_mem_pages _))
      have hCeq := hlevel hC hal.lower_half hpC (by omega)
      have hDeq := hlevel hD hal.upper_half hpD (by omega)
      exact absurd ⟨hCeq ▸ hC, hDeq ▸ hD⟩ (hco l p (by omega) hal)

/-- Two coalesced tilings of one set are equal. -/
theorem eq_of_cover_eq (hF : Tiling F) (hG : Tiling G) (hcoF : Coalesced top F)
    (hcoG : Coalesced top G) (hlF : ∀ B ∈ F, B.level ≤ top) (hlG : ∀ B ∈ G, B.level ≤ top)
    (hcover : cover F = cover G) : F = G := by
  have key : ∀ {F G : Set Block}, Tiling F → Tiling G → Coalesced top F → Coalesced top G →
      (∀ B ∈ F, B.level ≤ top) → (∀ B ∈ G, B.level ≤ top) → cover F = cover G → F ⊆ G := by
    intro F G hF hG hcoF hcoG hlF hlG hcover B hB
    obtain ⟨C, hC, hBC⟩ := hG.exists_superblock hcoG (hlF B hB) (hF.aligned B hB)
      (fun q hq => hcover ▸ ⟨B, hB, hq⟩)
    obtain ⟨D, hD, hCD⟩ := hF.exists_superblock hcoF (hlG C hC) (hG.aligned C hC)
      (fun q hq => hcover.symm ▸ ⟨C, hC, hq⟩)
    -- `B` and `D` share a number, so they are one block, and `C` is squeezed in between.
    have hBD : B = D := hF.disjoint B hB D hD B.page B.page_mem_pages
      (hCD (hBC B.page_mem_pages))
    have hlevel : B.level = C.level := by
      subst hBD
      exact (Block.level_le_of_subset hBC).antisymm (Block.level_le_of_subset hCD)
    have hBC' : B = C := (hF.aligned B hB).eq_of_level_eq (hG.aligned C hC) hlevel
      B.page_mem_pages (hBC B.page_mem_pages)
    exact hBC' ▸ hC
  exact Set.Subset.antisymm (key hF hG hcoF hcoG hlF hlG hcover)
    (key hG hF hcoG hcoF hlG hlF hcover.symm)

end Tiling

end Propeller
