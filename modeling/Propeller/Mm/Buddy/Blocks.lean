import Propeller.Lib.Buddy
import Propeller.Mm.Buddy.Edits

/-!
# Buddy.Blocks — free blocks and free pages

What the allocator has to give is what can be reached from its level heads.  `freeBlocks s` is the set
of blocks reached by following `next` from the heads of the eleven levels and `freePages s` the pages
they cover; both are read off the memory and say nothing about how the lists are built.  `WellFormed`
states that the lists are circular lists of blocks that share no page; then `freeBlocks` is the family
the lists spell out (`WellFormed.freeBlocks_eq`).
-/

namespace Propeller
namespace Buddy

variable {A : Arch} {s s' : State} {l m a : Nat} {L : Nat → List Nat}

/-- The block of level `l` at address `a`. -/
def blockAt (l a : Nat) : Block :=
  ⟨l, a / pageSize⟩

/-- The address `a` is reached from the head of level `l`. -/
def Reachable (s : State) (l a : Nat) : Prop :=
  s.head l ≠ 0 ∧ ∃ k, s.nextOf^[k] (s.head l) = a

/-- The blocks reached from the level heads. -/
def freeBlocks (s : State) : Set Block :=
  {B | B.level < BLOCK_LEVELS ∧ ∃ a, Reachable s B.level a ∧ B = blockAt B.level a}

/-- The pages of the blocks reached from the level heads. -/
def freePages (s : State) : Set Nat :=
  cover (freeBlocks s)

/-- The `n` pages from address `a` on. -/
def pagesAt (a n : Nat) : Set Nat :=
  Set.Ico (a / pageSize) (a / pageSize + n)

/-- The blocks spelled out by a family of lists, one for each level. -/
def blocksOf (L : Nat → List Nat) : Set Block :=
  {B | B.level < BLOCK_LEVELS ∧ ∃ a ∈ L B.level, B = blockAt B.level a}

theorem blockAt_mem_blocksOf (hl : l < BLOCK_LEVELS) (ha : a ∈ L l) : blockAt l a ∈ blocksOf L :=
  ⟨hl, a, ha, rfl⟩

theorem page_mem_pages_blockAt (l a : Nat) : a / pageSize ∈ (blockAt l a).pages :=
  Block.page_mem_pages (blockAt l a)

/-- Every level's list is a well-formed circular list, and the blocks on them share no page. -/
structure WellFormed (A : Arch) (s : State) (L : Nat → List Nat) : Prop where
  list : ∀ l < BLOCK_LEVELS, ListAt A s l (L l)
  disjoint : ∀ B ∈ blocksOf L, ∀ C ∈ blocksOf L, ∀ p, p ∈ B.pages → p ∈ C.pages → B = C

/-! ## Page addresses -/

theorem page_aligned_iff : alignDown A a pageSize = a ↔ a < A.wordLimit ∧ pageSize ∣ a := by
  have hk : pageShift ≤ A.wordBits := by cases A <;> decide
  rw [pageSize_eq]
  exact alignDown_eq_self_iff hk

namespace ListAt

variable {xs : List Nat}

theorem page_dvd (h : ListAt A s l xs) (ha : a ∈ xs) : pageSize ∣ a :=
  (page_aligned_iff.1 (h.aligned a ha)).2

end ListAt

namespace WellFormed

theorem freeBlocks_eq (h : ∀ l < BLOCK_LEVELS, ListAt A s l (L l)) : freeBlocks s = blocksOf L := by
  ext B
  constructor
  · rintro ⟨hl, a, ha, hB⟩
    exact ⟨hl, a, (h B.level hl).reach_iff.1 ha, hB⟩
  · rintro ⟨hl, a, ha, hB⟩
    exact ⟨hl, a, (h B.level hl).reach_iff.2 ha, hB⟩

/-- A block's address tells its level. -/
theorem level_unique (h : WellFormed A s L) (hl : l < BLOCK_LEVELS) (hm : m < BLOCK_LEVELS)
    (hal : a ∈ L l) (ham : a ∈ L m) : l = m := by
  have heq := h.disjoint _ (blockAt_mem_blocksOf hl hal) _ (blockAt_mem_blocksOf hm ham)
    (a / pageSize) (page_mem_pages_blockAt l a) (page_mem_pages_blockAt m a)
  exact congrArg Block.level heq

/-- A free block whose first page lies in another one is that other one. -/
theorem eq_of_page_mem {b : Nat} (h : WellFormed A s L) (hl : l < BLOCK_LEVELS)
    (hm : m < BLOCK_LEVELS) (ha : a ∈ L l) (hb : b ∈ L m)
    (hpage : b / pageSize ∈ (blockAt l a).pages) : l = m ∧ a = b := by
  have heq := h.disjoint _ (blockAt_mem_blocksOf hl ha) _ (blockAt_mem_blocksOf hm hb)
    (b / pageSize) hpage (page_mem_pages_blockAt m b)
  refine ⟨congrArg Block.level heq, ?_⟩
  have hpages : a / pageSize = b / pageSize := congrArg Block.page heq
  have hda := (h.list l hl).page_dvd ha
  have hdb := (h.list m hm).page_dvd hb
  rw [← Nat.div_mul_cancel hda, ← Nat.div_mul_cancel hdb, hpages]

end WellFormed

end Buddy
end Propeller
