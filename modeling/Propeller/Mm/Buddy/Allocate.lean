import Propeller.Mm.Buddy.Blocks

/-!
# Buddy.Allocate — what an allocation takes from the free store

`allocate` takes a block from the first non-empty level (`PopLevel`) and adds its upper halves to the
levels below.  `splitLoop_list` follows one level's list through the splitting loop;
`allocate_conserves_iff` says exactly when an allocation takes no more than it returns: the popped list
must hold a single block, since popping the head of a longer one empties the whole list.
-/

namespace Propeller
namespace Buddy

variable {A : Arch} {s s' : State} {l m k lv a addr n pages : Nat} {L : Nat → List Nat}

/-! ## The search -/

/-- `lv` is the first level from `k` on whose list is not empty. -/
structure PopLevel (s : State) (k lv : Nat) : Prop where
  le : k ≤ lv
  lt : lv < BLOCK_LEVELS
  head : s.head lv ≠ 0
  first : ∀ l, k ≤ l → l < lv → s.head l = 0

theorem PopLevel.unique {lv' : Nat} (h : PopLevel s k lv) (h' : PopLevel s k lv') : lv = lv' := by
  rcases Nat.lt_trichotomy lv lv' with hlt | heq | hgt
  · exact absurd (h'.first lv h.le hlt) h.head
  · exact heq
  · exact absurd (h.first lv' h'.le hgt) h'.head

theorem popLevel_or_empty (s : State) (k : Nat) :
    (∃ lv, PopLevel s k lv) ∨ ∀ l, k ≤ l → l < BLOCK_LEVELS → s.head l = 0 := by
  by_cases h : ∃ l, k ≤ l ∧ l < BLOCK_LEVELS ∧ s.head l ≠ 0
  · refine Or.inl ⟨Nat.find h, (Nat.find_spec h).1, (Nat.find_spec h).2.1, (Nat.find_spec h).2.2, ?_⟩
    intro l hk hl
    have hmin := Nat.find_min h hl
    have hlt : l < BLOCK_LEVELS := hl.trans (Nat.find_spec h).2.1
    by_contra hne
    exact hmin ⟨hk, hlt, hne⟩
  · refine Or.inr fun l hk hl => ?_
    by_contra hne
    exact h ⟨l, hk, hl, hne⟩

/-- What `allocate` does at the level it stops at. -/
def takeBlock (A : Arch) (minLevel level : Nat) (s : State) : Run (Option (Nat × Nat) × State) := do
  let (block, s) ← splitFreeBlock A s level minLevel
  let blockSize := 2 ^ minLevel * pageSize
  let freeMem ← checkedSub s.freeMem blockSize
  let allocMem ← checkedAdd A s.allocMem blockSize
  return (some (block, 2 ^ minLevel), { s with freeMem := freeMem, allocMem := allocMem })

theorem allocateLoop_eq (hpop : PopLevel s k lv) :
    allocateLoop A m (BLOCK_LEVELS - k) k s = takeBlock A m lv s := by
  obtain ⟨d, rfl⟩ := Nat.exists_eq_add_of_le hpop.le
  -- The loop goes up through `d` empty lists and takes from the first that is not.
  induction d generalizing k with
  | zero =>
      obtain ⟨n, hn⟩ : ∃ n, BLOCK_LEVELS - k = n + 1 := by
        have := hpop.lt
        exact ⟨BLOCK_LEVELS - k - 1, by omega⟩
      have hhead : ¬ (s.levels k).head = 0 := hpop.head
      rw [hn, allocateLoop, if_neg hhead]
      simp only [takeBlock, Nat.add_zero, Nat.one_mul, Nat.shiftLeft_eq, pageSize_eq]
  | succ d ih =>
      have hlt := hpop.lt
      obtain ⟨n, hn⟩ : ∃ n, BLOCK_LEVELS - k = n + 1 := ⟨BLOCK_LEVELS - k - 1, by omega⟩
      have hhead : (s.levels k).head = 0 := hpop.first k le_rfl (by omega)
      have hn' : n = BLOCK_LEVELS - (k + 1) := by omega
      have hsum : k + (d + 1) = k + 1 + d := by omega
      rw [hn, allocateLoop, if_pos hhead, hn', hsum]
      refine ih ⟨by omega, by omega, ?_, ?_⟩
      · rw [← hsum]
        exact hpop.head
      · intro l hkl hl
        exact hpop.first l (by omega) (by omega)

theorem allocateLoop_none (hempty : ∀ l, k ≤ l → l < BLOCK_LEVELS → s.head l = 0) :
    allocateLoop A m (BLOCK_LEVELS - k) k s = .ok (none, s) := by
  generalize hn : BLOCK_LEVELS - k = n
  induction n generalizing k with
  | zero => rfl
  | succ n ih =>
      have hhead : (s.levels k).head = 0 := hempty k le_rfl (by omega)
      rw [allocateLoop, if_pos hhead]
      exact ih (fun l hkl hl => hempty l (by omega) hl) (by omega)

/-- A successful allocation pops the head of the first non-empty level, splits it and updates the two
counters. -/
theorem allocate_eq_some :
    allocate A s pages = .ok (some (addr, n), s') ↔
      pages ≠ 0 ∧ n = 2 ^ ceilLog2 A pages ∧
        ∃ lv s₁ s₂, PopLevel s (ceilLog2 A pages) lv ∧ addr = s.head lv ∧
          removeFromList A s lv addr = .ok s₁ ∧
          splitLoop A addr (ceilLog2 A pages) (lv - ceilLog2 A pages) s₁ = .ok s₂ ∧
          n * pageSize ≤ s₂.freeMem ∧ s₂.allocMem + n * pageSize < A.wordLimit ∧
          s' = { s₂ with
            freeMem := s₂.freeMem - n * pageSize, allocMem := s₂.allocMem + n * pageSize } := by
  by_cases h0 : pages = 0
  · simp [allocate, h0]
  have hrun : allocate A s pages =
      allocateLoop A (ceilLog2 A pages) (BLOCK_LEVELS - ceilLog2 A pages) (ceilLog2 A pages) s := by
    rw [allocate, if_neg h0]
  -- The first level with a block decides, if there is one.
  rcases popLevel_or_empty s (ceilLog2 A pages) with ⟨lv, hpop⟩ | hempty
  · rw [hrun, allocateLoop_eq hpop]
    simp only [takeBlock, splitFreeBlock, popFromList, run_bind_eq_ok, run_pure_eq_ok,
      Prod.exists, checkedSub_eq_ok, checkedAdd_eq_ok]
    constructor
    · rintro ⟨b, s₂, ⟨b', s₁, ⟨_, hrem, hb⟩, _, hsplit, hb'⟩, f, ⟨hf, rfl⟩, c, ⟨hc, rfl⟩, hres⟩
      cases hb
      cases hb'
      cases hres
      exact ⟨h0, rfl, lv, s₁, s₂, hpop, rfl, hrem, hsplit, hf, hc, rfl⟩
    · rintro ⟨-, rfl, lv', s₁, s₂, hpop', rfl, hrem, hsplit, hf, hc, rfl⟩
      obtain rfl := hpop.unique hpop'
      exact ⟨_, s₂, ⟨_, s₁, ⟨s₁, hrem, rfl⟩, s₂, hsplit, rfl⟩, _, ⟨hf, rfl⟩, _, ⟨hc, rfl⟩, rfl⟩
  · rw [hrun, allocateLoop_none hempty]
    constructor
    · intro h
      simp at h
    · rintro ⟨-, -, lv, s₁, s₂, hpop, -⟩
      exact absurd (hempty lv hpop.le hpop.lt) hpop.head

/-! ## The splitting loop -/

/-- The address of the upper half that the splitting loop adds at level `l`. -/
def upperHalf (a l : Nat) : Nat :=
  a ||| (pageSize <<< l)

theorem upperHalf_eq (ha : pageSize ∣ a) (l : Nat) :
    upperHalf a l = (a / pageSize ||| 2 ^ l) * pageSize := by
  have hshift : ∀ x, x * pageSize = x <<< pageShift := by
    intro x
    rw [Nat.shiftLeft_eq, pageSize_eq]
  rw [hshift, Nat.shiftLeft_or_distrib, ← hshift, ← hshift, Nat.div_mul_cancel ha, upperHalf,
    Nat.shiftLeft_eq, Nat.mul_comm pageSize]

theorem upperHalf_div (ha : pageSize ∣ a) (l : Nat) :
    upperHalf a l / pageSize = a / pageSize ||| 2 ^ l := by
  rw [upperHalf_eq ha, Nat.mul_div_cancel _ pageSize_pos]

theorem upperHalf_ne_zero (ha : a ≠ 0) (l : Nat) : upperHalf a l ≠ 0 := by
  have hle : a ≤ upperHalf a l := Nat.left_le_or
  omega

/-- The lists of the `n` levels from `minLevel` on, before the loop adds an upper half to each. -/
structure Splittable (A : Arch) (s : State) (L : Nat → List Nat) (a minLevel n : Nat) : Prop where
  ne_zero : a ≠ 0
  list : ∀ l, minLevel ≤ l → l < minLevel + n → ListAt A s l (L l)
  apart : ∀ l, minLevel ≤ l → l < minLevel + n → ∀ m, minLevel ≤ m → m < minLevel + n →
    l ≠ m → ∀ x ∈ L l, x ∉ L m
  fresh : ∀ l, minLevel ≤ l → l < minLevel + n → ∀ m, minLevel ≤ m → m < minLevel + n →
    upperHalf a l ∉ L m

namespace Splittable

variable {minLevel : Nat} {s₁ : State} {xs : List Nat}

/-- One round of the loop appends the upper half to the topmost level. -/
theorem step (h : Splittable A s L a minLevel (n + 1))
    (hadd : addToList A s (minLevel + n) (upperHalf a (minLevel + n)) = .ok s₁) :
    Splittable A s₁ L a minLevel n ∧
      ListAt A s₁ (minLevel + n) (L (minLevel + n) ++ [upperHalf a (minLevel + n)]) ∧
      EditFrame s s₁ (minLevel + n) (· ∈ upperHalf a (minLevel + n) :: L (minLevel + n)) := by
  have hlist := h.list (minLevel + n) (by omega) (by omega)
  have hfresh := h.fresh (minLevel + n) (by omega) (by omega) (minLevel + n) (by omega) (by omega)
  obtain ⟨hl, hf⟩ := addToList_lists hlist hfresh (upperHalf_ne_zero h.ne_zero _) hadd
  refine ⟨⟨h.ne_zero, ?_, ?_, ?_⟩, hl, hf⟩
  · intro l hlo hhi
    refine (h.list l hlo (by omega)).edit hf (by omega) ?_
    intro x hx hmem
    rcases List.mem_cons.1 hmem with rfl | hmem
    · exact h.fresh (minLevel + n) (by omega) (by omega) l hlo (by omega) hx
    · exact h.apart l hlo (by omega) (minLevel + n) (by omega) (by omega) (by omega) x hx hmem
  · intro l hlo hhi m hlo' hhi'
    exact h.apart l hlo (by omega) m hlo' (by omega)
  · intro l hlo hhi m hlo' hhi'
    exact h.fresh l hlo (by omega) m hlo' (by omega)

/-- The loop leaves a list alone that shares no node with what it edits. -/
theorem keeps (h : Splittable A s L a minLevel n) (hrun : splitLoop A a minLevel n s = .ok s')
    (hm : m < minLevel ∨ minLevel + n ≤ m) (hxs : ListAt A s m xs)
    (hapart : ∀ l, minLevel ≤ l → l < minLevel + n → ∀ x ∈ xs, x ≠ upperHalf a l ∧ x ∉ L l) :
    ListAt A s' m xs := by
  induction n generalizing s with
  | zero =>
      cases hrun
      exact hxs
  | succ n ih =>
      obtain ⟨s₁, hadd, hrest⟩ := run_bind_eq_ok.1 hrun
      obtain ⟨hnext, -, hf⟩ := h.step hadd
      refine ih hnext hrest (by omega) (hxs.edit hf (by omega) ?_) ?_
      · intro x hx hmem
        have hx' := hapart (minLevel + n) (by omega) (by omega) x hx
        rcases List.mem_cons.1 hmem with heq | hmem
        · exact hx'.1 heq
        · exact hx'.2 hmem
      · intro l hlo hhi
        exact hapart l hlo (by omega)

/-- The loop appends the upper half to a level, provided no later round writes to the same node. -/
theorem adds (h : Splittable A s L a minLevel n) (hrun : splitLoop A a minLevel n s = .ok s')
    (hlo : minLevel ≤ m) (hhi : m < minLevel + n)
    (hlater : ∀ l, minLevel ≤ l → l < m → upperHalf a l ≠ upperHalf a m) :
    ListAt A s' m (L m ++ [upperHalf a m]) := by
  induction n generalizing s with
  | zero => omega
  | succ n ih =>
      obtain ⟨s₁, hadd, hrest⟩ := run_bind_eq_ok.1 hrun
      obtain ⟨hnext, hlist, -⟩ := h.step hadd
      by_cases htop : m = minLevel + n
      · subst htop
        refine hnext.keeps hrest (by omega) hlist ?_
        intro l hlo' hhi' x hx
        rcases List.mem_append.1 hx with hx | hx
        · refine ⟨?_, h.apart (minLevel + n) hlo hhi l hlo' (by omega) (by omega) x hx⟩
          rintro rfl
          exact h.fresh l hlo' (by omega) (minLevel + n) hlo hhi hx
        · rw [List.mem_singleton.1 hx]
          exact ⟨(hlater l hlo' hhi').symm, h.fresh _ hlo hhi l hlo' (by omega)⟩
      · exact ih hnext hrest (by omega)

end Splittable

/-! ## Popping a block -/

/-- The upper halves lie inside the popped block. -/
theorem upperHalf_mem_pages (ha : pageSize ∣ a) (hl : l < lv) :
    upperHalf a l / pageSize ∈ (blockAt lv a).pages := by
  rw [upperHalf_div ha, or_two_pow, blockAt, Block.mem_pages]
  have hpow : 2 ^ l < 2 ^ lv := Nat.pow_lt_pow_right (by decide) hl
  have hpos : 0 < 2 ^ l := Nat.two_pow_pos l
  simp only
  split <;> omega

/-- The popped block is the first of its list. -/
theorem WellFormed.pop_list (hwf : WellFormed A s L) (hpop : PopLevel s k lv) :
    ∃ t, L lv = s.head lv :: t := by
  have hlist := hwf.list lv hpop.lt
  cases hL : L lv with
  | nil =>
      rw [hL] at hlist
      exact absurd hlist.head hpop.head
  | cons h t =>
      rw [hL] at hlist
      exact ⟨t, by rw [hlist.head, List.headD_cons]⟩

/-- Popping empties the popped level, keeps the others and leaves them ready for the halves. -/
theorem WellFormed.pop {s₁ : State} (hwf : WellFormed A s L) (hpop : PopLevel s k lv)
    (hrem : removeFromList A s lv (s.head lv) = .ok s₁) :
    ListAt A s₁ lv [] ∧ (∀ m < BLOCK_LEVELS, m ≠ lv → ListAt A s₁ m (L m)) ∧
      Splittable A s₁ L (s.head lv) k (lv - k) := by
  obtain ⟨t, hL⟩ := hwf.pop_list hpop
  have hmem : s.head lv ∈ L lv := hL ▸ List.mem_cons_self
  obtain ⟨hnil, hframe⟩ := removeFromList_lists (hwf.list lv hpop.lt) hmem hrem
  have hempty : removed (L lv) (s.head lv) = [] := by
    rw [removed, hL, List.headD_cons, if_pos rfl]
  rw [hempty] at hnil
  have hothers : ∀ m < BLOCK_LEVELS, m ≠ lv → ListAt A s₁ m (L m) := by
    intro m hm hne
    refine (hwf.list m hm).edit hframe hne ?_
    intro x hx hxl
    exact hne (hwf.level_unique hm hpop.lt hx hxl)
  have hlt := hpop.lt
  refine ⟨hnil, hothers, hpop.head, ?_, ?_, ?_⟩
  · intro l hlo hhi
    exact hothers l (by omega) (by omega)
  · intro l hlo hhi m hlo' hhi' hne x hx hx'
    exact hne (hwf.level_unique (by omega) (by omega) hx hx')
  · intro l hlo hhi m hlo' hhi' hx
    -- An upper half is a page of the popped block, so no other free block starts there.
    have hpage := upperHalf_mem_pages ((hwf.list lv hlt).page_dvd hmem) (show l < lv by omega)
    have heq := (hwf.eq_of_page_mem hlt (show m < BLOCK_LEVELS by omega) hmem hx hpage).1
    omega

/-- The lists after the block `a` of level `lv` has been cut down to level `k`. -/
def splitLists (L : Nat → List Nat) (a k lv : Nat) (l : Nat) : List Nat :=
  if l = lv then [] else if k ≤ l ∧ l < lv then L l ++ [upperHalf a l] else L l

/-- The bits of the page number that the splitting loop sets are clear, so that setting them adds. -/
def SplitBitsClear (a k lv : Nat) : Prop :=
  ∀ l, k ≤ l → l < lv → (a / pageSize).testBit l = false

theorem SplitBitsClear.upperHalf_div (h : SplitBitsClear a k lv) (ha : pageSize ∣ a) (hlo : k ≤ l)
    (hhi : l < lv) : upperHalf a l / pageSize = a / pageSize + 2 ^ l := by
  rw [Buddy.upperHalf_div ha, or_two_pow, h l hlo hhi]
  simp

theorem SplitBitsClear.blockAt_upperHalf (h : SplitBitsClear a k lv) (ha : pageSize ∣ a)
    (hlo : k ≤ l) (hhi : l < lv) : blockAt l (upperHalf a l) = ⟨l, a / pageSize + 2 ^ l⟩ := by
  rw [blockAt, h.upperHalf_div ha hlo hhi]

/-- The lists an allocation leaves behind when the halves are what they should be. -/
theorem WellFormed.split_lists {s₁ s₂ : State} (hwf : WellFormed A s L) (hpop : PopLevel s k lv)
    (hrem : removeFromList A s lv (s.head lv) = .ok s₁)
    (hsplit : splitLoop A (s.head lv) k (lv - k) s₁ = .ok s₂)
    (hclear : SplitBitsClear (s.head lv) k lv) :
    ∀ l < BLOCK_LEVELS, ListAt A s₂ l (splitLists L (s.head lv) k lv l) := by
  obtain ⟨hnil, hothers, hready⟩ := hwf.pop hpop hrem
  obtain ⟨t, hL⟩ := hwf.pop_list hpop
  have hmem : s.head lv ∈ L lv := hL ▸ List.mem_cons_self
  have hdvd := (hwf.list lv hpop.lt).page_dvd hmem
  have hle := hpop.le
  intro l hl
  unfold splitLists
  split
  · rename_i heq
    subst heq
    exact hready.keeps hsplit (by omega) hnil (by simp)
  · rename_i hne
    split
    · rename_i hrange
      -- A level that gets the upper half of a cut.
      refine hready.adds hsplit hrange.1 (by omega) ?_
      intro m hlo hhi heq
      have hpages : upperHalf (s.head lv) m / pageSize = upperHalf (s.head lv) l / pageSize := by
        rw [heq]
      rw [hclear.upperHalf_div hdvd hlo (by omega), hclear.upperHalf_div hdvd hrange.1 hrange.2]
        at hpages
      have hpow : 2 ^ m < 2 ^ l := Nat.pow_lt_pow_right (by decide) hhi
      omega
    · rename_i hrange
      -- Any other level: the halves are not on its list.
      refine hready.keeps hsplit (by omega) (hothers l hl hne) ?_
      intro m hlo hhi x hx
      refine ⟨?_, ?_⟩
      · rintro rfl
        have hpage := upperHalf_mem_pages hdvd (show m < lv by omega)
        exact hne (hwf.eq_of_page_mem hpop.lt hl hmem hx hpage).1.symm
      · intro hxm
        have heq := hwf.level_unique hl (by have := hpop.lt; omega) hx hxm
        omega

/-! ## What is left -/

/-- An allocation takes from the free store exactly the pages it returns, and every block it does not
take stays on its list. -/
structure Conserves (s s' : State) (addr n : Nat) : Prop where
  pages : freePages s = freePages s' ∪ pagesAt addr n
  disjoint : Disjoint (freePages s') (pagesAt addr n)
  others : ∀ B ∈ freeBlocks s, addr / pageSize ∉ B.pages → B ∈ freeBlocks s'

/-- The block that `allocate` pops is alone on its list, and its upper halves are where setting a bit
of its page number puts them. -/
def PopsAlone (A : Arch) (s : State) (pages : Nat) : Prop :=
  ∀ lv, PopLevel s (ceilLog2 A pages) lv →
    s.nextOf (s.head lv) = s.head lv ∧ SplitBitsClear (s.head lv) (ceilLog2 A pages) lv

/-- Cutting the only block of a level down to level `k` keeps all its pages but the first `2 ^ k`. -/
theorem conserves_splitLists (hwf : WellFormed A s L) (hpop : PopLevel s k lv)
    (hone : L lv = [s.head lv]) (hclear : SplitBitsClear (s.head lv) k lv)
    (hlists : ∀ l < BLOCK_LEVELS, ListAt A s' l (splitLists L (s.head lv) k lv l)) :
    Conserves s s' (s.head lv) (2 ^ k) := by
  have hmem : s.head lv ∈ L lv := hone ▸ List.mem_cons_self
  have hdvd := (hwf.list lv hpop.lt).page_dvd hmem
  have hpopped : blockAt lv (s.head lv) ∈ blocksOf L := blockAt_mem_blocksOf hpop.lt hmem
  have hempty : ∀ l, k ≤ l → l < lv → L l = [] := by
    intro l hlo hhi
    exact ((hwf.list l (hhi.trans hpop.lt)).head_eq_zero_iff).1 (hpop.first l hlo hhi)
  have hfree : freeBlocks s = blocksOf L := WellFormed.freeBlocks_eq hwf.list
  -- A free block is the popped one, or it is kept.
  have hbefore : ∀ B ∈ blocksOf L, B = blockAt lv (s.head lv) ∨
      B.level ≠ lv ∧ B ∈ blocksOf (splitLists L (s.head lv) k lv) := by
    rintro B ⟨hl, a, ha, hB⟩
    by_cases hlv : B.level = lv
    · rw [hlv, hone, List.mem_singleton] at ha
      rw [hlv, ha] at hB
      exact Or.inl hB
    · refine Or.inr ⟨hlv, hl, a, ?_, hB⟩
      unfold splitLists
      rw [if_neg hlv]
      split
      · exact List.mem_append_left _ ha
      · exact ha
  -- A block on the new lists is an upper half, or it was free before.
  have hafter : ∀ B ∈ blocksOf (splitLists L (s.head lv) k lv),
      (∃ l, k ≤ l ∧ l < lv ∧ B = ⟨l, s.head lv / pageSize + 2 ^ l⟩) ∨
      B.level ≠ lv ∧ B ∈ blocksOf L := by
    rintro B ⟨hl, a, ha, hB⟩
    unfold splitLists at ha
    split at ha
    · simp at ha
    · rename_i hlv
      split at ha
      · rename_i hrange
        rw [hempty _ hrange.1 hrange.2, List.nil_append, List.mem_singleton] at ha
        rw [ha, hclear.blockAt_upperHalf hdvd hrange.1 hrange.2] at hB
        exact Or.inl ⟨B.level, hrange.1, hrange.2, hB⟩
      · exact Or.inr ⟨hlv, hl, a, ha, hB⟩
  have hhalf : ∀ l, k ≤ l → l < lv →
      ⟨l, s.head lv / pageSize + 2 ^ l⟩ ∈ blocksOf (splitLists L (s.head lv) k lv) := by
    intro l hlo hhi
    refine ⟨hhi.trans hpop.lt, upperHalf (s.head lv) l, ?_, ?_⟩
    · simp [splitLists, hhi.ne, hlo, hhi]
    · exact (hclear.blockAt_upperHalf hdvd hlo hhi).symm
  have hfirst : pagesAt (s.head lv) (2 ^ k) = (⟨k, s.head lv / pageSize⟩ : Block).pages := rfl
  refine ⟨?_, ?_, ?_⟩
  · rw [freePages, freePages, hfree, WellFormed.freeBlocks_eq hlists, hfirst]
    ext p
    rw [Set.mem_union, mem_cover, mem_cover]
    constructor
    · rintro ⟨B, hB, hp⟩
      rcases hbefore B hB with rfl | ⟨-, hkept⟩
      · rcases (Block.mem_pages_split hpop.le).1 hp with hp | ⟨l, hlo, hhi, hp⟩
        · exact Or.inr hp
        · exact Or.inl ⟨_, hhalf l hlo hhi, hp⟩
      · exact Or.inl ⟨B, hkept, hp⟩
    · rintro (⟨B, hB, hp⟩ | hp)
      · rcases hafter B hB with ⟨l, hlo, hhi, rfl⟩ | ⟨-, hold⟩
        · exact ⟨_, hpopped, (Block.mem_pages_split hpop.le).2 (Or.inr ⟨l, hlo, hhi, hp⟩)⟩
        · exact ⟨B, hold, hp⟩
      · exact ⟨_, hpopped, (Block.mem_pages_split hpop.le).2 (Or.inl hp)⟩
  · rw [Set.disjoint_left, freePages, WellFormed.freeBlocks_eq hlists, hfirst]
    rintro p ⟨B, hB, hp⟩ hfirst
    rcases hafter B hB with ⟨l, hlo, hhi, rfl⟩ | ⟨hne, hold⟩
    · exact Block.not_mem_upper_half hlo hfirst hp
    · have hin : p ∈ (blockAt lv (s.head lv)).pages :=
        (Block.mem_pages_split hpop.le).2 (Or.inl hfirst)
      exact hne (congrArg Block.level (hwf.disjoint B hold _ hpopped p hp hin))
  · rw [hfree, WellFormed.freeBlocks_eq hlists]
    intro B hB hnot
    rcases hbefore B hB with rfl | ⟨-, hkept⟩
    · exact absurd (page_mem_pages_blockAt lv (s.head lv)) hnot
    · exact hkept

/-- A bit that is already set puts the popped block itself back on a list. -/
theorem WellFormed.split_keeps_popped {s₁ s₂ : State} (hwf : WellFormed A s L)
    (hpop : PopLevel s k lv) (hrem : removeFromList A s lv (s.head lv) = .ok s₁)
    (hsplit : splitLoop A (s.head lv) k (lv - k) s₁ = .ok s₂)
    (hset : ¬ SplitBitsClear (s.head lv) k lv) : s.head lv / pageSize ∈ freePages s₂ := by
  obtain ⟨t, hL⟩ := hwf.pop_list hpop
  have hmem : s.head lv ∈ L lv := hL ▸ List.mem_cons_self
  have hdvd := (hwf.list lv hpop.lt).page_dvd hmem
  have hex : ∃ l, k ≤ l ∧ l < lv ∧ (s.head lv / pageSize).testBit l = true := by
    by_contra hnone
    refine hset fun l hlo hhi => ?_
    by_contra hbit
    exact hnone ⟨l, hlo, hhi, by simpa using hbit⟩
  -- The lowest such level is the last to receive the block.
  obtain ⟨hlo, hhi, hbit⟩ := Nat.find_spec hex
  have hself : upperHalf (s.head lv) (Nat.find hex) = s.head lv := by
    rw [upperHalf_eq hdvd, or_two_pow, if_pos hbit, Nat.div_mul_cancel hdvd]
  have hlist := (hwf.pop hpop hrem).2.2.adds hsplit hlo (by omega) <| by
    intro l hlo' hhi' heq
    have hmin := Nat.find_min hex hhi'
    have hclear : ¬ (s.head lv / pageSize).testBit l = true := fun h => hmin ⟨hlo', by omega, h⟩
    have hpages : upperHalf (s.head lv) l / pageSize = s.head lv / pageSize := by rw [heq, hself]
    rw [upperHalf_div hdvd, or_two_pow, if_neg hclear] at hpages
    have := Nat.two_pow_pos l
    omega
  rw [hself] at hlist
  refine ⟨blockAt (Nat.find hex) (s.head lv), ⟨hhi.trans hpop.lt, s.head lv, ?_, rfl⟩,
    page_mem_pages_blockAt _ _⟩
  exact hlist.reach_iff.2 (by simp)

/-- An allocation from well-formed lists conserves the free store exactly when the block it pops is
alone on its list (and, if it is cut, its page number has the halves' bits clear). -/
theorem allocate_conserves_iff (hwf : WellFormed A s L)
    (hrun : allocate A s pages = .ok (some (addr, n), s')) :
    Conserves s s' addr n ↔ PopsAlone A s pages := by
  obtain ⟨-, rfl, lv, s₁, s₂, hpop, rfl, hrem, hsplit, -, -, rfl⟩ := allocate_eq_some.1 hrun
  have hlist := hwf.list lv hpop.lt
  obtain ⟨t, hL⟩ := hwf.pop_list hpop
  have hmem : s.head lv ∈ L lv := hL ▸ List.mem_cons_self
  constructor
  · intro hcons lv' hpop'
    obtain rfl := hpop.unique hpop'
    refine ⟨?_, ?_⟩
    · -- Another block on the popped list would have to stay on it, but the list is empty now.
      rw [hlist.ring.next_eq_self_iff hmem]
      by_contra hmore
      obtain ⟨c, hc, hne⟩ : ∃ c ∈ L lv, c ≠ s.head lv := by
        cases t with
        | nil => exact absurd hL hmore
        | cons c t =>
            refine ⟨c, by simp [hL], ?_⟩
            rintro rfl
            have hnd := hlist.ring.nodup
            simp [hL] at hnd
      have hnot : s.head lv / pageSize ∉ (blockAt lv c).pages := by
        intro hpage
        exact hne (hwf.eq_of_page_mem hpop.lt hpop.lt hc hmem hpage).2
      have hfree : blockAt lv c ∈ freeBlocks s :=
        ⟨hpop.lt, c, hlist.reach_iff.2 hc, rfl⟩
      obtain ⟨-, b, hb, -⟩ := hcons.others _ hfree hnot
      obtain ⟨hnil, -, hready⟩ := hwf.pop hpop hrem
      have hle := hpop.le
      exact hb.1 (hready.keeps hsplit (by omega) hnil (by simp)).head
    · by_contra hset
      have hpage := hwf.split_keeps_popped hpop hrem hsplit hset
      refine Set.disjoint_left.1 hcons.disjoint hpage ⟨le_rfl, ?_⟩
      exact Nat.lt_add_of_pos_right (Nat.two_pow_pos _)
  · intro halone
    obtain ⟨hself, hclear⟩ := halone lv hpop
    have hone : L lv = [s.head lv] := (hlist.ring.next_eq_self_iff hmem).1 hself
    exact conserves_splitLists hwf hpop hone hclear
      (fun l hl => (hwf.split_lists hpop hrem hsplit hclear l hl).congr rfl fun _ _ => rfl)

/-- Pages 4 to 7 with one free block of all four, as `new` builds it. -/
def fourPages : State where
  base := 0x4000
  size := 0x4000
  levels l := { head := if l = 2 then 0x4000 else 0, offset := (levelStart .aarch64 0x4000 l).2 }
  flags := [0, 0, 1]
  allocMem := 0
  freeMem := 0x4000
  mem _ := ({ next := 0x4000, prev := 0x4000, checksum := 0 } : BlockNode).updateChecksum .aarch64

theorem fourPages_wellFormed :
    WellFormed .aarch64 fourPages (fun l => if l = 2 then [0x4000] else []) := by
  refine ⟨?_, ?_⟩
  · intro l _
    by_cases hl : l = 2
    · subst hl
      refine ⟨rfl, IsRing.singleton_iff.2 ⟨rfl, rfl⟩, by simp, ?_, ?_⟩
      · simp only [if_true, List.mem_singleton, forall_eq]
        decide
      · intro a _
        exact verifyChecksum_updateChecksum _ _
    · simp only [hl, if_false]
      exact ListAt.nil (by simp [State.head, fourPages, hl])
  · have hlevel : ∀ B ∈ blocksOf (fun l => if l = 2 then [0x4000] else []), B = ⟨2, 4⟩ := by
      rintro B ⟨-, a, ha, hB⟩
      have hl : B.level = 2 := by
        by_contra h
        simp [h] at ha
      simp only [hl, if_true, List.mem_singleton] at ha
      rw [hB, hl, ha]
      rfl
    intro B hB C hC p _ _
    rw [hlevel B hB, hlevel C hC]

/-- One page of the four is allocated; the other three stay free. -/
theorem fourPages_conserves :
    ∃ s', allocate .aarch64 fourPages 1 = .ok (some (0x4000, 1), s') ∧
      Conserves fourPages s' 0x4000 1 := by
  have hmap : (allocate .aarch64 fourPages 1).map Prod.fst = .ok (some (0x4000, 1)) := by
    decide +kernel
  obtain ⟨⟨_, s'⟩, hrun, rfl⟩ := run_eq_ok_of_map hmap
  refine ⟨s', hrun, (allocate_conserves_iff fourPages_wellFormed hrun).2 ?_⟩
  intro lv hpop
  obtain rfl : lv = 2 := by
    by_contra hne
    exact hpop.head (by simp [State.head, fourPages, hne])
  have hbits : ∀ l < 2, (fourPages.head 2 / pageSize).testBit l = false := by decide
  exact ⟨rfl, fun l _ hl => hbits l hl⟩

/-- Two single free pages, 1 and 3, on one list, as `new` builds it. -/
def twoPages : State where
  base := 0x1000
  size := 0x3000
  levels l := { head := if l = 0 then 0x1000 else 0, offset := (levelStart .aarch64 0x3000 l).2 }
  flags := [3, 0]
  allocMem := 0
  freeMem := 0x2000
  mem a :=
    let other := if a = 0x1000 then 0x3000 else 0x1000
    ({ next := other, prev := other, checksum := 0 } : BlockNode).updateChecksum .aarch64

theorem twoPages_wellFormed :
    WellFormed .aarch64 twoPages (fun l => if l = 0 then [0x1000, 0x3000] else []) := by
  refine ⟨?_, ?_⟩
  · intro l _
    by_cases hl : l = 0
    · subst hl
      refine ⟨rfl, ⟨by decide, ?_⟩, by simp, ?_, ?_⟩
      · simp only [if_true, Cycle.chain_coe_cons]
        simp [Linked, State.nextOf, State.prevOf, twoPages]
      · simp only [if_true, List.mem_cons, List.not_mem_nil, or_false, forall_eq_or_imp, forall_eq]
        decide
      · intro a _
        exact verifyChecksum_updateChecksum _ _
    · simp only [hl, if_false]
      exact ListAt.nil (by simp [State.head, twoPages, hl])
  · have hlevel : ∀ B ∈ blocksOf (fun l => if l = 0 then [0x1000, 0x3000] else []),
        B.level = 0 ∧ B.Aligned := by
      rintro B ⟨-, a, ha, -⟩
      have hl : B.level = 0 := by
        by_contra h
        simp [h] at ha
      exact ⟨hl, by simp [Block.Aligned, hl]⟩
    intro B hB C hC p hpB hpC
    obtain ⟨hBl, hBa⟩ := hlevel B hB
    obtain ⟨hCl, hCa⟩ := hlevel C hC
    exact hBa.eq_of_level_eq hCa (hBl.trans hCl.symm) hpB hpC

/-- Allocating one of two single pages loses the other. -/
theorem twoPages_loses_a_page :
    ∃ s', WellFormed .aarch64 twoPages (fun l => if l = 0 then [0x1000, 0x3000] else []) ∧
      allocate .aarch64 twoPages 1 = .ok (some (0x1000, 1), s') ∧
      ¬ Conserves twoPages s' 0x1000 1 := by
  have hmap : (allocate .aarch64 twoPages 1).map (fun r => (r.1, r.2.head 0)) =
      .ok (some (0x1000, 1), 0) := by
    decide +kernel
  obtain ⟨⟨_, s'⟩, hrun, hres⟩ := run_eq_ok_of_map hmap
  obtain ⟨rfl, hhead⟩ := Prod.mk.inj hres
  refine ⟨s', twoPages_wellFormed, hrun, ?_⟩
  intro hcons
  -- Page 3 was free and is not on a list any more.
  have hfree : blockAt 0 0x3000 ∈ freeBlocks twoPages :=
    ⟨by decide, 0x3000, ⟨by decide, 1, rfl⟩, rfl⟩
  have hnot : 0x1000 / pageSize ∉ (blockAt 0 0x3000).pages := by
    rw [Block.mem_pages]
    decide
  obtain ⟨-, b, hb, -⟩ := hcons.others _ hfree hnot
  exact hb.1 hhead

end Buddy
end Propeller
