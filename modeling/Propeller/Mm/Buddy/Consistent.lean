import Propeller.Mm.Buddy.Books

/-!
# Buddy.Consistent — lists, heads and flags together

`Consistent A s L` is the allocator's invariant while nothing has been lost: the lists in memory, the
heads and the flags all describe one tiling, `blocksOf L`.  An allocator with no free block at all is
consistent (`emptyArea_consistent`), and adding a fresh block to it returns and keeps it so
(`Consistent.add`).
-/

namespace Propeller
namespace Buddy

variable {A : Arch} {s s' : State} {l m k n a : Nat} {B C : Block} {F : Set Block}
  {L : Nat → List Nat}

/-! ## Totals -/

/-- The parts of the allocator that list edits leave alone. -/
structure SameTotals (s s' : State) : Prop where
  base : s'.base = s.base
  size : s'.size = s.size
  allocMem : s'.allocMem = s.allocMem
  freeMem : s'.freeMem = s.freeMem

theorem EditFrame.sameTotals {touched : Nat → Prop} (hf : EditFrame s s' l touched) :
    SameTotals s s' :=
  ⟨hf.base, hf.size, hf.allocMem, hf.freeMem⟩

theorem SameTotals.trans {s₁ : State} (h : SameTotals s s₁) (h' : SameTotals s₁ s') :
    SameTotals s s' :=
  ⟨h'.base.trans h.base, h'.size.trans h.size, h'.allocMem.trans h.allocMem,
    h'.freeMem.trans h.freeMem⟩

theorem SameTotals.basePage (h : SameTotals s s') : s'.basePage = s.basePage := by
  rw [State.basePage, h.base, State.basePage]

theorem SameTotals.inside (h : SameTotals s s') : Inside s' B ↔ Inside s B := by
  rw [Inside, Inside, h.basePage, h.size]

theorem addToList_sameTotals (h : addToList A s l a = .ok s') : SameTotals s s' := by
  obtain ⟨-, -, -, s₁, hlink, rfl⟩ := addToList_eq_ok.1 h
  exact (linkBlock_frame hlink).1.flagged.sameTotals

theorem removeFromList_sameTotals (h : removeFromList A s l a = .ok s') : SameTotals s s' := by
  obtain ⟨-, -, s₁, hunlink, rfl⟩ := removeFromList_eq_ok.1 h
  exact (unlinkBlock_frame hunlink).1.flagged.sameTotals

/-! ## Lists of page addresses -/

/-- Lists of distinct page addresses, one for each level. -/
structure PageLists (L : Nat → List Nat) : Prop where
  dvd : ∀ l < BLOCK_LEVELS, ∀ a ∈ L l, pageSize ∣ a
  nodup : ∀ l < BLOCK_LEVELS, (L l).Nodup

theorem pageLists_of_listAt (h : ∀ l < BLOCK_LEVELS, ListAt A s l (L l)) : PageLists L :=
  ⟨fun l hl _ ha => (h l hl).page_dvd ha, fun l hl => (h l hl).ring.nodup⟩

theorem addrOf_blockAt (ha : pageSize ∣ a) : addrOf (blockAt l a) = a :=
  Nat.div_mul_cancel ha

theorem PageLists.mem_blocksOf (h : PageLists L) :
    C ∈ blocksOf L ↔ C.level < BLOCK_LEVELS ∧ addrOf C ∈ L C.level := by
  constructor
  · rintro ⟨hl, a, ha, hC⟩
    refine ⟨hl, ?_⟩
    have haddr : addrOf C = a := by
      rw [hC]
      exact addrOf_blockAt (h.dvd _ hl a ha)
    rw [haddr]
    exact ha
  · rintro ⟨hl, ha⟩
    exact ⟨hl, addrOf C, ha, (blockAt_addrOf C).symm⟩

theorem removed_sublist (xs : List Nat) (a : Nat) : (removed xs a).Sublist xs := by
  unfold removed
  split
  · exact List.nil_sublist xs
  · exact List.erase_sublist

theorem not_mem_removed {xs : List Nat} (hnd : xs.Nodup) : a ∉ removed xs a := by
  unfold removed
  split
  · simp
  · exact hnd.not_mem_erase

/-- Removing a block makes a list shorter, by the block alone unless it is the head of a longer list. -/
theorem length_removed_le {xs : List Nat} (ha : a ∈ xs) : (removed xs a).length + 1 ≤ xs.length := by
  have hpos := List.length_pos_of_mem ha
  unfold removed
  split
  · exact hpos
  · rw [List.length_erase_of_mem ha]
    omega

theorem length_removed_of_head {xs : List Nat} (ha : a ∈ xs) (hhead : xs.headD 0 = a → xs = [a]) :
    (removed xs a).length + 1 = xs.length := by
  have hpos := List.length_pos_of_mem ha
  unfold removed
  split
  next heq =>
    rw [hhead heq]
    rfl
  next =>
    rw [List.length_erase_of_mem ha]
    omega

/-- Removing keeps the other blocks unless it takes the head of a longer list. -/
theorem mem_removed_iff {xs : List Nat} {x : Nat} (hnd : xs.Nodup)
    (hhead : xs.headD 0 = a → xs = [a]) : x ∈ removed xs a ↔ x ∈ xs ∧ x ≠ a := by
  unfold removed
  split
  · rename_i h
    rw [hhead h]
    simp
  · rw [hnd.mem_erase_iff, and_comm]

theorem PageLists.update_sublist {ys : List Nat} (h : PageLists L) (hys : ys.Sublist (L l)) :
    PageLists (Function.update L l ys) := by
  refine ⟨?_, ?_⟩
  · intro m hm a ha
    by_cases hml : m = l
    · subst hml
      rw [Function.update_self] at ha
      exact h.dvd m hm a (hys.subset ha)
    · rw [Function.update_of_ne hml] at ha
      exact h.dvd m hm a ha
  · intro m hm
    by_cases hml : m = l
    · subst hml
      rw [Function.update_self]
      exact (h.nodup m hm).sublist hys
    · rw [Function.update_of_ne hml]
      exact h.nodup m hm

theorem blocksOf_update_subset {ys : List Nat} (hys : ys.Sublist (L l)) :
    blocksOf (Function.update L l ys) ⊆ blocksOf L := by
  rintro C ⟨hl, a, ha, hC⟩
  refine ⟨hl, a, ?_, hC⟩
  by_cases hml : C.level = l
  · subst hml
    rw [Function.update_self] at ha
    exact hys.subset ha
  · rwa [Function.update_of_ne hml] at ha

/-- A list edit does not show at the other levels. -/
theorem mem_blocksOf_update_of_ne {ys : List Nat} (hl : C.level ≠ l) :
    C ∈ blocksOf (Function.update L l ys) ↔ C ∈ blocksOf L := by
  unfold blocksOf
  simp only [Set.mem_ofPred_eq, Function.update_of_ne hl]

theorem blocksOf_append (hl : B.level < BLOCK_LEVELS) :
    blocksOf (Function.update L B.level (L B.level ++ [addrOf B])) = insert B (blocksOf L) := by
  ext C
  by_cases hC : C.level = B.level
  · constructor
    · rintro ⟨hCl, a, ha, hCa⟩
      rw [hC, Function.update_self, List.mem_append, List.mem_singleton] at ha
      rcases ha with ha | rfl
      · exact Or.inr ⟨hCl, a, hC ▸ ha, hCa⟩
      · rw [hC, blockAt_addrOf] at hCa
        exact Or.inl hCa
    · rintro (rfl | ⟨hCl, a, ha, hCa⟩)
      · exact ⟨hl, addrOf C, by simp, (blockAt_addrOf C).symm⟩
      · refine ⟨hCl, a, ?_, hCa⟩
        rw [hC, Function.update_self]
        exact List.mem_append_left _ (hC ▸ ha)
  · rw [mem_blocksOf_update_of_ne hC, Set.mem_insert_iff, or_iff_right]
    rintro rfl
    exact hC rfl

theorem PageLists.blocksOf_removed (h : PageLists L) (hB : B ∈ blocksOf L)
    (hhead : (L B.level).headD 0 = addrOf B → L B.level = [addrOf B]) :
    blocksOf (Function.update L B.level (removed (L B.level) (addrOf B))) = blocksOf L \ {B} := by
  have hpl := h.update_sublist (removed_sublist (L B.level) (addrOf B))
  have hl := (h.mem_blocksOf.1 hB).1
  ext C
  rw [hpl.mem_blocksOf, Set.mem_sdiff, Set.mem_singleton_iff, h.mem_blocksOf]
  by_cases hC : C.level = B.level
  · rw [hC, Function.update_self, mem_removed_iff (h.nodup _ hl) hhead, and_assoc]
    refine and_congr_right fun _ => and_congr_right fun _ => not_congr ?_
    constructor
    · intro haddr
      rw [← blockAt_addrOf C, ← blockAt_addrOf B, hC, haddr]
    · rintro rfl
      rfl
  · have hne : ¬ C = B := by
      rintro rfl
      exact hC rfl
    rw [Function.update_of_ne hC, and_iff_left hne]

/-! ## Weight -/

/-- The number of pages on the lists. -/
def weight (L : Nat → List Nat) : Nat :=
  ∑ l ∈ Finset.range BLOCK_LEVELS, 2 ^ l * (L l).length

theorem weight_update (L : Nat → List Nat) (ys : List Nat) (hl : l < BLOCK_LEVELS) :
    weight (Function.update L l ys) + 2 ^ l * (L l).length = weight L + 2 ^ l * ys.length := by
  have hmem : l ∈ Finset.range BLOCK_LEVELS := Finset.mem_range.2 hl
  unfold weight
  rw [← Finset.add_sum_erase _ _ hmem, ← Finset.add_sum_erase _ (fun l => 2 ^ l * (L l).length) hmem]
  have hrest : ∑ x ∈ (Finset.range BLOCK_LEVELS).erase l, 2 ^ x * (Function.update L l ys x).length =
      ∑ x ∈ (Finset.range BLOCK_LEVELS).erase l, 2 ^ x * (L x).length := by
    refine Finset.sum_congr rfl fun x hx => ?_
    rw [Function.update_of_ne (Finset.ne_of_mem_erase hx)]
  rw [hrest, Function.update_self]
  omega

theorem le_weight (hl : l < BLOCK_LEVELS) (hne : L l ≠ []) : 2 ^ l ≤ weight L := by
  have hmem : l ∈ Finset.range BLOCK_LEVELS := Finset.mem_range.2 hl
  have hterm : 2 ^ l * (L l).length ≤ weight L :=
    Finset.single_le_sum (f := fun l => 2 ^ l * (L l).length) (fun _ _ => Nat.zero_le _) hmem
  have hlen := List.length_pos_iff.2 hne
  exact (Nat.le_mul_of_pos_right _ hlen).trans hterm

/-! ## Edits of well-formed lists return -/

theorem flag_word (h : Books A s F) (hl : B.level < BLOCK_LEVELS) (hin : Inside s B) :
    (s.levels B.level).offset + B.number s.basePage / 2 / A.wordBits < s.flags.length :=
  flag_index_lt h.geometry hl hin.pair_lt

theorem Books.addrOf_lt (h : Books A s F) (hin : Inside s B) : addrOf B < A.wordLimit := by
  have hb : s.base = s.basePage * pageSize := (Nat.div_mul_cancel h.base_dvd).symm
  have hlt : B.page < s.basePage + s.size / pageSize := by
    have := hin.2
    have := Nat.two_pow_pos B.level
    omega
  have hle := Nat.mul_le_mul_right pageSize hlt.le
  have hsize := Nat.div_mul_le_self s.size pageSize
  have hlim := h.limit
  rw [Nat.add_mul, ← hb] at hle
  unfold addrOf
  omega

theorem Books.hasFlag (h : Books A s F) (hl : B.level < BLOCK_LEVELS) (hin : Inside s B) :
    HasFlag A s B.level (addrOf B) := by
  rw [HasFlag, blockNum_addrOf h.base_dvd]
  exact flag_word h hl hin

theorem Books.addToList_ok {xs : List Nat} (h : Books A s F) (hl : B.level < BLOCK_LEVELS)
    (hin : Inside s B) (hB0 : B.page ≠ 0) (hxs : ListAt A s B.level xs) (hnot : addrOf B ∉ xs) :
    ∃ s', addToList A s B.level (addrOf B) = .ok s' := by
  have hal : alignDown A (addrOf B) pageSize = addrOf B :=
    page_aligned_iff.2 ⟨h.addrOf_lt hin, Nat.dvd_mul_left _ _⟩
  have h0 : addrOf B ≠ 0 := Nat.mul_ne_zero hB0 pageSize_pos.ne'
  obtain ⟨s₁, hlink, -⟩ := linkBlock_spec hxs hnot h0 hal
  exact ⟨_, addToList_eq_ok.2
    ⟨base_le_addrOf h.base_dvd hin, hal, h.hasFlag hl hin, s₁, hlink, rfl⟩⟩

theorem Books.removeFromList_ok {xs : List Nat} (h : Books A s F) (hB : B ∈ F)
    (hxs : ListAt A s B.level xs) (hmem : addrOf B ∈ xs) :
    ∃ s', removeFromList A s B.level (addrOf B) = .ok s' := by
  have hin := h.inside B hB
  obtain ⟨s₁, hunlink, -⟩ := unlinkBlock_spec hxs hmem
  exact ⟨_, removeFromList_eq_ok.2
    ⟨base_le_addrOf h.base_dvd hin, h.hasFlag (h.level_lt B hB) hin, s₁, hunlink, rfl⟩⟩

/-- The address of a block apart from the free ones is on no list. -/
theorem addrOf_not_mem (hapart : ∀ C ∈ F, ∀ p, p ∈ B.pages → p ∉ C.pages) (hsub : blocksOf L ⊆ F)
    (hm : m < BLOCK_LEVELS) : addrOf B ∉ L m := by
  intro hBm
  have hpage := page_mem_pages_blockAt m (addrOf B)
  rw [addrOf_div] at hpage
  exact hapart _ (hsub (blockAt_mem_blocksOf hm hBm)) B.page B.page_mem_pages hpage

/-- Lists whose blocks lie in a tiling are well formed. -/
theorem wellFormed_of_tiling (hF : Tiling F) (hlists : ∀ l < BLOCK_LEVELS, ListAt A s l (L l))
    (hsub : blocksOf L ⊆ F) : WellFormed A s L :=
  ⟨hlists, fun B hB C hC => hF.disjoint B (hsub hB) C (hsub hC)⟩

/-- Editing the list of one level keeps the lists of the others. -/
theorem WellFormed.update {ys zs : List Nat} (hwf : WellFormed A s L)
    (hl : l < BLOCK_LEVELS) (hf : EditFrame s s' l (· ∈ zs)) (hys : ListAt A s' l ys)
    (hzs : ∀ x ∈ zs, x ∈ L l ∨ ∀ m < BLOCK_LEVELS, x ∉ L m) :
    ∀ m < BLOCK_LEVELS, ListAt A s' m (Function.update L l ys m) := by
  intro m hm
  by_cases hml : m = l
  · subst hml
    rw [Function.update_self]
    exact hys
  · rw [Function.update_of_ne hml]
    refine (hwf.list m hm).edit hf hml ?_
    intro x hx hxz
    rcases hzs x hxz with hxl | hnone
    · exact hml (hwf.level_unique hm hl hx hxl)
    · exact hnone m hm hx

/-- The byte bounds of a block of the area. -/
theorem Books.block_end (h : Books A s F) (hin : Inside s B) :
    addrOf B + 2 ^ B.level * pageSize ≤ s.base + s.size := by
  have hb : s.base = s.basePage * pageSize := (Nat.div_mul_cancel h.base_dvd).symm
  have hle := Nat.mul_le_mul_right pageSize hin.2
  have hsize := Nat.div_mul_le_self s.size pageSize
  rw [Nat.add_mul, Nat.add_mul, ← hb] at hle
  unfold addrOf
  omega

/-! ## Consistency -/

/-- A consistent allocator: circular lists with valid checksums, of aligned blocks that share no page,
with heads and flags that describe them. -/
structure Consistent (A : Arch) (s : State) (L : Nat → List Nat) : Prop where
  lists : ∀ l < BLOCK_LEVELS, ListAt A s l (L l)
  tiling : Tiling (blocksOf L)
  books : Books A s (blocksOf L)

namespace Consistent

theorem freeBlocks_eq (h : Consistent A s L) : freeBlocks s = blocksOf L :=
  WellFormed.freeBlocks_eq h.lists

theorem wellFormed (h : Consistent A s L) : WellFormed A s L :=
  wellFormed_of_tiling h.tiling h.lists Set.Subset.rfl

/-- Adding a block apart from the free ones appends it to its list. -/
theorem add (h : Consistent A s L) (hB : Block.InHand s.basePage (blocksOf L) B)
    (hl : B.level < BLOCK_LEVELS) (hin : Inside s B) (hB0 : B.page ≠ 0) :
    ∃ s', addToList A s B.level (addrOf B) = .ok s' ∧ SameTotals s s' ∧
      Consistent A s' (Function.update L B.level (L B.level ++ [addrOf B])) := by
  -- The block is apart from all free ones, so its address is in no list.
  have hfresh : ∀ m < BLOCK_LEVELS, addrOf B ∉ L m := fun m hm =>
    addrOf_not_mem hB.apart Set.Subset.rfl hm
  have h0 : addrOf B ≠ 0 := Nat.mul_ne_zero hB0 pageSize_pos.ne'
  obtain ⟨s', hadd⟩ := h.books.addToList_ok hl hin hB0 (h.lists B.level hl) (hfresh B.level hl)
  obtain ⟨hlist, hframe⟩ := addToList_lists (h.lists B.level hl) (hfresh B.level hl) h0 hadd
  have hset := blocksOf_append (L := L) hl
  refine ⟨s', hadd, addToList_sameTotals hadd, ?_, ?_, ?_⟩
  · refine h.wellFormed.update hl hframe hlist ?_
    intro x hx
    rcases List.mem_cons.1 hx with rfl | hx
    · exact Or.inr hfresh
    · exact Or.inl hx
  · rw [hset]
    exact h.tiling.insert hB.aligned hB.apart
  · rw [hset]
    exact h.books.insert hB.aligned hl hin hB.not_mem hadd

end Consistent

/-- An area with no free page, with the given counters. -/
def emptyArea (A : Arch) (base size allocMem freeMem : Nat) (mem : Nat → BlockNode) : State where
  base := base
  size := size
  levels := (makeLevels A size).1
  flags := List.replicate (levelStart A size BLOCK_LEVELS).2 0
  allocMem := allocMem
  freeMem := freeMem
  mem := mem

theorem emptyArea_consistent {base size : Nat} (allocMem freeMem : Nat) (mem : Nat → BlockNode)
    (hbase : pageSize ∣ base) (hlim : base + size < A.wordLimit) :
    Consistent A (emptyArea A base size allocMem freeMem mem) (fun _ => []) := by
  have hnone : ∀ C : Block, C ∉ blocksOf (fun _ => []) := by
    rintro C ⟨-, a, ha, -⟩
    simp at ha
  refine ⟨fun l _ => ListAt.nil rfl, ⟨?_, ?_⟩, ?_⟩
  · intro C hC
    exact absurd hC (hnone C)
  · intro C hC
    exact absurd hC (hnone C)
  · refine ⟨⟨fun _ => rfl, by simp [emptyArea]⟩, hbase, hlim, ?_, ?_, ?_, ?_, ?_⟩
    · intro C hC
      exact absurd hC (hnone C)
    · intro C hC
      exact absurd hC (hnone C)
    · intro C hC
      exact absurd hC (hnone C)
    · intro l _ hne
      exact absurd rfl hne
    · intro l _ k _
      have hmem : ∀ b j, ¬ Member b (blocksOf fun _ => []) l j := by
        rintro b j ⟨C, hC, -⟩
        exact hnone C hC
      have hzero : ∀ i, (emptyArea A base size allocMem freeMem mem).flags.getD i 0 = 0 := by
        intro i
        rw [List.getD_eq_getElem?_getD, emptyArea, List.getElem?_replicate]
        split <;> rfl
      rw [flagSet, hzero, Nat.zero_testBit]
      simp [hmem]

end Buddy
end Propeller
