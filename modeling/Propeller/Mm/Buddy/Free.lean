import Propeller.Mm.Buddy.Consistent

/-!
# Buddy.Free — what a free returns to the store

The coalescing loop of `free` is followed at two levels.  On the books it is `Block.mergeInto`, whatever
the memory holds (`freeLoop_books`).  On well-formed lists it is `mergeLists` and always returns
(`freeLoop_lists`).  The two agree as long as no merge takes the head of a list with more blocks; and
`free_returns_iff` says exactly when the freed pages, and nothing but them, are added.
-/

namespace Propeller
namespace Buddy

variable {A : Arch} {s s' : State} {l m k n a : Nat} {B C D : Block} {F : Set Block}
  {L : Nat → List Nat}

open Block

/-! ## One round of the loop -/

/-- The flag of a block that is not free tells whether its buddy is. -/
theorem Books.flag_iff (h : Books A s F) (hB : B.Aligned) (hl : B.level < BLOCK_LEVELS)
    (hin : Inside s B) (hnot : B ∉ F) :
    flagSet A s B.level (B.number s.basePage / 2) = true ↔ buddy s.basePage B ∈ F := by
  rw [h.flags B.level hl _ hin.pair_lt]
  have hself := h.member_iff hB hin.1
  have hother := h.member_iff (hB.buddy hin.1) (le_buddy_page hin.1)
  obtain ⟨hsame, hne⟩ := number_buddy hin.1
  rw [buddy_level] at hother
  rcases Nat.mod_two_eq_zero_or_one (B.number s.basePage) with heven | hodd
  · rw [show 2 * (B.number s.basePage / 2) = B.number s.basePage by omega,
      show B.number s.basePage + 1 = (buddy s.basePage B).number s.basePage by omega, hself, hother]
    simp [hnot]
  · rw [show 2 * (B.number s.basePage / 2) + 1 = B.number s.basePage by omega,
      show 2 * (B.number s.basePage / 2) = (buddy s.basePage B).number s.basePage by omega, hself,
      hother, xor_comm]
    simp [hnot]

theorem buddyAddr_addrOf (hbase : pageSize ∣ s.base) (B : Block) :
    buddyAddr s (addrOf B) B.level = addrOf (buddy s.basePage B) := by
  have hb : s.base = s.basePage * pageSize := (Nat.div_mul_cancel hbase).symm
  have hshift : ∀ x, x * pageSize = x <<< pageShift := by
    intro x
    rw [Nat.shiftLeft_eq, pageSize_eq]
  have hxor : (addrOf B - s.base) ^^^ ((1 <<< B.level) <<< pageShift) =
      ((B.page - s.basePage) ^^^ 2 ^ B.level) * pageSize := by
    rw [hshift, Nat.shiftLeft_xor_distrib, ← hshift, ← hshift, ← hshift, Nat.one_shiftLeft,
      Nat.sub_mul, ← hb]
    rfl
  have hsum : addrOf (buddy s.basePage B) =
      ((B.page - s.basePage) ^^^ 2 ^ B.level) * pageSize + s.basePage * pageSize :=
    Nat.add_mul _ _ _
  rw [buddyAddr, hxor, hsum, ← hb]

theorem addrOf_merged (b : Nat) (B : Block) :
    addrOf (merged b B) = min (addrOf B) (addrOf (buddy b B)) :=
  Nat.mul_min_mul_right _ _ _ |>.symm

/-- The loop stops at a block whose buddy is not free. -/
theorem freeLoop_stop (h : Books A s F) (hB : InHand s.basePage F B) (hl : B.level < BLOCK_LEVELS)
    (hin : Inside s B) (hbuddy : buddy s.basePage B ∉ F) :
    freeLoop A (n + 1) B.level (addrOf B) s = addToList A s B.level (addrOf B) := by
  have hflag := (h.flag_iff hB.aligned hl hin hB.not_mem).not.2 hbuddy
  rw [Bool.not_eq_true] at hflag
  rw [freeLoop, getFlagIndexAndBit_eq (base_le_addrOf h.base_dvd hin), run_ok_bind,
    blockNum_addrOf h.base_dvd]
  simp only
  rw [getFlagWord_eq (flag_word h hl hin), run_ok_bind, if_pos (flag_test_iff.2 hflag)]

/-- The loop takes a free buddy off its list and goes on with the merged block. -/
theorem freeLoop_merge (h : Books A s F) (hB : InHand s.basePage F B) (hl : B.level < BLOCK_LEVELS)
    (hin : Inside s B) (hbuddy : buddy s.basePage B ∈ F) :
    freeLoop A (n + 1) B.level (addrOf B) s =
      removeFromList A s B.level (addrOf (buddy s.basePage B)) >>=
        freeLoop A n (merged s.basePage B).level (addrOf (merged s.basePage B)) := by
  have hflag := (h.flag_iff hB.aligned hl hin hB.not_mem).2 hbuddy
  have htest := (flag_test_iff (A := A) (s := s) (l := B.level)
    (k := B.number s.basePage / 2)).not.2 (by simp [hflag])
  rw [freeLoop, getFlagIndexAndBit_eq (base_le_addrOf h.base_dvd hin), run_ok_bind,
    blockNum_addrOf h.base_dvd]
  simp only
  rw [getFlagWord_eq (flag_word h hl hin), run_ok_bind, if_neg htest, buddyAddr_addrOf h.base_dvd,
    addrOf_merged]
  rfl

theorem Inside.merged (hB : Inside s B) (hC : Inside s (buddy s.basePage B)) :
    Inside s (merged s.basePage B) := by
  refine ⟨le_merged_page hB.1, ?_⟩
  have hlast : (Block.merged s.basePage B).page + 2 ^ (Block.merged s.basePage B).level - 1 ∈
      (Block.merged s.basePage B).pages := by
    have := Nat.two_pow_pos (Block.merged s.basePage B).level
    exact ⟨by omega, by omega⟩
  have h1 := hB.2
  have h2 := hC.2
  rcases (mem_pages_merged hB.1).1 hlast with hp | hp
  · rw [mem_pages] at hp
    omega
  · rw [mem_pages] at hp
    omega

/-! ## The loop on the books -/

/-- The merges of a climb within the levels of the allocator give aligned blocks. -/
def ClimbAligned (b : Nat) (F : Set Block) (B : Block) : Prop :=
  ∀ C, Climb b (fun E => buddy b E ∈ F) B C → buddy b C ∈ F → C.level + 1 < BLOCK_LEVELS →
    EvenStart b C.level

theorem ClimbAligned.merged {b : Nat} (h : ClimbAligned b F B) (hbuddy : buddy b B ∈ F) :
    ClimbAligned b (F \ {buddy b B}) (merged b B) := by
  intro C hC hmem hlt
  exact h C (Climb.of_merged hbuddy hC) hmem.1 hlt

/-- A loop that returns has merged the block into the set of the books. -/
theorem freeLoop_books (hn : B.level + n = BLOCK_LEVELS) (h : Books A s F) (hF : Tiling F)
    (hB : InHand s.basePage F B) (hin : Inside s B) (heven : ClimbAligned s.basePage F B)
    (hrun : freeLoop A n B.level (addrOf B) s = .ok s') :
    Books A s' (mergeInto s.basePage n B F) ∧ SameTotals s s' := by
  -- Along the climb of the loop, with the books of the store without the buddies that were taken out.
  induction n generalizing B F s with
  | zero =>
      cases hrun
      exact ⟨h, rfl, rfl, rfl, rfl⟩
  | succ n ih =>
      have hl : B.level < BLOCK_LEVELS := by omega
      unfold mergeInto
      split
      · rename_i hbuddy
        -- The flag says that the buddy is free: it is taken out of its list.
        rw [freeLoop_merge h hB hl hin hbuddy] at hrun
        obtain ⟨s₁, hrem, hrest⟩ := run_bind_eq_ok.1 hrun
        have hbooks := h.erase (B := buddy s.basePage B) hbuddy hrem
        have hsame := removeFromList_sameTotals hrem
        -- Above the top level the loop ends, and the merged block is on no list.
        cases n with
        | zero =>
            cases hrest
            exact ⟨hbooks, hsame⟩
        | succ n =>
            have hhand : InHand s₁.basePage (F \ {buddy s.basePage B}) (merged s.basePage B) := by
              rw [hsame.basePage]
              exact hB.merge hF hbuddy (heven B (Climb.refl _ _ B) hbuddy (by omega))
            have hin' := hin.merged (h.inside _ hbuddy)
            have hstep := ih (B := merged s.basePage B) (by rw [merged_level]; omega) hbooks
              (hF.mono Set.sdiff_subset) hhand (hsame.inside.2 hin')
              (by rw [hsame.basePage]; exact heven.merged hbuddy) hrest
            rw [hsame.basePage] at hstep
            exact ⟨hstep.1, hsame.trans hstep.2⟩
      · rename_i hbuddy
        -- The buddy is not free, so the block goes on the list of its level.
        rw [freeLoop_stop h hB hl hin hbuddy] at hrun
        exact ⟨h.insert hB.aligned hl hin hB.not_mem hrun, addToList_sameTotals hrun⟩

/-! ## The loop on lists -/

/-- The lists after the loop has returned `B` with `n` levels to climb. -/
def mergeLists (b : Nat) : Nat → Block → (Nat → List Nat) → Nat → List Nat
  | 0, _, L => L
  | n + 1, B, L =>
      if addrOf (buddy b B) ∈ L B.level then
        mergeLists b n (merged b B)
          (Function.update L B.level (removed (L B.level) (addrOf (buddy b B))))
      else
        Function.update L B.level (L B.level ++ [addrOf B])

/-- On well-formed lists the loop returns and leaves the lists of `mergeLists`. -/
theorem freeLoop_lists (hn : B.level + n = BLOCK_LEVELS) (h : Books A s F) (hF : Tiling F)
    (hB : InHand s.basePage F B) (hin : Inside s B) (hB0 : B.page ≠ 0)
    (heven : ClimbAligned s.basePage F B) (hlists : ∀ l < BLOCK_LEVELS, ListAt A s l (L l))
    (hsub : blocksOf L ⊆ F) (hsame : ∀ C ∈ F, B.level ≤ C.level → C ∈ blocksOf L) :
    ∃ s', freeLoop A n B.level (addrOf B) s = .ok s' ∧
      ∀ l < BLOCK_LEVELS, ListAt A s' l (mergeLists s.basePage n B L l) := by
  induction n generalizing B F s L with
  | zero => exact ⟨s, rfl, hlists⟩
  | succ n ih =>
      have hl : B.level < BLOCK_LEVELS := by omega
      have hwf := wellFormed_of_tiling hF hlists hsub
      have hpl := pageLists_of_listAt hlists
      unfold mergeLists
      by_cases hbuddy : buddy s.basePage B ∈ F
      · -- The buddy is on its list: take it off and go on one level up.
        have hmem : addrOf (buddy s.basePage B) ∈ L B.level :=
          (hpl.mem_blocksOf.1 (hsame _ hbuddy (by rw [buddy_level]))).2
        rw [freeLoop_merge h hB hl hin hbuddy, if_pos hmem]
        obtain ⟨s₁, hrem⟩ := h.removeFromList_ok hbuddy (hlists B.level hl) hmem
        rw [buddy_level] at hrem
        obtain ⟨hlist, hframe⟩ := removeFromList_lists (hlists B.level hl) hmem hrem
        have hlists₁ := hwf.update hl hframe hlist (fun x hx => Or.inl hx)
        rw [hrem, run_ok_bind]
        cases n with
        | zero => exact ⟨s₁, rfl, hlists₁⟩
        | succ n =>
            have hst := removeFromList_sameTotals hrem
            have hbooks := h.erase (B := buddy s.basePage B) hbuddy hrem
            have hhand : InHand s₁.basePage (F \ {buddy s.basePage B}) (merged s.basePage B) := by
              rw [hst.basePage]
              exact hB.merge hF hbuddy (heven B (Climb.refl _ _ B) hbuddy (by omega))
            have hpl₁ := hpl.update_sublist (removed_sublist (L B.level)
              (addrOf (buddy s.basePage B)))
            have hstep := ih (B := merged s.basePage B) (by rw [merged_level]; omega) hbooks
              (hF.mono Set.sdiff_subset) hhand (hst.inside.2 (hin.merged (h.inside _ hbuddy))) ?_
              (by rw [hst.basePage]; exact heven.merged hbuddy) hlists₁ ?_ ?_
            · rw [hst.basePage] at hstep
              exact hstep
            · have hne := (hlists B.level hl).ne_zero _ hmem
              have hbp : (buddy s.basePage B).page ≠ 0 := by
                intro h0
                rw [addrOf, h0, Nat.zero_mul] at hne
                exact hne rfl
              change min B.page (buddy s.basePage B).page ≠ 0
              omega
            · intro C hC
              refine ⟨hsub (blocksOf_update_subset (removed_sublist _ _) hC), ?_⟩
              rintro rfl
              have hin' := (hpl₁.mem_blocksOf.1 hC).2
              rw [buddy_level, Function.update_self] at hin'
              exact not_mem_removed (hpl.nodup B.level hl) hin'
            · intro C hC hlevel
              rw [merged_level] at hlevel
              rw [mem_blocksOf_update_of_ne (by omega)]
              exact hsame C hC.1 (by omega)
      · -- The climb ends here.
        have hmem : addrOf (buddy s.basePage B) ∉ L B.level := fun hmem =>
          hbuddy (hsub (hpl.mem_blocksOf.2 ⟨by rw [buddy_level]; exact hl, by
            rw [buddy_level]; exact hmem⟩))
        have hfresh : ∀ m < BLOCK_LEVELS, addrOf B ∉ L m := fun m hm =>
          addrOf_not_mem hB.apart hsub hm
        rw [freeLoop_stop h hB hl hin hbuddy, if_neg hmem]
        obtain ⟨s', hadd⟩ := h.addToList_ok hl hin hB0 (hlists B.level hl) (hfresh B.level hl)
        have h0 : addrOf B ≠ 0 := Nat.mul_ne_zero hB0 pageSize_pos.ne'
        obtain ⟨hlist, hframe⟩ := addToList_lists (hlists B.level hl) (hfresh B.level hl) h0 hadd
        refine ⟨s', hadd, hwf.update hl hframe hlist ?_⟩
        intro x hx
        rcases List.mem_cons.1 hx with rfl | hx
        · exact Or.inr hfresh
        · exact Or.inl hx

/-! ## What the lists keep -/

section MergeLists

variable {b : Nat}

/-- The climb above `B` does not see the edit at the level of `B`. -/
theorem climb_update_iff {ys : List Nat} :
    Climb b (fun E => buddy b E ∈ blocksOf (Function.update L B.level ys)) (merged b B) C ↔
      Climb b (fun E => buddy b E ∈ blocksOf L) (merged b B) C := by
  have hne : ∀ E : Block, (merged b B).level ≤ E.level → (buddy b E).level ≠ B.level := by
    intro E hE
    rw [merged_level] at hE
    rw [buddy_level]
    omega
  constructor
  · intro h
    exact h.congr fun E hE hmem => (mem_blocksOf_update_of_ne (hne E hE)).1 hmem
  · intro h
    exact h.congr fun E hE hmem => (mem_blocksOf_update_of_ne (hne E hE)).2 hmem

theorem PageLists.buddy_mem_iff (h : PageLists L) (hl : B.level < BLOCK_LEVELS) :
    addrOf (buddy b B) ∈ L B.level ↔ buddy b B ∈ blocksOf L := by
  rw [h.mem_blocksOf, buddy_level]
  exact (and_iff_right hl).symm

/-- The climb from `B` merges no head of a list with more blocks. -/
def ClimbKeepsHeads (b : Nat) (L : Nat → List Nat) (B : Block) : Prop :=
  ∀ C, Climb b (fun E => buddy b E ∈ blocksOf L) B C → buddy b C ∈ blocksOf L →
    (L C.level).headD 0 = addrOf (buddy b C) → L C.level = [addrOf (buddy b C)]

/-- As long as no head of a longer list is merged, the lists are those of the merged store. -/
theorem blocksOf_mergeLists (hpl : PageLists L) (hn : B.level + n = BLOCK_LEVELS)
    (hkeep : ClimbKeepsHeads b L B) :
    blocksOf (mergeLists b n B L) = mergeInto b n B (blocksOf L) := by
  induction n generalizing B L with
  | zero => rfl
  | succ n ih =>
      have hl : B.level < BLOCK_LEVELS := by omega
      unfold mergeLists mergeInto
      by_cases hbuddy : buddy b B ∈ blocksOf L
      · rw [if_pos ((hpl.buddy_mem_iff hl).2 hbuddy), if_pos hbuddy]
        -- The buddy is taken without its list: it is alone, or not the head.
        have hhead := hkeep B (Climb.refl b _ B) hbuddy
        have hset := hpl.blocksOf_removed hbuddy hhead
        rw [buddy_level] at hset
        rw [← hset]
        refine ih (hpl.update_sublist (removed_sublist _ _)) (by rw [merged_level]; omega) ?_
        intro C hC hmem
        have hlevel := hC.level_le
        rw [merged_level] at hlevel
        rw [Function.update_of_ne (by omega)]
        refine hkeep C (Climb.up hbuddy (climb_update_iff.1 hC)) ?_
        rwa [mem_blocksOf_update_of_ne (by rw [buddy_level]; omega)] at hmem
      · rw [if_neg ((hpl.buddy_mem_iff hl).not.2 hbuddy), if_neg hbuddy]
        exact blocksOf_append hl

/-- The lists never hold more than the old blocks and the returned pages. -/
theorem cover_mergeLists_subset (hpl : PageLists L) (hn : B.level + n = BLOCK_LEVELS)
    (hb : b ≤ B.page) : cover (blocksOf (mergeLists b n B L)) ⊆ cover (blocksOf L) ∪ B.pages := by
  induction n generalizing B L with
  | zero => exact Set.subset_union_left
  | succ n ih =>
      have hl : B.level < BLOCK_LEVELS := by omega
      unfold mergeLists
      split
      · rename_i hmem
        have hbuddy := (hpl.buddy_mem_iff hl).1 hmem
        have hsub := blocksOf_update_subset (removed_sublist (L B.level) (addrOf (buddy b B)))
        refine (ih (hpl.update_sublist (removed_sublist _ _)) (by rw [merged_level]; omega)
          (le_merged_page hb)).trans ?_
        rintro p (⟨C, hC, hp⟩ | hp)
        · exact Or.inl ⟨C, hsub hC, hp⟩
        · rcases (mem_pages_merged hb).1 hp with hp | hp
          · exact Or.inr hp
          · exact Or.inl ⟨_, hbuddy, hp⟩
      · rw [blocksOf_append hl, cover_insert]

/-- A climb that merges at the last level adds nothing to the lists. -/
theorem mergeLists_drop (hpl : PageLists L) (hn : B.level + n = BLOCK_LEVELS)
    (hclimb : Climb b (fun E => buddy b E ∈ blocksOf L) B C) (hC : buddy b C ∈ blocksOf L)
    (hlast : C.level + 1 = BLOCK_LEVELS) : blocksOf (mergeLists b n B L) ⊆ blocksOf L := by
  -- The climb goes up with the loop, and at the last level the merged block is in no list.
  induction n generalizing B L with
  | zero => exact Set.Subset.rfl
  | succ n ih =>
      have hl : B.level < BLOCK_LEVELS := by omega
      have hsub := blocksOf_update_subset (removed_sublist (L B.level) (addrOf (buddy b B)))
      have hbuddy : buddy b B ∈ blocksOf L := by
        rcases hclimb.cases with rfl | ⟨hbuddy, -⟩
        · exact hC
        · exact hbuddy
      unfold mergeLists
      rw [if_pos ((hpl.buddy_mem_iff hl).2 hbuddy)]
      rcases hclimb.cases with rfl | ⟨-, hrest⟩
      · obtain rfl : n = 0 := by omega
        exact hsub
      · have hlevel := hrest.level_le
        rw [merged_level] at hlevel
        refine (ih (hpl.update_sublist (removed_sublist _ _)) (by rw [merged_level]; omega)
          (climb_update_iff.2 hrest) ?_).trans hsub
        rwa [mem_blocksOf_update_of_ne (by rw [buddy_level]; omega)]

/-- A climb that merges the head of a longer list loses the other blocks of that list. -/
theorem mergeLists_lost (hpl : PageLists L) (hn : B.level + n = BLOCK_LEVELS) (hb : b ≤ B.page)
    (htile : Tiling (blocksOf L)) (hapart : ∀ E ∈ blocksOf L, ∀ p, p ∈ B.pages → p ∉ E.pages)
    (hclimb : Climb b (fun E => buddy b E ∈ blocksOf L) B C) (hC : buddy b C ∈ blocksOf L)
    (hhead : (L C.level).headD 0 = addrOf (buddy b C)) (hD : D ∈ blocksOf L)
    (hlevel : D.level = C.level) (hne : D ≠ buddy b C) :
    D.page ∉ cover (blocksOf (mergeLists b n B L)) := by
  induction n generalizing B L with
  | zero =>
      have := hclimb.level_le
      have := (hpl.mem_blocksOf.1 hC).1
      rw [buddy_level] at this
      omega
  | succ n ih =>
      have hl : B.level < BLOCK_LEVELS := by omega
      have hbuddy : buddy b B ∈ blocksOf L := by
        rcases hclimb.cases with rfl | ⟨hbuddy, -⟩
        · exact hC
        · exact hbuddy
      have hpl₁ := hpl.update_sublist (removed_sublist (L B.level) (addrOf (buddy b B)))
      have hsub := blocksOf_update_subset (removed_sublist (L B.level) (addrOf (buddy b B)))
      unfold mergeLists
      rw [if_pos ((hpl.buddy_mem_iff hl).2 hbuddy)]
      rcases hclimb.cases with rfl | ⟨-, hrest⟩
      · -- The list of this level is empty now, and no block above it has the page.
        intro hp
        have hbound := cover_mergeLists_subset hpl₁ (by rw [merged_level]; omega)
          (le_merged_page hb) hp
        rcases hbound with ⟨E, hE, hpE⟩ | hpm
        · have hDE := htile.disjoint D hD E (hsub hE) D.page D.page_mem_pages hpE
          have hin := (hpl₁.mem_blocksOf.1 hE).2
          rw [← hDE, hlevel, Function.update_self, removed, if_pos hhead] at hin
          simp at hin
        · rcases (mem_pages_merged hb).1 hpm with hpB | hpb
          · exact hapart D hD D.page hpB D.page_mem_pages
          · exact hne (htile.disjoint D hD _ hC D.page D.page_mem_pages hpb)
      · have hlt := hrest.level_le
        rw [merged_level] at hlt
        refine ih hpl₁ (by rw [merged_level]; omega) (le_merged_page hb) (htile.mono hsub) ?_
          (climb_update_iff.2 hrest) ?_ ?_ ?_
        · intro E hE p hp hpE
          rcases (mem_pages_merged hb).1 hp with hpB | hpb
          · exact hapart E (hsub hE) p hpB hpE
          · have heq := htile.disjoint E (hsub hE) _ hbuddy p hpE hpb
            have hin := (hpl₁.mem_blocksOf.1 hE).2
            rw [heq, buddy_level, Function.update_self] at hin
            exact not_mem_removed (hpl.nodup B.level hl) hin
        · rwa [mem_blocksOf_update_of_ne (by rw [buddy_level]; omega)]
        · rwa [Function.update_of_ne (by omega)]
        · rwa [mem_blocksOf_update_of_ne (by omega)]

/-- Returning a block adds at most its pages to the lists. -/
theorem weight_mergeLists_le (hn : B.level + n = BLOCK_LEVELS) :
    weight (mergeLists b n B L) ≤ weight L + 2 ^ B.level := by
  induction n generalizing B L with
  | zero => exact Nat.le_add_right _ _
  | succ n ih =>
      have hl : B.level < BLOCK_LEVELS := by omega
      unfold mergeLists
      split
      · rename_i hmem
        -- A list may lose more than the buddy, if the buddy is its head.
        have hlen := length_removed_le hmem
        have hw := weight_update L (removed (L B.level) (addrOf (buddy b B))) hl
        have hmul := Nat.mul_le_mul_left (2 ^ B.level) hlen
        have hstep := ih (B := merged b B)
          (L := Function.update L B.level (removed (L B.level) (addrOf (buddy b B))))
          (by rw [merged_level]; omega)
        rw [merged_level, Nat.pow_succ] at hstep
        rw [Nat.mul_add, Nat.mul_one] at hmul
        omega
      · have hw := weight_update L (L B.level ++ [addrOf B]) hl
        rw [List.length_append, List.length_singleton, Nat.mul_add, Nat.mul_one] at hw
        omega

end MergeLists

/-! ## The whole call -/

theorem freeLoop_sameTotals (h : freeLoop A n l a s = .ok s') : SameTotals s s' := by
  induction n generalizing l a s with
  | zero =>
      cases h
      exact ⟨rfl, rfl, rfl, rfl⟩
  | succ n ih =>
      obtain ⟨f, -, h⟩ := run_bind_eq_ok.1 h
      obtain ⟨w, -, h⟩ := run_bind_eq_ok.1 h
      split at h
      · exact addToList_sameTotals h
      · obtain ⟨s₁, hrem, h⟩ := run_bind_eq_ok.1 h
        exact (removeFromList_sameTotals hrem).trans (ih h)

/-- `free` does not move the area. -/
theorem free_base (h : free A s a k = .ok s') : s'.base = s.base := by
  unfold free at h
  split at h
  · cases h
    rfl
  · simp only [run_bind_eq_ok, run_pure_eq_ok] at h
    obtain ⟨-, -, -, -, -, -, -, -, -, -, -, -, s₁, hloop, -, -, -, -, rfl⟩ := h
    exact (freeLoop_sameTotals hloop).base

theorem floorLog2_two_pow (hl : l < BLOCK_LEVELS) : floorLog2 A (2 ^ l) = l := by
  have hlt : 2 ^ l < A.wordLimit := by
    refine lt_of_lt_of_le (Nat.pow_lt_pow_right (by decide) hl) ?_
    cases A <;> decide
  rw [floorLog2_eq hlt, Nat.log2_two_pow]

theorem addrOf_and_eq_zero (hB : B.Aligned) : addrOf B &&& (2 ^ B.level * pageSize - 1) = 0 := by
  have hpow : 2 ^ B.level * pageSize = 2 ^ (B.level + pageShift) := by
    rw [Nat.pow_add, pageSize_eq]
  rw [hpow, Nat.and_two_pow_sub_one_eq_mod, ← hpow]
  exact Nat.mod_eq_zero_of_dvd (Nat.mul_dvd_mul_right hB pageSize)

/-- The arguments of a valid `free` pass its checks; what is left is the loop and the counters. -/
theorem free_eq_ok (h : Books A s F) (hal : B.Aligned) (hl : B.level < BLOCK_LEVELS)
    (hin : Inside s B) (hB0 : B.page ≠ 0) :
    free A s (addrOf B) (2 ^ B.level) = .ok s' ↔
      ∃ s₁, freeLoop A (BLOCK_LEVELS - B.level) B.level (addrOf B) s = .ok s₁ ∧
        s₁.freeMem + 2 ^ B.level * pageSize < A.wordLimit ∧
        2 ^ B.level * pageSize ≤ s₁.allocMem ∧
        s' = { s₁ with
          freeMem := s₁.freeMem + 2 ^ B.level * pageSize
          allocMem := s₁.allocMem - 2 ^ B.level * pageSize } := by
  have hpos : 0 < 2 ^ B.level * pageSize := Nat.mul_pos (Nat.two_pow_pos _) pageSize_pos
  have haddr : addrOf B ≠ 0 := Nat.mul_ne_zero hB0 pageSize_pos.ne'
  have hend := h.block_end hin
  have hlim := h.limit
  have hbase := base_le_addrOf h.base_dvd hin
  -- The checks of the source hold for a block of the area; what is left are the loop and the counters.
  have hguard : ¬ (addrOf B = 0 ∨ 2 ^ B.level = 0) := by
    rintro (h0 | h0)
    · exact haddr h0
    · exact (Nat.two_pow_pos B.level).ne' h0
  have hshift : 2 ^ B.level <<< pageShift = 2 ^ B.level * pageSize := by
    rw [Nat.shiftLeft_eq, pageSize_eq]
  have hrange : s.base ≤ addrOf B ∧ addrOf B + 2 ^ B.level * pageSize - 1 ≤ s.base + (s.size - 1) :=
    ⟨hbase, by omega⟩
  rw [free, if_neg hguard, require_pos (isPowerOf2_iff.2 ⟨B.level, rfl⟩), run_ok_bind]
  simp only [floorLog2_two_pow hl, hshift, require_pos hl, require_pos (addrOf_and_eq_zero hal),
    checkedAdd_of_lt (show addrOf B + 2 ^ B.level * pageSize < A.wordLimit by omega),
    checkedAdd_of_lt (show s.base + (s.size - 1) < A.wordLimit by omega), require_pos hrange,
    run_ok_bind, run_bind_eq_ok, run_pure_eq_ok, checkedAdd_eq_ok, checkedSub_eq_ok]
  constructor
  · rintro ⟨s₁, hloop, _, ⟨hf, rfl⟩, _, ⟨hc, rfl⟩, rfl⟩
    exact ⟨s₁, hloop, hf, hc, rfl⟩
  · rintro ⟨s₁, hloop, hf, hc, rfl⟩
    exact ⟨s₁, hloop, _, ⟨hf, rfl⟩, _, ⟨hc, rfl⟩, rfl⟩

/-- An allocated block of a consistent allocator: aligned, inside the area, apart from the free blocks
and counted as allocated. -/
structure Outstanding (A : Arch) (s : State) (L : Nat → List Nat) (B : Block) : Prop where
  hand : InHand s.basePage (blocksOf L) B
  level_lt : B.level < BLOCK_LEVELS
  inside : Inside s B
  page_ne : B.page ≠ 0
  allocated : 2 ^ B.level * pageSize ≤ s.allocMem
  fits : s.freeMem + 2 ^ B.level * pageSize < A.wordLimit

namespace Consistent

/-- A valid `free` returns, and its lists are those of `mergeLists`. -/
theorem free_ok (h : Consistent A s L) (hB : Outstanding A s L B)
    (heven : ClimbAligned s.basePage (blocksOf L) B) :
    ∃ s', free A s (addrOf B) (2 ^ B.level) = .ok s' ∧
      ∀ l < BLOCK_LEVELS,
        ListAt A s' l (mergeLists s.basePage (BLOCK_LEVELS - B.level) B L l) := by
  have hn : B.level + (BLOCK_LEVELS - B.level) = BLOCK_LEVELS := by
    have := hB.level_lt
    omega
  obtain ⟨s₁, hloop, hlists⟩ := freeLoop_lists hn h.books h.tiling hB.hand hB.inside hB.page_ne
    heven h.lists Set.Subset.rfl (fun C hC _ => hC)
  have hsame := (freeLoop_books hn h.books h.tiling hB.hand hB.inside heven hloop).2
  refine ⟨_, (free_eq_ok h.books hB.hand.aligned hB.level_lt hB.inside hB.page_ne).2
    ⟨s₁, hloop, ?_, ?_, rfl⟩, ?_⟩
  · rw [hsame.freeMem]
    exact hB.fits
  · rw [hsame.allocMem]
    exact hB.allocated
  · intro l hl
    exact (hlists l hl).congr rfl fun _ _ => rfl

/-- A valid `free` that takes no head of a longer list keeps the allocator consistent. -/
theorem free (h : Consistent A s L) (hB : Outstanding A s L B)
    (heven : ClimbAligned s.basePage (blocksOf L) B) (hkeep : ClimbKeepsHeads s.basePage L B)
    (hrun : free A s (addrOf B) (2 ^ B.level) = .ok s') :
    ∃ L', Consistent A s' L' ∧
      blocksOf L' = mergeInto s.basePage (BLOCK_LEVELS - B.level) B (blocksOf L) ∧
      weight L' ≤ weight L + 2 ^ B.level ∧ s'.base = s.base ∧ s'.size = s.size ∧
      s'.freeMem = s.freeMem + 2 ^ B.level * pageSize ∧
      s'.allocMem = s.allocMem - 2 ^ B.level * pageSize := by
  have hn : B.level + (BLOCK_LEVELS - B.level) = BLOCK_LEVELS := by
    have := hB.level_lt
    omega
  have hset := blocksOf_mergeLists (pageLists_of_listAt h.lists) hn hkeep
  obtain ⟨s'', hrun', hlists⟩ := h.free_ok hB heven
  obtain rfl : s'' = s' := Except.ok.inj (hrun'.symm.trans hrun)
  obtain ⟨s₁, hloop, -, -, rfl⟩ :=
    (free_eq_ok h.books hB.hand.aligned hB.level_lt hB.inside hB.page_ne).1 hrun
  -- The lists come from the loop's lists and the flags from its books, and both have the same blocks.
  obtain ⟨hbooks, hsame⟩ := freeLoop_books hn h.books h.tiling hB.hand hB.inside heven hloop
  refine ⟨_, ⟨hlists, ?_, ?_⟩, hset, weight_mergeLists_le hn, hsame.base, hsame.size, ?_, ?_⟩
  · rw [hset]
    refine mergeInto_tiling h.tiling hB.hand ?_
    intro C hclimb hC hlt
    exact heven C hclimb hC (by omega)
  · rw [hset]
    exact hbooks.counters _ _
  · rw [← hsame.freeMem]
  · rw [← hsame.allocMem]

end Consistent

/-- Every merge of the climb from `B` stays below the largest level, and takes the head of a list only
when it is alone on it. -/
def ClimbStops (s : State) (B : Block) : Prop :=
  ∀ C, Climb s.basePage (fun E => buddy s.basePage E ∈ freeBlocks s) B C →
    buddy s.basePage C ∈ freeBlocks s →
    C.level + 1 < BLOCK_LEVELS ∧
      (s.head C.level = addrOf (buddy s.basePage C) →
        s.nextOf (addrOf (buddy s.basePage C)) = addrOf (buddy s.basePage C))

/-- In a consistent allocator whose base is a multiple of the largest block, `free` of an allocated
block adds exactly its pages to the free ones if and only if no merge of its climb is at the largest
level or takes the head of a list with more blocks. -/
theorem free_returns_iff (h : Consistent A s L) (hbase : 2 ^ (BLOCK_LEVELS - 1) ∣ s.basePage)
    (hB : Outstanding A s L B) :
    (∃ s', free A s (addrOf B) (2 ^ B.level) = .ok s' ∧
      freePages s' = freePages s ∪ pagesAt (addrOf B) (2 ^ B.level)) ↔ ClimbStops s B := by
  have hn : B.level + (BLOCK_LEVELS - B.level) = BLOCK_LEVELS := by
    have := hB.level_lt
    omega
  have hpl := pageLists_of_listAt h.lists
  have heven : ClimbAligned s.basePage (blocksOf L) B := fun C _ _ hlt =>
    evenStart_of_dvd hbase (by omega)
  obtain ⟨s', hrun, hlists⟩ := h.free_ok hB heven
  have hpages : pagesAt (addrOf B) (2 ^ B.level) = B.pages := by
    rw [pagesAt, addrOf_div]
    rfl
  have hleft : (∃ s', free A s (addrOf B) (2 ^ B.level) = .ok s' ∧
      freePages s' = freePages s ∪ pagesAt (addrOf B) (2 ^ B.level)) ↔
      cover (blocksOf (mergeLists s.basePage (BLOCK_LEVELS - B.level) B L)) =
        cover (blocksOf L) ∪ B.pages := by
    rw [hpages, freePages, h.freeBlocks_eq, ← WellFormed.freeBlocks_eq hlists]
    constructor
    · rintro ⟨s'', hrun', heq⟩
      obtain rfl : s'' = s' := Except.ok.inj (hrun'.symm.trans hrun)
      exact heq
    · intro heq
      exact ⟨s', hrun, heq⟩
  rw [hleft, ClimbStops, h.freeBlocks_eq]
  constructor
  · intro hcover C hclimb hC
    have hCl := (hpl.mem_blocksOf.1 hC).1
    rw [buddy_level] at hCl
    refine ⟨?_, ?_⟩
    · -- A merge at the largest level drops the block in hand.
      by_contra hlast
      have hsub := mergeLists_drop hpl hn hclimb hC (by omega)
      have hp : B.page ∈ cover (blocksOf L) ∪ B.pages := Or.inr B.page_mem_pages
      rw [← hcover] at hp
      obtain ⟨E, hE, hpE⟩ := hp
      exact hB.hand.apart E (hsub hE) B.page B.page_mem_pages hpE
    · -- Taking the head of a longer list loses the rest of it.
      intro hhead
      have hlist := h.lists C.level hCl
      have hmem := (hpl.buddy_mem_iff hCl).2 hC
      rw [hlist.ring.next_eq_self_iff hmem]
      by_contra hmore
      obtain ⟨c, hc, hne⟩ : ∃ c ∈ L C.level, c ≠ addrOf (buddy s.basePage C) := by
        by_contra hall
        have hone : ∀ c ∈ L C.level, c = addrOf (buddy s.basePage C) := by
          intro c hc
          by_contra hne
          exact hall ⟨c, hc, hne⟩
        have hrep := List.eq_replicate_of_mem hone
        have hlen := List.nodup_replicate.1 (hrep ▸ hlist.ring.nodup)
        have hlen' := List.length_pos_of_mem hmem
        rw [show (L C.level).length = 1 by omega] at hrep
        exact hmore hrep
      have hD : blockAt C.level c ∈ blocksOf L := blockAt_mem_blocksOf hCl hc
      have hDne : blockAt C.level c ≠ buddy s.basePage C := by
        intro heq
        rw [← heq, addrOf_blockAt (hpl.dvd _ hCl c hc)] at hne
        exact hne rfl
      refine mergeLists_lost hpl hn hB.hand.origin h.tiling hB.hand.apart hclimb hC
        (hlist.head.symm.trans hhead) hD rfl hDne ?_
      rw [hcover]
      exact Or.inl ⟨_, hD, Block.page_mem_pages _⟩
  · intro hstop
    rw [blocksOf_mergeLists hpl hn, cover_mergeInto hB.hand.origin (by have := hB.level_lt; omega)]
    · intro C hclimb hC
      have := (hstop C hclimb hC).1
      omega
    · intro C hclimb hC hhead
      have hCl := (hpl.mem_blocksOf.1 hC).1
      rw [buddy_level] at hCl
      have hlist := h.lists C.level hCl
      have hself := (hstop C hclimb hC).2 (hlist.head.trans hhead)
      exact (hlist.ring.next_eq_self_iff ((hpl.buddy_mem_iff hCl).2 hC)).1 hself

/-- Two largest blocks from 0x400000 on, all of them allocated except `D`. -/
theorem exists_oneFree (hD : D.Aligned) (hl : D.level < BLOCK_LEVELS) (hlo : 1024 ≤ D.page)
    (hhi : D.page + 2 ^ D.level ≤ 3072) :
    ∃ s L, SameTotals (emptyArea .aarch64 0x400000 0x800000 0x800000 0 fun _ => ⟨0, 0, 0⟩) s ∧
      Consistent .aarch64 s L ∧ blocksOf L = {D} := by
  have hempty : Consistent .aarch64
      (emptyArea .aarch64 0x400000 0x800000 0x800000 0 fun _ => ⟨0, 0, 0⟩) (fun _ => []) :=
    emptyArea_consistent _ _ _ (by decide) (by decide)
  have hnone : blocksOf (fun _ => []) = ∅ := by
    ext C
    simp [blocksOf]
  have hhand : InHand (emptyArea .aarch64 0x400000 0x800000 0x800000 0 fun _ => ⟨0, 0, 0⟩).basePage
      (blocksOf fun _ => []) D := by
    refine ⟨hD, hlo, ?_⟩
    rw [hnone]
    simp
  obtain ⟨s, -, hsame, hcons⟩ := hempty.add hhand hl ⟨hlo, hhi⟩ (by omega)
  refine ⟨s, _, hsame, hcons, ?_⟩
  rw [blocksOf_append hl, hnone, insert_empty_eq]

/-- Freeing page 1024 while its buddy, page 1025, is the only free page. -/
theorem free_returns_pair :
    ∃ s L s', Consistent .aarch64 s L ∧ freeBlocks s = {⟨0, 1025⟩} ∧
      Outstanding .aarch64 s L ⟨0, 1024⟩ ∧ free .aarch64 s (addrOf ⟨0, 1024⟩) (2 ^ 0) = .ok s' ∧
      freePages s' = freePages s ∪ pagesAt (addrOf ⟨0, 1024⟩) (2 ^ 0) := by
  obtain ⟨s, L, hsame, hcons, hL⟩ := exists_oneFree (D := ⟨0, 1025⟩) ⟨1025, rfl⟩ (by decide)
    (by decide) (by decide)
  have hbase : s.basePage = 1024 := hsame.basePage
  have hfree : freeBlocks s = {⟨0, 1025⟩} := hcons.freeBlocks_eq.trans hL
  have hout : Outstanding .aarch64 s L ⟨0, 1024⟩ := by
    refine ⟨⟨⟨1024, rfl⟩, hbase.le, ?_⟩, by decide, hsame.inside.2 (by decide), by decide, ?_, ?_⟩
    · rw [hL]
      rintro C rfl p hp hpC
      rw [mem_pages] at hp hpC
      simp only at hp hpC
      omega
    · rw [hsame.allocMem]
      decide
    · rw [hsame.freeMem]
      decide
  obtain ⟨s', hrun, hpages⟩ := (free_returns_iff hcons (by rw [hbase]; decide) hout).2 <| by
    rw [ClimbStops, hfree, hbase]
    have hmerged : buddy 1024 (merged 1024 ⟨0, 1024⟩) ∉ ({⟨0, 1025⟩} : Set Block) := by decide
    intro C hclimb hC
    -- One merge, then the climb is at level 1 and its buddy is not free.
    rcases hclimb.cases with rfl | ⟨-, hrest⟩
    · refine ⟨by decide, fun hhead => ?_⟩
      have hlist := hcons.lists 0 (by decide)
      have hmem : ∀ c ∈ L 0, c = addrOf (buddy 1024 ⟨0, 1024⟩) := by
        intro c hc
        have hin : blockAt 0 c ∈ blocksOf L := blockAt_mem_blocksOf (by decide) hc
        rw [hL] at hin
        rw [← addrOf_blockAt (l := 0) (hlist.page_dvd hc), hin]
        decide
      have hne : s.head 0 ≠ 0 := by
        rw [hhead]
        decide
      have hself := hmem _ (hlist.reach_iff.1 ⟨hne, 1, rfl⟩)
      change s.nextOf (s.head 0) = _ at hself
      rwa [hhead] at hself
    · rcases hrest.cases with rfl | ⟨hup, -⟩
      · exact absurd hC hmerged
      · exact absurd hup hmerged
  exact ⟨s, L, s', hcons, hfree, hout, hrun, hpages⟩

/-- Freeing one of two largest blocks while the other is free loses both. -/
theorem free_drops_largest :
    ∃ s L s', Consistent .aarch64 s L ∧ 2 ^ (BLOCK_LEVELS - 1) ∣ s.basePage ∧
      Outstanding .aarch64 s L ⟨10, 1024⟩ ∧
      free .aarch64 s (addrOf ⟨10, 1024⟩) (2 ^ 10) = .ok s' ∧
      freePages s' ≠ freePages s ∪ pagesAt (addrOf ⟨10, 1024⟩) (2 ^ 10) := by
  obtain ⟨s, L, hsame, hcons, hL⟩ := exists_oneFree (D := ⟨10, 2048⟩) (by decide) (by decide)
    (by decide) (by decide)
  have hbase : s.basePage = 1024 := hsame.basePage
  have hdvd : 2 ^ (BLOCK_LEVELS - 1) ∣ s.basePage := by
    rw [hbase]
    decide
  have hout : Outstanding .aarch64 s L ⟨10, 1024⟩ := by
    refine ⟨⟨by decide, hbase.le, ?_⟩, by decide, hsame.inside.2 (by decide), by decide, ?_, ?_⟩
    · rw [hL]
      rintro C rfl p hp hpC
      rw [mem_pages] at hp hpC
      simp only at hp hpC
      omega
    · rw [hsame.allocMem]
      decide
    · rw [hsame.freeMem]
      decide
  obtain ⟨s', hrun, hlists⟩ := hcons.free_ok hout fun C _ _ hlt =>
    evenStart_of_dvd hdvd (Nat.lt_of_succ_lt_succ hlt)
  refine ⟨s, L, s', hcons, hdvd, hout, hrun, ?_⟩
  have hdrop := mergeLists_drop (C := ⟨10, 1024⟩) (b := s.basePage) (n := 1)
    (pageLists_of_listAt hcons.lists) rfl (Climb.refl _ _ _) (by rw [hL, hbase]; decide) rfl
  intro heq
  have hp : 1024 ∈ freePages s' := by
    rw [heq]
    exact Or.inr ⟨by decide, by decide⟩
  rw [freePages, WellFormed.freeBlocks_eq hlists] at hp
  obtain ⟨C, hC, hpC⟩ := hp
  exact hout.hand.apart C (hdrop hC) 1024 (Block.page_mem_pages _) hpC

end Buddy
end Propeller
