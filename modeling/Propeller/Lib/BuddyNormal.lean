import Propeller.Lib.BuddyStore

/-!
# BuddyNormal — the store returns to its normal form

While blocks are taken from a store `F` and returned to it, `Whole b top U F O` holds of the store and
of the set `O` of blocks that are out: together they tile `U`, the store is coalesced, and no aligned
block is cut at a level whose pairs, counted from the origin `b`, are not the halves of aligned blocks.
Taking a block keeps it as long as only evenly paired levels are cut (`Whole.split`), returning one as
long as only such levels are merged and the climb stops in time (`Whole.merge`).  Once nothing is out,
the store is the coalesced tiling of `U`, of which there is only one (`Whole.eq_of_none_out`).
-/

namespace Propeller
namespace Block

variable {b n k top : Nat} {B C D : Block} {F O : Set Block} {U : Set Nat}

/-! ## Where a climb ends -/

/-- A climb that stops in time ends with one new block: it lies over the returned one and over every
block that is gone. -/
theorem mergeInto_spec (hb : b ≤ B.page) (hn : 0 < n)
    (hstop : ∀ C, Climb b (fun E => buddy b E ∈ F) B C → buddy b C ∈ F →
      C.level + 1 < B.level + n) :
    ∃ D ∈ mergeInto b n B F, Climb b (fun E => buddy b E ∈ F) B D ∧ buddy b D ∉ F ∧
      B.pages ⊆ D.pages ∧ (∀ C ∈ mergeInto b n B F, C = D ∨ C ∈ F) ∧
      ∀ C ∈ F, C ∈ mergeInto b n B F ∨ C.pages ⊆ D.pages := by
  -- By the number of rounds; a round takes the buddy out of the store and goes on with the merged block.
  induction n generalizing B F with
  | zero => omega
  | succ n ih =>
      by_cases hbuddy : buddy b B ∈ F
      · have hlt := hstop B (Climb.refl b _ B) hbuddy
        obtain ⟨D, hD, hclimb, hnot, hover, hnew, hold⟩ := ih (B := merged b B)
          (F := F \ {buddy b B}) (le_merged_page hb) (by omega) <| by
            intro C hC hmem
            have := hstop C (Climb.of_merged hbuddy hC) hmem.1
            rw [merged_level]
            omega
        have hmerge : mergeInto b (n + 1) B F = mergeInto b n (merged b B) (F \ {buddy b B}) :=
          if_pos hbuddy
        rw [pages_merged hb, Set.union_subset_iff] at hover
        rw [hmerge]
        refine ⟨D, hD, Climb.of_merged hbuddy hclimb, ?_, hover.1, ?_, ?_⟩
        · -- The buddy that was taken out is on a lower level than the one the climb ends with.
          intro hmem
          refine hnot ⟨hmem, ?_⟩
          intro heq
          have hlevel := congrArg Block.level heq
          have hle := hclimb.level_le
          rw [merged_level] at hle
          rw [buddy_level, buddy_level] at hlevel
          omega
        · intro C hC
          exact (hnew C hC).imp id fun h => h.1
        · intro C hC
          by_cases heq : C = buddy b B
          · exact Or.inr (heq ▸ hover.2)
          · exact hold C ⟨hC, heq⟩
      · have hmerge : mergeInto b (n + 1) B F = insert B F := if_neg hbuddy
        rw [hmerge]
        exact ⟨B, Or.inl rfl, Climb.refl b _ B, hbuddy, Set.Subset.rfl, fun C hC => hC,
          fun C hC => Or.inl (Or.inr hC)⟩

/-- Where the pairs start evenly, the halves of an aligned block are buddies. -/
theorem EvenStart.buddy_halves {l p : Nat} (heven : EvenStart b l) (hp : 2 ^ (l + 1) ∣ p)
    (hb : b ≤ p) : buddy b ⟨l, p⟩ = ⟨l, p + 2 ^ l⟩ ∧ buddy b ⟨l, p + 2 ^ l⟩ = ⟨l, p⟩ := by
  have hlow : (⟨l, p⟩ : Block).Aligned := Aligned.lower_half (p := p) hp
  have hupp : (⟨l, p + 2 ^ l⟩ : Block).Aligned := Aligned.upper_half (p := p) hp
  have hpos : 0 < 2 ^ l := Nat.two_pow_pos l
  obtain ⟨c, hc⟩ := heven
  have hnum := hlow.number_eq hb
  have hnum' := hupp.number_eq (show b ≤ p + 2 ^ l by omega)
  obtain ⟨q, rfl⟩ := hp
  have hdiv : 2 ^ (l + 1) * q / 2 ^ l = 2 * q := by
    rw [Nat.pow_succ, Nat.mul_assoc, Nat.mul_div_cancel_left _ hpos]
  have hdiv' : (2 ^ (l + 1) * q + 2 ^ l) / 2 ^ l = 2 * q + 1 := by
    rw [Nat.add_div_right _ hpos, hdiv]
  -- With an even start the lower half has an even number and the upper half an odd one.
  simp only [hc, hdiv, hdiv'] at hnum hnum'
  constructor
  · rcases buddy_cases (B := ⟨l, 2 ^ (l + 1) * q⟩) hb with ⟨-, hpage⟩ | ⟨hodd, -⟩
    · exact congrArg (Block.mk l) hpage
    · omega
  · rcases buddy_cases (B := ⟨l, 2 ^ (l + 1) * q + 2 ^ l⟩) (show b ≤ _ by simp only; omega) with
      ⟨heven', -⟩ | ⟨-, -, hpage⟩
    · omega
    · refine congrArg (Block.mk l) (Nat.add_right_cancel (m := 2 ^ l) ?_)
      exact hpage

theorem Climb.origin {P : Block → Prop} (h : Climb b P B C) (hb : b ≤ B.page) :
    b ≤ C.page := by
  induction h with
  | refl => exact hb
  | tail _ hstep ih =>
      rw [hstep.2]
      exact le_merged_page ih

/-! ## The invariant -/

/-- The store `F` and the blocks `O` that are out tile `U`; the store is coalesced and nothing is cut at
an unevenly paired level. -/
structure Whole (b top : Nat) (U : Set Nat) (F O : Set Block) : Prop where
  tiling : Tiling (F ∪ O)
  level_le : ∀ B ∈ F ∪ O, B.level ≤ top
  origin : ∀ B ∈ F ∪ O, b ≤ B.page
  disjoint : ∀ B ∈ F, B ∉ O
  cover : cover (F ∪ O) = U
  coalesced : Coalesced top F
  uncut : ∀ l p, l < top → ¬ EvenStart b l → 2 ^ (l + 1) ∣ p →
    (⟨l + 1, p⟩ : Block).pages ⊆ U → ∃ C ∈ F ∪ O, (⟨l + 1, p⟩ : Block).pages ⊆ C.pages

namespace Whole

theorem pages_subset (h : Whole b top U F O) (hB : B ∈ F ∪ O) : B.pages ⊆ U := fun _ hp =>
  h.cover ▸ ⟨B, hB, hp⟩

theorem inHand (h : Whole b top U F O) (hB : B ∈ O) : InHand b F B := by
  refine ⟨h.tiling.aligned B (Or.inr hB), h.origin B (Or.inr hB), ?_⟩
  intro C hC p hp hpC
  have heq := h.tiling.disjoint C (Or.inl hC) B (Or.inr hB) p hpC hp
  exact h.disjoint C hC (heq ▸ hB)

/-- A coalesced tiling with nothing out. -/
theorem of_coalesced (hF : Tiling F) (hl : ∀ B ∈ F, B.level ≤ top) (ho : ∀ B ∈ F, b ≤ B.page)
    (hcover : Propeller.cover F = U) (hco : Coalesced top F) : Whole b top U F ∅ := by
  refine ⟨?_, ?_, ?_, fun _ _ => Set.notMem_empty _, ?_, hco, ?_⟩
  · rwa [Set.union_empty]
  · rwa [Set.union_empty]
  · rwa [Set.union_empty]
  · rwa [Set.union_empty]
  · intro l p hlt _ hp hsub
    rw [Set.union_empty]
    exact hF.exists_superblock hco hlt hp (hcover ▸ hsub)

/-- With nothing out the store is determined by what it covers. -/
theorem eq_of_none_out {G : Set Block} (hF : Whole b top U F ∅) (hG : Whole b top U G ∅) :
    F = G := by
  have hFt := hF.tiling
  have hGt := hG.tiling
  have hFc := hF.cover
  have hGc := hG.cover
  have hFl := hF.level_le
  have hGl := hG.level_le
  rw [Set.union_empty] at hFt hGt hFc hGc hFl hGl
  exact hFt.eq_of_cover_eq hGt hF.coalesced hG.coalesced hFl hGl (hFc.trans hGc.symm)

/-! ## Taking a block -/

theorem union_split (h : Whole b top U F O) (hB : B ∈ F) :
    splitInto k B F ∪ insert ⟨k, B.page⟩ O = insert ⟨k, B.page⟩ (splitInto k B (F ∪ O)) := by
  have hBO := h.disjoint B hB
  ext C
  simp only [splitInto, Set.mem_union, Set.mem_sdiff, Set.mem_insert_iff, Set.mem_singleton_iff]
  constructor
  · rintro ((⟨hC, hne⟩ | hC) | (hC | hC))
    · exact Or.inr (Or.inl ⟨Or.inl hC, hne⟩)
    · exact Or.inr (Or.inr hC)
    · exact Or.inl hC
    · refine Or.inr (Or.inl ⟨Or.inr hC, ?_⟩)
      rintro rfl
      exact hBO hC
  · rintro (hC | ⟨hC | hC, hne⟩ | hC)
    · exact Or.inr (Or.inl hC)
    · exact Or.inl (Or.inl ⟨hC, hne⟩)
    · exact Or.inr (Or.inr hC)
    · exact Or.inl (Or.inr hC)

/-- Cutting a block gives no two halves of an aligned block to the store. -/
theorem coalesced_split (h : Whole b top U F O) (hB : B ∈ F) :
    Coalesced top (splitInto k B F) := by
  rintro l q hl hq ⟨hlow, hupp⟩
  have hFt : Tiling F := h.tiling.mono Set.subset_union_left
  have hal := hFt.aligned B hB
  -- A half that was cut off is an upper half, and its lower half is part of the block.
  have hodd : ∀ m, m < B.level → ¬ 2 ^ (m + 1) ∣ B.page + 2 ^ m := by
    intro m hm hdvd
    have hB' : 2 ^ (m + 1) ∣ B.page := (Nat.pow_dvd_pow 2 hm).trans hal
    have hself : 2 ^ (m + 1) ∣ 2 ^ m := (Nat.dvd_add_right hB').1 hdvd
    have hle := Nat.le_of_dvd (Nat.two_pow_pos m) hself
    have hlt : 2 ^ m < 2 ^ (m + 1) := Nat.pow_lt_pow_right (by decide) (by omega)
    omega
  rcases hlow with hlow | ⟨m, -, hm, heq⟩
  · rcases hupp with hupp | ⟨m, -, hm, heq⟩
    · exact h.coalesced l q hl hq ⟨hlow.1, hupp.1⟩
    · obtain ⟨rfl, hpage⟩ := Block.mk.inj heq
      have hqB : q = B.page := by omega
      subst hqB
      refine hlow.2 (hFt.disjoint _ hlow.1 B hB B.page ?_ B.page_mem_pages)
      exact page_mem_pages (⟨l, B.page⟩ : Block)
  · obtain ⟨rfl, rfl⟩ := Block.mk.inj heq
    exact hodd l hm hq

/-- An aligned block that no cut can divide lies in one piece of a block that is cut. -/
theorem uncut_split {X : Block} (hB : B.Aligned) (hX : X.Aligned) (hk : k ≤ B.level)
    (hXk : X.level ≤ k) (hsub : X.pages ⊆ B.pages) :
    ∃ C ∈ insert ⟨k, B.page⟩ (upperHalves k B), X.pages ⊆ C.pages := by
  rcases (mem_pages_iff_upperHalves hk).1 (hsub X.page_mem_pages) with hp | ⟨C, hC, hp⟩
  · refine ⟨_, Or.inl rfl, hX.subset ?_ hXk X.page_mem_pages hp⟩
    exact (Nat.pow_dvd_pow 2 hk).trans hB
  · refine ⟨C, Or.inr hC, hX.subset ((upperHalves_tiling hB k).aligned C hC) ?_ X.page_mem_pages hp⟩
    obtain ⟨l, hkl, -, rfl⟩ := hC
    exact hXk.trans hkl

/-- Taking a block keeps the invariant when only evenly paired levels are cut. -/
theorem split (h : Whole b top U F O) (hB : B ∈ F) (hk : k ≤ B.level)
    (heven : ∀ l, k ≤ l → l < B.level → EvenStart b l) :
    Whole b top U (splitInto k B F) (insert ⟨k, B.page⟩ O) := by
  have hBG : B ∈ F ∪ O := Or.inl hB
  have hal := h.tiling.aligned B hBG
  have hlB := h.level_le B hBG
  have hoB := h.origin B hBG
  have hunion := h.union_split (k := k) hB
  have hfirst := inHand_splitInto h.tiling hBG hoB hk
  -- Every block of the new tiling is an old one or a piece.
  have hcases : ∀ C ∈ splitInto k B F ∪ insert ⟨k, B.page⟩ O,
      C ∈ (F ∪ O) \ {B} ∨ C ∈ insert ⟨k, B.page⟩ (upperHalves k B) := by
    rw [hunion]
    rintro C (hC | hC | hC)
    · exact Or.inr (Or.inl hC)
    · exact Or.inl hC
    · exact Or.inr (Or.inr hC)
  have hpiece : ∀ C ∈ insert ⟨k, B.page⟩ (upperHalves k B), C.level ≤ B.level ∧ B.page ≤ C.page := by
    rintro C (rfl | ⟨l, -, hl, rfl⟩)
    · exact ⟨hk, le_rfl⟩
    · exact ⟨hl.le, Nat.le_add_right _ _⟩
  refine ⟨?_, ?_, ?_, ?_, ?_, h.coalesced_split hB, ?_⟩
  · rw [hunion]
    exact (splitInto_tiling h.tiling hBG).insert hfirst.aligned hfirst.apart
  · intro C hC
    rcases hcases C hC with hC | hC
    · exact h.level_le C hC.1
    · exact (hpiece C hC).1.trans hlB
  · intro C hC
    rcases hcases C hC with hC | hC
    · exact h.origin C hC.1
    · exact hoB.trans (hpiece C hC).2
  · intro C hC hCO
    have hinF := inHand_splitInto (k := k) (h.tiling.mono Set.subset_union_left) hB hoB hk
    rcases hCO with rfl | hCO
    · exact hinF.not_mem hC
    · rcases hC with hC | hC
      · exact h.disjoint C hC.1 hCO
      · have heq := h.tiling.disjoint C (Or.inr hCO) B hBG C.page C.page_mem_pages
          (upperHalves_subset hC C.page_mem_pages)
        exact h.disjoint B hB (heq ▸ hCO)
  · rw [hunion, cover_insert, cover_splitInto hBG hk]
    exact h.cover
  · intro l p hl hodd hp hsub
    obtain ⟨C, hC, hCsub⟩ := h.uncut l p hl hodd hp hsub
    rw [hunion]
    by_cases hCB : C = B
    · subst hCB
      -- The level of the block is not cut, so it is at most `k`.
      have hlt : l < C.level := level_le_of_subset hCsub
      have hlk : l + 1 ≤ k := by
        by_contra hgt
        exact hodd (heven l (by omega) hlt)
      obtain ⟨E, hE, hEsub⟩ := uncut_split (X := ⟨l + 1, p⟩) hal hp hk hlk hCsub
      refine ⟨E, ?_, hEsub⟩
      rcases hE with hE | hE
      · exact Or.inl hE
      · exact Or.inr (Or.inr hE)
    · exact ⟨C, Or.inr (Or.inl ⟨hC, hCB⟩), hCsub⟩

/-! ## Returning a block -/

/-- The halves of an aligned block are not a member of the store and a block that is out. -/
theorem not_halves (h : Whole b top U F O) {l p : Nat} (hl : l < top) (hodd : ¬ EvenStart b l)
    (hp : 2 ^ (l + 1) ∣ p) (hsub : (⟨l + 1, p⟩ : Block).pages ⊆ U) {E : Block} (hE : E ∈ F)
    (hlevel : E.level = l) (hEsub : E.pages ⊆ (⟨l + 1, p⟩ : Block).pages) : False := by
  obtain ⟨C, hC, hCsub⟩ := h.uncut l p hl hodd hp hsub
  have heq : E = C := h.tiling.disjoint E (Or.inl hE) C hC E.page E.page_mem_pages
    (hCsub (hEsub E.page_mem_pages))
  subst heq
  -- The block would be no longer than one of its halves.
  have hle := level_le_of_subset hCsub
  rw [hlevel] at hle
  exact Nat.not_succ_le_self l hle

/-- A block that is added without its buddy gives no two halves of an aligned block to the store. -/
theorem coalesced_merge {F' : Set Block} {D : Block} (h : Whole b top U F O) (hoD : b ≤ D.page) (hDU : D.pages ⊆ U)
    (hDnot : buddy b D ∉ F) (hnew : ∀ C ∈ F', C = D ∨ C ∈ F) : Coalesced top F' := by
  rintro l q hl hq ⟨hlow, hupp⟩
  -- One of the halves is the block the climb ended with.
  have hhalf : ∀ E E' : Block, E' ∈ F → E.level = l →
      E'.level = l → E.pages ⊆ (⟨l + 1, q⟩ : Block).pages →
      E'.pages ⊆ (⟨l + 1, q⟩ : Block).pages → (⟨l + 1, q⟩ : Block).pages ⊆ E.pages ∪ E'.pages →
      (EvenStart b l → buddy b E = E') → E = D → False := by
    intro E E' hE' hEl hE'l hEsub hE'sub hpages hbud hED
    subst hED
    by_cases heven : EvenStart b l
    · exact hDnot (hbud heven ▸ hE')
    · refine h.not_halves hl heven hq ?_ hE' hE'l hE'sub
      intro p hp
      rcases hpages hp with hp | hp
      · exact hDU hp
      · exact h.pages_subset (Or.inl hE') hp
  have hsplit : (⟨l + 1, q⟩ : Block).pages =
      (⟨l, q⟩ : Block).pages ∪ (⟨l, q + 2 ^ l⟩ : Block).pages := by
    ext p
    exact mem_pages_succ
  have hoq : b ≤ q := by
    rcases hnew _ hlow with heq | hF
    · rwa [← heq] at hoD
    · exact h.origin _ (Or.inl hF)
  rcases hnew _ hlow with hlowD | hlowF
  · rcases hnew _ hupp with huppD | huppF
    · have heq := Block.mk.inj (hlowD.trans huppD.symm)
      have := Nat.two_pow_pos l
      omega
    · refine hhalf _ _ huppF rfl rfl ?_ ?_ hsplit.subset
        (fun heven => (heven.buddy_halves hq hoq).1) hlowD
      · rw [hsplit]
        exact Set.subset_union_left
      · rw [hsplit]
        exact Set.subset_union_right
  · rcases hnew _ hupp with huppD | huppF
    · refine hhalf _ _ hlowF rfl rfl ?_ ?_ ?_
        (fun heven => (heven.buddy_halves hq hoq).2) huppD
      · rw [hsplit]
        exact Set.subset_union_right
      · rw [hsplit]
        exact Set.subset_union_left
      · rw [hsplit, Set.union_comm]
    · exact h.coalesced l q hl hq ⟨hlowF, huppF⟩

/-- Returning a block keeps the invariant when only evenly paired levels below the top are merged. -/
theorem merge (h : Whole b top U F O) (hB : B ∈ O)
    (hclimb : ∀ C, Climb b (fun E => buddy b E ∈ F) B C → buddy b C ∈ F →
      C.level < top ∧ EvenStart b C.level) :
    Whole b top U (mergeInto b (top + 1 - B.level) B F) (O \ {B}) := by
  have hBG : B ∈ F ∪ O := Or.inr hB
  have hlB := h.level_le B hBG
  have hoB := h.origin B hBG
  have hFt : Tiling F := h.tiling.mono Set.subset_union_left
  have hhand := h.inHand hB
  have hstop : ∀ C, Climb b (fun E => buddy b E ∈ F) B C → buddy b C ∈ F →
      C.level + 1 < B.level + (top + 1 - B.level) := by
    intro C hC hmem
    have := (hclimb C hC hmem).1
    omega
  have hcover := cover_mergeInto hoB (show 0 < top + 1 - B.level by omega) hstop
  have hF't : Tiling (mergeInto b (top + 1 - B.level) B F) :=
    mergeInto_tiling hFt hhand fun C hC hmem _ => (hclimb C hC hmem).2
  obtain ⟨D, hD, hDclimb, hDnot, hover, hnew, hold⟩ :=
    mergeInto_spec hoB (show 0 < top + 1 - B.level by omega) hstop
  have hDU : D.pages ⊆ U := by
    intro p hp
    have hpc : p ∈ Propeller.cover F ∪ B.pages := hcover ▸ ⟨D, hD, hp⟩
    rcases hpc with ⟨C, hC, hpC⟩ | hpB
    · exact h.pages_subset (Or.inl hC) hpC
    · exact h.pages_subset hBG hpB
  have hDlevel : D.level ≤ top := by
    rcases mem_mergeInto hD with hDF | ⟨-, -, hlt⟩
    · exact h.level_le D (Or.inl hDF)
    · omega
  -- A block of the new store and one that is still out share no page.
  have hapart : ∀ C ∈ mergeInto b (top + 1 - B.level) B F, ∀ E ∈ O \ {B}, ∀ p,
      p ∈ C.pages → p ∉ E.pages := by
    intro C hC E hE p hpC hpE
    have hpc : p ∈ Propeller.cover F ∪ B.pages := hcover ▸ ⟨C, hC, hpC⟩
    rcases hpc with ⟨G, hG, hpG⟩ | hpB
    · exact (h.inHand hE.1).apart G hG p hpE hpG
    · exact hE.2 (h.tiling.disjoint E (Or.inr hE.1) B hBG p hpE hpB)
  refine ⟨hF't.union (h.tiling.mono fun C hC => Or.inr hC.1) hapart, ?_, ?_, ?_, ?_, ?_, ?_⟩
  · rintro C (hC | hC)
    · rcases hnew C hC with rfl | hC
      · exact hDlevel
      · exact h.level_le C (Or.inl hC)
    · exact h.level_le C (Or.inr hC.1)
  · rintro C (hC | hC)
    · rcases hnew C hC with rfl | hC
      · exact hDclimb.origin hoB
      · exact h.origin C (Or.inl hC)
    · exact h.origin C (Or.inr hC.1)
  · intro C hC hCO
    exact hapart C hC C hCO C.page C.page_mem_pages C.page_mem_pages
  · rw [cover_union, hcover, Set.union_assoc, Set.union_comm B.pages, cover_erase_union hB, ← cover_union]
    exact h.cover
  · exact h.coalesced_merge (hDclimb.origin hoB) hDU hDnot hnew
  · intro l p hl hodd hp hsub
    obtain ⟨C, hC, hCsub⟩ := h.uncut l p hl hodd hp hsub
    rcases hC with hC | hC
    · rcases hold C hC with hC | hCD
      · exact ⟨C, Or.inl hC, hCsub⟩
      · exact ⟨D, Or.inl hD, hCsub.trans hCD⟩
    · by_cases hCB : C = B
      · subst hCB
        exact ⟨D, Or.inl hD, hCsub.trans hover⟩
      · exact ⟨C, Or.inr ⟨hC, hCB⟩, hCsub⟩

end Whole

end Block
end Propeller
