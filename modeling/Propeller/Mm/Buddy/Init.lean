import Propeller.Mm.Buddy.Consistent

/-!
# Buddy.Init — the allocator that `new` builds

`init_metadata` cuts each available range greedily into the largest blocks that are aligned and fit.
`new_spec` says what comes out: a consistent allocator whose blocks cover exactly the whole pages of the
available ranges, each of them cut greedily (`Greedy`), so that no two of one range could be merged.
-/

namespace Propeller
namespace Buddy

variable {A : Arch} {s s' : State} {l n pn addr remaining fuel : Nat} {B C : Block}
  {L : Nat → List Nat} {r : MemoryRange} {avail : List MemoryRange}

open Block

/-- The whole pages of an available range. -/
def rangePages (r : MemoryRange) : Set Nat :=
  Set.Ico (r.base / pageSize) (r.base / pageSize + r.size / pageSize)

/-- The whole pages of the available ranges. -/
def availPages (avail : List MemoryRange) : Set Nat :=
  {p | ∃ r ∈ avail, p ∈ rangePages r}

/-- The block is as large as its alignment and the end of its range allow. -/
def Greedy (stop : Nat) (B : Block) : Prop :=
  B.level + 1 < BLOCK_LEVELS → 2 ^ (B.level + 1) ∣ B.page → stop < B.page + 2 ^ (B.level + 1)

/-! ## One block -/

/-- The level that `init_metadata` chooses at page `pn` with `n` pages left. -/
def tileLevel (A : Arch) (pn n : Nat) : Nat :=
  min (floorLog2 A n) (min (floorLog2 A (leastSignificantBit A pn)) (BLOCK_LEVELS - 1))

theorem tileLevel_spec (hpn : 0 < pn) (hpn' : pn < A.wordLimit) (hn : 0 < n)
    (hn' : n < A.wordLimit) :
    tileLevel A pn n < BLOCK_LEVELS ∧ (⟨tileLevel A pn n, pn⟩ : Block).Aligned ∧
      2 ^ tileLevel A pn n ≤ n ∧ Greedy (pn + n) ⟨tileLevel A pn n, pn⟩ := by
  obtain ⟨j, hlsb, hdvd, hndvd⟩ := leastSignificantBit_spec hpn hpn'
  have hj : 2 ^ j < A.wordLimit := (Nat.le_of_dvd hpn hdvd).trans_lt hpn'
  have hlevel : tileLevel A pn n = min n.log2 (min j (BLOCK_LEVELS - 1)) := by
    rw [tileLevel, floorLog2_eq hn', hlsb, floorLog2_eq hj, Nat.log2_two_pow]
  have hlog := Nat.log2_self_le hn.ne'
  have hlog' := Nat.lt_log2_self (n := n)
  rw [hlevel]
  refine ⟨by simp only [BLOCK_LEVELS]; omega, ?_, ?_, ?_⟩
  · exact (Nat.pow_dvd_pow 2 ((Nat.min_le_right _ _).trans (Nat.min_le_left _ _))).trans hdvd
  · exact (Nat.pow_le_pow_right (by decide) (Nat.min_le_left _ _)).trans hlog
  · intro hlt hmore
    simp only at hlt hmore ⊢
    -- A doubled block would be aligned, so the choice was limited by the pages left.
    have hle : min n.log2 (min j (BLOCK_LEVELS - 1)) + 1 ≤ j := by
      by_contra hgt
      exact hndvd ((Nat.pow_dvd_pow 2 (by omega)).trans hmore)
    have hmin : min n.log2 (min j (BLOCK_LEVELS - 1)) = n.log2 := by omega
    rw [hmin]
    omega

/-! ## One range -/

/-- What the tiling loop adds for the `n` pages from `pn` on. -/
structure Tiled (A : Arch) (s s' : State) (L L' : Nat → List Nat) (pn n : Nat) : Prop where
  consistent : Consistent A s' L'
  same : SameTotals s s'
  cover : cover (blocksOf L') = cover (blocksOf L) ∪ Set.Ico pn (pn + n)
  greedy : ∀ B ∈ blocksOf L', B ∈ blocksOf L ∨ B.pages ⊆ Set.Ico pn (pn + n) ∧ Greedy (pn + n) B
  weight : weight L' = weight L + n

/-- One block followed by the tiling of the rest. -/
theorem Tiled.step {s₁ : State} {L' : Nat → List Nat} (hl : B.level < BLOCK_LEVELS)
    (hfit : 2 ^ B.level ≤ n) (hgreedy : Greedy (B.page + n) B) (hsame : SameTotals s s₁)
    (h : Tiled A s₁ s' (Function.update L B.level (L B.level ++ [addrOf B])) L'
      (B.page + 2 ^ B.level) (n - 2 ^ B.level)) : Tiled A s s' L L' B.page n := by
  have hset := blocksOf_append (L := L) hl
  have hstop : B.page + 2 ^ B.level + (n - 2 ^ B.level) = B.page + n := by omega
  -- The block is the first part of the range, and the rest tiles what is behind it.
  have hrange : B.pages ∪ Set.Ico (B.page + 2 ^ B.level) (B.page + n) =
      Set.Ico B.page (B.page + n) :=
    Set.Ico_union_Ico_eq_Ico (Nat.le_add_right _ _) (by omega)
  refine ⟨h.consistent, hsame.trans h.same, ?_, ?_, ?_⟩
  · rw [h.cover, hset, cover_insert, hstop, Set.union_assoc, hrange]
  · intro C hC
    rcases h.greedy C hC with hC | ⟨hsub, hgr⟩
    · rw [hset] at hC
      rcases hC with rfl | hC
      · exact Or.inr ⟨fun p hp => hrange ▸ Or.inl hp, hgreedy⟩
      · exact Or.inl hC
    · rw [hstop] at hsub hgr
      exact Or.inr ⟨fun p hp => hrange ▸ Or.inr (hsub hp), hgr⟩
  · have hw := weight_update L (L B.level ++ [addrOf B]) hl
    rw [List.length_append, List.length_singleton, Nat.mul_add, Nat.mul_one] at hw
    rw [h.weight]
    omega

/-- The loop adds a block of the chosen level and goes on behind it. -/
theorem initRange_succ (hmore : pageSize ≤ remaining)
    (hrun : initRange A (fuel + 1) addr remaining s = .ok s') :
    ∃ s₁, addToList A s (tileLevel A (addr / pageSize) (remaining / pageSize)) addr = .ok s₁ ∧
      initRange A fuel
        (addr + 2 ^ tileLevel A (addr / pageSize) (remaining / pageSize) * pageSize)
        (remaining - 2 ^ tileLevel A (addr / pageSize) (remaining / pageSize) * pageSize) s₁ =
          .ok s' := by
  have hshift : ∀ x, x >>> pageShift = x / pageSize := by
    intro x
    rw [Nat.shiftRight_eq_div_pow, pageSize_eq]
  have hsize : ∀ l, (1 <<< l) <<< pageShift = 2 ^ l * pageSize := by
    intro l
    rw [Nat.one_shiftLeft, Nat.shiftLeft_eq, pageSize_eq]
  rw [initRange, if_neg (Nat.not_lt.2 hmore)] at hrun
  obtain ⟨s₁, hadd, hrun⟩ := run_bind_eq_ok.1 hrun
  obtain ⟨addr', haddr', hrun⟩ := run_bind_eq_ok.1 hrun
  obtain ⟨remaining', hrem', hrun⟩ := run_bind_eq_ok.1 hrun
  obtain ⟨-, rfl⟩ := checkedAdd_eq_ok.1 haddr'
  obtain ⟨-, rfl⟩ := checkedSub_eq_ok.1 hrem'
  simp only [hshift, hsize] at hadd hrun
  exact ⟨s₁, hadd, hrun⟩

theorem initRange_spec (h : Consistent A s L) (hrun : initRange A fuel addr remaining s = .ok s')
    (h0 : 0 < remaining / pageSize → addr / pageSize ≠ 0) (hlim : remaining < A.wordLimit)
    (hlo : s.basePage ≤ addr / pageSize)
    (hhi : addr / pageSize + remaining / pageSize ≤ s.basePage + s.size / pageSize)
    (hapart : ∀ C ∈ blocksOf L, ∀ p,
      p ∈ Set.Ico (addr / pageSize) (addr / pageSize + remaining / pageSize) → p ∉ C.pages) :
    ∃ L', Tiled A s s' L L' (addr / pageSize) (remaining / pageSize) := by
  -- One block a round, then the same for the pages behind it.
  induction fuel generalizing addr remaining s L with
  | zero => simp [initRange] at hrun
  | succ fuel ih =>
      by_cases hless : remaining < pageSize
      · rw [initRange, if_pos hless] at hrun
        cases hrun
        refine ⟨L, h, ⟨rfl, rfl, rfl, rfl⟩, ?_, fun B hB => Or.inl hB, ?_⟩
        · rw [Nat.div_eq_of_lt hless]
          simp
        · rw [Nat.div_eq_of_lt hless, Nat.add_zero]
      · have hmore := Nat.le_of_not_lt hless
        obtain ⟨s₁, hadd, hrun⟩ := initRange_succ hmore hrun
        have hnpos := Nat.div_pos hmore pageSize_pos
        replace h0 := h0 hnpos
        -- `add_to_list` has checked the alignment of the address.
        obtain ⟨-, hal, -⟩ := addToList_eq_ok.1 hadd
        obtain ⟨haddrlt, hdvd⟩ := page_aligned_iff.1 hal
        obtain ⟨hl, haligned, hfit, hgreedy⟩ := tileLevel_spec (A := A) (Nat.pos_of_ne_zero h0)
          ((Nat.div_le_self _ _).trans_lt haddrlt) hnpos ((Nat.div_le_self _ _).trans_lt hlim)
        generalize tileLevel A (addr / pageSize) (remaining / pageSize) = lev at *
        have hpage : (addr + 2 ^ lev * pageSize) / pageSize = addr / pageSize + 2 ^ lev :=
          Nat.add_mul_div_right _ _ pageSize_pos
        have hleft : (remaining - 2 ^ lev * pageSize) / pageSize = remaining / pageSize - 2 ^ lev := by
          rw [Nat.mul_comm, Nat.sub_mul_div]
        have haddr : addrOf ⟨lev, addr / pageSize⟩ = addr := Nat.div_mul_cancel hdvd
        generalize addr / pageSize = pn at *
        generalize remaining / pageSize = np at *
        have hpos : 0 < 2 ^ lev := Nat.two_pow_pos lev
        -- The block is apart from what is on the lists, so it can be added.
        have hhand : InHand s.basePage (blocksOf L) ⟨lev, pn⟩ := by
          refine ⟨haligned, hlo, fun C hC p hp => hapart C hC p ⟨hp.1, ?_⟩⟩
          exact hp.2.trans_le (Nat.add_le_add_left hfit pn)
        obtain ⟨s₂, hadd₂, hsame, hcons⟩ := h.add hhand hl
          ⟨hlo, (Nat.add_le_add_left hfit pn).trans hhi⟩ h0
        rw [haddr] at hadd₂
        obtain rfl : s₁ = s₂ := Except.ok.inj (hadd.symm.trans hadd₂)
        obtain ⟨L', hL'⟩ := ih hcons hrun (by omega) (by omega)
          (by rw [hsame.basePage]; omega) (by rw [hsame.basePage, hsame.size]; omega) <| by
            intro C hC p hp
            rw [hpage, hleft] at hp
            rw [blocksOf_append hl] at hC
            rcases hC with rfl | hC
            · intro hpC
              exact absurd hp.1 (Nat.not_le.2 hpC.2)
            · exact hapart C hC p ⟨(Nat.le_add_right _ _).trans hp.1, by have := hp.2; omega⟩
        rw [hpage, hleft] at hL'
        exact ⟨L', Tiled.step (B := ⟨lev, pn⟩) hl hfit hgreedy hsame hL'⟩

/-! ## All ranges -/

/-- The whole pages of a range lie in the area and leave out page zero. -/
structure RangeFits (A : Arch) (s : State) (r : MemoryRange) : Prop where
  size_lt : r.size < A.wordLimit
  lower : s.basePage ≤ r.base / pageSize
  upper : r.base / pageSize + r.size / pageSize ≤ s.basePage + s.size / pageSize
  page_ne : 0 < r.size / pageSize → r.base / pageSize ≠ 0

theorem RangeFits.same (h : RangeFits A s r) (hs : SameTotals s s') : RangeFits A s' r := by
  refine ⟨h.size_lt, ?_, ?_, h.page_ne⟩
  · rw [hs.basePage]
    exact h.lower
  · rw [hs.basePage, hs.size]
    exact h.upper

/-- A block of the range `r`, cut greedily. -/
def CutFrom (r : MemoryRange) (B : Block) : Prop :=
  B.pages ⊆ rangePages r ∧ Greedy (r.base / pageSize + r.size / pageSize) B

theorem availPages_cons (r : MemoryRange) (avail : List MemoryRange) :
    availPages (r :: avail) = rangePages r ∪ availPages avail := by
  ext p
  simp [availPages]

theorem initRanges_spec (h : Consistent A s L) (hrun : initRanges A avail s = .ok s')
    (hfits : ∀ r ∈ avail, RangeFits A s r)
    (hdisj : avail.Pairwise fun r r' => Disjoint (rangePages r) (rangePages r'))
    (hapart : ∀ C ∈ blocksOf L, ∀ r ∈ avail, ∀ p, p ∈ rangePages r → p ∉ C.pages) :
    ∃ L', Consistent A s' L' ∧ SameTotals s s' ∧
      cover (blocksOf L') = cover (blocksOf L) ∪ availPages avail ∧
      (∀ B ∈ blocksOf L', B ∈ blocksOf L ∨ ∃ r ∈ avail, CutFrom r B) ∧
      weight L' = weight L + (avail.map fun r => r.size / pageSize).sum := by
  -- Range by range; the blocks of a range stay apart from the ranges behind it.
  induction avail generalizing s L with
  | nil =>
      cases hrun
      refine ⟨L, h, ⟨rfl, rfl, rfl, rfl⟩, ?_, fun B hB => Or.inl hB, rfl⟩
      simp [availPages]
  | cons r rs ih =>
      obtain ⟨s₁, hrange, hrun⟩ := run_bind_eq_ok.1 hrun
      have hr := hfits r List.mem_cons_self
      obtain ⟨L₁, hL₁⟩ := initRange_spec h hrange hr.page_ne hr.size_lt hr.lower hr.upper
        (fun C hC => hapart C hC r List.mem_cons_self)
      obtain ⟨hfirst, hrest⟩ := List.pairwise_cons.1 hdisj
      obtain ⟨L', hcons, hsame, hcover, hcut, hweight⟩ := ih hL₁.consistent hrun
        (fun r' hr' => (hfits r' (List.mem_cons_of_mem _ hr')).same hL₁.same) hrest <| by
          intro C hC r' hr' p hp hpC
          rcases hL₁.greedy C hC with hC | ⟨hsub, -⟩
          · exact hapart C hC r' (List.mem_cons_of_mem _ hr') p hp hpC
          · exact Set.disjoint_left.1 (hfirst r' hr') (hsub hpC) hp
      refine ⟨L', hcons, hL₁.same.trans hsame, ?_, ?_, ?_⟩
      · rw [hcover, hL₁.cover, availPages_cons, Set.union_assoc]
        rfl
      · intro B hB
        rcases hcut B hB with hB | ⟨r', hr', hB⟩
        · exact (hL₁.greedy B hB).imp id fun hB => ⟨r, List.mem_cons_self, hB⟩
        · exact Or.inr ⟨r', List.mem_cons_of_mem _ hr', hB⟩
      · rw [hweight, hL₁.weight, List.map_cons, List.sum_cons, Nat.add_assoc]

/-! ## The whole constructor -/

/-- The validation loop accepts ranges inside the area and adds up their sizes. -/
theorem checkRanges_spec {base areaEnd acc freeMem : Nat}
    (h : checkRanges A base areaEnd avail acc = .ok (some freeMem)) :
    freeMem = acc + (avail.map MemoryRange.size).sum ∧ (acc < A.wordLimit → freeMem < A.wordLimit) ∧
      ∀ r ∈ avail, 1 ≤ r.size ∧ base ≤ r.base ∧ r.base + (r.size - 1) ≤ areaEnd := by
  induction avail generalizing acc with
  | nil =>
      cases h
      simp
  | cons r rs ih =>
      obtain ⟨last, hlast, h⟩ := run_bind_eq_ok.1 h
      obtain ⟨rangeEnd, hend, h⟩ := run_bind_eq_ok.1 h
      obtain ⟨hpos, rfl⟩ := checkedSub_eq_ok.1 hlast
      obtain ⟨-, rfl⟩ := checkedAdd_eq_ok.1 hend
      split at h
      · simp at h
      · rename_i hin
        obtain ⟨acc', hacc, h⟩ := run_bind_eq_ok.1 h
        obtain ⟨hlt, rfl⟩ := checkedAdd_eq_ok.1 hacc
        obtain ⟨hsum, hbound, hall⟩ := ih h
        refine ⟨?_, fun _ => hbound hlt, ?_⟩
        · rw [hsum, List.map_cons, List.sum_cons, Nat.add_assoc]
        · intro r' hr'
          rcases List.mem_cons.1 hr' with rfl | hr'
          · exact ⟨hpos, by omega, by omega⟩
          · exact hall r' hr'

/-- What `new` hands out: consistent lists over the pages of the available ranges. -/
structure Built (A : Arch) (s : State) (L : Nat → List Nat) (avail : List MemoryRange) : Prop where
  consistent : Consistent A s L
  cover : cover (blocksOf L) = availPages avail
  cut : ∀ B ∈ blocksOf L, ∃ r ∈ avail, CutFrom r B
  allocMem : s.allocMem = 0
  freeMem_lt : s.freeMem < A.wordLimit
  weight : weight L * pageSize ≤ s.freeMem

theorem alignUp_page_eq_ok {addr v : Nat} (h : alignUp A addr pageSize = .ok v) :
    v = (addr + (pageSize - 1)) / pageSize * pageSize := by
  have hk : pageShift ≤ A.wordBits := by cases A <;> decide
  obtain ⟨sum, hsum, hv⟩ := run_bind_eq_ok.1 h
  obtain ⟨hlt, rfl⟩ := checkedAdd_eq_ok.1 hsum
  cases hv
  rw [pageSize_eq] at hlt ⊢
  exact and_wordNot_two_pow hlt hk

/-- The area `new` sets up and the run of `init_metadata` it starts. -/
theorem new_inv {cfg : KernelConfig} {base size metadata : Nat} {mem : Nat → BlockNode}
    (h : new A cfg base size metadata avail mem = .ok (some s)) :
    ∃ base' freeMem, alignUp A base pageSize = .ok base' ∧ base + size < A.wordLimit ∧
      base' + 1 ≤ base + size ∧
      checkRanges A base' (base + size - 1) avail 0 = .ok (some freeMem) ∧
      initRanges A avail (emptyArea A base'
        ((base + size - base') / pageSize * pageSize) 0 freeMem mem) = .ok s := by
  unfold new at h
  -- The checks of `new`, in order.
  by_cases h1 : getMaximumPhysicalAddress A cfg < base
  · simp [h1] at h
  rw [if_neg h1] at h
  obtain ⟨last, hlast, h⟩ := run_bind_eq_ok.1 h
  obtain ⟨hpos, rfl⟩ := checkedSub_eq_ok.1 hlast
  by_cases h2 : getMaximumPhysicalAddress A cfg - base < size - 1
  · simp [h2] at h
  rw [if_neg h2] at h
  obtain ⟨limit, hlimit, h⟩ := run_bind_eq_ok.1 h
  obtain ⟨hlt, rfl⟩ := checkedAdd_eq_ok.1 hlimit
  obtain ⟨base', hbase', h⟩ := run_bind_eq_ok.1 h
  obtain ⟨span, hspan, h⟩ := run_bind_eq_ok.1 h
  obtain ⟨hle, rfl⟩ := checkedSub_eq_ok.1 hspan
  by_cases h3 : alignDown A (base + size - 1 - base' + 1) pageSize < pageSize
  · simp [h3] at h
  by_cases h4 : metadata = 0
  · simp [h3, h4] at h
  by_cases h5 : avail.isEmpty = true
  · simp [h3, h4, h5] at h
  rw [if_neg h3, if_neg h4, if_neg h5] at h
  obtain ⟨_ | freeMem, hcheck, h⟩ := run_bind_eq_ok.1 h
  · simp at h
  obtain ⟨s', hinit, h⟩ := run_bind_eq_ok.1 h
  cases h
  refine ⟨base', freeMem, hbase', hlt, by omega, hcheck, ?_⟩
  -- The sizes as the source computes them.
  have hk : pageShift ≤ A.wordBits := by cases A <;> decide
  have hspan : base + size - 1 - base' + 1 = base + size - base' := by omega
  have hsize : alignDown A (base + size - 1 - base' + 1) pageSize =
      (base + size - base') / pageSize * pageSize := by
    rw [hspan, pageSize_eq]
    exact alignDown_eq (by omega) hk
  have hflags : ∀ n, (List.replicate (n <<< A.wordShift >>> A.wordShift) 0).map (fun _ => 0) =
      List.replicate n 0 := by
    intro n
    rw [Nat.shiftLeft_shiftRight, List.map_replicate]
  simp only [initMetadata, hsize, hflags] at hinit
  exact hinit

theorem sum_whole_pages_le (avail : List MemoryRange) :
    (avail.map fun r => r.size / pageSize).sum * pageSize ≤ (avail.map MemoryRange.size).sum := by
  induction avail with
  | nil => simp
  | cons r rs ih =>
      have hr := Nat.div_mul_le_self r.size pageSize
      simp only [List.map_cons, List.sum_cons, Nat.add_mul]
      omega

/-- The allocator that `new` builds over disjoint ranges without page zero. -/
theorem new_spec_weight {cfg : KernelConfig} {base size metadata : Nat} {mem : Nat → BlockNode}
    (h : new A cfg base size metadata avail mem = .ok (some s))
    (hdisj : avail.Pairwise fun r r' => Disjoint (rangePages r) (rangePages r'))
    (hzero : 0 ∉ availPages avail) :
    alignUp A base pageSize = .ok s.base ∧ ∃ L, Built A s L avail ∧
      weight L = (avail.map fun r => r.size / pageSize).sum ∧ s.freeMem = (avail.map MemoryRange.size).sum := by
  obtain ⟨base', freeMem, hbase', hlt, hle, hcheck, hinit⟩ := new_inv h
  obtain ⟨hsum, hbound, hranges⟩ := checkRanges_spec hcheck
  have hdvd : pageSize ∣ base' := by
    rw [alignUp_page_eq_ok hbase']
    exact Nat.dvd_mul_left _ _
  have hdiv := Nat.div_mul_le_self (base + size - base') pageSize
  have hlim : base' + (base + size - base') / pageSize * pageSize < A.wordLimit := by omega
  -- The area is empty at first, and the ranges were checked against it.
  have hempty := emptyArea_consistent (A := A) 0 freeMem mem hdvd hlim
  have hnone : blocksOf (fun _ => []) = ∅ := by
    ext C
    simp [blocksOf]
  have hfits : ∀ r ∈ avail, RangeFits A (emptyArea A base'
      ((base + size - base') / pageSize * pageSize) 0 freeMem mem) r := by
    intro r hr
    obtain ⟨hpos, hlo, hhi⟩ := hranges r hr
    refine ⟨by omega, Nat.div_le_div_right hlo, ?_, ?_⟩
    · have hend : (r.base + r.size) / pageSize ≤ (base' + (base + size - base')) / pageSize :=
        Nat.div_le_div_right (by omega)
      have hsplit : (base' + (base + size - base')) / pageSize =
          base' / pageSize + (base + size - base') / pageSize := by
        obtain ⟨q, hq⟩ := hdvd
        rw [hq, Nat.mul_add_div pageSize_pos, Nat.mul_div_cancel_left _ pageSize_pos]
      -- A range has at most the pages it covers in part.
      have hparts : r.base / pageSize + r.size / pageSize ≤ (r.base + r.size) / pageSize :=
        Nat.div_add_div_le_add_div
      simp only [State.basePage, emptyArea, Nat.mul_div_cancel _ pageSize_pos]
      rw [hsplit] at hend
      exact hparts.trans hend
    · intro hsize hpage
      exact hzero ⟨r, hr, hpage.le, by omega⟩
  obtain ⟨L, hcons, hsame, hcover, hcut, hweight⟩ := initRanges_spec hempty hinit hfits hdisj
    (by rw [hnone]; simp)
  have hw0 : weight (fun _ => []) = 0 := by simp [weight]
  have hfree : (emptyArea A base' ((base + size - base') / pageSize * pageSize) 0 freeMem
    mem).freeMem = freeMem := rfl
  rw [hw0, Nat.zero_add] at hweight
  rw [Nat.zero_add] at hsum
  refine ⟨hsame.base ▸ hbase', L, ⟨hcons, ?_, ?_, hsame.allocMem, ?_, ?_⟩, hweight, ?_⟩
  · rw [hcover, hnone]
    simp [Propeller.cover]
  · intro B hB
    rcases hcut B hB with hB | hB
    · rw [hnone] at hB
      exact hB.elim
    · exact hB
  · rw [hsame.freeMem]
    exact hbound (Nat.two_pow_pos _)
  · rw [hsame.freeMem, hfree, hweight, hsum]
    exact sum_whole_pages_le avail
  · rw [hsame.freeMem, hfree, hsum]

theorem new_spec {cfg : KernelConfig} {base size metadata : Nat} {mem : Nat → BlockNode}
    (h : new A cfg base size metadata avail mem = .ok (some s))
    (hdisj : avail.Pairwise fun r r' => Disjoint (rangePages r) (rangePages r'))
    (hzero : 0 ∉ availPages avail) :
    alignUp A base pageSize = .ok s.base ∧ ∃ L, Built A s L avail := by
  obtain ⟨hbase, L, hbuilt, -⟩ := new_spec_weight h hdisj hzero
  exact ⟨hbase, L, hbuilt⟩

/-- Ranges that share no byte. -/
def DisjointRanges (avail : List MemoryRange) : Prop :=
  avail.Pairwise fun r r' => r.base + r.size ≤ r'.base ∨ r'.base + r'.size ≤ r.base

theorem DisjointRanges.pages (h : DisjointRanges avail) :
    avail.Pairwise fun r r' => Disjoint (rangePages r) (rangePages r') := by
  refine h.imp ?_
  have key : ∀ r r' : MemoryRange, r.base + r.size ≤ r'.base →
      Disjoint (rangePages r) (rangePages r') := by
    intro r r' hle
    have hend : (r.base + r.size) / pageSize ≤ r'.base / pageSize := Nat.div_le_div_right hle
    have hparts : r.base / pageSize + r.size / pageSize ≤ (r.base + r.size) / pageSize :=
      Nat.div_add_div_le_add_div
    rw [Set.disjoint_left]
    intro p hp hp'
    exact absurd hp'.1 (Nat.not_le.2 (hp.2.trans_le (hparts.trans hend)))
  rintro r r' (hle | hle)
  · exact key r r' hle
  · exact (key r' r hle).symm

theorem alignUp_page_of_dvd {base v : Nat} (hdvd : pageSize ∣ base)
    (h : alignUp A base pageSize = .ok v) : v = base := by
  obtain ⟨q, rfl⟩ := hdvd
  rw [alignUp_page_eq_ok h, Nat.mul_add_div pageSize_pos, Nat.div_eq_of_lt (by decide), Nat.add_zero,
    Nat.mul_comm]

/-- A page-aligned area that does not start at zero has no page zero. -/
theorem zero_not_mem_availPages {cfg : KernelConfig} {base size metadata : Nat}
    {mem : Nat → BlockNode} (h : new A cfg base size metadata avail mem = .ok (some s))
    (hdvd : pageSize ∣ base) (hbase : base ≠ 0) : 0 ∉ availPages avail := by
  obtain ⟨base', freeMem, hbase', -, -, hcheck, -⟩ := new_inv h
  obtain rfl := alignUp_page_of_dvd hdvd hbase'
  rintro ⟨r, hr, hlo, -⟩
  have hle := ((checkRanges_spec hcheck).2.2 r hr).2.1
  have hpage : 0 < r.base / pageSize :=
    Nat.div_pos ((Nat.le_of_dvd (Nat.pos_of_ne_zero hbase) hdvd).trans hle) pageSize_pos
  exact absurd hlo (Nat.not_le.2 hpage)

/-! ## The flags -/

theorem addToList_flags_length {l a : Nat} {s₁ : State} (h : addToList A s l a = .ok s₁) :
    s₁.flags.length = s.flags.length := by
  obtain ⟨-, -, -, s₂, hrun, rfl⟩ := addToList_eq_ok.1 h
  rw [flagged, toggled, List.length_set, (linkBlock_frame hrun).1.flags]

theorem initRange_flags_length {fuel addr remaining : Nat} {s₁ : State}
    (h : initRange A fuel addr remaining s = .ok s₁) : s₁.flags.length = s.flags.length := by
  induction fuel generalizing addr remaining s with
  | zero => cases h
  | succ fuel ih =>
      rw [initRange] at h
      split at h
      · cases h
        rfl
      · obtain ⟨s₂, hadd, h⟩ := run_bind_eq_ok.1 h
        obtain ⟨_, -, h⟩ := run_bind_eq_ok.1 h
        obtain ⟨_, -, h⟩ := run_bind_eq_ok.1 h
        rw [ih h, addToList_flags_length hadd]

theorem initRanges_flags_length {s₁ : State} (h : initRanges A avail s = .ok s₁) :
    s₁.flags.length = s.flags.length := by
  induction avail generalizing s with
  | nil =>
      cases h
      rfl
  | cons r avail ih =>
      obtain ⟨s₂, hrange, h⟩ := run_bind_eq_ok.1 h
      rw [ih h, initRange_flags_length hrange]

/-- The flags of an allocator for whole pages take the metadata that is calculated for them. -/
theorem new_flags_bytes {cfg : KernelConfig} {base size metadata : Nat} {mem : Nat → BlockNode}
    (h : new A cfg base size metadata avail mem = .ok (some s)) (hbase : pageSize ∣ base)
    (hsize : pageSize ∣ size) : s.flags.length * A.wordBytes = calcMetadataSize A size := by
  obtain ⟨base', freeMem, hbase', -, -, -, hinit⟩ := new_inv h
  obtain rfl := alignUp_page_of_dvd hbase hbase'
  rw [Nat.add_sub_cancel_left, Nat.div_mul_cancel hsize] at hinit
  have hbytes : A.wordBytes = 2 ^ A.wordShift := by
    cases A <;> rfl
  have hlen : s.flags.length = (levelStart A size BLOCK_LEVELS).2 := by
    rw [initRanges_flags_length hinit]
    exact List.length_replicate
  rw [hlen, hbytes, calcMetadataSize, Nat.shiftLeft_eq]

end Buddy
end Propeller
