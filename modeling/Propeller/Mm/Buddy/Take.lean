import Propeller.Mm.Buddy.Allocate
import Propeller.Mm.Buddy.Consistent

/-!
# Buddy.Take — allocation from a consistent allocator

The blocks of a consistent allocator are aligned, so the bit that the splitting loop sets is clear and
the upper halves are the right ones.  On the books an allocation is `Block.splitInto`
(`allocate_books`), whatever the memory holds; from consistent lists it always returns
(`Consistent.allocate_ok`).
-/

namespace Propeller
namespace Buddy

variable {A : Arch} {s s' : State} {l m k n a lv addr pages : Nat} {B C : Block} {F : Set Block}
  {L : Nat → List Nat}

open Block

/-! ## Halves of aligned blocks -/

theorem upperHalf_addrOf (hB : B.Aligned) (hl : l < B.level) :
    upperHalf (addrOf B) l = addrOf ⟨l, B.page + 2 ^ l⟩ := by
  have hbit : B.page.testBit l = false := by
    obtain ⟨q, hq⟩ := hB
    rw [hq, Nat.testBit_two_pow_mul]
    simp [hl]
  have hdvd : pageSize ∣ addrOf B := Nat.dvd_mul_left _ _
  rw [upperHalf_eq hdvd, addrOf_div, or_two_pow, hbit]
  rfl

theorem splitBitsClear_of_aligned (hB : B.Aligned) (k : Nat) :
    SplitBitsClear (addrOf B) k B.level := by
  intro l _ hl
  obtain ⟨q, hq⟩ := hB
  rw [addrOf_div, hq, Nat.testBit_two_pow_mul]
  simp [hl]

theorem Inside.half (hB : Inside s B) (hl : l < B.level) : Inside s ⟨l, B.page + 2 ^ l⟩ := by
  have hpow : 2 ^ (l + 1) ≤ 2 ^ B.level := Nat.pow_le_pow_right (by decide) hl
  rw [Nat.pow_succ] at hpow
  have h1 := hB.1
  have h2 := hB.2
  refine ⟨?_, ?_⟩
  · simp only
    omega
  · simp only
    omega

/-! ## Allocation on the books -/

/-- The splitting loop adds the upper halves of the levels it runs over. -/
theorem splitLoop_books (h : Books A s F) (hB : B.Aligned) (hin : Inside s B)
    (hl : B.level < BLOCK_LEVELS) (hk : k + n ≤ B.level)
    (hnot : ∀ l, k ≤ l → l < k + n → (⟨l, B.page + 2 ^ l⟩ : Block) ∉ F)
    (hrun : splitLoop A (addrOf B) k n s = .ok s') :
    Books A s' (F ∪ {C | ∃ l, k ≤ l ∧ l < k + n ∧ C = ⟨l, B.page + 2 ^ l⟩}) ∧ SameTotals s s' := by
  -- From the largest half down; a round adds the half of level `k + n`.
  induction n generalizing s F with
  | zero =>
      cases hrun
      refine ⟨?_, rfl, rfl, rfl, rfl⟩
      have hnone : {C : Block | ∃ l, k ≤ l ∧ l < k + 0 ∧ C = ⟨l, B.page + 2 ^ l⟩} = ∅ := by
        ext C
        simp only [Set.mem_ofPred_eq, Set.mem_empty_iff_false, iff_false]
        rintro ⟨l, hlo, hhi, -⟩
        omega
      rw [hnone, Set.union_empty]
      exact h
  | succ n ih =>
      obtain ⟨s₁, hadd, hrest⟩ := run_bind_eq_ok.1 hrun
      have hlt : k + n < B.level := by omega
      have hhalf : (⟨k + n, B.page + 2 ^ (k + n)⟩ : Block).Aligned :=
        (upperHalves_tiling hB k).aligned _ ⟨k + n, by omega, hlt, rfl⟩
      have hadd' : addToList A s (k + n) (addrOf ⟨k + n, B.page + 2 ^ (k + n)⟩) = .ok s₁ := by
        rw [← upperHalf_addrOf hB hlt]
        exact hadd
      have hsame := addToList_sameTotals hadd'
      have hbooks := h.insert hhalf (hlt.trans hl) (hin.half hlt)
        (hnot (k + n) (by omega) (by omega)) hadd'
      have hstep := ih hbooks (hsame.inside.2 hin) (by omega) ?_ hrest
      · refine ⟨?_, hsame.trans hstep.2⟩
        have hset : insert (⟨k + n, B.page + 2 ^ (k + n)⟩ : Block) F ∪
              {C | ∃ l, k ≤ l ∧ l < k + n ∧ C = ⟨l, B.page + 2 ^ l⟩} =
            F ∪ {C | ∃ l, k ≤ l ∧ l < k + (n + 1) ∧ C = ⟨l, B.page + 2 ^ l⟩} := by
          ext C
          simp only [Set.mem_union, Set.mem_insert_iff, Set.mem_ofPred_eq]
          constructor
          · rintro ((rfl | hC) | ⟨l, hlo, hhi, rfl⟩)
            · exact Or.inr ⟨k + n, by omega, by omega, rfl⟩
            · exact Or.inl hC
            · exact Or.inr ⟨l, hlo, by omega, rfl⟩
          · rintro (hC | ⟨l, hlo, hhi, rfl⟩)
            · exact Or.inl (Or.inr hC)
            · rcases Nat.lt_or_eq_of_le (show l ≤ k + n by omega) with hlt' | rfl
              · exact Or.inr ⟨l, hlo, hlt', rfl⟩
              · exact Or.inl (Or.inl rfl)
        rw [← hset]
        exact hstep.1
      · rintro l hlo hhi (heq | hmem)
        · have := congrArg Block.level heq
          simp only at this
          omega
        · exact hnot l hlo (by omega) hmem

theorem splitLoop_sameTotals (h : splitLoop A a k n s = .ok s') : SameTotals s s' := by
  induction n generalizing s with
  | zero =>
      cases h
      exact ⟨rfl, rfl, rfl, rfl⟩
  | succ n ih =>
      obtain ⟨s₁, hadd, hrest⟩ := run_bind_eq_ok.1 h
      exact (addToList_sameTotals hadd).trans (ih hrest)

/-- An allocation takes a block of the set and returns all but its first pages. -/
theorem allocate_books (h : Books A s F) (hF : Tiling F)
    (hrun : allocate A s pages = .ok (some (addr, n), s')) :
    ∃ B ∈ F, ceilLog2 A pages ≤ B.level ∧ addr = addrOf B ∧ n = 2 ^ ceilLog2 A pages ∧
      Books A s' (splitInto (ceilLog2 A pages) B F) ∧ s'.base = s.base ∧ s'.size = s.size ∧
      n * pageSize ≤ s.freeMem ∧ s'.freeMem = s.freeMem - n * pageSize ∧
      s'.allocMem = s.allocMem + n * pageSize := by
  obtain ⟨-, hn, lv, s₁, s₂, hpop, rfl, hrem, hsplit, hfree, -, rfl⟩ := allocate_eq_some.1 hrun
  obtain ⟨B, hB, rfl, haddr⟩ := h.heads lv hpop.lt hpop.head
  rw [← haddr] at hrem hsplit
  have hsame₁ := removeFromList_sameTotals hrem
  have hbooks := h.erase hB hrem
  have hle := hpop.le
  -- The popped block is taken out of the books, and the halves that the split gives back go in.
  obtain ⟨hres, hsame₂⟩ := splitLoop_books hbooks (h.aligned B hB)
    (hsame₁.inside.2 (h.inside B hB)) (h.level_lt B hB) (by omega)
    (fun l _ hhi => half_not_mem hF hB (by omega)) hsplit
  have hsame := hsame₁.trans hsame₂
  rw [show ceilLog2 A pages + (B.level - ceilLog2 A pages) = B.level by omega] at hres
  refine ⟨B, hB, hle, haddr.symm, hn, hres.counters _ _, hsame.base, hsame.size, ?_, ?_, ?_⟩
  · rw [← hsame.freeMem]
    exact hfree
  · rw [← hsame.freeMem]
  · rw [← hsame.allocMem]

theorem allocate_none (hrun : allocate A s pages = .ok (none, s')) : s' = s := by
  by_cases h0 : pages = 0
  · rw [allocate, if_pos h0] at hrun
    cases hrun
    rfl
  · rw [allocate, if_neg h0] at hrun
    rcases popLevel_or_empty s (ceilLog2 A pages) with ⟨lv, hpop⟩ | hempty
    · simp only [allocateLoop_eq hpop, takeBlock, run_bind_eq_ok, run_pure_eq_ok] at hrun
      obtain ⟨_, -, _, -, _, -, hres⟩ := hrun
      simp at hres
    · simp only [allocateLoop_none hempty] at hrun
      cases hrun
      rfl

/-! ## Allocation from consistent lists -/

/-- The checks of `add_to_list` that do not depend on the list. -/
def CanAdd (A : Arch) (s : State) (l a : Nat) : Prop :=
  s.base ≤ a ∧ alignDown A a pageSize = a ∧ HasFlag A s l a

theorem CanAdd.edit {touched : Nat → Prop} (h : CanAdd A s l a) (hf : EditFrame s s' m touched) :
    CanAdd A s' l a := by
  refine ⟨hf.base ▸ h.1, h.2.1, ?_⟩
  have hnum : blockNum s' a l = blockNum s a l := by
    rw [blockNum, hf.base, blockNum]
  rw [HasFlag, hnum, hf.offset, hf.length]
  exact h.2.2

theorem Books.canAdd (h : Books A s F) (hl : B.level < BLOCK_LEVELS) (hin : Inside s B) :
    CanAdd A s B.level (addrOf B) :=
  ⟨base_le_addrOf h.base_dvd hin,
    page_aligned_iff.2 ⟨h.addrOf_lt hin, Nat.dvd_mul_left _ _⟩, h.hasFlag hl hin⟩

theorem Splittable.ok {minLevel : Nat} (h : Splittable A s L a minLevel n)
    (hcan : ∀ l, minLevel ≤ l → l < minLevel + n → CanAdd A s l (upperHalf a l)) :
    ∃ s', splitLoop A a minLevel n s = .ok s' := by
  induction n generalizing s with
  | zero => exact ⟨s, rfl⟩
  | succ n ih =>
      obtain ⟨hbase, hal, hflag⟩ := hcan (minLevel + n) (by omega) (by omega)
      have hfresh := h.fresh (minLevel + n) (by omega) (by omega) (minLevel + n) (by omega) (by omega)
      obtain ⟨s₁, hlink, -⟩ := linkBlock_spec (h.list (minLevel + n) (by omega) (by omega)) hfresh
        (upperHalf_ne_zero h.ne_zero _) hal
      have hadd := addToList_eq_ok.2 ⟨hbase, hal, hflag, s₁, hlink, rfl⟩
      obtain ⟨hnext, -, hframe⟩ := h.step hadd
      obtain ⟨s', hrest⟩ := ih hnext fun l hlo hhi => (hcan l hlo (by omega)).edit hframe
      exact ⟨s', run_bind_eq_ok.2 ⟨_, hadd, hrest⟩⟩

/-- Adding one block to each level from `k` up to `m` adds `2 ^ m - 2 ^ k` pages. -/
theorem weight_halves (L : Nat → List Nat) (f : Nat → Nat) (hkm : k ≤ m) (hm : m ≤ BLOCK_LEVELS) :
    weight (fun l => if k ≤ l ∧ l < m then L l ++ [f l] else L l) + 2 ^ k = weight L + 2 ^ m := by
  -- Splitting one level further adds one block of weight `2 ^ m` and doubles the weight taken.
  induction hkm with
  | refl =>
      have hsame : (fun l => if k ≤ l ∧ l < k then L l ++ [f l] else L l) = L := by
        funext l
        exact if_neg (by omega)
      rw [hsame]
  | @step m hkm ih =>
      have hkm : k ≤ m := hkm
      have hstep : (fun l => if k ≤ l ∧ l < m + 1 then L l ++ [f l] else L l) =
          Function.update (fun l => if k ≤ l ∧ l < m then L l ++ [f l] else L l) m
            (L m ++ [f m]) := by
        funext l
        by_cases hl : l = m
        · subst hl
          rw [Function.update_self, if_pos (by omega)]
        · rw [Function.update_of_ne hl]
          by_cases hr : k ≤ l ∧ l < m
          · rw [if_pos hr, if_pos (by omega)]
          · rw [if_neg hr, if_neg (by omega)]
      have hw := weight_update (fun l => if k ≤ l ∧ l < m then L l ++ [f l] else L l)
        (L m ++ [f m]) (show m < BLOCK_LEVELS by omega)
      have ih := ih (by omega)
      rw [if_neg (by omega), List.length_append, List.length_singleton, Nat.mul_add] at hw
      rw [Nat.succ_eq_add_one, hstep, Nat.pow_succ]
      omega

theorem weight_splitLists (hk : k ≤ lv) (hlv : lv < BLOCK_LEVELS) (hone : L lv = [a]) :
    weight (splitLists L a k lv) + 2 ^ k = weight L := by
  have hsplit : splitLists L a k lv = Function.update
      (fun l => if k ≤ l ∧ l < lv then L l ++ [upperHalf a l] else L l) lv [] := by
    funext l
    by_cases hl : l = lv
    · rw [splitLists, if_pos hl, hl, Function.update_self]
    · rw [splitLists, if_neg hl, Function.update_of_ne hl]
  have hw := weight_update (fun l => if k ≤ l ∧ l < lv then L l ++ [upperHalf a l] else L l) [] hlv
  have hsum := weight_halves L (upperHalf a) hk hlv.le
  rw [if_neg (by omega), hone] at hw
  simp only [List.length_singleton, List.length_nil] at hw
  rw [hsplit]
  omega

/-- Cutting the only block of a level leaves the blocks of `splitInto`. -/
theorem blocksOf_splitLists (hpl : PageLists L) (hB : B ∈ blocksOf L) (hal : B.Aligned)
    (hone : L B.level = [addrOf B]) :
    blocksOf (splitLists L (addrOf B) k B.level) = splitInto k B (blocksOf L) := by
  have hlt := (hpl.mem_blocksOf.1 hB).1
  ext C
  constructor
  · -- A member of a list was on it before, or is a half that was cut off.
    rintro ⟨hl, a, ha, hC⟩
    unfold splitLists at ha
    split at ha
    · simp at ha
    · rename_i hne
      have hold : a ∈ L C.level → C ∈ blocksOf L \ {B} := by
        intro hmem
        refine ⟨⟨hl, a, hmem, hC⟩, ?_⟩
        rintro rfl
        exact hne rfl
      split at ha
      · rename_i hr
        rcases List.mem_append.1 ha with ha | ha
        · exact Or.inl (hold ha)
        · rw [List.mem_singleton.1 ha, upperHalf_addrOf hal hr.2] at hC
          have hhalf := blockAt_addrOf ⟨C.level, B.page + 2 ^ C.level⟩
          exact Or.inr ⟨C.level, hr.1, hr.2, hC.trans hhalf⟩
      · exact Or.inl (hold ha)
  · rintro (⟨⟨hl, a, ha, hC⟩, hne⟩ | ⟨l, hlo, hhi, rfl⟩)
    · -- The popped block was alone on its list.
      have hlevel : C.level ≠ B.level := by
        intro heq
        rw [heq, hone, List.mem_singleton] at ha
        rw [heq, ha, blockAt_addrOf] at hC
        exact hne hC
      refine ⟨hl, a, ?_, hC⟩
      rw [splitLists, if_neg hlevel]
      split
      · exact List.mem_append_left _ ha
      · exact ha
    · refine ⟨hhi.trans hlt, addrOf ⟨l, B.page + 2 ^ l⟩, ?_, (blockAt_addrOf _).symm⟩
      simp only [splitLists, if_neg hhi.ne, if_pos (And.intro hlo hhi)]
      rw [upperHalf_addrOf hal hhi]
      simp

namespace Consistent

/-- From consistent lists, with counters that cover them, every allocation returns. -/
theorem allocate_ok (h : Consistent A s L) (hfree : weight L * pageSize ≤ s.freeMem)
    (htotal : s.freeMem + s.allocMem < A.wordLimit) (pages : Nat) :
    ∃ r, allocate A s pages = .ok r := by
  by_cases h0 : pages = 0
  · exact ⟨_, if_pos h0⟩
  rcases popLevel_or_empty s (ceilLog2 A pages) with ⟨lv, hpop⟩ | hempty
  · -- The popped block is the head of its list, and every half can be added.
    obtain ⟨B, hB, rfl, haddr⟩ := h.books.heads lv hpop.lt hpop.head
    have hpl := pageLists_of_listAt h.lists
    have hmem : addrOf B ∈ L B.level := (hpl.mem_blocksOf.1 hB).2
    have hal := h.books.aligned B hB
    have hin := h.books.inside B hB
    obtain ⟨s₁, hrem⟩ := h.books.removeFromList_ok hB (h.lists B.level hpop.lt) hmem
    have hsame₁ := removeFromList_sameTotals hrem
    have hbooks := h.books.erase hB hrem
    have hle := hpop.le
    have hready := (h.wellFormed.pop hpop (haddr ▸ hrem)).2.2
    rw [← haddr] at hready
    obtain ⟨s₂, hsplit⟩ := hready.ok <| by
      intro l hlo hhi
      rw [upperHalf_addrOf hal (by omega)]
      have hlt : l < BLOCK_LEVELS := by
        have := hpop.lt
        omega
      exact hbooks.canAdd hlt (hsame₁.inside.2 (hin.half (by omega)))
    have hsame := hsame₁.trans (splitLoop_books hbooks hal (hsame₁.inside.2 hin) hpop.lt (by omega)
      (fun l _ hhi => half_not_mem h.tiling hB (by omega)) hsplit).2
    -- The counter covers the block, so the subtraction does not underflow.
    have hsize : 2 ^ ceilLog2 A pages * pageSize ≤ s.freeMem := by
      have hw : 2 ^ B.level ≤ weight L := le_weight hpop.lt (List.ne_nil_of_mem hmem)
      have hpow : 2 ^ ceilLog2 A pages ≤ 2 ^ B.level := Nat.pow_le_pow_right (by decide) hle
      exact (Nat.mul_le_mul_right _ (hpow.trans hw)).trans hfree
    refine ⟨_, allocate_eq_some.2 ⟨h0, rfl, B.level, s₁, s₂, hpop, haddr, hrem, hsplit, ?_, ?_, rfl⟩⟩
    · rw [hsame.freeMem]
      exact hsize
    · rw [hsame.allocMem]
      omega
  · refine ⟨(none, s), ?_⟩
    rw [allocate, if_neg h0]
    exact allocateLoop_none hempty

/-- An allocation that pops a list of one block keeps the allocator consistent. -/
theorem allocate (h : Consistent A s L) (hrun : allocate A s pages = .ok (some (addr, n), s'))
    (hB : B ∈ blocksOf L) (haddr : addr = addrOf B)
    (halone : ∀ lv, PopLevel s (ceilLog2 A pages) lv → s.nextOf (s.head lv) = s.head lv) :
    PopLevel s (ceilLog2 A pages) B.level ∧
      ∃ L', Consistent A s' L' ∧ blocksOf L' = splitInto (ceilLog2 A pages) B (blocksOf L) ∧
        weight L' + n = weight L := by
  have hpl := pageLists_of_listAt h.lists
  -- Two free blocks at one address are one block.
  have hsame : ∀ C ∈ blocksOf L, addrOf C = addrOf B → C = B := by
    intro C hC heq
    refine h.tiling.disjoint C hC B hB B.page ?_ B.page_mem_pages
    rw [← addrOf_inj heq]
    exact C.page_mem_pages
  obtain ⟨B', hB', -, haddr', -, hbooks, -⟩ := allocate_books h.books h.tiling hrun
  rw [hsame B' hB' (haddr'.symm.trans haddr)] at hbooks
  obtain ⟨-, hn, lv, s₁, s₂, hpop, rfl, hrem, hsplit, -, -, rfl⟩ := allocate_eq_some.1 hrun
  obtain ⟨C, hC, rfl, hCaddr⟩ := h.books.heads lv hpop.lt hpop.head
  obtain rfl : C = B := hsame C hC (hCaddr.trans haddr)
  have hal := h.books.aligned C hC
  have hself := halone C.level hpop
  rw [haddr] at hself hrem hsplit
  have hone : L C.level = [addrOf C] :=
    ((h.lists C.level hpop.lt).ring.next_eq_self_iff (hpl.mem_blocksOf.1 hC).2).1 hself
  have hset := blocksOf_splitLists (k := ceilLog2 A pages) hpl hC hal hone
  have hlists := h.wellFormed.split_lists hpop (haddr ▸ hrem) (haddr ▸ hsplit)
    (haddr ▸ splitBitsClear_of_aligned hal _)
  rw [haddr] at hlists
  refine ⟨hpop, _, ⟨fun l hl => (hlists l hl).congr rfl fun _ _ => rfl, ?_, ?_⟩, hset, ?_⟩
  · rw [hset]
    exact splitInto_tiling h.tiling hC
  · rw [hset]
    exact hbooks
  · rw [hn]
    exact weight_splitLists hpop.le hpop.lt hone

end Consistent

end Buddy
end Propeller
