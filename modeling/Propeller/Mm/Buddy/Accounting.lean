import Mathlib.Algebra.BigOperators.Finprod
import Propeller.Mm.Buddy.Contract
import Propeller.Mm.Buddy.Intact

/-!
# Buddy.Accounting — the counters

`get_alloc_mem` and `get_free_mem` return counters that the calls adjust on their own.  They tell the truth if the
first is the size of the blocks handed out and the second the size of the blocks that the heads reach.  `new` starts
the second one with the sizes of the ranges, also with a part of a page at the end of a range; and a block that is
dropped from a list stays counted.  Blocks are dropped with the head of a longer list, and at the largest level.
-/

namespace Propeller
namespace Buddy

open Block

variable {A : Arch} {s s' : State} {b n l addr pages : Nat} {B C : Block} {L : Nat → List Nat} {U : Set Nat}
  {σ σ' : Sys} {O : List Block} {avail : List MemoryRange}

/-- The size of the blocks that the level heads reach. -/
noncomputable def freeBytes (s : State) : Nat :=
  ∑ᶠ B ∈ freeBlocks s, 2 ^ B.level * pageSize

/-- The size of the blocks handed out. -/
def outBytes (σ : Sys) : Nat :=
  (σ.out.map fun block => block.2 * pageSize).sum

structure Truthful (σ : Sys) : Prop where
  allocMem : σ.alloc.allocMem = outBytes σ
  freeMem : σ.alloc.freeMem = freeBytes σ.alloc

/-- The step drops no block: it takes the head off a list only when it is alone on it, and a `free` does not merge
at the largest level and merges to blocks that start at a multiple of their length. -/
def DropsNone (A : Arch) (σ : Sys) : Op → Prop
  | .allocate pages => HeadsKept A σ (.allocate pages)
  | .free addr pages =>
      HeadsKept A σ (.free addr pages) ∧
        ∀ C, Climb σ.alloc.basePage (fun E => buddy σ.alloc.basePage E ∈ freeBlocks σ.alloc) (blockOf addr pages) C →
          buddy σ.alloc.basePage C ∈ freeBlocks σ.alloc →
          C.level + 1 < BLOCK_LEVELS ∧ EvenStart σ.alloc.basePage C.level
  | .write _ _ => True

/-! ## The blocks on the lists -/

/-- The size of the blocks is the weight of the lists that spell them out. -/
theorem sum_blocksOf (hpl : PageLists L) :
    ∑ᶠ B ∈ blocksOf L, 2 ^ B.level * pageSize = weight L * pageSize := by
  -- Level by level, and on a level one block for each address.
  let blocks : Finset Block := (Finset.range BLOCK_LEVELS).biUnion fun l => (L l).toFinset.image (blockAt l)
  have hblocks : blocksOf L = ↑blocks := by
    ext B
    simp only [blocks, Finset.coe_biUnion, Set.mem_iUnion, Finset.coe_image, Set.mem_image, Finset.mem_coe,
      Finset.mem_range, List.mem_toFinset]
    constructor
    · rintro ⟨hl, a, ha, hB⟩
      exact ⟨B.level, hl, a, ha, hB.symm⟩
    · rintro ⟨l, hl, a, ha, rfl⟩
      exact ⟨hl, a, ha, rfl⟩
  have hdisj : Set.PairwiseDisjoint (↑(Finset.range BLOCK_LEVELS)) fun l => (L l).toFinset.image (blockAt l) := by
    intro l _ m _ hlm
    refine Finset.disjoint_left.mpr fun B hB hB' => hlm ?_
    rcases Finset.mem_image.mp hB with ⟨a, -, rfl⟩
    rcases Finset.mem_image.mp hB' with ⟨a', -, heq⟩
    exact (congrArg Block.level heq).symm
  have hlevel : ∀ l ∈ Finset.range BLOCK_LEVELS,
      ∑ B ∈ (L l).toFinset.image (blockAt l), 2 ^ B.level * pageSize = 2 ^ l * (L l).length * pageSize := by
    intro l hl
    rw [Finset.mem_range] at hl
    have hinj : Set.InjOn (blockAt l) ↑(L l).toFinset := by
      intro a ha a' ha' heq
      have hpage : a / pageSize = a' / pageSize := congrArg Block.page heq
      rw [← Nat.div_mul_cancel (hpl.dvd l hl a (by simpa using ha)), hpage,
        Nat.div_mul_cancel (hpl.dvd l hl a' (by simpa using ha'))]
    rw [Finset.sum_image hinj]
    simp only [blockAt, Finset.sum_const, List.toFinset_card_of_nodup (hpl.nodup l hl), smul_eq_mul]
    ring
  rw [hblocks, finsum_mem_coe_finset, Finset.sum_biUnion hdisj, Finset.sum_congr rfl hlevel, ← Finset.sum_mul]
  rfl

theorem freeBytes_eq (h : ∀ l < BLOCK_LEVELS, ListAt A s l (L l)) : freeBytes s = weight L * pageSize := by
  rw [freeBytes, WellFormed.freeBlocks_eq h]
  exact sum_blocksOf (pageLists_of_listAt h)

/-- A climb that stops within the levels and takes no head off a longer list returns all pages of the block. -/
theorem weight_mergeLists (hpl : PageLists L) (hn : B.level + n = BLOCK_LEVELS) (hl : B.level < BLOCK_LEVELS)
    (hkeep : ClimbKeepsHeads b L B)
    (hstop : ∀ C, Climb b (fun E => buddy b E ∈ blocksOf L) B C → buddy b C ∈ blocksOf L → C.level + 1 < BLOCK_LEVELS) :
    weight (mergeLists b n B L) = weight L + 2 ^ B.level := by
  -- Along the climb: each round takes the buddy out and goes on with a block of twice the weight.
  induction n generalizing B L with
  | zero => omega
  | succ n ih =>
      unfold mergeLists
      split
      next hmem =>
        have hbuddy := (hpl.buddy_mem_iff hl).mp hmem
        have hlen := length_removed_of_head hmem fun hhead => hkeep B (Climb.refl b _ B) hbuddy hhead
        have hw := weight_update L (removed (L B.level) (addrOf (buddy b B))) hl
        have hmul := congrArg (2 ^ B.level * ·) hlen
        -- The climb goes on above the level that was changed.
        have hmem' : ∀ C : Block, (merged b B).level ≤ C.level →
            (buddy b C ∈ blocksOf (Function.update L B.level (removed (L B.level) (addrOf (buddy b B)))) ↔
              buddy b C ∈ blocksOf L) := by
          intro C hC
          rw [merged_level] at hC
          exact mem_blocksOf_update_of_ne (by rw [buddy_level]; omega)
        have hstep := ih (B := merged b B)
          (L := Function.update L B.level (removed (L B.level) (addrOf (buddy b B))))
          (hpl.update_sublist (removed_sublist _ _)) (by rw [merged_level]; omega)
          (by rw [merged_level]; exact hstop B (Climb.refl b _ B) hbuddy) ?_ ?_
        · rw [merged_level, Nat.pow_succ] at hstep
          simp only [Nat.mul_add, Nat.mul_one] at hmul
          omega
        · intro C hC hbuddyC
          have hlevel := hC.level_le
          rw [hmem' C hlevel] at hbuddyC
          rw [merged_level] at hlevel
          rw [Function.update_of_ne (by omega)]
          exact hkeep C (Climb.up hbuddy (climb_update_iff.mp hC)) hbuddyC
        · intro C hC hbuddyC
          rw [hmem' C hC.level_le] at hbuddyC
          exact hstop C (Climb.up hbuddy (climb_update_iff.mp hC)) hbuddyC
      next =>
        -- The climb ends, and the block is added.
        have hw := weight_update L (L B.level ++ [addrOf B]) hl
        rw [List.length_append, List.length_singleton, Nat.mul_add, Nat.mul_one] at hw
        omega

/-! ## Steps -/

theorem Kept.mem_of_valid (h : Kept A U σ L O) (hvalid : (Op.free addr pages).Valid A σ) :
    ∃ B ∈ O, (asPair B).1 = addr ∧ (asPair B).2 = pages := by
  have hmem : (addr, pages) ∈ σ.out := hvalid
  rw [h.safe.out] at hmem
  rcases List.mem_map.mp hmem with ⟨B, hB, hpair⟩
  exact ⟨B, hB, congrArg Prod.fst hpair, congrArg Prod.snd hpair⟩

/-- The conditions on a `free` in terms of the lists. -/
theorem Kept.climb_of_dropsNone (h : Kept A U σ L O) (hP : DropsNone A σ (.free (asPair B).1 (asPair B).2)) :
    ClimbKeepsHeads σ.alloc.basePage L B ∧ ∀ C, Climb σ.alloc.basePage (fun E => buddy σ.alloc.basePage E ∈ blocksOf L) B C →
      buddy σ.alloc.basePage C ∈ blocksOf L → C.level + 1 < BLOCK_LEVELS ∧ EvenStart σ.alloc.basePage C.level := by
  have hstop := hP.2
  rw [blockOf_asPair, h.consistent.freeBlocks_eq] at hstop
  exact ⟨h.climbKeepsHeads hP.1, hstop⟩

/-- A step that drops no block changes the counter of the free memory as it changes the lists. -/
theorem Kept.freeMem_step (h : Kept A U σ L O) (hfree : σ.alloc.freeMem = freeBytes σ.alloc) {op : Op}
    (hvalid : op.Valid A σ) (hP : DropsNone A σ op) (hrun : Buddy.step A σ op = .ok σ') :
    σ'.alloc.freeMem = freeBytes σ'.alloc := by
  rw [freeBytes_eq h.lists] at hfree
  cases op with
  | allocate pages =>
      rcases run_bind_eq_ok.mp hrun with ⟨⟨block, s'⟩, halloc, hres⟩
      cases hres
      cases block with
      | none =>
          obtain rfl := allocate_none halloc
          rw [hfree, freeBytes_eq h.lists]
      | some block =>
          rcases block with ⟨addr, n⟩
          -- The block that is handed out is counted once, and the lists lose exactly its weight.
          rcases h.safe.allocate halloc with ⟨B, hB, -, hpair, -⟩
          have hp0 : pages ≠ 0 := (allocate_eq_some.mp halloc).1
          rcases h.consistent.allocate halloc hB (congrArg Prod.fst hpair) (hP hp0) with ⟨-, L', hcons, -, hweight⟩
          obtain ⟨-, -, -, -, -, -, -, -, -, hcounter, -⟩ := allocate_books h.safe.books h.safe.tiling halloc
          rw [hcounter, freeBytes_eq hcons.lists, hfree, ← hweight, Nat.add_mul, Nat.add_sub_cancel]
  | free addr pages =>
      rcases run_bind_eq_ok.mp hrun with ⟨s', hs', hres⟩
      cases hres
      rcases h.mem_of_valid hvalid with ⟨B, hB, rfl, rfl⟩
      -- The climb stops below the top level and keeps all heads, so the lists gain the weight of the block.
      rcases h.climb_of_dropsNone hP with ⟨hkeep, hstop⟩
      have hout := h.outstanding hB
      have heven : ClimbAligned σ.alloc.basePage (blocksOf L) B := fun C hC hbuddy _ => (hstop C hC hbuddy).2
      have hn : B.level + (BLOCK_LEVELS - B.level) = BLOCK_LEVELS := by
        have hl := hout.level_lt
        omega
      rcases h.consistent.free_ok hout heven with ⟨s'', hs'', hlists⟩
      obtain rfl : s'' = s' := Except.ok.inj (hs''.symm.trans hs')
      obtain ⟨-, -, -, -, -, -, hcounter, -⟩ := h.consistent.free hout heven hkeep hs'
      have hweight := weight_mergeLists (pageLists_of_listAt h.lists) hn hout.level_lt hkeep
        fun C hC hbuddy => (hstop C hC hbuddy).1
      rw [hcounter, freeBytes_eq hlists, hweight, hfree, Nat.add_mul]
  | write addr node =>
      cases hrun
      -- A client writes into blocks of its own.
      rw [freeBytes_eq (h.write hvalid).lists]
      exact hfree

/-- A step that drops no block keeps lists and books together; only the block that is freed has to climb to even
starts. -/
theorem Kept.step_of_dropsNone (h : Kept A U σ L O) {op : Op} (hvalid : op.Valid A σ) (hP : DropsNone A σ op)
    (hrun : Buddy.step A σ op = .ok σ') : ∃ L' O', Kept A U σ' L' O' := by
  cases op with
  | allocate pages =>
      rcases run_bind_eq_ok.mp hrun with ⟨⟨block, s'⟩, halloc, hres⟩
      cases hres
      cases block with
      | none =>
          obtain rfl := allocate_none halloc
          exact ⟨L, O, h⟩
      | some block =>
          rcases h.allocate halloc hP with ⟨B, -, -, L', hkept, -⟩
          exact ⟨_, _, hkept⟩
  | free addr pages =>
      rcases run_bind_eq_ok.mp hrun with ⟨s', hfree, hres⟩
      cases hres
      rcases h.mem_of_valid hvalid with ⟨B, hB, rfl, rfl⟩
      -- Nothing is dropped, so every merge on the way starts at an even block.
      have heven : ClimbAligned σ.alloc.basePage (blocksOf L) B :=
        fun C hC hbuddy _ => ((h.climb_of_dropsNone hP).2 C hC hbuddy).2
      rcases h.free hB heven hP.1 hfree with ⟨L', hkept, -⟩
      exact ⟨_, _, hkept⟩
  | write addr node =>
      cases hrun
      exact ⟨L, O, h.write hvalid⟩

theorem Kept.outBytes_eq (h : Kept A U σ L O) : σ.alloc.allocMem = outBytes σ := by
  rw [h.allocMem, outBytes, h.safe.out, List.map_map]
  rfl

/-! ## Runs -/

/-- A range has no part of a page at its end if the sizes of all ranges are counted in whole pages. -/
theorem sum_whole_pages_eq_iff (avail : List MemoryRange) :
    (avail.map fun r => r.size / pageSize).sum * pageSize = (avail.map MemoryRange.size).sum ↔
      ∀ r ∈ avail, pageSize ∣ r.size := by
  induction avail with
  | nil => simp
  | cons r rs ih =>
      have hfirst := Nat.div_mul_le_self r.size pageSize
      have hrest := sum_whole_pages_le rs
      rw [List.map_cons, List.map_cons, List.sum_cons, List.sum_cons, Nat.add_mul, List.forall_mem_cons, ← ih]
      constructor
      · intro hsum
        have hsize : r.size / pageSize * pageSize = r.size := by omega
        exact ⟨⟨_, hsize.symm.trans (Nat.mul_comm _ _)⟩, by omega⟩
      · rintro ⟨hdvd, hsum⟩
        rw [Nat.div_mul_cancel hdvd, hsum]

theorem zero_not_mem_of_base_ne {cfg : KernelConfig} {base size metadata : Nat} {mem : Nat → BlockNode}
    (h : new A cfg base size metadata avail mem = .ok (some s)) (hbase : base ≠ 0) : 0 ∉ availPages avail := by
  rcases new_inv h with ⟨base', freeMem, hbase', -, -, hcheck, -⟩
  rintro ⟨r, hr, hlo, -⟩
  have hle := ((checkRanges_spec hcheck).2.2 r hr).2.1
  have hpage : pageSize = 4096 := rfl
  rw [alignUp_page_eq_ok hbase', hpage] at hle
  rw [hpage] at hlo
  omega

/-- The lists of a new allocator, and when its counters tell the truth. -/
theorem new_truthful_iff {cfg : KernelConfig} {base size metadata : Nat} {mem : Nat → BlockNode}
    (hnew : new A cfg base size metadata avail mem = .ok (some s)) (hbase : base ≠ 0) (hdisj : DisjointRanges avail) :
    (∃ L, Kept A (availPages avail) ⟨s, []⟩ L []) ∧ (Truthful ⟨s, []⟩ ↔ ∀ r ∈ avail, pageSize ∣ r.size) := by
  rcases new_spec_weight hnew hdisj.pages (zero_not_mem_of_base_ne hnew hbase) with ⟨-, L, hbuilt, hweight, hsizes⟩
  have hkept := Kept.of_built hbuilt
  have hstart : s.freeMem = freeBytes s ↔ ∀ r ∈ avail, pageSize ∣ r.size := by
    rw [freeBytes_eq hkept.lists, hweight, hsizes, eq_comm, sum_whole_pages_eq_iff]
  exact ⟨⟨L, hkept⟩, fun h => hstart.mp h.freeMem, fun h => ⟨hkept.outBytes_eq, hstart.mpr h⟩⟩

/-- The counters of a new allocator tell the truth exactly if no range has a part of a page at its end, and then they
do so in every run whose steps drop no block. -/
theorem run_truthful {cfg : KernelConfig} {base size metadata : Nat} {mem : Nat → BlockNode}
    (hnew : new A cfg base size metadata avail mem = .ok (some s)) (hbase : base ≠ 0) (hdisj : DisjointRanges avail) :
    (Truthful ⟨s, []⟩ ↔ ∀ r ∈ avail, pageSize ∣ r.size) ∧
      ((∀ r ∈ avail, pageSize ∣ r.size) → ∀ σ, RunIf A (DropsNone A) ⟨s, []⟩ σ → Truthful σ) := by
  rcases new_truthful_iff hnew hbase hdisj with ⟨⟨L, hkept⟩, hstart⟩
  refine ⟨hstart, fun hwhole σ hrun => ?_⟩
  have hinv := Steps.Reaches.invariant
    (I := fun σ => σ.alloc.freeMem = freeBytes σ.alloc ∧ ∃ L O, Kept A (availPages avail) σ L O) hrun
    (fun σ op σ' ⟨hfree, L, O, h⟩ ⟨hvalid, hP⟩ hstep =>
      ⟨h.freeMem_step hfree hvalid hP hstep, h.step_of_dropsNone hvalid hP hstep⟩)
    ⟨(hstart.mpr hwhole).freeMem, L, [], hkept⟩
  rcases hinv with ⟨hfree, L, O, h⟩
  exact ⟨h.outBytes_eq, hfree⟩

/-- With single blocks on the lists, none of the largest size, and a base that is a multiple of the largest size, no
step drops a block. -/
theorem HeadsAlone.dropsNone (h : HeadsAlone σ.alloc) (hbase : 2 ^ (BLOCK_LEVELS - 1) ∣ σ.alloc.basePage)
    (htop : σ.alloc.head (BLOCK_LEVELS - 1) = 0) (op : Op) : DropsNone A σ op := by
  cases op with
  | allocate pages => exact HeadsAlone.headsKept h (.allocate pages)
  | free addr pages =>
      refine ⟨h.headsKept _, fun C _ hC => ?_⟩
      rcases hC with ⟨hl, -, ⟨hhead, -⟩, -⟩
      rw [buddy_level] at hl hhead
      have hne : C.level ≠ BLOCK_LEVELS - 1 := fun heq => hhead (heq ▸ htop)
      have hlt : C.level < BLOCK_LEVELS - 1 := by omega
      exact ⟨by omega, evenStart_of_dvd hbase hlt⟩
  | write addr node => trivial

/-- Four pages from 0x400000 on, one of which is allocated and freed. -/
theorem run_truthful_four :
    ∃ s σ, new .aarch64 exampleConfig 0x400000 0x4000 0x1000 [⟨0x400000, 0x4000⟩]
        (fun _ => ⟨0, 0, 0⟩) = .ok (some s) ∧
      RunIf .aarch64 (DropsNone .aarch64) ⟨s, []⟩ σ ∧ Truthful ⟨s, []⟩ ∧ Truthful σ := by
  have hmap : (do
      let r ← new .aarch64 exampleConfig 0x400000 0x4000 0x1000 [⟨0x400000, 0x4000⟩]
        (fun _ => ⟨0, 0, 0⟩)
      match r with
      | none => .error .badBlock
      | some s => do
          let σ₁ ← step .aarch64 ⟨s, []⟩ (.allocate 1)
          let _ ← step .aarch64 σ₁ (.free 0x400000 1)
          return (decide (HeadsAlone s ∧ 2 ^ (BLOCK_LEVELS - 1) ∣ s.basePage ∧ s.head (BLOCK_LEVELS - 1) = 0),
            decide (HeadsAlone σ₁.alloc ∧ 2 ^ (BLOCK_LEVELS - 1) ∣ σ₁.alloc.basePage ∧
              σ₁.alloc.head (BLOCK_LEVELS - 1) = 0), σ₁.out) :
        Run (Bool × Bool × List (Nat × Nat))) = .ok (true, true, [(0x400000, 1)]) := by
    decide +kernel
  rcases run_bind_eq_ok.mp hmap with ⟨_ | s, hnew, hmap⟩
  · cases hmap
  rcases run_bind_eq_ok.mp hmap with ⟨σ₁, hstep₁, hmap⟩
  rcases run_bind_eq_ok.mp hmap with ⟨σ, hstep, hmap⟩
  rcases Prod.mk.inj (Except.ok.inj hmap) with ⟨hs, hmap⟩
  rcases Prod.mk.inj hmap with ⟨hσ₁, hout⟩
  rcases of_decide_eq_true hs with ⟨halone, hbase, htop⟩
  rcases of_decide_eq_true hσ₁ with ⟨halone₁, hbase₁, htop₁⟩
  have hrun : RunIf .aarch64 (DropsNone .aarch64) ⟨s, []⟩ σ := by
    refine Relation.ReflTransGen.head (b := σ₁) ⟨.allocate 1, ⟨?_, HeadsAlone.dropsNone halone hbase htop _⟩, hstep₁⟩
      (Relation.ReflTransGen.single ⟨.free 0x400000 1, ⟨?_, HeadsAlone.dropsNone halone₁ hbase₁ htop₁ _⟩, hstep⟩)
    · exact show 1 < Arch.wordLimit .aarch64 by decide
    · exact show (0x400000, 1) ∈ σ₁.out by rw [hout]; decide
  have htruth := run_truthful hnew (by decide) (List.pairwise_singleton _ _)
  have hwhole : ∀ r ∈ [(⟨0x400000, 0x4000⟩ : MemoryRange)], pageSize ∣ r.size := by decide
  exact ⟨s, σ, hnew, hrun, htruth.1.mpr hwhole, htruth.2 hwhole σ hrun⟩

theorem freeBytes_eq_zero (h : ∀ l < BLOCK_LEVELS, s.head l = 0) : freeBytes s = 0 := by
  have hempty : freeBlocks s = ∅ := by
    refine Set.eq_empty_of_forall_notMem fun B hB => ?_
    rcases hB with ⟨hl, -, ⟨hhead, -⟩, -⟩
    exact hhead (h B.level hl)
  rw [freeBytes, hempty, finsum_mem_empty]

/-- A range of one page and a half is counted in full; and of two pages given as two ranges, the second is lost with
the first `allocate` and stays counted. -/
theorem run_counts_lost_memory :
    (∃ s, new .aarch64 exampleConfig 0x400000 0x2000 0x1000 [⟨0x400000, 0x1800⟩] (fun _ => ⟨0, 0, 0⟩) = .ok (some s) ∧
      ¬ Truthful ⟨s, []⟩) ∧
    ∃ s σ, new .aarch64 exampleConfig 0x400000 0x2000 0x1000
        [⟨0x400000, 0x1000⟩, ⟨0x401000, 0x1000⟩] (fun _ => ⟨0, 0, 0⟩) = .ok (some s) ∧
      DisjointRanges [⟨0x400000, 0x1000⟩, ⟨0x401000, 0x1000⟩] ∧
      RunIf .aarch64 (fun _ _ => True) ⟨s, []⟩ σ ∧ σ.alloc.freeMem = 0x1000 ∧ freeBytes σ.alloc = 0 := by
  constructor
  · rcases accepted_of_isSome (show (new .aarch64 exampleConfig 0x400000 0x2000 0x1000 [⟨0x400000, 0x1800⟩]
        fun _ => ⟨0, 0, 0⟩).toOption.join.isSome = true by decide +kernel) with ⟨s, hs⟩
    refine ⟨s, hs, fun h => ?_⟩
    have hwhole := (new_truthful_iff hs (by decide) (List.pairwise_singleton _ _)).2.mp h
    exact absurd (hwhole _ (List.mem_singleton_self _)) (by decide)
  · have hmap : (do
        let r ← new .aarch64 exampleConfig 0x400000 0x2000 0x1000
          [⟨0x400000, 0x1000⟩, ⟨0x401000, 0x1000⟩] (fun _ => ⟨0, 0, 0⟩)
        match r with
        | none => .error .badBlock
        | some s => do
            let σ ← exec .aarch64 ⟨s, []⟩ [.allocate 1]
            return (σ.alloc.freeMem, decide (∀ l < BLOCK_LEVELS, σ.alloc.head l = 0)) :
          Run (Nat × Bool)) = .ok (0x1000, true) := by
      decide +kernel
    rcases run_bind_eq_ok.mp hmap with ⟨_ | s, hnew, hmap⟩
    · cases hmap
    rcases run_bind_eq_ok.mp hmap with ⟨σ, hexec, hmap⟩
    rcases Prod.mk.inj (Except.ok.inj hmap) with ⟨hfree, hheads⟩
    refine ⟨s, σ, hnew, ?_, exec_runIf (fun _ _ _ => trivial) hexec, hfree,
      freeBytes_eq_zero (of_decide_eq_true hheads)⟩
    exact List.pairwise_pair.2 (Or.inl (by decide))

end Buddy
end Propeller
