import Propeller.Mm.Buddy.Runs

/-!
# Buddy.Intact — runs that lose no list

As long as no step removes the head of a list with more blocks, lists, heads and flags keep describing
one set of blocks (`Kept`), and the counters cover them.  Then every further valid step returns: the
checksum assertion of `get_block_node_mut` and the list assertions of `remove_from_list` hold.
-/

namespace Propeller
namespace Buddy

variable {A : Arch} {s s' : State} {addr n pages : Nat} {B C : Block} {L : Nat → List Nat}
  {U : Set Nat} {σ σ' : Sys} {O : List Block}

open Block

/-- The step takes the head off a list only when it is alone on it. -/
def HeadsKept (A : Arch) (σ : Sys) : Op → Prop
  | .allocate pages =>
      pages ≠ 0 → ∀ lv, PopLevel σ.alloc (ceilLog2 A pages) lv →
        σ.alloc.nextOf (σ.alloc.head lv) = σ.alloc.head lv
  | .free addr pages =>
      ∀ C, Climb σ.alloc.basePage (fun E => buddy σ.alloc.basePage E ∈ freeBlocks σ.alloc)
          (blockOf addr pages) C →
        buddy σ.alloc.basePage C ∈ freeBlocks σ.alloc →
        σ.alloc.head C.level = addrOf (buddy σ.alloc.basePage C) →
        σ.alloc.nextOf (addrOf (buddy σ.alloc.basePage C)) = addrOf (buddy σ.alloc.basePage C)
  | .write _ _ => True

/-- The system with its lists, the blocks handed out, and counters that cover both. -/
structure Kept (A : Arch) (U : Set Nat) (σ : Sys) (L : Nat → List Nat) (O : List Block) : Prop where
  lists : ∀ l < BLOCK_LEVELS, ListAt A σ.alloc l (L l)
  safe : Safe A U σ (blocksOf L) O
  weight : weight L * pageSize ≤ σ.alloc.freeMem
  allocMem : σ.alloc.allocMem = (O.map fun B => 2 ^ B.level * pageSize).sum
  total : σ.alloc.freeMem + σ.alloc.allocMem < A.wordLimit

namespace Kept

theorem consistent (h : Kept A U σ L O) : Consistent A σ.alloc L :=
  ⟨h.lists, h.safe.tiling, h.safe.books⟩

theorem outstanding (h : Kept A U σ L O) (hB : B ∈ O) : Outstanding A σ.alloc L B := by
  obtain ⟨hheld, -⟩ := h.safe.held B hB
  have hle : 2 ^ B.level * pageSize ≤ σ.alloc.allocMem := by
    rw [h.allocMem]
    exact List.single_le_sum (by simp) _ (List.mem_map_of_mem hB)
  have htotal := h.total
  exact ⟨hheld.hand, hheld.level_lt, hheld.inside, hheld.page_ne, hle, by omega⟩

theorem of_built {avail : List MemoryRange} (h : Built A s L avail) :
    Kept A (availPages avail) ⟨s, []⟩ L [] := by
  refine ⟨h.consistent.lists, ⟨h.consistent.books, h.consistent.tiling, h.cover.subset, rfl, by simp,
    List.Pairwise.nil⟩, h.weight, h.allocMem, ?_⟩
  simp only
  rw [h.allocMem]
  exact h.freeMem_lt

/-! ## Steps -/

theorem allocate (h : Kept A U σ L O)
    (hrun : allocate A σ.alloc pages = .ok (some (addr, n), s'))
    (halone : HeadsKept A σ (.allocate pages)) :
    ∃ B ∈ blocksOf L, PopLevel σ.alloc (ceilLog2 A pages) B.level ∧
      ∃ L', Kept A U ⟨s', (addr, n) :: σ.out⟩ L' (⟨ceilLog2 A pages, B.page⟩ :: O) ∧
        blocksOf L' = splitInto (ceilLog2 A pages) B (blocksOf L) := by
  obtain ⟨B, hB, -, hpair, hsafe⟩ := h.safe.allocate hrun
  obtain ⟨haddr, hn⟩ := Prod.mk.inj hpair
  have hp0 : pages ≠ 0 := (allocate_eq_some.1 hrun).1
  obtain ⟨hpop, L', hcons, hset, hweight⟩ := h.consistent.allocate hrun hB haddr (halone hp0)
  obtain ⟨-, -, -, -, -, -, -, -, hle, hfree, halloc⟩ := allocate_books h.safe.books h.safe.tiling hrun
  have hw := h.weight
  have htotal := h.total
  refine ⟨B, hB, hpop, L', ⟨hcons.lists, hset ▸ hsafe, ?_, ?_, ?_⟩, hset⟩
  · -- The weight of the lists sinks by the weight of the block, as the counter does.
    rw [← hweight, Nat.add_mul] at hw
    simp only
    rw [hfree]
    omega
  · simp only [List.map_cons, List.sum_cons]
    rw [halloc, h.allocMem, hn]
    exact Nat.add_comm _ _
  · simp only
    rw [hfree, halloc]
    omega

/-- The condition on `free` in terms of the lists. -/
theorem climbKeepsHeads (h : Kept A U σ L O)
    (hkeep : HeadsKept A σ (.free (asPair B).1 (asPair B).2)) :
    ClimbKeepsHeads σ.alloc.basePage L B := by
  rw [HeadsKept, blockOf_asPair, h.consistent.freeBlocks_eq] at hkeep
  have hpl := pageLists_of_listAt h.lists
  intro C hclimb hC hhead
  have hCl := (hpl.mem_blocksOf.1 hC).1
  rw [buddy_level] at hCl
  have hlist := h.lists C.level hCl
  have hself := hkeep C hclimb hC (hlist.head.trans hhead)
  exact (hlist.ring.next_eq_self_iff ((hpl.buddy_mem_iff hCl).2 hC)).1 hself

theorem free (h : Kept A U σ L O) (hB : B ∈ O)
    (heven : ClimbAligned σ.alloc.basePage (blocksOf L) B)
    (hkeep : HeadsKept A σ (.free (asPair B).1 (asPair B).2))
    (hrun : free A σ.alloc (addrOf B) (2 ^ B.level) = .ok s') :
    ∃ L', Kept A U ⟨s', σ.out.erase (asPair B)⟩ L' (O.erase B) ∧
      blocksOf L' =
        mergeInto σ.alloc.basePage (BLOCK_LEVELS - B.level) B (blocksOf L) := by
  have hout := h.outstanding hB
  obtain ⟨L', hcons, hset, hweight, -, -, hfree, halloc⟩ :=
    h.consistent.free hout heven (h.climbKeepsHeads hkeep) hrun
  have hsafe := h.safe.free hB heven hrun
  have hle := hout.allocated
  have hw := h.weight
  have htotal := h.total
  refine ⟨L', ⟨hcons.lists, hset ▸ hsafe, ?_, ?_, ?_⟩, hset⟩
  · -- The lists gain at most the weight of the block, the counter gains all of it.
    have hmul := Nat.mul_le_mul_right pageSize hweight
    rw [Nat.add_mul] at hmul
    simp only
    rw [hfree]
    omega
  · -- What is out is counted exactly.
    have hsum := (List.perm_cons_erase hB).map fun B => 2 ^ B.level * pageSize
    have hsum := hsum.sum_eq
    simp only [List.map_cons, List.sum_cons] at hsum
    simp only
    rw [halloc, h.allocMem, hsum, Nat.add_sub_cancel_left]
  · simp only
    rw [hfree, halloc]
    omega

/-- A client's write to a page it holds changes no node of a list. -/
theorem write {node : BlockNode} (h : Kept A U σ L O) (hvalid : (Op.write addr node).Valid A σ) :
    Kept A U ⟨σ.alloc.setNode addr node, σ.out⟩ L O := by
  obtain ⟨b, hb, hlo, hhi⟩ := hvalid
  rw [h.safe.out] at hb
  obtain ⟨B, hB, rfl⟩ := List.mem_map.1 hb
  have hpage : addr / pageSize ∈ B.pages := by
    rw [← pagesAt_asPair B]
    exact ⟨hlo, hhi⟩
  have hheld : ∀ C ∈ O, HeldBlock (σ.alloc.setNode addr node) (blocksOf L) C ∧ C.pages ⊆ U := by
    intro C hC
    obtain ⟨hheld, hCU⟩ := h.safe.held C hC
    exact ⟨⟨hheld.hand, hheld.level_lt, hheld.inside, hheld.page_ne⟩, hCU⟩
  refine ⟨?_, ⟨h.safe.books.setNode _ _, h.safe.tiling, h.safe.within, h.safe.out, hheld,
    h.safe.apart⟩, h.weight, h.allocMem, h.total⟩
  intro l hl
  refine (h.lists l hl).congr rfl fun x hx => Function.update_of_ne ?_ _ _
  rintro rfl
  exact (h.safe.held B hB).1.hand.apart _ (blockAt_mem_blocksOf hl hx) _ hpage
    (page_mem_pages_blockAt l x)

/-- Every valid step returns. -/
theorem returns (h : Kept A U σ L O)
    (heven : ∀ B ∈ O, ClimbAligned σ.alloc.basePage (blocksOf L) B) {op : Op}
    (hvalid : op.Valid A σ) : ∃ σ', step A σ op = .ok σ' := by
  cases op with
  | allocate pages =>
      obtain ⟨r, hr⟩ := h.consistent.allocate_ok h.weight h.total pages
      exact ⟨_, run_bind_eq_ok.2 ⟨r, hr, rfl⟩⟩
  | free addr pages =>
      have hmem : (addr, pages) ∈ σ.out := hvalid
      rw [h.safe.out] at hmem
      obtain ⟨B, hB, hpair⟩ := List.mem_map.1 hmem
      obtain ⟨rfl, rfl⟩ := Prod.mk.inj hpair
      obtain ⟨s', hs', -⟩ := h.consistent.free_ok (h.outstanding hB) (heven B hB)
      exact ⟨_, run_bind_eq_ok.2 ⟨s', hs', rfl⟩⟩
  | write addr node => exact ⟨_, rfl⟩

theorem step (h : Kept A U σ L O) {op : Op} (hvalid : op.Valid A σ) (hP : HeadsKept A σ op)
    (heven : ∀ B ∈ O, ClimbAligned σ.alloc.basePage (blocksOf L) B)
    (hrun : step A σ op = .ok σ') : ∃ L' O', Kept A U σ' L' O' := by
  cases op with
  | allocate pages =>
      obtain ⟨⟨block, s'⟩, halloc, hres⟩ := run_bind_eq_ok.1 hrun
      cases hres
      cases block with
      | none =>
          -- A failed allocation changes nothing.
          obtain rfl := allocate_none halloc
          exact ⟨L, O, h⟩
      | some b =>
          obtain ⟨addr, n⟩ := b
          obtain ⟨B, -, -, L', hkept, -⟩ := h.allocate halloc hP
          exact ⟨_, _, hkept⟩
  | free addr pages =>
      obtain ⟨s', hfree, hres⟩ := run_bind_eq_ok.1 hrun
      cases hres
      -- Clients return what they were given.
      have hmem : (addr, pages) ∈ σ.out := hvalid
      rw [h.safe.out] at hmem
      obtain ⟨B, hB, hpair⟩ := List.mem_map.1 hmem
      obtain ⟨rfl, rfl⟩ := Prod.mk.inj hpair
      obtain ⟨L', hkept, -⟩ := h.free hB (heven B hB) hP hfree
      exact ⟨_, _, hkept⟩
  | write addr node =>
      cases hrun
      exact ⟨L, O, h.write hvalid⟩

end Kept

/-! ## The allocator cannot be tripped -/

/-- Flags and lists agree, every node on a list is intact, and no valid step stops the kernel. -/
structure Intact (A : Arch) (σ : Sys) : Prop where
  flags : ∀ l < BLOCK_LEVELS, ∀ k < pairCount σ.alloc.size l,
    flagSet A σ.alloc l k = true ↔
      Xor (Member σ.alloc.basePage (freeBlocks σ.alloc) l (2 * k))
        (Member σ.alloc.basePage (freeBlocks σ.alloc) l (2 * k + 1))
  checksums : ∀ l < BLOCK_LEVELS, ∀ a, Reachable σ.alloc l a → Valid A σ.alloc a
  returns : ∀ op : Op, op.Valid A σ → ∃ σ', step A σ op = .ok σ'

theorem Kept.intact (h : Kept A U σ L O)
    (heven : ∀ B ∈ O, ClimbAligned σ.alloc.basePage (blocksOf L) B) : Intact A σ := by
  refine ⟨?_, ?_, fun op hvalid => h.returns heven hvalid⟩
  · rw [h.consistent.freeBlocks_eq]
    exact h.safe.books.flags
  · intro l hl a ha
    exact (h.lists l hl).checksum a ((h.lists l hl).reach_iff.1 ha)

/-- From a base that is a multiple of the largest block every climb is aligned. -/
theorem climbAligned_of_dvd {b : Nat} {F : Set Block} (h : 2 ^ (BLOCK_LEVELS - 1) ∣ b) (B : Block) :
    ClimbAligned b F B :=
  fun _ _ _ hlt => evenStart_of_dvd h (by omega)

/-- In every run from `new` that takes no head off a list with more blocks, flags and lists agree, the
nodes on the lists are intact, and every further valid call returns. -/
theorem run_intact {cfg : KernelConfig} {base size metadata : Nat} {avail : List MemoryRange}
    {mem : Nat → BlockNode} (hnew : new A cfg base size metadata avail mem = .ok (some s))
    (hbase : 2 ^ (BLOCK_LEVELS - 1) * pageSize ∣ base) (hdisj : DisjointRanges avail)
    (hzero : 0 ∉ availPages avail) (hrun : RunIf A (HeadsKept A) ⟨s, []⟩ σ) : Intact A σ := by
  obtain ⟨hup, L, hbuilt⟩ := new_spec hnew hdisj.pages hzero
  have hs : s.base = base := alignUp_page_of_dvd ((Nat.dvd_mul_left _ _).trans hbase) hup
  have hdvd : ∀ σ : Sys, σ.alloc.base = s.base → 2 ^ (BLOCK_LEVELS - 1) ∣ σ.alloc.basePage := by
    intro σ hσ
    rw [State.basePage, hσ, hs]
    exact (Nat.dvd_div_iff_mul_dvd ((Nat.dvd_mul_left _ _).trans hbase)).2
      (Nat.mul_comm _ _ ▸ hbase)
  have hinv : σ.alloc.base = s.base ∧ ∃ L O, Kept A (availPages avail) σ L O := by
    refine Steps.Reaches.invariant (I := fun σ => σ.alloc.base = s.base ∧ ∃ L O, Kept A (availPages avail) σ L O) hrun
      ?_ ⟨rfl, L, [], Kept.of_built hbuilt⟩
    rintro σ op σ' ⟨hσ, L, O, h⟩ ⟨hvalid, hP⟩ hstep
    exact ⟨(step_base hstep).trans hσ, h.step hvalid hP (fun B _ => climbAligned_of_dvd (hdvd σ hσ) B) hstep⟩
  obtain ⟨hσ, L', O, h⟩ := hinv
  exact h.intact fun B _ => climbAligned_of_dvd (hdvd σ hσ) B

/-- Every level has at most one block. -/
def HeadsAlone (s : State) : Prop :=
  ∀ l < BLOCK_LEVELS, s.nextOf (s.head l) = s.head l

instance (s : State) : Decidable (HeadsAlone s) :=
  inferInstanceAs (Decidable (∀ l < BLOCK_LEVELS, _))

theorem HeadsAlone.headsKept (h : HeadsAlone σ.alloc) (op : Op) : HeadsKept A σ op := by
  cases op with
  | allocate pages => exact fun _ lv hpop => h lv hpop.lt
  | free addr pages =>
      intro C _ hC hhead
      have hlt : C.level < BLOCK_LEVELS := hC.1
      rw [← hhead]
      exact h C.level hlt
  | write addr node => trivial

/-- Four pages from 0x400000 on, one of which is allocated and freed. -/
theorem run_intact_four :
    ∃ s σ, new .aarch64 exampleConfig 0x400000 0x4000 0x1000 [⟨0x400000, 0x4000⟩]
        (fun _ => ⟨0, 0, 0⟩) = .ok (some s) ∧
      RunIf .aarch64 (HeadsKept .aarch64) ⟨s, []⟩ σ ∧ Intact .aarch64 σ := by
  have hmap : (do
      let r ← new .aarch64 exampleConfig 0x400000 0x4000 0x1000 [⟨0x400000, 0x4000⟩]
        (fun _ => ⟨0, 0, 0⟩)
      match r with
      | none => .error .badBlock
      | some s => do
          let σ₁ ← step .aarch64 ⟨s, []⟩ (.allocate 1)
          let _ ← step .aarch64 σ₁ (.free 0x400000 1)
          return (decide (HeadsAlone s), decide (HeadsAlone σ₁.alloc), σ₁.out) :
        Run (Bool × Bool × List (Nat × Nat))) = .ok (true, true, [(0x400000, 1)]) := by
    decide +kernel
  obtain ⟨_ | s, hnew, hmap⟩ := run_bind_eq_ok.1 hmap
  · cases hmap
  obtain ⟨σ₁, hstep₁, hmap⟩ := run_bind_eq_ok.1 hmap
  obtain ⟨σ, hstep, hmap⟩ := run_bind_eq_ok.1 hmap
  obtain ⟨hs, hmap⟩ := Prod.mk.inj (Except.ok.inj hmap)
  obtain ⟨hσ₁, hout⟩ := Prod.mk.inj hmap
  have hrun : RunIf .aarch64 (HeadsKept .aarch64) ⟨s, []⟩ σ := by
    refine Relation.ReflTransGen.head (b := σ₁) ⟨.allocate 1, ⟨?_, ?_⟩, hstep₁⟩
      (Relation.ReflTransGen.single ⟨.free 0x400000 1, ⟨?_, ?_⟩, hstep⟩)
    · exact show 1 < Arch.wordLimit .aarch64 by decide
    · exact HeadsAlone.headsKept (of_decide_eq_true hs) _
    · exact show (0x400000, 1) ∈ σ₁.out by rw [hout]; decide
    · exact HeadsAlone.headsKept (of_decide_eq_true hσ₁) _
  refine ⟨s, σ, hnew, hrun, run_intact hnew (by decide) (List.pairwise_singleton _ _) ?_ hrun⟩
  exact zero_not_mem_availPages hnew (by decide) (by decide)

/-- Two pages given as two ranges: allocating one takes the head off a list of two, and freeing it then
trips over the lost buddy. -/
theorem run_trips_over_lost_buddy :
    ∃ s σ, new .aarch64 exampleConfig 0x400000 0x2000 0x1000
        [⟨0x400000, 0x1000⟩, ⟨0x401000, 0x1000⟩] (fun _ => ⟨0, 0, 0⟩) = .ok (some s) ∧
      DisjointRanges [⟨0x400000, 0x1000⟩, ⟨0x401000, 0x1000⟩] ∧
      RunIf .aarch64 (fun _ _ => True) ⟨s, []⟩ σ ∧ (Op.free 0x400000 1).Valid .aarch64 σ ∧
      step .aarch64 σ (.free 0x400000 1) = .error .listHead ∧ ¬ Intact .aarch64 σ := by
  have hmap : (do
      let r ← new .aarch64 exampleConfig 0x400000 0x2000 0x1000
        [⟨0x400000, 0x1000⟩, ⟨0x401000, 0x1000⟩] (fun _ => ⟨0, 0, 0⟩)
      match r with
      | none => .error .badBlock
      | some s => do
          let σ ← exec .aarch64 ⟨s, []⟩ [.allocate 1]
          return (σ.out, (step .aarch64 σ (.free 0x400000 1)).map fun σ => σ.out) :
        Run (List (Nat × Nat) × Run (List (Nat × Nat)))) =
          .ok ([(0x400000, 1)], .error .listHead) := by
    decide +kernel
  obtain ⟨_ | s, hnew, hmap⟩ := run_bind_eq_ok.1 hmap
  · cases hmap
  obtain ⟨σ, hexec, hmap⟩ := run_bind_eq_ok.1 hmap
  obtain ⟨hout, hfail⟩ := Prod.mk.inj (Except.ok.inj hmap)
  have hvalid : (Op.free 0x400000 1).Valid .aarch64 σ := by
    show (0x400000, 1) ∈ σ.out
    rw [hout]
    decide
  have hstep : step .aarch64 σ (.free 0x400000 1) = .error .listHead := by
    cases hr : step .aarch64 σ (.free 0x400000 1) with
    | ok σ' =>
        rw [hr] at hfail
        cases hfail
    | error e =>
        rw [hr] at hfail
        cases hfail
        rfl
  refine ⟨s, σ, hnew, ?_, exec_runIf (fun _ _ _ => trivial) hexec, hvalid, hstep, fun h => ?_⟩
  · exact List.pairwise_pair.2 (Or.inl (by decide))
  · obtain ⟨σ', hσ'⟩ := h.returns _ hvalid
    rw [hstep] at hσ'
    cases hσ'

end Buddy
end Propeller
