import Propeller.Lib.Steps
import Propeller.Mm.Buddy.Free
import Propeller.Mm.Buddy.Init
import Propeller.Mm.Buddy.Take

/-!
# Buddy.Runs — the allocator and its clients

A system is an allocator with the blocks it has handed out.  Its clients allocate, free blocks they
hold and write to pages they hold.  `RunIf A P σ σ'` says that some sequence of such steps, each of
which meets `P`, leads from `σ` to `σ'`.

`Safe` is what survives every step whose merges give aligned blocks, even when blocks have been lost
from the lists: some tiling `F` that the heads and flags describe, apart from the blocks handed out.
-/

namespace Propeller
namespace Buddy

variable {A : Arch} {s s' : State} {addr n pages : Nat} {B C : Block} {F : Set Block}

open Block

/-! ## The system -/

/-- An allocator and the blocks handed out, each as its address and its number of pages. -/
structure Sys where
  alloc : State
  out : List (Nat × Nat)

/-- What a client can do. -/
inductive Op
  | allocate (pages : Nat)
  | free (addr pages : Nat)
  | write (addr : Nat) (node : BlockNode)

/-- Clients free blocks they hold and write to pages they hold. -/
def Op.Valid (A : Arch) (σ : Sys) : Op → Prop
  | .allocate pages => pages < A.wordLimit
  | .free addr pages => (addr, pages) ∈ σ.out
  | .write addr _ =>
      ∃ b ∈ σ.out, b.1 / pageSize ≤ addr / pageSize ∧ addr / pageSize < b.1 / pageSize + b.2

instance (A : Arch) (σ : Sys) : (op : Op) → Decidable (op.Valid A σ)
  | .allocate pages => inferInstanceAs (Decidable (pages < A.wordLimit))
  | .free addr pages => inferInstanceAs (Decidable ((addr, pages) ∈ σ.out))
  | .write _ _ => inferInstanceAs (Decidable (∃ b ∈ σ.out, _ ∧ _))

def step (A : Arch) (σ : Sys) : Op → Run Sys
  | .allocate pages => do
      let (block, s) ← allocate A σ.alloc pages
      return ⟨s, block.toList ++ σ.out⟩
  | .free addr pages => do
      let s ← free A σ.alloc addr pages
      return ⟨s, σ.out.erase (addr, pages)⟩
  | .write addr node => .ok ⟨σ.alloc.setNode addr node, σ.out⟩

/-- Any number of valid steps that meet `P`. -/
def RunIf (A : Arch) (P : Sys → Op → Prop) : Sys → Sys → Prop :=
  Steps.Reaches (fun σ op => op.Valid A σ ∧ P σ op) (step A)

/-- The steps of a given list of operations, as far as they are valid. -/
def exec (A : Arch) : Sys → List Op → Run Sys :=
  Steps.trace .badBlock (fun σ op => op.Valid A σ) (step A)

/-- No step moves the area. -/
theorem step_base {σ σ' : Sys} {op : Op} (h : step A σ op = .ok σ') :
    σ'.alloc.base = σ.alloc.base := by
  cases op with
  | allocate pages =>
      obtain ⟨⟨block, s'⟩, halloc, hres⟩ := run_bind_eq_ok.1 h
      cases hres
      cases block with
      | none => rw [allocate_none halloc]
      | some b =>
          obtain ⟨-, -, lv, s₁, s₂, -, -, hrem, hsplit, -, -, rfl⟩ := allocate_eq_some.1 halloc
          exact ((removeFromList_sameTotals hrem).trans (splitLoop_sameTotals hsplit)).base
  | free addr pages =>
      obtain ⟨s', hfree, hres⟩ := run_bind_eq_ok.1 h
      cases hres
      exact free_base hfree
  | write addr node =>
      cases h
      rfl

/-- A list of operations whose steps meet `P` wherever the area is where it was is a run. -/
theorem exec_runIf {σ σ' : Sys} {ops : List Op} {P : Sys → Op → Prop}
    (hP : ∀ σ₁ op, σ₁.alloc.base = σ.alloc.base → P σ₁ op) (h : exec A σ ops = .ok σ') :
    RunIf A P σ σ' := by
  refine (Steps.reaches_of_trace h).strengthen (I := fun σ₁ => σ₁.alloc.base = σ.alloc.base) ?_ rfl ?_
  · exact fun σ₁ op σ₂ hσ₁ _ hstep => (step_base hstep).trans hσ₁
  · exact fun σ₁ op hσ₁ hvalid => ⟨hvalid, hP σ₁ op hσ₁⟩

/-- A block in the words of the interface. -/
def asPair (B : Block) : Nat × Nat :=
  (addrOf B, 2 ^ B.level)

theorem asPair_injective : Function.Injective asPair := by
  intro B C h
  obtain ⟨haddr, hpow⟩ := Prod.mk.inj h
  have hpage : B.page = C.page := addrOf_inj haddr
  have hlevel : B.level = C.level := Nat.pow_right_injective (le_refl 2) hpow
  cases B
  cases C
  simp only at hpage hlevel
  rw [hpage, hlevel]

theorem pagesAt_asPair (B : Block) : pagesAt (asPair B).1 (asPair B).2 = B.pages := by
  rw [asPair, pagesAt, addrOf_div]
  rfl

/-- The block that a pair of the interface stands for. -/
def blockOf (addr pages : Nat) : Block :=
  ⟨pages.log2, addr / pageSize⟩

theorem blockOf_asPair (B : Block) : blockOf (asPair B).1 (asPair B).2 = B := by
  rw [asPair, blockOf, addrOf_div, Nat.log2_two_pow]

/-! ## What every aligned run keeps -/

/-- The flag of the pair of `C` is set: `free` would take the buddy of `C` to be free. -/
def FlagOn (A : Arch) (s : State) (C : Block) : Prop :=
  flagSet A s C.level (C.number s.basePage / 2) = true

/-- Every merge of the climb of a `free` gives a block that starts at a multiple of its length. -/
def MergesAligned (A : Arch) (σ : Sys) : Op → Prop
  | .free addr pages =>
      ∀ C, Climb σ.alloc.basePage (FlagOn A σ.alloc) (blockOf addr pages) C → FlagOn A σ.alloc C →
        C.level + 1 < BLOCK_LEVELS → EvenStart σ.alloc.basePage C.level
  | _ => True

/-- With a base that is a multiple of the largest block all merges are aligned. -/
theorem mergesAligned_of_dvd {σ : Sys} (h : 2 ^ (BLOCK_LEVELS - 1) ∣ σ.alloc.basePage) (op : Op) :
    MergesAligned A σ op := by
  cases op with
  | free addr pages => exact fun C _ _ hlt => evenStart_of_dvd h (by omega)
  | allocate pages => trivial
  | write addr node => trivial

/-- A block handed out of the area, apart from the blocks of `F`. -/
structure HeldBlock (s : State) (F : Set Block) (B : Block) : Prop where
  hand : InHand s.basePage F B
  level_lt : B.level < BLOCK_LEVELS
  inside : Inside s B
  page_ne : B.page ≠ 0

/-- The allocator's records describe a tiling `F` inside `U` that is apart from the blocks `O` handed
out, which lie in `U` and share no page. -/
structure Safe (A : Arch) (U : Set Nat) (σ : Sys) (F : Set Block) (O : List Block) : Prop where
  books : Books A σ.alloc F
  tiling : Tiling F
  within : cover F ⊆ U
  out : σ.out = O.map asPair
  held : ∀ B ∈ O, HeldBlock σ.alloc F B ∧ B.pages ⊆ U
  apart : O.Pairwise fun B C => Disjoint B.pages C.pages

/-- On a climb whose merges are aligned, the flags tell which buddies are free. -/
theorem climbAligned_of_flags (h : Books A s F) (hB : InHand s.basePage F B) (hin : Inside s B)
    (heven : ∀ C, Climb s.basePage (FlagOn A s) B C → FlagOn A s C → C.level + 1 < BLOCK_LEVELS →
      EvenStart s.basePage C.level) : ClimbAligned s.basePage F B := by
  -- A block of the climb within the levels is aligned, inside the area, and over `B`.
  have key : ∀ C, Climb s.basePage (fun E => buddy s.basePage E ∈ F) B C →
      C.level < BLOCK_LEVELS →
      Climb s.basePage (FlagOn A s) B C ∧ C.Aligned ∧ Inside s C ∧ B.pages ⊆ C.pages := by
    intro C hC
    induction hC with
    | refl =>
        intro _
        exact ⟨Climb.refl _ _ B, hB.aligned, hin, Set.Subset.rfl⟩
    | @tail C D _ hstep ih =>
        intro hD
        obtain ⟨hbuddy, rfl⟩ := hstep
        rw [merged_level] at hD
        obtain ⟨hclimb, hal, hinC, hover⟩ := ih (by omega)
        have hnot : C ∉ F := fun hC =>
          hB.apart C hC B.page B.page_mem_pages (hover B.page_mem_pages)
        have hflag : FlagOn A s C := (h.flag_iff hal (by omega) hinC hnot).2 hbuddy
        refine ⟨hclimb.tail ⟨hflag, rfl⟩,
          (hal.merged_iff hinC.1).2 (heven C hclimb hflag hD),
          hinC.merged (h.inside _ hbuddy), ?_⟩
        rw [pages_merged hinC.1]
        exact hover.trans Set.subset_union_left
  intro C hclimb hbuddy hlt
  obtain ⟨hflags, hal, hinC, hover⟩ := key C hclimb (by omega)
  have hnot : C ∉ F := fun hC => hB.apart C hC B.page B.page_mem_pages (hover B.page_mem_pages)
  exact heven C hflags ((h.flag_iff hal (by omega) hinC hnot).2 hbuddy) hlt

theorem Books.setNode (h : Books A s F) (a : Nat) (node : BlockNode) :
    Books A (s.setNode a node) F :=
  ⟨⟨h.geometry.offset, h.geometry.length⟩, h.base_dvd, h.limit, h.aligned, h.level_lt, h.inside,
    h.heads, h.flags⟩

/-- A block handed out stays apart from a store that has only grown by other pages. -/
theorem HeldBlock.of_cover {F' : Set Block} {X : Set Nat} (h : HeldBlock s F B)
    (hbase : s'.base = s.base) (hsize : s'.size = s.size) (hcover : cover F' ⊆ cover F ∪ X)
    (hX : Disjoint B.pages X) : HeldBlock s' F' B := by
  have hpage : s'.basePage = s.basePage := by rw [State.basePage, hbase, State.basePage]
  refine ⟨⟨h.hand.aligned, hpage ▸ h.hand.origin, ?_⟩, h.level_lt, ?_, h.page_ne⟩
  · intro C hC p hp hpC
    rcases hcover ⟨C, hC, hpC⟩ with ⟨D, hD, hpD⟩ | hpX
    · exact h.hand.apart D hD p hp hpD
    · exact Set.disjoint_left.1 hX hp hpX
  · rw [Inside, hpage, hsize]
    exact h.inside

namespace Safe

variable {U : Set Nat} {σ σ' : Sys} {O : List Block}

theorem allocate (h : Safe A U σ F O) (hrun : allocate A σ.alloc pages = .ok (some (addr, n), s')) :
    ∃ B ∈ F, ceilLog2 A pages ≤ B.level ∧ (addr, n) = asPair ⟨ceilLog2 A pages, B.page⟩ ∧
      Safe A U ⟨s', (addr, n) :: σ.out⟩ (splitInto (ceilLog2 A pages) B F)
        (⟨ceilLog2 A pages, B.page⟩ :: O) := by
  obtain ⟨B, hB, hle, haddr, hn, hbooks, hbase, hsize, -⟩ := allocate_books h.books h.tiling hrun
  have hpair : (addr, n) = asPair ⟨ceilLog2 A pages, B.page⟩ := by rw [haddr, hn]; rfl
  have hin := h.books.inside B hB
  have hcover := cover_splitInto hB hle
  have hfirst : (⟨ceilLog2 A pages, B.page⟩ : Block).pages ⊆ B.pages := fun p hp =>
    (mem_pages_iff_upperHalves hle).2 (Or.inl hp)
  have hBU : B.pages ⊆ U := fun p hp => h.within ⟨B, hB, hp⟩
  have hpage : s'.basePage = σ.alloc.basePage := by rw [State.basePage, hbase, State.basePage]
  -- A list that starts with the null address is empty.
  have hB0 : B.page ≠ 0 := by
    intro h0
    obtain ⟨-, -, lv, -, -, hpop, hhead, -⟩ := allocate_eq_some.1 hrun
    rw [haddr, addrOf, h0, Nat.zero_mul] at hhead
    exact hpop.head hhead.symm
  refine ⟨B, hB, hle, hpair, hbooks, splitInto_tiling h.tiling hB, ?_, ?_, ?_, ?_⟩
  · exact (Set.subset_union_left.trans hcover.subset).trans h.within
  · rw [List.map_cons, ← hpair, h.out]
  · intro C hC
    -- The new block was part of a free one; the others are apart from the store as before.
    rcases List.mem_cons.1 hC with rfl | hC
    · refine ⟨⟨?_, hle.trans_lt (h.books.level_lt B hB), ?_, hB0⟩, hfirst.trans hBU⟩
      · exact inHand_splitInto h.tiling hB (hpage ▸ hin.1) hle
      · rw [Inside, hpage, hsize]
        have hpow : 2 ^ ceilLog2 A pages ≤ 2 ^ B.level := Nat.pow_le_pow_right (by decide) hle
        have := hin.2
        exact ⟨hin.1, by simp only; omega⟩
    · obtain ⟨hheld, hCU⟩ := h.held C hC
      refine ⟨hheld.of_cover hbase hsize (X := ∅) ?_ (Set.disjoint_empty _), hCU⟩
      exact (Set.subset_union_left.trans hcover.subset).trans Set.subset_union_left
  · refine List.pairwise_cons.2 ⟨?_, h.apart⟩
    intro C hC
    rw [Set.disjoint_left]
    intro p hp hpC
    exact (h.held C hC).1.hand.apart B hB p hpC (hfirst hp)

theorem free (h : Safe A U σ F O) (hB : B ∈ O)
    (heven : ClimbAligned σ.alloc.basePage F B)
    (hrun : free A σ.alloc (addrOf B) (2 ^ B.level) = .ok s') :
    Safe A U ⟨s', σ.out.erase (asPair B)⟩
      (mergeInto σ.alloc.basePage (BLOCK_LEVELS - B.level) B F) (O.erase B) := by
  obtain ⟨hheld, hBU⟩ := h.held B hB
  have hn : B.level + (BLOCK_LEVELS - B.level) = BLOCK_LEVELS := by
    have := hheld.level_lt
    omega
  obtain ⟨s₁, hloop, -, -, rfl⟩ :=
    (free_eq_ok h.books hheld.hand.aligned hheld.level_lt hheld.inside hheld.page_ne).1 hrun
  obtain ⟨hbooks, hsame⟩ := freeLoop_books hn h.books h.tiling hheld.hand hheld.inside heven hloop
  have hcover := cover_mergeInto_subset (n := BLOCK_LEVELS - B.level) (F := F) hheld.hand.origin
  have hsub : (O.erase B).Sublist O := List.erase_sublist
  refine ⟨hbooks.counters _ _, ?_, ?_, ?_, ?_, h.apart.sublist hsub⟩
  · refine mergeInto_tiling h.tiling hheld.hand ?_
    intro C hclimb hC hlt
    exact heven C hclimb hC (by omega)
  · exact hcover.trans (Set.union_subset h.within hBU)
  · rw [h.out, List.map_erase asPair_injective]
  · intro C hC
    obtain ⟨hC', hCU⟩ := h.held C (hsub.subset hC)
    refine ⟨hC'.of_cover hsame.base hsame.size hcover ?_, hCU⟩
    -- `B` and the remaining blocks are different entries of `O`.
    have hperm := List.perm_cons_erase hB
    have hpw := (hperm.pairwise_iff fun hd => Disjoint.symm hd).1 h.apart
    exact ((List.pairwise_cons.1 hpw).1 C hC).symm

theorem step (h : Safe A U σ F O) {op : Op} (hvalid : op.Valid A σ) (hP : MergesAligned A σ op)
    (hrun : step A σ op = .ok σ') : ∃ F' O', Safe A U σ' F' O' := by
  cases op with
  | allocate pages =>
      obtain ⟨⟨block, s'⟩, halloc, hres⟩ := run_bind_eq_ok.1 hrun
      cases hres
      cases block with
      | none =>
          obtain rfl := allocate_none halloc
          exact ⟨F, O, h⟩
      | some b =>
          obtain ⟨addr, n⟩ := b
          obtain ⟨B, -, -, -, hsafe⟩ := h.allocate halloc
          exact ⟨_, _, hsafe⟩
  | free addr pages =>
      obtain ⟨s', hfree, hres⟩ := run_bind_eq_ok.1 hrun
      cases hres
      have hmem : (addr, pages) ∈ σ.out := hvalid
      rw [h.out] at hmem
      obtain ⟨B, hB, hpair⟩ := List.mem_map.1 hmem
      obtain ⟨rfl, rfl⟩ := Prod.mk.inj hpair
      obtain ⟨hheld, -⟩ := h.held B hB
      -- The flags say the same as the store.
      have hP' : MergesAligned A σ (.free (asPair B).1 (asPair B).2) := hP
      rw [MergesAligned, blockOf_asPair] at hP'
      exact ⟨_, _, h.free hB
        (climbAligned_of_flags h.books hheld.hand hheld.inside hP') hfree⟩
  | write addr node =>
      cases hrun
      -- A client writes into blocks that are not on a list.
      refine ⟨F, O, h.books.setNode _ _, h.tiling, h.within, h.out, ?_, h.apart⟩
      intro B hB
      obtain ⟨hheld, hBU⟩ := h.held B hB
      exact ⟨⟨hheld.hand, hheld.level_lt, hheld.inside, hheld.page_ne⟩, hBU⟩

end Safe

/-! ## The guarantee of `allocate` -/

/-- What `allocate` promises of a block of `n` pages at `addr`, in answer to `pages`. -/
structure Guarantee (avail : List MemoryRange) (σ : Sys) (pages addr n : Nat) : Prop where
  power : ∃ k, n = 2 ^ k
  enough : pages ≤ n
  smallest : ∀ k, pages ≤ 2 ^ k → n ≤ 2 ^ k
  aligned : n * pageSize ∣ addr
  available : pagesAt addr n ⊆ availPages avail
  apart : ∀ b ∈ σ.out, Disjoint (pagesAt addr n) (pagesAt b.1 b.2)

theorem Safe.guarantee {σ : Sys} {O : List Block} {avail : List MemoryRange}
    (h : Safe A (availPages avail) σ F O) (hp : pages < A.wordLimit)
    (halloc : Buddy.allocate A σ.alloc pages = .ok (some (addr, n), s')) :
    Guarantee avail σ pages addr n := by
  obtain ⟨B, hB, hle, hpair, hsafe⟩ := h.allocate halloc
  obtain ⟨rfl, rfl⟩ := Prod.mk.inj hpair
  have hlog := ceilLog2_eq hp
  have hpages := pagesAt_asPair ⟨ceilLog2 A pages, B.page⟩
  obtain ⟨hheld, hU⟩ := hsafe.held _ List.mem_cons_self
  refine ⟨⟨_, rfl⟩, ?_, ?_, ?_, ?_, ?_⟩
  · simp only
    rw [hlog]
    exact Nat.le_pow_clog (by decide) pages
  · intro k hk
    simp only
    rw [hlog]
    exact Nat.pow_le_pow_right (by decide) (Nat.clog_le_of_le_pow hk)
  · exact Nat.mul_dvd_mul_right hheld.hand.aligned pageSize
  · exact hpages ▸ hU
  · intro b hb
    -- A pair that is out stands for a block, and the new block is apart from all of them.
    rw [h.out] at hb
    obtain ⟨C, hC, rfl⟩ := List.mem_map.1 hb
    have hd := (List.pairwise_cons.1 hsafe.apart).1 C hC
    rw [pagesAt_asPair C]
    exact hpages ▸ hd

/-- In every run from `new` all of whose merges give aligned blocks, whatever is allocated is the
smallest sufficient power of two of pages, aligned to its size, available, and apart from every block
still handed out. -/
theorem run_allocate_guarantee {cfg : KernelConfig} {base size metadata : Nat}
    {avail : List MemoryRange} {mem : Nat → BlockNode} {σ : Sys}
    (hnew : new A cfg base size metadata avail mem = .ok (some s)) (hpage : pageSize ∣ base)
    (hbase : base ≠ 0) (hdisj : DisjointRanges avail)
    (hrun : RunIf A (MergesAligned A) ⟨s, []⟩ σ) (hp : pages < A.wordLimit)
    (halloc : allocate A σ.alloc pages = .ok (some (addr, n), s')) :
    Guarantee avail σ pages addr n := by
  obtain ⟨-, L, hbuilt⟩ := new_spec hnew hdisj.pages (zero_not_mem_availPages hnew hpage hbase)
  have hinit : Safe A (availPages avail) ⟨s, []⟩ (blocksOf L) [] :=
    ⟨hbuilt.consistent.books, hbuilt.consistent.tiling, hbuilt.cover.subset, rfl, by simp,
      List.Pairwise.nil⟩
  obtain ⟨F, O, hsafe⟩ := Steps.Reaches.invariant (I := fun σ => ∃ F O, Safe A (availPages avail) σ F O) hrun
    (fun σ op σ' ⟨F, O, h⟩ ⟨hvalid, hP⟩ hstep => h.step hvalid hP hstep) ⟨_, _, hinit⟩
  exact hsafe.guarantee hp halloc

/-- A configuration whose linear map covers 48 bits. -/
def exampleConfig : KernelConfig :=
  ⟨0xffff000000000000, 0xffff000000000000, 0⟩

/-- Eight pages from 0x400000 on: after a page has been allocated and freed, three pages are answered
with four. -/
theorem run_allocate_three :
    ∃ s σ s', new .aarch64 exampleConfig 0x400000 0x8000 0x1000 [⟨0x400000, 0x8000⟩]
        (fun _ => ⟨0, 0, 0⟩) = .ok (some s) ∧
      RunIf .aarch64 (MergesAligned .aarch64) ⟨s, []⟩ σ ∧
      allocate .aarch64 σ.alloc 3 = .ok (some (0x400000, 4), s') ∧
      Guarantee [⟨0x400000, 0x8000⟩] σ 3 0x400000 4 := by
  have hmap : (do
      let r ← new .aarch64 exampleConfig 0x400000 0x8000 0x1000 [⟨0x400000, 0x8000⟩]
        (fun _ => ⟨0, 0, 0⟩)
      match r with
      | none => .error .badBlock
      | some s => do
          let σ ← exec .aarch64 ⟨s, []⟩ [.allocate 1, .free 0x400000 1]
          let r ← allocate .aarch64 σ.alloc 3
          return (s.base, r.1) : Run (Nat × Option (Nat × Nat))) =
        .ok (0x400000, some (0x400000, 4)) := by
    decide +kernel
  obtain ⟨_ | s, hnew, hmap⟩ := run_bind_eq_ok.1 hmap
  · cases hmap
  obtain ⟨σ, hexec, hmap⟩ := run_bind_eq_ok.1 hmap
  obtain ⟨⟨_, s'⟩, halloc, hmap⟩ := run_bind_eq_ok.1 hmap
  obtain ⟨hbase, rfl⟩ := Prod.mk.inj (Except.ok.inj hmap)
  have hrun : RunIf .aarch64 (MergesAligned .aarch64) ⟨s, []⟩ σ := by
    refine exec_runIf (fun σ₁ op hσ₁ => mergesAligned_of_dvd ?_ op) hexec
    rw [State.basePage, hσ₁, hbase]
    decide
  refine ⟨s, σ, s', hnew, hrun, halloc, run_allocate_guarantee hnew (by decide) (by decide) ?_ hrun
    (by decide) halloc⟩
  exact List.pairwise_singleton _ _

/-- Pages 1 to 3: after pages 1 and 2 have been allocated and freed in turn, they are handed out as one
block of two pages at an odd page. -/
theorem run_allocate_misaligned :
    ∃ s σ s', new .aarch64 exampleConfig 0x1000 0x3000 0x1000 [⟨0x1000, 0x3000⟩]
        (fun _ => ⟨0, 0, 0⟩) = .ok (some s) ∧
      RunIf .aarch64 (fun _ _ => True) ⟨s, []⟩ σ ∧
      allocate .aarch64 σ.alloc 2 = .ok (some (0x1000, 2), s') ∧
      ¬ Guarantee [⟨0x1000, 0x3000⟩] σ 2 0x1000 2 := by
  have hmap : (do
      let r ← new .aarch64 exampleConfig 0x1000 0x3000 0x1000 [⟨0x1000, 0x3000⟩]
        (fun _ => ⟨0, 0, 0⟩)
      match r with
      | none => .error .badBlock
      | some s => do
          let σ ← exec .aarch64 ⟨s, []⟩
            [.allocate 1, .allocate 1, .free 0x1000 1, .free 0x2000 1]
          let r ← allocate .aarch64 σ.alloc 2
          return r.1 : Run (Option (Nat × Nat))) = .ok (some (0x1000, 2)) := by
    decide +kernel
  obtain ⟨_ | s, hnew, hmap⟩ := run_bind_eq_ok.1 hmap
  · cases hmap
  obtain ⟨σ, hexec, hmap⟩ := run_bind_eq_ok.1 hmap
  obtain ⟨⟨_, s'⟩, halloc, hmap⟩ := run_bind_eq_ok.1 hmap
  obtain rfl := Except.ok.inj hmap
  refine ⟨s, σ, s', hnew, exec_runIf (fun _ _ _ => trivial) hexec, halloc, fun h => ?_⟩
  exact absurd h.aligned (by decide)

end Buddy
end Propeller
