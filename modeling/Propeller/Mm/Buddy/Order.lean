import Propeller.Lib.BuddyNormal
import Propeller.Mm.Buddy.Intact

/-!
# Buddy.Order — freeing everything restores the initial blocks

The blocks that `init_metadata` cuts from ranges that do not touch are the coalesced tiling of the
available pages.  A run that keeps the heads and cuts and merges only pairs that are the halves of
aligned blocks (`Recoverable`) keeps free and outstanding blocks a tiling of these pages with the free
ones coalesced.  Whoever frees all outstanding blocks, in whatever order, is then back at the initial
tiling, since there is only one.
-/

namespace Propeller
namespace Buddy

variable {A : Arch} {s s' : State} {addr n pages fuel remaining : Nat} {B C : Block}
  {L : Nat → List Nat} {U : Set Nat} {σ σ' : Sys} {O : List Block} {avail : List MemoryRange}

open Block

/-! ## The initial blocks -/

/-- Ranges with a gap between any two of them. -/
def NonAdjacentRanges (avail : List MemoryRange) : Prop :=
  avail.Pairwise fun r r' => r.base + r.size < r'.base ∨ r'.base + r'.size < r.base

theorem NonAdjacentRanges.disjoint (h : NonAdjacentRanges avail) : DisjointRanges avail :=
  h.imp fun hgap => hgap.imp Nat.le_of_lt Nat.le_of_lt

/-- `init_metadata` stops at a range with whole pages that does not start at a page. -/
theorem initRanges_base_dvd (h : initRanges A avail s = .ok s') :
    ∀ r ∈ avail, pageSize ≤ r.size → pageSize ∣ r.base := by
  induction avail generalizing s with
  | nil => simp
  | cons r rs ih =>
      obtain ⟨s₁, hrange, hrest⟩ := run_bind_eq_ok.1 h
      intro r' hr' hsize
      rcases List.mem_cons.1 hr' with rfl | hr'
      · obtain ⟨s₂, hadd, -⟩ := initRange_succ hsize hrange
        exact (page_aligned_iff.1 (addToList_eq_ok.1 hadd).2.1).2
      · exact ih hrest r' hr' hsize

/-- Blocks of two ranges with a gap between them do not touch. -/
theorem not_touching_of_gap {r r' : MemoryRange} (hgap : r.base + r.size < r'.base)
    (hdvd : pageSize ≤ r'.size → pageSize ∣ r'.base) {p : Nat} (hp : p ∈ rangePages r)
    (hp' : p + 1 ∈ rangePages r') : False := by
  obtain ⟨-, hlt⟩ := hp
  obtain ⟨hge, hlt'⟩ := hp'
  have hsize : pageSize ≤ r'.size := by
    by_contra hless
    rw [Nat.div_eq_of_lt (Nat.lt_of_not_le hless)] at hlt'
    omega
  have hdiv := Nat.div_mul_cancel (hdvd hsize)
  have hparts : r.base / pageSize + r.size / pageSize ≤ (r.base + r.size) / pageSize :=
    Nat.div_add_div_le_add_div
  have hbefore : (r.base + r.size) / pageSize < r'.base / pageSize := by
    rw [Nat.div_lt_iff_lt_mul pageSize_pos, hdiv]
    exact hgap
  omega

/-- The blocks of `new` over ranges that do not touch are coalesced. -/
theorem Built.coalesced (h : Built A s L avail) (hgaps : NonAdjacentRanges avail)
    (hdvd : ∀ r ∈ avail, pageSize ≤ r.size → pageSize ∣ r.base) :
    Coalesced (BLOCK_LEVELS - 1) (blocksOf L) := by
  rintro l p hl hp ⟨hlow, hupp⟩
  obtain ⟨r, hr, hsub, hgreedy⟩ := h.cut _ hlow
  obtain ⟨r', hr', hsub', -⟩ := h.cut _ hupp
  have hpos := Nat.two_pow_pos l
  -- The last page of the lower half and the first of the upper one are neighbours.
  have hlast : p + 2 ^ l - 1 ∈ rangePages r := hsub ⟨by simp only; omega, by simp only; omega⟩
  have hfirst : p + 2 ^ l - 1 + 1 ∈ rangePages r' :=
    hsub' ⟨by simp only; omega, by simp only; omega⟩
  by_cases heq : r = r'
  · subst heq
    have hend : p + 2 ^ l + 2 ^ l - 1 ∈ rangePages r :=
      hsub' ⟨by simp only; omega, by simp only; omega⟩
    have hstop := hgreedy (show l + 1 < BLOCK_LEVELS by omega) hp
    have hpow : 2 ^ (l + 1) = 2 ^ l + 2 ^ l := by
      rw [Nat.pow_succ]
      omega
    have hlt := hend.2
    simp only at hstop
    omega
  · have hgap : r.base + r.size < r'.base ∨ r'.base + r'.size < r.base :=
      have : Std.Symm fun r r' : MemoryRange =>
          r.base + r.size < r'.base ∨ r'.base + r'.size < r.base := ⟨fun _ _ => Or.symm⟩
      hgaps.forall hr hr' heq
    rcases hgap with hgap | hgap
    · exact not_touching_of_gap hgap (hdvd r' hr') hlast hfirst
    · have hle := (Nat.div_le_div_right hgap.le : _ ≤ r.base / pageSize)
      have hparts : r'.base / pageSize + r'.size / pageSize ≤ (r'.base + r'.size) / pageSize :=
        Nat.div_add_div_le_add_div
      have hlo := hlast.1
      have hhi := hfirst.2
      omega

/-! ## Recoverable runs -/

/-- The step cuts and merges only pairs that are the halves of aligned blocks, and merges no two blocks
of the largest level. -/
def Paired (A : Arch) (σ : Sys) : Op → Prop
  | .allocate pages =>
      pages ≠ 0 → ∀ lv, PopLevel σ.alloc (ceilLog2 A pages) lv →
        ∀ l, ceilLog2 A pages ≤ l → l < lv → EvenStart σ.alloc.basePage l
  | .free addr pages =>
      ∀ C, Climb σ.alloc.basePage (fun E => buddy σ.alloc.basePage E ∈ freeBlocks σ.alloc)
          (blockOf addr pages) C →
        buddy σ.alloc.basePage C ∈ freeBlocks σ.alloc →
        C.level < BLOCK_LEVELS - 1 ∧ EvenStart σ.alloc.basePage C.level
  | .write _ _ => True

/-- The step loses no block and can be undone. -/
def Recoverable (A : Arch) (σ : Sys) (op : Op) : Prop :=
  HeadsKept A σ op ∧ Paired A σ op

/-- Free and outstanding blocks tile the available pages, the free ones coalesced. -/
structure Restorable (A : Arch) (b : Nat) (U : Set Nat) (σ : Sys) (L : Nat → List Nat)
    (O : List Block) : Prop where
  kept : Kept A U σ L O
  base : σ.alloc.basePage = b
  whole : Whole b (BLOCK_LEVELS - 1) U (blocksOf L) {B | B ∈ O}

theorem Safe.nodup {F : Set Block} (h : Safe A U σ F O) : O.Nodup := by
  refine h.apart.imp ?_
  rintro B C hd rfl
  exact Set.disjoint_left.1 hd B.page_mem_pages B.page_mem_pages

theorem step_basePage {op : Op} (h : step A σ op = .ok σ') :
    σ'.alloc.basePage = σ.alloc.basePage := by
  rw [State.basePage, step_base h, State.basePage]

namespace Restorable

variable {b : Nat}

theorem of_built (h : Built A s L avail) (hco : Coalesced (BLOCK_LEVELS - 1) (blocksOf L)) :
    Restorable A s.basePage (availPages avail) ⟨s, []⟩ L [] := by
  have hnone : {B : Block | B ∈ ([] : List Block)} = ∅ := by
    ext B
    simp
  refine ⟨Kept.of_built h, rfl, ?_⟩
  rw [hnone]
  exact Whole.of_coalesced h.consistent.tiling
    (fun B hB => Nat.le_sub_one_of_lt (h.consistent.books.level_lt B hB))
    (fun B hB => (h.consistent.books.inside B hB).1) h.cover hco

/-- The condition on `free` in terms of the lists. -/
theorem climb (h : Restorable A b U σ L O) (hP : Paired A σ (.free (asPair B).1 (asPair B).2)) :
    ∀ C, Climb b (fun E => buddy b E ∈ blocksOf L) B C → buddy b C ∈ blocksOf L →
      C.level < BLOCK_LEVELS - 1 ∧ EvenStart b C.level := by
  rw [Paired, blockOf_asPair, h.kept.consistent.freeBlocks_eq, h.base] at hP
  exact hP

theorem climbAligned (h : Restorable A b U σ L O)
    (hP : Paired A σ (.free (asPair B).1 (asPair B).2)) :
    ClimbAligned σ.alloc.basePage (blocksOf L) B := by
  rw [h.base]
  exact fun C hC hmem _ => (h.climb hP C hC hmem).2

theorem allocate (h : Restorable A b U σ L O) (hP : Recoverable A σ (.allocate pages))
    (hrun : step A σ (.allocate pages) = .ok σ') : ∃ L' O', Restorable A b U σ' L' O' := by
  have hbase := step_basePage hrun
  obtain ⟨⟨block, s'⟩, halloc, hres⟩ := run_bind_eq_ok.1 hrun
  cases hres
  cases block with
  | none =>
      obtain rfl := allocate_none halloc
      exact ⟨L, O, h⟩
  | some x =>
      obtain ⟨addr, n⟩ := x
      obtain ⟨B, hB, hpop, L', hkept, hset⟩ := h.kept.allocate halloc hP.1
      refine ⟨L', _, hkept, hbase.trans h.base, ?_⟩
      have hout : {C | C ∈ (⟨ceilLog2 A pages, B.page⟩ :: O : List Block)} =
          insert ⟨ceilLog2 A pages, B.page⟩ {C | C ∈ O} := by
        ext C
        simp
      have heven := hP.2 (allocate_eq_some.1 halloc).1 B.level hpop
      rw [h.base] at heven
      rw [hset, hout]
      exact h.whole.split hB hpop.le heven

theorem free (h : Restorable A b U σ L O) (hB : B ∈ O)
    (hP : Recoverable A σ (.free (asPair B).1 (asPair B).2))
    (hrun : step A σ (.free (asPair B).1 (asPair B).2) = .ok σ') :
    ∃ L', Restorable A b U σ' L' (O.erase B) := by
  have hbase := step_basePage hrun
  obtain ⟨s', hfree, hres⟩ := run_bind_eq_ok.1 hrun
  cases hres
  obtain ⟨L', hkept, hset⟩ := h.kept.free hB (h.climbAligned hP.2) hP.1 hfree
  refine ⟨L', hkept, hbase.trans h.base, ?_⟩
  have hout : {C | C ∈ O.erase B} = {C | C ∈ O} \ {B} := by
    ext C
    exact h.kept.safe.nodup.mem_erase_iff.trans and_comm
  rw [hset, hout, h.base]
  exact h.whole.merge hB (h.climb hP.2)

theorem step (h : Restorable A b U σ L O) {op : Op} (hvalid : op.Valid A σ)
    (hP : Recoverable A σ op) (hrun : step A σ op = .ok σ') :
    ∃ L' O', Restorable A b U σ' L' O' := by
  cases op with
  | allocate pages => exact h.allocate hP hrun
  | free addr pages =>
      have hmem : (addr, pages) ∈ σ.out := hvalid
      rw [h.kept.safe.out] at hmem
      obtain ⟨B, hB, hpair⟩ := List.mem_map.1 hmem
      obtain ⟨rfl, rfl⟩ := Prod.mk.inj hpair
      obtain ⟨L', h'⟩ := h.free hB hP hrun
      exact ⟨L', _, h'⟩
  | write addr node =>
      cases hrun
      exact ⟨L, O, h.kept.write hvalid, h.base, h.whole⟩

/-- With nothing outstanding the free blocks are the initial ones. -/
theorem freeBlocks_eq {L₀ : Nat → List Nat} {σ₀ : Sys} (h : Restorable A b U σ L [])
    (h₀ : Restorable A b U σ₀ L₀ []) : freeBlocks σ.alloc = freeBlocks σ₀.alloc := by
  have hnone : {B : Block | B ∈ ([] : List Block)} = ∅ := by
    ext B
    simp
  have hw := h.whole
  have hw₀ := h₀.whole
  rw [hnone] at hw hw₀
  rw [h.kept.consistent.freeBlocks_eq, h₀.kept.consistent.freeBlocks_eq]
  exact hw.eq_of_none_out hw₀

end Restorable

/-! ## Freeing everything -/

/-- The operations that free the given blocks in turn. -/
def frees (blocks : List (Nat × Nat)) : List Op :=
  blocks.map fun b => .free b.1 b.2

/-- Every step of the list of operations meets `P`. -/
def ExecMeets (A : Arch) (P : Sys → Op → Prop) : Sys → List Op → Prop
  | _, [] => True
  | σ, op :: ops => P σ op ∧ ∀ σ', step A σ op = .ok σ' → ExecMeets A P σ' ops

/-- Freeing all outstanding blocks in some order returns, with nothing outstanding. -/
theorem Restorable.free_all {b : Nat} {order : List (Nat × Nat)} (h : Restorable A b U σ L O)
    (horder : order.Perm σ.out) (hP : ExecMeets A (Recoverable A) σ (frees order)) :
    ∃ σ' L', exec A σ (frees order) = .ok σ' ∧ Restorable A b U σ' L' [] := by
  -- The order is a permutation of what is out, and stays one without its first pair.
  induction order generalizing σ L O with
  | nil =>
      have hout := h.kept.safe.out
      rw [List.nil_perm.1 horder] at hout
      obtain rfl := List.map_eq_nil_iff.1 hout.symm
      exact ⟨σ, L, rfl, h⟩
  | cons x order ih =>
      have hx : x ∈ σ.out := horder.mem_iff.1 List.mem_cons_self
      have hx' := hx
      rw [h.kept.safe.out] at hx'
      obtain ⟨B, hB, rfl⟩ := List.mem_map.1 hx'
      obtain ⟨hfirst, hrest⟩ := hP
      have hvalid : (Op.free (asPair B).1 (asPair B).2).Valid A σ := hx
      obtain ⟨s', hs', -⟩ := h.kept.consistent.free_ok (h.kept.outstanding hB)
        (h.climbAligned hfirst.2)
      have hstep : Buddy.step A σ (.free (asPair B).1 (asPair B).2) =
          .ok ⟨s', σ.out.erase (asPair B)⟩ := run_bind_eq_ok.2 ⟨s', hs', rfl⟩
      obtain ⟨L', h'⟩ := h.free hB hfirst hstep
      obtain ⟨σ', L'', hexec, hres⟩ := ih h' (List.cons_perm_iff_perm_erase.1 horder).2
        (hrest _ hstep)
      refine ⟨σ', L'', ?_, hres⟩
      exact (Steps.trace_cons_of_ok hvalid hstep).trans hexec

/-- In every recoverable run from `new` over ranges that do not touch, freeing all outstanding blocks
in any two orders returns and leaves the same free blocks, namely those `init_metadata` made. -/
theorem run_free_all_order {cfg : KernelConfig} {base size metadata : Nat}
    {mem : Nat → BlockNode} {order₁ order₂ : List (Nat × Nat)}
    (hnew : new A cfg base size metadata avail mem = .ok (some s))
    (hgaps : NonAdjacentRanges avail) (hzero : 0 ∉ availPages avail)
    (hrun : RunIf A (Recoverable A) ⟨s, []⟩ σ)
    (horder₁ : order₁.Perm σ.out) (hP₁ : ExecMeets A (Recoverable A) σ (frees order₁))
    (horder₂ : order₂.Perm σ.out) (hP₂ : ExecMeets A (Recoverable A) σ (frees order₂)) :
    ∃ σ₁ σ₂, exec A σ (frees order₁) = .ok σ₁ ∧ exec A σ (frees order₂) = .ok σ₂ ∧
      freeBlocks σ₁.alloc = freeBlocks σ₂.alloc ∧ freeBlocks σ₁.alloc = freeBlocks s := by
  obtain ⟨-, L, hbuilt⟩ := new_spec hnew hgaps.disjoint.pages hzero
  obtain ⟨_, _, -, -, -, -, hinit⟩ := new_inv hnew
  have h₀ := Restorable.of_built hbuilt (hbuilt.coalesced hgaps (initRanges_base_dvd hinit))
  obtain ⟨L', O, h⟩ := Steps.Reaches.invariant
    (I := fun σ => ∃ L O, Restorable A s.basePage (availPages avail) σ L O) hrun
    (fun σ op σ' ⟨L, O, h⟩ ⟨hvalid, hP⟩ hstep => h.step hvalid hP hstep) ⟨L, [], h₀⟩
  obtain ⟨σ₁, L₁, hexec₁, h₁⟩ := h.free_all horder₁ hP₁
  obtain ⟨σ₂, L₂, hexec₂, h₂⟩ := h.free_all horder₂ hP₂
  exact ⟨σ₁, σ₂, hexec₁, hexec₂, h₁.freeBlocks_eq h₂, h₁.freeBlocks_eq h₀⟩

/-- From a base that is a multiple of the largest block, a step is recoverable when every level has at
most one block and the largest has none. -/
theorem recoverable_of_alone (hdvd : 2 ^ (BLOCK_LEVELS - 1) ∣ σ.alloc.basePage)
    (halone : HeadsAlone σ.alloc) (htop : σ.alloc.head (BLOCK_LEVELS - 1) = 0) (op : Op) :
    Recoverable A σ op := by
  refine ⟨halone.headsKept op, ?_⟩
  cases op with
  | allocate pages =>
      intro _ lv hpop l _ hl
      have hlv := hpop.lt
      exact evenStart_of_dvd hdvd (by omega)
  | free addr pages =>
      rintro C _ ⟨hlt, a, ⟨hhead, -⟩, -⟩
      rw [buddy_level] at hlt hhead
      have hne : C.level ≠ BLOCK_LEVELS - 1 := by
        rintro heq
        exact hhead (heq ▸ htop)
      have hC : C.level < BLOCK_LEVELS - 1 := by omega
      exact ⟨hC, evenStart_of_dvd hdvd hC⟩
  | write addr node => trivial

/-- `recoverable_of_alone` as a check. -/
def calm (s : State) : Bool :=
  decide (2 ^ (BLOCK_LEVELS - 1) ∣ s.basePage ∧ HeadsAlone s ∧ s.head (BLOCK_LEVELS - 1) = 0)

theorem recoverable_of_calm (h : calm σ.alloc = true) (op : Op) : Recoverable A σ op := by
  obtain ⟨hdvd, halone, htop⟩ := of_decide_eq_true h
  exact recoverable_of_alone hdvd halone htop op

/-- Four pages from 0x400000 on, two of which are allocated and freed in both orders. -/
theorem run_free_all_two :
    ∃ s σ σ₁ σ₂, new .aarch64 exampleConfig 0x400000 0x4000 0x1000 [⟨0x400000, 0x4000⟩]
        (fun _ => ⟨0, 0, 0⟩) = .ok (some s) ∧
      RunIf .aarch64 (Recoverable .aarch64) ⟨s, []⟩ σ ∧
      exec .aarch64 σ (frees [(0x400000, 1), (0x401000, 1)]) = .ok σ₁ ∧
      exec .aarch64 σ (frees [(0x401000, 1), (0x400000, 1)]) = .ok σ₂ ∧
      freeBlocks σ₁.alloc = freeBlocks σ₂.alloc ∧ freeBlocks σ₁.alloc = freeBlocks s := by
  have hmap : (do
      let r ← new .aarch64 exampleConfig 0x400000 0x4000 0x1000 [⟨0x400000, 0x4000⟩]
        (fun _ => ⟨0, 0, 0⟩)
      match r with
      | none => .error .badBlock
      | some s => do
          let σ' ← step .aarch64 ⟨s, []⟩ (.allocate 1)
          let σ ← step .aarch64 σ' (.allocate 1)
          let σ₁ ← step .aarch64 σ (.free 0x400000 1)
          let σ₂ ← step .aarch64 σ (.free 0x401000 1)
          return ([s, σ'.alloc, σ.alloc, σ₁.alloc, σ₂.alloc].map calm, σ.out) :
        Run (List Bool × List (Nat × Nat))) =
          .ok ([true, true, true, true, true], [(0x401000, 1), (0x400000, 1)]) := by
    decide +kernel
  obtain ⟨_ | s, hnew, hmap⟩ := run_bind_eq_ok.1 hmap
  · cases hmap
  obtain ⟨σ', hstep', hmap⟩ := run_bind_eq_ok.1 hmap
  obtain ⟨σ, hstep, hmap⟩ := run_bind_eq_ok.1 hmap
  obtain ⟨σ₁, hstep₁, hmap⟩ := run_bind_eq_ok.1 hmap
  obtain ⟨σ₂, hstep₂, hmap⟩ := run_bind_eq_ok.1 hmap
  obtain ⟨hcalm, hout⟩ := Prod.mk.inj (Except.ok.inj hmap)
  simp only [List.map_cons, List.map_nil, List.cons.injEq, and_true] at hcalm
  obtain ⟨hs, hσ', hσ, hσ₁, hσ₂⟩ := hcalm
  have hrun : RunIf .aarch64 (Recoverable .aarch64) ⟨s, []⟩ σ := by
    refine Relation.ReflTransGen.head (b := σ')
      ⟨.allocate 1, ⟨?_, recoverable_of_calm hs _⟩, hstep'⟩
      (Relation.ReflTransGen.single ⟨.allocate 1, ⟨?_, recoverable_of_calm hσ' _⟩, hstep⟩)
    · exact show 1 < Arch.wordLimit .aarch64 by decide
    · exact show 1 < Arch.wordLimit .aarch64 by decide
  have hP₁ : ExecMeets .aarch64 (Recoverable .aarch64) σ
      (frees [(0x400000, 1), (0x401000, 1)]) := by
    refine ⟨recoverable_of_calm hσ _, fun τ hτ => ⟨?_, fun _ _ => trivial⟩⟩
    obtain rfl := Except.ok.inj (hstep₁.symm.trans hτ)
    exact recoverable_of_calm hσ₁ _
  have hP₂ : ExecMeets .aarch64 (Recoverable .aarch64) σ
      (frees [(0x401000, 1), (0x400000, 1)]) := by
    refine ⟨recoverable_of_calm hσ _, fun τ hτ => ⟨?_, fun _ _ => trivial⟩⟩
    obtain rfl := Except.ok.inj (hstep₂.symm.trans hτ)
    exact recoverable_of_calm hσ₂ _
  obtain ⟨τ₁, τ₂, hexec₁, hexec₂, hsame, hinit⟩ := run_free_all_order hnew
    (List.pairwise_singleton _ _) (zero_not_mem_availPages hnew (by decide) (by decide)) hrun
    (hout ▸ List.Perm.swap _ _ _) hP₁ (hout ▸ List.Perm.refl _) hP₂
  exact ⟨s, σ, τ₁, τ₂, hnew, hrun, hexec₁, hexec₂, hsame, hinit⟩

/-- Pages 1 to 3: after two pages have been allocated and freed again, pages 1 and 2 are one block and
page 3 is another, where the initial blocks were page 1 and pages 2 to 3. -/
theorem run_free_all_reshapes :
    ∃ s σ σ₁, new .aarch64 exampleConfig 0x1000 0x3000 0x1000 [⟨0x1000, 0x3000⟩]
        (fun _ => ⟨0, 0, 0⟩) = .ok (some s) ∧ NonAdjacentRanges [⟨0x1000, 0x3000⟩] ∧
      RunIf .aarch64 (fun _ _ => True) ⟨s, []⟩ σ ∧
      σ.out = [(0x2000, 1), (0x1000, 1)] ∧
      exec .aarch64 σ (frees [(0x1000, 1), (0x2000, 1)]) = .ok σ₁ ∧
      freeBlocks σ₁.alloc ≠ freeBlocks s := by
  have hmap : (do
      let r ← new .aarch64 exampleConfig 0x1000 0x3000 0x1000 [⟨0x1000, 0x3000⟩]
        (fun _ => ⟨0, 0, 0⟩)
      match r with
      | none => .error .badBlock
      | some s => do
          let σ ← exec .aarch64 ⟨s, []⟩ [.allocate 1, .allocate 1]
          let σ₁ ← exec .aarch64 σ (frees [(0x1000, 1), (0x2000, 1)])
          return (σ.out, s.head 1, s.nextOf 0x2000, σ₁.alloc.head 1) :
        Run (List (Nat × Nat) × Nat × Nat × Nat)) =
          .ok ([(0x2000, 1), (0x1000, 1)], 0x2000, 0x2000, 0x1000) := by
    decide +kernel
  obtain ⟨_ | s, hnew, hmap⟩ := run_bind_eq_ok.1 hmap
  · cases hmap
  obtain ⟨σ, hexec, hmap⟩ := run_bind_eq_ok.1 hmap
  obtain ⟨σ₁, hexec₁, hmap⟩ := run_bind_eq_ok.1 hmap
  simp only [Except.pure, pure, Except.ok.injEq, Prod.mk.injEq] at hmap
  obtain ⟨hout, hhead, hnext, hhead₁⟩ := hmap
  refine ⟨s, σ, σ₁, hnew, List.pairwise_singleton _ _, exec_runIf (fun _ _ _ => trivial) hexec,
    hout, hexec₁, fun heq => ?_⟩
  -- Pages 1 and 2 are a block at the end, but page 2 was the only one at its level.
  have hmem : (⟨1, 1⟩ : Block) ∈ freeBlocks σ₁.alloc :=
    ⟨by decide, 0x1000, ⟨by rw [hhead₁]; decide, 0, hhead₁⟩, by decide⟩
  rw [heq] at hmem
  obtain ⟨-, a, ⟨-, k, hk⟩, hblock⟩ := hmem
  rw [hhead, Function.iterate_fixed hnext] at hk
  subst hk
  exact absurd hblock (by decide)

end Buddy
end Propeller
