import Propeller.Lib.Steps
import Propeller.Mm.Buddy.Clients
import Propeller.Mm.Slab.Owners

/-!
# Slab.Backed — a slab allocator on the page allocator

The slab allocator takes its slabs from the buddy allocator, which has other clients too.  Here both run
together: what a core of the slab allocator gets for a request is what the page allocator hands out.  So the
slabs are aligned, they lie in linear memory and overlap neither each other nor a block of another client
(`BackedInv.regionOk`), which is all that the slab layer relies on.  What is written outside the slabs, by the
page allocator into its free blocks or by others into theirs, does not reach it (`CoresInv.elsewhere`).
-/

namespace Propeller
namespace Slab

open Buddy (PageCall Sound pagesAt availPages BLOCK_LEVELS)

variable {A : Arch} {sh shO shB : Shape A} {ly : Layout A} {virtBase n i size p m a x : Nat}
  {avail : List Buddy.MemoryRange} {g : SlabManager} {mem : Mem} {c : Contents} {regions : List (Nat × Nat)}

/-! ## Both allocators -/

/-- The slab allocator with its cores, the page allocator, and the blocks of its other clients. -/
structure Backed where
  cores : Cores
  pages : Buddy.State
  others : List (Nat × Nat)

/-- What can happen: the steps of the slab allocator and its clients, the calls of other clients of the page
allocator, and a write to a word of memory outside the slabs. -/
inductive Backed.Event
  | callAlloc (i : Nat)
  | callFree (i objAddr : Nat)
  | write (objAddr addr word : Nat)
  | run (i : Nat)
  | other (call : PageCall)
  | elsewhere (addr word : Nat)

def Cores.setWord (σ : Cores) (addr word : Nat) : Cores :=
  { σ with alloc := { σ.alloc with mem := Function.update σ.alloc.mem addr word } }

/-- What the page allocator answers to a step of core `i`, which may not ask it. -/
def Backed.answer (A : Arch) (σ : Backed) (i : Nat) : Run (Option (Nat × Nat) × Buddy.State) :=
  match σ.cores.alloc.request i (σ.cores.pc i) with
  | some size => Buddy.allocate A σ.pages (size / pageSize)
  | none => .ok (none, σ.pages)

def Backed.step (ly : Layout A) (virtBase : Nat) (σ : Backed) : Backed.Event → Run Backed
  | .callAlloc i => do return { σ with cores := ← σ.cores.step ly virtBase (.callAlloc i) }
  | .callFree i objAddr => do return { σ with cores := ← σ.cores.step ly virtBase (.callFree i objAddr) }
  | .write objAddr addr word => do
      return { σ with cores := ← σ.cores.step ly virtBase (.write objAddr addr word) }
  | .run i => do
      let (block, pages) ← σ.answer A i
      return { σ with cores := ← σ.cores.step ly virtBase (.run i (block.map Prod.fst)), pages }
  | .other call => do
      let pages ← (call.run A (.ok σ.pages)).1
      return { σ with
        pages
        others := (call.run A (.ok σ.pages)).2.toList ++ call.freed.elim σ.others σ.others.erase }
  | .elsewhere addr word => .ok { σ with cores := σ.cores.setWord addr word }

/-- The address lies in none of the regions. -/
def Outside (virtBase : Nat) (regions : List (Nat × Nat)) (x : Nat) : Prop :=
  ∀ r ∈ regions, x < r.1 + virtBase ∨ r.1 + virtBase + r.2 ≤ x

/-- Clients free and write what they hold. -/
def Backed.Event.Valid (ly : Layout A) (virtBase n : Nat) (σ : Backed) : Backed.Event → Prop
  | .callAlloc i => (Slab.Event.callAlloc i).Valid ly virtBase n σ.cores
  | .callFree i objAddr => (Slab.Event.callFree i objAddr).Valid ly virtBase n σ.cores
  | .write objAddr addr word => (Slab.Event.write objAddr addr word).Valid ly virtBase n σ.cores
  | .run i => i < n
  | .other call => call.Fits A ∧ ∀ b ∈ call.freed, b ∈ σ.others
  | .elsewhere addr _ => Outside virtBase σ.cores.regions addr

/-- The page allocator returns from the call that the step makes. -/
def Backed.Event.Answered (A : Arch) (σ : Backed) : Backed.Event → Prop
  | .run i => ∃ r, σ.answer A i = .ok r
  | .other call => ∃ s, (call.run A (.ok σ.pages)).1 = .ok s
  | _ => True

/-- With this answer core `i` shares no bundle. -/
def Cores.UnsharedWith (σ : Cores) (i : Nat) : Run (Option (Nat × Nat) × Buddy.State) → Prop
  | .ok (block, _) => Slab.Unshared σ.alloc i (block.map Prod.fst) (σ.pc i)
  | .error _ => True

def Backed.Event.Unshared (A : Arch) (σ : Backed) : Backed.Event → Prop
  | .run i => σ.cores.UnsharedWith i (σ.answer A i)
  | _ => True

/-- Some valid steps that share no bundle lead from `σ` to `σ'`. -/
def Backed.Reaches (ly : Layout A) (virtBase n : Nat) : Backed → Backed → Prop :=
  Steps.Reaches (fun σ e => e.Valid ly virtBase n σ ∧ e.Unshared A σ) (Backed.step ly virtBase)

/-- A region of the slab layer as a block of the page allocator. -/
def regionBlock (r : Nat × Nat) : Nat × Nat :=
  (r.1, r.2 / pageSize)

variable {σ σ' : Backed} {γ : Layers} {out : List (Nat × Nat)} {e : Backed.Event}

/-- The blocks that the page allocator has out are the regions of the slab layer and those of other clients. -/
structure BackedInv (shO shB : Shape A) (virtBase n : Nat) (avail : List Buddy.MemoryRange) (σ : Backed)
    (γ : Layers) (out : List (Nat × Nat)) : Prop where
  cores : CoresInv shO shB virtBase n σ.cores γ
  sound : Sound A (availPages avail) (.ok σ.pages) out
  blocks : out.Perm (σ.cores.regions.map regionBlock ++ σ.others)
  regions : ∀ r ∈ σ.cores.regions, pageSize ∣ r.1 ∧ pageSize ∣ r.2 ∧ 0 < r.2

/-! ## Requests -/

/-- A power of two of pages. -/
def IsSlabSize (size : Nat) : Prop :=
  ∃ k, size = 2 ^ k * pageSize

theorem Shape.isSlabSize (sh : Shape A) : IsSlabSize sh.size := by
  rcases sh.size_pow with ⟨k, hk, hle, -⟩
  refine ⟨k - pageShift, ?_⟩
  rw [hk, pageSize_eq, ← Nat.pow_add]
  congr 1
  omega

theorem Shape.size_lt (sh : Shape A) : sh.size / pageSize < A.wordLimit := by
  rcases sh.size_pow with ⟨k, hk, -, hle⟩
  have hpow : 2 ^ k ≤ 2 ^ A.wordBits := Nat.pow_le_pow_right (by decide) hle
  have hpos := Nat.two_pow_pos k
  rw [hk, Arch.wordLimit]
  exact (Nat.div_lt_self hpos (by decide)).trans_le hpow

/-- The managers ask for slabs of their own size. -/
theorem AllocInv.request_size {s : SlabAllocator} {regions : List (Nat × Nat)} {pc : Pc}
    (h : AllocInv shO shB virtBase n s regions γ) (hreq : s.request i pc = some size) :
    size = shO.size ∨ size = shB.size := by
  have hobj : ∀ {size}, s.objAlloc.request = some size → size = shO.size := by
    intro size hs
    rw [SlabManager.request] at hs
    split at hs
    · rw [← Option.some.inj hs]
      exact h.world.objs.core.has.size
    · cases hs
  have hbundle : ∀ {size}, s.bundleMgr.request = some size → size = shB.size := by
    intro size hs
    rw [BundleManager.request, SlabManager.request] at hs
    split at hs
    · split at hs
      · rw [← Option.some.inj hs]
        exact h.world.bundles.core.has.size
      · cases hs
    · cases hs
  cases pc with
  | allocCurrent =>
      simp only [SlabAllocator.request] at hreq
      split at hreq
      · exact Or.inr (hbundle hreq)
      · cases hreq
  | allocStandby =>
      simp only [SlabAllocator.request] at hreq
      split at hreq
      · exact Or.inr (hbundle hreq)
      · cases hreq
  | allocDirect => exact Or.inl (hobj hreq)
  | freeExchange objAddr => exact Or.inr (hbundle hreq)
  | idle => cases hreq
  | allocCases => cases hreq
  | allocExchange => cases hreq
  | freeCases objAddr => cases hreq
  | freeRelease objAddr => cases hreq
  | freeDirect objAddr => cases hreq

/-- Two blocks of whole pages that share no page. -/
theorem apart_of_disjoint {a b m : Nat} (ha : pageSize ∣ a) (hb : pageSize ∣ b) (hn : 0 < n) (hm : 0 < m)
    (hdisj : Disjoint (pagesAt a n) (pagesAt b m)) : a + n * pageSize ≤ b ∨ b + m * pageSize ≤ a := by
  rcases ha with ⟨i, rfl⟩
  rcases hb with ⟨j, rfl⟩
  simp only [pagesAt, Nat.mul_div_cancel_left _ pageSize_pos, Set.disjoint_left, Set.mem_Ico] at hdisj
  have hsplit : i + n ≤ j ∨ j + m ≤ i := by
    by_contra hcon
    have hi := @hdisj (max i j)
    omega
  rcases hsplit with hle | hle
  · left
    calc
      pageSize * i + n * pageSize = pageSize * (i + n) := by rw [Nat.mul_add, Nat.mul_comm n]
      _ ≤ pageSize * j := Nat.mul_le_mul_left _ hle
  · right
    calc
      pageSize * j + m * pageSize = pageSize * (j + m) := by rw [Nat.mul_add, Nat.mul_comm m]
      _ ≤ pageSize * i := Nat.mul_le_mul_left _ hle

/-- The page allocator answers a request for a slab with a block of the size of the slab that the slab layer
may use. -/
theorem BackedInv.regionOk (h : BackedInv shO shB virtBase n avail σ γ out) (hzero : 0 ∉ availPages avail)
    (hlin : ∀ q ∈ availPages avail, (q + 1) * pageSize + virtBase < A.wordLimit) (hsize : IsSlabSize size)
    (hlt : size / pageSize < A.wordLimit) {s' : Buddy.State}
    (halloc : Buddy.allocate A σ.pages (size / pageSize) = .ok (some (p, m), s')) :
    m = size / pageSize ∧ RegionOk A virtBase σ.cores.regions size p := by
  have hg := h.sound.guarantee hlt halloc
  rcases hsize with ⟨k, rfl⟩
  rw [Nat.mul_div_cancel _ pageSize_pos] at hg ⊢
  obtain rfl : m = 2 ^ k := Nat.le_antisymm (hg.smallest k le_rfl) hg.enough
  have hpow := Nat.two_pow_pos k
  have hpage : pageSize ∣ p := (Nat.dvd_mul_left _ _).trans hg.aligned
  refine ⟨rfl, ?_, hg.aligned, ?_, ?_⟩
  · rintro rfl
    refine hzero (hg.available ⟨?_, ?_⟩)
    · exact (Nat.zero_div _).le
    · rw [Nat.zero_div, Nat.zero_add]
      exact hpow
  · -- The last page of the block is available.
    have hlast := hlin _ (hg.available (show p / pageSize + (2 ^ k - 1) ∈ _ from ⟨by omega, by omega⟩))
    have hp := Nat.div_mul_cancel hpage
    have hmul : (p / pageSize + (2 ^ k - 1) + 1) * pageSize = p + 2 ^ k * pageSize := by
      rw [Nat.add_assoc, Nat.sub_add_cancel hpow, Nat.add_mul, hp]
    omega
  · intro r hr
    rcases h.regions r hr with ⟨hr1, hr2, hpos⟩
    have hmem : regionBlock r ∈ out := h.blocks.symm.subset (List.mem_append_left _ (List.mem_map_of_mem hr))
    have hcount : 0 < r.2 / pageSize := Nat.div_pos (Nat.le_of_dvd hpos hr2) pageSize_pos
    have hapart := apart_of_disjoint hpage hr1 hpow hcount (hg.apart _ hmem)
    rwa [Nat.div_mul_cancel hr2] at hapart

/-! ## The rest of memory -/

/-- Words outside the regions are in no slab. -/
theorem Core.outside (h : Core sh g mem c)
    (hregions : ∀ a, c.Holds a → ∃ p, (p, sh.size) ∈ regions ∧ a = grantNode sh virtBase p)
    (hx : Outside virtBase regions x) (ha : c.Holds a) : x < slabBase sh a ∨ a + nodeSize A ≤ x := by
  have hbase := (h.site ha).base_add
  rcases hregions a ha with ⟨p, hp, rfl⟩
  have hout := hx _ hp
  rw [slabBase_grantNode] at hbase ⊢
  omega

theorem Core.not_isMeta_outside (h : Core sh g mem c)
    (hregions : ∀ a, c.Holds a → ∃ p, (p, sh.size) ∈ regions ∧ a = grantNode sh virtBase p)
    (hx : Outside virtBase regions x) : ¬ IsMeta sh c x := by
  intro hmeta
  rcases h.isMeta_inside hmeta with ⟨a, ha, hlo, hhi⟩
  rcases h.outside hregions hx ha with hlt | hle
  · omega
  · omega

/-- The slab allocator does not see what is written outside its slabs. -/
theorem CoresInv.elsewhere {cores : Cores} {γ : Layers} (h : CoresInv shO shB virtBase n cores γ)
    (hB : shB.toLayout = bundleLayout A) (hx : Outside virtBase cores.regions x) (word : Nat) :
    CoresInv shO shB virtBase n (cores.setWord x word) γ := by
  have hworld := h.inv.world
  refine h.writeWord ?_ ?_ ?_ word
  · exact hworld.objs.core.not_isMeta_outside hworld.objRegions hx
  · exact hworld.bundles.core.not_isMeta_outside hworld.bundleRegions hx
  · intro b hb j hj heq
    rcases hworld.slot_inside hB hb hj with ⟨d, hd, hlo, hhi⟩
    rcases hworld.bundles.core.outside hworld.bundleRegions hx hd with hlt | hle
    · omega
    · omega

/-! ## Steps -/

namespace BackedInv

/-- A step of a client of the slab allocator, which asks for no pages. -/
theorem client (h : BackedInv shO shB virtBase n avail σ γ out) {cores : Cores} {γ' : Layers}
    (hinv : CoresInv shO shB virtBase n cores γ') (hregions : cores.regions = σ.cores.regions) :
    BackedInv shO shB virtBase n avail { σ with cores } γ' out := by
  refine ⟨hinv, h.sound, ?_, ?_⟩
  · simp only [hregions]
    exact h.blocks
  · simp only [hregions]
    exact h.regions

/-- What the page allocator answers to a core keeps the books of the page allocator, and is what the slab layer
asks for. -/
theorem answer (h : BackedInv shO shB virtBase n avail σ γ out) (hzero : 0 ∉ availPages avail)
    (hlin : ∀ q ∈ availPages avail, (q + 1) * pageSize + virtBase < A.wordLimit)
    {block : Option (Nat × Nat)} {pages : Buddy.State} (hrun : σ.answer A i = .ok (block, pages)) :
    (∀ size ∈ σ.cores.alloc.request i (σ.cores.pc i), ∀ p ∈ block.map Prod.fst,
      RegionOk A virtBase σ.cores.regions size p) ∧
    ∃ out', Sound A (availPages avail) (.ok pages) out' ∧
      out'.Perm (((Slab.answer (σ.cores.alloc.request i (σ.cores.pc i)) (block.map Prod.fst)).toList ++
        σ.cores.regions).map regionBlock ++ σ.others) ∧
      ∀ r ∈ Slab.answer (σ.cores.alloc.request i (σ.cores.pc i)) (block.map Prod.fst),
        pageSize ∣ r.1 ∧ pageSize ∣ r.2 ∧ 0 < r.2 := by
  rw [Backed.answer] at hrun
  cases hreq : σ.cores.alloc.request i (σ.cores.pc i) with
  | none =>
      rw [hreq] at hrun
      obtain ⟨rfl, rfl⟩ := Prod.mk.inj (Except.ok.inj hrun)
      refine ⟨?_, out, h.sound, h.blocks, ?_⟩
      · intro size hs
        cases hs
      · intro r hr
        cases hr
  | some size =>
      simp only [hreq] at hrun
      have hwhich := h.cores.inv.request_size hreq
      have hsize : IsSlabSize size := by
        rcases hwhich with rfl | rfl
        · exact shO.isSlabSize
        · exact shB.isSlabSize
      have hlt : size / pageSize < A.wordLimit := by
        rcases hwhich with rfl | rfl
        · exact shO.size_lt
        · exact shB.size_lt
      have hfits : (PageCall.allocate (size / pageSize)).Fits A := hlt
      rcases h.sound.call hfits h.blocks with ⟨out', hsound, hperm⟩
      have hcall : PageCall.run A (.ok σ.pages) (.allocate (size / pageSize)) = (.ok pages, block) := by
        simp only [PageCall.run, run_ok_bind, hrun]
      rw [hcall] at hsound hperm
      cases block with
      | none =>
          refine ⟨?_, out', hsound, hperm, ?_⟩
          · intro size' _ p hp
            cases hp
          · intro r hr
            cases hr
      | some b =>
          rcases b with ⟨p, m⟩
          rcases h.regionOk hzero hlin hsize hlt hrun with ⟨rfl, hok⟩
          rcases hsize with ⟨k, rfl⟩
          refine ⟨?_, out', hsound, hperm, ?_⟩
          · rintro size' hs' p' hp'
            obtain rfl := Option.some.inj hs'
            obtain rfl := Option.some.inj hp'
            exact hok
          · rintro r hr
            obtain rfl := Option.some.inj hr
            exact ⟨(Nat.dvd_mul_left _ _).trans hok.dvd, Nat.dvd_mul_left _ _,
              Nat.mul_pos (Nat.two_pow_pos k) pageSize_pos⟩

/-- A call of another client of the page allocator. -/
theorem other (h : BackedInv shO shB virtBase n avail σ γ out) {call : PageCall} (hfits : call.Fits A)
    (hmem : ∀ b ∈ call.freed, b ∈ σ.others) {pages : Buddy.State}
    (hrun : (call.run A (.ok σ.pages)).1 = .ok pages) :
    ∃ out', BackedInv shO shB virtBase n avail { σ with
      pages
      others := (call.run A (.ok σ.pages)).2.toList ++ call.freed.elim σ.others σ.others.erase } γ out' := by
  have hothers : σ.others.Perm (call.freed.toList ++ call.freed.elim σ.others σ.others.erase) := by
    cases hfreed : call.freed with
    | none => exact List.Perm.refl _
    | some b => exact List.perm_cons_erase (hmem b hfreed)
  have hperm : out.Perm (call.freed.toList ++
      (σ.cores.regions.map regionBlock ++ call.freed.elim σ.others σ.others.erase)) := by
    refine (h.blocks.trans (List.Perm.append_left _ hothers)).trans ?_
    rw [← List.append_assoc, ← List.append_assoc]
    exact List.Perm.append_right _ List.perm_append_comm
  rcases h.sound.call hfits hperm with ⟨out', hsound, hperm'⟩
  rw [hrun] at hsound
  refine ⟨out', h.cores, hsound, ?_, h.regions⟩
  refine hperm'.trans ?_
  rw [← List.append_assoc, ← List.append_assoc]
  exact List.Perm.append_right _ List.perm_append_comm

/-- Every valid step that shares no bundle returns if the page allocator does, and keeps the books. -/
theorem step (h : BackedInv shO shB virtBase n avail σ γ out) (hB : shB.toLayout = bundleLayout A)
    (hbaseO : shO.size ∣ virtBase) (hbaseB : shB.size ∣ virtBase) (hzero : 0 ∉ availPages avail)
    (hlin : ∀ q ∈ availPages avail, (q + 1) * pageSize + virtBase < A.wordLimit)
    (hvalid : e.Valid shO.toLayout virtBase n σ) (hcond : e.Unshared A σ) (hanswer : e.Answered A σ) :
    ∃ σ' γ' out', σ.step shO.toLayout virtBase e = .ok σ' ∧ BackedInv shO shB virtBase n avail σ' γ' out' := by
  cases e with
  | callAlloc i =>
      have hevent : (Slab.Event.callAlloc i).Valid shO.toLayout virtBase n σ.cores := hvalid
      rcases h.cores.step hB hbaseO hbaseB hevent trivial with ⟨cores, γ', hstep, hinv, -⟩
      obtain rfl := Except.ok.inj hstep
      exact ⟨_, γ', out, rfl, h.client hinv rfl⟩
  | callFree i objAddr =>
      have hevent : (Slab.Event.callFree i objAddr).Valid shO.toLayout virtBase n σ.cores := hvalid
      rcases h.cores.step hB hbaseO hbaseB hevent trivial with ⟨cores, γ', hstep, hinv, -⟩
      obtain rfl := Except.ok.inj hstep
      exact ⟨_, γ', out, rfl, h.client hinv rfl⟩
  | write objAddr addr word =>
      have hevent : (Slab.Event.write objAddr addr word).Valid shO.toLayout virtBase n σ.cores := hvalid
      rcases h.cores.step hB hbaseO hbaseB hevent trivial with ⟨cores, γ', hstep, hinv, -⟩
      obtain rfl := Except.ok.inj hstep
      exact ⟨_, γ', out, rfl, h.client hinv rfl⟩
  | run i =>
      rcases hanswer with ⟨⟨block, pages⟩, hrun⟩
      rcases h.answer hzero hlin hrun with ⟨hgrant, out', hsound, hperm, hnew⟩
      have hevent : (Slab.Event.run i (block.map Prod.fst)).Valid shO.toLayout virtBase n σ.cores := ⟨hvalid, hgrant⟩
      have hunshared : (Slab.Event.run i (block.map Prod.fst)).Unshared σ.cores := by
        rw [Backed.Event.Unshared, hrun] at hcond
        exact hcond
      rcases h.cores.step hB hbaseO hbaseB hevent hunshared with ⟨cores, γ', hstep, hinv, -⟩
      -- The slab layer enters the block in its regions.
      have hregions : cores.regions = (Slab.answer (σ.cores.alloc.request i (σ.cores.pc i))
          (block.map Prod.fst)).toList ++ σ.cores.regions := by
        rcases run_bind_eq_ok.1 hstep with ⟨r, -, hstep⟩
        obtain rfl := Except.ok.inj hstep
        rfl
      refine ⟨{ σ with cores, pages }, γ', out', ?_, hinv, hsound, ?_, ?_⟩
      · simp only [Backed.step, hrun, run_ok_bind, hstep]
        rfl
      · simp only [hregions]
        exact hperm
      · simp only [hregions]
        intro r hr
        rcases List.mem_append.1 hr with hr | hr
        · exact hnew r (Option.mem_toList.1 hr)
        · exact h.regions r hr
  | other call =>
      rcases hanswer with ⟨pages, hrun⟩
      rcases h.other hvalid.1 hvalid.2 hrun with ⟨out', hinv⟩
      refine ⟨_, γ, out', ?_, hinv⟩
      simp only [Backed.step, hrun, run_ok_bind]
      rfl
  | elsewhere addr word => exact ⟨_, γ, out, rfl, h.client (h.cores.elsewhere hB hvalid word) rfl⟩

/-- A step that returns has got its answer. -/
theorem answered (hstep : σ.step ly virtBase e = .ok σ') : e.Answered A σ := by
  cases e with
  | callAlloc i => trivial
  | callFree i objAddr => trivial
  | write objAddr addr word => trivial
  | run i =>
      rcases run_bind_eq_ok.1 hstep with ⟨r, hr, -⟩
      exact ⟨r, hr⟩
  | other call =>
      rcases run_bind_eq_ok.1 hstep with ⟨s, hs, -⟩
      exact ⟨s, hs⟩
  | elsewhere addr word => trivial

theorem run (h : BackedInv shO shB virtBase n avail σ γ out) (hB : shB.toLayout = bundleLayout A)
    (hbaseO : shO.size ∣ virtBase) (hbaseB : shB.size ∣ virtBase) (hzero : 0 ∉ availPages avail)
    (hlin : ∀ q ∈ availPages avail, (q + 1) * pageSize + virtBase < A.wordLimit)
    (hrun : Backed.Reaches shO.toLayout virtBase n σ σ') :
    ∃ γ' out', BackedInv shO shB virtBase n avail σ' γ' out' := by
  refine Steps.Reaches.invariant (I := fun σ => ∃ γ out, BackedInv shO shB virtBase n avail σ γ out) hrun ?_
    ⟨γ, out, h⟩
  rintro σ e σ' ⟨γ₁, out₁, h₁⟩ ⟨hvalid, hcond⟩ hstep
  rcases h₁.step hB hbaseO hbaseB hzero hlin hvalid hcond (answered hstep) with ⟨σ₂, γ₂, out₂, hstep', h₂⟩
  obtain rfl := Except.ok.inj (hstep.symm.trans hstep')
  exact ⟨γ₂, out₂, h₂⟩

end BackedInv

/-! ## Objects and blocks -/

/-- Every object lies in a slab of the slab allocator, no two objects and no two blocks overlap. -/
structure Exclusive (ly : Layout A) (virtBase : Nat) (σ : Backed) : Prop where
  inside : ∀ o ∈ σ.cores.held, ∃ r ∈ σ.cores.regions, r.1 + virtBase ≤ o ∧ o + ly.objSize ≤ r.1 + virtBase + r.2
  objects : σ.cores.held.Pairwise fun o o' => o + ly.objSize ≤ o' ∨ o' + ly.objSize ≤ o
  blocks : (σ.cores.regions.map regionBlock ++ σ.others).Pairwise fun b b' =>
    Disjoint (pagesAt b.1 b.2) (pagesAt b'.1 b'.2)

theorem BackedInv.exclusive (h : BackedInv shO shB virtBase n avail σ γ out) :
    Exclusive shO.toLayout virtBase σ := by
  have hcore := h.cores.inv.world.objs.core
  have hslab : ∀ o ∈ σ.cores.held, ∃ a, γ.objs.Holds a ∧ o ∈ objects shO a := by
    intro o ho
    rcases (hcore.out_iff o).1 (h.cores.mem_out_of_held ho) with ⟨a, ha, hoa, -⟩
    exact ⟨a, ha, hoa⟩
  refine ⟨?_, ?_, ?_⟩
  · intro o ho
    rcases hslab o ho with ⟨a, ha, hoa⟩
    rcases h.cores.inv.world.objRegions a ha with ⟨p, hp, rfl⟩
    have hin := (hcore.site ha).object_inside hoa
    have hbase := (hcore.site ha).base_add
    rw [slabBase_grantNode] at hin hbase
    exact ⟨_, hp, hin.1, by omega⟩
  · refine h.cores.held_nodup.pairwise_of_forall_ne ?_
    intro o ho o' ho' hne
    rcases hslab o ho with ⟨a, ha, hoa⟩
    rcases hslab o' ho' with ⟨a', ha', hoa'⟩
    exact (hcore.site ha).objects_apart (hcore.site ha') hoa hoa' hne
  · exact (h.blocks.pairwise_iff fun hd => Disjoint.symm hd).1 h.sound.apart

/-- A slab allocator that takes its slabs from the buddy allocator, with other clients beside it: in every state
that is reached by steps that share no bundle, the objects that clients hold lie in slabs and do not overlap, and
neither do the slabs and the blocks of the other clients; and every further such step returns if the page
allocator does. -/
theorem backed_exclusive {maxBlockPages base size metadata : Nat} {mem : Mem} {s : SlabAllocator}
    {cfg : KernelConfig} {nodes : Nat → Buddy.BlockNode} {pages : Buddy.State}
    (hslab : SlabAllocator.new ly maxBlockPages mem = .ok s) (hbaseO : s.objAlloc.slabSize ∣ virtBase)
    (hbaseB : s.bundleMgr.bundleAlloc.slabSize ∣ virtBase)
    (hpages : Buddy.new A cfg base size metadata avail nodes = .ok (some pages))
    (hdisj : Buddy.DisjointRanges avail) (hzero : 0 ∉ availPages avail)
    (hbase : 2 ^ (BLOCK_LEVELS - 1) ∣ pages.basePage)
    (hlin : ∀ q ∈ availPages avail, (q + 1) * pageSize + virtBase < A.wordLimit)
    (hrun : Backed.Reaches ly virtBase n ⟨Cores.start s, pages, []⟩ σ) :
    Exclusive ly virtBase σ ∧ ∀ e : Backed.Event, e.Valid ly virtBase n σ → e.Unshared A σ → e.Answered A σ →
      ∃ σ', σ.step ly virtBase e = .ok σ' := by
  rcases CoresInv.init virtBase n hslab with ⟨shO, shB, rfl, hlyB, hsizeO, hsizeB, h₀, -⟩
  rw [← hsizeO] at hbaseO
  rw [← hsizeB] at hbaseB
  rcases Buddy.new_spec hpages hdisj.pages hzero with ⟨-, L, hbuilt⟩
  have hsafe : Buddy.Safe A (availPages avail) ⟨pages, []⟩ (Buddy.blocksOf L) [] :=
    ⟨hbuilt.consistent.books, hbuilt.consistent.tiling, hbuilt.cover.subset, rfl, by simp, List.Pairwise.nil⟩
  have hinit : BackedInv shO shB virtBase n avail ⟨Cores.start s, pages, []⟩
      ⟨Contents.none, Contents.none, [], []⟩ [] :=
    ⟨h₀, Sound.of_safe hbase hsafe, List.Perm.refl _, fun r hr => absurd hr List.not_mem_nil⟩
  rcases hinit.run hlyB hbaseO hbaseB hzero hlin hrun with ⟨γ, out, h⟩
  refine ⟨h.exclusive, ?_⟩
  intro e hvalid hcond hanswer
  rcases h.step hlyB hbaseO hbaseB hzero hlin hvalid hcond hanswer with ⟨σ', -, -, hstep, -⟩
  exact ⟨σ', hstep⟩

/-! ## A run -/

instance (call : PageCall) : Decidable (call.Fits A) :=
  match call with
  | .allocate pages => inferInstanceAs (Decidable (pages < A.wordLimit))
  | .free addr pages left => inferInstanceAs (Decidable (∀ p ∈ left, addr / pageSize ≤ p.1 / pageSize ∧
      p.1 / pageSize < addr / pageSize + pages))

instance (ly : Layout A) (virtBase n : Nat) (σ : Backed) (e : Backed.Event) :
    Decidable (e.Valid ly virtBase n σ) :=
  match e with
  | .callAlloc i => inferInstanceAs (Decidable ((Slab.Event.callAlloc i).Valid ly virtBase n σ.cores))
  | .callFree i objAddr =>
      inferInstanceAs (Decidable ((Slab.Event.callFree i objAddr).Valid ly virtBase n σ.cores))
  | .write objAddr addr word =>
      inferInstanceAs (Decidable ((Slab.Event.write objAddr addr word).Valid ly virtBase n σ.cores))
  | .run i => inferInstanceAs (Decidable (i < n))
  | .other call => inferInstanceAs (Decidable (call.Fits A ∧ ∀ b ∈ call.freed, b ∈ σ.others))
  | .elsewhere addr _ => inferInstanceAs (Decidable (∀ r ∈ σ.cores.regions,
      addr < r.1 + virtBase ∨ r.1 + virtBase + r.2 ≤ addr))

instance (σ : Cores) (i : Nat) (r : Run (Option (Nat × Nat) × Buddy.State)) : Decidable (σ.UnsharedWith i r) :=
  match r with
  | .ok (block, _) => inferInstanceAs (Decidable (Slab.Unshared σ.alloc i (block.map Prod.fst) (σ.pc i)))
  | .error _ => isTrue trivial

instance (σ : Backed) (e : Backed.Event) : Decidable (e.Unshared A σ) :=
  match e with
  | .run i => inferInstanceAs (Decidable (σ.cores.UnsharedWith i (σ.answer A i)))
  | .callAlloc _ | .callFree _ _ | .write _ _ _ | .other _ | .elsewhere _ _ => isTrue trivial

/-- Core 0 allocates an object, and then a client of the page allocator gets a page and writes to it. -/
def firstBacked : List Backed.Event :=
  .callAlloc 0 :: List.replicate 5 (.run 0) ++ [.other (.allocate 1), .elsewhere 0xffff000000402000 7]

/-- Four pages: bundles, objects, and a page of a client. -/
theorem backed_exclusive_first :
    ∃ s pages σ, SlabAllocator.new smallLayout 1024 (fun _ => 0) = .ok s ∧
      Buddy.new .aarch64 Buddy.exampleConfig 0x400000 0x4000 0x1000 [⟨0x400000, 0x4000⟩]
        (fun _ => ⟨0, 0, 0⟩) = .ok (some pages) ∧
      Backed.Reaches smallLayout 0xffff000000000000 1 ⟨Cores.start s, pages, []⟩ σ ∧
      σ.cores.regions = [(0x401000, 4096), (0x400000, 4096)] ∧ σ.others = [(0x402000, 1)] ∧
      Exclusive smallLayout 0xffff000000000000 σ ∧
      ∀ e : Backed.Event, e.Valid smallLayout 0xffff000000000000 1 σ → e.Unshared .aarch64 σ →
        e.Answered .aarch64 σ → ∃ σ', σ.step smallLayout 0xffff000000000000 e = .ok σ' := by
  have hmap : (do
      let s ← SlabAllocator.new smallLayout 1024 (fun _ => 0)
      let r ← Buddy.new .aarch64 Buddy.exampleConfig 0x400000 0x4000 0x1000 [⟨0x400000, 0x4000⟩]
        (fun _ => ⟨0, 0, 0⟩)
      match r with
      | none => .error .badBlock
      | some pages => do
          let σ ← Steps.trace .unwrap
            (fun σ e => e.Valid smallLayout 0xffff000000000000 1 σ ∧ e.Unshared .aarch64 σ)
            (Backed.step smallLayout 0xffff000000000000) ⟨Cores.start s, pages, []⟩ firstBacked
          return decide (s.objAlloc.slabSize = 4096 ∧ s.bundleMgr.bundleAlloc.slabSize = 4096 ∧
            pages.base = 0x400000 ∧ σ.cores.regions = [(0x401000, 4096), (0x400000, 4096)] ∧
            σ.others = [(0x402000, 1)]) : Run Bool) = .ok true := by
    decide +kernel
  rcases run_bind_eq_ok.1 hmap with ⟨s, hslab, hmap⟩
  rcases run_bind_eq_ok.1 hmap with ⟨_ | pages, hpages, hmap⟩
  · cases hmap
  rcases run_bind_eq_ok.1 hmap with ⟨σ, htrace, hmap⟩
  rcases of_decide_eq_true (Except.ok.inj hmap) with ⟨hsizeO, hsizeB, hbase, hregions, hothers⟩
  have hrun : Backed.Reaches _ _ _ _ _ := Steps.reaches_of_trace htrace
  refine ⟨s, pages, σ, hslab, hpages, hrun, hregions, hothers, ?_⟩
  refine backed_exclusive hslab ?_ ?_ hpages (List.pairwise_singleton _ _)
    (Buddy.zero_not_mem_availPages hpages (by decide) (by decide)) ?_ ?_ hrun
  · rw [hsizeO]
    decide
  · rw [hsizeB]
    decide
  · rw [Buddy.State.basePage, hbase]
    decide
  · rintro q ⟨r, hr, hq⟩
    obtain rfl := List.mem_singleton.1 hr
    have hlt : q < 0x400000 / pageSize + 0x4000 / pageSize := hq.2
    simp only [pageSize, Arch.wordLimit, Arch.wordBits] at hlt ⊢
    omega

end Slab
end Propeller
