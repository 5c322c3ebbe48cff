import Propeller.Lib.Loop
import Propeller.Mm.Slab.Runs

/-!
# Slab.Unused — `SlabManager::free_unused`

`free_unused` walks the ring of unused slabs once around and hands every slab back to the page allocator.
The slab layer is generic in the page allocator, so it is a parameter here, too: a `PageAllocator` works on
its own state and on the memory, since it keeps the nodes of its free blocks in the free pages, and
`Lawful` is what the trait and the layout of these nodes promise.

The trace of a call lists its accesses to memory and its calls of the page allocator in order.  A round
takes the next slab from the node it is at, poisons that node, and frees the *next* slab: the slabs
are freed once each, the first one last, but each of the others is visited after it has been freed.
-/

namespace Propeller
namespace Slab

variable {A : Arch} {sh : Shape A} {virtBase : Nat}

open SlabManager

/-! ## The page allocator -/

/-- The calls of the trait `PageAllocator` that the slab layer makes. -/
structure PageAllocator where
  State : Type
  alloc : Nat → State → Mem → Run (Option (Nat × Nat) × State × Mem)
  free : Nat → Nat → State → Mem → Run (State × Mem)

/-- `x` lies in the first three words of a page, where the node of a free block is. -/
def IsBlockWord (A : Arch) (x : Nat) : Prop :=
  x % pageSize < 3 * A.wordBytes

/-- Only nodes of free blocks have been written, when the blocks `bs` are handed out. -/
def BlocksOnly (A : Arch) (size virtBase : Nat) (bs : List Nat) (m m' : Mem) : Prop :=
  ∀ x, m' x ≠ m x → IsBlockWord A x ∧ ¬ InBlocks size virtBase bs x

/-- What a page allocator promises to a client that holds blocks of `pages` pages: it hands out aligned
blocks, takes back what it has handed out, and keeps to the nodes at the starts of its free blocks.
`Lends s m bs` says that the client holds the blocks `bs`. -/
structure Lawful (P : PageAllocator) (A : Arch) (virtBase pages : Nat) where
  Lends : P.State → Mem → List Nat → Prop
  frame : ∀ {s m m' bs}, Lends s m bs →
    (∀ x, IsBlockWord A x → ¬ InBlocks (pages * pageSize) virtBase bs x → m' x = m x) → Lends s m' bs
  alloc : ∀ {s m bs}, Lends s m bs → ∃ r s' m', P.alloc pages s m = .ok (r, s', m') ∧
    Lends s' m' ((r.map Prod.fst).toList ++ bs) ∧ BlocksOnly A (pages * pageSize) virtBase bs m m' ∧
    ∀ p ∈ r.map Prod.fst, BlockOk A (pages * pageSize) virtBase bs p
  free : ∀ {s m bs p}, Lends s m bs → p ∈ bs → ∃ s' m', P.free p pages s m = .ok (s', m') ∧
    Lends s' m' (bs.erase p) ∧ BlocksOnly A (pages * pageSize) virtBase (bs.erase p) m m'

/-! ## The call -/

/-- An access to a word of memory or a call of the page allocator. -/
inductive Access
  | read (addr : Nat)
  | write (addr : Nat)
  | free (addr pages : Nat)
  deriving DecidableEq, Repr

/-- The addresses of the fields of a node. -/
def nodeWords (A : Arch) (a : Nat) : List Nat :=
  (List.range 5).map fun i => a + i * A.wordBytes

/-- A round at the node `a`: the checksum is verified, `next` is read, and every field is poisoned. -/
def visit (A : Arch) (a : Nat) : List Access :=
  (nodeWords A a).map .read ++ [.read (a + 3 * A.wordBytes)] ++ (nodeWords A a).map .write

def poisonNode (A : Arch) : SlabNode :=
  ⟨A.poison, A.poison, A.poison, A.poison, A.poison⟩

/-- The variables of the loop, and the trace so far. -/
structure Sweep (P : PageAllocator) where
  mgr : SlabManager
  pages : P.State
  mem : Mem
  nodeAddr : Nat
  trace : List Access

variable {P : PageAllocator}

/-- One round of the loop. -/
def freeRound (A : Arch) (P : PageAllocator) (virtBase : Nat) (s : Sweep P) :
    Run (Sweep P ⊕ Sweep P) := do
  let slabSize := (s.mgr.slabPages <<< pageShift) % A.wordLimit
  let node ← getSlabNodeMut A s.mem s.nodeAddr
  let nodeAddr := node.next
  let mem := writeNode A s.mem s.nodeAddr (poisonNode A)
  let slabAddr := alignDown A nodeAddr slabSize
  let physAddr ← checkedSub slabAddr virtBase
  let (pages, mem) ← P.free physAddr s.mgr.slabPages s.pages mem
  let slabsAllocated ← checkedSub s.mgr.slabsAllocated 1
  let objectsAvailable ← checkedSub s.mgr.objectsAvailable s.mgr.objsPerSlab
  let s' : Sweep P :=
    ⟨{ s.mgr with slabsAllocated, objectsAvailable }, pages, mem, nodeAddr,
      s.trace ++ visit A s.nodeAddr ++ [.free physAddr s.mgr.slabPages]⟩
  return if nodeAddr = s.mgr.unused then .inr s' else .inl s'

/-- `SlabManager::free_unused`.  Every round lowers `slabs_allocated`, so there are no more rounds than
slabs before the subtraction fails. -/
def freeUnused (A : Arch) (P : PageAllocator) (virtBase : Nat) (g : SlabManager) (pages : P.State)
    (m : Mem) : Run (Sweep P) := do
  let s ← Loop.iterate .diverges (freeRound A P virtBase) (g.slabsAllocated + 1)
    ⟨g, pages, m, g.unused, []⟩
  return { s with mgr := { s.mgr with unused := 0 } }

/-- The physical address of a slab. -/
def blockOf (sh : Shape A) (virtBase a : Nat) : Nat :=
  slabBase sh a - virtBase

/-- The trace of a sweep that is at `a` and frees the slabs `cs`. -/
def sweepTrace (sh : Shape A) (virtBase pages : Nat) : Nat → List Nat → List Access
  | _, [] => []
  | a, c :: cs =>
      visit A a ++ .free (blockOf sh virtBase c) pages :: sweepTrace sh virtBase pages c cs

theorem mem_nodeWords {a x : Nat} : x ∈ nodeWords A a ↔ IsNodeWord A a x := by
  simp [nodeWords, IsNodeWord, eq_comm]

/-! ## Nodes and blocks -/

/-- Slab nodes are at the ends of pages, the nodes of free blocks at the starts. -/
theorem Site.not_isBlockWord {a x : Nat} (ha : Site sh a) (hx : IsNodeWord A a x) :
    ¬ IsBlockWord A x := by
  rcases hx with ⟨i, hi, rfl⟩
  have hdvd : pageSize ∣ a + nodeSize A := sh.pageSize_dvd.trans ha.dvd
  rcases hdvd with ⟨q, hq⟩
  have hw := wordBytes_pos A
  have hbytes : A.wordBytes ≤ 8 := by cases A <;> decide
  have hmul := Nat.mul_le_mul_right A.wordBytes (Nat.succ_le_of_lt hi)
  rw [Nat.succ_mul] at hmul
  have hnode : nodeSize A = 5 * A.wordBytes := rfl
  have hpage : pageSize = 4096 := rfl
  have hq1 : 1 ≤ q := by
    by_contra hq0
    rw [Nat.lt_one_iff.1 (Nat.lt_of_not_le hq0)] at hq
    have := ha.base_pos
    omega
  have hx : a + i * A.wordBytes = pageSize * (q - 1) + (pageSize - 5 * A.wordBytes + i * A.wordBytes) := by
    rw [hpage] at hq ⊢
    omega
  rw [IsBlockWord, hx, Nat.mul_add_mod, Nat.mod_eq_of_lt (by omega)]
  omega

theorem Site.same_slab {a b x : Nat} (ha : Site sh a) (hb : Site sh b) (hx : slabBase sh a ≤ x)
    (hx' : x < slabBase sh a + sh.size) (hxb : IsNodeWord A b x) : a = b := by
  by_contra hne
  have hin := hb.isNodeWord_inside hxb
  have hbase := ha.base_add
  have hbase' := hb.base_add
  rcases ha.apart hb hne with hlt | hlt
  · omega
  · omega

theorem blockOf_inj {a b : Nat} (ha : Site sh a) (hb : Site sh b) (hva : virtBase ≤ slabBase sh a)
    (hvb : virtBase ≤ slabBase sh b) (h : blockOf sh virtBase a = blockOf sh virtBase b) : a = b := by
  have hbase := ha.base_add
  have hbase' := hb.base_add
  rw [blockOf, blockOf] at h
  omega

/-! ## The sweep -/

variable {pages : Nat} {L : Lawful P A virtBase pages} {h b c x : Nat} {bs r cs : List Nat}
  {s s' t : Sweep P}

/-- The sweep from `s` at the node `b` to `s'` has freed the slabs `cs`. -/
structure SweptTo (L : Lawful P A virtBase pages) (sh : Shape A) (bs : List Nat) (b : Nat)
    (cs : List Nat) (s s' : Sweep P) : Prop where
  mgr : s'.mgr = { s.mgr with
    slabsAllocated := s.mgr.slabsAllocated - cs.length
    objectsAvailable := s.mgr.objectsAvailable - cs.length * s.mgr.objsPerSlab }
  lends : L.Lends s'.pages s'.mem (bs.diff (cs.map (blockOf sh virtBase)))
  mem : ∀ x, (∀ a ∈ (b :: cs).dropLast, ¬ IsNodeWord A a x) →
    (IsBlockWord A x →
      InBlocks (pages * pageSize) virtBase (bs.diff (cs.map (blockOf sh virtBase))) x) →
    s'.mem x = s.mem x
  trace : s'.trace = s.trace ++ sweepTrace sh virtBase pages b cs

theorem SweptTo.trans {u : Sweep P} (h₁ : SweptTo L sh bs b [c] s t)
    (h₂ : SweptTo L sh (bs.erase (blockOf sh virtBase c)) c cs t u) :
    SweptTo L sh bs b (c :: cs) s u := by
  have hdiff : bs.diff ((c :: cs).map (blockOf sh virtBase)) =
      (bs.erase (blockOf sh virtBase c)).diff (cs.map (blockOf sh virtBase)) := by
    rw [List.map_cons, List.diff_cons]
  -- The counters, the blocks that are still lent, and the words that are kept.
  refine ⟨?_, ?_, ?_, ?_⟩
  · have hcount : (cs.length + 1) * s.mgr.objsPerSlab =
        cs.length * s.mgr.objsPerSlab + s.mgr.objsPerSlab := Nat.succ_mul _ _
    rw [h₂.mgr, h₁.mgr]
    simp only [List.length_cons, List.length_nil, hcount, SlabManager.mk.injEq, true_and]
    constructor
    · omega
    · omega
  · rw [hdiff]
    exact h₂.lends
  · intro x hx hblock
    rw [hdiff] at hblock
    rw [List.dropLast_cons_of_ne_nil (by simp)] at hx
    have hlast : t.mem x = s.mem x := by
      refine h₁.mem x ?_ ?_
      · intro a ha
        exact hx a (by simpa using Or.inl ha)
      · intro hword
        rw [List.map_singleton, List.diff_cons, List.diff_nil]
        exact (hblock hword).mono (List.diff_sublist (bs.erase _) _).subset
    rw [← hlast]
    exact h₂.mem x (fun a ha => hx a (List.mem_cons_of_mem b ha)) hblock
  · rw [h₂.trace, h₁.trace]
    simp [sweepTrace]

/-- The sweep is at the node `b`, with the slabs `r` before it on the way to the head `h`. -/
structure Ready (L : Lawful P A virtBase pages) (sh : Shape A) (h : Nat) (bs : List Nat) (b : Nat)
    (r : List Nat) (s : Sweep P) : Prop where
  has : s.mgr.Has sh
  slabPages : s.mgr.slabPages = pages
  unused : s.mgr.unused = h
  addr : s.nodeAddr = b
  lends : L.Lends s.pages s.mem bs
  site : ∀ a ∈ b :: (r ++ [h]), Site sh a
  linear : ∀ a ∈ r ++ [h], virtBase ≤ slabBase sh a
  valid : ∀ a ∈ b :: r, Valid A s.mem a
  links : (b :: r).map (nextOf A s.mem) = r ++ [h]
  nodup : (r ++ [h]).Nodup
  apart : b ∉ r
  lent : ∀ a ∈ r ++ [h], blockOf sh virtBase a ∈ bs
  slabs : r.length + 1 ≤ s.mgr.slabsAllocated
  objects : (r.length + 1) * sh.count ≤ s.mgr.objectsAvailable

/-- One round poisons the node it is at and frees the next slab. -/
theorem freeRound_spec (hs : s.mgr.Has sh) (hpages : s.mgr.slabPages = pages) (haddr : s.nodeAddr = b)
    (hlends : L.Lends s.pages s.mem bs) (hb : Site sh b) (hv : Valid A s.mem b)
    (hnext : nextOf A s.mem b = c) (hc : Site sh c) (hlinear : virtBase ≤ slabBase sh c)
    (hmem : blockOf sh virtBase c ∈ bs) (hslabs : 1 ≤ s.mgr.slabsAllocated)
    (hobjects : sh.count ≤ s.mgr.objectsAvailable) :
    ∃ t, freeRound A P virtBase s = .ok (if c = s.mgr.unused then .inr t else .inl t) ∧
      t.nodeAddr = c ∧ SweptTo L sh bs b [c] s t := by
  have hsize : pages * pageSize = sh.size := by rw [← hpages]; exact hs.size
  have hbase := hc.base_add
  have hlt := hc.lt
  have hnode : 0 < nodeSize A := Nat.mul_pos (by decide) (wordBytes_pos A)
  have hslab : (s.mgr.slabPages <<< pageShift) % A.wordLimit = sh.size := by
    rw [Nat.shiftLeft_eq, ← pageSize_eq, hpages, hsize]
    exact Nat.mod_eq_of_lt (by omega)
  have hdown : alignDown A c sh.size = slabBase sh c := by
    refine hc.alignDown_eq ?_ (by omega)
    have := sh.nodeSize_le
    omega
  have hsub : checkedSub (slabBase sh c) virtBase = .ok (blockOf sh virtBase c) := checkedSub_of_le hlinear
  -- The poison is no node of a free block, so the page allocator does not see it.
  have hframe : L.Lends s.pages (writeNode A s.mem b (poisonNode A)) bs := by
    refine L.frame hlends ?_
    intro x hx _
    exact writeNode_of_not_word fun hword => hb.not_isBlockWord hword hx
  rcases L.free hframe hmem with ⟨pages', m', hfree, hlends', honly⟩
  refine ⟨⟨{ s.mgr with
      slabsAllocated := s.mgr.slabsAllocated - 1
      objectsAvailable := s.mgr.objectsAvailable - s.mgr.objsPerSlab }, pages', m', c,
    s.trace ++ visit A b ++ [.free (blockOf sh virtBase c) pages]⟩, ?_, rfl, ?_, ?_, ?_, ?_⟩
  · have hnext' : (readNode A s.mem b).next = c := hnext
    rw [freeRound, haddr, hslab, getSlabNodeMut_eq hb.ne_zero hv]
    simp only [run_ok_bind, hnext', hdown, hsub, hpages, hfree, checkedSub_of_le hslabs, hs.count,
      checkedSub_of_le hobjects]
    rfl
  · simp
  · simpa [List.diff_cons] using hlends'
  · intro x hx hblock
    have hnot : ¬ IsNodeWord A b x := hx b (by simp)
    by_contra hne
    have hwrite : writeNode A s.mem b (poisonNode A) x = s.mem x := writeNode_of_not_word hnot
    rcases honly x (by rwa [hwrite]) with ⟨hword, hout⟩
    exact hout (by simpa [List.diff_cons] using hblock hword)
  · simp [sweepTrace]

namespace Ready

/-- The round at `b`. -/
theorem round (hr : Ready L sh h bs b r s) (hc : (r ++ [h]).head? = some c) :
    ∃ t, freeRound A P virtBase s = .ok (if c = h then .inr t else .inl t) ∧ t.nodeAddr = c ∧
      SweptTo L sh bs b [c] s t := by
  have hmem : c ∈ r ++ [h] := List.mem_of_mem_head? hc
  have hnext : nextOf A s.mem b = c := by
    rw [← hr.links, List.map_cons, List.head?_cons] at hc
    exact Option.some.inj hc
  have hle : 1 * sh.count ≤ (r.length + 1) * sh.count := Nat.mul_le_mul_right _ (Nat.succ_pos _)
  have hobjects := hr.objects
  have hslabs := hr.slabs
  rw [← hr.unused]
  exact freeRound_spec hr.has hr.slabPages hr.addr hr.lends (hr.site b List.mem_cons_self)
    (hr.valid b List.mem_cons_self) hnext (hr.site c (List.mem_cons_of_mem b hmem))
    (hr.linear c hmem) (hr.lent c hmem) (by omega) (by omega)

/-- The round leaves the nodes before it alone. -/
theorem next (hr : Ready L sh h bs b (c :: r) s) (ht : t.nodeAddr = c) (hround : SweptTo L sh bs b [c] s t) :
    Ready L sh h (bs.erase (blockOf sh virtBase c)) c r t := by
  have hnd := List.nodup_cons.1 hr.nodup
  have hsub : ∀ a ∈ c :: (r ++ [h]), a ∈ b :: (c :: r ++ [h]) := fun a ha => List.mem_cons_of_mem b ha
  -- The round writes the node of the slab before and the words of the block it returned.
  have hnode : ∀ a ∈ c :: r, readNode A t.mem a = readNode A s.mem a := by
    intro a ha
    have hsite := hr.site a (List.mem_cons_of_mem b (List.mem_append_left [h] ha))
    refine readNode_congr fun i hi => hround.mem _ ?_ ?_
    · intro d hd hword
      have hdb : d = b := by simpa using hd
      rcases hword with ⟨j, hj, heq⟩
      have hab := (hsite.eq_of_word_eq (hr.site b List.mem_cons_self) hi hj (hdb ▸ heq)).1
      exact hr.apart (hab ▸ ha)
    · intro hword
      exact absurd hword (hsite.not_isBlockWord ⟨i, hi, rfl⟩)
  have hmgr := hround.mgr
  refine ⟨?_, ?_, ?_, ht, ?_, fun a ha => hr.site a (hsub a ha), ?_, ?_, ?_, hnd.2, ?_, ?_, ?_, ?_⟩
  · rw [hmgr]
    exact ⟨hr.has.size, hr.has.count⟩
  · rw [hmgr]
    exact hr.slabPages
  · rw [hmgr]
    exact hr.unused
  · simpa [List.diff_cons] using hround.lends
  · exact fun a ha => hr.linear a (List.mem_cons_of_mem c ha)
  · intro a ha
    rw [Valid, hnode a ha]
    exact hr.valid a (List.mem_cons_of_mem b ha)
  · have hlinks := hr.links
    rw [List.map_cons, List.cons_append] at hlinks
    rw [← (List.cons.inj hlinks).2]
    refine List.map_congr_left fun a ha => ?_
    rw [nextOf, hnode a ha, nextOf]
  · exact fun hmem => hnd.1 (List.mem_append_left [h] hmem)
  · intro a ha
    refine (List.mem_erase_of_ne ?_).2 (hr.lent a (List.mem_cons_of_mem c ha))
    intro heq
    have hac := blockOf_inj (hr.site a (hsub a (List.mem_cons_of_mem c ha)))
      (hr.site c (hsub c List.mem_cons_self)) (hr.linear a (List.mem_cons_of_mem c ha))
      (hr.linear c List.mem_cons_self) heq
    exact hnd.1 (hac ▸ ha)
  · rw [hmgr]
    have hslabs := hr.slabs
    rw [List.length_cons] at hslabs
    simp only [List.length_singleton]
    omega
  · rw [hmgr]
    have hobjects := hr.objects
    rw [List.length_cons, Nat.succ_mul] at hobjects
    simp only [List.length_singleton, Nat.one_mul, hr.has.count]
    omega

/-- The sweep goes around the ring and frees the slabs before it, the head last. -/
theorem sweep (hr : Ready L sh h bs b r s) :
    ∃ t s', Loop.Reaches (freeRound A P virtBase) s t ∧ freeRound A P virtBase t = .ok (.inr s') ∧
      SweptTo L sh bs b (r ++ [h]) s s' := by
  induction r generalizing b bs s with
  | nil =>
      rcases hr.round rfl with ⟨s', hround, -, hswept⟩
      rw [if_pos rfl] at hround
      exact ⟨s, s', Loop.Reaches.refl s, hround, hswept⟩
  | cons c r ih =>
      rcases hr.round rfl with ⟨s₁, hround, haddr, hswept⟩
      have hne : c ≠ h := by
        rintro rfl
        exact (List.nodup_cons.1 hr.nodup).1 (List.mem_append_right r List.mem_cons_self)
      rw [if_neg hne] at hround
      rcases ih (hr.next haddr hswept) with ⟨t, s', hreach, hlast, hrest⟩
      exact ⟨t, s', Loop.Reaches.head hround hreach, hlast, hswept.trans hrest⟩

end Ready

/-- Every round lowers the number of slabs. -/
theorem freeRound_decreases (A : Arch) (P : PageAllocator) (virtBase : Nat) :
    Loop.Decreases (freeRound A P virtBase) fun s => s.mgr.slabsAllocated := by
  intro s s' hstep
  rcases run_bind_eq_ok.1 hstep with ⟨node, -, hstep⟩
  rcases run_bind_eq_ok.1 hstep with ⟨physAddr, -, hstep⟩
  rcases run_bind_eq_ok.1 hstep with ⟨⟨pages, m⟩, -, hstep⟩
  rcases run_bind_eq_ok.1 hstep with ⟨slabs, hslabs, hstep⟩
  rcases run_bind_eq_ok.1 hstep with ⟨objects, -, hstep⟩
  have hle := checkedSub_eq_ok.1 hslabs
  have hres := run_pure_eq_ok.1 hstep
  split at hres
  · cases hres
  · cases hres
    show slabs < s.mgr.slabsAllocated
    omega

/-- With no unused slab, the first round unwraps a null pointer. -/
theorem freeUnused_none {g : SlabManager} {pgs : P.State} {m : Mem} (hg : g.unused = 0) :
    freeUnused A P virtBase g pgs m = .error .unwrap := by
  simp [freeUnused, Loop.iterate, freeRound, getSlabNodeMut, getSlabNodeUncheckedMut, hg, require]

/-- The manager after `free_unused` has handed back `n` slabs. -/
def SlabManager.freed (g : SlabManager) (n : Nat) : SlabManager :=
  { g with
    unused := 0
    slabsAllocated := g.slabsAllocated - n
    objectsAvailable := g.objectsAvailable - n * g.objsPerSlab }

/-- From the head on, `free_unused` returns. -/
theorem Ready.freeUnused {g : SlabManager} {pgs : P.State} {m : Mem}
    (hr : Ready L sh h bs h r ⟨g, pgs, m, h, []⟩) :
    ∃ s', freeUnused A P virtBase g pgs m = .ok s' ∧ s'.mgr = g.freed (r.length + 1) ∧
      s'.trace = sweepTrace sh virtBase pages h (r ++ [h]) ∧
      L.Lends s'.pages s'.mem (bs.diff ((r ++ [h]).map (blockOf sh virtBase))) ∧
      ∀ x, (∀ a ∈ h :: r, ¬ IsNodeWord A a x) →
        (IsBlockWord A x → InBlocks (pages * pageSize) virtBase
          (bs.diff ((r ++ [h]).map (blockOf sh virtBase))) x) → s'.mem x = m x := by
  rcases hr.sweep with ⟨t, s', hreach, hlast, hswept⟩
  have hloop : Loop.iterate .diverges (freeRound A P virtBase) (g.slabsAllocated + 1)
      ⟨g, pgs, m, h, []⟩ = .ok s' :=
    Loop.iterate_of_reaches (freeRound_decreases A P virtBase) (Nat.lt_succ_self _) hreach hlast
  have hhead : g.unused = h := hr.unused
  -- The list is emptied behind the loop.
  refine ⟨{ s' with mgr := { s'.mgr with unused := 0 } }, ?_, ?_, ?_, hswept.lends, ?_⟩
  · rw [Slab.freeUnused, hhead]
    exact run_bind_eq_ok.2 ⟨s', hloop, rfl⟩
  · rw [hswept.mgr]
    simp [SlabManager.freed]
  · simpa using hswept.trace
  · intro x hx
    refine hswept.mem x ?_
    rwa [← List.cons_append, List.dropLast_concat]

end Slab
end Propeller
