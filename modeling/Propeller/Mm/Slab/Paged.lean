import Propeller.Mm.Slab.Unused

/-!
# Slab.Paged — a slab manager over a page allocator

The system of `Slab.Runs` with the page allocator as a part of it: clients allocate, free and write, they
have the unused slabs handed back, and other users of the page allocator come in between.  In every
reachable state the manager holds exactly the blocks that the page allocator lends it, and `free_unused`

* hands back every unused slab once, unless there is none, when it panics;
* leaves the slabs alone that it has handed back, if there is only one.
-/

namespace Propeller
namespace Slab

variable {A : Arch} {sh : Shape A} {ly : Layout A} {virtBase pages : Nat} {P : PageAllocator}

open SlabManager

/-! ## The system -/

/-- A slab manager, its clients and the page allocator. -/
structure Paged (P : PageAllocator) extends Sys where
  pages : P.State

/-- What can happen next; in `others`, other users of the page allocator leave the state and the memory
behind. -/
inductive PagedOp (P : PageAllocator)
  | alloc
  | free (objAddr : Nat)
  | write (objAddr addr word : Nat)
  | freeUnused
  | others (pages : P.State) (mem : Mem)

/-- The calls of the page allocator's `free` in a trace. -/
def frees (trace : List Access) : List (Nat × Nat) :=
  trace.filterMap fun
    | .free addr pages => some (addr, pages)
    | _ => none

namespace Paged

/-- A step of the slab layer alone. -/
def stepSys (ly : Layout A) (virtBase : Nat) (σ : Paged P) (op : Op) : Run (Paged P) := do
  let τ ← step ly virtBase σ.toSys op
  return ⟨τ, σ.pages⟩

/-- The manager asks for a block only when it has no slab with a free object, and before it changes
anything. -/
def step (ly : Layout A) (virtBase : Nat) (σ : Paged P) : PagedOp P → Run (Paged P)
  | .alloc =>
      if σ.mgr.inUse = 0 ∧ σ.mgr.unused = 0 then do
        let (block, pages, mem) ← P.alloc σ.mgr.slabPages σ.pages σ.mem
        stepSys ly virtBase ⟨{ σ.toSys with mem }, pages⟩ (.alloc (block.map Prod.fst))
      else stepSys ly virtBase σ (.alloc none)
  | .free objAddr => stepSys ly virtBase σ (.free objAddr)
  | .write objAddr addr word => stepSys ly virtBase σ (.write objAddr addr word)
  | .freeUnused => do
      let s ← freeUnused A P virtBase σ.mgr σ.pages σ.mem
      return ⟨⟨s.mgr, s.mem, σ.out, σ.blocks.diff ((frees s.trace).map Prod.fst)⟩, s.pages⟩
  | .others pages mem => .ok ⟨{ σ.toSys with mem }, pages⟩

end Paged

/-- Clients keep to the objects they hold, and others to what the page allocator does not lend to the
manager. -/
def PagedOp.Valid (L : Lawful P A virtBase pages) (ly : Layout A) (σ : Paged P) : PagedOp P → Prop
  | .alloc => True
  | .free objAddr => (Op.free objAddr).Valid ly virtBase σ.toSys
  | .write objAddr addr word => (Op.write objAddr addr word).Valid ly virtBase σ.toSys
  | .freeUnused => True
  | .others pgs mem =>
      L.Lends pgs mem σ.blocks ∧ ∀ x, InBlocks σ.mgr.slabSize virtBase σ.blocks x → mem x = σ.mem x

/-- Some sequence of valid steps leads from `σ` to `σ'`. -/
def PagedReaches (L : Lawful P A virtBase pages) (ly : Layout A) : Paged P → Paged P → Prop :=
  Steps.Reaches (fun σ op => op.Valid L ly σ) (Paged.step ly virtBase)

/-- The invariant: the page allocator lends the blocks of the slabs. -/
structure PagedInv (L : Lawful P A virtBase pages) (sh : Shape A) (σ : Paged P) (c : Contents) :
    Prop where
  sys : SysInv sh virtBase σ.toSys c
  slabPages : σ.mgr.slabPages = pages
  lends : L.Lends σ.pages σ.mem σ.blocks
  nodup : σ.blocks.Nodup

/-! ## What `free_unused` does -/

/-- `free_unused` is exact: it hands back every unused slab once and nothing else, takes them off the
books, and leaves the other slabs and lists as they are. -/
structure FreesUnused (sh : Shape A) (virtBase : Nat) (σ : Sys) (c : Contents) (s : Sweep P) : Prop where
  frees : (frees s.trace).Perm
    ((c.slabs .unused).map fun a => (slabBase sh a - virtBase, σ.mgr.slabPages))
  unused : s.mgr.unused = 0
  slabsAllocated : s.mgr.slabsAllocated + (c.slabs .unused).length = σ.mgr.slabsAllocated
  objectsAvailable : s.mgr.objectsAvailable + (c.slabs .unused).length * σ.mgr.objsPerSlab =
    σ.mgr.objectsAvailable
  lists : ∀ k, k ≠ .unused → s.mgr.head k = σ.mgr.head k ∧ SlabList sh s.mem (s.mgr.head k) (c.slabs k)
  words : ∀ k, k ≠ .unused → ∀ a ∈ c.slabs k, ∀ x, slabBase sh a ≤ x → x < slabBase sh a + sh.size →
    s.mem x = σ.mem x

/-- The access reads or writes a word of the block of `size` bytes at the physical address `p`. -/
def Access.Touches (virtBase p size : Nat) : Access → Prop
  | .read addr => p + virtBase ≤ addr ∧ addr < p + virtBase + size
  | .write addr => p + virtBase ≤ addr ∧ addr < p + virtBase + size
  | .free _ _ => False

/-- Once a block has been handed back, no word of it is accessed. -/
def NoUseAfterFree (virtBase : Nat) (trace : List Access) : Prop :=
  trace.Pairwise fun e e' => ∀ p pages, e = .free p pages → ¬ e'.Touches virtBase p (pages * pageSize)

section Trace

variable {a b c : Nat} {cs : List Nat}

theorem frees_append (t t' : List Access) : frees (t ++ t') = frees t ++ frees t' :=
  List.filterMap_append

theorem frees_visit (A : Arch) (a : Nat) : frees (visit A a) = [] := by
  simp [frees, visit]

theorem frees_sweepTrace (sh : Shape A) (virtBase pages b : Nat) (cs : List Nat) :
    frees (sweepTrace sh virtBase pages b cs) = cs.map fun a => (blockOf sh virtBase a, pages) := by
  induction cs generalizing b with
  | nil => rfl
  | cons c cs ih =>
      rw [sweepTrace, frees_append, frees_visit, List.nil_append, List.map_cons, ← ih c]
      rfl

theorem free_not_mem_visit (a p n : Nat) : Access.free p n ∉ visit A a := by
  simp [visit]

theorem read_mem_visit (A : Arch) (a : Nat) : Access.read a ∈ visit A a := by
  have hword : a ∈ nodeWords A a := mem_nodeWords.2 ⟨0, by decide, by simp⟩
  simp [visit, hword]

/-- A sweep that frees one slab is done with it. -/
theorem noUseAfterFree_one : NoUseAfterFree virtBase (sweepTrace sh virtBase pages b [c]) := by
  rw [NoUseAfterFree, sweepTrace, sweepTrace, List.pairwise_append]
  refine ⟨?_, List.pairwise_singleton _ _, ?_⟩
  · refine List.pairwise_of_forall_mem_list ?_
    intro e he e' _ p n heq
    exact absurd (heq ▸ he) (free_not_mem_visit b p n)
  · intro e he e' _ p n heq
    exact absurd (heq ▸ he) (free_not_mem_visit b p n)

/-- A longer sweep reads the node of the first slab it has freed. -/
theorem useAfterFree_more (hc : Site sh c) (hlinear : virtBase ≤ slabBase sh c)
    (hsize : pages * pageSize = sh.size) {d : Nat} :
    ¬ NoUseAfterFree virtBase (sweepTrace sh virtBase pages b (c :: d :: cs)) := by
  intro hno
  rw [NoUseAfterFree, sweepTrace, List.pairwise_append, List.pairwise_cons] at hno
  have hin : slabBase sh c ≤ c ∧ c < slabBase sh c + sh.size :=
    hc.isNodeWord_inside ⟨0, by decide, by simp⟩
  refine hno.2.1.1 (.read c) ?_ _ _ rfl ?_
  · rw [sweepTrace]
    exact List.mem_append_left _ (read_mem_visit A c)
  · rw [Access.Touches, blockOf, hsize]
    omega

end Trace

/-! ## The slabs that remain -/

/-- The contents without the unused slabs. -/
def Contents.freed (c : Contents) : Contents :=
  { c with slabs := Function.update c.slabs .unused [] }

section Remaining

variable {g : SlabManager} {m m' : Mem} {c : Contents} {a o x : Nat} {k : Kind}

@[simp] theorem Contents.freed_unused (c : Contents) : c.freed.slabs .unused = [] := by
  simp [Contents.freed]

theorem Contents.freed_of_ne (c : Contents) (hk : k ≠ .unused) : c.freed.slabs k = c.slabs k :=
  Function.update_of_ne hk _ _

theorem SlabManager.head_freed (g : SlabManager) (n : Nat) (hk : k ≠ .unused) :
    (g.freed n).head k = g.head k := by
  cases k with
  | unused => exact absurd rfl hk
  | inUse => rfl
  | empty => rfl

theorem Contents.mem_freed : a ∈ c.freed.slabs k ↔ k ≠ .unused ∧ a ∈ c.slabs k := by
  by_cases hk : k = .unused
  · simp [hk]
  · simp [c.freed_of_ne hk, hk]

theorem Contents.holds_freed : c.freed.Holds a ↔ ∃ k, k ≠ .unused ∧ a ∈ c.slabs k := by
  simp only [Contents.Holds, Contents.mem_freed]

theorem Contents.Holds.of_freed (ha : c.freed.Holds a) : c.Holds a := by
  rcases Contents.holds_freed.1 ha with ⟨k, -, hk⟩
  exact ⟨k, hk⟩

theorem Core.holds_freed_iff (h : Core sh g m c) : c.freed.Holds a ↔ c.Holds a ∧ a ∉ c.slabs .unused := by
  constructor
  · intro ha
    rcases Contents.holds_freed.1 ha with ⟨k, hne, hk⟩
    exact ⟨⟨k, hk⟩, fun hun => hne (h.once k .unused a hk hun)⟩
  · rintro ⟨⟨k, hk⟩, hun⟩
    refine Contents.holds_freed.2 ⟨k, ?_, hk⟩
    rintro rfl
    exact hun hk

theorem Contents.all_freed (c : Contents) : c.all = c.slabs .unused ++ c.freed.all := by
  simp [Contents.all, Contents.freed]

/-- All objects of an unused slab are free. -/
theorem Inv.free_of_unused (h : Inv sh g m c) (ha : a ∈ c.slabs .unused) (ho : o ∈ objects sh a) :
    o ∈ c.free a := by
  have hfree := h.core.free a ⟨_, ha⟩
  have hlen : (c.free a).length = (objects sh a).length := by
    rw [objects_length]
    exact kindOf_eq_unused.1 (h.sorted _ a ha)
  have hperm := (hfree.nodup.subperm hfree.sub).perm_of_length_le hlen.ge
  exact hperm.mem_iff.2 ho

theorem Inv.available_freed (h : Inv sh g m c) :
    c.available = (c.slabs .unused).length * sh.count + c.freed.available := by
  have hun : ((c.slabs .unused).map fun a => (c.free a).length) =
      List.replicate (c.slabs .unused).length sh.count := by
    refine List.eq_replicate_iff.2 ⟨List.length_map _, ?_⟩
    intro n hn
    rcases List.mem_map.1 hn with ⟨a, ha, rfl⟩
    exact kindOf_eq_unused.1 (h.sorted _ a ha)
  rw [Contents.available, Contents.all_freed, List.map_append, List.sum_append, hun,
    List.sum_replicate, smul_eq_mul]
  rfl

/-- What is left when the unused slabs are gone and the other slabs are as before. -/
theorem Inv.freed (h : Inv sh g m c)
    (hm : ∀ a, c.freed.Holds a → ∀ x, slabBase sh a ≤ x → x < slabBase sh a + sh.size → m' x = m x) :
    Inv sh (g.freed (c.slabs .unused).length) m' c.freed := by
  have hnode : ∀ a, c.freed.Holds a → readNode A m' a = readNode A m a := by
    intro a ha
    refine readNode_congr fun i hi => ?_
    have hin := (h.core.site ha.of_freed).isNodeWord_inside ⟨i, hi, rfl⟩
    exact hm a ha _ hin.1 hin.2
  have hlink : ∀ a, c.freed.Holds a → ∀ o ∈ objects sh a,
      m' (o + sh.nextOff) = m (o + sh.nextOff) := by
    intro a ha o ho
    have hin := (h.core.site ha.of_freed).object_inside ho
    have hbase := (h.core.site ha.of_freed).base_add
    have hoff := sh.nextOff_lt
    exact hm a ha _ (by omega) (by omega)
  -- An unused slab has no object out.
  have hout : ∀ o, o ∈ c.out ↔ ∃ a, c.freed.Holds a ∧ o ∈ objects sh a ∧ o ∉ c.free a := by
    intro o
    rw [h.core.out_iff]
    constructor
    · rintro ⟨a, ha, hoa, hnot⟩
      exact ⟨a, h.core.holds_freed_iff.2 ⟨ha, fun hun => hnot (h.free_of_unused hun hoa)⟩, hoa, hnot⟩
    · rintro ⟨a, ha, hoa, hnot⟩
      exact ⟨a, ha.of_freed, hoa, hnot⟩
  -- What is left of the invariant: the words of the other slabs are the same.
  refine ⟨⟨⟨h.core.has.size, h.core.has.count⟩, ?_, ?_, ?_, hout, h.core.out_nodup, ?_⟩, ?_, ?_, ?_, ?_⟩
  · intro k
    by_cases hk : k = .unused
    · subst hk
      rw [Contents.freed_unused]
      exact SlabList.nil sh m'
    · rw [c.freed_of_ne hk, g.head_freed _ hk]
      exact (h.core.list k).congr fun a ha => hnode a (Contents.holds_freed.2 ⟨k, hk, ha⟩)
  · intro k k' a ha ha'
    exact h.core.once k k' a (Contents.mem_freed.1 ha).2 (Contents.mem_freed.1 ha').2
  · intro a ha
    have hfree := h.core.free a ha.of_freed
    refine hfree.congr ?_ ?_ fun o ho => hlink a ha o (hfree.sub ho)
    · rw [hnode a ha]
    · rw [hnode a ha]
  · intro o ho
    rcases (hout o).1 ho with ⟨a, ha, hoa, -⟩
    rw [hlink a ha o hoa]
    exact h.core.poison o ho
  · intro k a ha
    exact h.sorted k a (Contents.mem_freed.1 ha).2
  · have hslabs := h.counted.slabs
    rw [Contents.all_freed, List.length_append] at hslabs
    rw [SlabManager.freed]
    exact Nat.sub_eq_of_eq_add' hslabs
  · have havail := h.counted.available
    rw [h.available_freed, ← h.core.has.count] at havail
    rw [SlabManager.freed]
    exact Nat.sub_eq_of_eq_add' havail
  · exact h.counted.allocated

end Remaining

/-! ## `free_unused` in a reachable state -/

theorem blockOf_grantNode (sh : Shape A) (virtBase p : Nat) :
    blockOf sh virtBase (grantNode sh virtBase p) = p := by
  rw [blockOf, slabBase_grantNode, Nat.add_sub_cancel]

namespace PagedInv

variable {L : Lawful P A virtBase pages} {σ σ' : Paged P} {c : Contents} {a h : Nat} {t : List Nat}

theorem size_eq (hσ : PagedInv L sh σ c) : pages * pageSize = sh.size := by
  rw [← hσ.slabPages]
  exact hσ.sys.inv.core.has.size

/-- A slab is in the block that its address says. -/
theorem lent (hσ : PagedInv L sh σ c) (ha : c.Holds a) :
    virtBase ≤ slabBase sh a ∧ blockOf sh virtBase a ∈ σ.blocks := by
  rcases (hσ.sys.slabs a).1 ha with ⟨p, hp, rfl⟩
  rw [slabBase_grantNode, blockOf_grantNode]
  exact ⟨Nat.le_add_left _ _, hp⟩

/-- `free_unused` starts at the head of a ring of slabs with enough on the books. -/
theorem ready (hσ : PagedInv L sh σ c) (hlist : c.slabs .unused = h :: t) :
    Ready L sh h σ.blocks h t ⟨σ.mgr, σ.pages, σ.mem, h, []⟩ := by
  have hslab := hσ.sys.inv.core.list .unused
  rw [hlist] at hslab
  -- The sweep starts behind the head and takes the head last.
  have hmem : ∀ a, a ∈ t ++ [h] ↔ a ∈ h :: t := by
    intro a
    rw [List.mem_append, List.mem_singleton, List.mem_cons, or_comm]
  have hholds : ∀ a ∈ t ++ [h], c.Holds a := fun a ha => ⟨.unused, hlist ▸ (hmem a).1 ha⟩
  have hnd := List.nodup_cons.1 hslab.ring.nodup
  have hslabs := hσ.sys.inv.counted.slabs
  have havail := hσ.sys.inv.counted.available
  rw [Contents.all_freed, hlist, List.length_append, List.length_cons] at hslabs
  rw [hσ.sys.inv.available_freed, hlist, List.length_cons] at havail
  refine ⟨hσ.sys.inv.core.has, hσ.slabPages, hslab.head, rfl, hσ.lends, ?_,
    fun a ha => (hσ.lent (hholds a ha)).1, hslab.valid, hslab.ring.map_next, ?_, hnd.1,
    fun a ha => (hσ.lent (hholds a ha)).2, ?_, ?_⟩
  · intro a ha
    rcases List.mem_cons.1 ha with rfl | ha
    · exact hslab.site a List.mem_cons_self
    · exact hslab.site a ((hmem a).1 ha)
  · exact (List.perm_append_singleton h t).nodup_iff.2 hslab.ring.nodup
  · show t.length + 1 ≤ σ.mgr.slabsAllocated
    omega
  · show (t.length + 1) * sh.count ≤ σ.mgr.objectsAvailable
    omega

/-- `free_unused` on a list of unused slabs: the slabs are freed in the order of the ring, the head last,
and the words of the other slabs stay. -/
theorem freeUnused_cons (hσ : PagedInv L sh σ c) (hlist : c.slabs .unused = h :: t) :
    ∃ s, freeUnused A P virtBase σ.mgr σ.pages σ.mem = .ok s ∧
      s.mgr = σ.mgr.freed (c.slabs .unused).length ∧
      s.trace = sweepTrace sh virtBase pages h (t ++ [h]) ∧
      L.Lends s.pages s.mem (σ.blocks.diff ((t ++ [h]).map (blockOf sh virtBase))) ∧
      ∀ a, c.freed.Holds a → ∀ x, slabBase sh a ≤ x → x < slabBase sh a + sh.size →
        s.mem x = σ.mem x := by
  have hready := hσ.ready hlist
  rcases hready.freeUnused with ⟨s, hrun, hmgr, htrace, hlends, hmem⟩
  refine ⟨s, hrun, ?_, htrace, hlends, ?_⟩
  · rw [hmgr, hlist, List.length_cons]
  -- A slab that is kept: neither the sweep nor the page allocator writes to it.
  intro a ha x hlo hhi
  rcases hσ.sys.inv.core.holds_freed_iff.1 ha with ⟨hheld, hnot⟩
  have hsite := hσ.sys.inv.core.site hheld
  refine hmem x ?_ ?_
  · intro b hb hword
    have hbsite := hready.site b (List.mem_cons.2 ((List.mem_cons.1 hb).imp_right (List.mem_append_left [h])))
    have hab := hsite.same_slab hbsite hlo hhi hword
    exact hnot (hlist ▸ hab ▸ hb)
  · intro _
    have hlent := hσ.lent hheld
    -- Its block is still lent.
    refine ⟨blockOf sh virtBase a, ?_, ?_, ?_⟩
    · refine (hσ.nodup.mem_sdiff_iff).2 ⟨hlent.2, ?_⟩
      intro hmap
      rcases List.mem_map.1 hmap with ⟨b, hb, heq⟩
      have hab := blockOf_inj (hready.site b (List.mem_cons_of_mem h hb)) hsite (hready.linear b hb)
        hlent.1 heq
      have hb' : b ∈ h :: t := (List.perm_append_singleton h t).mem_iff.1 hb
      exact hnot (hlist ▸ hab ▸ hb')
    · rw [blockOf]
      omega
    · rw [blockOf, hσ.size_eq]
      omega

/-- The call is exact if there is anything to free. -/
theorem freesUnused (hσ : PagedInv L sh σ c) (hlist : c.slabs .unused = h :: t) {s : Sweep P}
    (hmgr : s.mgr = σ.mgr.freed (c.slabs .unused).length)
    (htrace : s.trace = sweepTrace sh virtBase pages h (t ++ [h]))
    (hwords : ∀ a, c.freed.Holds a → ∀ x, slabBase sh a ≤ x → x < slabBase sh a + sh.size →
      s.mem x = σ.mem x) : FreesUnused sh virtBase σ.toSys c s := by
  have hinv := hσ.sys.inv.freed hwords
  have hslabs := hσ.sys.inv.counted.slabs
  have havail := hσ.sys.inv.counted.available
  -- The counters cover the slabs that are freed.
  rw [Contents.all_freed, List.length_append] at hslabs
  rw [hσ.sys.inv.available_freed, ← hσ.sys.inv.core.has.count] at havail
  refine ⟨?_, ?_, ?_, ?_, ?_, ?_⟩
  · rw [htrace, frees_sweepTrace, hlist, hσ.slabPages]
    exact (List.perm_append_singleton h t).map _
  · rw [hmgr]
    rfl
  · rw [hmgr]
    show σ.mgr.slabsAllocated - (c.slabs .unused).length + (c.slabs .unused).length = _
    omega
  · rw [hmgr]
    exact Nat.sub_add_cancel (by omega)
  · intro k hk
    have hlistk := hinv.core.list k
    rw [← hmgr, c.freed_of_ne hk] at hlistk
    exact ⟨by rw [hmgr, σ.mgr.head_freed _ hk], hlistk⟩
  · intro k hk a ha
    exact hwords a (Contents.holds_freed.2 ⟨k, hk, ha⟩)

/-- A step of the slab layer, when the page allocator lends the blocks that there are after it. -/
theorem of_step {τ τ' : Sys} {op : Op} {pgs : P.State} (hsize : pages * pageSize = sh.size)
    (h : SysInv sh virtBase τ c) (hbase : sh.size ∣ virtBase) (hvalid : op.Valid sh.toLayout virtBase τ)
    (hstep : Slab.step sh.toLayout virtBase τ op = .ok τ') (hlends : L.Lends pgs τ.mem τ'.blocks)
    (hnd : τ'.blocks.Nodup) : ∃ c', PagedInv L sh ⟨τ', pgs⟩ c' := by
  rcases h.step hbase hvalid with ⟨τ₁, c', hstep', hsys, hframe⟩
  obtain rfl := Except.ok.inj (hstep.symm.trans hstep')
  refine ⟨c', hsys, ?_, L.frame hlends ?_, hnd⟩
  · have hsame : τ'.mgr.slabPages * pageSize = pages * pageSize := by
      rw [hsize]
      exact hsys.inv.core.has.size
    exact Nat.eq_of_mul_eq_mul_right pageSize_pos hsame
  · intro x _ hx
    rw [hsize] at hx
    exact hframe x hx

/-- A block handed out is none of the blocks there are. -/
theorem not_mem_of_blockOk {size p : Nat} {bs : List Nat} (hsize : 0 < size)
    (hp : BlockOk A size virtBase bs p) : p ∉ bs := by
  intro hmem
  rcases hp.apart p hmem with hle | hle
  · omega
  · omega

/-- The manager asks for a block. -/
theorem step_request (hσ : PagedInv L sh σ c) (hbase : sh.size ∣ virtBase)
    (hask : σ.mgr.inUse = 0 ∧ σ.mgr.unused = 0)
    (hstep : σ.step sh.toLayout virtBase .alloc = .ok σ') : ∃ c', PagedInv L sh σ' c' := by
  rcases L.alloc hσ.lends with ⟨r, pgs, m, halloc, hlends, honly, hok⟩
  rw [Paged.step, if_pos hask, hσ.slabPages, halloc, run_ok_bind] at hstep
  rcases run_bind_eq_ok.1 hstep with ⟨τ', hsub, hres⟩
  obtain rfl := run_pure_eq_ok.1 hres
  have hsize := hσ.size_eq
  have hblocks : τ'.blocks = (r.map Prod.fst).toList ++ σ.blocks := by
    rcases run_bind_eq_ok.1 hsub with ⟨⟨obj, g, m₁⟩, -, hres⟩
    obtain rfl := run_pure_eq_ok.1 hres
    show (σ.mgr.taken (r.map Prod.fst)).toList ++ σ.blocks = _
    rw [SlabManager.taken, if_pos hask]
  -- The page allocator does not write to the slabs.
  have hsys : SysInv sh virtBase { σ.toSys with mem := m } c := by
    refine hσ.sys.of_mem ?_
    intro x hx
    by_contra hne
    rw [← hsize] at hx
    exact (honly x hne).2 hx
  refine of_step hsize hsys hbase ?_ hsub (hblocks ▸ hlends) (hblocks ▸ ?_)
  · intro p hp
    show BlockOk A σ.mgr.slabSize virtBase σ.blocks p
    rw [hσ.sys.inv.core.has.size, ← hsize]
    exact hok p hp
  · have hpos : 0 < pages * pageSize := by
      have hle := sh.nodeSize_le
      have hnode : 0 < nodeSize A := Nat.mul_pos (by decide) (wordBytes_pos A)
      omega
    cases r with
    | none => exact hσ.nodup
    | some b => exact List.nodup_cons.2 ⟨not_mem_of_blockOk hpos (hok b.1 rfl), hσ.nodup⟩

theorem step_freeUnused (hσ : PagedInv L sh σ c)
    (hstep : σ.step sh.toLayout virtBase .freeUnused = .ok σ') : ∃ c', PagedInv L sh σ' c' := by
  rcases run_bind_eq_ok.1 hstep with ⟨s, hrun, hres⟩
  obtain rfl := run_pure_eq_ok.1 hres
  -- With no unused slab the source panics, so there is no step.
  cases hlist : c.slabs .unused with
  | nil =>
      have hhead : σ.mgr.unused = 0 := (hσ.sys.inv.core.list .unused).head_eq_zero_iff.2 hlist
      rw [freeUnused_none hhead] at hrun
      cases hrun
  | cons h t =>
      rcases hσ.freeUnused_cons hlist with ⟨s₁, hrun₁, hmgr, htrace, hlends, hwords⟩
      obtain rfl := Except.ok.inj (hrun.symm.trans hrun₁)
      have hfrees : (frees s.trace).map Prod.fst = (t ++ [h]).map (blockOf sh virtBase) := by
        rw [htrace, frees_sweepTrace, List.map_map]
        rfl
      have hinv := hσ.sys.inv.freed hwords
      rw [← hmgr] at hinv
      refine ⟨c.freed, ⟨hinv, hσ.sys.out, ?_⟩, ?_, ?_, hσ.nodup.sublist (List.diff_sublist _ _)⟩
      · intro a
        -- A slab is gone exactly if its block was returned.
        have hmem : a ∈ c.slabs .unused ↔ a ∈ t ++ [h] := by
          rw [hlist]
          exact (List.perm_append_singleton h t).mem_iff.symm
        rw [hσ.sys.inv.core.holds_freed_iff, hσ.sys.slabs a, hmem, hfrees]
        constructor
        · rintro ⟨⟨p, hp, rfl⟩, hnot⟩
          refine ⟨p, (hσ.nodup.mem_sdiff_iff).2 ⟨hp, ?_⟩, rfl⟩
          intro hmap
          rcases List.mem_map.1 hmap with ⟨b, hb, heq⟩
          rcases (hσ.sys.slabs b).1 ⟨.unused, hlist ▸ (List.perm_append_singleton h t).mem_iff.1 hb⟩ with
            ⟨q, -, rfl⟩
          rw [blockOf_grantNode] at heq
          exact hnot (heq ▸ hb)
        · rintro ⟨p, hp, rfl⟩
          rcases (hσ.nodup.mem_sdiff_iff).1 hp with ⟨hp, hnot⟩
          refine ⟨⟨p, hp, rfl⟩, ?_⟩
          intro hmem
          exact hnot (List.mem_map.2 ⟨_, hmem, blockOf_grantNode sh virtBase p⟩)
      · show s.mgr.slabPages = pages
        rw [hmgr]
        exact hσ.slabPages
      · show L.Lends s.pages s.mem _
        rw [hfrees]
        exact hlends

/-- Every valid step that returns keeps the invariant. -/
theorem step (hσ : PagedInv L sh σ c) (hbase : sh.size ∣ virtBase) {op : PagedOp P}
    (hvalid : op.Valid L sh.toLayout σ) (hstep : σ.step sh.toLayout virtBase op = .ok σ') :
    ∃ c', PagedInv L sh σ' c' := by
  -- The steps that leave the page allocator alone.
  have hplain : ∀ op : Op, op.Valid sh.toLayout virtBase σ.toSys →
      (∀ τ, Slab.step sh.toLayout virtBase σ.toSys op = .ok τ → τ.blocks = σ.blocks) →
      σ.stepSys sh.toLayout virtBase op = .ok σ' → ∃ c', PagedInv L sh σ' c' := by
    intro op hop hblocks hstep
    rcases run_bind_eq_ok.1 hstep with ⟨τ, hsub, hres⟩
    obtain rfl := run_pure_eq_ok.1 hres
    have hsame := hblocks τ hsub
    exact of_step hσ.size_eq hσ.sys hbase hop hsub (hsame ▸ hσ.lends) (hsame ▸ hσ.nodup)
  cases op with
  | alloc =>
      by_cases hask : σ.mgr.inUse = 0 ∧ σ.mgr.unused = 0
      · exact hσ.step_request hbase hask hstep
      · rw [Paged.step, if_neg hask] at hstep
        refine hplain _ ?_ ?_ hstep
        · intro p hp
          cases hp
        · intro τ hτ
          rcases run_bind_eq_ok.1 hτ with ⟨⟨obj, g, m⟩, -, hres⟩
          obtain rfl := run_pure_eq_ok.1 hres
          show (σ.mgr.taken none).toList ++ σ.blocks = σ.blocks
          rw [SlabManager.taken, if_neg hask]
          rfl
  | free objAddr =>
      refine hplain (.free objAddr) hvalid ?_ hstep
      intro τ hτ
      rcases run_bind_eq_ok.1 hτ with ⟨⟨g, m⟩, -, hres⟩
      obtain rfl := run_pure_eq_ok.1 hres
      rfl
  | write objAddr addr word =>
      refine hplain (.write objAddr addr word) hvalid ?_ hstep
      intro τ hτ
      obtain rfl := Except.ok.inj hτ
      rfl
  | freeUnused => exact hσ.step_freeUnused hstep
  | others pgs mem =>
      obtain rfl := Except.ok.inj hstep
      rcases hvalid with ⟨hlends, hmem⟩
      rw [hσ.sys.inv.core.has.size] at hmem
      exact ⟨c, hσ.sys.of_mem hmem, hσ.slabPages, hlends, hσ.nodup⟩

theorem reaches (hσ : PagedInv L sh σ c) (hbase : sh.size ∣ virtBase)
    (hrun : PagedReaches L sh.toLayout σ σ') : ∃ c', PagedInv L sh σ' c' := by
  refine Steps.Reaches.invariant (I := fun σ => ∃ c, PagedInv L sh σ c) hrun ?_ ⟨c, hσ⟩
  rintro σ op σ' ⟨c₁, h₁⟩ hvalid hstep
  exact h₁.step hbase hvalid hstep

end PagedInv

end Slab
end Propeller
