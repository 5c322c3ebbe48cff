import Propeller.Lib.Steps
import Propeller.Mm.Slab.Calls

/-!
# Slab.Runs — a slab manager and its clients

The system is a slab manager with its memory, the objects its clients hold, and the blocks the page
allocator has handed out.  Clients allocate, free objects they hold, and write to the objects they hold,
except for the link word behind them.  In every reachable state the memory represents the slabs
(`Represents`), and every further step returns.
-/

namespace Propeller
namespace Slab

variable {A : Arch} {sh : Shape A} {ly : Layout A} {virtBase : Nat}

open SlabManager

structure Sys where
  mgr : SlabManager
  mem : Mem
  out : List Nat
  blocks : List Nat

/-- What a client can do; `grant` is the page allocator's answer, should it be asked. -/
inductive Op
  | alloc (grant : Option Nat)
  | free (objAddr : Nat)
  | write (objAddr addr word : Nat)

/-- The page allocator hands out aligned blocks of linear memory that are not null and overlap no block
it has handed out before. -/
structure BlockOk (A : Arch) (size virtBase : Nat) (blocks : List Nat) (p : Nat) : Prop where
  ne_zero : p ≠ 0
  dvd : size ∣ p
  lt : p + virtBase + size < A.wordLimit
  apart : ∀ q ∈ blocks, p + size ≤ q ∨ q + size ≤ p

/-- Clients free and write to objects they hold, and leave the links alone. -/
def Op.Valid (ly : Layout A) (virtBase : Nat) (σ : Sys) : Op → Prop
  | .alloc grant => ∀ p ∈ grant, BlockOk A σ.mgr.slabSize virtBase σ.blocks p
  | .free objAddr => objAddr ∈ σ.out
  | .write objAddr addr _ =>
      objAddr ∈ σ.out ∧ objAddr ≤ addr ∧ addr < objAddr + ly.objSize ∧
        addr ≠ objAddr + ly.nextOff ∧ A.wordBytes ∣ addr

def step (ly : Layout A) (virtBase : Nat) (σ : Sys) : Op → Run Sys
  | .alloc grant => do
      let (obj, mgr, mem) ← alloc A ly virtBase grant σ.mgr σ.mem
      return ⟨mgr, mem, obj.toList ++ σ.out, (σ.mgr.taken grant).toList ++ σ.blocks⟩
  | .free objAddr => do
      let (mgr, mem) ← free A ly objAddr σ.mgr σ.mem
      return ⟨mgr, mem, σ.out.erase objAddr, σ.blocks⟩
  | .write _ addr word => .ok { σ with mem := Function.update σ.mem addr word }

/-- Some sequence of valid steps leads from `σ` to `σ'`. -/
def Reaches (ly : Layout A) (virtBase : Nat) : Sys → Sys → Prop :=
  Steps.Reaches (fun σ op => op.Valid ly virtBase σ) (step ly virtBase)

/-! ## The representation -/

/-- The slab with node `a`: its free list lists as many different objects of the slab as its counter
says, none of them outstanding and all of them before the node. -/
structure SlabOk (sh : Shape A) (σ : Sys) (c : Contents) (a : Nat) : Prop where
  list : ∃! k, a ∈ c.slabs k
  unused : a ∈ c.slabs .unused ↔ (readNode A σ.mem a).avail = σ.mgr.objsPerSlab
  empty : a ∈ c.slabs .empty ↔ (readNode A σ.mem a).avail = 0
  inUse : a ∈ c.slabs .inUse ↔
    0 < (readNode A σ.mem a).avail ∧ (readNode A σ.mem a).avail < σ.mgr.objsPerSlab
  chain : Chain sh.nextOff σ.mem (readNode A σ.mem a).free (c.free a)
  avail : (c.free a).length = (readNode A σ.mem a).avail
  nodup : (c.free a).Nodup
  objects : ∀ o ∈ c.free a, o ∈ objects sh a ∧ o ∉ σ.out ∧ o + sh.objSize ≤ a

/-- The memory represents the slabs in the blocks handed out, and the counters are right. -/
structure Represents (sh : Shape A) (virtBase : Nat) (σ : Sys) (c : Contents) : Prop where
  lists : ∀ k, SlabList sh σ.mem (σ.mgr.head k) (c.slabs k)
  slabs : ∀ a, c.Holds a ↔ ∃ p ∈ σ.blocks, a = grantNode sh virtBase p
  ok : ∀ a, c.Holds a → SlabOk sh σ c a
  slabsAllocated : σ.mgr.slabsAllocated = c.all.length
  objectsAvailable : σ.mgr.objectsAvailable = (c.all.map fun a => (readNode A σ.mem a).avail).sum
  objectsAllocated : σ.mgr.objectsAllocated = σ.out.length

/-- The invariant of the system. -/
structure SysInv (sh : Shape A) (virtBase : Nat) (σ : Sys) (c : Contents) : Prop where
  inv : Inv sh σ.mgr σ.mem c
  out : c.out = σ.out
  slabs : ∀ a, c.Holds a ↔ ∃ p ∈ σ.blocks, a = grantNode sh virtBase p

theorem Inv.slabOk {σ : Sys} {c : Contents} {a : Nat} (h : Inv sh σ.mgr σ.mem c) (hout : c.out = σ.out)
    (ha : c.Holds a) : SlabOk sh σ c a := by
  have hfree := h.core.free a ha
  have hsite := h.core.site ha
  have havail := hfree.avail
  have hcount := h.core.has.count
  rcases ha with ⟨k, hk⟩
  have hkind := h.sorted k a hk
  -- A slab is on one list, and the length of its free list says on which.
  have hmem : ∀ k', a ∈ c.slabs k' ↔ kindOf sh (c.free a).length = k' := by
    intro k'
    constructor
    · intro hk'
      exact h.sorted k' a hk'
    · intro hk'
      rwa [← hk', hkind]
  refine ⟨⟨k, hk, fun k' hk' => h.core.once k' k a hk' hk⟩, ?_, ?_, ?_, hfree.chain, havail.symm,
    hfree.nodup, ?_⟩
  · rw [hmem, havail, hcount]
    exact kindOf_eq_unused
  · rw [hmem, havail]
    exact kindOf_eq_empty
  · have hle := (hfree.nodup.subperm hfree.sub).length_le
    rw [objects_length] at hle
    rw [hmem, havail, hcount]
    exact kindOf_eq_inUse hle
  · intro o ho
    have hoa := hfree.sub ho
    refine ⟨hoa, ?_, (hsite.object_inside hoa).2⟩
    -- An object on the free list of a slab that is out would be in two slabs.
    intro hoo
    rw [← hout, h.core.out_iff] at hoo
    rcases hoo with ⟨b, hb, hob, hnot⟩
    have hba := (h.core.site hb).eq_of_object hsite hob hoa
    exact hnot (hba ▸ ho)

theorem SysInv.represents {σ : Sys} {c : Contents} (h : SysInv sh virtBase σ c) :
    Represents sh virtBase σ c := by
  refine ⟨h.inv.core.list, h.slabs, fun a ha => h.inv.slabOk h.out ha, h.inv.counted.slabs, ?_, ?_⟩
  · rw [h.inv.counted.available, Contents.available]
    refine congrArg List.sum (List.map_congr_left fun a ha => ?_)
    exact (h.inv.core.free a (Contents.mem_all.1 ha)).avail.symm
  · rw [h.inv.counted.allocated, h.out]

/-! ## Blocks and slabs -/

/-- `x` lies in one of the blocks of `size` bytes at the physical addresses `bs`. -/
def InBlocks (size virtBase : Nat) (bs : List Nat) (x : Nat) : Prop :=
  ∃ p ∈ bs, p + virtBase ≤ x ∧ x < p + virtBase + size

theorem InBlocks.mono {size x : Nat} {bs bs' : List Nat} (h : InBlocks size virtBase bs x)
    (hsub : bs ⊆ bs') : InBlocks size virtBase bs' x := by
  rcases h with ⟨p, hp, hx⟩
  exact ⟨p, hsub hp, hx⟩

theorem Site.isNodeWord_inside {a x : Nat} (ha : Site sh a) (hx : IsNodeWord A a x) :
    slabBase sh a ≤ x ∧ x < slabBase sh a + sh.size := by
  rcases hx with ⟨i, hi, rfl⟩
  have hbase := ha.base_add
  have hle := sh.nodeSize_le
  have hw := wordBytes_pos A
  have hmul := Nat.mul_le_mul_right A.wordBytes (Nat.succ_le_of_lt hi)
  rw [Nat.succ_mul] at hmul
  have hnode : nodeSize A = 5 * A.wordBytes := rfl
  constructor
  · omega
  · omega

theorem slabBase_grantNode (sh : Shape A) (virtBase p : Nat) :
    slabBase sh (grantNode sh virtBase p) = p + virtBase := by
  have hle := sh.nodeSize_le
  rw [slabBase, grantNode]
  omega

/-! ## Steps -/

namespace SysInv

variable {σ σ' : Sys} {c : Contents}

/-- The slabs lie in the blocks handed out. -/
theorem inBlocks (h : SysInv sh virtBase σ c) {a x : Nat} (ha : c.Holds a) (hlo : slabBase sh a ≤ x)
    (hhi : x < slabBase sh a + sh.size) : InBlocks sh.size virtBase σ.blocks x := by
  rcases (h.slabs a).1 ha with ⟨p, hp, rfl⟩
  rw [slabBase_grantNode] at hlo hhi
  exact ⟨p, hp, hlo, hhi⟩

theorem inBlocks_of_object (h : SysInv sh virtBase σ c) {a o x : Nat} (ha : c.Holds a)
    (ho : o ∈ objects sh a) (hlo : o ≤ x) (hhi : x < o + sh.objSize) :
    InBlocks sh.size virtBase σ.blocks x := by
  have hin := (h.inv.core.site ha).object_inside ho
  have hbase := (h.inv.core.site ha).base_add
  exact h.inBlocks ha (by omega) (by omega)

theorem inBlocks_of_isMeta (h : SysInv sh virtBase σ c) {x : Nat} (hx : IsMeta sh c x) :
    InBlocks sh.size virtBase σ.blocks x := by
  rcases hx with ⟨a, ha, hword | ⟨o, ho, rfl⟩⟩
  · have hin := (h.inv.core.site ha).isNodeWord_inside hword
    exact h.inBlocks ha hin.1 hin.2
  · have hoff := sh.nextOff_lt
    exact h.inBlocks_of_object ha ho (Nat.le_add_right _ _) (by omega)

/-- Memory outside the blocks does not matter. -/
theorem of_mem (h : SysInv sh virtBase σ c) {m : Mem}
    (hm : ∀ x, InBlocks sh.size virtBase σ.blocks x → m x = σ.mem x) :
    SysInv sh virtBase { σ with mem := m } c :=
  ⟨⟨h.inv.core.congr fun _ hx => hm _ (h.inBlocks_of_isMeta hx), h.inv.sorted, h.inv.counted⟩, h.out,
    h.slabs⟩

/-- A block that overlaps no block handed out overlaps no slab. -/
theorem granted (h : SysInv sh virtBase σ c) {p : Nat}
    (hp : BlockOk A σ.mgr.slabSize virtBase σ.blocks p) : Granted sh virtBase c p := by
  rw [h.inv.core.has.size] at hp
  refine ⟨hp.ne_zero, hp.dvd, hp.lt, ?_⟩
  intro a ha
  have hbase := (h.inv.core.site ha).base_add
  rcases (h.slabs a).1 ha with ⟨q, hq, rfl⟩
  have hle := sh.nodeSize_le
  have hnode : grantNode sh virtBase q + nodeSize A = q + virtBase + sh.size := by
    rw [grantNode]
    omega
  rcases hp.apart q hq with hlt | hlt
  · left
    omega
  · right
    omega

/-- Every valid step returns, keeps the invariant, and writes to the blocks only. -/
theorem step (h : SysInv sh virtBase σ c) (hbase : sh.size ∣ virtBase) {op : Op}
    (hvalid : op.Valid sh.toLayout virtBase σ) :
    ∃ σ' c', step sh.toLayout virtBase σ op = .ok σ' ∧ SysInv sh virtBase σ' c' ∧
      ∀ x, ¬ InBlocks sh.size virtBase σ'.blocks x → σ'.mem x = σ.mem x := by
  cases op with
  | alloc grant =>
      have hgrant : ∀ p ∈ σ.mgr.taken grant, Granted sh virtBase c p := by
        intro p hp
        -- The pages are taken only if they were asked for.
        have hp' : p ∈ grant := by
          unfold SlabManager.taken at hp
          split at hp
          · exact hp
          · cases hp
        exact h.granted (hvalid p hp')
      rcases alloc_spec h.inv hbase hgrant with ⟨r, g', m', c', hrun, hinv, hgrown, honly, hres⟩
      have hsys : SysInv sh virtBase
          ⟨g', m', r.toList ++ σ.out, (σ.mgr.taken grant).toList ++ σ.blocks⟩ c' := by
        refine ⟨hinv, ?_, ?_⟩
        · rcases hres with ⟨rfl, -, -, -, -, rfl⟩ | ⟨o, rfl, -, hout⟩
          · exact h.out
          · rw [hout, h.out]
            rfl
        · intro a
          rw [hgrown a, h.slabs a]
          simp only [List.mem_append, Option.mem_toList, or_and_right, exists_or]
          exact or_comm
      refine ⟨_, c', run_bind_eq_ok.2 ⟨_, hrun, rfl⟩, hsys, ?_⟩
      exact fun x hx => honly x fun hmeta => hx (hsys.inBlocks_of_isMeta hmeta)
  | free objAddr =>
      -- Clients free what they were given.
      have hmem : objAddr ∈ c.out := h.out.symm ▸ hvalid
      rcases free_spec h.inv hmem with ⟨g', m', c', hrun, hinv, hout, hholds, honly⟩
      refine ⟨_, c', run_bind_eq_ok.2 ⟨_, hrun, rfl⟩,
        ⟨hinv, ?_, fun a => (hholds a).trans (h.slabs a)⟩, ?_⟩
      · rw [hout, h.out]
      · exact fun x hx => honly x fun hmeta => hx (h.inBlocks_of_isMeta hmeta)
  | write objAddr addr word =>
      -- A client writes into its object, and not on the link word.
      rcases hvalid with ⟨hmem, hlo, hhi, hne, -⟩
      rw [← h.out, h.inv.core.out_iff] at hmem
      rcases hmem with ⟨a, ha, hoa, -⟩
      refine ⟨_, c, rfl, ⟨⟨h.inv.core.congr ?_, h.inv.sorted, h.inv.counted⟩, h.out, h.slabs⟩, ?_⟩
      · intro x hx
        refine Function.update_of_ne ?_ _ _
        rintro rfl
        exact h.inv.core.not_isMeta_of_object ha hoa hlo hhi hne hx
      · intro x hx
        refine Function.update_of_ne ?_ _ _
        rintro rfl
        exact hx (h.inBlocks_of_object ha hoa hlo hhi)

theorem reaches (h : SysInv sh virtBase σ c) (hbase : sh.size ∣ virtBase)
    (hrun : Reaches sh.toLayout virtBase σ σ') : ∃ c', SysInv sh virtBase σ' c' := by
  have hkeeps : Steps.Keeps (fun σ (op : Op) => op.Valid sh.toLayout virtBase σ) (Slab.step sh.toLayout virtBase)
      fun σ => ∃ c, SysInv sh virtBase σ c := by
    rintro σ op ⟨c₁, h₁⟩ hvalid
    rcases h₁.step hbase hvalid with ⟨σ₂, c₂, hstep, h₂, -⟩
    exact ⟨σ₂, hstep, c₂, h₂⟩
  exact hkeeps.run hrun ⟨c, h⟩

/-- The manager that `new` returns represents nothing, in any memory. -/
theorem init {g : SlabManager} {maxBlockPages : Nat} (virtBase : Nat) (mem : Mem)
    (hnew : new A ly maxBlockPages = .ok g) :
    ∃ sh : Shape A, sh.toLayout = ly ∧ sh.size = g.slabSize ∧
      SysInv sh virtBase ⟨g, mem, [], []⟩ Contents.none := by
  rcases new_has hnew with ⟨sh, rfl, hhas, hg⟩
  have hheld : ∀ a, ¬ Contents.none.Holds a := by
    rintro a ⟨k, hk⟩
    exact absurd hk List.not_mem_nil
  have hheads : ∀ k, g.head k = 0 := by
    intro k
    rw [hg]
    cases k <;> rfl
  -- All lists are empty, so every part about a slab or an object is void.
  refine ⟨sh, rfl, hhas.size.symm, ⟨⟨hhas, ?_, ?_, ?_, ?_, List.nodup_nil, ?_⟩, ?_, ?_⟩, rfl, ?_⟩
  · intro k
    rw [hheads k]
    exact SlabList.nil sh mem
  · intro k k' a ha
    exact absurd ha List.not_mem_nil
  · intro a ha
    exact absurd ha (hheld a)
  · intro o
    constructor
    · intro ho
      exact absurd ho List.not_mem_nil
    · rintro ⟨a, ha, -⟩
      exact absurd ha (hheld a)
  · intro o ho
    exact absurd ho List.not_mem_nil
  · intro k a ha
    exact absurd ha List.not_mem_nil
  · rw [hg]
    exact ⟨rfl, rfl, rfl⟩
  · intro a
    constructor
    · intro ha
      exact absurd ha (hheld a)
    · rintro ⟨p, hp, -⟩
      exact absurd hp List.not_mem_nil

end SysInv

/-- In every state reached from `new`, the memory represents the slabs and their objects, the counters
are right, and every further valid step returns. -/
theorem reaches_represents {g : SlabManager} {maxBlockPages : Nat} {mem : Mem} {σ : Sys}
    (hnew : new A ly maxBlockPages = .ok g) (hbase : g.slabSize ∣ virtBase)
    (hrun : Reaches ly virtBase ⟨g, mem, [], []⟩ σ) :
    ∃ sh : Shape A, sh.toLayout = ly ∧ σ.mgr.Has sh ∧ (∃ c, Represents sh virtBase σ c) ∧
      ∀ op : Op, op.Valid ly virtBase σ → ∃ σ', step ly virtBase σ op = .ok σ' := by
  rcases SysInv.init virtBase mem hnew with ⟨sh, rfl, hsize, h₀⟩
  rw [← hsize] at hbase
  rcases h₀.reaches hbase hrun with ⟨c, h⟩
  refine ⟨sh, rfl, h.inv.core.has, ⟨c, h.represents⟩, ?_⟩
  intro op hvalid
  rcases h.step hbase hvalid with ⟨σ', -, hstep, -⟩
  exact ⟨σ', hstep⟩

/-- Objects of 552 bytes on AArch64: seven of them fit in a page. -/
def exampleLayout : Layout .aarch64 :=
  ⟨560, 552, by decide, by decide, by decide⟩

/-- Two objects are allocated from a new slab, and the first one is freed. -/
theorem reaches_represents_two :
    ∃ g σ, new .aarch64 exampleLayout 1024 = .ok g ∧
      Reaches exampleLayout 0xffff000000000000 ⟨g, fun _ => 0, [], []⟩ σ ∧
      σ.out = [0xffff000000001af0] ∧
      ∃ sh : Shape .aarch64, sh.toLayout = exampleLayout ∧ σ.mgr.Has sh ∧
        (∃ c, Represents sh 0xffff000000000000 σ c) ∧
        ∀ op : Op, op.Valid exampleLayout 0xffff000000000000 σ →
          ∃ σ', step exampleLayout 0xffff000000000000 σ op = .ok σ' := by
  have hmap : (do
      let g ← new .aarch64 exampleLayout 1024
      let σ₁ ← step exampleLayout 0xffff000000000000 ⟨g, fun _ => 0, [], []⟩ (.alloc (some 0x1000))
      let σ₂ ← step exampleLayout 0xffff000000000000 σ₁ (.alloc none)
      let σ ← step exampleLayout 0xffff000000000000 σ₂ (.free 0xffff000000001d20)
      return (g.slabSize, σ₂.out, σ.out) : Run (Nat × List Nat × List Nat)) =
        .ok (4096, [0xffff000000001af0, 0xffff000000001d20], [0xffff000000001af0]) := by
    decide +kernel
  obtain ⟨g, hnew, hmap⟩ := run_bind_eq_ok.1 hmap
  obtain ⟨σ₁, hstep₁, hmap⟩ := run_bind_eq_ok.1 hmap
  obtain ⟨σ₂, hstep₂, hmap⟩ := run_bind_eq_ok.1 hmap
  obtain ⟨σ, hstep, hmap⟩ := run_bind_eq_ok.1 hmap
  obtain ⟨hsize, hmap⟩ := Prod.mk.inj (Except.ok.inj hmap)
  obtain ⟨hout₂, hout⟩ := Prod.mk.inj hmap
  have hfirst : (Op.alloc (some 0x1000)).Valid exampleLayout 0xffff000000000000
      ⟨g, fun _ => 0, [], []⟩ := by
    rintro p hp
    obtain rfl := Option.some.inj hp
    rw [hsize]
    exact ⟨by decide, by decide, by decide, by simp⟩
  have hsecond : (Op.alloc none).Valid exampleLayout 0xffff000000000000 σ₁ := by
    rintro p hp
    cases hp
  have hthird : (Op.free 0xffff000000001d20).Valid exampleLayout 0xffff000000000000 σ₂ := by
    show 0xffff000000001d20 ∈ σ₂.out
    rw [hout₂]
    decide
  have hrun : Reaches exampleLayout 0xffff000000000000 ⟨g, fun _ => 0, [], []⟩ σ :=
    Relation.ReflTransGen.head ⟨_, hfirst, hstep₁⟩ (Relation.ReflTransGen.head ⟨_, hsecond, hstep₂⟩
      (Relation.ReflTransGen.single ⟨_, hthird, hstep⟩))
  refine ⟨g, σ, hnew, hrun, hout, reaches_represents hnew ?_ hrun⟩
  rw [hsize]
  decide

end Slab
end Propeller
