import Propeller.Mm.Slab.Paged

/-!
# Slab.Release — when `free_unused` is exact and safe

In every state that a run of the slab manager over a page allocator reaches, `free_unused` is exact if
and only if there is an unused slab, and it keeps away from the slabs it has handed back if and only if
there is just one.
-/

namespace Propeller
namespace Slab

variable {A : Arch} {ly : Layout A} {virtBase : Nat} {P : PageAllocator}

/-- The manager that `new` returns holds no block. -/
theorem PagedInv.init {g : SlabManager} {maxBlockPages : Nat} {mem : Mem} {pgs : P.State}
    (hnew : new A ly maxBlockPages = .ok g) (L : Lawful P A virtBase g.slabPages)
    (hlends : L.Lends pgs mem []) :
    ∃ sh : Shape A, sh.toLayout = ly ∧ sh.size = g.slabSize ∧
      PagedInv L sh ⟨⟨g, mem, [], []⟩, pgs⟩ Contents.none := by
  rcases SysInv.init virtBase mem hnew with ⟨sh, hly, hsize, hsys⟩
  exact ⟨sh, hly, hsize, hsys, rfl, hlends, List.nodup_nil⟩

/-- In every reachable state the memory represents the slabs, and `free_unused` is exact exactly when some
slab is unused. -/
theorem freeUnused_exact_iff {g : SlabManager} {maxBlockPages : Nat} {mem : Mem} {pgs : P.State}
    {σ : Paged P} (hnew : new A ly maxBlockPages = .ok g) (hbase : g.slabSize ∣ virtBase)
    (L : Lawful P A virtBase g.slabPages) (hlends : L.Lends pgs mem [])
    (hrun : PagedReaches L ly ⟨⟨g, mem, [], []⟩, pgs⟩ σ) :
    ∃ (sh : Shape A) (c : Contents), sh.toLayout = ly ∧ Represents sh virtBase σ.toSys c ∧
      ((∃ s, freeUnused A P virtBase σ.mgr σ.pages σ.mem = .ok s ∧
        FreesUnused sh virtBase σ.toSys c s) ↔ σ.mgr.unused ≠ 0) := by
  rcases PagedInv.init hnew L hlends with ⟨sh, rfl, hsize, h₀⟩
  rw [← hsize] at hbase
  rcases h₀.reaches hbase hrun with ⟨c, hσ⟩
  refine ⟨sh, c, rfl, hσ.sys.represents, ?_⟩
  constructor
  · rintro ⟨s, hfree, -⟩ hhead
    rw [freeUnused_none hhead] at hfree
    cases hfree
  · intro hhead
    cases hlist : c.slabs .unused with
    | nil => exact absurd ((hσ.sys.inv.core.list .unused).head_eq_zero_iff.2 hlist) hhead
    | cons h t =>
        rcases hσ.freeUnused_cons hlist with ⟨s, hfree, hmgr, htrace, -, hwords⟩
        exact ⟨s, hfree, hσ.freesUnused hlist hmgr htrace hwords⟩

/-- In every reachable state with an unused slab, `free_unused` returns, and it accesses no slab that it has
handed back exactly when there is one unused slab. -/
theorem freeUnused_noUseAfterFree_iff {g : SlabManager} {maxBlockPages : Nat} {mem : Mem}
    {pgs : P.State} {σ : Paged P} (hnew : new A ly maxBlockPages = .ok g)
    (hbase : g.slabSize ∣ virtBase) (L : Lawful P A virtBase g.slabPages)
    (hlends : L.Lends pgs mem []) (hrun : PagedReaches L ly ⟨⟨g, mem, [], []⟩, pgs⟩ σ)
    (hunused : σ.mgr.unused ≠ 0) :
    ∃ (sh : Shape A) (c : Contents) (s : Sweep P), sh.toLayout = ly ∧
      Represents sh virtBase σ.toSys c ∧ freeUnused A P virtBase σ.mgr σ.pages σ.mem = .ok s ∧
      (NoUseAfterFree virtBase s.trace ↔ (c.slabs .unused).length = 1) := by
  rcases PagedInv.init hnew L hlends with ⟨sh, rfl, hsize, h₀⟩
  rw [← hsize] at hbase
  rcases h₀.reaches hbase hrun with ⟨c, hσ⟩
  cases hlist : c.slabs .unused with
  | nil => exact absurd ((hσ.sys.inv.core.list .unused).head_eq_zero_iff.2 hlist) hunused
  | cons h t =>
      rcases hσ.freeUnused_cons hlist with ⟨s, hfree, -, htrace, -, -⟩
      refine ⟨sh, c, s, rfl, hσ.sys.represents, hfree, ?_⟩
      rw [htrace, hlist]
      -- The sweep frees `t ++ [h]`: one slab, or two at least.
      cases t with
      | nil => simpa using noUseAfterFree_one
      | cons b t =>
          have hready := hσ.ready hlist
          have hsite := hready.site b (by simp)
          have hlinear := hready.linear b (by simp)
          have hmore : ¬ NoUseAfterFree virtBase
              (sweepTrace sh virtBase g.slabPages h (b :: t ++ [h])) := by
            cases t with
            | nil => exact useAfterFree_more hsite hlinear hσ.size_eq
            | cons d t => exact useAfterFree_more hsite hlinear hσ.size_eq
          simpa using hmore

/-! ## Runs over a small area -/

/-- The linear mapping of the examples. -/
def exampleBase : Nat := 0xffff000000000000

/-- The end of the area. -/
def exampleEnd : Nat := 0x10000

/-- A page allocator that hands out the pages of a small area one after the other, and writes the node of
a list of its own to each block it gets back. -/
def bumpPages : PageAllocator where
  State := Nat
  alloc pages next m :=
    if next + pages * pageSize ≤ exampleEnd then .ok (some (next, pages), next + pages * pageSize, m)
    else .ok (none, next, m)
  free addr _ next m :=
    let m := Function.update m (addr + exampleBase) addr
    let m := Function.update m (addr + exampleBase + 8) addr
    .ok (next, Function.update m (addr + exampleBase + 16) (xorChecksum .aarch64 [addr, addr]))

/-- The blocks `bs` are different pages below the next one. -/
structure BumpLends (next : Nat) (bs : List Nat) : Prop where
  ne_zero : next ≠ 0
  dvd : pageSize ∣ next
  nodup : bs.Nodup
  pages : ∀ p ∈ bs, pageSize ∣ p ∧ p + pageSize ≤ next

theorem bumpPages_free_only {p : Nat} {bs : List Nat} {m : Mem} (hp : pageSize ∣ p)
    (hbs : ∀ q ∈ bs, pageSize ∣ q ∧ q ≠ p) :
    BlocksOnly .aarch64 (1 * pageSize) exampleBase bs m
      (Function.update (Function.update (Function.update m (p + exampleBase) p) (p + exampleBase + 8) p)
        (p + exampleBase + 16) (xorChecksum .aarch64 [p, p])) := by
  intro x hx
  -- The words of the node are the words that change.
  have hword : x = p + exampleBase ∨ x = p + exampleBase + 8 ∨ x = p + exampleBase + 16 := by
    by_contra hnot
    rw [not_or, not_or] at hnot
    refine hx ?_
    rw [Function.update_of_ne hnot.2.2, Function.update_of_ne hnot.2.1, Function.update_of_ne hnot.1]
  have hbase : exampleBase % 4096 = 0 := by decide
  have hsize : pageSize = 4096 := rfl
  rw [hsize] at hp hbs
  constructor
  · rw [IsBlockWord, hsize]
    show x % 4096 < 24
    omega
  · rintro ⟨q, hq, hlo, hhi⟩
    have hq' := hbs q hq
    rw [hsize] at hhi
    omega

/-- The next page can be handed out. -/
theorem BumpLends.alloc {next : Nat} {bs : List Nat} (h : BumpLends next bs)
    (hroom : next + 1 * pageSize ≤ exampleEnd) :
    BumpLends (next + 1 * pageSize) (next :: bs) ∧
      BlockOk .aarch64 (1 * pageSize) exampleBase bs next := by
  have hpos := pageSize_pos
  have hsize : 1 * pageSize = pageSize := Nat.one_mul _
  have hlimit : exampleEnd + exampleBase < Arch.aarch64.wordLimit := by decide
  refine ⟨⟨by omega, ?_, ?_, ?_⟩, h.ne_zero, ?_, by omega, fun q hq => Or.inr ?_⟩
  · rw [hsize]
    exact h.dvd.add (dvd_refl _)
  · refine List.nodup_cons.2 ⟨fun hmem => ?_, h.nodup⟩
    have hle := (h.pages next hmem).2
    omega
  · intro p hp
    rcases List.mem_cons.1 hp with rfl | hp
    · exact ⟨h.dvd, by omega⟩
    · have hle := (h.pages p hp).2
      exact ⟨(h.pages p hp).1, by omega⟩
  · rw [hsize]
    exact h.dvd
  · rw [hsize]
    exact (h.pages q hq).2

theorem bumpPages_alloc_room {next : Nat} (m : Mem) (hroom : next + 1 * pageSize ≤ exampleEnd) :
    bumpPages.alloc 1 next m = .ok (some (next, 1), next + 1 * pageSize, m) := by
  simp only [bumpPages]
  rw [if_pos hroom]

theorem bumpPages_alloc_full {next : Nat} (m : Mem) (hfull : ¬ next + 1 * pageSize ≤ exampleEnd) :
    bumpPages.alloc 1 next m = .ok (none, next, m) := by
  simp only [bumpPages]
  rw [if_neg hfull]

def bumpPages_lawful : Lawful bumpPages .aarch64 exampleBase 1 where
  Lends next _ bs := BumpLends next bs
  frame h _ := h
  alloc := by
    intro next m bs h
    by_cases hroom : Nat.add next (1 * pageSize) ≤ exampleEnd
    · have hnext := h.alloc hroom
      refine ⟨_, _, _, bumpPages_alloc_room m hroom, hnext.1, fun x hx => absurd rfl hx, ?_⟩
      intro p hp
      obtain rfl := Option.some.inj hp
      exact hnext.2
    · exact ⟨_, _, _, bumpPages_alloc_full m hroom, h, fun x hx => absurd rfl hx, fun p hp => by cases hp⟩
  free := by
    intro next m bs p h hp
    refine ⟨next, _, rfl, ⟨h.ne_zero, h.dvd, h.nodup.erase p, ?_⟩, ?_⟩
    · exact fun q hq => h.pages q (List.mem_of_mem_erase hq)
    · refine bumpPages_free_only (h.pages p hp).1 ?_
      intro q hq
      rw [h.nodup.mem_erase_iff] at hq
      exact ⟨(h.pages q hq.2).1, hq.1⟩

/-- A client's calls: `none` allocates an object, and `some` frees one that it holds. -/
def clientCalls (σ : Paged bumpPages) : List (Option Nat) → Run (Paged bumpPages)
  | [] => .ok σ
  | none :: calls => do
      let σ ← σ.step exampleLayout exampleBase .alloc
      clientCalls σ calls
  | some objAddr :: calls => do
      require (objAddr ∈ σ.out) .slabState
      let σ ← σ.step exampleLayout exampleBase (.free objAddr)
      clientCalls σ calls

theorem clientCalls_reaches {σ σ' : Paged bumpPages} {calls : List (Option Nat)}
    (h : clientCalls σ calls = .ok σ') : PagedReaches bumpPages_lawful exampleLayout σ σ' := by
  induction calls generalizing σ with
  | nil =>
      obtain rfl := Except.ok.inj h
      exact Relation.ReflTransGen.refl
  | cons call calls ih =>
      cases call with
      | none =>
          rcases run_bind_eq_ok.1 h with ⟨σ₁, hstep, h⟩
          exact Relation.ReflTransGen.head ⟨.alloc, trivial, hstep⟩ (ih h)
      | some objAddr =>
          rcases run_bind_eq_ok.1 h with ⟨_, hmem, h⟩
          rcases run_bind_eq_ok.1 h with ⟨σ₁, hstep, h⟩
          have hvalid : objAddr ∈ σ.out := require_eq_ok.1 hmem
          exact Relation.ReflTransGen.head ⟨.free objAddr, hvalid, hstep⟩ (ih h)

/-- The state before any call, with the area from the first page on. -/
def exampleStart (g : SlabManager) : Paged bumpPages :=
  ⟨⟨g, fun _ => 0, [], []⟩, (0x1000 : Nat)⟩

/-- The manager of the examples. -/
def exampleManager : SlabManager :=
  ⟨1, 7, 0, 0, 0, 0, 0, 0⟩

theorem new_exampleManager : new .aarch64 exampleLayout 1024 = .ok exampleManager := by
  decide +kernel

theorem exampleStart_lends : bumpPages_lawful.Lends (0x1000 : Nat) (fun _ => 0) [] :=
  ⟨by decide, by decide, List.nodup_nil, by simp⟩

/-- The object `i` of the page `page`. -/
def exampleObject (page i : Nat) : Nat :=
  exampleBase + page * 4096 + i * 560

/-- Eight objects are allocated, the eighth from a second slab, and all of them are freed. -/
def twoSlabs : List (Option Nat) :=
  List.replicate 8 none ++ [6, 5, 4, 3, 2, 1, 0].map (fun i => some (exampleObject 1 i)) ++
    [some (exampleObject 2 6)]

/-- Two unused slabs are handed back. -/
theorem freeUnused_exact_two :
    ∃ σ, clientCalls (exampleStart exampleManager) twoSlabs = .ok σ ∧ σ.blocks = [0x2000, 0x1000] ∧
      ∃ (sh : Shape .aarch64) (c : Contents), sh.toLayout = exampleLayout ∧
        Represents sh exampleBase σ.toSys c ∧
        ∃ s, freeUnused .aarch64 bumpPages exampleBase σ.mgr σ.pages σ.mem = .ok s ∧
          FreesUnused sh exampleBase σ.toSys c s := by
  have hmap : (do
      let σ ← clientCalls (exampleStart exampleManager) twoSlabs
      return (σ.blocks, σ.mgr.unused) : Run (List Nat × Nat)) =
        .ok ([0x2000, 0x1000], 0xffff000000001fd8) := by
    decide +kernel
  obtain ⟨σ, hrun, hmap⟩ := run_bind_eq_ok.1 hmap
  obtain ⟨hblocks, hunused⟩ := Prod.mk.inj (Except.ok.inj hmap)
  obtain ⟨sh, c, hly, hrep, hiff⟩ := freeUnused_exact_iff new_exampleManager (by decide) bumpPages_lawful
    exampleStart_lends (clientCalls_reaches hrun)
  refine ⟨σ, hrun, hblocks, sh, c, hly, hrep, hiff.2 ?_⟩
  rw [hunused]
  decide

/-- Before the first call there is no unused slab, and `free_unused` panics. -/
theorem freeUnused_empty_panics :
    new .aarch64 exampleLayout 1024 = .ok exampleManager ∧
      PagedReaches bumpPages_lawful exampleLayout (exampleStart exampleManager)
        (exampleStart exampleManager) ∧
      freeUnused .aarch64 bumpPages exampleBase (exampleStart exampleManager).mgr
        (exampleStart exampleManager).pages (exampleStart exampleManager).mem = .error .unwrap :=
  ⟨new_exampleManager, Relation.ReflTransGen.refl, freeUnused_none rfl⟩

/-- An object is allocated and freed, and its slab is handed back. -/
theorem freeUnused_noUseAfterFree_first :
    ∃ σ, clientCalls (exampleStart exampleManager) [none, some (exampleObject 1 6)] = .ok σ ∧
      σ.blocks = [0x1000] ∧
      ∃ (sh : Shape .aarch64) (c : Contents) (s : Sweep bumpPages), sh.toLayout = exampleLayout ∧
        Represents sh exampleBase σ.toSys c ∧
        freeUnused .aarch64 bumpPages exampleBase σ.mgr σ.pages σ.mem = .ok s ∧
        (NoUseAfterFree exampleBase s.trace ↔ (c.slabs .unused).length = 1) := by
  have hmap : (do
      let σ ← clientCalls (exampleStart exampleManager) [none, some (exampleObject 1 6)]
      return (σ.blocks, σ.mgr.unused) : Run (List Nat × Nat)) = .ok ([0x1000], 0xffff000000001fd8) := by
    decide +kernel
  obtain ⟨σ, hrun, hmap⟩ := run_bind_eq_ok.1 hmap
  obtain ⟨hblocks, hunused⟩ := Prod.mk.inj (Except.ok.inj hmap)
  refine ⟨σ, hrun, hblocks, freeUnused_noUseAfterFree_iff new_exampleManager (by decide)
    bumpPages_lawful exampleStart_lends (clientCalls_reaches hrun) ?_⟩
  rw [hunused]
  decide

/-- With two unused slabs the second one is freed first and its node is read afterwards. -/
theorem freeUnused_reads_freed :
    ∃ σ s, clientCalls (exampleStart exampleManager) twoSlabs = .ok σ ∧
      PagedReaches bumpPages_lawful exampleLayout (exampleStart exampleManager) σ ∧
      σ.mgr.unused ≠ 0 ∧ freeUnused .aarch64 bumpPages exampleBase σ.mgr σ.pages σ.mem = .ok s ∧
      ¬ NoUseAfterFree exampleBase s.trace := by
  have hmap : (do
      let σ ← clientCalls (exampleStart exampleManager) twoSlabs
      let s ← freeUnused .aarch64 bumpPages exampleBase σ.mgr σ.pages σ.mem
      return (σ.mgr.unused, s.trace[11]?, s.trace[12]?) :
        Run (Nat × Option Access × Option Access)) =
        .ok (0xffff000000001fd8, some (.free 0x2000 1), some (.read 0xffff000000002fd8)) := by
    decide +kernel
  obtain ⟨σ, hrun, hmap⟩ := run_bind_eq_ok.1 hmap
  obtain ⟨s, hfree, hmap⟩ := run_bind_eq_ok.1 hmap
  obtain ⟨hunused, hmap⟩ := Prod.mk.inj (Except.ok.inj hmap)
  obtain ⟨hfirst, hnext⟩ := Prod.mk.inj hmap
  refine ⟨σ, s, hrun, clientCalls_reaches hrun, ?_, hfree, ?_⟩
  · rw [hunused]
    decide
  · intro hno
    obtain ⟨h₁, heq₁⟩ := List.getElem?_eq_some_iff.1 hfirst
    obtain ⟨h₂, heq₂⟩ := List.getElem?_eq_some_iff.1 hnext
    have hpair := List.pairwise_iff_getElem.1 hno 11 12 h₁ h₂ (by decide)
    rw [heq₁, heq₂] at hpair
    exact hpair 0x2000 1 rfl ⟨by decide, by decide⟩

end Slab
end Propeller
