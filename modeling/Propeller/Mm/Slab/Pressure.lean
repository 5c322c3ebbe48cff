import Propeller.Mm.Slab.Owners

/-!
# Slab.Pressure — freeing an object when there is no memory

When both bundles of a core are full or null and the manager can give no empty one, `free_internal` returns the
object to its slab.  Before it knows that there is no empty bundle, `exchange_full_bundle` has put the standby
bundle on the full list; the core keeps it nevertheless.  So the call changes nothing but the slab exactly if there
is no standby bundle.
-/

namespace Propeller
namespace Slab

variable {A : Arch} {shO shB : Shape A} {ly : Layout A} {virtBase n : Nat} {s s' : SlabAllocator}
  {regions : List (Nat × Nat)} {i o : Nat} {grant : Option Nat} {γ : Layers} {σ : Cores} {g : SlabManager} {m : Mem}

/-- `free_internal` on core `i`, one step after the other; `grant` is the answer of the page allocator. -/
def freeInternal (ly : Layout A) (virtBase : Nat) (grant : Option Nat) (i objAddr : Nat) (s : SlabAllocator) :
    Run SlabAllocator := do
  let r ← coreStep ly virtBase grant i s (.freeCases objAddr)
  let r ← coreStep ly virtBase grant i r.alloc r.pc
  let r ← coreStep ly virtBase grant i r.alloc r.pc
  let r ← coreStep ly virtBase grant i r.alloc r.pc
  return r.alloc

/-- The bundles of core `i` are full or null, and no empty bundle can be obtained. -/
structure Pressure (A : Arch) (virtBase : Nat) (grant : Option Nat) (i : Nat) (s : SlabAllocator) : Prop where
  current : (s.cache i).current = 0 ∨ (s.cache i).currCount = BUNDLE_SIZE
  standby : (s.cache i).standby = 0 ∨ (s.cache i).stbyCount = BUNDLE_SIZE
  empty : s.bundleMgr.empty = 0
  fails : ∃ g m', alloc A (bundleLayout A) virtBase grant s.bundleMgr.bundleAlloc s.mem = .ok (none, g, m')

/-- The object goes back to its slab, and the caches and the lists of the manager stay as they are. -/
structure FreedOnly (ly : Layout A) (objAddr : Nat) (s s' : SlabAllocator) : Prop where
  cache : s'.cache = s.cache
  full : s'.bundleMgr.full = s.bundleMgr.full
  empty : s'.bundleMgr.empty = s.bundleMgr.empty
  fullList : ∀ fs, Chain (BUNDLE_SIZE * A.wordBytes) s.mem s.bundleMgr.full fs →
    Chain (BUNDLE_SIZE * A.wordBytes) s'.mem s'.bundleMgr.full fs
  emptyList : ∀ es, Chain (BUNDLE_SIZE * A.wordBytes) s.mem s.bundleMgr.empty es →
    Chain (BUNDLE_SIZE * A.wordBytes) s'.mem s'.bundleMgr.empty es
  freed : free A ly objAddr s.objAlloc s.mem = .ok (s'.objAlloc, s'.mem)

theorem Chain.unique {off head : Nat} {xs ys : List Nat} (hx : Chain off m head xs) (hy : Chain off m head ys) :
    xs = ys := by
  induction xs generalizing head ys with
  | nil =>
      have hzero : head = 0 := hx
      exact (hy.head_eq_zero_iff.1 hzero).symm
  | cons x xs ih =>
      cases ys with
      | nil => exact absurd (show head = 0 from hy) (hx.1 ▸ hx.2.1)
      | cons y ys =>
          obtain rfl := hx.1
          obtain rfl := hy.1
          rw [ih hx.2.2 hy.2.2]

/-- A slab manager without a slab to allocate from gets no memory. -/
theorem alloc_of_request (hask : g.request ≠ none) : alloc A ly virtBase none g m = .ok (none, g, m) := by
  have hnone : g.inUse = 0 ∧ g.unused = 0 := by
    by_contra hnot
    exact hask (if_neg hnot)
  have hmove : ¬ (g.inUse = 0 ∧ g.unused ≠ 0) := fun hmove => hmove.2 hnone.2
  simp only [alloc, findSlab, moveSlabIf, if_neg hmove, run_ok_bind, if_pos hnone.1, allocSlab, Option.getD_none,
    addSlabToTail, if_true, pure_bind]
  rfl

namespace AllocInv

/-- The allocation of a bundle fails only for want of memory. -/
theorem no_bundle (h : AllocInv shO shB virtBase n s regions γ) (hB : shB.toLayout = bundleLayout A)
    (hbase : shB.size ∣ virtBase)
    (hgrant : ∀ size ∈ s.bundleMgr.bundleAlloc.request, ∀ p ∈ grant, RegionOk A virtBase regions size p)
    (hp : Pressure A virtBase grant i s) : grant = none ∧ s.bundleMgr.bundleAlloc.request ≠ none := by
  rcases hp.fails with ⟨g, m', hfails⟩
  rcases h.world.allocBundle hB hbase hgrant with ⟨r, gB, m₁, cB', hrun, -, -, hres⟩
  rw [hfails] at hrun
  obtain ⟨rfl, -⟩ := Prod.mk.inj (Except.ok.inj hrun)
  rcases hres with ⟨-, hno, hask, -⟩ | ⟨b, hb, -⟩
  · exact ⟨hno, hask⟩
  · cases hb

/-- What is left of the call when the exchange has failed. -/
theorem free_after {t : SlabAllocator} (grant : Option Nat) (h : World shO shB virtBase t regions γ.objs γ.bundles)
    (hB : shB.toLayout = bundleLayout A) (ho : o ∈ γ.objs.out)
    (hcurrent : (t.cache i).current = 0 ∨ (t.cache i).currCount = BUNDLE_SIZE) :
    ∃ gO m', free A shO.toLayout o t.objAlloc t.mem = .ok (gO, m') ∧
      (∀ b ∈ γ.bundles.out, m' (slotAddr A b BUNDLE_SIZE) = t.mem (slotAddr A b BUNDLE_SIZE)) ∧
      (do
        let r ← coreStep shO.toLayout virtBase grant i t (.freeRelease o)
        let r ← coreStep shO.toLayout virtBase grant i r.alloc r.pc
        return r.alloc : Run SlabAllocator) = .ok { t with objAlloc := gO, mem := m' } := by
  rcases h.freeObject hB ho with ⟨gO, m', cO', hrun, -, hkept, -⟩
  have hfull : ¬ ((t.cache i).current ≠ 0 ∧ (t.cache i).currCount < BUNDLE_SIZE) := by omega
  refine ⟨gO, m', hrun, fun b hb => hkept b hb _ le_rfl, ?_⟩
  simp only [coreStep, if_neg hfull, run_ok_bind, hrun]
  rfl

/-- The exchange fails: the standby bundle, if there is one, is on the full list now. -/
theorem exchange_fails (h : AllocInv shO shB virtBase n s regions γ) (hB : shB.toLayout = bundleLayout A)
    (hi : i < n) (hp : Pressure A virtBase none i s) (hask : s.bundleMgr.bundleAlloc.request ≠ none) (ly : Layout A) :
    ∃ t, coreStep ly virtBase none i s (.freeExchange o) = .ok ⟨t, .freeRelease o, none⟩ ∧ t.cache = s.cache ∧
      World shO shB virtBase t regions γ.objs γ.bundles ∧
      ((s.cache i).standby = 0 → t = s) ∧
      ((s.cache i).standby ≠ 0 → t.bundleMgr.full = (s.cache i).standby) := by
  -- The list of empty bundles is empty and the page allocator answers with nothing.
  have hsupply : ∀ full m, Slab.allocEmptyBundle A virtBase none { s.bundleMgr with full } m =
      .ok (none, { s.bundleMgr with full }, m) := by
    intro full m
    have halloc : alloc A (bundleLayout A) virtBase none s.bundleMgr.bundleAlloc m =
        .ok (none, s.bundleMgr.bundleAlloc, m) := alloc_of_request hask
    simp only [Slab.allocEmptyBundle, refillEmpty, if_pos hp.empty, halloc, run_ok_bind]
    exact if_pos hp.empty
  by_cases hzero : (s.cache i).standby = 0
  · refine ⟨s, ?_, rfl, h.world, fun _ => rfl, fun hne => absurd hzero hne⟩
    simp only [coreStep, exchangeFullBundle, hzero, returnBundle_zero, run_ok_bind, hsupply]
    rfl
  · rcases h.giveStandby hB hi hzero (hp.standby.resolve_left hzero) with ⟨hret, hinv, -, -⟩
    refine ⟨{ s with bundleMgr := (s.giveStandby A i).bundleMgr, mem := (s.giveStandby A i).mem }, ?_, rfl,
      hinv.world.congr rfl rfl rfl, fun heq => absurd heq hzero, fun _ => rfl⟩
    simp only [coreStep, exchangeFullBundle, hret, run_ok_bind, hsupply]
    rfl

theorem freeInternal_spec (h : AllocInv shO shB virtBase n s regions γ) (hB : shB.toLayout = bundleLayout A)
    (hi : i < n) (hp : Pressure A virtBase none i s) (hask : s.bundleMgr.bundleAlloc.request ≠ none)
    (ho : o ∈ γ.objs.out) :
    ∃ s', freeInternal shO.toLayout virtBase none i o s = .ok s' ∧
      (FreedOnly shO.toLayout o s s' ↔ (s.cache i).standby = 0) := by
  rcases h.exchange_fails hB hi hp hask shO.toLayout (o := o) with ⟨t, hexchange, hcache, hworld, hnull, hgiven⟩
  have hcurrent : (t.cache i).current = 0 ∨ (t.cache i).currCount = BUNDLE_SIZE := by
    rw [hcache]
    exact hp.current
  rcases free_after none hworld hB ho hcurrent with ⟨gO, m', hfree, hkept, hrest⟩
  have ho0 := h.object_ne_zero ho
  have hcurr : ¬ ((s.cache i).currCount < BUNDLE_SIZE ∧ (s.cache i).current ≠ 0) := by
    have := hp.current
    omega
  have hstby : ¬ ((s.cache i).stbyCount < BUNDLE_SIZE ∧ (s.cache i).standby ≠ 0) := by
    have := hp.standby
    omega
  have hcases : coreStep shO.toLayout virtBase none i s (.freeCases o) = .ok ⟨s, .freeExchange o, none⟩ := by
    simp only [coreStep, require_pos ho0, run_ok_bind, if_neg hcurr, if_neg hstby]
    rfl
  refine ⟨{ t with objAlloc := gO, mem := m' }, ?_, ?_, ?_⟩
  · simp only [freeInternal, hcases, run_ok_bind, hexchange]
    exact hrest
  · intro hfreed
    by_contra hne
    -- The standby bundle is the head of the full list now, and it was not on that list before.
    have hhead : s.bundleMgr.full = (s.cache i).standby := (hgiven hne).symm.trans hfreed.full |>.symm
    rcases h.bundles.apart h.nodup hi hne (s.cache i).refs_standby with ⟨-, -, hout, -⟩
    have hchain := h.bundles.full
    rw [hhead] at hchain
    cases hfs : γ.full with
    | nil =>
        rw [hfs] at hchain
        exact hne hchain
    | cons b fs =>
        rw [hfs] at hchain hout
        exact hout (hchain.1 ▸ List.mem_cons_self)
  · intro hzero
    obtain rfl := hnull hzero
    refine ⟨rfl, rfl, rfl, fun fs hfs => ?_, fun es hes => ?_, hfree⟩
    · rw [← h.bundles.full.unique hfs]
      exact h.bundles.full.congr fun b hb => hkept b (h.bundles.mem_out_of_full hb)
    · rw [← h.bundles.empty.unique hes]
      exact h.bundles.empty.congr fun b hb => hkept b (h.bundles.mem_out_of_empty hb)

end AllocInv

/-- In every state that is reached by steps that share no bundle, `free_internal` under pressure returns, and it
leaves the caches and the lists alone exactly if the core has no standby bundle. -/
theorem freeInternal_atomic_iff {maxBlockPages : Nat} {mem : Mem}
    (hnew : SlabAllocator.new ly maxBlockPages mem = .ok s)
    (hbaseO : s.objAlloc.slabSize ∣ virtBase) (hbaseB : s.bundleMgr.bundleAlloc.slabSize ∣ virtBase)
    (hrun : RunIf ly virtBase n (fun σ e => e.Unshared σ) (Cores.start s) σ)
    (hi : i < n) (ho : o ∈ σ.held)
    (hgrant : ∀ size ∈ σ.alloc.bundleMgr.request, ∀ p ∈ grant, RegionOk A virtBase σ.regions size p)
    (hp : Pressure A virtBase grant i σ.alloc) :
    ∃ s', freeInternal ly virtBase grant i o σ.alloc = .ok s' ∧
      (FreedOnly ly o σ.alloc s' ↔ (σ.alloc.cache i).standby = 0) := by
  rcases CoresInv.init virtBase n hnew with ⟨shO, shB, rfl, hlyB, hsizeO, hsizeB, h₀, -⟩
  rw [← hsizeO] at hbaseO
  rw [← hsizeB] at hbaseB
  rcases h₀.run hlyB hbaseO hbaseB (fun _ _ hcond => hcond) hrun with ⟨γ, h⟩
  rw [BundleManager.request, if_pos hp.empty] at hgrant
  rcases h.inv.no_bundle hlyB hbaseB hgrant hp with ⟨rfl, hask⟩
  exact h.inv.freeInternal_spec hlyB hi hp hask (h.mem_out_of_held ho)

/-- A call of `alloc_internal` that gets memory for an object but none for bundles. -/
def poorCall : List Event :=
  .callAlloc 0 :: List.replicate 4 (.run 0 none) ++ [.run 0 (some 0x2000)]

/-- What is tested of a state: where the bundles of core 0 are, and whether an empty one can be obtained. -/
def pressureOf (virtBase : Nat) (σ : Cores) : Run (CoreCache × Nat × Option Nat) := do
  let r ← alloc .aarch64 (bundleLayout .aarch64) virtBase none σ.alloc.bundleMgr.bundleAlloc σ.alloc.mem
  return (σ.alloc.cache 0, σ.alloc.bundleMgr.empty, r.1)

theorem pressure_of_eq {cache : CoreCache} (h : pressureOf virtBase σ = .ok (cache, 0, none))
    (hcurrent : cache.current = 0 ∨ cache.currCount = BUNDLE_SIZE)
    (hstandby : cache.standby = 0 ∨ cache.stbyCount = BUNDLE_SIZE) : Pressure .aarch64 virtBase none 0 σ.alloc := by
  rcases run_bind_eq_ok.1 h with ⟨⟨r, g, m'⟩, hfails, hret⟩
  have hparts := Prod.mk.inj (Except.ok.inj hret)
  have hrest := Prod.mk.inj hparts.2
  have hnone : r = none := hrest.2
  rw [← hparts.1] at hcurrent hstandby
  exact ⟨hcurrent, hstandby, hrest.1, g, m', hnone ▸ hfails⟩

/-- A core without bundles frees an object. -/
theorem freeInternal_atomic_poor :
    ∃ s σ, SlabAllocator.new smallLayout 1024 (fun _ => 0) = .ok s ∧
      RunIf smallLayout 0xffff000000000000 1 (fun σ e => e.Unshared σ) (Cores.start s) σ ∧
      smallObject 35 ∈ σ.held ∧ Pressure .aarch64 0xffff000000000000 none 0 σ.alloc ∧
      ∃ s', freeInternal smallLayout 0xffff000000000000 none 0 (smallObject 35) σ.alloc = .ok s' ∧
        (FreedOnly smallLayout (smallObject 35) σ.alloc s' ↔ (σ.alloc.cache 0).standby = 0) := by
  have hmap : (do
      let s ← SlabAllocator.new smallLayout 1024 (fun _ => 0)
      let σ ← trace smallLayout 0xffff000000000000 1 (fun σ e => e.Unshared σ) (Cores.start s) poorCall
      let p ← pressureOf 0xffff000000000000 σ
      return ((s.objAlloc.slabSize, s.bundleMgr.bundleAlloc.slabSize), σ.held, p) :
        Run ((Nat × Nat) × List Nat × CoreCache × Nat × Option Nat)) =
      .ok ((4096, 4096), [smallObject 35], ⟨0, 0, 0, 0⟩, 0, none) := by
    decide +kernel
  obtain ⟨s, hnew, hmap⟩ := run_bind_eq_ok.1 hmap
  obtain ⟨σ, htrace, hmap⟩ := run_bind_eq_ok.1 hmap
  obtain ⟨p, hpress, hmap⟩ := run_bind_eq_ok.1 hmap
  obtain ⟨hsizes, hmap⟩ := Prod.mk.inj (Except.ok.inj hmap)
  obtain ⟨hsizeO, hsizeB⟩ := Prod.mk.inj hsizes
  obtain ⟨hheld, hcache⟩ := Prod.mk.inj hmap
  rw [hcache] at hpress
  have hrun := runIf_of_trace htrace
  have hp := pressure_of_eq hpress (Or.inl rfl) (Or.inl rfl)
  have ho : smallObject 35 ∈ σ.held := by
    rw [hheld]
    exact List.mem_cons_self
  refine ⟨s, σ, hnew, hrun, ho, hp, freeInternal_atomic_iff hnew ?_ ?_ hrun Nat.zero_lt_one ho
    (fun _ _ p hp => nomatch hp) hp⟩
  · rw [hsizeO]
    decide
  · rw [hsizeB]
    decide

/-- Fourteen cores have all bundles of a page, and both bundles of core 0 are full. -/
def fullCore : List Event :=
  firstCall ++ (List.range 13).flatMap (fun k => allocCall (k + 1)) ++ (List.range 19).flatMap (fun _ => allocCall 0) ++
    (List.range 32).flatMap (fun k => freeCall 0 (smallObject (35 - k)))

/-- The standby bundle of core 0 is on the full list behind the call, and core 0 still has it. -/
theorem freeInternal_shares_standby :
    ∃ s σ s', SlabAllocator.new smallLayout 1024 (fun _ => 0) = .ok s ∧
      RunIf smallLayout 0xffff000000000000 14 (fun σ e => e.Unshared σ) (Cores.start s) σ ∧
      smallObject 3 ∈ σ.held ∧ Pressure .aarch64 0xffff000000000000 none 0 σ.alloc ∧
      freeInternal smallLayout 0xffff000000000000 none 0 (smallObject 3) σ.alloc = .ok s' ∧
      σ.alloc.bundleMgr.full = 0 ∧ s'.bundleMgr.full = (s'.cache 0).standby ∧
      ¬ FreedOnly smallLayout (smallObject 3) σ.alloc s' := by
  have hmap : (do
      let s ← SlabAllocator.new smallLayout 1024 (fun _ => 0)
      let σ ← trace smallLayout 0xffff000000000000 14 (fun σ e => e.Unshared σ) (Cores.start s) fullCore
      let p ← pressureOf 0xffff000000000000 σ
      let s' ← freeInternal smallLayout 0xffff000000000000 none 0 (smallObject 3) σ.alloc
      return (σ.held, p, σ.alloc.bundleMgr.full, s'.bundleMgr.full, (s'.cache 0).standby) :
        Run (List Nat × (CoreCache × Nat × Option Nat) × Nat × Nat × Nat)) =
      .ok ([smallObject 3], (⟨0xffff000000001ea0, 16, 0xffff000000001f30, 16⟩, 0, none), 0, 0xffff000000001f30,
        0xffff000000001f30) := by
    decide +kernel
  obtain ⟨s, hnew, hmap⟩ := run_bind_eq_ok.1 hmap
  obtain ⟨σ, htrace, hmap⟩ := run_bind_eq_ok.1 hmap
  obtain ⟨p, hpress, hmap⟩ := run_bind_eq_ok.1 hmap
  obtain ⟨s', hfree, hmap⟩ := run_bind_eq_ok.1 hmap
  obtain ⟨hheld, hmap⟩ := Prod.mk.inj (Except.ok.inj hmap)
  obtain ⟨hcache, hmap⟩ := Prod.mk.inj hmap
  obtain ⟨hbefore, hmap⟩ := Prod.mk.inj hmap
  obtain ⟨hafter, hstandby⟩ := Prod.mk.inj hmap
  rw [hcache] at hpress
  have ho : smallObject 3 ∈ σ.held := by
    rw [hheld]
    exact List.mem_cons_self
  refine ⟨s, σ, s', hnew, runIf_of_trace htrace, ho, pressure_of_eq hpress (Or.inr rfl) (Or.inr rfl), hfree, hbefore,
    hafter.trans hstandby.symm, fun hfreed => ?_⟩
  have hsame := hfreed.full
  rw [hafter, hbefore] at hsame
  exact absurd hsame (by decide)

end Slab
end Propeller
