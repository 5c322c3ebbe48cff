import Propeller.Mm.Slab.Owners

/-!
# Slab.Caches — the representation of the core caches

The bundles of a core are allocated lazily, and each may be missing.  The counts of a missing bundle stay zero on every
path of `alloc_internal` and `free_internal`, whatever the page allocator answers and whatever the memory holds.
So the two helpers that index a bundle get one to index.
-/

namespace Propeller
namespace Slab

variable {A : Arch} {ly : Layout A} {virtBase i b o : Nat} {grant : Option Nat} {s : SlabAllocator} {σ σ' : Cores}
  {cache cache' : CoreCache} {m : Mem} {pc : Pc} {r : Outcome}

/-! ## The calls of the helpers -/

/-- Any events in any order: neither the clients nor the page allocator keep to a rule. -/
def RunAny (ly : Layout A) (virtBase : Nat) : Cores → Cores → Prop :=
  Steps.Reaches (fun _ _ => True) (Cores.step ly virtBase)

/-- `coreStep` with other helpers in the place of `alloc_from_cache` and `release_to_cache`. -/
def coreStepBy (take : CoreCache → Mem → Run (Nat × CoreCache)) (put : CoreCache → Nat → Mem → Run (CoreCache × Mem))
    (ly : Layout A) (virtBase : Nat) (grant : Option Nat) (i : Nat) (s : SlabAllocator) : Pc → Run Outcome
  | .allocCases =>
      if 0 < (s.cache i).currCount then do
        let (obj, cache) ← take (s.cache i) s.mem
        return ⟨{ s with cache := Function.update s.cache i cache }, .idle, some obj⟩
      else if 0 < (s.cache i).stbyCount then do
        let (obj, cache) ← take (swapCacheBundles (s.cache i)) s.mem
        return ⟨{ s with cache := Function.update s.cache i cache }, .idle, some obj⟩
      else .ok ⟨s, .allocExchange, none⟩
  | .allocExchange => do
      let (bundle, bundleMgr, mem) ← exchangeEmptyBundle A (s.cache i).current s.bundleMgr s.mem
      match bundle with
      | some bundleAddr => do
          let cache := { s.cache i with standby := bundleAddr, stbyCount := BUNDLE_SIZE }
          let (obj, cache) ← take (swapCacheBundles cache) mem
          return ⟨{ s with cache := Function.update s.cache i cache, bundleMgr, mem }, .idle, some obj⟩
      | none => return ⟨{ s with bundleMgr, mem }, .allocDirect, none⟩
  | .freeCases objAddr => do
      require (objAddr ≠ 0) .nullObject
      if (s.cache i).currCount < BUNDLE_SIZE ∧ (s.cache i).current ≠ 0 then do
        let (cache, mem) ← put (s.cache i) objAddr s.mem
        return ⟨{ s with cache := Function.update s.cache i cache, mem }, .idle, none⟩
      else if (s.cache i).stbyCount < BUNDLE_SIZE ∧ (s.cache i).standby ≠ 0 then do
        let (cache, mem) ← put (swapCacheBundles (s.cache i)) objAddr s.mem
        return ⟨{ s with cache := Function.update s.cache i cache, mem }, .idle, none⟩
      else return ⟨s, .freeExchange objAddr, none⟩
  | .freeRelease objAddr =>
      if (s.cache i).current ≠ 0 ∧ (s.cache i).currCount < BUNDLE_SIZE then do
        let (cache, mem) ← put (s.cache i) objAddr s.mem
        return ⟨{ s with cache := Function.update s.cache i cache, mem }, .idle, none⟩
      else .ok ⟨s, .freeDirect objAddr, none⟩
  -- The other steps call neither helper.
  | pc => coreStep ly virtBase grant i s pc

theorem coreStepBy_source (ly : Layout A) (virtBase : Nat) (grant : Option Nat) (i : Nat) (s : SlabAllocator) (pc : Pc) :
    coreStepBy (allocFromCache A) (releaseToCache A) ly virtBase grant i s pc = coreStep ly virtBase grant i s pc := by
  cases pc <;> rfl

/-- `alloc_from_cache` finds a bundle, and an index in its bounds. -/
def HasObject (cache : CoreCache) : Prop :=
  cache.current ≠ 0 ∧ 0 < cache.currCount ∧ cache.currCount ≤ BUNDLE_SIZE

/-- `release_to_cache` finds a bundle, and an index in its bounds. -/
def HasRoom (cache : CoreCache) : Prop :=
  cache.current ≠ 0 ∧ cache.currCount < BUNDLE_SIZE

theorem CacheOk.hasObject (h : CacheOk cache) (hpos : 0 < cache.currCount) : HasObject cache := by
  refine ⟨?_, hpos, h.curr_le⟩
  intro hzero
  have := h.curr_zero hzero
  omega

/-- A bundle that the manager gives in exchange is one. -/
theorem exchangeEmptyBundle_ne_zero {bundle b : Nat} {g g' : BundleManager} {m' : Mem}
    (h : exchangeEmptyBundle A bundle g m = .ok (some b, g', m')) : b ≠ 0 := by
  rw [exchangeEmptyBundle] at h
  split at h
  next => cases h
  next hfull =>
    rcases run_bind_eq_ok.1 h with ⟨⟨empty, m₁⟩, -, h⟩
    rcases run_bind_eq_ok.1 h with ⟨⟨ret, full, m₂⟩, hpop, h⟩
    rcases run_bind_eq_ok.1 hpop with ⟨next, -, hpop⟩
    cases hpop
    cases h
    exact hfull

/-- The helpers are only called for caches that they can index. -/
theorem coreStepBy_eq {take : CoreCache → Mem → Run (Nat × CoreCache)}
    {put : CoreCache → Nat → Mem → Run (CoreCache × Mem)}
    (htake : ∀ cache m, HasObject cache → take cache m = allocFromCache A cache m)
    (hput : ∀ cache o m, HasRoom cache → put cache o m = releaseToCache A cache o m) (hok : CacheOk (s.cache i))
    (ly : Layout A) (virtBase : Nat) (grant : Option Nat) (pc : Pc) :
    coreStepBy take put ly virtBase grant i s pc = coreStep ly virtBase grant i s pc := by
  rw [← coreStepBy_source]
  cases pc with
  | idle => rfl
  | allocCurrent => rfl
  | allocStandby => rfl
  | allocDirect => rfl
  | freeExchange objAddr => rfl
  | freeDirect objAddr => rfl
  | allocCases =>
      by_cases hcurr : 0 < (s.cache i).currCount
      · simp only [coreStepBy, if_pos hcurr, htake _ _ (hok.hasObject hcurr)]
      · by_cases hstby : 0 < (s.cache i).stbyCount
        · simp only [coreStepBy, if_neg hcurr, if_pos hstby, htake _ _ (hok.swap.hasObject hstby)]
        · simp only [coreStepBy, if_neg hcurr, if_neg hstby]
  | allocExchange =>
      simp only [coreStepBy]
      -- Only a bundle that the manager has given is used.
      refine run_bind_congr fun x hx => ?_
      rcases x with ⟨bundle, g, m'⟩
      cases bundle with
      | none => rfl
      | some b =>
          have hobject : HasObject (swapCacheBundles { s.cache i with standby := b, stbyCount := BUNDLE_SIZE }) :=
            ⟨exchangeEmptyBundle_ne_zero hx, Nat.zero_lt_succ 15, Nat.le_refl BUNDLE_SIZE⟩
          simp only [htake _ _ hobject]
  | freeCases objAddr =>
      simp only [coreStepBy]
      refine run_bind_congr fun _ _ => ?_
      by_cases hcurr : (s.cache i).currCount < BUNDLE_SIZE ∧ (s.cache i).current ≠ 0
      · simp only [if_pos hcurr, hput _ _ _ ⟨hcurr.2, hcurr.1⟩]
      · by_cases hstby : (s.cache i).stbyCount < BUNDLE_SIZE ∧ (s.cache i).standby ≠ 0
        · have hroom : HasRoom (swapCacheBundles (s.cache i)) := ⟨hstby.2, hstby.1⟩
          simp only [if_neg hcurr, if_pos hstby, hput _ _ _ hroom]
        · simp only [if_neg hcurr, if_neg hstby]
  | freeRelease objAddr =>
      by_cases hcurr : (s.cache i).current ≠ 0 ∧ (s.cache i).currCount < BUNDLE_SIZE
      · simp only [coreStepBy, if_pos hcurr, hput _ _ _ hcurr]
      · simp only [coreStepBy, if_neg hcurr]

/-! ## The caches -/

/-- The counts of every core go with its bundles. -/
def CachesOk (caches : Nat → CoreCache) : Prop :=
  ∀ i, CacheOk (caches i)

theorem CachesOk.set {caches : Nat → CoreCache} (h : CachesOk caches) (i : Nat) (hok : CacheOk cache) :
    CachesOk (Function.update caches i cache) := by
  intro j
  by_cases hj : j = i
  · subst hj
    rw [Function.update_self]
    exact hok
  · rw [Function.update_of_ne hj]
    exact h j

/-- An object is taken: one less. -/
theorem CacheOk.take (h : CacheOk cache) (hrun : allocFromCache A cache m = .ok (o, cache')) : CacheOk cache' := by
  rcases run_bind_eq_ok.1 hrun with ⟨u, hcur, hrun⟩
  rcases run_bind_eq_ok.1 hrun with ⟨k, hk, hrun⟩
  rcases run_bind_eq_ok.1 hrun with ⟨v, hlt, hrun⟩
  cases hrun
  exact ⟨(require_eq_ok.1 hlt).le, h.stby_le, fun hzero => absurd hzero (require_eq_ok.1 hcur), h.stby_zero⟩

/-- An object is added: one more. -/
theorem CacheOk.put {m' : Mem} (h : CacheOk cache) (hrun : releaseToCache A cache o m = .ok (cache', m')) :
    CacheOk cache' := by
  rcases run_bind_eq_ok.1 hrun with ⟨u, hcur, hrun⟩
  rcases run_bind_eq_ok.1 hrun with ⟨v, hlt, hrun⟩
  cases hrun
  exact ⟨require_eq_ok.1 hlt, h.stby_le, fun hzero => absurd hzero (require_eq_ok.1 hcur), h.stby_zero⟩

/-- A full bundle as standby. -/
theorem CacheOk.fill (h : CacheOk cache) (hb : b ≠ 0) : CacheOk { cache with standby := b, stbyCount := BUNDLE_SIZE } :=
  ⟨h.curr_le, Nat.le_refl _, h.curr_zero, fun hzero => absurd hzero hb⟩

/-- An empty bundle as standby. -/
theorem CacheOk.drain (h : CacheOk cache) (b : Nat) : CacheOk { cache with standby := b, stbyCount := 0 } :=
  ⟨h.curr_le, Nat.zero_le _, h.curr_zero, fun _ => rfl⟩

/-! ## The states of a call -/

theorem CachesOk.allocCases (h : CachesOk s.cache) (hrun : coreStep ly virtBase grant i s .allocCases = .ok r) :
    CachesOk r.alloc.cache := by
  simp only [coreStep] at hrun
  split at hrun
  next =>
    rcases run_bind_eq_ok.1 hrun with ⟨⟨obj, cache⟩, htake, hrun⟩
    cases hrun
    exact h.set i ((h i).take htake)
  next =>
    split at hrun
    next =>
      rcases run_bind_eq_ok.1 hrun with ⟨⟨obj, cache⟩, htake, hrun⟩
      cases hrun
      exact h.set i ((h i).swap.take htake)
    next =>
      cases hrun
      exact h

theorem CachesOk.allocExchange (h : CachesOk s.cache) (hrun : coreStep ly virtBase grant i s .allocExchange = .ok r) :
    CachesOk r.alloc.cache := by
  rcases run_bind_eq_ok.1 hrun with ⟨⟨bundle, g, m'⟩, hexchange, hrun⟩
  cases bundle with
  | none =>
      cases hrun
      exact h
  | some b =>
      rcases run_bind_eq_ok.1 hrun with ⟨⟨obj, cache⟩, htake, hrun⟩
      cases hrun
      -- The bundle from the manager is full, and it becomes current by the swap.
      exact h.set i (((h i).fill (exchangeEmptyBundle_ne_zero hexchange)).swap.take htake)

theorem CachesOk.freeCases {objAddr : Nat} (h : CachesOk s.cache)
    (hrun : coreStep ly virtBase grant i s (.freeCases objAddr) = .ok r) : CachesOk r.alloc.cache := by
  rcases run_bind_eq_ok.1 hrun with ⟨-, -, hrun⟩
  split at hrun
  next =>
    rcases run_bind_eq_ok.1 hrun with ⟨⟨cache, m'⟩, hput, hrun⟩
    cases hrun
    exact h.set i ((h i).put hput)
  next =>
    split at hrun
    next =>
      rcases run_bind_eq_ok.1 hrun with ⟨⟨cache, m'⟩, hput, hrun⟩
      cases hrun
      exact h.set i ((h i).swap.put hput)
    next =>
      cases hrun
      exact h

theorem CachesOk.freeExchange {objAddr : Nat} (h : CachesOk s.cache)
    (hrun : coreStep ly virtBase grant i s (.freeExchange objAddr) = .ok r) : CachesOk r.alloc.cache := by
  rcases run_bind_eq_ok.1 hrun with ⟨⟨bundle, g, m'⟩, -, hrun⟩
  cases bundle with
  | none =>
      cases hrun
      exact h
  | some b =>
      cases hrun
      -- The bundle from the manager is empty, so its count starts at zero.
      exact h.set i ((h i).drain b).swap

theorem CachesOk.freeRelease {objAddr : Nat} (h : CachesOk s.cache)
    (hrun : coreStep ly virtBase grant i s (.freeRelease objAddr) = .ok r) : CachesOk r.alloc.cache := by
  simp only [coreStep] at hrun
  split at hrun
  next =>
    rcases run_bind_eq_ok.1 hrun with ⟨⟨cache, m'⟩, hput, hrun⟩
    cases hrun
    exact h.set i ((h i).put hput)
  next =>
    cases hrun
    exact h

/-- One step of a core, from any memory and with any answer of the page allocator. -/
theorem CachesOk.advance (h : CachesOk s.cache) (hrun : coreStep ly virtBase grant i s pc = .ok r) :
    CachesOk r.alloc.cache := by
  cases pc with
  | idle =>
      cases hrun
      exact h
  | allocCurrent =>
      simp only [coreStep] at hrun
      split at hrun
      next hzero =>
        rcases run_bind_eq_ok.1 hrun with ⟨⟨bundle, g, m'⟩, -, hrun⟩
        cases hrun
        exact h.set i ((h i).setCurrent hzero _)
      next =>
        cases hrun
        exact h
  | allocStandby =>
      simp only [coreStep] at hrun
      split at hrun
      next hzero =>
        rcases run_bind_eq_ok.1 hrun with ⟨⟨bundle, g, m'⟩, -, hrun⟩
        cases hrun
        exact h.set i ((h i).setStandby hzero _)
      next =>
        cases hrun
        exact h
  | allocCases => exact h.allocCases hrun
  | allocExchange => exact h.allocExchange hrun
  -- The slab allocator does not touch the caches.
  | allocDirect =>
      rcases run_bind_eq_ok.1 hrun with ⟨⟨obj, g, m'⟩, -, hrun⟩
      cases hrun
      exact h
  | freeCases objAddr => exact h.freeCases hrun
  | freeExchange objAddr => exact h.freeExchange hrun
  | freeRelease objAddr => exact h.freeRelease hrun
  | freeDirect objAddr =>
      rcases run_bind_eq_ok.1 hrun with ⟨⟨g, m'⟩, -, hrun⟩
      cases hrun
      exact h

theorem CachesOk.step {e : Event} (h : CachesOk σ.alloc.cache) (hstep : σ.step ly virtBase e = .ok σ') :
    CachesOk σ'.alloc.cache := by
  cases e with
  | callAlloc i =>
      cases hstep
      exact h
  | callFree i objAddr =>
      cases hstep
      exact h
  | run i grant =>
      rcases run_bind_eq_ok.1 hstep with ⟨r, hrun, hstep⟩
      cases hstep
      exact h.advance hrun
  | write objAddr addr word =>
      cases hstep
      exact h

theorem CachesOk.run (h : CachesOk σ.alloc.cache) (hrun : RunAny ly virtBase σ σ') : CachesOk σ'.alloc.cache := by
  refine Steps.Reaches.invariant (I := fun σ => CachesOk σ.alloc.cache) hrun ?_ h
  exact fun σ e σ' hσ _ hstep => hσ.step hstep

theorem RunIf.any {n : Nat} {P : Cores → Event → Prop} (h : RunIf ly virtBase n P σ σ') : RunAny ly virtBase σ σ' :=
  Steps.Reaches.mono h fun _ _ _ => trivial

theorem CachesOk.init {maxBlockPages : Nat} {mem : Mem} (hnew : SlabAllocator.new ly maxBlockPages mem = .ok s) :
    CachesOk s.cache := by
  rcases run_bind_eq_ok.1 hnew with ⟨objAlloc, -, hnew⟩
  rcases run_bind_eq_ok.1 hnew with ⟨bundleAlloc, -, hnew⟩
  cases hnew
  exact fun _ => ⟨Nat.zero_le _, Nat.zero_le _, fun _ => rfl, fun _ => rfl⟩

/-- In every state that the allocator comes to, the counts of every core are in bounds and zero where a bundle is
missing.  What `alloc_from_cache` and `release_to_cache` would do without a bundle or out of its bounds makes no
difference to the next step of any core: they are not called so. -/
theorem run_cachesOk {maxBlockPages : Nat} {mem : Mem} (hnew : SlabAllocator.new ly maxBlockPages mem = .ok s)
    (hrun : RunAny ly virtBase (Cores.start s) σ) :
    (∀ i, CacheOk (σ.alloc.cache i)) ∧
      ∀ take put, (∀ cache m, HasObject cache → take cache m = allocFromCache A cache m) →
        (∀ cache o m, HasRoom cache → put cache o m = releaseToCache A cache o m) → ∀ i grant,
          coreStepBy take put ly virtBase grant i σ.alloc (σ.pc i) = coreStep ly virtBase grant i σ.alloc (σ.pc i) := by
  have hok : CachesOk σ.alloc.cache := CachesOk.run (CachesOk.init hnew) hrun
  refine ⟨hok, ?_⟩
  intro take put htake hput i grant
  exact coreStepBy_eq htake hput (hok i) ly virtBase grant (σ.pc i)

/-- A core frees its first object, with a `release_to_cache` that does not look at the bundle. -/
theorem run_cachesOk_free :
    ∃ s σ, SlabAllocator.new smallLayout 1024 (fun _ => 0) = .ok s ∧
      RunAny smallLayout 0xffff000000000000 (Cores.start s) σ ∧ σ.pc 0 = .freeCases (smallObject 35) ∧
      CacheOk (σ.alloc.cache 0) ∧
      coreStepBy (allocFromCache .aarch64)
          (fun cache o m => if cache.current = 0 then .ok (cache, m) else releaseToCache .aarch64 cache o m)
          smallLayout 0xffff000000000000 none 0 σ.alloc (σ.pc 0) =
        coreStep smallLayout 0xffff000000000000 none 0 σ.alloc (σ.pc 0) := by
  have hmap : (do
      let s ← SlabAllocator.new smallLayout 1024 (fun _ => 0)
      let σ ← trace smallLayout 0xffff000000000000 1 (fun _ _ => True) (Cores.start s)
        (firstCall ++ [.callFree 0 (smallObject 35)])
      return σ.pc 0 : Run Pc) = .ok (.freeCases (smallObject 35)) := by
    decide +kernel
  obtain ⟨s, hnew, hmap⟩ := run_bind_eq_ok.1 hmap
  obtain ⟨σ, htrace, hmap⟩ := run_bind_eq_ok.1 hmap
  have hrun := (runIf_of_trace htrace).any
  obtain ⟨hok, hcalls⟩ := run_cachesOk hnew hrun
  refine ⟨s, σ, hnew, hrun, Except.ok.inj hmap, hok 0, hcalls _ _ (fun _ _ _ => rfl) ?_ 0 none⟩
  exact fun cache o m hroom => if_neg hroom.1

end Slab
end Propeller
