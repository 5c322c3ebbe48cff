import Propeller.Mm.Slab.Exchange

/-!
# Slab.Steps — one step of one core

`Advance` is what a step of a core does to the allocator: the invariant holds again, the caches of the
other cores are as before, no object and no bundle is lost or doubled.  Every step makes one, except
that cases 3 of `alloc_internal` and `free_internal` need a condition (`Unshared`): the first keeps the
bundle it gives to the manager, and the second does so if it gets no bundle in return.
-/

namespace Propeller
namespace Slab

variable {A : Arch} {shO shB : Shape A} {virtBase n : Nat} {s t : SlabAllocator}
  {regions : List (Nat × Nat)} {b i j k o x v : Nat} {fs : List Nat} {grant : Option Nat}
  {cache cache' : CoreCache} {γ : Layers} {pc : Pc}

/-! ## Slots -/

theorem CoreCache.count_objs_swap (A : Arch) (m : Mem) (cache : CoreCache) (o : Nat) :
    ((swapCacheBundles cache).objs A m).count o = (cache.objs A m).count o := by
  simp only [CoreCache.objs, swapCacheBundles, List.count_append]
  omega

theorem CacheOk.swap (h : CacheOk cache) : CacheOk (swapCacheBundles cache) :=
  ⟨h.stby_le, h.curr_le, h.stby_zero, h.curr_zero⟩

/-- The current bundle was missing, so there are no objects in the one that takes its place. -/
theorem CacheOk.setCurrent (h : CacheOk cache) (hzero : cache.current = 0) (b : Nat) :
    CacheOk { cache with current := b } :=
  ⟨h.curr_le, h.stby_le, fun _ => h.curr_zero hzero, h.stby_zero⟩

theorem CacheOk.setStandby (h : CacheOk cache) (hzero : cache.standby = 0) (b : Nat) :
    CacheOk { cache with standby := b } :=
  ⟨h.curr_le, h.stby_le, h.curr_zero, fun _ => h.stby_zero hzero⟩

theorem CoreCache.refs_setCurrent (hzero : cache.current = 0) (hb : b ≠ 0) (r : Option Nat) :
    CoreCache.refs { cache with current := r.getD 0 } b = cache.refs b + r.toList.count b := by
  have hnot : ¬ 0 = b := hb.symm
  cases r with
  | none => simp [CoreCache.refs, hzero]
  | some x => simp [CoreCache.refs, hzero, hnot, List.count_cons, Nat.add_comm]

theorem CoreCache.refs_setStandby (hzero : cache.standby = 0) (hb : b ≠ 0) (r : Option Nat) :
    CoreCache.refs { cache with standby := r.getD 0 } b = cache.refs b + r.toList.count b := by
  have hzero' : (swapCacheBundles cache).current = 0 := hzero
  rw [← cache.refs_swap, ← CoreCache.refs_swap { cache with standby := r.getD 0 }]
  exact CoreCache.refs_setCurrent hzero' hb r

/-- Taking the last object of the current bundle. -/
theorem allocFromCache_eq (A : Arch) (m : Mem) (hok : CacheOk cache)
    (hcount : cache.currCount = k + 1) :
    allocFromCache A cache m =
      .ok (m (slotAddr A cache.current k), { cache with currCount := k }) := by
  have hcur : cache.current ≠ 0 := by
    intro hzero
    have := hok.curr_zero hzero
    omega
  have hlt : k < BUNDLE_SIZE := by
    have := hok.curr_le
    omega
  simp only [allocFromCache, require_pos hcur, run_ok_bind, hcount,
    checkedSub_of_le (Nat.le_add_left 1 k), Nat.add_sub_cancel, require_pos hlt]
  rfl

/-- Adding an object to the current bundle. -/
theorem releaseToCache_eq (A : Arch) (m : Mem) (o : Nat) (hcur : cache.current ≠ 0)
    (hlt : cache.currCount < BUNDLE_SIZE) :
    releaseToCache A cache o m = .ok ({ cache with currCount := cache.currCount + 1 },
      Function.update m (slotAddr A cache.current cache.currCount) o) := by
  simp only [releaseToCache, require_pos hcur, run_ok_bind, require_pos hlt]
  rfl

/-- The cache `cache` holds the same bundles and objects as the one of core `i`. -/
structure SameCache (A : Arch) (s : SlabAllocator) (i : Nat) (cache : CoreCache) : Prop where
  ok : CacheOk cache
  refs : ∀ b, cache.refs b = (s.cache i).refs b
  objs : ∀ o, (cache.objs A s.mem).count o = ((s.cache i).objs A s.mem).count o

theorem SameCache.of_eq (heq : s.cache i = cache) (hok : CacheOk cache) : SameCache A s i cache :=
  ⟨hok, fun _ => by rw [heq], fun _ => by rw [heq]⟩

theorem SameCache.swap (hok : CacheOk (s.cache i)) :
    SameCache A s i (swapCacheBundles (s.cache i)) :=
  ⟨hok.swap, (s.cache i).refs_swap, (s.cache i).count_objs_swap A s.mem⟩

namespace AllocInv

/-- A core takes an object from its cache. -/
theorem take (h : AllocInv shO shB virtBase n s regions γ) (hi : i < n)
    (hsame : SameCache A s i cache) (hpos : 0 < cache.currCount) :
    ∃ o cache', allocFromCache A cache s.mem = .ok (o, cache') ∧
      AllocInv shO shB virtBase n { s with cache := Function.update s.cache i cache' } regions γ ∧
      (∀ x, [o].count x + storedCount A { s with cache := Function.update s.cache i cache' } n
        γ.full x = storedCount A s n γ.full x) ∧
      ∀ b, cache'.refs b = (s.cache i).refs b := by
  -- The last slot of the current bundle is read.
  rcases Nat.exists_eq_succ_of_ne_zero hpos.ne' with ⟨k, hk⟩
  have hrun := allocFromCache_eq A s.mem hsame.ok hk
  have hok' : CacheOk { cache with currCount := k } := by
    refine ⟨?_, hsame.ok.stby_le, ?_, hsame.ok.stby_zero⟩
    · have := hsame.ok.curr_le
      simp only
      omega
    · intro hzero
      have := hsame.ok.curr_zero hzero
      omega
  refine ⟨_, _, hrun, ⟨h.world.congr rfl rfl rfl, ?_⟩, ?_, hsame.refs⟩
  · exact h.bundles.setCache_same rfl rfl rfl rfl hi hok' hsame.refs
  · intro x
    have hset := h.bundles.storedCount_kept (o := x)
      (t := { s with cache := Function.update s.cache i { cache with currCount := k } })
      (fun _ _ _ _ => rfl) rfl hi
    have hobjs := hsame.objs x
    simp only [CoreCache.objs, hk, Nat.succ_eq_add_one, slots_succ, List.count_append] at hobjs hset
    omega

/-- A core puts an object in its cache. -/
theorem put (h : AllocInv shO shB virtBase n s regions γ) (hB : shB.toLayout = bundleLayout A)
    (hi : i < n) (hsame : SameCache A s i cache) (hcur : cache.current ≠ 0)
    (hlt : cache.currCount < BUNDLE_SIZE) :
    ∃ cache' m', releaseToCache A cache o s.mem = .ok (cache', m') ∧
      AllocInv shO shB virtBase n { s with cache := Function.update s.cache i cache', mem := m' }
        regions γ ∧
      (∀ x, storedCount A { s with cache := Function.update s.cache i cache', mem := m' } n γ.full x =
        [o].count x + storedCount A s n γ.full x) ∧
      ∀ b, cache'.refs b = (s.cache i).refs b := by
  have href : 0 < (s.cache i).refs cache.current := by
    rw [← hsame.refs]
    exact cache.refs_current
  have hbout := h.bundles.mem_out_of_refs hi hcur href
  rcases h.bundles.apart h.nodup hi hcur href with ⟨hone, hb_es, hb_fs, hothers⟩
  have hrun := releaseToCache_eq A s.mem o hcur hlt
  have hword := h.world.bundle_word hB hbout hlt.le
  -- Only the slots of the current bundle change.
  have hslot : ∀ b ∈ γ.bundles.out, b ≠ cache.current → ∀ j < BUNDLE_SIZE,
      Function.update s.mem (slotAddr A cache.current cache.currCount) o (slotAddr A b j) =
        s.mem (slotAddr A b j) := by
    intro b hb hne j hj
    refine Function.update_of_ne ?_ _ _
    intro heq
    exact hne (h.world.slot_inj hB hb hbout hj.le hlt.le heq).1
  have hstby : slots A (Function.update s.mem (slotAddr A cache.current cache.currCount) o)
      cache.standby cache.stbyCount = slots A s.mem cache.standby cache.stbyCount := by
    by_cases hzero : cache.standby = 0
    · rw [hsame.ok.stby_zero hzero, slots_zero, slots_zero]
    · have href' : 0 < (s.cache i).refs cache.standby := by
        rw [← hsame.refs]
        exact cache.refs_standby
      have hne : cache.standby ≠ cache.current := by
        intro heq
        have htwo : cache.refs cache.current = 2 := by simp [CoreCache.refs, heq]
        rw [hsame.refs] at htwo
        omega
      exact slots_congr fun j hj => hslot _ (h.bundles.mem_out_of_refs hi hzero href') hne j
        (hj.trans_le hsame.ok.stby_le)
  have hcurr : slots A (Function.update s.mem (slotAddr A cache.current cache.currCount) o)
      cache.current (cache.currCount + 1) = slots A s.mem cache.current cache.currCount ++ [o] := by
    rw [slots_succ, Function.update_self]
    refine congrArg (· ++ [o]) (slots_congr fun j hj => Function.update_of_ne ?_ _ _)
    intro heq
    have hj' := (h.world.slot_inj hB hbout hbout (hj.trans hlt).le hlt.le heq).2
    omega
  refine ⟨_, _, hrun, ⟨(h.world.write hword).congr rfl rfl rfl, ?_⟩, ?_, hsame.refs⟩
  · have hmem : Bundles A n { s with
        mem := Function.update s.mem (slotAddr A cache.current cache.currCount) o } γ.bundles γ.empty
        γ.full := by
      refine h.bundles.congr rfl rfl rfl fun b hb => Function.update_of_ne ?_ _ _
      intro heq
      have hj := (h.world.slot_inj hB hb hbout (Nat.le_refl _) hlt.le heq).2
      omega
    refine hmem.setCache_same rfl rfl rfl rfl hi ⟨hlt, hsame.ok.stby_le, ?_, hsame.ok.stby_zero⟩
      hsame.refs
    intro hzero
    exact absurd hzero hcur
  · intro x
    have hset := storedCount_setCache (A := A) (s := s) (t := { s with
        cache := Function.update s.cache i { cache with currCount := cache.currCount + 1 }
        mem := Function.update s.mem (slotAddr A cache.current cache.currCount) o }) γ.full x rfl hi
      (fun j hj hji => h.bundles.objs_congr hj fun b hb hb' => hslot b hb fun heq => by
        rw [heq, hothers j hj hji] at hb'
        exact absurd hb' (Nat.lt_irrefl 0))
      (fullObjs_congr fun b hb => hslot b (h.bundles.mem_out_of_full hb) fun heq => hb_fs (heq ▸ hb))
    have hobjs := hsame.objs x
    simp only [CoreCache.objs, hstby, hcurr, List.count_append] at hobjs hset
    omega

end AllocInv

/-! ## Steps -/

/-- The object that a core has in hand. -/
def Pc.objs : Pc → List Nat
  | .freeCases objAddr => [objAddr]
  | .freeExchange objAddr => [objAddr]
  | .freeRelease objAddr => [objAddr]
  | .freeDirect objAddr => [objAddr]
  | _ => []

/-- What a core has found out about its cache. -/
def PcOk (cache : CoreCache) : Pc → Prop
  | .allocExchange => cache.currCount = 0 ∧ cache.stbyCount = 0
  | .freeExchange _ => (cache.current = 0 ∨ cache.currCount = BUNDLE_SIZE) ∧
      (cache.standby = 0 ∨ cache.stbyCount = BUNDLE_SIZE)
  | _ => True

/-- A step of core `i` from `pc`. -/
structure Advance (shO shB : Shape A) (virtBase n i : Nat) (s : SlabAllocator) (γ : Layers) (pc : Pc)
    (r : Outcome) (regions' : List (Nat × Nat)) (γ' : Layers) : Prop where
  inv : AllocInv shO shB virtBase n r.alloc regions' γ'
  others : ∀ j, j ≠ i → r.alloc.cache j = s.cache j
  pcOk : PcOk (r.alloc.cache i) r.pc
  objs : ∀ o, r.obj.toList.count o + r.pc.objs.count o + storedCount A r.alloc n γ'.full o +
    γ.objs.out.count o = pc.objs.count o + storedCount A s n γ.full o + γ'.objs.out.count o
  refs : (pc = .allocExchange → s.bundleMgr.full = 0) → ∀ b, b ≠ 0 →
    refCount r.alloc n γ'.empty γ'.full b + γ.bundles.out.count b =
      refCount s n γ.empty γ.full b + γ'.bundles.out.count b

namespace AllocInv

/-- A step that only moves on. -/
theorem advance_skip (h : AllocInv shO shB virtBase n s regions γ) {pc' : Pc}
    (hobjs : pc'.objs = pc.objs) (hpc : PcOk (s.cache i) pc') :
    Advance shO shB virtBase n i s γ pc ⟨s, pc', none⟩ regions γ := by
  refine ⟨h, fun _ _ => rfl, hpc, ?_, fun _ _ _ => rfl⟩
  intro o
  rw [hobjs]
  simp

/-- A step that takes an object from the cache and ends the call. -/
theorem advance_take (pc : Pc) (h : AllocInv shO shB virtBase n s regions γ) (hi : i < n)
    (hsame : SameCache A s i cache) (hpos : 0 < cache.currCount) (hpc : pc.objs = []) :
    ∃ o cache', allocFromCache A cache s.mem = .ok (o, cache') ∧
      Advance shO shB virtBase n i s γ pc
        ⟨{ s with cache := Function.update s.cache i cache' }, .idle, some o⟩ regions γ := by
  rcases h.take hi hsame hpos with ⟨o, cache', hrun, hinv, hstored, hrefs⟩
  refine ⟨o, cache', hrun, hinv, fun j hj => Function.update_of_ne hj _ _, trivial, ?_, ?_⟩
  · intro x
    have hx := hstored x
    rw [hpc]
    simp only [Option.toList_some, Pc.objs, List.count_nil]
    omega
  · intro _ b _
    have hset := refCount_setCache (s := s) (t := { s with cache := Function.update s.cache i cache' })
      γ.empty γ.full b rfl hi
    rw [hrefs b] at hset
    simp only
    omega

/-- A step that puts the object in hand in the cache and ends the call. -/
theorem advance_put (pc : Pc) (h : AllocInv shO shB virtBase n s regions γ)
    (hB : shB.toLayout = bundleLayout A) (hi : i < n) (hsame : SameCache A s i cache) (hcur : cache.current ≠ 0)
    (hlt : cache.currCount < BUNDLE_SIZE) (hpc : pc.objs = [o]) :
    ∃ cache' m', releaseToCache A cache o s.mem = .ok (cache', m') ∧
      Advance shO shB virtBase n i s γ pc
        ⟨{ s with cache := Function.update s.cache i cache', mem := m' }, .idle, none⟩ regions γ := by
  rcases h.put hB hi hsame hcur hlt with ⟨cache', m', hrun, hinv, hstored, hrefs⟩
  refine ⟨cache', m', hrun, hinv, fun j hj => Function.update_of_ne hj _ _, trivial, ?_, ?_⟩
  · intro x
    have hx := hstored x
    rw [hpc]
    simp only [Option.toList_none, Pc.objs, List.count_nil]
    omega
  · intro _ b _
    have hset := refCount_setCache (s := s)
      (t := { s with cache := Function.update s.cache i cache', mem := m' }) γ.empty γ.full b rfl hi
    rw [hrefs b] at hset
    simp only
    omega

/-- Cases 1 and 2 of `alloc_internal`. -/
theorem allocCases (h : AllocInv shO shB virtBase n s regions γ) (hi : i < n) (ly : Layout A) :
    ∃ r, coreStep ly virtBase grant i s .allocCases = .ok r ∧
      Advance shO shB virtBase n i s γ .allocCases r regions γ := by
  have hok := h.bundles.caches i hi
  by_cases hcurr : 0 < (s.cache i).currCount
  · rcases h.advance_take .allocCases hi (SameCache.of_eq rfl hok) hcurr rfl with
      ⟨o, cache', hrun, hadv⟩
    refine ⟨_, ?_, hadv⟩
    simp only [coreStep, if_pos hcurr, hrun, run_ok_bind]
    rfl
  · by_cases hstby : 0 < (s.cache i).stbyCount
    · rcases h.advance_take .allocCases hi (SameCache.swap hok) hstby rfl with
        ⟨o, cache', hrun, hadv⟩
      refine ⟨_, ?_, hadv⟩
      simp only [coreStep, if_neg hcurr, if_pos hstby, hrun, run_ok_bind]
      rfl
    · refine ⟨⟨s, .allocExchange, none⟩, ?_, h.advance_skip rfl ⟨by omega, by omega⟩⟩
      simp only [coreStep, if_neg hcurr, if_neg hstby]

/-- Cases 1 and 2 of `free_internal`. -/
theorem freeCases (h : AllocInv shO shB virtBase n s regions γ) (hB : shB.toLayout = bundleLayout A)
    (hi : i < n) (ly : Layout A) (ho : o ≠ 0) :
    ∃ r, coreStep ly virtBase grant i s (.freeCases o) = .ok r ∧
      Advance shO shB virtBase n i s γ (.freeCases o) r regions γ := by
  have hok := h.bundles.caches i hi
  by_cases hcurr : (s.cache i).currCount < BUNDLE_SIZE ∧ (s.cache i).current ≠ 0
  · rcases h.advance_put (.freeCases o) hB hi (SameCache.of_eq rfl hok) hcurr.2 hcurr.1 rfl with
      ⟨cache', m', hrun, hadv⟩
    refine ⟨_, ?_, hadv⟩
    simp only [coreStep, require_pos ho, if_pos hcurr, hrun, run_ok_bind]
    rfl
  · by_cases hstby : (s.cache i).stbyCount < BUNDLE_SIZE ∧ (s.cache i).standby ≠ 0
    · rcases h.advance_put (.freeCases o) hB hi (SameCache.swap hok) hstby.2 hstby.1 rfl with
        ⟨cache', m', hrun, hadv⟩
      refine ⟨_, ?_, hadv⟩
      simp only [coreStep, require_pos ho, if_neg hcurr, if_pos hstby, hrun, run_ok_bind]
      rfl
    · -- A bundle that is there and not taken is full, which is what the exchange relies on.
      have hcurr_le := hok.curr_le
      have hstby_le := hok.stby_le
      refine ⟨⟨s, .freeExchange o, none⟩, ?_, h.advance_skip rfl ⟨by omega, by omega⟩⟩
      simp only [coreStep, require_pos ho, if_neg hcurr, if_neg hstby, run_ok_bind]
      rfl

/-- Behind case 3 of `free_internal`. -/
theorem freeRelease (h : AllocInv shO shB virtBase n s regions γ)
    (hB : shB.toLayout = bundleLayout A) (hi : i < n) (ly : Layout A) (o : Nat) :
    ∃ r, coreStep ly virtBase grant i s (.freeRelease o) = .ok r ∧
      Advance shO shB virtBase n i s γ (.freeRelease o) r regions γ := by
  have hok := h.bundles.caches i hi
  by_cases hcurr : (s.cache i).current ≠ 0 ∧ (s.cache i).currCount < BUNDLE_SIZE
  · rcases h.advance_put (.freeRelease o) hB hi (SameCache.of_eq rfl hok) hcurr.1 hcurr.2 rfl with
      ⟨cache', m', hrun, hadv⟩
    refine ⟨_, ?_, hadv⟩
    simp only [coreStep, if_pos hcurr, hrun, run_ok_bind]
    rfl
  · refine ⟨⟨s, .freeDirect o, none⟩, ?_, h.advance_skip rfl trivial⟩
    simp only [coreStep, if_neg hcurr]

/-! ## Steps that change the slab layers -/

/-- A step in which a core takes the bundle that the manager has supplied. -/
theorem advance_install {r : Option Nat} {mgr : BundleManager} {m' : Mem} {γ' : Layers}
    {regions' : List (Nat × Nat)} {pc' : Pc} (h : AllocInv shO shB virtBase n s regions γ)
    (hinv : AllocInv shO shB virtBase n { s with bundleMgr := mgr, mem := m' } regions' γ')
    (hsup : Supplied A n s γ r m' γ') (hi : i < n) (hok : CacheOk cache')
    (hrefs : ∀ b, b ≠ 0 → cache'.refs b = (s.cache i).refs b + r.toList.count b)
    (hobjs : ∀ o, (cache'.objs A m').count o = ((s.cache i).objs A m').count o)
    (hpc : pc'.objs = pc.objs) (hpc' : PcOk cache' pc') :
    Advance shO shB virtBase n i s γ pc
      ⟨{ s with cache := Function.update s.cache i cache', bundleMgr := mgr, mem := m' }, pc', none⟩
      regions' γ' := by
  refine ⟨⟨hinv.world.congr rfl rfl rfl, ?_⟩, fun j hj => Function.update_of_ne hj _ _, ?_, ?_, ?_⟩
  · refine hinv.bundles.setCache rfl rfl rfl rfl hi hok ?_ ?_
    · intro b hb
      -- The bundle moves from the supply to the cache, and the sum of its places stays.
      have hle := h.bundles.refs b hb
      have hsum := hsup.refs b
      have hcache := hrefs b hb
      have hsame : refCount { s with bundleMgr := mgr, mem := m' } n γ'.empty γ'.full b =
          refCount s n γ'.empty γ'.full b := rfl
      rw [hsame]
      simp only
      omega
    · intro b hb hpos
      rw [hrefs b hb] at hpos
      -- A bundle that is new in the cache is the supplied one, and that one has its poison.
      rcases Nat.eq_zero_or_pos ((s.cache i).refs b) with hzero | hpos'
      · have hcount : 0 < r.toList.count b := by omega
        exact (hsup.fresh b (Option.mem_toList.1 (List.count_pos_iff.1 hcount))).2
      · exact hinv.bundles.poison i hi b hb hpos'
  · simpa only [Function.update_self] using hpc'
  · intro o
    have hset := h.bundles.storedCount_kept (o := o) (i := i) (t := { s with
      cache := Function.update s.cache i cache', bundleMgr := mgr, mem := m' }) hsup.slots rfl hi
    have hcache := hobjs o
    rw [h.bundles.objs_kept hsup.slots hi] at hcache
    rw [hsup.full, hsup.objs, hpc]
    simp only [Option.toList_none, List.count_nil] at hset ⊢
    omega
  · intro _ b hb
    have hset := refCount_setCache (s := s) (t := { s with
      cache := Function.update s.cache i cache', bundleMgr := mgr, mem := m' }) γ'.empty γ'.full b rfl hi
    have hsum := hsup.refs b
    have hcache := hrefs b hb
    simp only
    omega

/-- The lazy allocation of the current bundle. -/
theorem allocCurrent (h : AllocInv shO shB virtBase n s regions γ) (hB : shB.toLayout = bundleLayout A)
    (hbase : shB.size ∣ virtBase) (hi : i < n) (ly : Layout A)
    (hgrant : ∀ size ∈ s.request i .allocCurrent, ∀ p ∈ grant, RegionOk A virtBase regions size p) :
    ∃ r γ', coreStep ly virtBase grant i s .allocCurrent = .ok r ∧
      Advance shO shB virtBase n i s γ .allocCurrent r
        ((answer (s.request i .allocCurrent) grant).toList ++ regions) γ' := by
  by_cases hzero : (s.cache i).current = 0
  · have hrequest : s.request i .allocCurrent = s.bundleMgr.request := if_pos hzero
    rw [hrequest] at hgrant ⊢
    rcases h.allocEmptyBundle hB hbase hgrant with ⟨r, mgr, m', γ', hrun, hinv, hsup, -⟩
    have hok := h.bundles.caches i hi
    refine ⟨⟨{ s with
        cache := Function.update s.cache i { s.cache i with current := r.getD 0 }
        bundleMgr := mgr
        mem := m' }, .allocStandby, none⟩, γ', ?_, h.advance_install hinv hsup hi (hok.setCurrent hzero _)
      (fun b hb => CoreCache.refs_setCurrent hzero hb r) ?_ rfl trivial⟩
    · simp only [coreStep, if_pos hzero, hrun, run_ok_bind]
      rfl
    · intro o
      -- No bundle, no count: the new bundle adds no object.
      simp only [CoreCache.objs, hok.curr_zero hzero, slots_zero]
  · have hrequest : s.request i .allocCurrent = none := if_neg hzero
    rw [hrequest]
    refine ⟨⟨s, .allocStandby, none⟩, γ, ?_, h.advance_skip rfl trivial⟩
    simp only [coreStep, if_neg hzero]

/-- The lazy allocation of the standby bundle. -/
theorem allocStandby (h : AllocInv shO shB virtBase n s regions γ) (hB : shB.toLayout = bundleLayout A)
    (hbase : shB.size ∣ virtBase) (hi : i < n) (ly : Layout A)
    (hgrant : ∀ size ∈ s.request i .allocStandby, ∀ p ∈ grant, RegionOk A virtBase regions size p) :
    ∃ r γ', coreStep ly virtBase grant i s .allocStandby = .ok r ∧
      Advance shO shB virtBase n i s γ .allocStandby r
        ((answer (s.request i .allocStandby) grant).toList ++ regions) γ' := by
  by_cases hzero : (s.cache i).standby = 0
  · have hrequest : s.request i .allocStandby = s.bundleMgr.request := if_pos hzero
    rw [hrequest] at hgrant ⊢
    rcases h.allocEmptyBundle hB hbase hgrant with ⟨r, mgr, m', γ', hrun, hinv, hsup, -⟩
    have hok := h.bundles.caches i hi
    refine ⟨⟨{ s with
        cache := Function.update s.cache i { s.cache i with standby := r.getD 0 }
        bundleMgr := mgr
        mem := m' }, .allocCases, none⟩, γ', ?_, h.advance_install hinv hsup hi (hok.setStandby hzero _)
      (fun b hb => CoreCache.refs_setStandby hzero hb r) ?_ rfl trivial⟩
    · simp only [coreStep, if_pos hzero, hrun, run_ok_bind]
      rfl
    · intro o
      simp only [CoreCache.objs, hok.stby_zero hzero, slots_zero]
  · have hrequest : s.request i .allocStandby = none := if_neg hzero
    rw [hrequest]
    refine ⟨⟨s, .allocCases, none⟩, γ, ?_, h.advance_skip rfl trivial⟩
    simp only [coreStep, if_neg hzero]

/-- The allocation from the slab layer. -/
theorem allocDirect (h : AllocInv shO shB virtBase n s regions γ) (hB : shB.toLayout = bundleLayout A)
    (hbase : shO.size ∣ virtBase) (i : Nat)
    (hgrant : ∀ size ∈ s.request i .allocDirect, ∀ p ∈ grant, RegionOk A virtBase regions size p) :
    ∃ r γ', coreStep shO.toLayout virtBase grant i s .allocDirect = .ok r ∧
      Advance shO shB virtBase n i s γ .allocDirect r
        ((answer (s.request i .allocDirect) grant).toList ++ regions) γ' := by
  rcases h.world.allocObject hB hbase hgrant with ⟨r, gO, m', cO', hrun, hworld, hkept, hres⟩
  have hslots : SlotsKept A γ.bundles s.mem m' := fun b hb j hj => hkept b hb j hj.le
  refine ⟨⟨{ s with objAlloc := gO, mem := m' }, .idle, r⟩, { γ with objs := cO' }, ?_,
    ⟨hworld, h.bundles.congr rfl rfl rfl fun b hb => hkept b hb _ (Nat.le_refl _)⟩, fun _ _ => rfl,
    trivial, ?_, fun _ _ _ => rfl⟩
  · simp only [coreStep, hrun, run_ok_bind]
    rfl
  · intro o
    have hstored := h.bundles.storedCount_congr (o := o) (t := { s with objAlloc := gO, mem := m' })
      hslots rfl
    -- A new object goes from the slabs to the caller, and no bundle has it.
    rcases hres with ⟨rfl, rfl⟩ | ⟨x, rfl, -, hout⟩
    · simp only [Option.toList_none, Pc.objs, List.count_nil]
      omega
    · simp only [hout, Option.toList_some, Pc.objs, List.count_cons, List.count_nil]
      omega

/-- The release to the slab layer. -/
theorem freeDirect (h : AllocInv shO shB virtBase n s regions γ) (hB : shB.toLayout = bundleLayout A)
    (i : Nat) (ho : o ∈ γ.objs.out) :
    ∃ r γ', coreStep shO.toLayout virtBase grant i s (.freeDirect o) = .ok r ∧
      Advance shO shB virtBase n i s γ (.freeDirect o) r regions γ' := by
  rcases h.world.freeObject hB ho with ⟨gO, m', cO', hrun, hworld, hkept, hout⟩
  have hslots : SlotsKept A γ.bundles s.mem m' := fun b hb j hj => hkept b hb j hj.le
  refine ⟨⟨{ s with objAlloc := gO, mem := m' }, .idle, none⟩, { γ with objs := cO' }, ?_,
    ⟨hworld, h.bundles.congr rfl rfl rfl fun b hb => hkept b hb _ (Nat.le_refl _)⟩, fun _ _ => rfl,
    trivial, ?_, fun _ _ _ => rfl⟩
  · simp only [coreStep, hrun, run_ok_bind]
    rfl
  · intro x
    have hstored := h.bundles.storedCount_congr (o := x) (t := { s with objAlloc := gO, mem := m' })
      hslots rfl
    have hperm := (List.perm_cons_erase ho).count_eq x
    simp only [hout, Option.toList_none, Pc.objs, List.count_cons, List.count_nil] at hperm ⊢
    omega

/-! ## Exchanges -/

/-- Case 3 of `alloc_internal`, when the manager has no full bundle or the core has no current one. -/
theorem allocExchange (h : AllocInv shO shB virtBase n s regions γ)
    (hB : shB.toLayout = bundleLayout A) (hi : i < n) (ly : Layout A)
    (hpc : PcOk (s.cache i) .allocExchange)
    (hcond : s.bundleMgr.full ≠ 0 → (s.cache i).current = 0) :
    ∃ r γ', coreStep ly virtBase grant i s .allocExchange = .ok r ∧
      Advance shO shB virtBase n i s γ .allocExchange r regions γ' := by
  -- Without a full bundle the call goes on to the slab layer.
  cases hfs : γ.full with
  | nil =>
      have hzero := h.bundles.full.head_eq_zero_iff.2 hfs
      refine ⟨⟨s, .allocDirect, none⟩, γ, ?_, h.advance_skip rfl trivial⟩
      simp only [coreStep, exchangeEmptyBundle, if_pos hzero, run_ok_bind]
      rfl
  | cons b fs =>
      have hne : s.bundleMgr.full ≠ 0 := by
        rw [Ne, h.bundles.full.head_eq_zero_iff, hfs]
        exact List.cons_ne_nil _ _
      -- The core gives no bundle in return, which the condition asks for.
      have hcur := hcond hne
      rcases hpc with ⟨hcount, hcount'⟩
      rcases h.takeFull hB hi hfs hcount hcount' with ⟨full, m', hpop, hok, hinv, hstored⟩
      have hself : (s.takeFull i b full m').cache i = ⟨b, BUNDLE_SIZE, 0, 0⟩ :=
        Function.update_self _ _ _
      have hcache : (s.takeFull i b full m').cache =
        Function.update s.cache i ⟨b, BUNDLE_SIZE, 0, 0⟩ := rfl
      rcases hinv.take hi (SameCache.of_eq hself hok) (Nat.succ_pos 15) with
        ⟨o, cache', hrun, hinv', hstored', -⟩
      refine ⟨⟨_, .idle, some o⟩, _, ?_, hinv', ?_, trivial, ?_, ?_⟩
      · have hrun' : allocFromCache A ⟨b, BUNDLE_SIZE, 0, 0⟩ m' = .ok (o, cache') := hrun
        rw [hcache, Function.update_idem]
        simp only [coreStep, exchangeEmptyBundle, if_neg hne, hcur, returnBundle_zero, hpop,
          run_ok_bind, swapCacheBundles, hcount, pure_bind, hrun']
        rfl
      · intro j hj
        simp only [hcache, Function.update_idem]
        exact Function.update_of_ne hj _ _
      · intro x
        have hx := hstored x
        have hx' := hstored' x
        simp only [Option.toList_some, Pc.objs, List.count_nil] at hx' ⊢
        omega
      · intro hfull
        exact absurd (hfull rfl) hne

end AllocInv

/-- A step may be counted from a state with the same objects and bundles in it. -/
theorem Advance.from_same {s₁ : SlabAllocator} {γ₁ γ' : Layers} {r : Outcome}
    {regions' : List (Nat × Nat)} (h : Advance shO shB virtBase n i s₁ γ₁ pc r regions' γ')
    (hothers : ∀ j, j ≠ i → s₁.cache j = s.cache j) (hobjs : γ₁.objs = γ.objs)
    (hbundles : γ₁.bundles = γ.bundles) (hpc : pc ≠ .allocExchange)
    (hstored : ∀ o, storedCount A s₁ n γ₁.full o = storedCount A s n γ.full o)
    (hrefs : ∀ b, b ≠ 0 → refCount s₁ n γ₁.empty γ₁.full b = refCount s n γ.empty γ.full b) :
    Advance shO shB virtBase n i s γ pc r regions' γ' := by
  refine ⟨h.inv, fun j hj => (h.others j hj).trans (hothers j hj), h.pcOk, ?_, ?_⟩
  · intro o
    have ho := h.objs o
    rw [hobjs, hstored o] at ho
    exact ho
  · intro _ b hb
    have hb' := h.refs (fun heq => absurd heq hpc) b hb
    rw [hbundles, hrefs b hb] at hb'
    exact hb'

/-- The cache after case 3 of `free_internal`. -/
def CoreCache.supplied (cache : CoreCache) : Option Nat → CoreCache
  | some bundleAddr => swapCacheBundles { cache with standby := bundleAddr, stbyCount := 0 }
  | none => cache

namespace AllocInv

/-- A core without standby bundle gets one from the manager. -/
theorem advance_supply (h : AllocInv shO shB virtBase n s regions γ)
    (hB : shB.toLayout = bundleLayout A) (hbase : shB.size ∣ virtBase) (hi : i < n) (o : Nat)
    (hgrant : ∀ size ∈ s.bundleMgr.request, ∀ p ∈ grant, RegionOk A virtBase regions size p)
    (hzero : (s.cache i).standby = 0) :
    ∃ r mgr m' γ', Slab.allocEmptyBundle A virtBase grant s.bundleMgr s.mem = .ok (r, mgr, m') ∧
      (r = none → grant = none ∧ s.bundleMgr.request ≠ none) ∧
      Advance shO shB virtBase n i s γ (.freeExchange o)
        ⟨{ s with
          cache := Function.update s.cache i ((s.cache i).supplied r)
          bundleMgr := mgr
          mem := m' }, .freeRelease o, none⟩
        ((answer s.bundleMgr.request grant).toList ++ regions) γ' := by
  rcases h.allocEmptyBundle hB hbase hgrant with ⟨r, mgr, m', γ', hrun, hinv, hsup, hnone⟩
  have hok := h.bundles.caches i hi
  have hcount := hok.stby_zero hzero
  -- The missing standby bundle had no objects, so the swap moves none.
  refine ⟨r, mgr, m', γ', hrun, hnone, h.advance_install hinv hsup hi ?_ ?_ ?_ rfl trivial⟩
  · cases r with
    | none => exact hok
    | some b => exact ⟨Nat.zero_le _, hok.curr_le, fun _ => rfl, hok.curr_zero⟩
  · intro b hb
    have hnot : ¬ 0 = b := hb.symm
    cases r with
    | none => simp [CoreCache.supplied]
    | some x =>
        have hrefs : ((s.cache i).supplied (some x)).refs b =
            (if x = b then 1 else 0) + if (s.cache i).current = b then 1 else 0 := rfl
        rw [hrefs, CoreCache.refs, hzero]
        simp [hnot, List.count_cons, Nat.add_comm]
  · intro x
    cases r with
    | none => rfl
    | some b =>
        simp only [CoreCache.supplied, swapCacheBundles, CoreCache.objs, hcount, slots_zero,
          List.nil_append, List.append_nil]

/-- Case 3 of `free_internal`, when a core that gives its standby bundle away gets another one. -/
theorem freeExchange (h : AllocInv shO shB virtBase n s regions γ)
    (hB : shB.toLayout = bundleLayout A) (hbase : shB.size ∣ virtBase) (hi : i < n) (ly : Layout A)
    (hpc : PcOk (s.cache i) (.freeExchange o))
    (hgrant : ∀ size ∈ s.bundleMgr.request, ∀ p ∈ grant, RegionOk A virtBase regions size p)
    (hcond : (s.cache i).standby ≠ 0 → s.bundleMgr.request ≠ none → grant ≠ none) :
    ∃ r γ', coreStep ly virtBase grant i s (.freeExchange o) = .ok r ∧
      Advance shO shB virtBase n i s γ (.freeExchange o) r
        ((answer s.bundleMgr.request grant).toList ++ regions) γ' := by
  -- Without a standby bundle the manager gets nothing in return.
  by_cases hzero : (s.cache i).standby = 0
  · rcases h.advance_supply hB hbase hi o hgrant hzero with ⟨r, mgr, m', γ', hrun, -, hadv⟩
    refine ⟨_, γ', ?_, hadv⟩
    simp only [coreStep, exchangeFullBundle, hzero, returnBundle_zero, run_ok_bind, hrun]
    cases r with
    | none =>
        simp only [CoreCache.supplied, Function.update_eq_self]
        rfl
    | some b => rfl
  · have hfull : (s.cache i).stbyCount = BUNDLE_SIZE := hpc.2.resolve_left hzero
    rcases h.giveStandby hB hi hzero hfull with ⟨hret, hinv, hstored, hrefs⟩
    have hself : (s.giveStandby A i).cache i = (s.cache i).dropStandby := Function.update_self _ _ _
    have hrequest : (s.giveStandby A i).bundleMgr.request = s.bundleMgr.request := rfl
    rcases hinv.advance_supply hB hbase hi o (hrequest ▸ hgrant) (by rw [hself]; rfl) with
      ⟨r, mgr, m', γ', hrun, hnone, hadv⟩
    have hadv' := hadv.from_same (s := s) (γ := γ) (fun j hj => Function.update_of_ne hj _ _) rfl rfl
      (by simp) hstored hrefs
    refine ⟨_, γ', ?_, hadv'⟩
    have hrun' : Slab.allocEmptyBundle A virtBase grant
        { s.bundleMgr with full := (s.giveStandby A i).bundleMgr.full } (s.giveStandby A i).mem =
          .ok (r, mgr, m') := hrun
    simp only [coreStep, exchangeFullBundle, hret, run_ok_bind, hrun']
    cases r with
    -- A bundle was given and none came back: excluded by the condition.
    | none => exact absurd (hnone rfl).1 (hcond hzero (hrequest ▸ (hnone rfl).2))
    | some b =>
        have hcache : Function.update (s.giveStandby A i).cache i
            (((s.giveStandby A i).cache i).supplied (some b)) =
            Function.update s.cache i ((s.cache i).supplied (some b)) := by
          rw [hself]
          exact Function.update_idem _ _ _
        rw [hcache]
        rfl

end AllocInv

end Slab
end Propeller
