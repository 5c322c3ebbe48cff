import Propeller.Mm.Slab.Places

/-!
# Slab.Exchange — bundles on their way between a core and the manager

`Layers` is what a slab allocator represents: the contents of its two slab layers and the two lists of
its bundle manager.  This file follows the two counts of `Places` through a change of one core's cache,
through a write to a slot, and through `alloc_empty_bundle`.
-/

namespace Propeller
namespace Slab

variable {A : Arch} {shO shB : Shape A} {virtBase n : Nat} {s t : SlabAllocator}
  {regions : List (Nat × Nat)} {cO cB : Contents} {m m' : Mem} {b i j k o x v : Nat}
  {es fs xs : List Nat} {grant : Option Nat} {cache cache' : CoreCache}

/-- What the allocator represents. -/
structure Layers where
  objs : Contents
  bundles : Contents
  empty : List Nat
  full : List Nat

/-- The allocator represents `γ`. -/
structure AllocInv (shO shB : Shape A) (virtBase n : Nat) (s : SlabAllocator)
    (regions : List (Nat × Nat)) (γ : Layers) : Prop where
  world : World shO shB virtBase s regions γ.objs γ.bundles
  bundles : Bundles A n s γ.bundles γ.empty γ.full

/-! ## Changing one cache -/

theorem refCount_setCache (es fs : List Nat) (b : Nat)
    (hs : t.cache = Function.update s.cache i cache') (hi : i < n) :
    refCount t n es fs b + (s.cache i).refs b = refCount s n es fs b + cache'.refs b := by
  have hsum := sum_update_core (f := fun j => (s.cache j).refs b) (g := fun j => (t.cache j).refs b)
    hi fun j _ hj => by rw [hs, Function.update_of_ne hj]
  have hself : t.cache i = cache' := by rw [hs, Function.update_self]
  simp only [hself] at hsum
  rw [refCount, refCount]
  omega

/-- The counts of slots in use, when one cache changes and the slots of the others do not. -/
theorem storedCount_setCache (fs : List Nat) (o : Nat)
    (hs : t.cache = Function.update s.cache i cache') (hi : i < n)
    (hother : ∀ j < n, j ≠ i → (s.cache j).objs A t.mem = (s.cache j).objs A s.mem)
    (hfull : fullObjs A t.mem fs = fullObjs A s.mem fs) :
    storedCount A t n fs o + ((s.cache i).objs A s.mem).count o =
      storedCount A s n fs o + (cache'.objs A t.mem).count o := by
  have hsum := sum_update_core (f := fun j => ((s.cache j).objs A s.mem).count o)
    (g := fun j => ((t.cache j).objs A t.mem).count o) hi fun j hj hne => by
      rw [hs, Function.update_of_ne hne, hother j hj hne]
  have hself : t.cache i = cache' := by rw [hs, Function.update_self]
  simp only [hself] at hsum
  rw [storedCount, storedCount, hfull]
  omega

namespace Bundles

/-- A bundle of a core is nowhere else. -/
theorem apart (h : Bundles A n s cB es fs) (hnd : cB.out.Nodup) (hi : i < n) (hb : b ≠ 0)
    (href : 0 < (s.cache i).refs b) :
    (s.cache i).refs b = 1 ∧ b ∉ es ∧ b ∉ fs ∧ ∀ j < n, j ≠ i → (s.cache j).refs b = 0 := by
  have hone := h.refCount_le_one hnd hb
  have hcore := le_sum_core (f := fun j => (s.cache j).refs b) hi
  rw [refCount] at hone
  refine ⟨by omega, ?_, ?_, ?_⟩
  · intro hmem
    have hpos := List.count_pos_iff.2 hmem
    omega
  · intro hmem
    have hpos := List.count_pos_iff.2 hmem
    omega
  · intro j hj hne
    have htwo := add_le_sum_core (f := fun j => (s.cache j).refs b) hj hi hne
    omega

/-- A bundle on a list of the manager is nowhere else. -/
theorem apart_list (h : Bundles A n s cB es fs) (hnd : cB.out.Nodup) (hb : b ≠ 0)
    (hmem : 0 < es.count b + fs.count b) :
    es.count b + fs.count b = 1 ∧ ∀ j < n, (s.cache j).refs b = 0 := by
  have hone := h.refCount_le_one hnd hb
  rw [refCount] at hone
  refine ⟨by omega, ?_⟩
  intro j hj
  have hcore := le_sum_core (f := fun j => (s.cache j).refs b) hj
  omega

/-- A write behind a bundle that no core has does not reach the bundles of the cores. -/
theorem next_kept (hnone : ∀ j < n, (s.cache j).refs b = 0) (hi : i < n) (href : 0 < (s.cache i).refs x) (v : Nat) :
    Function.update s.mem (slotAddr A b BUNDLE_SIZE) v (slotAddr A x BUNDLE_SIZE) = s.mem (slotAddr A x BUNDLE_SIZE) := by
  refine Function.update_of_ne ?_ _ _
  intro heq
  have hxb : x = b := Nat.add_right_cancel heq
  rw [hxb, hnone i hi] at href
  exact absurd href (Nat.lt_irrefl 0)

/-- The lists change, and the bundles of the cores stay poisoned. -/
theorem relist {cB' : Contents} {es' fs' : List Nat} (h : Bundles A n s cB es fs)
    (hcache : t.cache = s.cache)
    (hempty : Chain (BUNDLE_SIZE * A.wordBytes) t.mem t.bundleMgr.empty es')
    (hfull : Chain (BUNDLE_SIZE * A.wordBytes) t.mem t.bundleMgr.full fs')
    (hrefs : ∀ b, b ≠ 0 → refCount s n es' fs' b ≤ cB'.out.count b)
    (hm : ∀ i < n, ∀ b, b ≠ 0 → 0 < (s.cache i).refs b →
      t.mem (slotAddr A b BUNDLE_SIZE) = s.mem (slotAddr A b BUNDLE_SIZE)) :
    Bundles A n t cB' es' fs' := by
  refine ⟨hempty, hfull, ?_, ?_, ?_⟩
  · intro b hb
    rw [refCount, hcache]
    exact hrefs b hb
  · intro i hi b hb href
    rw [hcache] at href
    rw [hm i hi b hb href]
    exact h.poison i hi b hb href
  · intro i hi
    rw [hcache]
    exact h.caches i hi

/-- Only the `next` words matter to the lists. -/
theorem congr (h : Bundles A n s cB es fs) (hcache : t.cache = s.cache)
    (hempty : t.bundleMgr.empty = s.bundleMgr.empty) (hfull : t.bundleMgr.full = s.bundleMgr.full)
    (hm : ∀ b ∈ cB.out, t.mem (slotAddr A b BUNDLE_SIZE) = s.mem (slotAddr A b BUNDLE_SIZE)) :
    Bundles A n t cB es fs := by
  refine h.relist hcache ?_ ?_ h.refs fun i hi b hb href => hm b (h.mem_out_of_refs hi hb href)
  · rw [hempty]
    exact h.empty.congr fun b hb => hm b (h.mem_out_of_empty hb)
  · rw [hfull]
    exact h.full.congr fun b hb => hm b (h.mem_out_of_full hb)

/-- One cache changes, within what the bundles that are out allow. -/
theorem setCache (h : Bundles A n s cB es fs) (hs : t.cache = Function.update s.cache i cache')
    (hempty : t.bundleMgr.empty = s.bundleMgr.empty) (hfull : t.bundleMgr.full = s.bundleMgr.full)
    (hmem : t.mem = s.mem) (hi : i < n) (hok : CacheOk cache')
    (hrefs : ∀ b, b ≠ 0 →
      refCount s n es fs b + cache'.refs b ≤ cB.out.count b + (s.cache i).refs b)
    (hpoison : ∀ b, b ≠ 0 → 0 < cache'.refs b → s.mem (slotAddr A b BUNDLE_SIZE) = A.poison) :
    Bundles A n t cB es fs := by
  have hself : t.cache i = cache' := by rw [hs, Function.update_self]
  have hother : ∀ j, j ≠ i → t.cache j = s.cache j := by
    intro j hj
    rw [hs, Function.update_of_ne hj]
  refine ⟨?_, ?_, ?_, ?_, ?_⟩
  · rw [hempty, hmem]
    exact h.empty
  · rw [hfull, hmem]
    exact h.full
  · intro b hb
    -- Only the references of this core change.
    have hcount := refCount_setCache es fs b hs hi
    have hle := hrefs b hb
    omega
  · intro j hj b hb href
    rw [hmem]
    by_cases hji : j = i
    · subst hji
      rw [hself] at href
      exact hpoison b hb href
    · rw [hother j hji] at href
      exact h.poison j hj b hb href
  · intro j hj
    by_cases hji : j = i
    · subst hji
      rw [hself]
      exact hok
    · rw [hother j hji]
      exact h.caches j hj

/-- One cache changes and references the same bundles as before. -/
theorem setCache_same (h : Bundles A n s cB es fs) (hs : t.cache = Function.update s.cache i cache')
    (hempty : t.bundleMgr.empty = s.bundleMgr.empty) (hfull : t.bundleMgr.full = s.bundleMgr.full)
    (hmem : t.mem = s.mem) (hi : i < n) (hok : CacheOk cache')
    (hrefs : ∀ b, cache'.refs b = (s.cache i).refs b) : Bundles A n t cB es fs := by
  refine h.setCache hs hempty hfull hmem hi hok ?_ ?_
  · intro b hb
    have hle := h.refs b hb
    rw [hrefs b]
    omega
  · intro b hb href
    rw [hrefs b] at href
    exact h.poison i hi b hb href

end Bundles

/-- Writing to the `next` word of a bundle leaves the slots alone. -/
theorem World.slotsKept_next (h : World shO shB virtBase s regions cO cB)
    (hB : shB.toLayout = bundleLayout A) (hb : b ∈ cB.out) :
    SlotsKept A cB s.mem (Function.update s.mem (slotAddr A b BUNDLE_SIZE) v) := by
  intro x hx j hj
  refine Function.update_of_ne ?_ _ _
  intro heq
  have hjb := (h.slot_inj hB hx hb hj.le (Nat.le_refl _) heq).2
  omega

namespace Bundles

theorem objs_kept (h : Bundles A n s cB es fs) (hkept : SlotsKept A cB s.mem m') (hi : i < n) :
    (s.cache i).objs A m' = (s.cache i).objs A s.mem :=
  h.objs_congr hi fun b hb _ => hkept b hb

theorem fullObjs_kept (h : Bundles A n s cB es fs) (hkept : SlotsKept A cB s.mem m') :
    fullObjs A m' fs = fullObjs A s.mem fs :=
  fullObjs_congr fun b hb => hkept b (h.mem_out_of_full hb)

theorem storedCount_congr (h : Bundles A n s cB es fs) (hkept : SlotsKept A cB s.mem t.mem)
    (hs : t.cache = s.cache) : storedCount A t n fs o = storedCount A s n fs o := by
  rw [storedCount, storedCount, hs, h.fullObjs_kept hkept]
  refine congrArg (· + _) (Finset.sum_congr rfl fun j hj => ?_)
  rw [h.objs_kept hkept (Finset.mem_range.1 hj)]

/-- The counts of slots in use, when one cache changes and the slots do not. -/
theorem storedCount_kept (h : Bundles A n s cB es fs) (hkept : SlotsKept A cB s.mem t.mem)
    (hs : t.cache = Function.update s.cache i cache') (hi : i < n) :
    storedCount A t n fs o + ((s.cache i).objs A s.mem).count o =
      storedCount A s n fs o + (cache'.objs A t.mem).count o :=
  storedCount_setCache fs o hs hi (fun _ hj _ => h.objs_kept hkept hj) (h.fullObjs_kept hkept)

end Bundles

/-! ## Supplying an empty bundle -/

/-- The bundle `r`, if any, has left the manager and nobody references it yet. -/
structure Supplied (A : Arch) (n : Nat) (s : SlabAllocator) (γ : Layers) (r : Option Nat) (m' : Mem)
    (γ' : Layers) : Prop where
  objs : γ'.objs = γ.objs
  full : γ'.full = γ.full
  slots : SlotsKept A γ.bundles s.mem m'
  fresh : ∀ b ∈ r, b ≠ 0 ∧ m' (slotAddr A b BUNDLE_SIZE) = A.poison
  refs : ∀ b, refCount s n γ'.empty γ'.full b + r.toList.count b + γ.bundles.out.count b =
    refCount s n γ.empty γ.full b + γ'.bundles.out.count b

namespace AllocInv

variable {γ : Layers}

theorem nodup (h : AllocInv shO shB virtBase n s regions γ) : γ.bundles.out.Nodup :=
  h.world.bundles.core.out_nodup

/-- `alloc_empty_bundle` when the manager has an empty bundle. -/
theorem allocEmptyBundle_cons (grant : Option Nat) (h : AllocInv shO shB virtBase n s regions γ)
    (hB : shB.toLayout = bundleLayout A) (hes : γ.empty = b :: es) :
    ∃ mgr m', allocEmptyBundle A virtBase grant s.bundleMgr s.mem = .ok (some b, mgr, m') ∧
      s.bundleMgr.request = none ∧
      AllocInv shO shB virtBase n { s with bundleMgr := mgr, mem := m' } regions
        { γ with empty := es } ∧
      Supplied A n s γ (some b) m' { γ with empty := es } := by
  have hempty := h.bundles.empty
  have hmem : b ∈ γ.empty := by simp [hes]
  have hbout := h.bundles.mem_out_of_empty hmem
  have hb0 := h.world.bundle_ne_zero hbout
  have hcount : γ.empty.count b = es.count b + 1 := by simp [hes]
  -- A bundle has one owner, so it is nowhere else.
  have hlist := h.bundles.apart_list h.nodup hb0 (by omega)
  have hb_es : b ∉ es := List.count_eq_zero.1 (by omega)
  have hb_fs : b ∉ γ.full := List.count_eq_zero.1 (by omega)
  have hne : s.bundleMgr.empty ≠ 0 := by
    rw [Ne, hempty.head_eq_zero_iff, hes]
    exact List.cons_ne_nil _ _
  rw [hes] at hempty
  rcases popBundle_spec hempty hb_es with ⟨hpop, hchain⟩
  -- The reference to `b` moves from the list to the caller.
  have hrefs : ∀ x, refCount s n es γ.full x + [b].count x = refCount s n γ.empty γ.full x := by
    intro x
    simp only [refCount, hes, List.count_cons, List.count_nil]
    omega
  have hword := h.world.bundle_word hB hbout (Nat.le_refl BUNDLE_SIZE)
  refine ⟨{ s.bundleMgr with empty := s.mem (slotAddr A b BUNDLE_SIZE) },
    Function.update s.mem (slotAddr A b BUNDLE_SIZE) A.poison, ?_, if_neg hne, ⟨?_, ?_⟩,
    ⟨rfl, rfl, ?_, ?_, ?_⟩⟩
  · simp only [allocEmptyBundle, refillEmpty, if_neg hne, run_ok_bind, hpop]
    rfl
  · exact (h.world.write hword).congr rfl rfl rfl
  · refine h.bundles.relist rfl hchain (h.bundles.full.update_next hb_fs) ?_ ?_
    · intro x hx
      have hle := h.bundles.refs x hx
      have heq := hrefs x
      simp only
      omega
    · intro i hi x hx href
      exact Bundles.next_kept hlist.2 hi href A.poison
  · exact h.world.slotsKept_next hB hbout
  · rintro x hx
    obtain rfl := Option.some.inj hx
    exact ⟨hb0, Function.update_self _ _ _⟩
  · intro x
    have heq := hrefs x
    simp only [Option.toList_some]
    omega

/-- `alloc_empty_bundle` when the manager has to allocate a bundle. -/
theorem allocEmptyBundle_nil (h : AllocInv shO shB virtBase n s regions γ)
    (hB : shB.toLayout = bundleLayout A) (hbase : shB.size ∣ virtBase)
    (hgrant : ∀ size ∈ s.bundleMgr.bundleAlloc.request, ∀ p ∈ grant,
      RegionOk A virtBase regions size p) (hes : γ.empty = []) :
    ∃ r mgr m' γ', allocEmptyBundle A virtBase grant s.bundleMgr s.mem = .ok (r, mgr, m') ∧
      AllocInv shO shB virtBase n { s with bundleMgr := mgr, mem := m' }
        ((answer s.bundleMgr.bundleAlloc.request grant).toList ++ regions) γ' ∧
      Supplied A n s γ r m' γ' ∧
      (r = none → grant = none ∧ s.bundleMgr.bundleAlloc.request ≠ none) := by
  have hzero : s.bundleMgr.empty = 0 := h.bundles.empty.head_eq_zero_iff.2 hes
  have hchain : Chain (BUNDLE_SIZE * A.wordBytes) s.mem 0 γ.empty := hzero ▸ h.bundles.empty
  rcases h.world.allocBundle hB hbase hgrant with ⟨r, gB, m', cB', hrun, hworld, hkept, hres⟩
  -- The bundle layer has nothing to give, or a bundle that was not out.
  rcases hres with ⟨rfl, hno, hask, rfl, rfl, rfl⟩ | ⟨b, rfl, hnew, hout⟩
  · refine ⟨none, s.bundleMgr, s.mem, γ, ?_, ⟨hworld, h.bundles⟩, ⟨rfl, rfl, ?_, ?_, ?_⟩,
      fun _ => ⟨hno, hask⟩⟩
    · simp only [allocEmptyBundle, refillEmpty, if_pos hzero, hrun, run_ok_bind]
      exact if_pos hzero
    · exact fun b _ j _ => rfl
    · rintro b hb
      cases hb
    · intro b
      rfl
  · have hbout : b ∈ cB'.out := by simp [hout]
    have hsub : ∀ x ∈ γ.bundles.out, x ∈ cB'.out := by
      intro x hx
      simp [hout, hx]
    have hb0 := hworld.bundle_ne_zero hbout
    have hb_fs : b ∉ γ.full := fun hin => hnew (h.bundles.mem_out_of_full hin)
    have hword := hworld.bundle_word hB hbout (Nat.le_refl BUNDLE_SIZE)
    -- The new bundle is put on the list and taken off again.
    have hrefill : refillEmpty A virtBase grant s.bundleMgr s.mem =
        .ok ({ s.bundleMgr with bundleAlloc := gB, empty := b },
          Function.update m' (slotAddr A b BUNDLE_SIZE) 0) := by
      simp only [refillEmpty, if_pos hzero, hrun, run_ok_bind, getBundleWrapperMut_eq hb0]
      rfl
    refine ⟨some b, { s.bundleMgr with bundleAlloc := gB, empty := 0 },
      Function.update m' (slotAddr A b BUNDLE_SIZE) A.poison, { γ with bundles := cB' }, ?_,
      ⟨(hworld.write hword).congr rfl rfl rfl, ?_⟩, ⟨rfl, rfl, ?_, ?_, ?_⟩, ?_⟩
    · simp only [allocEmptyBundle, hrefill, run_ok_bind, if_neg hb0, popBundle,
        getBundleWrapperMut_eq hb0, pure_bind, Function.update_self, Function.update_idem]
      rfl
    · refine h.bundles.relist rfl (hes ▸ rfl) ?_ ?_ ?_
      · exact (h.bundles.full.congr fun x hx =>
          hkept x (hsub x (h.bundles.mem_out_of_full hx)) BUNDLE_SIZE (Nat.le_refl _)).update_next hb_fs
      · intro x hx
        have hle := h.bundles.refs x hx
        have hcount := List.count_le_count_cons (a := x) (b := b) (l := γ.bundles.out)
        simp only [hout]
        omega
      · intro i hi x hx href
        have hxout := h.bundles.mem_out_of_refs hi hx href
        rw [← hkept x (hsub x hxout) BUNDLE_SIZE (Nat.le_refl _)]
        refine Function.update_of_ne ?_ _ _
        intro heq
        have hxb : x = b := Nat.add_right_cancel heq
        exact hnew (hxb ▸ hxout)
    · intro x hx j hj
      rw [← hkept x (hsub x hx) j hj.le]
      refine Function.update_of_ne ?_ _ _
      intro heq
      have hxb := (hworld.slot_inj hB (hsub x hx) hbout hj.le (Nat.le_refl _) heq).1
      exact hnew (hxb ▸ hx)
    · rintro x hx
      obtain rfl := Option.some.inj hx
      exact ⟨hb0, Function.update_self _ _ _⟩
    · intro x
      simp only [hout, List.count_cons, Option.toList_some, List.count_nil]
      omega
    · intro hnone
      cases hnone

/-- `alloc_empty_bundle` supplies a bundle unless the page allocator is asked and fails. -/
theorem allocEmptyBundle (h : AllocInv shO shB virtBase n s regions γ)
    (hB : shB.toLayout = bundleLayout A) (hbase : shB.size ∣ virtBase)
    (hgrant : ∀ size ∈ s.bundleMgr.request, ∀ p ∈ grant, RegionOk A virtBase regions size p) :
    ∃ r mgr m' γ', Slab.allocEmptyBundle A virtBase grant s.bundleMgr s.mem = .ok (r, mgr, m') ∧
      AllocInv shO shB virtBase n { s with bundleMgr := mgr, mem := m' }
        ((answer s.bundleMgr.request grant).toList ++ regions) γ' ∧
      Supplied A n s γ r m' γ' ∧ (r = none → grant = none ∧ s.bundleMgr.request ≠ none) := by
  cases hes : γ.empty with
  | nil =>
      have hrequest : s.bundleMgr.request = s.bundleMgr.bundleAlloc.request :=
        if_pos (h.bundles.empty.head_eq_zero_iff.2 hes)
      rw [hrequest] at hgrant ⊢
      exact h.allocEmptyBundle_nil hB hbase hgrant hes
  | cons b es =>
      rcases h.allocEmptyBundle_cons grant hB hes with ⟨mgr, m', hrun, hrequest, hinv, hsup⟩
      rw [hrequest]
      refine ⟨_, mgr, m', _, hrun, hinv, hsup, ?_⟩
      intro hnone
      cases hnone

/-! ## Full bundles -/

end AllocInv

theorem storedCount_cons (A : Arch) (s : SlabAllocator) (n b : Nat) (fs : List Nat) (o : Nat) :
    storedCount A s n (b :: fs) o =
      storedCount A s n fs o + (slots A s.mem b BUNDLE_SIZE).count o := by
  simp only [storedCount, fullObjs, List.flatMap_cons, List.count_append]
  omega

theorem refCount_cons (s : SlabAllocator) (n : Nat) (es fs : List Nat) (b x : Nat) :
    refCount s n es (b :: fs) x = refCount s n es fs x + if b = x then 1 else 0 := by
  simp only [refCount, List.count_cons, beq_iff_eq]
  omega

/-- The cache without its standby bundle. -/
def CoreCache.dropStandby (cache : CoreCache) : CoreCache :=
  { cache with standby := 0, stbyCount := 0 }

/-- The allocator when core `i` has just given its standby bundle to the manager. -/
def SlabAllocator.giveStandby (A : Arch) (s : SlabAllocator) (i : Nat) : SlabAllocator :=
  { s with
    cache := Function.update s.cache i (s.cache i).dropStandby
    bundleMgr := { s.bundleMgr with full := (s.cache i).standby }
    mem := Function.update s.mem (slotAddr A (s.cache i).standby BUNDLE_SIZE) s.bundleMgr.full }

namespace AllocInv

variable {γ : Layers}

/-- A core gives its full standby bundle to the manager. -/
theorem giveStandby (h : AllocInv shO shB virtBase n s regions γ) (hB : shB.toLayout = bundleLayout A)
    (hi : i < n) (hb0 : (s.cache i).standby ≠ 0) (hcount : (s.cache i).stbyCount = BUNDLE_SIZE) :
    returnBundle A (s.cache i).standby s.bundleMgr.full s.mem =
        .ok ((s.giveStandby A i).bundleMgr.full, (s.giveStandby A i).mem) ∧
      AllocInv shO shB virtBase n (s.giveStandby A i) regions
        { γ with full := (s.cache i).standby :: γ.full } ∧
      (∀ o, storedCount A (s.giveStandby A i) n ((s.cache i).standby :: γ.full) o =
        storedCount A s n γ.full o) ∧
      ∀ b, b ≠ 0 → refCount (s.giveStandby A i) n γ.empty ((s.cache i).standby :: γ.full) b =
        refCount s n γ.empty γ.full b := by
  have href := (s.cache i).refs_standby
  have hbout := h.bundles.mem_out_of_refs hi hb0 href
  rcases h.bundles.apart h.nodup hi hb0 href with ⟨hone, hb_es, hb_fs, hothers⟩
  have hp := h.bundles.poison i hi _ hb0 href
  rcases returnBundle_spec h.bundles.full hb0 hb_fs hp with ⟨hrun, hchain⟩
  have hkept := h.world.slotsKept_next hB hbout (v := s.bundleMgr.full)
  have hok := h.bundles.caches i hi
  -- The cache loses one reference to the standby bundle, and the list of full ones gains it.
  have hstep : ∀ x, x ≠ 0 → (s.cache i).dropStandby.refs x +
      (if (s.cache i).standby = x then 1 else 0) = (s.cache i).refs x := by
    intro x hx
    have hdrop : (s.cache i).dropStandby.refs x =
        (if (s.cache i).current = x then 1 else 0) + if 0 = x then 1 else 0 := rfl
    rw [hdrop, if_neg hx.symm, CoreCache.refs]
    omega
  have hcounts : ∀ x, x ≠ 0 → refCount (s.giveStandby A i) n γ.empty γ.full x +
      (if (s.cache i).standby = x then 1 else 0) = refCount s n γ.empty γ.full x := by
    intro x hx
    have hset := refCount_setCache (t := s.giveStandby A i) γ.empty γ.full x rfl hi
    have := hstep x hx
    omega
  have hrefs : ∀ x, x ≠ 0 → refCount (s.giveStandby A i) n γ.empty ((s.cache i).standby :: γ.full) x =
      refCount s n γ.empty γ.full x := by
    intro x hx
    rw [refCount_cons]
    exact hcounts x hx
  refine ⟨hrun, ⟨?_, ?_⟩, ?_, hrefs⟩
  · exact (h.world.write (h.world.bundle_word hB hbout (Nat.le_refl _))).congr rfl rfl rfl
  · -- First the cache, then the list.
    have hset : Bundles A n { s with cache := (s.giveStandby A i).cache } γ.bundles γ.empty γ.full := by
      refine h.bundles.setCache rfl rfl rfl rfl hi ⟨hok.curr_le, Nat.zero_le _, hok.curr_zero,
        fun _ => rfl⟩ ?_ ?_
      · intro x hx
        have := hstep x hx
        have := h.bundles.refs x hx
        omega
      · intro x hx hpos
        have := hstep x hx
        exact h.bundles.poison i hi x hx (by omega)
    refine hset.relist rfl (h.bundles.empty.update_next hb_es) hchain ?_ ?_
    · intro x hx
      have hle := h.bundles.refs x hx
      have heq := hrefs x hx
      exact heq.le.trans hle
    · intro j hj x hx hpos
      refine Function.update_of_ne ?_ _ _
      intro heq
      have hxb : x = (s.cache i).standby := Nat.add_right_cancel heq
      have hcache : (s.giveStandby A i).cache =
        Function.update s.cache i (s.cache i).dropStandby := rfl
      by_cases hji : j = i
      · subst hji
        have hself := hstep x hx
        simp only [hcache, Function.update_self] at hpos
        rw [hxb] at hself hpos
        rw [if_pos rfl] at hself
        omega
      · simp only [hcache, Function.update_of_ne hji] at hpos
        rw [hxb, hothers j hj hji] at hpos
        exact absurd hpos (Nat.lt_irrefl 0)
  · intro o
    -- A full bundle holds the same objects on the list as in the cache.
    have hset := h.bundles.storedCount_kept (t := s.giveStandby A i) (o := o) hkept rfl hi
    have hcurr := h.bundles.objs_kept hkept hi
    have hslots : slots A (s.giveStandby A i).mem (s.cache i).standby BUNDLE_SIZE =
        slots A s.mem (s.cache i).standby BUNDLE_SIZE := slots_congr fun j hj => hkept _ hbout j hj
    have hcurr : slots A (s.giveStandby A i).mem (s.cache i).current (s.cache i).currCount =
        slots A s.mem (s.cache i).current (s.cache i).currCount := by
      rw [CoreCache.objs, CoreCache.objs, hcount] at hcurr
      exact List.append_cancel_right (hslots ▸ hcurr)
    simp only [CoreCache.objs, CoreCache.dropStandby, hcount, slots_zero, List.append_nil, List.count_append] at hset
    rw [storedCount_cons, hslots]
    rw [hcurr] at hset
    omega

/-- The manager gives away a full bundle. -/
theorem popFull (h : AllocInv shO shB virtBase n s regions γ) (hB : shB.toLayout = bundleLayout A)
    (hfs : γ.full = b :: fs) :
    ∃ full m', popBundle A s.bundleMgr.full s.mem = .ok (b, full, m') ∧ b ≠ 0 ∧
      m' (slotAddr A b BUNDLE_SIZE) = A.poison ∧ SlotsKept A γ.bundles s.mem m' ∧ b ∈ γ.bundles.out ∧
      AllocInv shO shB virtBase n { s with bundleMgr := { s.bundleMgr with full }, mem := m' } regions
        { γ with full := fs } := by
  have hfull := h.bundles.full
  have hmem : b ∈ γ.full := by simp [hfs]
  have hbout := h.bundles.mem_out_of_full hmem
  have hb0 := h.world.bundle_ne_zero hbout
  have hcount : γ.full.count b = fs.count b + 1 := by simp [hfs]
  -- A bundle has one owner, so it is nowhere else.
  have hlist := h.bundles.apart_list h.nodup hb0 (by omega)
  have hb_fs : b ∉ fs := List.count_eq_zero.1 (by omega)
  have hb_es : b ∉ γ.empty := List.count_eq_zero.1 (by omega)
  rw [hfs] at hfull
  rcases popBundle_spec hfull hb_fs with ⟨hpop, hchain⟩
  refine ⟨_, _, hpop, hb0, Function.update_self _ _ _, h.world.slotsKept_next hB hbout, hbout, ?_, ?_⟩
  · exact (h.world.write (h.world.bundle_word hB hbout (Nat.le_refl _))).congr rfl rfl rfl
  · refine h.bundles.relist rfl (h.bundles.empty.update_next hb_es) hchain ?_ ?_
    · intro x hx
      have hle := h.bundles.refs x hx
      rw [hfs, refCount_cons] at hle
      exact (Nat.le_add_right _ _).trans hle
    · intro i hi x hx href
      exact Bundles.next_kept hlist.2 hi href A.poison

end AllocInv

/-- The allocator when core `i`, which had no objects and no current bundle, has taken the full bundle
`b`. -/
def SlabAllocator.takeFull (s : SlabAllocator) (i b full : Nat) (m' : Mem) : SlabAllocator :=
  { s with
    cache := Function.update s.cache i ⟨b, BUNDLE_SIZE, 0, 0⟩
    bundleMgr := { s.bundleMgr with full }
    mem := m' }

theorem AllocInv.takeFull {γ : Layers} (h : AllocInv shO shB virtBase n s regions γ)
    (hB : shB.toLayout = bundleLayout A) (hi : i < n) (hfs : γ.full = b :: fs)
    (hcurr : (s.cache i).currCount = 0) (hstby : (s.cache i).stbyCount = 0) :
    ∃ full m', popBundle A s.bundleMgr.full s.mem = .ok (b, full, m') ∧
      CacheOk ⟨b, BUNDLE_SIZE, 0, 0⟩ ∧
      AllocInv shO shB virtBase n (s.takeFull i b full m') regions { γ with full := fs } ∧
      ∀ o, storedCount A (s.takeFull i b full m') n fs o = storedCount A s n γ.full o := by
  rcases h.popFull hB hfs with ⟨full, m', hpop, hb0, hpoison, hkept, hbout, hinv⟩
  have hok : CacheOk ⟨b, BUNDLE_SIZE, 0, 0⟩ :=
    ⟨Nat.le_refl _, Nat.zero_le _, fun hzero => absurd hzero hb0, fun _ => rfl⟩
  -- The cache was empty, so the bundle is its only reference.
  have hone : ∀ x, x ≠ 0 → (⟨b, BUNDLE_SIZE, 0, 0⟩ : CoreCache).refs x = if b = x then 1 else 0 := by
    intro x hx
    have hnot : ¬ 0 = x := hx.symm
    simp [CoreCache.refs, hnot]
  refine ⟨full, m', hpop, hok, ⟨hinv.world.congr rfl rfl rfl, ?_⟩, ?_⟩
  · refine hinv.bundles.setCache rfl rfl rfl rfl hi hok ?_ ?_
    · intro x hx
      have hle := h.bundles.refs x hx
      rw [hfs, refCount_cons] at hle
      rw [hone x hx]
      exact hle.trans (Nat.le_add_right _ _)
    · intro x hx hpos
      rw [hone x hx] at hpos
      by_cases hbx : b = x
      · exact hbx ▸ hpoison
      · rw [if_neg hbx] at hpos
        exact absurd hpos (Nat.lt_irrefl 0)
  · intro o
    -- The objects of the bundle move from the list to the cache.
    have hset := hinv.bundles.storedCount_kept (o := o) (t := s.takeFull i b full m')
      (fun _ _ _ _ => rfl) rfl hi
    have hsame := h.bundles.storedCount_congr (o := o)
      (t := { s with bundleMgr := { s.bundleMgr with full }, mem := m' }) hkept rfl
    have hmem : (s.takeFull i b full m').mem = m' := rfl
    rw [hfs, storedCount_cons] at hsame
    rw [hfs]
    simp only [CoreCache.objs, hcurr, hstby, slots_zero, List.append_nil, List.count_nil, hmem]
      at hset hsame
    omega

end Slab
end Propeller
