import Propeller.Mm.Service
import Propeller.Mm.Zones

/-!
# Mm.ZoneBlocks — the blocks of all zones

`init_allocators` builds one page allocator for each zone and puts it behind a `SpinLock`.  Here the allocators
that it builds are the ones of a `Service`: whatever the cores allocate, free and pass on, and whichever of the
zones they take it from, no page is held twice, a block of a zone lies in ranges of that zone, and no block
touches the metadata of an allocator (`zone_blocks_exclusive`).
-/

namespace Propeller
namespace Mm

open Sync Buddy

variable {P : Profile} {A : Arch} {cfg : KernelConfig} {config : MemoryConfig} {lin high : List MemoryRange}
  {metaBase q : Nat} {calls : List ZoneCall} {call call' : ZoneCall} {mem : Nat → BlockNode}
  {allocs : List (Nat × State)} {p : Nat × State}

/-! ## The allocators -/

theorem exists_of_mapM {α β : Type} {f : α → Run β} {xs : List α} {ys : List β} {y : β} (h : xs.mapM f = .ok ys)
    (hy : y ∈ ys) : ∃ x ∈ xs, f x = .ok y := by
  induction xs generalizing ys with
  | nil =>
      obtain rfl : [] = ys := Except.ok.inj h
      cases hy
  | cons x xs ih =>
      rw [List.mapM_cons] at h
      rcases run_bind_eq_ok.1 h with ⟨y', hy', h⟩
      rcases run_bind_eq_ok.1 h with ⟨ys', hys', h⟩
      obtain rfl := Except.ok.inj h
      rcases List.mem_cons.1 hy with rfl | hy
      · exact ⟨x, List.mem_cons_self, hy'⟩
      · rcases ih hys' hy with ⟨x', hx', hfx⟩
        exact ⟨x', List.mem_cons_of_mem _ hx', hfx⟩

/-- The allocator of a zone is what the constructor makes of the call for the zone. -/
theorem initAllocators_mem (hinit : initAllocators P A cfg config mem = .ok allocs)
    (hcalls : zoneCalls P A cfg config = .ok calls) (hp : p ∈ allocs) :
    ∃ c ∈ calls, p.1 = c.zoneIndex ∧
      Buddy.new A cfg c.base c.size c.metadata (availRanges c.avail) mem = .ok (some p.2) := by
  rw [initAllocators, hcalls, run_ok_bind] at hinit
  rcases exists_of_mapM hinit hp with ⟨c, hc, hrun⟩
  rcases run_bind_eq_ok.1 hrun with ⟨s, hs, hrun⟩
  obtain rfl := Except.ok.inj hrun
  rcases run_bind_eq_ok.1 hs with ⟨o, ho, hs⟩
  cases o with
  | none => cases hs
  | some s' =>
      obtain rfl := Except.ok.inj hs
      exact ⟨c, hc, rfl, ho⟩

/-- The calls of `init_allocators`, as far as they are known, are the consistent ones. -/
theorem consistentCalls_of_zoneCalls (h : ZoneConfig A cfg config lin high)
    (hcalls : zoneCalls P A cfg config = .ok calls) : ∃ metaBase, ConsistentCalls A cfg config lin high metaBase calls := by
  rcases initAllocatorMemoryConfig_eq h P with ⟨x, hx, hlarge, hconfig, hone⟩
  cases lin with
  | nil => cases hx
  | cons l ls =>
      have hmapped := h.mapped x hx
      have hxs : x.stop = x.base + x.size := rfl
      have hranges : config.ranges = l :: ls ++ high := h.ranges
      rw [hranges] at hone hconfig
      have hlt : cfg.virtualBase + (x.stop - metaTotal A (l :: ls) high) + metaTotal A (l :: ls) high <
          A.wordLimit := by omega
      rcases zoneCalls_fold ⟨(l :: ls ++ high).flatMap (Range.minus _)⟩ h rfl hone hlt P with ⟨next, hfold⟩
      -- The fold of the rounds is what `zoneCalls` returns.
      simp only [zoneCalls, initZoneInfo_eq h, run_ok_bind, hconfig, addWord_of_lt ((Nat.le_add_right _ _).trans_lt hlt),
        hfold] at hcalls
      obtain rfl := Except.ok.inj hcalls
      exact ⟨_, consistentCalls h hx (by omega) (by omega)⟩

/-! ## Pages of the zones -/

/-- The bounds of what is left of a range of whole pages beside a block of whole pages. -/
theorem dvd_minus {e r s : MemoryRange} (hr : pageSize ∣ r.base ∧ pageSize ∣ r.size)
    (he : pageSize ∣ e.base ∧ pageSize ∣ e.size) (hs : s ∈ Range.minus e r) :
    pageSize ∣ s.base ∧ pageSize ∣ s.size := by
  have hrs : pageSize ∣ r.stop := dvd_add hr.1 hr.2
  have hes : pageSize ∣ e.stop := dvd_add he.1 he.2
  rcases List.mem_cons.1 (List.mem_filter.1 hs).1 with rfl | hs
  · refine ⟨hr.1, Nat.dvd_sub ?_ hr.1⟩
    rcases min_choice r.stop e.base with hmin | hmin
    · rw [hmin]
      exact hrs
    · rw [hmin]
      exact he.1
  · obtain rfl := List.mem_singleton.1 hs
    have hmax : pageSize ∣ max r.base e.stop := by
      rcases max_choice r.base e.stop with hmax | hmax
      · rw [hmax]
        exact hr.1
      · rw [hmax]
        exact hes
    exact ⟨hmax, Nat.dvd_sub hrs hmax⟩

/-- An address in a page of a range of whole pages. -/
theorem mem_addrs_of_page {r : MemoryRange} {x : Nat} (hr : pageSize ∣ r.base ∧ pageSize ∣ r.size)
    (hx : x / pageSize ∈ rangePages ⟨r.base, r.size⟩) : x ∈ r.addrs := by
  rcases hr with ⟨⟨i, hi⟩, n, hn⟩
  rcases hx with ⟨hlo, hhi⟩
  simp only [hi, hn, Nat.mul_div_cancel_left _ pageSize_pos] at hlo hhi
  rw [Range.mem_addrs, hi, hn, ← Nat.mul_add]
  have hdiv := Nat.div_add_mod x pageSize
  have hmod := Nat.mod_lt x pageSize_pos
  constructor
  · calc
      pageSize * i ≤ pageSize * (x / pageSize) := Nat.mul_le_mul_left _ hlo
      _ ≤ x := by omega
  · calc
      x < pageSize * (x / pageSize) + pageSize := by omega
      _ = pageSize * (x / pageSize + 1) := (Nat.mul_succ _ _).symm
      _ ≤ pageSize * (i + n) := Nat.mul_le_mul_left _ hhi

namespace ConsistentCalls

variable (h : ZoneConfig A cfg config lin high) (hc : ConsistentCalls A cfg config lin high metaBase calls)

include h hc

theorem metaBlock_dvd : pageSize ∣ (metaBlock A lin high metaBase).base ∧
    pageSize ∣ (metaBlock A lin high metaBase).size := by
  rcases hc.block with ⟨r, hr, -, -, hstop⟩
  have hsize : pageSize ∣ metaTotal A lin high := dvd_add (dvd_metaSizeOf A lin) (dvd_metaSizeOf A high)
  have hrs : pageSize ∣ r.stop := dvd_add (h.aligned r hr).1 (h.aligned r hr).2
  refine ⟨?_, hsize⟩
  rw [← hstop] at hrs
  exact (Nat.dvd_add_iff_left hsize).2 hrs

/-- Where the ranges of an allocator come from. -/
theorem mem_avail (hcall : call ∈ calls) {r : MemoryRange} (hr : r ∈ call.avail) :
    (pageSize ∣ r.base ∧ pageSize ∣ r.size) ∧ ∃ r₀ ∈ config.getRanges, getZoneIndex r₀.tag = some call.zoneIndex ∧
      ∀ x ∈ r.addrs, x ∈ r₀.addrs := by
  rw [hc.avail call hcall] at hr
  rcases List.mem_flatMap.1 hr with ⟨r₀, hr₀, hmem⟩
  rcases List.mem_filter.1 hr₀ with ⟨hr₀, htag⟩
  refine ⟨dvd_minus (h.aligned r₀ hr₀) (metaBlock_dvd h hc) hmem, r₀, hr₀, of_decide_eq_true htag, ?_⟩
  intro x hx
  exact (Range.exists_mem_minus.1 ⟨r, hmem, hx⟩).1

/-- An address in a page that an allocator may hand out. -/
theorem page (hcall : call ∈ calls) {x : Nat} (hx : x / pageSize ∈ availPages (availRanges call.avail)) :
    (∃ r ∈ config.getRanges, getZoneIndex r.tag = some call.zoneIndex ∧ x ∈ r.addrs) ∧
      ∀ c ∈ calls, ¬ (c.metadata ≤ cfg.virtualBase + x ∧ cfg.virtualBase + x < c.metadata + c.metaSize) := by
  rcases hx with ⟨b, hb, hxb⟩
  rcases List.mem_map.1 hb with ⟨r, hr, rfl⟩
  rcases mem_avail h hc hcall hr with ⟨hdvd, r₀, hr₀, htag, hsub⟩
  have hxr := mem_addrs_of_page hdvd hxb
  exact ⟨⟨r₀, hr₀, htag, hsub x hxr⟩, fun c hmem => hc.unavailable c hmem call hcall r hr x hxr⟩

/-- Two zones have no page in common. -/
theorem zones_apart (hcall : call ∈ calls) (hcall' : call' ∈ calls) (hne : call.zoneIndex ≠ call'.zoneIndex) :
    Disjoint (availPages (availRanges call.avail)) (availPages (availRanges call'.avail)) := by
  rw [Set.disjoint_left]
  intro q hq hq'
  have hdiv : q * pageSize / pageSize = q := Nat.mul_div_cancel _ pageSize_pos
  rw [← hdiv] at hq hq'
  rcases (page h hc hcall hq).1 with ⟨r, hr, htag, hx⟩
  rcases (page h hc hcall' hq').1 with ⟨r', hr', htag', hx'⟩
  -- The ranges of the configuration share no address, so that the two are one, with one tag.
  have heq : r = r' := by
    by_contra hrr
    have hbefore : config.getRanges.Pairwise fun r r' => Disjoint r.addrs r'.addrs :=
      h.apart.before.imp fun hb => RangeSet.disjoint_of_before hb
    have hsymm : Std.Symm fun r r' : MemoryRange => Disjoint r.addrs r'.addrs := ⟨fun _ _ hd => Disjoint.symm hd⟩
    exact Set.disjoint_left.1 (hbefore.forall hr hr' hrr) hx hx'
  rw [heq] at htag
  exact hne (Option.some.inj (htag.symm.trans htag'))

theorem avail_disjoint (hcall : call ∈ calls) : DisjointRanges (availRanges call.avail) := by
  have hbefore : call.avail.Pairwise RangeSet.Before := by
    rw [hc.avail call hcall]
    exact RangeSet.flatMap_minus_before _ (h.apart.before.sublist List.filter_sublist)
  rw [DisjointRanges, availRanges, List.pairwise_map]
  exact hbefore.imp fun hb => Or.inl hb

theorem zero_not_mem (hzero : ∀ r ∈ config.getRanges, r.base ≠ 0) (hcall : call ∈ calls) :
    0 ∉ availPages (availRanges call.avail) := by
  intro hmem
  rw [← Nat.zero_div pageSize] at hmem
  rcases (page h hc hcall hmem).1 with ⟨r, hr, -, hx⟩
  exact hzero r hr (Nat.le_zero.1 (Range.mem_addrs.1 hx).1)

end ConsistentCalls

/-! ## All blocks -/

variable {C M : Type} [DecidableEq C] {σ : Service C M} {regs : C → Nat → Nat} {obj₀ : Nat → Run State}
  {lock : Nat → Nat}

omit [DecidableEq C] in
theorem mem_heldAt {x : Holding C} {held : List (Holding C)} (hx : x ∈ held) : x.block ∈ heldAt held x.lock :=
  List.mem_map_of_mem (List.mem_filter.2 ⟨hx, decide_eq_true rfl⟩)

omit [DecidableEq C] in
/-- Blocks that are apart lock by lock and between the locks are apart. -/
theorem held_pairwise {held : List (Holding C)} {R : Holding C → Holding C → Prop}
    (hsame : ∀ a, (held.filter fun x => x.lock = a).Pairwise R)
    (hother : ∀ x ∈ held, ∀ y ∈ held, x.lock ≠ y.lock → R x y) : held.Pairwise R := by
  induction held with
  | nil => exact List.Pairwise.nil
  | cons x held ih =>
      refine List.pairwise_cons.2 ⟨?_, ih ?_ ?_⟩
      · intro y hy
        by_cases hxy : x.lock = y.lock
        · have hmine := hsame x.lock
          rw [List.filter_cons_of_pos (by simp)] at hmine
          exact (List.pairwise_cons.1 hmine).1 y (List.mem_filter.2 ⟨hy, decide_eq_true hxy.symm⟩)
        · exact hother x List.mem_cons_self y (List.mem_cons_of_mem _ hy) hxy
      · intro a
        exact (hsame a).sublist ((List.sublist_cons_self x held).filter _)
      · intro y hy z hz
        exact hother y (List.mem_cons_of_mem _ hy) z (List.mem_cons_of_mem _ hz)

/-- A block of the zone `i` lies in ranges of the zone and beside the metadata of all zones. -/
structure InZone (cfg : KernelConfig) (config : MemoryConfig) (calls : List ZoneCall) (i : Nat) (x : Holding C) :
    Prop where
  range : ∀ a, a / pageSize ∈ x.pages → ∃ r ∈ config.getRanges, getZoneIndex r.tag = some i ∧ a ∈ r.addrs
  beside : ∀ a, a / pageSize ∈ x.pages →
    ∀ c ∈ calls, ¬ (c.metadata ≤ cfg.virtualBase + a ∧ cfg.virtualBase + a < c.metadata + c.metaSize)

/-- The ledger of the allocator that `init_allocators` has built for a zone. -/
theorem zone_ledger (h : ZoneConfig A cfg config lin high) (hc : ConsistentCalls A cfg config lin high metaBase calls)
    (hzero : ∀ r ∈ config.getRanges, r.base ≠ 0) (hcall : call ∈ calls) {s : State} {a : Nat}
    (hnew : Buddy.new A cfg call.base call.size call.metadata (availRanges call.avail) mem = .ok (some s))
    (hbase : 2 ^ (BLOCK_LEVELS - 1) ∣ s.basePage) (hobj : obj₀ a = .ok s)
    (hrun : (Service.start regs obj₀ : Service C M).Reaches A σ) :
    ∃ t out, Ledger A (availPages (availRanges call.avail)) obj₀ a σ t out := by
  rcases new_spec hnew (hc.avail_disjoint h hcall).pages (hc.zero_not_mem h hzero hcall) with ⟨-, L, hbuilt⟩
  have hsafe : Safe A (availPages (availRanges call.avail)) ⟨s, []⟩ (blocksOf L) [] :=
    ⟨hbuilt.consistent.books, hbuilt.consistent.tiling, hbuilt.cover.subset, rfl, by simp, List.Pairwise.nil⟩
  exact Ledger.run hobj hbase hsafe hrun

/-- From the allocators of `init_allocators` on, and whatever the cores do: no page is in two blocks that are
held, of one zone or of two; and a block of a zone lies in ranges of the zone, beside the metadata of all
allocators. -/
theorem zone_blocks_exclusive (h : ZoneConfig A cfg config lin high) (hzero : ∀ r ∈ config.getRanges, r.base ≠ 0)
    (hcalls : zoneCalls P A cfg config = .ok calls) (hinit : initAllocators P A cfg config mem = .ok allocs)
    (hbase : ∀ p ∈ allocs, 2 ^ (BLOCK_LEVELS - 1) ∣ p.2.basePage)
    (hobj : ∀ p ∈ allocs, obj₀ (lock p.1) = .ok p.2)
    (hrun : (Service.start regs obj₀ : Service C M).Reaches A σ) :
    (σ.held.Pairwise fun x y => (∃ p ∈ allocs, x.lock = lock p.1) → (∃ p ∈ allocs, y.lock = lock p.1) →
      Disjoint x.pages y.pages) ∧
      ∀ x ∈ σ.held, ∀ p ∈ allocs, x.lock = lock p.1 → InZone cfg config calls p.1 x := by
  rcases consistentCalls_of_zoneCalls h hcalls with ⟨metaBase, hc⟩
  have hzone : ∀ p ∈ allocs, ∃ c ∈ calls, p.1 = c.zoneIndex ∧
      ∃ t out, Ledger A (availPages (availRanges c.avail)) obj₀ (lock p.1) σ t out := by
    intro p hp
    rcases initAllocators_mem hinit hcalls hp with ⟨c, hcall, hindex, hnew⟩
    exact ⟨c, hcall, hindex, zone_ledger h hc hzero hcall hnew (hbase p hp) (hobj p hp) hrun⟩
  refine ⟨held_pairwise ?_ ?_, ?_⟩
  · -- Blocks of one lock are apart by its ledger.
    intro a
    by_cases ha : ∃ p ∈ allocs, a = lock p.1
    · rcases ha with ⟨p, hp, rfl⟩
      rcases hzone p hp with ⟨c, -, -, t, out, hledger⟩
      have hapart := hledger.held.1
      rw [heldAt, List.pairwise_map] at hapart
      exact hapart.imp fun hd _ _ => hd
    · refine List.pairwise_of_forall_mem_list ?_
      intro x hx y _ hzx _
      have hxa : x.lock = a := of_decide_eq_true (List.mem_filter.1 hx).2
      rcases hzx with ⟨p, hp, hxp⟩
      exact absurd ⟨p, hp, hxa.symm.trans hxp⟩ ha
  · -- Blocks of two locks are blocks of two zones.
    rintro x hx y hy hne ⟨p, hp, hxp⟩ ⟨p', hp', hyp⟩
    rcases hzone p hp with ⟨c, hcall, hindex, t, out, hledger⟩
    rcases hzone p' hp' with ⟨c', hcall', hindex', t', out', hledger'⟩
    have hindices : c.zoneIndex ≠ c'.zoneIndex := by
      rw [← hindex, ← hindex']
      intro heq
      exact hne (by rw [hxp, hyp, heq])
    rw [← hxp] at hledger
    rw [← hyp] at hledger'
    exact (hc.zones_apart h hcall hcall' hindices).mono (hledger.held.2 _ (mem_heldAt hx))
      (hledger'.held.2 _ (mem_heldAt hy))
  · intro x hx p hp hxp
    rcases hzone p hp with ⟨c, hcall, hindex, t, out, hledger⟩
    rw [← hxp] at hledger
    have hpages := hledger.held.2 _ (mem_heldAt hx)
    rw [hindex]
    refine ⟨?_, ?_⟩
    · intro a ha
      exact (hc.page h hcall (hpages ha)).1
    · intro a ha
      exact (hc.page h hcall (hpages ha)).2

/-- The allocators behind their locks. -/
def zoneObjects (lock : Nat → Nat) (allocs : List (Nat × State)) (a : Nat) : Run State :=
  match allocs.find? fun p => lock p.1 = a with
  | some p => .ok p.2
  | none => .error .index

/-- One core takes a page of linear memory while the other one takes two pages of high memory; the second core
passes its block on. -/
def twoZones : List (Bool × Service.Event Bool Unit) :=
  List.flatten [
    [(false, .world (.core (.call .lock 64 fun _ => 7))), (true, .world (.core (.call .lock 128 fun _ => 7)))],
    List.replicate 9 (false, .world (.core .exec)), List.replicate 9 (true, .world (.core .exec)),
    [(false, .world (.enter 64 (callAtOnce .arm (.allocate 1)))),
      (true, .world (.enter 128 (callAtOnce .arm (.allocate 2)))),
      (true, .world (.access 128)), (false, .world (.access 64)), (false, .world (.finish 64)),
      (true, .world (.finish 128)), (true, .pass false ⟨true, 128, (0x40000000, 2)⟩)]]

def twoZonesLock (z : Nat) : Nat :=
  64 * (z + 1)

def twoZonesConfig : MemoryConfig :=
  ⟨[⟨.linearMemoryZone, 0x400000, 0x8000⟩, ⟨.highMemoryZone, 0x40000000, 0x8000⟩]⟩

theorem zoneObjects_eq {lock : Nat → Nat} (hnodup : (allocs.map fun p => lock p.1).Nodup) (hp : p ∈ allocs) :
    zoneObjects lock allocs (lock p.1) = .ok p.2 := by
  have hfind : allocs.find? (fun p' => lock p'.1 = lock p.1) = some p := by
    induction allocs with
    | nil => cases hp
    | cons p' allocs ih =>
        rw [List.map_cons, List.nodup_cons] at hnodup
        rcases List.mem_cons.1 hp with rfl | hp
        · exact List.find?_cons_of_pos (by simp)
        · have hne : lock p'.1 ≠ lock p.1 := fun heq => hnodup.1 (heq ▸ List.mem_map_of_mem (f := fun p => lock p.1) hp)
          rw [List.find?_cons_of_neg (by simpa using hne)]
          exact ih hnodup.2 hp
  rw [zoneObjects, hfind]

theorem zone_blocks_exclusive_two :
    ∃ (calls : List ZoneCall) (allocs : List (Nat × State)) (σ : Service Bool Unit),
      (Service.start (fun _ _ => 0) (zoneObjects twoZonesLock allocs)).trace .arm twoZones = some σ ∧
      σ.held = [⟨false, 128, (0x40000000, 2)⟩, ⟨false, 64, (0x404000, 1)⟩] ∧
      (σ.held.Pairwise fun x y => (∃ p ∈ allocs, x.lock = twoZonesLock p.1) →
        (∃ p ∈ allocs, y.lock = twoZonesLock p.1) → Disjoint x.pages y.pages) ∧
      ∀ x ∈ σ.held, ∀ p ∈ allocs, x.lock = twoZonesLock p.1 →
        InZone ⟨0x80000000, 0x80000000, 2⟩ twoZonesConfig calls p.1 x := by
  have hmap : (do
      let _ ← zoneCalls .dev .arm ⟨0x80000000, 0x80000000, 2⟩ twoZonesConfig
      let allocs ← initAllocators .dev .arm ⟨0x80000000, 0x80000000, 2⟩ twoZonesConfig fun _ => ⟨0, 0, 0⟩
      let σ ← unwrap ((Service.start (fun _ _ => 0) (zoneObjects twoZonesLock allocs)).trace .arm twoZones)
      return decide ((∀ p ∈ allocs, 2 ^ (BLOCK_LEVELS - 1) ∣ p.2.basePage) ∧
        (allocs.map fun p => twoZonesLock p.1).Nodup ∧
        σ.held = [⟨false, 128, (0x40000000, 2)⟩, ⟨false, 64, (0x404000, 1)⟩]) : Run Bool) = .ok true := by
    decide +kernel
  rcases run_bind_eq_ok.1 hmap with ⟨calls, hcalls, hmap⟩
  rcases run_bind_eq_ok.1 hmap with ⟨allocs, hinit, hmap⟩
  rcases run_bind_eq_ok.1 hmap with ⟨σ, hσ, hmap⟩
  rcases of_decide_eq_true (Except.ok.inj hmap) with ⟨hbase, hnodup, hheld⟩
  have htrace : (Service.start (fun _ _ => 0) (zoneObjects twoZonesLock allocs)).trace .arm twoZones = some σ := by
    cases ho : (Service.start (fun _ _ => 0) (zoneObjects twoZonesLock allocs)).trace .arm twoZones with
    | none =>
        rw [ho] at hσ
        cases hσ
    | some σ' =>
        rw [ho] at hσ
        exact congrArg some (Except.ok.inj hσ)
  have hproper : ∀ p ∈ twoZones, Service.Proper .arm p.2 := by
    simp only [twoZones, List.flatten_cons, List.flatten_nil, List.mem_append, List.mem_cons, List.mem_replicate,
      List.not_mem_nil, or_false]
    rintro p ((rfl | rfl) | ⟨-, rfl⟩ | ⟨-, rfl⟩ | rfl | rfl | rfl | rfl | rfl | rfl | rfl)
    · trivial
    · trivial
    · trivial
    · trivial
    · exact ⟨callAtOnce_implements _ _, show _ < Arch.wordLimit .arm by decide⟩
    · exact ⟨callAtOnce_implements _ _, show _ < Arch.wordLimit .arm by decide⟩
    · trivial
    · trivial
    · trivial
    · trivial
    · trivial
  have hconfig : ZoneConfig .arm ⟨0x80000000, 0x80000000, 2⟩ twoZonesConfig [⟨.linearMemoryZone, 0x400000, 0x8000⟩]
      [⟨.highMemoryZone, 0x40000000, 0x8000⟩] := by
    have hfits : ∀ r ∈ twoZonesConfig.ranges, r.base < Arch.arm.wordLimit ∧ r.base + r.size ≤ Arch.arm.wordLimit := by
      decide +kernel
    constructor
    case apart =>
      refine ⟨⟨⟨?_, ?_, ?_⟩, fun r hr => ⟨(hfits r hr).1, (hfits r hr).2⟩⟩, ?_⟩
      all_goals simp +decide [RangeSet.Before, twoZonesConfig]
    all_goals decide +kernel
  refine ⟨calls, allocs, σ, htrace, hheld, zone_blocks_exclusive hconfig (by decide) hcalls hinit hbase
    (fun p hp => zoneObjects_eq hnodup hp) (Service.reaches_of_trace hproper htrace)⟩

end Mm
end Propeller
