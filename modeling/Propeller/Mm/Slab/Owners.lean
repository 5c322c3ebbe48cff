import Propeller.Mm.Slab.Runs
import Propeller.Mm.Slab.Sharing

/-!
# Slab.Owners — every object and every bundle has one owner

The two results about whole runs of the slab allocator.  In every state that is reached from a new
allocator by steps that share no bundle, every object of its slabs is in exactly one place
(`run_one_place`).  If moreover the page allocator never fails and no full bundle is exchanged, then
every bundle has exactly one reference (`run_owned`).  Both conditions are needed: there are runs on
which two clients hold one object.
-/

namespace Propeller
namespace Slab

variable {A : Arch} {sh shO shB : Shape A} {ly : Layout A} {virtBase n : Nat} {s : SlabAllocator}
  {a b o : Nat} {γ : Layers} {σ σ' : Cores} {c : Contents} {g : SlabManager} {m : Mem}

/-! ## Runs -/

/-- Some sequence of valid events that meet `P` leads from `σ` to `σ'`. -/
def RunIf (ly : Layout A) (virtBase n : Nat) (P : Cores → Event → Prop) : Cores → Cores → Prop :=
  Steps.Reaches (fun σ e => e.Valid ly virtBase n σ ∧ P σ e) (Cores.step ly virtBase)

/-- The events of a run, checked one by one. -/
def trace (ly : Layout A) (virtBase n : Nat) (P : Cores → Event → Prop) [∀ σ e, Decidable (P σ e)] :
    Cores → List Event → Run Cores :=
  Steps.trace .unwrap (fun σ e => e.Valid ly virtBase n σ ∧ P σ e) (Cores.step ly virtBase)

theorem runIf_of_trace {P : Cores → Event → Prop} [∀ σ e, Decidable (P σ e)] {es : List Event}
    (h : trace ly virtBase n P σ es = .ok σ') : RunIf ly virtBase n P σ σ' :=
  Steps.reaches_of_trace h

/-- No core is in a call, and no object and no block has been handed out. -/
def Cores.start (s : SlabAllocator) : Cores :=
  ⟨s, fun _ => .idle, [], []⟩

/-- What `new` returns represents nothing, in any memory. -/
theorem CoresInv.init {maxBlockPages : Nat} {mem : Mem} (virtBase n : Nat)
    (hnew : SlabAllocator.new ly maxBlockPages mem = .ok s) :
    ∃ shO shB : Shape A, shO.toLayout = ly ∧ shB.toLayout = bundleLayout A ∧
      shO.size = s.objAlloc.slabSize ∧ shB.size = s.bundleMgr.bundleAlloc.slabSize ∧
      CoresInv shO shB virtBase n (Cores.start s) ⟨Contents.none, Contents.none, [], []⟩ ∧
      ∀ b, b ≠ 0 → refCount s n [] [] b = 0 := by
  rcases run_bind_eq_ok.1 hnew with ⟨objAlloc, hobj, hnew⟩
  rcases run_bind_eq_ok.1 hnew with ⟨bundleAlloc, hbundle, hnew⟩
  obtain rfl := Except.ok.inj hnew
  rcases SysInv.init virtBase mem hobj with ⟨shO, hlyO, hsizeO, hinvO⟩
  rcases SysInv.init virtBase mem hbundle with ⟨shB, hlyB, hsizeB, hinvB⟩
  have hheld : ∀ a, ¬ Contents.none.Holds a := by
    rintro a ⟨k, hk⟩
    exact absurd hk List.not_mem_nil
  have hrefs : ∀ b, b ≠ 0 → CoreCache.new.refs b = 0 := by
    intro b hb
    have hnot : ¬ 0 = b := hb.symm
    simp [CoreCache.refs, CoreCache.new, hnot]
  have hcount : ∀ b, b ≠ 0 →
      refCount ⟨fun _ => CoreCache.new, objAlloc, ⟨bundleAlloc, 0, 0⟩, mem⟩ n [] [] b = 0 := by
    intro b hb
    simp [refCount, hrefs b hb]
  -- Nothing is held and no bundle is referenced, so most parts say nothing.
  refine ⟨shO, shB, hlyO, hlyB, hsizeO, hsizeB, ⟨⟨⟨hinvO.inv, hinvB.inv, ?_, ?_, ?_⟩, ?_⟩, ?_, ?_⟩,
    hcount⟩
  · intro a b ha
    exact absurd ha (hheld a)
  · intro a ha
    exact absurd ha (hheld a)
  · intro a ha
    exact absurd ha (hheld a)
  · refine ⟨rfl, rfl, fun b hb => (hcount b hb).le, ?_, ?_⟩
    · intro i hi b hb href
      exact absurd (hrefs b hb) href.ne'
    · intro i hi
      exact ⟨Nat.zero_le _, Nat.zero_le _, fun _ => rfl, fun _ => rfl⟩
  · intro i hi
    trivial
  · intro o
    simp [Cores.start, inHand, Pc.objs, storedCount, CoreCache.objs, CoreCache.new, slots_zero, fullObjs,
      Contents.none]

/-- The invariant holds along runs. -/
theorem CoresInv.run {P : Cores → Event → Prop} (h : CoresInv shO shB virtBase n σ γ)
    (hB : shB.toLayout = bundleLayout A) (hbaseO : shO.size ∣ virtBase) (hbaseB : shB.size ∣ virtBase)
    (hP : ∀ σ e, P σ e → e.Unshared σ) (hrun : RunIf shO.toLayout virtBase n P σ σ') :
    ∃ γ', CoresInv shO shB virtBase n σ' γ' := by
  have hkeeps : Steps.Keeps (fun σ e => e.Valid shO.toLayout virtBase n σ ∧ P σ e) (Cores.step shO.toLayout virtBase)
      fun σ => ∃ γ, CoresInv shO shB virtBase n σ γ := by
    rintro σ e ⟨γ₁, h₁⟩ ⟨hvalid, hcond⟩
    rcases h₁.step hB hbaseO hbaseB hvalid (hP _ e hcond) with ⟨σ₂, γ₂, hstep, h₂, -⟩
    exact ⟨σ₂, hstep, γ₂, h₂⟩
  exact hkeeps.run hrun ⟨γ, h⟩

/-- So do the numbers of references, if no full bundle is exchanged. -/
theorem CoresInv.run_refs {P : Cores → Event → Prop} (h : CoresInv shO shB virtBase n σ γ)
    (hB : shB.toLayout = bundleLayout A) (hbaseO : shO.size ∣ virtBase) (hbaseB : shB.size ∣ virtBase)
    (hP : ∀ σ e, P σ e → e.Unshared σ ∧ e.NoFullExchange σ)
    (hrefs : ∀ b, b ≠ 0 → refCount σ.alloc n γ.empty γ.full b = γ.bundles.out.count b)
    (hrun : RunIf shO.toLayout virtBase n P σ σ') :
    ∃ γ', CoresInv shO shB virtBase n σ' γ' ∧
      ∀ b, b ≠ 0 → refCount σ'.alloc n γ'.empty γ'.full b = γ'.bundles.out.count b := by
  have hkeeps : Steps.Keeps (fun σ e => e.Valid shO.toLayout virtBase n σ ∧ P σ e) (Cores.step shO.toLayout virtBase)
      fun σ => ∃ γ, CoresInv shO shB virtBase n σ γ ∧
        ∀ b, b ≠ 0 → refCount σ.alloc n γ.empty γ.full b = γ.bundles.out.count b := by
    rintro σ e ⟨γ₁, h₁, hrefs₁⟩ ⟨hvalid, hcond⟩
    rcases h₁.step hB hbaseO hbaseB hvalid (hP _ e hcond).1 with ⟨σ₂, γ₂, hstep, h₂, hkeep⟩
    refine ⟨σ₂, hstep, γ₂, h₂, ?_⟩
    intro b hb
    have hb₁ := hrefs₁ b hb
    have hb₂ := hkeep (hP _ e hcond).2 b hb
    omega
  exact hkeeps.run hrun ⟨γ, h, hrefs⟩

/-! ## Objects -/

/-- The number of places where the object `o` is: with clients, in the hands of cores, in bundles, and in
the slabs. -/
def places (A : Arch) (n : Nat) (σ : Cores) (c : Contents) (fs : List Nat) (o : Nat) : Nat :=
  σ.held.count o + inHand n σ.pc o + storedCount A σ.alloc n fs o + (c.all.flatMap c.free).count o

/-- Every object of the slabs is in one place, and nothing else is in any. -/
structure OnePlace (sh : Shape A) (n : Nat) (σ : Cores) (c : Contents) (fs : List Nat) : Prop where
  objAlloc : Inv sh σ.alloc.objAlloc σ.alloc.mem c
  full : Chain (BUNDLE_SIZE * A.wordBytes) σ.alloc.mem σ.alloc.bundleMgr.full fs
  object : ∀ a, c.Holds a → ∀ o ∈ objects sh a, places A n σ c fs o = 1
  other : ∀ o, (∀ a, c.Holds a → o ∉ objects sh a) → places A n σ c fs o = 0

/-- No object is on two free lists. -/
theorem Core.free_nodup (h : Core sh g m c) : (c.all.flatMap c.free).Nodup := by
  refine List.nodup_flatMap.2 ⟨?_, ?_⟩
  · intro a ha
    exact (h.free a (Contents.mem_all.1 ha)).nodup
  · refine h.all_nodup.pairwise_of_forall_ne ?_
    intro a ha b hb hne o hoa hob
    have hHa := Contents.mem_all.1 ha
    have hHb := Contents.mem_all.1 hb
    exact hne ((h.site hHa).eq_of_object (h.site hHb) ((h.free a hHa).sub hoa) ((h.free b hHb).sub hob))

/-- An object is out or on a free list. -/
theorem Core.count_object (h : Core sh g m c) (ha : c.Holds a) (ho : o ∈ objects sh a) :
    c.out.count o + (c.all.flatMap c.free).count o = 1 := by
  -- An object of a slab can only be on the free list of this slab.
  have hfree : o ∈ c.all.flatMap c.free ↔ o ∈ c.free a := by
    rw [List.mem_flatMap]
    constructor
    · rintro ⟨b, hb, hob⟩
      have hHb := Contents.mem_all.1 hb
      have hba := (h.site hHb).eq_of_object (h.site ha) ((h.free b hHb).sub hob) ho
      exact hba ▸ hob
    · intro hoa
      exact ⟨a, Contents.mem_all.2 ha, hoa⟩
  have hout : o ∈ c.out ↔ o ∉ c.free a := by
    rw [h.out_iff]
    constructor
    · rintro ⟨b, hb, hob, hnot⟩
      have hba := (h.site hb).eq_of_object (h.site ha) hob ho
      exact hba ▸ hnot
    · intro hnot
      exact ⟨a, ha, ho, hnot⟩
  -- It is on the free list or out, and not both.
  by_cases hoa : o ∈ c.free a
  · rw [List.count_eq_zero.2 (fun hin => hout.1 hin hoa),
      List.count_eq_one_of_mem h.free_nodup (hfree.2 hoa)]
  · rw [List.count_eq_one_of_mem h.out_nodup (hout.2 hoa),
      List.count_eq_zero.2 (fun hin => hoa (hfree.1 hin))]

theorem Core.count_other (h : Core sh g m c) (ho : ∀ a, c.Holds a → o ∉ objects sh a) :
    c.out.count o + (c.all.flatMap c.free).count o = 0 := by
  have hout : o ∉ c.out := by
    intro hin
    rcases (h.out_iff o).1 hin with ⟨a, ha, hoa, -⟩
    exact ho a ha hoa
  have hfree : o ∉ c.all.flatMap c.free := by
    intro hin
    rcases List.mem_flatMap.1 hin with ⟨a, ha, hoa⟩
    have hHa := Contents.mem_all.1 ha
    exact ho a hHa ((h.free a hHa).sub hoa)
  rw [List.count_eq_zero.2 hout, List.count_eq_zero.2 hfree]

theorem CoresInv.onePlace (h : CoresInv shO shB virtBase n σ γ) :
    OnePlace shO n σ γ.objs γ.full := by
  refine ⟨h.inv.world.objs, h.inv.bundles.full, ?_, ?_⟩
  · intro a ha o ho
    rw [places, h.objs o]
    exact h.inv.world.objs.core.count_object ha ho
  · intro o ho
    rw [places, h.objs o]
    exact h.inv.world.objs.core.count_other ho

/-- No two clients hold one object. -/
theorem CoresInv.held_nodup (h : CoresInv shO shB virtBase n σ γ) : σ.held.Nodup := by
  rw [List.nodup_iff_count_le_one]
  intro o
  have hcount := h.objs o
  have hone := List.nodup_iff_count_le_one.1 h.inv.world.objs.core.out_nodup o
  omega

/-- In every state that is reached from `new` by steps that share no bundle, every object is in exactly
one place and no two clients hold one object; and every further such step returns. -/
theorem run_one_place {maxBlockPages : Nat} {mem : Mem}
    (hnew : SlabAllocator.new ly maxBlockPages mem = .ok s)
    (hbaseO : s.objAlloc.slabSize ∣ virtBase)
    (hbaseB : s.bundleMgr.bundleAlloc.slabSize ∣ virtBase)
    (hrun : RunIf ly virtBase n (fun σ e => e.Unshared σ) (Cores.start s) σ) :
    ∃ sh : Shape A, sh.toLayout = ly ∧ (∃ c fs, OnePlace sh n σ c fs) ∧ σ.held.Nodup ∧
      ∀ e : Event, e.Valid ly virtBase n σ → e.Unshared σ → ∃ σ', σ.step ly virtBase e = .ok σ' := by
  rcases CoresInv.init virtBase n hnew with ⟨shO, shB, rfl, hlyB, hsizeO, hsizeB, h₀, -⟩
  rw [← hsizeO] at hbaseO
  rw [← hsizeB] at hbaseB
  rcases h₀.run hlyB hbaseO hbaseB (fun _ _ hcond => hcond) hrun with ⟨γ, h⟩
  refine ⟨shO, rfl, ⟨γ.objs, γ.full, h.onePlace⟩, h.held_nodup, ?_⟩
  intro e hvalid hcond
  rcases h.step hlyB hbaseO hbaseB hvalid hcond with ⟨σ', -, hstep, -⟩
  exact ⟨σ', hstep⟩

/-- Objects of 104 bytes on AArch64: 36 of them fit in a page. -/
def smallLayout : Layout .aarch64 :=
  ⟨112, 104, by decide, by decide, by decide⟩

/-- A call of `alloc_internal` on core `i`, without help from the page allocator. -/
def allocCall (i : Nat) : List Event :=
  .callAlloc i :: List.replicate 5 (.run i none)

/-- A call of `free_internal` on core `i`, without help from the page allocator. -/
def freeCall (i objAddr : Nat) : List Event :=
  .callFree i objAddr :: List.replicate 4 (.run i none)

/-- The first allocation; a page becomes the first slab of bundles and another one that of objects. -/
def firstCall : List Event :=
  [.callAlloc 0, .run 0 (some 0x1000), .run 0 none, .run 0 none, .run 0 none, .run 0 (some 0x2000)]

/-- The object `k` of the slab at `0x2000`. -/
def smallObject (k : Nat) : Nat :=
  0xffff000000002000 + k * 112

/-- One core allocates 33 objects, frees them all, and allocates 18 of them again. -/
def busyCore : List Event :=
  firstCall ++ (List.range 32).flatMap (fun _ => allocCall 0) ++
    (List.range 33).flatMap (fun k => freeCall 0 (smallObject (35 - k))) ++
    (List.range 18).flatMap (fun _ => allocCall 0)

/-- An object is allocated and freed. -/
theorem run_one_place_free :
    ∃ s σ, SlabAllocator.new smallLayout 1024 (fun _ => 0) = .ok s ∧
      RunIf smallLayout 0xffff000000000000 1 (fun σ e => e.Unshared σ) (Cores.start s) σ ∧
      σ.held = [] ∧
      ∃ sh : Shape .aarch64, sh.toLayout = smallLayout ∧ (∃ c fs, OnePlace sh 1 σ c fs) ∧
        σ.held.Nodup ∧ ∀ e : Event, e.Valid smallLayout 0xffff000000000000 1 σ → e.Unshared σ →
          ∃ σ', σ.step smallLayout 0xffff000000000000 e = .ok σ' := by
  have hmap : (do
      let s ← SlabAllocator.new smallLayout 1024 (fun _ => 0)
      let σ ← trace smallLayout 0xffff000000000000 1 (fun σ e => e.Unshared σ) (Cores.start s)
        (firstCall ++ freeCall 0 (smallObject 35))
      return (s.objAlloc.slabSize, s.bundleMgr.bundleAlloc.slabSize, σ.held) :
        Run (Nat × Nat × List Nat)) = .ok (4096, 4096, []) := by
    decide +kernel
  obtain ⟨s, hnew, hmap⟩ := run_bind_eq_ok.1 hmap
  obtain ⟨σ, htrace, hmap⟩ := run_bind_eq_ok.1 hmap
  obtain ⟨hsizeO, hmap⟩ := Prod.mk.inj (Except.ok.inj hmap)
  obtain ⟨hsizeB, hheld⟩ := Prod.mk.inj hmap
  have hrun := runIf_of_trace htrace
  refine ⟨s, σ, hnew, hrun, hheld, run_one_place hnew ?_ ?_ hrun⟩
  · rw [hsizeO]
    decide
  · rw [hsizeB]
    decide

/-- Core 1 gets the bundle that core 0 has as its standby bundle.  Both fill it, and then both allocate
the object 19. -/
theorem run_allocates_twice :
    ∃ s σ, SlabAllocator.new smallLayout 1024 (fun _ => 0) = .ok s ∧
      RunIf smallLayout 0xffff000000000000 2 (fun _ _ => True) (Cores.start s) σ ∧
      σ.held.count (smallObject 19) = 2 ∧ ¬ σ.held.Nodup := by
  have hmap : (do
      let s ← SlabAllocator.new smallLayout 1024 (fun _ => 0)
      let σ ← trace smallLayout 0xffff000000000000 2 (fun _ _ => True) (Cores.start s)
        (busyCore ++ allocCall 1 ++ freeCall 1 (smallObject 2) ++ freeCall 0 (smallObject 20) ++
          freeCall 0 (smallObject 19) ++ allocCall 1 ++ allocCall 0)
      return σ.held.count (smallObject 19) : Run Nat) = .ok 2 := by
    decide +kernel
  obtain ⟨s, hnew, hmap⟩ := run_bind_eq_ok.1 hmap
  obtain ⟨σ, htrace, hmap⟩ := run_bind_eq_ok.1 hmap
  have hcount := Except.ok.inj hmap
  refine ⟨s, σ, hnew, runIf_of_trace htrace, hcount, ?_⟩
  intro hnodup
  have hle := List.nodup_iff_count_le_one.1 hnodup (smallObject 19)
  omega

/-! ## Bundles -/

/-- Every bundle that was allocated has one reference, and nothing else has any. -/
structure Owned (sh : Shape A) (n : Nat) (σ : Cores) (c : Contents) (es fs : List Nat) : Prop where
  bundleAlloc : Inv sh σ.alloc.bundleMgr.bundleAlloc σ.alloc.mem c
  empty : Chain (BUNDLE_SIZE * A.wordBytes) σ.alloc.mem σ.alloc.bundleMgr.empty es
  full : Chain (BUNDLE_SIZE * A.wordBytes) σ.alloc.mem σ.alloc.bundleMgr.full fs
  refs : ∀ b, b ≠ 0 → refCount σ.alloc n es fs b = if b ∈ c.out then 1 else 0

/-- The run meets the condition that keeps every bundle with one owner. -/
def Event.Exclusive (σ : Cores) (e : Event) : Prop :=
  e.NeverFails σ ∧ e.NoFullExchange σ

instance (σ : Cores) (e : Event) : Decidable (e.Exclusive σ) :=
  inferInstanceAs (Decidable (e.NeverFails σ ∧ e.NoFullExchange σ))

/-- In every state that is reached from `new` while the page allocator never fails and no full bundle is
exchanged, every bundle has exactly one reference. -/
theorem run_owned {maxBlockPages : Nat} {mem : Mem}
    (hnew : SlabAllocator.new ly maxBlockPages mem = .ok s)
    (hbaseO : s.objAlloc.slabSize ∣ virtBase)
    (hbaseB : s.bundleMgr.bundleAlloc.slabSize ∣ virtBase)
    (hrun : RunIf ly virtBase n (fun σ e => e.Exclusive σ) (Cores.start s) σ) :
    ∃ sh : Shape A, sh.toLayout = bundleLayout A ∧ ∃ c es fs, Owned sh n σ c es fs := by
  rcases CoresInv.init virtBase n hnew with ⟨shO, shB, rfl, hlyB, hsizeO, hsizeB, h₀, hrefs₀⟩
  rw [← hsizeO] at hbaseO
  rw [← hsizeB] at hbaseB
  rcases h₀.run_refs hlyB hbaseO hbaseB
    (fun _ _ hcond => ⟨Event.unshared_of_neverFails hcond.1 hcond.2, hcond.2⟩) hrefs₀ hrun with
    ⟨γ, h, hrefs⟩
  refine ⟨shB, hlyB, γ.bundles, γ.empty, γ.full, h.inv.world.bundles, h.inv.bundles.empty,
    h.inv.bundles.full, ?_⟩
  intro b hb
  rw [hrefs b hb]
  split
  · exact List.count_eq_one_of_mem h.inv.nodup ‹_›
  · exact List.count_eq_zero.2 ‹_›

/-- An object is allocated. -/
theorem run_owned_first :
    ∃ s σ, SlabAllocator.new smallLayout 1024 (fun _ => 0) = .ok s ∧
      RunIf smallLayout 0xffff000000000000 1 (fun σ e => e.Exclusive σ) (Cores.start s) σ ∧
      (σ.alloc.cache 0).current = 0xffff000000001f30 ∧
      ∃ sh : Shape .aarch64, sh.toLayout = bundleLayout .aarch64 ∧
        ∃ c es fs, Owned sh 1 σ c es fs := by
  have hmap : (do
      let s ← SlabAllocator.new smallLayout 1024 (fun _ => 0)
      let σ ← trace smallLayout 0xffff000000000000 1 (fun σ e => e.Exclusive σ) (Cores.start s)
        firstCall
      return (s.objAlloc.slabSize, s.bundleMgr.bundleAlloc.slabSize, (σ.alloc.cache 0).current) :
        Run (Nat × Nat × Nat)) = .ok (4096, 4096, 0xffff000000001f30) := by
    decide +kernel
  obtain ⟨s, hnew, hmap⟩ := run_bind_eq_ok.1 hmap
  obtain ⟨σ, htrace, hmap⟩ := run_bind_eq_ok.1 hmap
  obtain ⟨hsizeO, hmap⟩ := Prod.mk.inj (Except.ok.inj hmap)
  obtain ⟨hsizeB, hcurrent⟩ := Prod.mk.inj hmap
  have hrun := runIf_of_trace htrace
  refine ⟨s, σ, hnew, hrun, hcurrent, run_owned hnew ?_ ?_ hrun⟩
  · rw [hsizeO]
    decide
  · rw [hsizeB]
    decide

/-- The standby bundle of core 0 is on the manager's empty list as well. -/
theorem run_shares_bundle :
    ∃ s σ, SlabAllocator.new smallLayout 1024 (fun _ => 0) = .ok s ∧
      RunIf smallLayout 0xffff000000000000 1 (fun σ e => e.NeverFails σ) (Cores.start s) σ ∧
      ∀ sh : Shape .aarch64, ¬ ∃ c es fs, Owned sh 1 σ c es fs := by
  have hmap : (do
      let s ← SlabAllocator.new smallLayout 1024 (fun _ => 0)
      let σ ← trace smallLayout 0xffff000000000000 1 (fun σ e => e.NeverFails σ) (Cores.start s)
        busyCore
      return ((σ.alloc.cache 0).standby, σ.alloc.bundleMgr.empty) : Run (Nat × Nat)) =
        .ok (0xffff000000001ea0, 0xffff000000001ea0) := by
    decide +kernel
  obtain ⟨s, hnew, hmap⟩ := run_bind_eq_ok.1 hmap
  obtain ⟨σ, htrace, hmap⟩ := run_bind_eq_ok.1 hmap
  obtain ⟨hstandby, hempty⟩ := Prod.mk.inj (Except.ok.inj hmap)
  refine ⟨s, σ, hnew, runIf_of_trace htrace, ?_⟩
  rintro sh ⟨c, es, fs, h⟩
  -- A bundle with one owner has one reference, and this one has two.
  have hone : refCount σ.alloc 1 es fs 0xffff000000001ea0 ≤ 1 := by
    rw [h.refs _ (by decide)]
    split <;> decide
  have hcore : 0 < (σ.alloc.cache 0).refs 0xffff000000001ea0 :=
    hstandby ▸ (σ.alloc.cache 0).refs_standby
  have hlist : 0 < es.count 0xffff000000001ea0 := by
    have hchain := h.empty
    rw [hempty] at hchain
    cases es with
    | nil => exact absurd hchain (by simp [Chain])
    | cons b es =>
        obtain rfl := hchain.1
        simp
  have hsum := le_sum_core (f := fun j => (σ.alloc.cache j).refs 0xffff000000001ea0) Nat.zero_lt_one
  rw [refCount] at hone
  omega

end Slab
end Propeller
