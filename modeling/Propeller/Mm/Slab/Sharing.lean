import Mathlib.Logic.Relation
import Propeller.Mm.Slab.Steps

/-!
# Slab.Sharing — all cores together

The cores of a slab allocator run their calls in any order, one step at a time.  `CoresInv` is the
invariant: no bundle and no object is in two places.  Two steps can break it, and `Event.Unshared`
excludes them: case 3 of `alloc_internal` gives the current bundle to the manager and keeps it as the
standby bundle, and case 3 of `free_internal` does so with the standby bundle if the manager has no
empty bundle and cannot allocate one.
-/

namespace Propeller
namespace Slab

variable {A : Arch} {shO shB : Shape A} {ly : Layout A} {virtBase n : Nat} {s : SlabAllocator}
  {regions : List (Nat × Nat)} {b i o x : Nat} {grant : Option Nat} {γ : Layers} {pc : Pc}
  {σ σ' : Cores} {e : Event}

/-! ## Conditions on steps -/

/-- A core that gives a bundle to the manager does not keep it. -/
def Unshared (s : SlabAllocator) (i : Nat) (grant : Option Nat) : Pc → Prop
  | .allocExchange => s.bundleMgr.full ≠ 0 → (s.cache i).current = 0
  | .freeExchange _ => (s.cache i).standby ≠ 0 → s.bundleMgr.request ≠ none → grant ≠ none
  | _ => True

instance (s : SlabAllocator) (i : Nat) (grant : Option Nat) (pc : Pc) :
    Decidable (Unshared s i grant pc) :=
  match pc with
  | .allocExchange => inferInstanceAs (Decidable (s.bundleMgr.full ≠ 0 → (s.cache i).current = 0))
  | .freeExchange _ => inferInstanceAs
      (Decidable ((s.cache i).standby ≠ 0 → s.bundleMgr.request ≠ none → grant ≠ none))
  | .idle | .allocCurrent | .allocStandby | .allocCases | .allocDirect => isTrue trivial
  | .freeCases _ | .freeRelease _ | .freeDirect _ => isTrue trivial

def Event.Unshared (σ : Cores) : Event → Prop
  | .run i grant => Slab.Unshared σ.alloc i grant (σ.pc i)
  | _ => True

instance (σ : Cores) (e : Event) : Decidable (e.Unshared σ) :=
  match e with
  | .run i grant => inferInstanceAs (Decidable (Slab.Unshared σ.alloc i grant (σ.pc i)))
  | .callAlloc _ | .callFree _ _ | .write _ _ _ => isTrue trivial

/-- No core is before case 3 of `alloc_internal` while the manager has a full bundle. -/
def Event.NoFullExchange (σ : Cores) : Event → Prop
  | .run i _ => σ.pc i = .allocExchange → σ.alloc.bundleMgr.full = 0
  | _ => True

instance (σ : Cores) (e : Event) : Decidable (e.NoFullExchange σ) :=
  match e with
  | .run i _ => inferInstanceAs
      (Decidable (σ.pc i = .allocExchange → σ.alloc.bundleMgr.full = 0))
  | .callAlloc _ | .callFree _ _ | .write _ _ _ => isTrue trivial

/-- The page allocator answers every request with a block. -/
def Event.NeverFails (σ : Cores) : Event → Prop
  | .run i grant => σ.alloc.request i (σ.pc i) ≠ none → grant ≠ none
  | _ => True

instance (σ : Cores) (e : Event) : Decidable (e.NeverFails σ) :=
  match e with
  | .run i grant => inferInstanceAs (Decidable (σ.alloc.request i (σ.pc i) ≠ none → grant ≠ none))
  | .callAlloc _ | .callFree _ _ | .write _ _ _ => isTrue trivial

theorem Event.unshared_of_neverFails (hfails : e.NeverFails σ) (hfull : e.NoFullExchange σ) :
    e.Unshared σ := by
  cases e with
  | callAlloc i => trivial
  | callFree i objAddr => trivial
  | write objAddr addr word => trivial
  | run i grant =>
      show Slab.Unshared σ.alloc i grant (σ.pc i)
      simp only [Event.NeverFails, Event.NoFullExchange] at hfails hfull
      cases hpc : σ.pc i with
      | allocExchange => exact fun hne => absurd (hfull hpc) hne
      | freeExchange objAddr =>
          rw [hpc] at hfails
          exact fun _ => hfails
      | idle => trivial
      | allocCurrent => trivial
      | allocStandby => trivial
      | allocCases => trivial
      | allocDirect => trivial
      | freeCases objAddr => trivial
      | freeRelease objAddr => trivial
      | freeDirect objAddr => trivial

/-! ## One step -/

theorem AllocInv.object_ne_zero (h : AllocInv shO shB virtBase n s regions γ)
    (ho : o ∈ γ.objs.out) : o ≠ 0 := by
  rcases (h.world.objs.core.out_iff o).1 ho with ⟨a, ha, hoa, -⟩
  exact (h.world.objs.core.site ha).object_ne_zero hoa

/-- Every step of a core returns and advances the allocator. -/
theorem coreStep_spec (h : AllocInv shO shB virtBase n s regions γ)
    (hB : shB.toLayout = bundleLayout A) (hbaseO : shO.size ∣ virtBase) (hbaseB : shB.size ∣ virtBase)
    (hi : i < n) (hpc : PcOk (s.cache i) pc) (hin : ∀ o ∈ pc.objs, o ∈ γ.objs.out)
    (hgrant : ∀ size ∈ s.request i pc, ∀ p ∈ grant, RegionOk A virtBase regions size p)
    (hcond : Unshared s i grant pc) :
    ∃ r γ', coreStep shO.toLayout virtBase grant i s pc = .ok r ∧
      Advance shO shB virtBase n i s γ pc r ((answer (s.request i pc) grant).toList ++ regions) γ' := by
  -- One lemma for each place in the two calls.
  cases pc with
  | idle => exact ⟨_, γ, rfl, h.advance_skip rfl trivial⟩
  | allocCurrent => exact h.allocCurrent hB hbaseB hi _ hgrant
  | allocStandby => exact h.allocStandby hB hbaseB hi _ hgrant
  | allocCases =>
      rcases h.allocCases hi shO.toLayout with ⟨r, hrun, hadv⟩
      exact ⟨r, γ, hrun, hadv⟩
  | allocExchange => exact h.allocExchange hB hi _ hpc hcond
  | allocDirect => exact h.allocDirect hB hbaseO i hgrant
  | freeCases o =>
      have ho := hin o List.mem_cons_self
      rcases h.freeCases hB hi shO.toLayout (h.object_ne_zero ho) with ⟨r, hrun, hadv⟩
      exact ⟨r, γ, hrun, hadv⟩
  | freeExchange o => exact h.freeExchange hB hbaseB hi _ hpc hgrant hcond
  | freeRelease o =>
      rcases h.freeRelease hB hi shO.toLayout o with ⟨r, hrun, hadv⟩
      exact ⟨r, γ, hrun, hadv⟩
  | freeDirect o => exact h.freeDirect hB i (hin o List.mem_cons_self)

/-! ## The invariant of the cores -/

/-- The number of cores that have the object `o` in hand. -/
def inHand (n : Nat) (pc : Nat → Pc) (o : Nat) : Nat :=
  ∑ i ∈ Finset.range n, (pc i).objs.count o

/-- The allocator represents `γ`, and every object that is out is with a client, in hand, or stored. -/
structure CoresInv (shO shB : Shape A) (virtBase n : Nat) (σ : Cores) (γ : Layers) : Prop where
  inv : AllocInv shO shB virtBase n σ.alloc σ.regions γ
  pcs : ∀ i < n, PcOk (σ.alloc.cache i) (σ.pc i)
  objs : ∀ o, σ.held.count o + inHand n σ.pc o + storedCount A σ.alloc n γ.full o = γ.objs.out.count o

theorem inHand_update (hi : i < n) (pc : Nat → Pc) (pc' : Pc) (o : Nat) :
    inHand n (Function.update pc i pc') o + (pc i).objs.count o =
      inHand n pc o + pc'.objs.count o := by
  have hsum := sum_update_core (f := fun j => (pc j).objs.count o)
    (g := fun j => ((Function.update pc i pc') j).objs.count o) hi fun j _ hj => by
      rw [Function.update_of_ne hj]
  simp only [Function.update_self] at hsum
  exact hsum

namespace CoresInv

theorem mem_out_of_held (h : CoresInv shO shB virtBase n σ γ) (ho : o ∈ σ.held) :
    o ∈ γ.objs.out := by
  have hcount := h.objs o
  have hpos := List.count_pos_iff.2 ho
  exact List.count_pos_iff.1 (by omega)

theorem mem_out_of_pc (h : CoresInv shO shB virtBase n σ γ) (hi : i < n)
    (ho : o ∈ (σ.pc i).objs) : o ∈ γ.objs.out := by
  have hcount := h.objs o
  have hpos := List.count_pos_iff.2 ho
  have hle := le_sum_core (f := fun j => (σ.pc j).objs.count o) hi
  rw [inHand] at hcount
  exact List.count_pos_iff.1 (by omega)

/-- A core enters a call. -/
theorem enter (h : CoresInv shO shB virtBase n σ γ) (hi : i < n) (hidle : σ.pc i = .idle) {pc' : Pc}
    {held' : List Nat} (hpc : PcOk (σ.alloc.cache i) pc')
    (hheld : ∀ o, held'.count o + pc'.objs.count o = σ.held.count o) :
    CoresInv shO shB virtBase n { σ with pc := Function.update σ.pc i pc', held := held' } γ := by
  refine ⟨h.inv, ?_, ?_⟩
  · intro j hj
    by_cases hji : j = i
    · subst hji
      simp only [Function.update_self]
      exact hpc
    · simp only [Function.update_of_ne hji]
      exact h.pcs j hj
  · intro o
    have hcount := h.objs o
    have hsum := inHand_update hi σ.pc pc' o
    have ho := hheld o
    have hnil : Pc.idle.objs = [] := rfl
    rw [hidle, hnil, List.count_nil] at hsum
    simp only
    omega

/-- A core makes a step. -/
theorem advance (h : CoresInv shO shB virtBase n σ γ) (hi : i < n) {r : Outcome}
    {regions' : List (Nat × Nat)} {γ' : Layers}
    (hadv : Advance shO shB virtBase n i σ.alloc γ (σ.pc i) r regions' γ') :
    CoresInv shO shB virtBase n
      ⟨r.alloc, Function.update σ.pc i r.pc, r.obj.toList ++ σ.held, regions'⟩ γ' := by
  refine ⟨hadv.inv, ?_, ?_⟩
  · intro j hj
    by_cases hji : j = i
    · subst hji
      simp only [Function.update_self]
      exact hadv.pcOk
    · simp only [Function.update_of_ne hji, hadv.others j hji]
      exact h.pcs j hj
  · intro o
    have hcount := h.objs o
    have hsum := inHand_update hi σ.pc r.pc o
    have hadv' := hadv.objs o
    simp only [List.count_append]
    omega

/-- A word changes that is no metadata and in no slot. -/
theorem writeWord (h : CoresInv shO shB virtBase n σ γ) (hmetaO : ¬ IsMeta shO γ.objs x)
    (hmetaB : ¬ IsMeta shB γ.bundles x)
    (hslot : ∀ b ∈ γ.bundles.out, ∀ j ≤ BUNDLE_SIZE, slotAddr A b j ≠ x) (word : Nat) :
    CoresInv shO shB virtBase n
      { σ with alloc := { σ.alloc with mem := Function.update σ.alloc.mem x word } } γ := by
  have hkept : ∀ b ∈ γ.bundles.out, ∀ j ≤ BUNDLE_SIZE,
      Function.update σ.alloc.mem x word (slotAddr A b j) = σ.alloc.mem (slotAddr A b j) :=
    fun b hb j hj => Function.update_of_ne (hslot b hb j hj) _ _
  refine ⟨⟨h.inv.world.write ⟨hmetaO, hmetaB⟩, ?_⟩, h.pcs, ?_⟩
  · exact h.inv.bundles.congr rfl rfl rfl fun b hb => hkept b hb _ (Nat.le_refl _)
  · intro p
    have hstored := h.inv.bundles.storedCount_congr (o := p)
      (t := { σ.alloc with mem := Function.update σ.alloc.mem x word })
      (fun b hb j hj => hkept b hb j hj.le) rfl
    rw [← h.objs p]
    exact congrArg (σ.held.count p + inHand n σ.pc p + ·) hstored

/-- A client writes to an object it holds. -/
theorem write (h : CoresInv shO shB virtBase n σ γ) (hB : shB.toLayout = bundleLayout A)
    (ho : o ∈ σ.held) (hlo : o ≤ x) (hhi : x < o + shO.objSize) (hne : x ≠ o + shO.nextOff)
    (word : Nat) :
    CoresInv shO shB virtBase n
      { σ with alloc := { σ.alloc with mem := Function.update σ.alloc.mem x word } } γ := by
  rcases h.inv.world.object_word (h.mem_out_of_held ho) hlo hhi hne with ⟨hmetaO, hmetaB, hslot⟩
  exact h.writeWord hmetaO hmetaB (fun b hb j hj => hslot b hb j hj hB) word

/-- Every valid event that shares no bundle returns and keeps the invariant; if no full bundle is
exchanged, then no bundle gains or loses a reference. -/
theorem step (h : CoresInv shO shB virtBase n σ γ) (hB : shB.toLayout = bundleLayout A)
    (hbaseO : shO.size ∣ virtBase) (hbaseB : shB.size ∣ virtBase)
    (hvalid : e.Valid shO.toLayout virtBase n σ) (hcond : e.Unshared σ) :
    ∃ σ' γ', σ.step shO.toLayout virtBase e = .ok σ' ∧ CoresInv shO shB virtBase n σ' γ' ∧
      (e.NoFullExchange σ → ∀ b, b ≠ 0 →
        refCount σ'.alloc n γ'.empty γ'.full b + γ.bundles.out.count b =
          refCount σ.alloc n γ.empty γ.full b + γ'.bundles.out.count b) := by
  cases e with
  | callAlloc i =>
      rcases hvalid with ⟨hi, hidle⟩
      exact ⟨_, γ, rfl, h.enter hi hidle trivial fun o => rfl, fun _ b _ => rfl⟩
  | callFree i objAddr =>
      rcases hvalid with ⟨hi, hidle, hmem⟩
      refine ⟨_, γ, rfl, h.enter hi hidle trivial fun o => ?_, fun _ b _ => rfl⟩
      -- The object goes from the client into the hands of the core.
      have hperm := (List.perm_cons_erase hmem).count_eq o
      simp only [Pc.objs, List.count_cons, List.count_nil] at hperm ⊢
      omega
  | run i grant =>
      rcases hvalid with ⟨hi, hgrant⟩
      rcases coreStep_spec h.inv hB hbaseO hbaseB hi (h.pcs i hi) (fun o => h.mem_out_of_pc hi) hgrant
        hcond with ⟨r, γ', hrun, hadv⟩
      refine ⟨_, γ', run_bind_eq_ok.2 ⟨r, hrun, rfl⟩, h.advance hi hadv, ?_⟩
      exact fun hfull => hadv.refs hfull
  | write objAddr addr word =>
      rcases hvalid with ⟨hmem, hlo, hhi, hne, -⟩
      exact ⟨_, γ, rfl, h.write hB hmem hlo hhi hne word, fun _ b _ => rfl⟩

end CoresInv

end Slab
end Propeller
