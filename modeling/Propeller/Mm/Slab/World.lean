import Propeller.Mm.Slab.Allocator
import Propeller.Mm.Slab.Calls

/-!
# Slab.World — two slab managers in one memory

The slab allocator has one slab manager for its objects and one for its bundles, in the same memory and
with slabs from the same page allocator.  `World` says that both represent their contents and that their
slabs lie apart.  Each operation of one of them leaves the other and the words of the bundles alone.
-/

namespace Propeller
namespace Slab

variable {A : Arch} {sh shO shB : Shape A} {virtBase : Nat} {s : SlabAllocator}
  {regions : List (Nat × Nat)} {cO cB c : Contents} {g : SlabManager} {m m' : Mem}
  {a b x i j v o p : Nat} {grant : Option Nat}

/-- The representation invariant depends on the metadata words only. -/
theorem Inv.congr (h : Inv sh g m c) (hm : ∀ x, IsMeta sh c x → m' x = m x) : Inv sh g m' c :=
  ⟨h.core.congr hm, h.sorted, h.counted⟩

/-- Metadata lies in the slabs. -/
theorem Core.isMeta_inside (h : Core sh g m c) (hx : IsMeta sh c x) :
    ∃ a, c.Holds a ∧ slabBase sh a ≤ x ∧ x < a + nodeSize A := by
  rcases hx with ⟨a, ha, ⟨i, hi, rfl⟩ | ⟨o, ho, rfl⟩⟩
  · have hmul := Nat.mul_le_mul_right A.wordBytes (Nat.succ_le_of_lt hi)
    have hw := wordBytes_pos A
    have hbase := (h.site ha).base_add
    have hle := sh.nodeSize_le
    have hnode : nodeSize A = 5 * A.wordBytes := rfl
    rw [Nat.succ_mul] at hmul
    exact ⟨a, ha, by omega, by omega⟩
  · have hin := (h.site ha).object_inside ho
    have hoff := sh.nextOff_lt
    exact ⟨a, ha, by omega, by omega⟩

/-- What happens to the metadata of one manager leaves the other alone. -/
theorem Inv.of_other {sh' : Shape A} {g' : SlabManager} {c' : Contents} (h : Inv sh g m c) (h' : Inv sh' g' m' c')
    (honly : MetaOnly sh' c' m m') (hsep : ∀ a b, c.Holds a → c'.Holds b →
      a + nodeSize A ≤ slabBase sh' b ∨ b + nodeSize A ≤ slabBase sh a) : Inv sh g m' c := by
  refine h.congr fun x hx => honly x ?_
  intro hmeta
  rcases h.core.isMeta_inside hx with ⟨a, ha, hlo, hhi⟩
  rcases h'.core.isMeta_inside hmeta with ⟨b, hb, hlo', hhi'⟩
  rcases hsep a b ha hb with hlt | hlt
  · omega
  · omega

/-- The two slab layers of a slab allocator. -/
structure World (shO shB : Shape A) (virtBase : Nat) (s : SlabAllocator)
    (regions : List (Nat × Nat)) (cO cB : Contents) : Prop where
  objs : Inv shO s.objAlloc s.mem cO
  bundles : Inv shB s.bundleMgr.bundleAlloc s.mem cB
  sep : ∀ a b, cO.Holds a → cB.Holds b →
    a + nodeSize A ≤ slabBase shB b ∨ b + nodeSize A ≤ slabBase shO a
  objRegions : ∀ a, cO.Holds a → ∃ p, (p, shO.size) ∈ regions ∧ a = grantNode shO virtBase p
  bundleRegions : ∀ a, cB.Holds a → ∃ p, (p, shB.size) ∈ regions ∧ a = grantNode shB virtBase p

/-! ## Blocks -/

theorem SlabManager.mem_taken : p ∈ g.taken grant ↔ g.request = some g.slabSize ∧ grant = some p := by
  unfold SlabManager.taken SlabManager.request
  split
  · simp
  · simp

/-- The block that a request is answered with. -/
def answer (request grant : Option Nat) : Option (Nat × Nat) :=
  request.bind fun size => grant.map fun p => (p, size)

theorem mem_answer {r : Nat × Nat} :
    r ∈ (answer (g.request) grant).toList ↔ r.1 ∈ g.taken grant ∧ r.2 = g.slabSize := by
  rw [SlabManager.mem_taken, Option.mem_toList]
  unfold answer SlabManager.request
  split
  · cases grant with
    | none => simp
    | some q => simp [Prod.ext_iff, eq_comm]
  · simp

/-- A manager takes only blocks that may be handed out. -/
theorem regionOk_of_taken (hsize : g.slabSize = sh.size)
    (hgrant : ∀ size ∈ g.request, ∀ p ∈ grant, RegionOk A virtBase regions size p) (hp : p ∈ g.taken grant) :
    RegionOk A virtBase regions sh.size p := by
  rcases SlabManager.mem_taken.1 hp with ⟨hreq, hgr⟩
  rw [← hsize]
  exact hgrant _ hreq p hgr

/-- The slabs of a manager lie in regions also when it has grown. -/
theorem regions_of_grown {c' : Contents} (h : Grown sh virtBase (g.taken grant) c c') (hsize : g.slabSize = sh.size)
    (hin : ∀ a, c.Holds a → ∃ q, (q, sh.size) ∈ regions ∧ a = grantNode sh virtBase q) :
    ∀ a, c'.Holds a → ∃ q, (q, sh.size) ∈ (answer g.request grant).toList ++ regions ∧ a = grantNode sh virtBase q := by
  intro a ha
  rcases (h a).1 ha with ha | ⟨p, hp, rfl⟩
  · rcases hin a ha with ⟨q, hq, hqa⟩
    exact ⟨q, List.mem_append_right _ hq, hqa⟩
  · exact ⟨p, List.mem_append_left _ (mem_answer.2 ⟨hp, hsize.symm⟩), rfl⟩

/-- A block that overlaps no region may become a slab. -/
theorem granted_of_regionOk (hp : RegionOk A virtBase regions sh.size p)
    (hin : ∀ a, c.Holds a → ∃ q, (q, sh.size) ∈ regions ∧ a = grantNode sh virtBase q) :
    Granted sh virtBase c p := by
  refine ⟨hp.ne_zero, hp.dvd, hp.lt, ?_⟩
  intro a ha
  rcases hin a ha with ⟨q, hq, rfl⟩
  have hle := sh.nodeSize_le
  have hapart := hp.apart _ hq
  simp only at hapart
  rw [slabBase, grantNode]
  omega

/-- A slab in a new block lies apart from the slabs of the other manager. -/
theorem apart_of_regionOk (hp : RegionOk A virtBase regions sh.size p)
    (hin : ∃ q, (q, shB.size) ∈ regions ∧ b = grantNode shB virtBase q) :
    grantNode sh virtBase p + nodeSize A ≤ slabBase shB b ∨
      b + nodeSize A ≤ slabBase sh (grantNode sh virtBase p) := by
  rcases hin with ⟨q, hq, rfl⟩
  have hle := sh.nodeSize_le
  have hle' := shB.nodeSize_le
  have hapart := hp.apart _ hq
  simp only at hapart
  rw [slabBase, slabBase, grantNode, grantNode]
  omega

/-! ## Words of bundles -/

namespace World

/-- The words of a bundle that is out, other than the link of the slab layer, are in a slab of bundles. -/
theorem slot_inside (h : World shO shB virtBase s regions cO cB) (hB : shB.toLayout = bundleLayout A)
    (hb : b ∈ cB.out) (hj : j ≤ BUNDLE_SIZE) :
    ∃ d, cB.Holds d ∧ slabBase shB d ≤ slotAddr A b j ∧ slotAddr A b j < d := by
  rcases (h.bundles.core.out_iff b).1 hb with ⟨d, hd, hbd, -⟩
  have hin := (h.bundles.core.site hd).object_inside hbd
  have hsize : shB.objSize = (BUNDLE_SIZE + 2) * A.wordBytes := congrArg Layout.objSize hB
  have hmul := Nat.mul_le_mul_right A.wordBytes hj
  have hslot : slotAddr A b j = b + j * A.wordBytes := rfl
  have hw := wordBytes_pos A
  rw [Nat.add_mul] at hsize
  exact ⟨d, hd, by omega, by omega⟩

/-- A word of a bundle that is out, other than the link of the slab layer, is no metadata. -/
theorem bundle_word (h : World shO shB virtBase s regions cO cB)
    (hB : shB.toLayout = bundleLayout A) (hb : b ∈ cB.out) (hj : j ≤ BUNDLE_SIZE) :
    ¬ IsMeta shO cO (slotAddr A b j) ∧ ¬ IsMeta shB cB (slotAddr A b j) := by
  rcases (h.bundles.core.out_iff b).1 hb with ⟨a, ha, hba, -⟩
  have hw := wordBytes_pos A
  have hsize : shB.objSize = (BUNDLE_SIZE + 2) * A.wordBytes := congrArg Layout.objSize hB
  have hnext : shB.nextOff = (BUNDLE_SIZE + 1) * A.wordBytes := congrArg Layout.nextOff hB
  have hmul := Nat.mul_le_mul_right A.wordBytes hj
  have hin := (h.bundles.core.site ha).object_inside hba
  have hslot : slotAddr A b j = b + j * A.wordBytes := rfl
  rw [Nat.add_mul] at hsize hnext
  constructor
  · intro hmeta
    rcases h.objs.core.isMeta_inside hmeta with ⟨d, hd, hlo, hhi⟩
    rcases h.sep d a hd ha with hlt | hlt
    · omega
    · omega
  · exact h.bundles.core.not_isMeta_of_object ha hba (by omega) (by omega) (by omega)

/-- Different words of bundles have different addresses. -/
theorem slot_inj (h : World shO shB virtBase s regions cO cB) (hB : shB.toLayout = bundleLayout A)
    {b' j' : Nat} (hb : b ∈ cB.out) (hb' : b' ∈ cB.out) (hj : j ≤ BUNDLE_SIZE)
    (hj' : j' ≤ BUNDLE_SIZE) (heq : slotAddr A b j = slotAddr A b' j') : b = b' ∧ j = j' := by
  rcases (h.bundles.core.out_iff b).1 hb with ⟨a, ha, hba, -⟩
  rcases (h.bundles.core.out_iff b').1 hb' with ⟨a', ha', hba', -⟩
  have hw := wordBytes_pos A
  have hsize : shB.objSize = (BUNDLE_SIZE + 2) * A.wordBytes := congrArg Layout.objSize hB
  have hmul := Nat.mul_le_mul_right A.wordBytes hj
  have hmul' := Nat.mul_le_mul_right A.wordBytes hj'
  have hslot : slotAddr A b j = b + j * A.wordBytes := rfl
  have hslot' : slotAddr A b' j' = b' + j' * A.wordBytes := rfl
  rw [Nat.add_mul] at hsize
  have hbb : b = b' := by
    by_contra hne
    rcases (h.bundles.core.site ha).objects_apart (h.bundles.core.site ha') hba hba' hne with
      hlt | hlt
    · omega
    · omega
  subst hbb
  refine ⟨rfl, Nat.eq_of_mul_eq_mul_right hw ?_⟩
  omega

theorem bundle_ne_zero (h : World shO shB virtBase s regions cO cB) (hb : b ∈ cB.out) : b ≠ 0 := by
  rcases (h.bundles.core.out_iff b).1 hb with ⟨a, ha, hba, -⟩
  exact (h.bundles.core.site ha).object_ne_zero hba

/-- Only the two slab managers and the memory matter. -/
theorem congr {s' : SlabAllocator} (h : World shO shB virtBase s regions cO cB)
    (hobj : s'.objAlloc = s.objAlloc) (hbundle : s'.bundleMgr.bundleAlloc = s.bundleMgr.bundleAlloc)
    (hmem : s'.mem = s.mem) : World shO shB virtBase s' regions cO cB := by
  refine ⟨?_, ?_, h.sep, h.objRegions, h.bundleRegions⟩
  · rw [hobj, hmem]
    exact h.objs
  · rw [hbundle, hmem]
    exact h.bundles

/-- A write to a word that is no metadata. -/
theorem write (h : World shO shB virtBase s regions cO cB)
    (hx : ¬ IsMeta shO cO x ∧ ¬ IsMeta shB cB x) :
    World shO shB virtBase { s with mem := Function.update s.mem x v } regions cO cB := by
  refine ⟨h.objs.congr ?_, h.bundles.congr ?_, h.sep, h.objRegions, h.bundleRegions⟩
  · intro y hy
    refine Function.update_of_ne ?_ _ _
    rintro rfl
    exact hx.1 hy
  · intro y hy
    refine Function.update_of_ne ?_ _ _
    rintro rfl
    exact hx.2 hy

/-- A word of an object that is out, other than its link, is no metadata. -/
theorem object_word (h : World shO shB virtBase s regions cO cB) (ho : o ∈ cO.out) (hlo : o ≤ x)
    (hhi : x < o + shO.objSize) (hne : x ≠ o + shO.nextOff) :
    ¬ IsMeta shO cO x ∧ ¬ IsMeta shB cB x ∧
      ∀ b ∈ cB.out, ∀ j ≤ BUNDLE_SIZE, shB.toLayout = bundleLayout A → slotAddr A b j ≠ x := by
  rcases (h.objs.core.out_iff o).1 ho with ⟨a, ha, hoa, -⟩
  have hin := (h.objs.core.site ha).object_inside hoa
  refine ⟨h.objs.core.not_isMeta_of_object ha hoa hlo hhi hne, ?_, ?_⟩
  · intro hmeta
    -- The metadata of the bundles are in their slabs, and these are apart from the object's slab.
    rcases h.bundles.core.isMeta_inside hmeta with ⟨d, hd, hlo', hhi'⟩
    rcases h.sep a d ha hd with hlt | hlt
    · omega
    · omega
  · intro b hb j hj hB heq
    -- A slot is in such a slab too.
    rcases h.slot_inside hB hb hj with ⟨d, hd, hlo', hhi'⟩
    rcases h.sep a d ha hd with hlt | hlt
    · omega
    · omega

/-! ## Operations of the slab layers -/

/-- `alloc` of the object manager. -/
theorem allocObject (h : World shO shB virtBase s regions cO cB) (hB : shB.toLayout = bundleLayout A)
    (hbase : shO.size ∣ virtBase)
    (hgrant : ∀ size ∈ s.objAlloc.request, ∀ p ∈ grant, RegionOk A virtBase regions size p) :
    ∃ r gO m' cO', alloc A shO.toLayout virtBase grant s.objAlloc s.mem = .ok (r, gO, m') ∧
      World shO shB virtBase { s with objAlloc := gO, mem := m' }
        ((answer s.objAlloc.request grant).toList ++ regions) cO' cB ∧
      (∀ b ∈ cB.out, ∀ j ≤ BUNDLE_SIZE, m' (slotAddr A b j) = s.mem (slotAddr A b j)) ∧
      (r = none ∧ cO' = cO ∨ ∃ o, r = some o ∧ o ∉ cO.out ∧ cO'.out = o :: cO.out) := by
  have hsize := h.objs.core.has.size
  have hregion : ∀ p ∈ s.objAlloc.taken grant, RegionOk A virtBase regions shO.size p :=
    fun p hp => regionOk_of_taken hsize hgrant hp
  rcases alloc_spec h.objs hbase fun p hp => granted_of_regionOk (hregion p hp) h.objRegions with
    ⟨r, gO, m', cO', hrun, hinv, hgrown, honly, hres⟩
  -- An object slab is an old one or cut from the granted region, and both are apart from the bundle slabs.
  have hsep : ∀ a b, cO'.Holds a → cB.Holds b →
      a + nodeSize A ≤ slabBase shB b ∨ b + nodeSize A ≤ slabBase shO a := by
    intro a b ha hb
    rcases (hgrown a).1 ha with ha | ⟨p, hp, rfl⟩
    · exact h.sep a b ha hb
    · exact apart_of_regionOk (hregion p hp) (h.bundleRegions b hb)
  have hworld : World shO shB virtBase { s with objAlloc := gO, mem := m' }
      ((answer s.objAlloc.request grant).toList ++ regions) cO' cB := by
    have hbundles := h.bundles.of_other hinv honly fun b a hb ha => (hsep a b ha hb).symm
    refine ⟨hinv, hbundles, hsep, regions_of_grown hgrown hsize h.objRegions, ?_⟩
    intro b hb
    rcases h.bundleRegions b hb with ⟨q, hq, hqb⟩
    exact ⟨q, List.mem_append_right _ hq, hqb⟩
  refine ⟨r, gO, m', cO', hrun, hworld, fun b hb j hj => honly _ (hworld.bundle_word hB hb hj).1, ?_⟩
  rcases hres with ⟨hr, -, -, -, -, hc⟩ | hres
  · exact Or.inl ⟨hr, hc⟩
  · exact Or.inr hres

/-- `free` of the object manager. -/
theorem freeObject (h : World shO shB virtBase s regions cO cB) (hB : shB.toLayout = bundleLayout A)
    (ho : o ∈ cO.out) :
    ∃ gO m' cO', free A shO.toLayout o s.objAlloc s.mem = .ok (gO, m') ∧
      World shO shB virtBase { s with objAlloc := gO, mem := m' } regions cO' cB ∧
      (∀ b ∈ cB.out, ∀ j ≤ BUNDLE_SIZE, m' (slotAddr A b j) = s.mem (slotAddr A b j)) ∧
      cO'.out = cO.out.erase o := by
  rcases free_spec h.objs ho with ⟨gO, m', cO', hrun, hinv, hout, hholds, honly⟩
  have hsep : ∀ a b, cO'.Holds a → cB.Holds b →
      a + nodeSize A ≤ slabBase shB b ∨ b + nodeSize A ≤ slabBase shO a := fun a b ha hb =>
    h.sep a b ((hholds a).1 ha) hb
  have honly' : MetaOnly shO cO' s.mem m' := honly.mono fun a => (hholds a).2
  have hworld : World shO shB virtBase { s with objAlloc := gO, mem := m' } regions cO' cB :=
    ⟨hinv, h.bundles.of_other hinv honly' fun b a hb ha => (hsep a b ha hb).symm, hsep,
      fun a ha => h.objRegions a ((hholds a).1 ha), h.bundleRegions⟩
  exact ⟨gO, m', cO', hrun, hworld, fun b hb j hj => honly _ (h.bundle_word hB hb hj).1, hout⟩

/-- `alloc` of the bundle manager. -/
theorem allocBundle (h : World shO shB virtBase s regions cO cB) (hB : shB.toLayout = bundleLayout A)
    (hbase : shB.size ∣ virtBase)
    (hgrant : ∀ size ∈ s.bundleMgr.bundleAlloc.request, ∀ p ∈ grant,
      RegionOk A virtBase regions size p) :
    ∃ r gB m' cB', alloc A (bundleLayout A) virtBase grant s.bundleMgr.bundleAlloc s.mem =
        .ok (r, gB, m') ∧
      World shO shB virtBase { s with bundleMgr := { s.bundleMgr with bundleAlloc := gB }, mem := m' }
        ((answer s.bundleMgr.bundleAlloc.request grant).toList ++ regions) cO cB' ∧
      (∀ b ∈ cB'.out, ∀ j ≤ BUNDLE_SIZE, m' (slotAddr A b j) = s.mem (slotAddr A b j)) ∧
      (r = none ∧ grant = none ∧ s.bundleMgr.bundleAlloc.request ≠ none ∧ gB = s.bundleMgr.bundleAlloc ∧
          m' = s.mem ∧ cB' = cB ∨
        ∃ b, r = some b ∧ b ∉ cB.out ∧ cB'.out = b :: cB.out) := by
  have hsize := h.bundles.core.has.size
  have hregion : ∀ p ∈ s.bundleMgr.bundleAlloc.taken grant, RegionOk A virtBase regions shB.size p :=
    fun p hp => regionOk_of_taken hsize hgrant hp
  rcases alloc_spec h.bundles hbase fun p hp => granted_of_regionOk (hregion p hp) h.bundleRegions with
    ⟨r, gB, m', cB', hrun, hinv, hgrown, honly, hres⟩
  -- A bundle slab is an old one or cut from the granted region, and both are apart from the object slabs.
  have hsep : ∀ a b, cO.Holds a → cB'.Holds b →
      a + nodeSize A ≤ slabBase shB b ∨ b + nodeSize A ≤ slabBase shO a := by
    intro a b ha hb
    rcases (hgrown b).1 hb with hb | ⟨p, hp, rfl⟩
    · exact h.sep a b ha hb
    · exact (apart_of_regionOk (hregion p hp) (h.objRegions a ha)).symm
  have hobjs : Inv shO s.objAlloc m' cO := h.objs.of_other hinv honly hsep
  have hworld : World shO shB virtBase
      { s with bundleMgr := { s.bundleMgr with bundleAlloc := gB }, mem := m' }
      ((answer s.bundleMgr.bundleAlloc.request grant).toList ++ regions) cO cB' := by
    refine ⟨hobjs, hinv, hsep, ?_, regions_of_grown hgrown hsize h.bundleRegions⟩
    intro a ha
    rcases h.objRegions a ha with ⟨q, hq, hqa⟩
    exact ⟨q, List.mem_append_right _ hq, hqa⟩
  rw [hB] at hrun
  refine ⟨r, gB, m', cB', hrun, hworld, fun b hb j hj => honly _ (hworld.bundle_word hB hb hj).2, ?_⟩
  rcases hres with ⟨hr, hgr, hask, hg, hm, hc⟩ | hres
  · refine Or.inl ⟨hr, hgr, ?_, hg, hm, hc⟩
    rw [SlabManager.request, if_pos hask]
    exact Option.some_ne_none _
  · exact Or.inr hres

end World

end Slab
end Propeller
