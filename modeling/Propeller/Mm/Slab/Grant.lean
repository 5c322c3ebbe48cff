import Propeller.Mm.Slab.Manager

/-!
# Slab.Grant — a new slab

`alloc_slab` turns a block of the page allocator into a slab: it links the objects into a free list from
the first to the last and writes the node behind them.  `Granted` is what the page allocator promises of
the block.
-/

namespace Propeller
namespace Slab

variable {A : Arch} {sh : Shape A} {m m' : Mem} {a b o p x : Nat} {g g' : SlabManager}
  {c c' : Contents}

open SlabManager

/-- A block that the page allocator may hand out as a slab: not null, aligned, in linear memory, and
apart from the slabs there are. -/
structure Granted (sh : Shape A) (virtBase : Nat) (c : Contents) (physAddr : Nat) : Prop where
  ne_zero : physAddr ≠ 0
  dvd : sh.size ∣ physAddr
  lt : physAddr + virtBase + sh.size < A.wordLimit
  apart : ∀ a, c.Holds a →
    physAddr + virtBase + sh.size ≤ slabBase sh a ∨ a + nodeSize A ≤ physAddr + virtBase

/-- The node of a granted block. -/
def grantNode (sh : Shape A) (virtBase physAddr : Nat) : Nat :=
  physAddr + virtBase + sh.size - nodeSize A

namespace Granted

variable {virtBase physAddr : Nat}

theorem node_add (_h : Granted sh virtBase c physAddr) :
    grantNode sh virtBase physAddr + nodeSize A = physAddr + virtBase + sh.size := by
  have hle := sh.nodeSize_le
  rw [grantNode]
  omega

theorem site (h : Granted sh virtBase c physAddr) (hbase : sh.size ∣ virtBase) :
    Site sh (grantNode sh virtBase physAddr) := by
  have hpos := Nat.pos_of_ne_zero h.ne_zero
  refine ⟨?_, ?_, ?_⟩
  · rw [h.node_add]
    exact (h.dvd.add hbase).add (dvd_refl _)
  · rw [h.node_add]
    omega
  · rw [h.node_add]
    exact h.lt

theorem slabBase_eq (h : Granted sh virtBase c physAddr) :
    slabBase sh (grantNode sh virtBase physAddr) = physAddr + virtBase := by
  rw [slabBase, h.node_add, Nat.add_sub_cancel]

theorem not_holds (h : Granted sh virtBase c physAddr) (hc : Core sh g m c) :
    ¬ c.Holds (grantNode sh virtBase physAddr) := by
  intro ha
  have hsite := hc.site ha
  have hbase := hsite.base_add
  have hpos : 0 < sh.size := (Nat.zero_le _).trans_lt sh.count_lt_size
  rw [h.slabBase_eq] at hbase
  rcases h.apart _ ha with hle | hle
  · rw [h.slabBase_eq] at hle
    omega
  · omega

end Granted

/-! ## The free list of a new slab -/

theorem linkObjects_spec {n : Nat} {os : List Nat}
    (hchain : Chain sh.nextOff m (m (a + A.wordBytes)) os) (ho : 0 < o)
    (hend : o + n * sh.objSize ≤ a) (ha : a < A.wordLimit) (hos : ∀ p ∈ os, p < o) :
    ∃ m', linkObjects sh.toLayout a n o m = .ok m' ∧
      Chain sh.nextOff m' (m' (a + A.wordBytes))
        (((List.range n).map fun i => o + i * sh.objSize).reverse ++ os) ∧
      ∀ x, x ≠ a + A.wordBytes → (∀ i < n, x ≠ o + i * sh.objSize + sh.nextOff) → m' x = m x := by
  induction n generalizing o m os with
  | zero =>
      refine ⟨m, rfl, ?_, fun _ _ _ => rfl⟩
      simpa using hchain
  | succ n ih =>
      have hoff := sh.nextOff_lt
      have hmul : (n + 1) * sh.objSize = n * sh.objSize + sh.objSize := Nat.succ_mul n sh.objSize
      have hw := wordBytes_pos A
      have hne : o + sh.nextOff ≠ a + A.wordBytes := by omega
      -- The object goes in front of the list.
      have hnew : Chain sh.nextOff (Function.update (Function.update m (o + sh.nextOff)
          (m (a + A.wordBytes))) (a + A.wordBytes) o)
          (Function.update (Function.update m (o + sh.nextOff) (m (a + A.wordBytes)))
            (a + A.wordBytes) o (a + A.wordBytes)) (o :: os) := by
        refine ⟨Function.update_self _ _ _, ho.ne', ?_⟩
        rw [Function.update_of_ne hne, Function.update_self]
        refine hchain.congr fun p hp => ?_
        have hlt := hos p hp
        rw [Function.update_of_ne (by omega), Function.update_of_ne (by omega)]
      rcases ih hnew (show 0 < o + sh.objSize by omega) (by omega)
        (by
          intro p hp
          rcases List.mem_cons.1 hp with rfl | hp
          · omega
          · exact (hos p hp).trans (by omega)) with ⟨m', hrun, hchain', hframe⟩
      refine ⟨m', ?_, ?_, ?_⟩
      · have hobj : getObjectMut sh.toLayout o = .ok (o + sh.nextOff) := by
          simp only [getObjectMut, require_pos ho.ne', run_ok_bind]
          rfl
        simp only [linkObjects, hobj, run_ok_bind, checkedAdd_of_lt (show o + sh.objSize <
          A.wordLimit by omega)]
        exact hrun
      · have hlist : ((List.range (n + 1)).map fun i => o + i * sh.objSize) =
            o :: (List.range n).map fun i => o + sh.objSize + i * sh.objSize := by
          rw [List.range_succ_eq_map, List.map_cons, List.map_map, Nat.zero_mul, Nat.add_zero]
          refine congrArg (List.cons o) (List.map_congr_left fun i _ => ?_)
          simp only [Function.comp_apply, Nat.succ_mul]
          omega
        rw [hlist, List.reverse_cons, List.append_assoc]
        exact hchain'
      · intro x hxa hx
        have hx0 := hx 0 (by omega)
        rw [Nat.zero_mul, Nat.add_zero] at hx0
        rw [hframe x hxa, Function.update_of_ne hxa, Function.update_of_ne hx0]
        intro i hi heq
        apply hx (i + 1) (by omega)
        rw [heq, Nat.succ_mul]
        omega

/-- In `m'` the slab of node `a` is new: all its objects are free, and `m'` differs from `m` in its
metadata only. -/
structure Fresh (sh : Shape A) (m m' : Mem) (a : Nat) : Prop where
  free : FreeList sh m' a (objects sh a).reverse
  valid : Valid A m' a
  frame : ∀ x, ¬ IsNodeWord A a x → (∀ o ∈ objects sh a, x ≠ o + sh.nextOff) → m' x = m x

theorem allocSlab_spec {virtBase physAddr : Nat} (hg : g.Has sh) (hbase : sh.size ∣ virtBase)
    (hgrant : Granted sh virtBase c physAddr) (hslabs : g.slabsAllocated + 1 < A.wordLimit)
    (havail : g.objectsAvailable + sh.count < A.wordLimit) :
    ∃ m', allocSlab A sh.toLayout virtBase (some physAddr) g m =
        .ok (some (grantNode sh virtBase physAddr),
          { g with
            slabsAllocated := g.slabsAllocated + 1
            objectsAvailable := g.objectsAvailable + sh.count }, m') ∧
      Fresh sh m m' (grantNode sh virtBase physAddr) := by
  have hsite := hgrant.site hbase
  have hnode := hgrant.node_add
  have hlt := hgrant.lt
  have hpos := Nat.pos_of_ne_zero hgrant.ne_zero
  have hbaseq := hgrant.slabBase_eq
  have hfits := sh.fits
  have hend := hsite.base_add
  generalize grantNode sh virtBase physAddr = a at *
  have hw := wordBytes_pos A
  -- The node before the free list is linked.
  have hhead : (writeNode A m a { readNode A m a with
      avail := g.objsPerSlab, free := 0, prev := 0, next := 0 }) (a + A.wordBytes) = 0 :=
    congrArg SlabNode.free (readNode_writeNode_self m a _)
  have hcount : (writeNode A m a { readNode A m a with
      avail := g.objsPerSlab, free := 0, prev := 0, next := 0 }) a = g.objsPerSlab :=
    congrArg SlabNode.avail (readNode_writeNode_self m a _)
  have hlink : ∀ o ∈ objects sh a, ¬ IsNodeWord A a (o + sh.nextOff) := by
    intro o ho
    have hoff := sh.nextOff_lt
    exact hsite.not_isNodeWord hsite ho (Nat.le_add_right _ _) (by omega)
  have hnil : Chain sh.nextOff (writeNode A m a { readNode A m a with
      avail := g.objsPerSlab, free := 0, prev := 0, next := 0 }) ((writeNode A m a { readNode A m a with
      avail := g.objsPerSlab, free := 0, prev := 0, next := 0 }) (a + A.wordBytes)) [] := hhead
  rcases linkObjects_spec (n := sh.count) (o := physAddr + virtBase)
    hnil (by omega) (by omega) (by omega) (by simp) with ⟨m₁, hrun, hchain, hframe⟩
  have hlist : ((List.range sh.count).map fun i => physAddr + virtBase + i * sh.objSize) =
      objects sh a := by
    rw [objects, hbaseq]
  rw [hlist, List.append_nil] at hchain
  have hframe₁ : ∀ x, x ≠ a + A.wordBytes → (∀ o ∈ objects sh a, x ≠ o + sh.nextOff) →
      m₁ x = (writeNode A m a { readNode A m a with
        avail := g.objsPerSlab, free := 0, prev := 0, next := 0 }) x := by
    intro x hxa hx
    refine hframe x hxa fun i hi => ?_
    rw [← hbaseq]
    exact hx _ (mem_objects.2 ⟨i, hi, rfl⟩)
  refine ⟨writeNode A m₁ a ((readNode A m₁ a).updateChecksum A), ?_, ⟨?_, ?_, ?_, ?_⟩, ?_, ?_⟩
  · have h1 : checkedAdd A physAddr virtBase = .ok (physAddr + virtBase) :=
      checkedAdd_of_lt (by omega)
    have h2 : checkedAdd A (physAddr + virtBase) g.slabSize = .ok (physAddr + virtBase + sh.size) := by
      rw [hg.size]
      exact checkedAdd_of_lt hlt
    have h3 : checkedSub (physAddr + virtBase + sh.size) (nodeSize A) = .ok a := by
      rw [checkedSub_of_le (by omega)]
      exact congrArg Except.ok (by omega)
    have h4 : getSlabNodeUncheckedMut A m a = .ok (readNode A m a) := by
      simp only [getSlabNodeUncheckedMut, require_pos hsite.ne_zero, run_ok_bind]
      rfl
    have h5 : checkedAdd A g.objectsAvailable g.objsPerSlab =
        .ok (g.objectsAvailable + sh.count) := by
      rw [hg.count]
      exact checkedAdd_of_lt havail
    have hrun' := hrun
    rw [← hg.count] at hrun'
    simp only [allocSlab, h1, run_ok_bind, h2, h3, h4, hrun', checkedAdd_of_lt hslabs, h5]
    rfl
  · rw [readNode_writeNode_self]
    refine Chain.congr (m := m₁) hchain fun o ho => ?_
    exact writeNode_of_not_word (hlink o (List.mem_reverse.1 ho))
  · rw [readNode_writeNode_self]
    calc (readNode A m₁ a).avail = m₁ a := rfl
      _ = g.objsPerSlab := by
          rw [hframe₁ a (by omega), hcount]
          intro o ho heq
          exact hlink o ho ⟨0, by decide, by omega⟩
      _ = (objects sh a).reverse.length := by rw [List.length_reverse, objects_length, hg.count]
  · exact List.nodup_reverse.2 (objects_nodup sh a)
  · exact fun o ho => List.mem_reverse.1 ho
  · rw [Valid, readNode_writeNode_self]
    exact verifyChecksum_updateChecksum A _
  · intro x hx hxo
    have hxa : x ≠ a + A.wordBytes := by
      rintro rfl
      exact hx ⟨1, by decide, by omega⟩
    rw [writeNode_of_not_word hx, hframe₁ x hxa hxo, writeNode_of_not_word hx]

/-! ## A new slab enters -/

/-- The slab `a` enters at the end of the list in use, with all objects free. -/
def Contents.enter (sh : Shape A) (c : Contents) (a : Nat) : Contents :=
  { c with
    slabs := Function.update c.slabs .inUse (c.slabs .inUse ++ [a])
    free := Function.update c.free a (objects sh a).reverse }

theorem Contents.mem_enter {k : Kind} :
    b ∈ (c.enter sh a).slabs k ↔ b ∈ c.slabs k ∨ k = .inUse ∧ b = a := by
  by_cases hk : k = .inUse
  · subst hk
    simp [Contents.enter]
  · simp [Contents.enter, hk]

theorem Contents.holds_enter : (c.enter sh a).Holds b ↔ c.Holds b ∨ b = a := by
  constructor
  · rintro ⟨k, hk⟩
    rcases Contents.mem_enter.1 hk with hk | ⟨-, hk⟩
    · exact Or.inl ⟨k, hk⟩
    · exact Or.inr hk
  · rintro (⟨k, hk⟩ | rfl)
    · exact ⟨k, Contents.mem_enter.2 (Or.inl hk)⟩
    · exact ⟨.inUse, Contents.mem_enter.2 (Or.inr ⟨rfl, rfl⟩)⟩

theorem Contents.enter_free_self : (c.enter sh a).free a = (objects sh a).reverse :=
  Function.update_self _ _ _

theorem Contents.enter_free_of_ne (h : b ≠ a) : (c.enter sh a).free b = c.free b :=
  Function.update_of_ne h _ _

/-- Writes to a new slab do not touch what is there. -/
theorem Core.fresh (h : Core sh g m c) (ha : Site sh a) (hnot : ¬ c.Holds a)
    (hfresh : Fresh sh m m' a) : Core sh g m' c := by
  refine h.congr ?_
  rintro x ⟨b, hb, hx⟩
  have hsite := h.site hb
  have hba : b ≠ a := by
    rintro rfl
    exact hnot hb
  have hoff := sh.nextOff_lt
  refine hfresh.frame x ?_ ?_
  · rcases hx with ⟨i, hi, rfl⟩ | ⟨o, ho, rfl⟩
    · rintro ⟨j, hj, heq⟩
      exact hba (hsite.eq_of_word_eq ha hi hj heq).1
    · exact ha.not_isNodeWord hsite ho (Nat.le_add_right _ _) (by omega)
  · rintro p hp rfl
    rcases hx with hword | ⟨o, ho, heq⟩
    · exact hsite.not_isNodeWord ha hp (Nat.le_add_right _ _) (by omega) hword
    · have hop : o = p := by omega
      exact hba (hsite.eq_of_object ha (hop ▸ ho) hp)

theorem Core.enter (h : Core sh g m c) (ha : Site sh a) (hnot : ¬ c.Holds a)
    (hfresh : Fresh sh m m' a) :
    ∃ head m'', addSlabToTail A g.inUse a m' = .ok (head, m'') ∧
      Core sh { g with inUse := head } m'' (c.enter sh a) ∧ MetaOnly sh (c.enter sh a) m m'' := by
  have h' := h.fresh ha hnot hfresh
  have hmem : a ∉ c.slabs .inUse := fun hk => hnot ⟨_, hk⟩
  rcases addSlabToTail_spec (h'.list .inUse) ha hfresh.valid hmem with
    ⟨head, m'', hadd, hlist, honly⟩
  have hys : ∀ b ∈ c.slabs .inUse ++ [a], Site sh b := by
    intro b hb
    rcases List.mem_append.1 hb with hb | hb
    · exact h.site ⟨_, hb⟩
    · rwa [List.mem_singleton.1 hb]
  have hsite : ∀ b, (c.enter sh a).Holds b → Site sh b := by
    intro b hb
    rcases Contents.holds_enter.1 hb with hb | rfl
    · exact h.site hb
    · exact ha
  -- Linking the slab writes node words only.
  have hlink : ∀ b, (c.enter sh a).Holds b → ∀ o ∈ objects sh b,
      m'' (o + sh.nextOff) = m' (o + sh.nextOff) := by
    intro b hb o ho
    refine honly.outside _ fun d hd => ?_
    have hoff := sh.nextOff_lt
    exact (hys d hd).not_isNodeWord (hsite b hb) ho (Nat.le_add_right _ _) (by omega)
  refine ⟨head, m'', hadd, ⟨⟨h.has.size, h.has.count⟩, ?_, ?_, ?_, ?_, h.out_nodup, ?_⟩, ?_⟩
  · intro k
    by_cases hk : k = .inUse
    · subst hk
      simpa [Contents.enter, SlabManager.head] using hlist
    · -- The other lists do not contain the slab.
      have hother : SlabList sh m'' (g.head k) (c.slabs k) := by
        refine (h'.list k).linksOnly honly hys ?_
        intro b hb hb'
        rcases List.mem_append.1 hb' with hb' | hb'
        · exact hk (h.once k .inUse b hb hb')
        · exact hnot ⟨k, List.mem_singleton.1 hb' ▸ hb⟩
      cases k with
      | inUse => exact absurd rfl hk
      | unused => exact hother
      | empty => exact hother
  · intro k k' b hb hb'
    rcases Contents.mem_enter.1 hb with hb₁ | ⟨rfl, rfl⟩
    · rcases Contents.mem_enter.1 hb' with hb₂ | ⟨-, rfl⟩
      · exact h.once k k' b hb₁ hb₂
      · exact absurd ⟨k, hb₁⟩ hnot
    · rcases Contents.mem_enter.1 hb' with hb₂ | ⟨rfl, -⟩
      · exact absurd ⟨k', hb₂⟩ hnot
      · rfl
  · intro b hb
    have hsb := hsite b hb
    by_cases hba : b = a
    · subst hba
      rw [Contents.enter_free_self]
      exact hfresh.free.congr (honly.free b hsb) (honly.avail b hsb)
        fun o ho => hlink b hb o (hfresh.free.sub ho)
    · have hcb : c.Holds b := (Contents.holds_enter.1 hb).resolve_right hba
      rw [Contents.enter_free_of_ne hba]
      exact (h'.free b hcb).congr (honly.free b hsb) (honly.avail b hsb)
        fun o ho => hlink b hb o ((h'.free b hcb).sub ho)
  · intro o
    refine (h.out_iff o).trans ?_
    constructor
    · -- All objects of the new slab are free, so the same objects are out.
      rintro ⟨b, hb, hob, hof⟩
      have hba : b ≠ a := by
        rintro rfl
        exact hnot hb
      exact ⟨b, Contents.holds_enter.2 (Or.inl hb), hob, by rwa [Contents.enter_free_of_ne hba]⟩
    · rintro ⟨b, hb, hob, hof⟩
      by_cases hba : b = a
      · subst hba
        rw [Contents.enter_free_self] at hof
        exact absurd (List.mem_reverse.2 hob) hof
      · rw [Contents.enter_free_of_ne hba] at hof
        exact ⟨b, (Contents.holds_enter.1 hb).resolve_right hba, hob, hof⟩
  · intro o ho
    rcases (h'.out_iff o).1 ho with ⟨b, hb, hob, -⟩
    rw [hlink b (Contents.holds_enter.2 (Or.inl hb)) o hob]
    exact h'.poison o ho
  · intro x hx
    have hnode : ∀ b ∈ c.slabs .inUse ++ [a], ¬ IsNodeWord A b x := by
      intro b hb hword
      refine hx ⟨b, Contents.holds_enter.2 ?_, Or.inl hword⟩
      rcases List.mem_append.1 hb with hb | hb
      · exact Or.inl ⟨_, hb⟩
      · exact Or.inr (List.mem_singleton.1 hb)
    rw [honly.outside x hnode]
    refine hfresh.frame x (hnode a (by simp)) ?_
    rintro o ho rfl
    exact hx ⟨a, Contents.holds_enter.2 (Or.inr rfl), Or.inr ⟨o, ho, rfl⟩⟩

end Slab
end Propeller
