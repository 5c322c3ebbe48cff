import Propeller.Mm.Slab.Contents

/-!
# Slab.Manager — the operations of the slab layer on its contents

Each part of `alloc` and `free` is an edit of the contents: a slab changes lists (`Core.move`), an object
leaves its free list (`Core.take`) or returns to it (`Core.give`), a new slab arrives with all its objects
free (`Core.enter`).  Each of them writes metadata words only (`MetaOnly`).
-/

namespace Propeller
namespace Slab

variable {A : Arch} {sh : Shape A} {m m' : Mem} {a b o p x : Nat} {g g' : SlabManager}
  {c c' : Contents} {xs : List Nat}

/-- Only metadata words of `c` have been written. -/
def MetaOnly (sh : Shape A) (c : Contents) (m m' : Mem) : Prop :=
  ∀ x, ¬ IsMeta sh c x → m' x = m x

theorem MetaOnly.trans {m₁ m₂ m₃ : Mem} (h : MetaOnly sh c m₁ m₂) (h' : MetaOnly sh c m₂ m₃) :
    MetaOnly sh c m₁ m₃ :=
  fun x hx => (h' x hx).trans (h x hx)

theorem IsMeta.mono (h : IsMeta sh c x) (hsub : ∀ a, c.Holds a → c'.Holds a) : IsMeta sh c' x := by
  rcases h with ⟨a, ha, hx⟩
  exact ⟨a, hsub a ha, hx⟩

theorem MetaOnly.mono (h : MetaOnly sh c m m') (hsub : ∀ a, c.Holds a → c'.Holds a) :
    MetaOnly sh c' m m' :=
  fun x hx => h x fun hmeta => hx (hmeta.mono hsub)

/-! ## Heads -/

namespace SlabManager

theorem head_setHead (g : SlabManager) (v : Nat) (k k' : Kind) :
    (g.setHead v k).head k' = if k' = k then v else g.head k' := by
  cases k <;> cases k' <;> rfl

/-- The managers differ in the heads of their lists only. -/
structure SameCounters (g g' : SlabManager) : Prop where
  slabPages : g'.slabPages = g.slabPages
  objsPerSlab : g'.objsPerSlab = g.objsPerSlab
  slabsAllocated : g'.slabsAllocated = g.slabsAllocated
  objectsAllocated : g'.objectsAllocated = g.objectsAllocated
  objectsAvailable : g'.objectsAvailable = g.objectsAvailable

theorem SameCounters.refl (g : SlabManager) : SameCounters g g :=
  ⟨rfl, rfl, rfl, rfl, rfl⟩

theorem SameCounters.trans {g₁ g₂ g₃ : SlabManager} (h : SameCounters g₁ g₂)
    (h' : SameCounters g₂ g₃) : SameCounters g₁ g₃ :=
  ⟨h'.slabPages.trans h.slabPages, h'.objsPerSlab.trans h.objsPerSlab,
    h'.slabsAllocated.trans h.slabsAllocated, h'.objectsAllocated.trans h.objectsAllocated,
    h'.objectsAvailable.trans h.objectsAvailable⟩

theorem sameCounters_setHead (g : SlabManager) (v : Nat) (k : Kind) :
    SameCounters g (g.setHead v k) := by
  cases k <;> exact ⟨rfl, rfl, rfl, rfl, rfl⟩

theorem Has.same (h : g.Has sh) (hs : SameCounters g g') : g'.Has sh := by
  refine ⟨?_, hs.objsPerSlab.trans h.count⟩
  rw [slabSize, hs.slabPages]
  exact h.size

end SlabManager

open SlabManager

/-! ## Moving a slab -/

/-- The slab `a` goes from the list `src` to the end of the list `dst`. -/
def Contents.move (c : Contents) (src dst : Kind) (a : Nat) : Contents :=
  { c with
    slabs := Function.update (Function.update c.slabs src ((c.slabs src).erase a)) dst
      (c.slabs dst ++ [a]) }

/-- An edit of links only leaves free lists and poisoned links alone. -/
theorem Core.relink (h : Core sh g m c) (hl : LinksOnly sh xs m m') (hxs : ∀ b ∈ xs, Site sh b)
    {slabs : Kind → List Nat} (hhas : g'.Has sh) (hlist : ∀ k, SlabList sh m' (g'.head k) (slabs k))
    (honce : ∀ k k' a, a ∈ slabs k → a ∈ slabs k' → k = k')
    (hholds : ∀ a, (∃ k, a ∈ slabs k) ↔ c.Holds a) : Core sh g' m' { c with slabs } := by
  -- The links of the objects are no words of a node.
  have hlink : ∀ a, c.Holds a → ∀ o ∈ objects sh a, m' (o + sh.nextOff) = m (o + sh.nextOff) := by
    intro a ha o ho
    refine hl.outside _ fun b hb => ?_
    have hoff := sh.nextOff_lt
    exact (hxs b hb).not_isNodeWord (h.site ha) ho (Nat.le_add_right _ _) (by omega)
  refine ⟨hhas, hlist, honce, ?_, ?_, h.out_nodup, ?_⟩
  · intro a ha
    have ha : c.Holds a := (hholds a).1 ha
    have hfree := h.free a ha
    exact hfree.congr (hl.free a (h.site ha)) (hl.avail a (h.site ha))
      fun o ho => hlink a ha o (hfree.sub ho)
  · intro o
    refine (h.out_iff o).trans ?_
    constructor
    · rintro ⟨a, ha, ho⟩
      exact ⟨a, (hholds a).2 ha, ho⟩
    · rintro ⟨a, ha, ho⟩
      exact ⟨a, (hholds a).1 ha, ho⟩
  · intro o ho
    rcases (h.out_iff o).1 ho with ⟨a, ha, hoa, -⟩
    rw [hlink a ha o hoa]
    exact h.poison o ho

/-- Which nodes are on which list after a move. -/
theorem Core.mem_move (h : Core sh g m c) {src dst k : Kind} (hne : src ≠ dst)
    (ha : a ∈ c.slabs src) :
    b ∈ (c.move src dst a).slabs k ↔ if b = a then k = dst else b ∈ c.slabs k := by
  have hnd := (h.list src).ring.nodup
  -- The target list, the source list, and the third one.
  by_cases hkd : k = dst
  · subst hkd
    simp only [Contents.move, Function.update_self, List.mem_append, List.mem_singleton]
    split
    · rename_i heq
      simp [heq]
    · rename_i hba
      simp [hba]
  · by_cases hks : k = src
    · subst hks
      simp only [Contents.move, Function.update_of_ne hkd, Function.update_self, hnd.mem_erase_iff]
      split
      · rename_i heq
        simp [heq, hkd]
      · rename_i hba
        simp [hba]
    · simp only [Contents.move, Function.update_of_ne hkd, Function.update_of_ne hks]
      split
      · rename_i heq
        subst heq
        simp only [hkd, iff_false]
        intro hk
        exact hks (h.once k src b hk ha)
      · rfl

theorem Core.holds_move (h : Core sh g m c) {src dst : Kind} (hne : src ≠ dst)
    (ha : a ∈ c.slabs src) : (c.move src dst a).Holds b ↔ c.Holds b := by
  constructor
  · rintro ⟨k, hk⟩
    rw [h.mem_move hne ha] at hk
    split at hk
    · rename_i heq
      exact ⟨src, heq ▸ ha⟩
    · exact ⟨k, hk⟩
  · rintro ⟨k, hk⟩
    by_cases hba : b = a
    · exact ⟨dst, (h.mem_move hne ha).2 (by rw [if_pos hba])⟩
    · exact ⟨k, (h.mem_move hne ha).2 (by rwa [if_neg hba])⟩

/-- Moving a slab returns, and the lists are those of the moved contents. -/
theorem Core.move (h : Core sh g m c) {src dst : Kind} (hne : src ≠ dst) (ha : a ∈ c.slabs src) :
    ∃ g' m', moveSlab A src dst a g m = .ok (g', m') ∧ Core sh g' m' (c.move src dst a) ∧
      SameCounters g g' ∧ MetaOnly sh c m m' := by
  have hsite : ∀ k, ∀ b ∈ c.slabs k, Site sh b := fun k => (h.list k).site
  have hdisj : ∀ k k', k ≠ k' → ∀ b ∈ c.slabs k, b ∉ c.slabs k' := fun k k' hk b hb hb' =>
    hk (h.once k k' b hb hb')
  rcases removeSlabFromList_spec (h.list src) ha with ⟨h₁, m₁, hrem, hlist₁, hvalid, honly₁⟩
  have hdst₁ : SlabList sh m₁ (g.head dst) (c.slabs dst) :=
    (h.list dst).linksOnly honly₁ (hsite src) (hdisj dst src hne.symm)
  rcases addSlabToTail_spec hdst₁ (hsite src a ha) hvalid (hdisj src dst hne a ha) with
    ⟨h₂, m₂, hadd, hlist₂, honly₂⟩
  have hys : ∀ b ∈ c.slabs dst ++ [a], Site sh b := by
    intro b hb
    rcases List.mem_append.1 hb with hb | hb
    · exact hsite dst b hb
    · rw [List.mem_singleton.1 hb]
      exact hsite src a ha
  -- The two calls write links of slabs on the two lists.
  have honly : LinksOnly sh (c.slabs src ++ (c.slabs dst ++ [a])) m m₂ :=
    (honly₁.mono (List.subset_append_left _ _)).trans (honly₂.mono (List.subset_append_right _ _))
  have hcount : SameCounters g ((g.setHead h₁ src).setHead h₂ dst) :=
    (sameCounters_setHead g h₁ src).trans (sameCounters_setHead _ h₂ dst)
  refine ⟨(g.setHead h₁ src).setHead h₂ dst, m₂, ?_, ?_, hcount, ?_⟩
  · have hhead : (g.setHead h₁ src).head dst = g.head dst := by
      rw [head_setHead, if_neg hne.symm]
    simp only [moveSlab, hrem, run_ok_bind, hhead, hadd]
    rfl
  · refine h.relink honly ?_ (h.has.same hcount) ?_ ?_ fun b => h.holds_move hne ha
    · intro b hb
      rcases List.mem_append.1 hb with hb | hb
      · exact hsite src b hb
      · exact hys b hb
    · intro k
      rw [head_setHead]
      by_cases hkd : k = dst
      · subst hkd
        simpa using hlist₂
      · rw [if_neg hkd, Function.update_of_ne hkd, head_setHead]
        by_cases hks : k = src
        · subst hks
          rw [if_pos rfl, Function.update_self]
          -- The slab that was taken off is not on its old list any more.
          refine hlist₁.linksOnly honly₂ hys ?_
          intro b hb hb'
          rcases List.mem_append.1 hb' with hb' | hb'
          · exact hdisj k dst hne b (List.mem_of_mem_erase hb) hb'
          · rw [List.mem_singleton.1 hb'] at hb
            exact (h.list k).ring.nodup.not_mem_erase hb
        · rw [if_neg hks, Function.update_of_ne hks]
          refine ((h.list k).linksOnly honly₁ (hsite src) (hdisj k src hks)).linksOnly honly₂ hys ?_
          intro b hb hb'
          rcases List.mem_append.1 hb' with hb' | hb'
          · exact hdisj k dst hkd b hb hb'
          · rw [List.mem_singleton.1 hb'] at hb
            exact hdisj k src hks a hb ha
    · intro k k' b hb hb'
      -- A slab is still on one list.
      have hb := (h.mem_move hne ha).1 hb
      have hb' := (h.mem_move hne ha).1 hb'
      split at hb
      · rename_i heq
        rw [if_pos heq] at hb'
        exact hb.trans hb'.symm
      · rename_i hba
        rw [if_neg hba] at hb'
        exact h.once k k' b hb hb'
  · intro x hx
    refine honly.outside x fun b hb hword => hx ⟨b, ?_, Or.inl hword⟩
    rcases List.mem_append.1 hb with hb | hb
    · exact ⟨src, hb⟩
    · rcases List.mem_append.1 hb with hb | hb
      · exact ⟨dst, hb⟩
      · exact ⟨src, (List.mem_singleton.1 hb) ▸ ha⟩

/-! ## Objects leave and return -/

/-- A write to the counter and the free list of a node keeps the links of all nodes. -/
theorem SlabList.setFree {head avail f : Nat} (h : SlabList sh m head xs) (ha : Site sh a) :
    SlabList sh (setFree A m a avail f) head xs := by
  refine ⟨h.head, h.ring.congr ?_ ?_, h.site, ?_⟩
  · intro b hb
    rw [nextOf, Slab.setFree, readNode_writeNode ha (h.site b hb), apply_ite SlabNode.next]
    split
    · rename_i heq
      rw [heq]
      rfl
    · rfl
  · intro b hb
    rw [prevOf, Slab.setFree, readNode_writeNode ha (h.site b hb), apply_ite SlabNode.prev]
    split
    · rename_i heq
      rw [heq]
      rfl
    · rfl
  · intro b hb
    rw [Valid, Slab.setFree, readNode_writeNode ha (h.site b hb)]
    split
    · exact verifyChecksum_updateChecksum A _
    · exact h.valid b hb

/-- The link word of an object is no word of a node. -/
theorem Core.link_not_node (h : Core sh g m c) (ha : c.Holds a) (hb : c.Holds b)
    (ho : o ∈ objects sh b) : ¬ IsNodeWord A a (o + sh.nextOff) := by
  have hoff := sh.nextOff_lt
  exact (h.site ha).not_isNodeWord (h.site hb) ho (Nat.le_add_right _ _) (by omega)

/-- The object `o` leaves the free list of `a`. -/
def Contents.take (c : Contents) (a o : Nat) : Contents :=
  { c with free := Function.update c.free a (c.free a).tail, out := o :: c.out }

theorem Contents.take_free_self : (c.take a o).free a = (c.free a).tail :=
  Function.update_self _ _ _

theorem Contents.take_free_of_ne (h : b ≠ a) : (c.take a o).free b = c.free b :=
  Function.update_of_ne h _ _

theorem Core.take {os : List Nat} (h : Core sh g m c) (ha : c.Holds a) (hfree : c.free a = o :: os) :
    Core sh g (Function.update (setFree A m a os.length (m (o + sh.nextOff))) (o + sh.nextOff)
      A.poison) (c.take a o) := by
  have hsite := h.site ha
  have hlist := h.free a ha
  rw [hfree] at hlist
  have hoa : o ∈ objects sh a := hlist.sub List.mem_cons_self
  have honot : o ∉ os := (List.nodup_cons.1 hlist.nodup).1
  have hnode : ∀ b, c.Holds b → readNode A (Function.update (setFree A m a os.length
      (m (o + sh.nextOff))) (o + sh.nextOff) A.poison) b =
        readNode A (setFree A m a os.length (m (o + sh.nextOff))) b := fun b hb =>
    readNode_update (h.link_not_node hb ha hoa)
  have hself : readNode A (setFree A m a os.length (m (o + sh.nextOff))) a =
      SlabNode.updateChecksum A
        { readNode A m a with avail := os.length, free := m (o + sh.nextOff) } :=
    readNode_writeNode_self m a _
  have hother : ∀ b, c.Holds b → b ≠ a →
      readNode A (setFree A m a os.length (m (o + sh.nextOff))) b = readNode A m b := by
    intro b hb hne
    rw [setFree, readNode_writeNode hsite (h.site hb), if_neg hne]
  -- Links of objects other than `o` are as before.
  have hlink : ∀ b, c.Holds b → ∀ p ∈ objects sh b, p ≠ o → Function.update (setFree A m a os.length
      (m (o + sh.nextOff))) (o + sh.nextOff) A.poison (p + sh.nextOff) = m (p + sh.nextOff) := by
    intro b hb p hp hne
    rw [Function.update_of_ne (by omega)]
    exact writeNode_of_not_word (h.link_not_node ha hb hp)
  refine ⟨h.has, ?_, h.once, ?_, ?_, ?_, ?_⟩
  · intro k
    exact ((h.list k).setFree hsite).congr fun b hb => hnode b ⟨k, hb⟩
  · intro b hb
    by_cases hba : b = a
    · subst hba
      rw [Contents.take_free_self, hfree, List.tail_cons]
      refine ⟨?_, ?_, (List.nodup_cons.1 hlist.nodup).2,
        fun p hp => hlist.sub (List.mem_cons_of_mem o hp)⟩
      · rw [hnode b ha, hself]
        refine hlist.chain.2.2.congr ?_
        intro p hp
        refine hlink b ha p (hlist.sub (List.mem_cons_of_mem o hp)) ?_
        rintro rfl
        exact honot hp
      · rw [hnode b ha, hself]
        rfl
    · have hb : c.Holds b := hb
      rw [Contents.take_free_of_ne hba]
      refine (h.free b hb).congr ?_ ?_ ?_
      · rw [hnode b hb, hother b hb hba]
      · rw [hnode b hb, hother b hb hba]
      · intro p hp
        have hpb := (h.free b hb).sub hp
        refine hlink b hb p hpb ?_
        rintro rfl
        exact hba ((h.site hb).eq_of_object hsite hpb hoa)
  · intro p
    have hout := h.out_iff p
    refine List.mem_cons.trans ?_
    rw [hout]
    constructor
    · rintro (rfl | ⟨b, hb, hpb, hnot⟩)
      · refine ⟨a, ha, hoa, ?_⟩
        rw [Contents.take_free_self, hfree, List.tail_cons]
        exact honot
      · refine ⟨b, hb, hpb, ?_⟩
        by_cases hba : b = a
        · subst hba
          rw [Contents.take_free_self]
          exact fun hp => hnot (List.mem_of_mem_tail hp)
        · rwa [Contents.take_free_of_ne hba]
    · rintro ⟨b, hb, hpb, hnot⟩
      by_cases hba : b = a
      · subst hba
        rw [Contents.take_free_self, hfree, List.tail_cons] at hnot
        by_cases hpo : p = o
        · exact Or.inl hpo
        · refine Or.inr ⟨b, hb, hpb, ?_⟩
          rw [hfree]
          simp [hpo, hnot]
      · rw [Contents.take_free_of_ne hba] at hnot
        exact Or.inr ⟨b, hb, hpb, hnot⟩
  · refine List.nodup_cons.2 ⟨?_, h.out_nodup⟩
    intro ho
    rcases (h.out_iff o).1 ho with ⟨b, hb, hob, hnot⟩
    have hba := (h.site hb).eq_of_object hsite hob hoa
    rw [hba, hfree] at hnot
    exact hnot List.mem_cons_self
  · intro p hp
    rcases List.mem_cons.1 hp with rfl | hp
    · exact Function.update_self _ _ _
    · rcases (h.out_iff p).1 hp with ⟨b, hb, hpb, hnot⟩
      have hpo : p ≠ o := by
        rintro rfl
        have hba := (h.site hb).eq_of_object hsite hpb hoa
        rw [hba, hfree] at hnot
        exact hnot List.mem_cons_self
      exact (hlink b hb p hpb hpo).trans (h.poison p hp)

/-- The object `o` returns to the free list of `a`. -/
def Contents.give (c : Contents) (a o : Nat) : Contents :=
  { c with free := Function.update c.free a (o :: c.free a), out := c.out.erase o }

theorem Contents.give_free_self : (c.give a o).free a = o :: c.free a :=
  Function.update_self _ _ _

theorem Contents.give_free_of_ne (h : b ≠ a) : (c.give a o).free b = c.free b :=
  Function.update_of_ne h _ _

theorem Core.give (h : Core sh g m c) (ha : c.Holds a) (ho : o ∈ c.out) (hoa : o ∈ objects sh a) :
    Core sh g (setFree A (Function.update m (o + sh.nextOff) (readNode A m a).free) a
      ((c.free a).length + 1) o) (c.give a o) := by
  have hsite := h.site ha
  have hlist := h.free a ha
  -- An object that is out is on no free list.
  have hfresh : ∀ b, c.Holds b → o ∉ c.free b := by
    intro b hb hob
    rcases (h.out_iff o).1 ho with ⟨d, hd, hod, hnot⟩
    have hdb := (h.site hd).eq_of_object (h.site hb) hod ((h.free b hb).sub hob)
    exact hnot (hdb ▸ hob)
  have hold : ∀ b, c.Holds b →
      readNode A (Function.update m (o + sh.nextOff) (readNode A m a).free) b = readNode A m b :=
    fun b hb => readNode_update (h.link_not_node hb ha hoa)
  have hself : readNode A (setFree A (Function.update m (o + sh.nextOff) (readNode A m a).free) a
      ((c.free a).length + 1) o) a = SlabNode.updateChecksum A
        { readNode A m a with avail := (c.free a).length + 1, free := o } := by
    rw [setFree, readNode_writeNode_self, hold a ha]
  have hother : ∀ b, c.Holds b → b ≠ a → readNode A (setFree A (Function.update m (o + sh.nextOff)
      (readNode A m a).free) a ((c.free a).length + 1) o) b = readNode A m b := by
    intro b hb hne
    rw [setFree, readNode_writeNode hsite (h.site hb), if_neg hne, hold b hb]
  -- The link of `o` is the old head; no other link changes.
  have hlink : ∀ b, c.Holds b → ∀ p ∈ objects sh b, setFree A (Function.update m (o + sh.nextOff)
      (readNode A m a).free) a ((c.free a).length + 1) o (p + sh.nextOff) =
        if p = o then (readNode A m a).free else m (p + sh.nextOff) := by
    intro b hb p hp
    rw [setFree, writeNode_of_not_word (h.link_not_node ha hb hp)]
    split
    · rename_i heq
      rw [heq, Function.update_self]
    · rename_i hne
      exact Function.update_of_ne (by omega) _ _
  refine ⟨h.has, ?_, h.once, ?_, ?_, h.out_nodup.erase o, ?_⟩
  · intro k
    exact ((h.list k).congr fun b hb => hold b ⟨k, hb⟩).setFree hsite
  · intro b hb
    by_cases hba : b = a
    · subst hba
      rw [Contents.give_free_self]
      refine ⟨⟨?_, hsite.object_ne_zero hoa, ?_⟩, ?_, List.nodup_cons.2 ⟨hfresh b ha, hlist.nodup⟩, ?_⟩
      · rw [hself]
        rfl
      · -- The list of the slab is the old one behind `o`.
        rw [hlink b ha o hoa, if_pos rfl]
        refine hlist.chain.congr fun p hp => ?_
        rw [hlink b ha p (hlist.sub hp), if_neg]
        rintro rfl
        exact hfresh b ha hp
      · rw [hself]
        rfl
      · intro p hp
        rcases List.mem_cons.1 hp with rfl | hp
        · exact hoa
        · exact hlist.sub hp
    · have hb : c.Holds b := hb
      rw [Contents.give_free_of_ne hba]
      refine (h.free b hb).congr ?_ ?_ ?_
      · rw [hother b hb hba]
      · rw [hother b hb hba]
      · intro p hp
        rw [hlink b hb p ((h.free b hb).sub hp), if_neg]
        rintro rfl
        exact hfresh b hb hp
  · intro p
    refine h.out_nodup.mem_erase_iff.trans ?_
    rw [h.out_iff p]
    constructor
    · rintro ⟨hne, b, hb, hpb, hnot⟩
      refine ⟨b, hb, hpb, ?_⟩
      by_cases hba : b = a
      · subst hba
        rw [Contents.give_free_self]
        simp [hne, hnot]
      · rwa [Contents.give_free_of_ne hba]
    · rintro ⟨b, hb, hpb, hnot⟩
      by_cases hba : b = a
      · subst hba
        rw [Contents.give_free_self, List.mem_cons, not_or] at hnot
        exact ⟨hnot.1, b, hb, hpb, hnot.2⟩
      · rw [Contents.give_free_of_ne hba] at hnot
        refine ⟨?_, b, hb, hpb, hnot⟩
        rintro rfl
        exact hba ((h.site hb).eq_of_object hsite hpb hoa)
  · intro p hp
    have hp := h.out_nodup.mem_erase_iff.1 hp
    rcases (h.out_iff p).1 hp.2 with ⟨b, hb, hpb, -⟩
    rw [hlink b hb p hpb, if_neg hp.1]
    exact h.poison p hp.2

theorem isMeta_link (ha : c.Holds a) (ho : o ∈ objects sh a) : IsMeta sh c (o + sh.nextOff) :=
  ⟨a, ha, Or.inr ⟨o, ho, rfl⟩⟩

theorem metaOnly_update {v : Nat} (ha : c.Holds a) (ho : o ∈ objects sh a) :
    MetaOnly sh c m (Function.update m (o + sh.nextOff) v) := by
  intro x hx
  refine Function.update_of_ne ?_ _ _
  rintro rfl
  exact hx (isMeta_link ha ho)

theorem metaOnly_setFree {avail f : Nat} (ha : c.Holds a) :
    MetaOnly sh c m (setFree A m a avail f) :=
  fun _ hx => writeNode_of_not_word fun hword => hx ⟨a, ha, Or.inl hword⟩

end Slab
end Propeller
