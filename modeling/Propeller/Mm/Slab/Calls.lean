import Propeller.Mm.Slab.Grant

/-!
# Slab.Calls — `alloc` and `free` keep the representation invariant

`Inv sh g m c` is the invariant between calls: the manager represents `c`, every slab is on the list that
its number of free objects says, and the counters are right.  `alloc_spec` and `free_spec` show that
both calls return, whatever the page allocator answers, and keep it.
-/

namespace Propeller
namespace Slab

variable {A : Arch} {sh : Shape A} {m m' : Mem} {a b o p x : Nat} {g g' : SlabManager}
  {c c' : Contents} {virtBase : Nat} {grant : Option Nat}

open SlabManager

/-! ## The invariant -/

/-- The list for a slab with `n` free objects. -/
def kindOf (sh : Shape A) (n : Nat) : Kind :=
  if n = sh.count then .unused else if n = 0 then .empty else .inUse

/-- The counters of the manager are those of `c`. -/
structure Counted (g : SlabManager) (c : Contents) : Prop where
  slabs : g.slabsAllocated = c.all.length
  available : g.objectsAvailable = c.available
  allocated : g.objectsAllocated = c.out.length

/-- The representation invariant of the slab layer. -/
structure Inv (sh : Shape A) (g : SlabManager) (m : Mem) (c : Contents) : Prop where
  core : Core sh g m c
  sorted : ∀ k, ∀ a ∈ c.slabs k, kindOf sh (c.free a).length = k
  counted : Counted g c

theorem kindOf_eq_unused {n : Nat} : kindOf sh n = .unused ↔ n = sh.count := by
  rw [kindOf]
  split
  · simp [*]
  · rename_i hne
    split
    · simp [hne]
    · simp [hne]

theorem kindOf_eq_empty {n : Nat} : kindOf sh n = .empty ↔ n = 0 := by
  have hpos := sh.count_pos
  rw [kindOf]
  split
  · rename_i heq
    simp only [reduceCtorEq, false_iff]
    omega
  · split
    · simp [*]
    · simp [*]

theorem kindOf_eq_inUse {n : Nat} (hle : n ≤ sh.count) :
    kindOf sh n = .inUse ↔ 0 < n ∧ n < sh.count := by
  rw [kindOf]
  split
  · simp [*]
  · split
    · simp [*]
    · simp only [true_iff]
      omega

theorem Counted.same (h : Counted g c) (hs : SameCounters g g')
    (hall : c'.all.length = c.all.length) (havail : c'.available = c.available)
    (hout : c'.out.length = c.out.length) : Counted g' c' :=
  ⟨hs.slabsAllocated.trans (h.slabs.trans hall.symm),
    hs.objectsAvailable.trans (h.available.trans havail.symm),
    hs.objectsAllocated.trans (h.allocated.trans hout.symm)⟩

/-! ## Counting -/

/-- Contents with the same slabs have the same number of them. -/
theorem all_perm (h : c.all.Nodup) (h' : c'.all.Nodup) (hholds : ∀ a, c'.Holds a ↔ c.Holds a) :
    c'.all.Perm c.all :=
  (List.perm_ext_iff_of_nodup h' h).2 fun a =>
    Contents.mem_all.trans ((hholds a).trans Contents.mem_all.symm)

theorem available_perm (hperm : c'.all.Perm c.all) (hfree : c'.free = c.free) :
    c'.available = c.available := by
  rw [Contents.available, Contents.available, hfree]
  exact (hperm.map _).sum_eq

/-- Changing the free list of one slab. -/
theorem available_update (c' : Contents) (hnd : c.all.Nodup) (ha : c.Holds a) (hall : c'.all = c.all)
    (hother : ∀ b, b ≠ a → c'.free b = c.free b) :
    c'.available + (c.free a).length = c.available + (c'.free a).length := by
  have hperm := List.perm_cons_erase (Contents.mem_all.2 ha)
  have hnot : a ∉ c.all.erase a := hnd.not_mem_erase
  have hsum : ∀ f : Nat → List Nat, (c.all.map fun b => (f b).length).sum =
      (f a).length + ((c.all.erase a).map fun b => (f b).length).sum := by
    intro f
    rw [(hperm.map _).sum_eq, List.map_cons, List.sum_cons]
  have hrest : ((c.all.erase a).map fun b => (c'.free b).length) =
      (c.all.erase a).map fun b => (c.free b).length := by
    refine List.map_congr_left fun b hb => ?_
    rw [hother b]
    rintro rfl
    exact hnot hb
  rw [Contents.available, Contents.available, hall, hsum c'.free, hsum c.free, hrest]
  omega

theorem Counted.move {src dst : Kind} (h : Counted g c) (hc : Core sh g m c) (hne : src ≠ dst)
    (ha : a ∈ c.slabs src) (hc' : Core sh g' m' (c.move src dst a)) (hs : SameCounters g g') :
    Counted g' (c.move src dst a) := by
  have hperm := all_perm hc.all_nodup hc'.all_nodup fun b => hc.holds_move hne ha
  exact h.same hs hperm.length_eq (available_perm hperm rfl) rfl

theorem available_take {os : List Nat} (hc : Core sh g m c) (ha : c.Holds a)
    (hfree : c.free a = o :: os) : (c.take a o).available + 1 = c.available := by
  have hupd := available_update (c.take a o) hc.all_nodup ha rfl
    fun b hb => Contents.take_free_of_ne hb
  rw [Contents.take_free_self, hfree, List.tail_cons, List.length_cons] at hupd
  omega

theorem available_give (hc : Core sh g m c) (ha : c.Holds a) :
    (c.give a o).available = c.available + 1 := by
  have hupd := available_update (c.give a o) hc.all_nodup ha rfl
    fun b hb => Contents.give_free_of_ne hb
  rw [Contents.give_free_self, List.length_cons] at hupd
  omega

/-- A new slab counts as one slab, with all its objects available. -/
theorem enter_counts (hc : Core sh g m c) (hc' : Core sh g' m' (c.enter sh a))
    (hnot : ¬ c.Holds a) :
    (c.enter sh a).all.length = c.all.length + 1 ∧
      (c.enter sh a).available = c.available + sh.count := by
  have hnot' : a ∉ c.all := fun ha => hnot (Contents.mem_all.1 ha)
  have hperm : (c.enter sh a).all.Perm (a :: c.all) := by
    refine (List.perm_ext_iff_of_nodup hc'.all_nodup
      (List.nodup_cons.2 ⟨hnot', hc.all_nodup⟩)).2 fun b => ?_
    rw [Contents.mem_all, Contents.holds_enter, List.mem_cons, Contents.mem_all]
    exact or_comm
  refine ⟨by rw [hperm.length_eq, List.length_cons], ?_⟩
  have hrest : (c.all.map fun b => ((c.enter sh a).free b).length) =
      c.all.map fun b => (c.free b).length := by
    refine List.map_congr_left fun b hb => ?_
    rw [Contents.enter_free_of_ne]
    rintro rfl
    exact hnot' hb
  rw [Contents.available, (hperm.map _).sum_eq, List.map_cons, List.sum_cons, hrest,
    Contents.enter_free_self, List.length_reverse, objects_length, Contents.available]
  exact Nat.add_comm _ _

/-! ## Finding a slab -/

/-- Every slab is on its list, but for one that has just come into use with all its objects. -/
def AlmostSorted (sh : Shape A) (c : Contents) : Prop :=
  ∀ k, ∀ a ∈ c.slabs k, kindOf sh (c.free a).length = k ∨
    k = .inUse ∧ c.slabs .inUse = [a] ∧ (c.free a).length = sh.count

/-- The slabs of `c'` are those of `c` and the one in the block taken, if any. -/
def Grown (sh : Shape A) (virtBase : Nat) (taken : Option Nat) (c c' : Contents) : Prop :=
  ∀ a, c'.Holds a ↔ c.Holds a ∨ ∃ p ∈ taken, a = grantNode sh virtBase p

theorem Grown.of_iff (h : ∀ a, c'.Holds a ↔ c.Holds a) : Grown sh virtBase none c c' :=
  fun a => by simpa using h a

/-- What `findSlab` leaves behind. -/
structure Found (sh : Shape A) (virtBase : Nat) (taken : Option Nat) (c : Contents) (m : Mem)
    (g' : SlabManager) (m' : Mem) (c' : Contents) : Prop where
  core : Core sh g' m' c'
  counted : Counted g' c'
  sorted : AlmostSorted sh c'
  out : c'.out = c.out
  grown : Grown sh virtBase taken c c'
  metaOnly : MetaOnly sh c' m m'

theorem Inv.almostSorted (h : Inv sh g m c) : AlmostSorted sh c :=
  fun k a ha => Or.inl (h.sorted k a ha)

theorem Inv.found (h : Inv sh g m c) : Found sh virtBase none c m g m c :=
  ⟨h.core, h.counted, h.almostSorted, rfl, Grown.of_iff fun _ => Iff.rfl, fun _ _ => rfl⟩

/-- An unused slab comes into use. -/
theorem Inv.found_move (h : Inv sh g m c) (huse : c.slabs .inUse = []) (ha : a ∈ c.slabs .unused) :
    ∃ g' m', moveSlab A .unused .inUse a g m = .ok (g', m') ∧
      Found sh virtBase none c m g' m' (c.move .unused .inUse a) ∧ g'.inUse = a := by
  have hne : Kind.unused ≠ Kind.inUse := by decide
  rcases h.core.move hne ha with ⟨g', m', hrun, hcore, hs, honly⟩
  have hlist : (c.move .unused .inUse a).slabs .inUse = [a] := by
    simp [Contents.move, huse]
  have hiff := fun b => h.core.holds_move hne ha (b := b)
  refine ⟨g', m', hrun, ⟨hcore, h.counted.move h.core hne ha hcore hs, ?_, rfl,
    Grown.of_iff hiff, honly.mono fun b => (hiff b).2⟩, ?_⟩
  · intro k b hb
    replace hb := (h.core.mem_move hne ha).1 hb
    split at hb
    · rename_i heq
      subst heq
      -- The moved slab is unused in the list of the slabs in use, until the object is taken from it.
      right
      refine ⟨hb, hlist, ?_⟩
      exact kindOf_eq_unused.1 (h.sorted .unused b ha)
    · left
      exact h.sorted k b hb
  · have hhead := (hcore.list .inUse).head
    rw [hlist] at hhead
    exact hhead

/-- A new slab comes into use. -/
theorem Inv.found_enter (h : Inv sh g m c) (huse : c.slabs .inUse = []) (hbase : sh.size ∣ virtBase)
    (hgrant : Granted sh virtBase c p) :
    ∃ g₁ m₁ head m₂, allocSlab A sh.toLayout virtBase (some p) g m =
        .ok (some (grantNode sh virtBase p), g₁, m₁) ∧
      addSlabToTail A g₁.inUse (grantNode sh virtBase p) m₁ = .ok (head, m₂) ∧
      Found sh virtBase (some p) c m { g₁ with inUse := head } m₂
        (c.enter sh (grantNode sh virtBase p)) ∧ head ≠ 0 := by
  have hsite := hgrant.site hbase
  have hnot := hgrant.not_holds h.core
  -- A slab more still fits into the address space, so the counters do not overflow.
  have hroom := h.core.room hsite hnot
  rw [← h.counted.slabs, ← h.counted.available] at hroom
  rcases allocSlab_spec (m := m) h.core.has hbase hgrant hroom.1 hroom.2 with ⟨m₁, hrun, hfresh⟩
  -- The counters are changed before the slab is linked.
  have hcore₁ : Core sh { g with
      slabsAllocated := g.slabsAllocated + 1
      objectsAvailable := g.objectsAvailable + sh.count } m c := by
    refine ⟨⟨h.core.has.size, h.core.has.count⟩, fun k => ?_, h.core.once, h.core.free,
      h.core.out_iff, h.core.out_nodup, h.core.poison⟩
    cases k with
    | unused => exact h.core.list .unused
    | inUse => exact h.core.list .inUse
    | empty => exact h.core.list .empty
  rcases hcore₁.enter hsite hnot hfresh with ⟨head, m₂, hadd, hcore, honly⟩
  have hcounts := enter_counts h.core hcore hnot
  have hlist : (c.enter sh (grantNode sh virtBase p)).slabs .inUse = [grantNode sh virtBase p] := by
    simp [Contents.enter, huse]
  refine ⟨_, m₁, head, m₂, hrun, hadd, ⟨hcore, ⟨?_, ?_, h.counted.allocated⟩, ?_, rfl, ?_, honly⟩, ?_⟩
  · rw [hcounts.1, ← h.counted.slabs]
  · rw [hcounts.2, ← h.counted.available]
  · intro k b hb
    rcases Contents.mem_enter.1 hb with hb | ⟨rfl, rfl⟩
    · left
      rw [Contents.enter_free_of_ne]
      · exact h.sorted k b hb
      · rintro rfl
        exact hnot ⟨k, hb⟩
    · right
      refine ⟨rfl, hlist, ?_⟩
      rw [Contents.enter_free_self, List.length_reverse, objects_length]
  · intro b
    rw [Contents.holds_enter]
    simp
  · have hhead := (hcore.list .inUse).head
    rw [hlist] at hhead
    have hhead' : head = grantNode sh virtBase p := hhead
    rw [hhead']
    exact hsite.ne_zero

/-- `alloc` finds a slab, unless the page allocator fails. -/
theorem findSlab_spec (h : Inv sh g m c) (hbase : sh.size ∣ virtBase)
    (hgrant : ∀ p ∈ g.taken grant, Granted sh virtBase c p) :
    ∃ g' m' c', findSlab A sh.toLayout virtBase grant g m = .ok (g', m') ∧
      Found sh virtBase (g.taken grant) c m g' m' c' ∧
      (g'.inUse = 0 → (g.inUse = 0 ∧ g.unused = 0) ∧ grant = none ∧ g' = g ∧ m' = m ∧ c' = c) := by
  -- A slab in use, else an unused one, else a new one from the page allocator.
  by_cases huse : g.inUse = 0
  · have hnil : c.slabs .inUse = [] := (h.core.list .inUse).head_eq_zero_iff.1 huse
    by_cases hunused : g.unused = 0
    · have htaken : g.taken grant = grant := if_pos ⟨huse, hunused⟩
      rw [htaken] at hgrant ⊢
      cases grant with
      | none =>
          refine ⟨g, m, c, ?_, h.found, fun _ => ⟨⟨huse, hunused⟩, rfl, rfl, rfl, rfl⟩⟩
          have hsame : ({ g with unused := 0, inUse := 0 } : SlabManager) = g := by
            cases g
            cases huse
            cases hunused
            rfl
          simp [findSlab, moveSlabIf, huse, hunused, allocSlab, addSlabToTail, hsame]
      | some p =>
          rcases h.found_enter hnil hbase (hgrant p rfl) with
            ⟨g₁, m₁, head, m₂, halloc, hadd, hfound, hhead⟩
          refine ⟨_, m₂, _, ?_, hfound, fun hzero => absurd hzero hhead⟩
          simp [findSlab, moveSlabIf, huse, hunused, halloc, hadd]
    · have htaken : g.taken grant = none := if_neg fun hboth => hunused hboth.2
      rw [htaken]
      have hmem : g.unused ∈ c.slabs .unused := by
        have hlist := h.core.list .unused
        have hhead : g.unused = (c.slabs .unused).headD 0 := hlist.head
        cases hs : c.slabs .unused with
        | nil =>
            rw [hs] at hhead
            exact absurd hhead hunused
        | cons d t =>
            rw [hs] at hhead
            rw [hhead]
            exact List.mem_cons_self
      obtain ⟨g', m', hrun, hfound, hhead⟩ := h.found_move hnil hmem
      have hne : g'.inUse ≠ 0 := by
        rw [hhead]
        exact hunused
      refine ⟨g', m', _, ?_, hfound, fun hzero => absurd hzero hne⟩
      simp [findSlab, moveSlabIf, huse, hunused, hrun, hne]
  · have htaken : g.taken grant = none := if_neg fun hboth => huse hboth.1
    rw [htaken]
    refine ⟨g, m, c, ?_, h.found, fun hzero => absurd hzero huse⟩
    simp [findSlab, moveSlabIf, huse]

/-! ## Taking an object -/

theorem Core.getNode (h : Core sh g m c) (ha : c.Holds a) :
    getSlabNodeMut A m a = .ok (readNode A m a) :=
  getSlabNodeMut_eq (h.site ha).ne_zero (h.valid ha)

theorem getObjectMut_eq {ly : Layout A} (ho : o ≠ 0) : getObjectMut ly o = .ok (o + ly.nextOff) := by
  simp only [getObjectMut, require_pos ho, run_ok_bind]
  rfl

/-- The counters after one object has been taken. -/
theorem Counted.take {os : List Nat} (h : Counted g c) (hc : Core sh g m c) (ha : c.Holds a)
    (hfree : c.free a = o :: os) :
    g.objectsAllocated + 1 < A.wordLimit ∧ 1 ≤ g.objectsAvailable ∧
      Counted { g with
        objectsAllocated := g.objectsAllocated + 1
        objectsAvailable := g.objectsAvailable - 1 } (c.take a o) := by
  have havail := available_take hc ha hfree
  have hlt := hc.objects_lt
  have h₁ := h.available
  have h₂ := h.allocated
  refine ⟨by omega, by omega, h.slabs, ?_, ?_⟩
  · simp only
    omega
  · simp only [Contents.take, List.length_cons]
    omega

/-- The counters do not matter to the representation. -/
theorem Core.counters {n k l : Nat} (h : Core sh g m c) :
    Core sh { g with slabsAllocated := n, objectsAllocated := k, objectsAvailable := l } m c := by
  refine ⟨⟨h.has.size, h.has.count⟩, fun k => ?_, h.once, h.free, h.out_iff, h.out_nodup, h.poison⟩
  cases k with
  | unused => exact h.list .unused
  | inUse => exact h.list .inUse
  | empty => exact h.list .empty

/-- After an object has been taken from or put into a slab in use, the slab goes to the list it belongs to. -/
theorem Core.settle {dst : Kind} {cond : Prop} [Decidable cond] {k l : Nat} (h : Core sh g m c) (hne : Kind.inUse ≠ dst)
    (ha : a ∈ c.slabs .inUse) (hother : ∀ k, ∀ b ∈ c.slabs k, b ≠ a → kindOf sh (c.free b).length = k)
    (hkind : kindOf sh (c.free a).length = if cond then dst else .inUse)
    (hcounted : Counted { g with objectsAllocated := k, objectsAvailable := l } c) :
    ∃ g' m' c', moveSlabIf A cond .inUse dst a g m = .ok (g', m') ∧ SameCounters g g' ∧
      Inv sh { g' with objectsAllocated := k, objectsAvailable := l } m' c' ∧ c'.out = c.out ∧
      (∀ b, c'.Holds b ↔ c.Holds b) ∧ MetaOnly sh c m m' := by
  -- The slab moves to another list exactly if its count says so.
  by_cases hcond : cond
  · rw [if_pos hcond] at hkind
    rcases h.move hne ha with ⟨g', m', hmove, hcore, hs, honly⟩
    refine ⟨g', m', _, (if_pos hcond).trans hmove, hs, ⟨hcore.counters, ?_, ?_⟩, rfl, fun b => h.holds_move hne ha, honly⟩
    · intro k b hb
      replace hb := (h.mem_move hne ha).1 hb
      split at hb
      next heq =>
        subst heq
        exact hkind.trans hb.symm
      next hba => exact hother k b hb hba
    · exact hcounted.move h.counters hne ha hcore.counters
        ⟨hs.slabPages, hs.objsPerSlab, hs.slabsAllocated, rfl, rfl⟩
  · rw [if_neg hcond] at hkind
    refine ⟨g, m, c, if_neg hcond, SameCounters.refl g, ⟨h.counters, ?_, hcounted⟩, rfl, fun b => Iff.rfl, fun _ _ => rfl⟩
    intro k b hb
    by_cases hba : b = a
    · subst hba
      rw [hkind, h.once k .inUse b hb ha]
    · exact hother k b hb hba

/-- Taking the first free object of the first slab in use. -/
theorem takeObject_spec {t os : List Nat} (h : Core sh g m c) (hcount : Counted g c)
    (hsorted : AlmostSorted sh c) (huse : c.slabs .inUse = a :: t) (hfree : c.free a = o :: os) :
    ∃ g' m' c', takeObject A sh.toLayout g m = .ok (o, g', m') ∧ Inv sh g' m' c' ∧
      c'.out = o :: c.out ∧ (∀ b, c'.Holds b ↔ c.Holds b) ∧ MetaOnly sh c m m' := by
  have hmem : a ∈ c.slabs .inUse := huse ▸ List.mem_cons_self
  have ha : c.Holds a := ⟨_, hmem⟩
  have hlist := h.free a ha
  have hhead : g.inUse = a := by
    have hh := (h.list .inUse).head
    rw [huse] at hh
    exact hh
  have hchain := hlist.chain
  have havail := hlist.avail
  rw [hfree] at hchain havail
  have hoa : o ∈ objects sh a := hlist.sub (hfree ▸ List.mem_cons_self)
  have ho0 : o ≠ 0 := hchain.2.1
  have hfirst : (readNode A m a).free = o := hchain.1
  have hcore := h.take ha hfree
  have hcounted := hcount.take h ha hfree
  have hlen : os.length < sh.count := by
    have hle := (hlist.nodup.subperm hlist.sub).length_le
    rw [hfree, List.length_cons, objects_length] at hle
    omega
  have honly : MetaOnly sh c m (Function.update (setFree A m a os.length (m (o + sh.nextOff)))
      (o + sh.nextOff) A.poison) :=
    (metaOnly_setFree ha).trans (metaOnly_update ha hoa)
  -- The other slabs are on their lists.
  have hother : ∀ k, ∀ b ∈ c.slabs k, b ≠ a → kindOf sh ((c.take a o).free b).length = k := by
    intro k b hb hba
    rw [Contents.take_free_of_ne hba]
    rcases hsorted k b hb with hk | ⟨rfl, honce, -⟩
    · exact hk
    · rw [huse] at honce
      injection honce with hab _
      exact absurd hab.symm hba
  have hleft : (c.take a o).free a = os := by
    rw [Contents.take_free_self, hfree, List.tail_cons]
  have hnodeAvail : (readNode A (Function.update (setFree A m a os.length (m (o + sh.nextOff)))
      (o + sh.nextOff) A.poison) a).avail = os.length := by
    rw [(hcore.free a ha).avail, hleft]
  have hrun : ∀ g₁ m₁, moveSlabIf A (os.length = 0) .inUse .empty a g (Function.update
      (setFree A m a os.length (m (o + sh.nextOff))) (o + sh.nextOff) A.poison) = .ok (g₁, m₁) →
      SameCounters g g₁ →
      takeObject A sh.toLayout g m = .ok (o, { g₁ with
        objectsAllocated := g.objectsAllocated + 1
        objectsAvailable := g.objectsAvailable - 1 }, m₁) := by
    intro g₁ m₁ hmove hs
    have havail0 : 0 < (readNode A m a).avail := by
      rw [havail]
      exact Nat.succ_pos _
    have hpred : (readNode A m a).avail - 1 = os.length := by
      rw [havail, List.length_cons, Nat.add_sub_cancel]
    simp only [takeObject, hhead, h.getNode ha, run_ok_bind, hfirst, require_pos ho0,
      require_pos havail0, getObjectMut_eq ho0, hpred, hnodeAvail, hmove,
      hs.objectsAllocated, hs.objectsAvailable, checkedAdd_of_lt hcounted.1,
      checkedSub_of_le hcounted.2.1]
    rfl
  -- The slab of the last object goes to the empty list.
  have hkind : kindOf sh ((c.take a o).free a).length = if os.length = 0 then .empty else .inUse := by
    rw [hleft]
    split
    next hos => exact kindOf_eq_empty.2 hos
    next hos => exact (kindOf_eq_inUse hlen.le).2 ⟨Nat.pos_of_ne_zero hos, hlen⟩
  rcases hcore.settle (by decide) hmem hother hkind hcounted.2.2 with ⟨g₁, m₁, c₁, hmove, hs, hinv, hout, hholds, honly₁⟩
  exact ⟨_, m₁, c₁, hrun g₁ m₁ hmove hs, hinv, hout, hholds, honly.trans honly₁⟩

/-! ## The two calls -/

/-- `alloc` returns.  It fails, changing nothing, only if the page allocator does; otherwise it hands out
an object that was not outstanding. -/
theorem alloc_spec (h : Inv sh g m c) (hbase : sh.size ∣ virtBase)
    (hgrant : ∀ p ∈ g.taken grant, Granted sh virtBase c p) :
    ∃ r g' m' c', alloc A sh.toLayout virtBase grant g m = .ok (r, g', m') ∧ Inv sh g' m' c' ∧
      Grown sh virtBase (g.taken grant) c c' ∧ MetaOnly sh c' m m' ∧
      (r = none ∧ grant = none ∧ (g.inUse = 0 ∧ g.unused = 0) ∧ g' = g ∧ m' = m ∧ c' = c ∨
        ∃ o, r = some o ∧ o ∉ c.out ∧ c'.out = o :: c.out) := by
  rcases findSlab_spec h hbase hgrant with ⟨g₁, m₁, c₁, hfind, hfound, hnone⟩
  by_cases huse : g₁.inUse = 0
  · rcases hnone huse with ⟨hask, hgr, rfl, rfl, rfl⟩
    refine ⟨none, g₁, m₁, c₁, ?_, h, hfound.grown, fun _ _ => rfl, Or.inl ⟨rfl, hgr, hask, rfl, rfl, rfl⟩⟩
    simp [alloc, hfind, huse]
  · cases hlist : c₁.slabs .inUse with
    | nil =>
        have hhead := (hfound.core.list .inUse).head_eq_zero_iff.2 hlist
        exact absurd hhead huse
    | cons a t =>
        have hmem : a ∈ c₁.slabs .inUse := hlist ▸ List.mem_cons_self
        -- A slab in use has a free object.
        have hne : c₁.free a ≠ [] := by
          intro hnil
          have hpos := sh.count_pos
          rcases hfound.sorted .inUse a hmem with hk | ⟨-, -, hfull⟩
          · rw [hnil, List.length_nil, kindOf_eq_empty.2 rfl] at hk
            cases hk
          · rw [hnil, List.length_nil] at hfull
            omega
        rcases List.exists_cons_of_ne_nil hne with ⟨o, os, hfree⟩
        rcases takeObject_spec hfound.core hfound.counted hfound.sorted hlist hfree with
          ⟨g', m', c', htake, hinv, hout, hholds, honly⟩
        have honot : o ∉ c.out := by
          have hnd := hinv.core.out_nodup
          rw [hout, List.nodup_cons, hfound.out] at hnd
          exact hnd.1
        refine ⟨some o, g', m', c', ?_, hinv, ?_, ?_, Or.inr ⟨o, rfl, honot, ?_⟩⟩
        · simp [alloc, hfind, huse, htake]
        · exact fun b => (hholds b).trans (hfound.grown b)
        · exact (hfound.metaOnly.trans honly).mono fun b => (hholds b).2
        · rw [hout, hfound.out]

/-- The counters after one object has been put back. -/
theorem Counted.give (h : Counted g c) (hc : Core sh g m c) (ha : c.Holds a) (ho : o ∈ c.out) :
    1 ≤ g.objectsAllocated ∧ Counted { g with
      objectsAllocated := g.objectsAllocated - 1
      objectsAvailable := g.objectsAvailable + 1 } (c.give a o) := by
  have havail := available_give (o := o) hc ha
  have hpos := List.length_pos_of_mem ho
  have herase := List.length_erase_of_mem ho
  have h₁ := h.available
  have h₂ := h.allocated
  refine ⟨by omega, h.slabs, ?_, ?_⟩
  · simp only
    omega
  · simp only [Contents.give]
    omega

/-- A slab that is not full comes into use, if it is empty. -/
theorem Inv.intoUse (h : Inv sh g m c) (ha : c.Holds a) (hlen : (c.free a).length < sh.count) :
    ∃ g₁ m₁ c₁, moveSlabIf A ((c.free a).length = 0) .empty .inUse a g m = .ok (g₁, m₁) ∧
      Core sh g₁ m₁ c₁ ∧ SameCounters g g₁ ∧ a ∈ c₁.slabs .inUse ∧
      c₁.free = c.free ∧ c₁.out = c.out ∧ Counted g₁ c₁ ∧ (∀ b, c₁.Holds b ↔ c.Holds b) ∧
      MetaOnly sh c m m₁ ∧
      ∀ k, ∀ b ∈ c₁.slabs k, b ≠ a → kindOf sh (c.free b).length = k := by
  rcases ha with ⟨k, hk⟩
  have hkind := h.sorted k a hk
  -- A slab that gets an object back is in use after it; it only moves if it had none.
  by_cases hzero : (c.free a).length = 0
  · obtain rfl : k = .empty := hkind.symm.trans (kindOf_eq_empty.2 hzero)
    have hne : Kind.empty ≠ Kind.inUse := by decide
    rcases h.core.move hne hk with ⟨g₁, m₁, hmove, hcore₁, hs, honly⟩
    refine ⟨g₁, m₁, _, (if_pos hzero).trans hmove, hcore₁, hs,
      (h.core.mem_move hne hk).2 (by rw [if_pos rfl]), rfl, rfl,
      h.counted.move h.core hne hk hcore₁ hs, fun b => h.core.holds_move hne hk, honly, ?_⟩
    intro k' b hb hba
    replace hb := (h.core.mem_move hne hk).1 hb
    rw [if_neg hba] at hb
    exact h.sorted k' b hb
  · obtain rfl : k = .inUse :=
      hkind.symm.trans ((kindOf_eq_inUse hlen.le).2 ⟨Nat.pos_of_ne_zero hzero, hlen⟩)
    exact ⟨g, m, c, if_neg hzero, h.core, SameCounters.refl g, hk, rfl, rfl, h.counted,
      fun _ => Iff.rfl, fun _ _ => rfl, fun k' b hb _ => h.sorted k' b hb⟩

/-- `free` of an outstanding object returns and puts it back. -/
theorem free_spec (h : Inv sh g m c) (ho : o ∈ c.out) :
    ∃ g' m' c', free A sh.toLayout o g m = .ok (g', m') ∧ Inv sh g' m' c' ∧
      c'.out = c.out.erase o ∧ (∀ b, c'.Holds b ↔ c.Holds b) ∧ MetaOnly sh c m m' := by
  rcases (h.core.out_iff o).1 ho with ⟨a, ha, hoa, hnot⟩
  have hsite := h.core.site ha
  have ho0 := hsite.object_ne_zero hoa
  have hlist := h.core.free a ha
  have hlen : (c.free a).length < sh.count := by
    have hnd : (o :: c.free a).Nodup := List.nodup_cons.2 ⟨hnot, hlist.nodup⟩
    have hsub : o :: c.free a ⊆ objects sh a := List.cons_subset.2 ⟨hoa, hlist.sub⟩
    have hle := (hnd.subperm hsub).length_le
    rw [List.length_cons, objects_length] at hle
    omega
  have hobj : getObjectMut sh.toLayout o = .ok (o + sh.nextOff) := getObjectMut_eq ho0
  -- An empty slab comes into use first.
  rcases h.intoUse ha hlen with
    ⟨g₁, m₁, c₁, hfirst, hcore₁, hs₁, hin₁, hfree₁, hout₁, hcounted₁, hholds₁, honly₁, hsorted₁⟩
  have ha₁ : c₁.Holds a := ⟨_, hin₁⟩
  have ho₁ : o ∈ c₁.out := hout₁ ▸ ho
  have hcore₂ := hcore₁.give ha₁ ho₁ hoa
  rw [hfree₁] at hcore₂
  have hpoison : m₁ (o + sh.nextOff) = A.poison := hcore₁.poison o ho₁
  have honly₂ : MetaOnly sh c m₁ (setFree A (Function.update m₁ (o + sh.nextOff)
      (readNode A m₁ a).free) a ((c.free a).length + 1) o) :=
    (metaOnly_update ha hoa).trans (metaOnly_setFree ha)
  have hgiven : (c₁.give a o).free a = o :: c.free a := by
    rw [Contents.give_free_self, hfree₁]
  have hother : ∀ k, ∀ b ∈ c₁.slabs k, b ≠ a → kindOf sh ((c₁.give a o).free b).length = k := by
    intro k b hb hba
    rw [Contents.give_free_of_ne hba, hfree₁]
    exact hsorted₁ k b hb hba
  rcases hcounted₁.give hcore₁ ha₁ ho₁ with ⟨hallocated, hcounted₂⟩
  have hrun : ∀ g₂ m₂, moveSlabIf A ((c.free a).length + 1 = sh.count) .inUse .unused a g₁
      (setFree A (Function.update m₁ (o + sh.nextOff) (readNode A m₁ a).free) a
        ((c.free a).length + 1) o) = .ok (g₂, m₂) →
      SameCounters g₁ g₂ → free A sh.toLayout o g m = .ok ({ g₂ with
        objectsAllocated := g₁.objectsAllocated - 1
        objectsAvailable := g₁.objectsAvailable + 1 }, m₂) := by
    intro g₂ m₂ hmove hs
    have hnode := hsite.nodeOfObject_eq hoa h.core.has
    have hless : (c.free a).length < g.objsPerSlab := by
      rw [h.core.has.count]
      exact hlen
    have hread : readNode A (Function.update m₁ (o + sh.nextOff) (readNode A m₁ a).free) a =
        readNode A m₁ a := readNode_update (hcore₁.link_not_node ha₁ ha₁ hoa)
    have havail₁ : (readNode A m₁ a).avail = (c.free a).length := by
      rw [(hcore₁.free a ha₁).avail, hfree₁]
    have hadd : checkedAdd A (c.free a).length 1 = .ok ((c.free a).length + 1) := by
      have hsz := sh.count_lt_size
      have hend := hsite.base_add
      have hsl := hsite.lt
      exact checkedAdd_of_lt (by omega)
    have havail₂ : (readNode A (setFree A (Function.update m₁ (o + sh.nextOff)
        (readNode A m₁ a).free) a ((c.free a).length + 1) o) a).avail = (c.free a).length + 1 := by
      rw [(hcore₂.free a ha₁).avail, hgiven, List.length_cons]
    have hcnt : g₁.objsPerSlab = sh.count := hcore₁.has.count
    have hmore : checkedAdd A g₁.objectsAvailable 1 = .ok (g₁.objectsAvailable + 1) := by
      have hlt := hcore₂.objects_lt
      have havail := hcounted₂.available
      simp only at havail
      exact checkedAdd_of_lt (by omega)
    simp only [free, if_neg ho0, hnode, run_ok_bind, h.core.getNode ha, require_pos hless,
      hlist.avail, hfirst, hobj, require_pos hpoison, hread, havail₁, hadd, havail₂, hcnt, hmove,
      hs.objectsAllocated, hs.objectsAvailable, checkedSub_of_le hallocated, hmore]
    rfl
  -- The slab of the last object goes to the unused list.
  have hkind : kindOf sh ((c₁.give a o).free a).length =
      if (c.free a).length + 1 = sh.count then .unused else .inUse := by
    rw [hgiven, List.length_cons]
    split
    next hfull => exact kindOf_eq_unused.2 hfull
    next hfull => exact (kindOf_eq_inUse hlen).2 ⟨Nat.succ_pos _, by omega⟩
  rcases hcore₂.settle (by decide) hin₁ hother hkind hcounted₂ with ⟨g₂, m₂, c₂, hmove, hs₂, hinv, hout₂, hholds₂, honly₃⟩
  refine ⟨_, m₂, c₂, hrun g₂ m₂ hmove hs₂, hinv, ?_, fun b => (hholds₂ b).trans (hholds₁ b), ?_⟩
  · exact hout₂.trans (congrArg (List.erase · o) hout₁)
  · exact (honly₁.trans honly₂).trans (honly₃.mono fun b => (hholds₁ b).1)

end Slab
end Propeller
