import Propeller.Mm.Slab.Nodes

/-!
# Slab.Contents — what a slab manager holds

`Contents` is the abstract side of a slab manager: the slabs on each of its three lists, the free list
of every slab, and the objects that are outstanding.  `Core sh g m c` says that the manager `g` and the
memory `m` represent `c`.  The representation lies in the metadata words of the slabs, that is, their
nodes and the links behind their objects: no other word matters to it (`Core.congr`), which leaves the
objects themselves to the clients.
-/

namespace Propeller
namespace Slab

variable {A : Arch} {sh : Shape A} {m m' : Mem} {a b o p x : Nat} {g : SlabManager}

/-! ## The objects of a slab -/

/-- The objects of the slab with node `a`, in the order of their addresses. -/
def objects (sh : Shape A) (a : Nat) : List Nat :=
  (List.range sh.count).map fun i => slabBase sh a + i * sh.objSize

theorem mem_objects : o ∈ objects sh a ↔ ∃ i < sh.count, slabBase sh a + i * sh.objSize = o := by
  simp [objects]

theorem Shape.objSize_pos (sh : Shape A) : 0 < sh.objSize :=
  (wordBytes_pos A).trans_le ((Nat.le_add_left _ _).trans sh.next_le)

theorem objects_nodup (sh : Shape A) (a : Nat) : (objects sh a).Nodup := by
  refine List.Nodup.map ?_ List.nodup_range
  intro i j hij
  have hij' : i * sh.objSize = j * sh.objSize := Nat.add_left_cancel hij
  exact Nat.eq_of_mul_eq_mul_right sh.objSize_pos hij'

@[simp] theorem objects_length (sh : Shape A) (a : Nat) : (objects sh a).length = sh.count := by
  simp [objects]

/-- Objects lie in their slab, before the node. -/
theorem Site.object_inside (ha : Site sh a) (ho : o ∈ objects sh a) :
    slabBase sh a ≤ o ∧ o + sh.objSize ≤ a := by
  rcases mem_objects.1 ho with ⟨i, hi, rfl⟩
  have hmul := Nat.mul_le_mul_right sh.objSize (Nat.succ_le_of_lt hi)
  rw [Nat.succ_mul] at hmul
  have hfits := sh.fits
  have hbase := ha.base_add
  exact ⟨Nat.le_add_right _ _, by omega⟩

theorem Site.object_ne_zero (ha : Site sh a) (ho : o ∈ objects sh a) : o ≠ 0 := by
  have hpos := ha.base_pos
  have hle := (ha.object_inside ho).1
  rw [slabBase] at hle
  omega

/-- An object lies in one slab. -/
theorem Site.eq_of_object (ha : Site sh a) (hb : Site sh b) (hoa : o ∈ objects sh a)
    (hob : o ∈ objects sh b) : a = b := by
  by_contra hne
  have hina := ha.object_inside hoa
  have hinb := hb.object_inside hob
  have hpos := sh.objSize_pos
  rcases ha.apart hb hne with hlt | hlt
  · omega
  · omega

/-- Two objects are one or share no address. -/
theorem Site.objects_apart (ha : Site sh a) (hb : Site sh b) (ho : o ∈ objects sh a)
    (hp : p ∈ objects sh b) (hne : o ≠ p) : o + sh.objSize ≤ p ∨ p + sh.objSize ≤ o := by
  have hina := ha.object_inside ho
  have hinb := hb.object_inside hp
  -- In one slab the objects are multiples of the object size apart; two slabs do not overlap.
  by_cases hab : a = b
  · subst hab
    rcases mem_objects.1 ho with ⟨i, -, rfl⟩
    rcases mem_objects.1 hp with ⟨j, -, rfl⟩
    rcases Nat.lt_trichotomy i j with hlt | heq | hlt
    · left
      have hmul := Nat.mul_le_mul_right sh.objSize (Nat.succ_le_of_lt hlt)
      rw [Nat.succ_mul] at hmul
      omega
    · exact absurd (heq ▸ rfl) hne
    · right
      have hmul := Nat.mul_le_mul_right sh.objSize (Nat.succ_le_of_lt hlt)
      rw [Nat.succ_mul] at hmul
      omega
  · have hbase := ha.base_add
    have hbase' := hb.base_add
    rcases ha.apart hb hab with hlt | hlt
    · left
      omega
    · right
      omega

/-- A word of an object is no word of a node. -/
theorem Site.not_isNodeWord (ha : Site sh a) (hb : Site sh b) (ho : o ∈ objects sh b)
    (hlo : o ≤ x) (hhi : x < o + sh.objSize) : ¬ IsNodeWord A a x := by
  rintro ⟨i, hi, rfl⟩
  have hin := hb.object_inside ho
  have hmul := Nat.mul_le_mul_right A.wordBytes (Nat.succ_le_of_lt hi)
  have hw := wordBytes_pos A
  rw [Nat.succ_mul] at hmul
  have hnode : nodeSize A = 5 * A.wordBytes := rfl
  have hle := sh.nodeSize_le
  by_cases hab : a = b
  · subst hab
    omega
  · have hbase := ha.base_add
    rcases ha.apart hb hab with hlt | hlt
    · omega
    · omega

theorem Shape.nextOff_lt (sh : Shape A) : sh.nextOff < sh.objSize := by
  have hw := wordBytes_pos A
  have hle := sh.next_le
  omega

/-- Aligning down an address in a slab gives the slab. -/
theorem Site.alignDown_eq (ha : Site sh a) (hlo : slabBase sh a ≤ x) (hhi : x < a + nodeSize A) :
    alignDown A x sh.size = slabBase sh a := by
  rcases sh.size_pow with ⟨k, hk, -, hbits⟩
  have hbase := ha.base_add
  have hlt := ha.lt
  rcases ha.dvd with ⟨q, hq⟩
  have hq1 : 1 ≤ q := by
    by_contra hq0
    rw [Nat.lt_one_iff.1 (Nat.lt_of_not_le hq0)] at hq
    have := ha.base_pos
    omega
  have hb : slabBase sh a = sh.size * (q - 1) := by
    rw [slabBase, hq, Nat.mul_sub, Nat.mul_one]
  have hdiv : x / sh.size = q - 1 := by
    rw [Nat.div_eq_iff (by omega), Nat.mul_comm]
    omega
  rw [hk, Propeller.alignDown_eq (by omega) hbits, ← hk, hdiv, hb, Nat.mul_comm]

/-- `free` finds the node of an object by its address. -/
theorem Site.nodeOfObject_eq (ha : Site sh a) (ho : o ∈ objects sh a) (hg : g.Has sh) :
    nodeOfObject A g o = .ok a := by
  have hin := ha.object_inside ho
  have hbase := ha.base_add
  have hlt := ha.lt
  have hpos := sh.objSize_pos
  have hslab : alignDown A o sh.size = slabBase sh a := ha.alignDown_eq hin.1 (by omega)
  have hend : checkedAdd A (slabBase sh a) sh.size = .ok (a + nodeSize A) := by
    rw [checkedAdd_of_lt (by omega), hbase]
  simp only [nodeOfObject, hg.size, hslab, hend, run_ok_bind,
    checkedSub_of_le (Nat.le_add_left _ _), Nat.add_sub_cancel]

/-- Different slabs fit in the address space together. -/
theorem sites_le {xs : List Nat} (hnd : xs.Nodup) (hsite : ∀ a ∈ xs, Site sh a) :
    xs.length * sh.size ≤ A.wordLimit := by
  rcases sh.size_pow with ⟨k, hk, -, hbits⟩
  have hsize : 0 < sh.size := hk ▸ Nat.two_pow_pos k
  have hdvd : sh.size ∣ A.wordLimit := hk ▸ Nat.pow_dvd_pow 2 hbits
  -- The numbers of the slabs are different and within the address space.
  have hnum : (xs.map fun a => (a + nodeSize A) / sh.size).Nodup := by
    refine List.Nodup.map_on ?_ hnd
    intro a ha b hb heq
    have hmul := congrArg (· * sh.size) heq
    simp only [Nat.div_mul_cancel (hsite a ha).dvd, Nat.div_mul_cancel (hsite b hb).dvd] at hmul
    omega
  have hsub : (xs.map fun a => (a + nodeSize A) / sh.size) ⊆
      List.range (A.wordLimit / sh.size) := by
    intro n hn
    rcases List.mem_map.1 hn with ⟨a, ha, rfl⟩
    exact List.mem_range.2 (Nat.div_lt_div_of_lt_of_dvd hdvd (hsite a ha).lt)
  have hlen := (hnum.subperm hsub).length_le
  rw [List.length_map, List.length_range] at hlen
  exact (Nat.mul_le_mul_right _ hlen).trans (Nat.div_mul_le_self _ _)

theorem Shape.count_lt_size (sh : Shape A) : sh.count < sh.size := by
  have hfits := sh.fits
  have hnode : 0 < nodeSize A := Nat.mul_pos (by decide) (wordBytes_pos A)
  have hmul := Nat.le_mul_of_pos_right sh.count sh.objSize_pos
  omega

/-! ## Free lists -/

/-- The free list that starts at `head` and is linked through the words at offset `off`. -/
def Chain (off : Nat) (m : Mem) : Nat → List Nat → Prop
  | head, [] => head = 0
  | head, o :: os => head = o ∧ o ≠ 0 ∧ Chain off m (m (o + off)) os

theorem Chain.congr {off head : Nat} {os : List Nat} (h : Chain off m head os)
    (hm : ∀ o ∈ os, m' (o + off) = m (o + off)) : Chain off m' head os := by
  induction os generalizing head with
  | nil => exact h
  | cons o os ih =>
      rcases h with ⟨hhead, h0, htail⟩
      refine ⟨hhead, h0, ?_⟩
      rw [hm o List.mem_cons_self]
      exact ih htail fun p hp => hm p (List.mem_cons_of_mem o hp)

/-- The slab with node `a` has the free objects `os`. -/
structure FreeList (sh : Shape A) (m : Mem) (a : Nat) (os : List Nat) : Prop where
  chain : Chain sh.nextOff m (readNode A m a).free os
  avail : (readNode A m a).avail = os.length
  nodup : os.Nodup
  sub : os ⊆ objects sh a

theorem FreeList.congr {os : List Nat} (h : FreeList sh m a os)
    (hfree : (readNode A m' a).free = (readNode A m a).free)
    (havail : (readNode A m' a).avail = (readNode A m a).avail)
    (hm : ∀ o ∈ os, m' (o + sh.nextOff) = m (o + sh.nextOff)) : FreeList sh m' a os :=
  ⟨hfree ▸ h.chain.congr hm, havail.trans h.avail, h.nodup, h.sub⟩

/-! ## Contents -/

/-- The slabs on the three lists, their free objects, and the outstanding objects. -/
structure Contents where
  slabs : Kind → List Nat
  free : Nat → List Nat
  out : List Nat

namespace Contents

/-- Nothing at all. -/
def none : Contents :=
  ⟨fun _ => [], fun _ => [], []⟩

/-- The node `a` is on one of the lists. -/
def Holds (c : Contents) (a : Nat) : Prop :=
  ∃ k, a ∈ c.slabs k

def all (c : Contents) : List Nat :=
  c.slabs .unused ++ c.slabs .inUse ++ c.slabs .empty

/-- The number of free objects. -/
def available (c : Contents) : Nat :=
  (c.all.map fun a => (c.free a).length).sum

theorem mem_all {c : Contents} : a ∈ c.all ↔ c.Holds a := by
  constructor
  · intro h
    rcases List.mem_append.1 h with h | h
    · rcases List.mem_append.1 h with h | h
      · exact ⟨_, h⟩
      · exact ⟨_, h⟩
    · exact ⟨_, h⟩
  · rintro ⟨k, hk⟩
    cases k with
    | unused => exact List.mem_append_left _ (List.mem_append_left _ hk)
    | inUse => exact List.mem_append_left _ (List.mem_append_right _ hk)
    | empty => exact List.mem_append_right _ hk

end Contents

/-- The word at `x` is a word of a node or a link of a slab of `c`. -/
def IsMeta (sh : Shape A) (c : Contents) (x : Nat) : Prop :=
  ∃ a, c.Holds a ∧ (IsNodeWord A a x ∨ ∃ o ∈ objects sh a, x = o + sh.nextOff)

/-- The manager `g` and the memory `m` represent `c`. -/
structure Core (sh : Shape A) (g : SlabManager) (m : Mem) (c : Contents) : Prop where
  has : g.Has sh
  list : ∀ k, SlabList sh m (g.head k) (c.slabs k)
  once : ∀ k k' a, a ∈ c.slabs k → a ∈ c.slabs k' → k = k'
  free : ∀ a, c.Holds a → FreeList sh m a (c.free a)
  out_iff : ∀ o, o ∈ c.out ↔ ∃ a, c.Holds a ∧ o ∈ objects sh a ∧ o ∉ c.free a
  out_nodup : c.out.Nodup
  poison : ∀ o ∈ c.out, m (o + sh.nextOff) = A.poison

namespace Core

variable {c : Contents}

theorem site (h : Core sh g m c) (ha : c.Holds a) : Site sh a := by
  rcases ha with ⟨k, hk⟩
  exact (h.list k).site a hk

theorem valid (h : Core sh g m c) (ha : c.Holds a) : Valid A m a := by
  rcases ha with ⟨k, hk⟩
  exact (h.list k).valid a hk

/-- Only the metadata words matter. -/
theorem congr (h : Core sh g m c) (hm : ∀ x, IsMeta sh c x → m' x = m x) : Core sh g m' c := by
  have hnode : ∀ a, c.Holds a → readNode A m' a = readNode A m a := fun a ha =>
    readNode_congr fun i hi => hm _ ⟨a, ha, Or.inl ⟨i, hi, rfl⟩⟩
  have hlink : ∀ a, c.Holds a → ∀ o ∈ objects sh a, m' (o + sh.nextOff) = m (o + sh.nextOff) :=
    fun a ha o ho => hm _ ⟨a, ha, Or.inr ⟨o, ho, rfl⟩⟩
  refine ⟨h.has, fun k => (h.list k).congr fun a ha => hnode a ⟨k, ha⟩, h.once, ?_, h.out_iff,
    h.out_nodup, ?_⟩
  · intro a ha
    refine (h.free a ha).congr ?_ ?_ fun o ho => hlink a ha o ((h.free a ha).sub ho)
    · rw [hnode a ha]
    · rw [hnode a ha]
  · intro o ho
    rcases (h.out_iff o).1 ho with ⟨a, ha, hoa, -⟩
    rw [hlink a ha o hoa]
    exact h.poison o ho

/-- A word of an object other than its link is no metadata. -/
theorem not_isMeta_of_object (h : Core sh g m c) (ha : c.Holds a) (ho : o ∈ objects sh a)
    (hlo : o ≤ x) (hhi : x < o + sh.objSize) (hne : x ≠ o + sh.nextOff) : ¬ IsMeta sh c x := by
  rintro ⟨b, hb, hword | ⟨p, hp, rfl⟩⟩
  · exact (h.site hb).not_isNodeWord (h.site ha) ho hlo hhi hword
  · by_cases hpo : p = o
    · exact hne (hpo ▸ rfl)
    · have hoff := sh.nextOff_lt
      rcases (h.site hb).objects_apart (h.site ha) hp ho hpo with hlt | hlt
      · omega
      · omega

theorem all_nodup (h : Core sh g m c) : c.all.Nodup := by
  have hdisj : ∀ k k', k ≠ k' → ∀ a ∈ c.slabs k, ∀ b ∈ c.slabs k', a ≠ b := by
    rintro k k' hne a ha b hb rfl
    exact hne (h.once k k' a ha hb)
  refine List.nodup_append.2 ⟨List.nodup_append.2 ⟨(h.list _).ring.nodup, (h.list _).ring.nodup,
    hdisj _ _ (by decide)⟩, (h.list _).ring.nodup, ?_⟩
  intro a ha b hb
  rcases List.mem_append.1 ha with ha | ha
  · exact hdisj _ _ (by decide) a ha b hb
  · exact hdisj _ _ (by decide) a ha b hb

/-! ## Bounds -/

theorem slabs_le (h : Core sh g m c) : c.all.length * sh.size ≤ A.wordLimit :=
  sites_le h.all_nodup fun _ ha => h.site (Contents.mem_all.1 ha)

/-- Free and outstanding objects are different objects of the slabs. -/
theorem objects_le (h : Core sh g m c) :
    c.out.length + c.available ≤ c.all.length * sh.count := by
  have hsite : ∀ a ∈ c.all, Site sh a := fun a ha => h.site (Contents.mem_all.1 ha)
  have hfree : ∀ a ∈ c.all, FreeList sh m a (c.free a) := fun a ha => h.free a (Contents.mem_all.1 ha)
  -- Objects that are out and objects on a free list are different places in the slabs.
  have hnd : (c.out ++ c.all.flatMap c.free).Nodup := by
    refine List.nodup_append.2 ⟨h.out_nodup, ?_, ?_⟩
    · refine List.nodup_flatMap.2 ⟨fun a ha => (hfree a ha).nodup, ?_⟩
      refine h.all_nodup.imp_of_mem ?_
      intro a b ha hb hab o hoa hob
      exact hab ((hsite a ha).eq_of_object (hsite b hb) ((hfree a ha).sub hoa) ((hfree b hb).sub hob))
    · rintro o ho p hp rfl
      rcases (h.out_iff o).1 ho with ⟨a, ha, hoa, hnot⟩
      rcases List.mem_flatMap.1 hp with ⟨b, hb, hob⟩
      have hab := (h.site ha).eq_of_object (hsite b hb) hoa ((hfree b hb).sub hob)
      exact hnot (hab ▸ hob)
  have hsub : c.out ++ c.all.flatMap c.free ⊆ c.all.flatMap (objects sh) := by
    intro o ho
    rcases List.mem_append.1 ho with ho | ho
    · rcases (h.out_iff o).1 ho with ⟨a, ha, hoa, -⟩
      exact List.mem_flatMap.2 ⟨a, Contents.mem_all.2 ha, hoa⟩
    · rcases List.mem_flatMap.1 ho with ⟨a, ha, hoa⟩
      exact List.mem_flatMap.2 ⟨a, ha, (hfree a ha).sub hoa⟩
  have hlen := (hnd.subperm hsub).length_le
  rw [List.length_append, List.length_flatMap, List.length_flatMap] at hlen
  simpa [Contents.available] using hlen

/-- There is room for the objects of one more slab. -/
theorem room (h : Core sh g m c) (ha : Site sh a) (hnot : ¬ c.Holds a) :
    c.all.length + 1 < A.wordLimit ∧ c.available + sh.count < A.wordLimit := by
  have hnd : (a :: c.all).Nodup :=
    List.nodup_cons.2 ⟨fun hmem => hnot (Contents.mem_all.1 hmem), h.all_nodup⟩
  have hle := sites_le hnd fun _ hb => (List.mem_cons.1 hb).elim (fun heq => heq ▸ ha)
    fun hb => h.site (Contents.mem_all.1 hb)
  rw [List.length_cons] at hle
  have hcount := sh.count_pos
  have hsize := sh.count_lt_size
  have hobj := h.objects_le
  have hlt : (c.all.length + 1) * sh.count < (c.all.length + 1) * sh.size :=
    Nat.mul_lt_mul_of_pos_left hsize (Nat.succ_pos _)
  have hone : (c.all.length + 1) * 1 ≤ (c.all.length + 1) * sh.count :=
    Nat.mul_le_mul_left _ hcount.le
  have hsucc : (c.all.length + 1) * sh.count = c.all.length * sh.count + sh.count :=
    Nat.succ_mul _ _
  constructor
  · omega
  · omega

/-- There are fewer objects than addresses. -/
theorem objects_lt (h : Core sh g m c) : c.out.length + c.available < A.wordLimit := by
  have hpos : 0 < A.wordLimit := Nat.two_pow_pos _
  rcases Nat.eq_zero_or_pos c.all.length with hzero | hsome
  · have hle := h.objects_le
    rw [hzero, Nat.zero_mul] at hle
    omega
  · calc c.out.length + c.available ≤ c.all.length * sh.count := h.objects_le
      _ < c.all.length * sh.size := Nat.mul_lt_mul_of_pos_left sh.count_lt_size hsome
      _ ≤ A.wordLimit := h.slabs_le

end Core

end Slab
end Propeller
