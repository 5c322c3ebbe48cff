import Propeller.Lib.Ring
import Propeller.Mm.Slab.Model

/-!
# Slab.Nodes — slab nodes in memory and the lists they form

Every node lies at the end of a slab, and slabs are aligned to their size (`Site`).  So two nodes share
no word, and reading a node after a write to a node is a case distinction on the addresses
(`readNode_writeNode`).  On top of that the two list functions of the source are the two edits of a
ring: `addSlabToTail_spec` and `removeSlabFromList_spec`.
-/

namespace Propeller
namespace Slab

variable {A : Arch} {m m' : Mem} {head a b x : Nat} {xs : List Nat}

/-! ## The shape of slabs -/

/-- What `new` fixes for an object type: the size of a slab and the number of objects in it. -/
structure Shape (A : Arch) extends Layout A where
  size : Nat
  count : Nat
  size_pow : ∃ k, size = 2 ^ k ∧ pageShift ≤ k ∧ k ≤ A.wordBits
  fits : count * objSize + nodeSize A ≤ size
  count_pos : 1 < count

/-- The manager works with slabs of the given shape. -/
structure SlabManager.Has (g : SlabManager) (sh : Shape A) : Prop where
  size : g.slabSize = sh.size
  count : g.objsPerSlab = sh.count

theorem wordBytes_pos (A : Arch) : 0 < A.wordBytes := by
  cases A <;> decide

theorem Shape.pageSize_dvd (sh : Shape A) : pageSize ∣ sh.size := by
  rcases sh.size_pow with ⟨k, hk, hle, -⟩
  rw [hk, pageSize_eq]
  exact Nat.pow_dvd_pow 2 hle

theorem Shape.nodeSize_le (sh : Shape A) : nodeSize A ≤ sh.size :=
  (Nat.le_add_left _ _).trans sh.fits

/-- The manager that `new` returns has a shape. -/
theorem new_has {ly : Layout A} {maxBlockPages : Nat} {g : SlabManager}
    (h : new A ly maxBlockPages = .ok g) :
    ∃ sh : Shape A, sh.toLayout = ly ∧ g.Has sh ∧
      g = ⟨g.slabPages, g.objsPerSlab, 0, 0, 0, 0, 0, 0⟩ := by
  rcases run_bind_eq_ok.1 h with ⟨_, hmin, h⟩
  rcases run_bind_eq_ok.1 h with ⟨_, -, h⟩
  rcases run_bind_eq_ok.1 h with ⟨_, hsize, h⟩
  rcases run_bind_eq_ok.1 h with ⟨_, -, h⟩
  cases h
  have hmin := require_eq_ok.1 hmin
  have hsize := require_eq_ok.1 hsize
  have hnode : 0 < nodeSize A := Nat.mul_pos (by decide) (wordBytes_pos A)
  have hobj : 0 < ly.objSize := (wordBytes_pos A).trans_le ((Nat.le_add_left _ _).trans ly.next_le)
  generalize hn : ly.objSize * MIN_OBJECTS_PER_SLAB + nodeSize A = need at *
  have hpage : 0 < pageSize := pageSize_pos
  -- The pages of the slab cover the minimum size.
  have hceil : need ≤ (need + pageSize - 1) / pageSize * pageSize := by
    have hlt := Nat.lt_div_mul_add (a := need + pageSize - 1) hpage
    omega
  have hlog := ceilLog2_eq (A := A) (n := (need + pageSize - 1) / pageSize)
    ((Nat.div_le_self _ _).trans_lt hmin)
  have hpow := Nat.le_pow_clog (b := 2) (by decide) ((need + pageSize - 1) / pageSize)
  rw [Nat.one_shiftLeft, hlog] at hsize ⊢
  generalize Nat.clog 2 ((need + pageSize - 1) / pageSize) = k at *
  have hneed : need ≤ 2 ^ k * pageSize := hceil.trans (Nat.mul_le_mul_right _ hpow)
  have hcount : 1 < (2 ^ k * pageSize - nodeSize A) / ly.objSize := by
    rw [Nat.lt_iff_add_one_le, Nat.le_div_iff_mul_le hobj]
    rw [MIN_OBJECTS_PER_SLAB] at hn
    omega
  refine ⟨⟨ly, 2 ^ k * pageSize, (2 ^ k * pageSize - nodeSize A) / ly.objSize, ⟨k + pageShift, ?_,
    Nat.le_add_left _ _, ?_⟩, ?_, hcount⟩, rfl, ⟨rfl, rfl⟩, rfl⟩
  · rw [Nat.pow_add, pageSize_eq]
  · rw [pageSize_eq, ← Nat.pow_add, Arch.wordLimit] at hsize
    exact ((Nat.pow_lt_pow_iff_right (by decide)).1 hsize).le
  · have hdiv := Nat.div_mul_le_self (2 ^ k * pageSize - nodeSize A) ly.objSize
    omega

/-- The node address `a` belongs to a slab: the slab is aligned, not null and ends in the address
space. -/
structure Site (sh : Shape A) (a : Nat) : Prop where
  dvd : sh.size ∣ a + nodeSize A
  base_pos : sh.size < a + nodeSize A
  lt : a + nodeSize A < A.wordLimit

/-- The first address of the slab with node `a`. -/
def slabBase (sh : Shape A) (a : Nat) : Nat :=
  a + nodeSize A - sh.size

namespace Site

variable {sh : Shape A}

theorem ne_zero (h : Site sh a) : a ≠ 0 := by
  have hle := sh.nodeSize_le
  have hlt := h.base_pos
  omega

theorem base_add (h : Site sh a) : slabBase sh a + sh.size = a + nodeSize A :=
  Nat.sub_add_cancel h.base_pos.le

/-- Two slabs are one or share no address. -/
theorem apart (ha : Site sh a) (hb : Site sh b) (hne : a ≠ b) :
    a + nodeSize A ≤ slabBase sh b ∨ b + nodeSize A ≤ slabBase sh a := by
  rcases ha.dvd with ⟨p, hp⟩
  rcases hb.dvd with ⟨q, hq⟩
  have hpq : p ≠ q := by
    rintro rfl
    omega
  rcases Nat.lt_or_gt_of_ne hpq with hlt | hlt
  · left
    have hmul := Nat.mul_le_mul_left sh.size (Nat.succ_le_of_lt hlt)
    rw [Nat.mul_succ] at hmul
    rw [slabBase]
    omega
  · right
    have hmul := Nat.mul_le_mul_left sh.size (Nat.succ_le_of_lt hlt)
    rw [Nat.mul_succ] at hmul
    rw [slabBase]
    omega

/-- Nodes that share a word are one. -/
theorem eq_of_word_eq (ha : Site sh a) (hb : Site sh b) {i j : Nat} (hi : i < 5) (hj : j < 5)
    (heq : a + i * A.wordBytes = b + j * A.wordBytes) : a = b ∧ i = j := by
  have hw := wordBytes_pos A
  have hi5 : i * A.wordBytes + A.wordBytes ≤ nodeSize A := by
    have := Nat.mul_le_mul_right A.wordBytes (Nat.succ_le_of_lt hi)
    rwa [Nat.succ_mul] at this
  have hj5 : j * A.wordBytes + A.wordBytes ≤ nodeSize A := by
    have := Nat.mul_le_mul_right A.wordBytes (Nat.succ_le_of_lt hj)
    rwa [Nat.succ_mul] at this
  have hab : a = b := by
    by_contra hne
    have hle := sh.nodeSize_le
    have hba := ha.base_add
    have hbb := hb.base_add
    rcases ha.apart hb hne with hlt | hlt
    · omega
    · omega
  subst hab
  refine ⟨rfl, Nat.eq_of_mul_eq_mul_right hw ?_⟩
  omega

end Site

/-! ## Reading and writing nodes -/

/-- The word at `x` is one of the five words of the node at `a`. -/
def IsNodeWord (A : Arch) (a x : Nat) : Prop :=
  ∃ i < 5, x = a + i * A.wordBytes

theorem writeNode_of_not_word {n : SlabNode} (hx : ¬ IsNodeWord A a x) : writeNode A m a n x = m x := by
  have h : ∀ i < 5, x ≠ a + i * A.wordBytes := fun i hi heq => hx ⟨i, hi, heq⟩
  have h0 := h 0 (by decide)
  have h1 := h 1 (by decide)
  have h2 := h 2 (by decide)
  have h3 := h 3 (by decide)
  have h4 := h 4 (by decide)
  simp only [Nat.zero_mul, Nat.one_mul, Nat.add_zero] at h0 h1
  simp [writeNode, h0, h1, h2, h3, h4]

theorem readNode_congr (h : ∀ i < 5, m' (a + i * A.wordBytes) = m (a + i * A.wordBytes)) :
    readNode A m' a = readNode A m a := by
  have h0 := h 0 (by decide)
  have h1 := h 1 (by decide)
  have h2 := h 2 (by decide)
  have h3 := h 3 (by decide)
  have h4 := h 4 (by decide)
  simp only [Nat.zero_mul, Nat.one_mul, Nat.add_zero] at h0 h1
  simp only [readNode, h0, h1, h2, h3, h4]

@[simp] theorem readNode_writeNode_self (m : Mem) (a : Nat) (n : SlabNode) :
    readNode A (writeNode A m a n) a = n := by
  have hw := wordBytes_pos A
  have h1 : A.wordBytes ≠ 0 := hw.ne'
  have h2 : 2 * A.wordBytes ≠ A.wordBytes := by omega
  have h3 : 3 * A.wordBytes ≠ A.wordBytes := by omega
  have h4 : 4 * A.wordBytes ≠ A.wordBytes := by omega
  have h5 : 3 * A.wordBytes ≠ 2 * A.wordBytes := by omega
  have h6 : 4 * A.wordBytes ≠ 2 * A.wordBytes := by omega
  have h7 : 4 * A.wordBytes ≠ 3 * A.wordBytes := by omega
  simp [readNode, writeNode, h1, h2, h3, h4, h5, h6, h7]

/-- Reading a node after a write to a node. -/
theorem readNode_writeNode {sh : Shape A} (ha : Site sh a) (hb : Site sh b) (n : SlabNode) :
    readNode A (writeNode A m a n) b = if b = a then n else readNode A m b := by
  split
  · rename_i heq
    rw [heq, readNode_writeNode_self]
  · rename_i hne
    refine readNode_congr fun i hi => writeNode_of_not_word ?_
    rintro ⟨j, hj, heq⟩
    exact hne (hb.eq_of_word_eq ha hi hj heq).1

theorem readNode_update {v : Nat} (hx : ¬ IsNodeWord A a x) :
    readNode A (Function.update m x v) a = readNode A m a := by
  refine readNode_congr fun i hi => Function.update_of_ne ?_ _ _
  rintro rfl
  exact hx ⟨i, hi, rfl⟩

@[simp] theorem verifyChecksum_updateChecksum (A : Arch) (n : SlabNode) :
    (n.updateChecksum A).verifyChecksum A = true := by
  simp [SlabNode.updateChecksum, SlabNode.verifyChecksum]

/-- The checksum of the node at `a` is valid. -/
def Valid (A : Arch) (m : Mem) (a : Nat) : Prop :=
  (readNode A m a).verifyChecksum A = true

def nextOf (A : Arch) (m : Mem) (a : Nat) : Nat := (readNode A m a).next

def prevOf (A : Arch) (m : Mem) (a : Nat) : Nat := (readNode A m a).prev

theorem getSlabNodeMut_eq (h0 : a ≠ 0) (hv : Valid A m a) :
    getSlabNodeMut A m a = .ok (readNode A m a) := by
  have hv' : (readNode A m a).verifyChecksum A = true := hv
  unfold getSlabNodeMut getSlabNodeUncheckedMut
  simp only [require_pos h0, run_ok_bind, pure_bind, require_pos hv']
  rfl

/-! ## Edits of the links -/

section Links

variable {sh : Shape A}

/-- The links of the nodes in `xs` have been edited and nothing else: their checksums are valid again and
the other fields are as before. -/
structure LinksOnly (sh : Shape A) (xs : List Nat) (m m' : Mem) : Prop where
  outside : ∀ y, (∀ a ∈ xs, ¬ IsNodeWord A a y) → m' y = m y
  avail : ∀ a, Site sh a → (readNode A m' a).avail = (readNode A m a).avail
  free : ∀ a, Site sh a → (readNode A m' a).free = (readNode A m a).free
  valid : ∀ a, Site sh a → Valid A m a → Valid A m' a

theorem LinksOnly.trans {m₁ m₂ m₃ : Mem} (h : LinksOnly sh xs m₁ m₂) (h' : LinksOnly sh xs m₂ m₃) :
    LinksOnly sh xs m₁ m₃ :=
  ⟨fun y hy => (h'.outside y hy).trans (h.outside y hy),
    fun a ha => (h'.avail a ha).trans (h.avail a ha),
    fun a ha => (h'.free a ha).trans (h.free a ha),
    fun a ha hv => h'.valid a ha (h.valid a ha hv)⟩

theorem LinksOnly.mono {ys : List Nat} (h : LinksOnly sh xs m m') (hsub : xs ⊆ ys) :
    LinksOnly sh ys m m' :=
  ⟨fun y hy => h.outside y fun a ha => hy a (hsub ha), h.avail, h.free, h.valid⟩

/-- A write to a node that keeps its counters and its free list. -/
theorem linksOnly_writeNode {n : SlabNode} (ha : Site sh a) (hmem : a ∈ xs)
    (havail : n.avail = (readNode A m a).avail) (hfree : n.free = (readNode A m a).free) :
    LinksOnly sh xs m (writeNode A m a (n.updateChecksum A)) := by
  refine ⟨fun y hy => writeNode_of_not_word (hy a hmem), ?_, ?_, ?_⟩
  · intro b hb
    rw [readNode_writeNode ha hb]
    split
    · rename_i heq
      rw [heq]
      exact havail
    · rfl
  · intro b hb
    rw [readNode_writeNode ha hb]
    split
    · rename_i heq
      rw [heq]
      exact hfree
    · rfl
  · intro b hb hv
    rw [Valid, readNode_writeNode ha hb]
    split
    · exact verifyChecksum_updateChecksum A n
    · exact hv

theorem linksOnly_setPrev {p : Nat} (ha : Site sh a) (hmem : a ∈ xs) :
    LinksOnly sh xs m (setPrev A m a p) :=
  linksOnly_writeNode ha hmem rfl rfl

theorem linksOnly_setNext {n : Nat} (ha : Site sh a) (hmem : a ∈ xs) :
    LinksOnly sh xs m (setNext A m a n) :=
  linksOnly_writeNode ha hmem rfl rfl

theorem linksOnly_setLinks {p n : Nat} (ha : Site sh a) (hmem : a ∈ xs) :
    LinksOnly sh xs m (setLinks A m a p n) :=
  linksOnly_writeNode ha hmem rfl rfl

theorem nextOf_setLinks {p n : Nat} (ha : Site sh a) (hb : Site sh b) :
    nextOf A (setLinks A m a p n) b = if b = a then n else nextOf A m b := by
  rw [nextOf, setLinks, readNode_writeNode ha hb, apply_ite SlabNode.next]
  rfl

theorem prevOf_setLinks {p n : Nat} (ha : Site sh a) (hb : Site sh b) :
    prevOf A (setLinks A m a p n) b = if b = a then p else prevOf A m b := by
  rw [prevOf, setLinks, readNode_writeNode ha hb, apply_ite SlabNode.prev]
  rfl

theorem nextOf_setPrev {p : Nat} (ha : Site sh a) (hb : Site sh b) :
    nextOf A (setPrev A m a p) b = nextOf A m b := by
  rw [nextOf, setPrev, readNode_writeNode ha hb, apply_ite SlabNode.next]
  split
  · rename_i heq
    rw [heq]
    rfl
  · rfl

theorem prevOf_setPrev {p : Nat} (ha : Site sh a) (hb : Site sh b) :
    prevOf A (setPrev A m a p) b = if b = a then p else prevOf A m b := by
  rw [prevOf, setPrev, readNode_writeNode ha hb, apply_ite SlabNode.prev]
  rfl

theorem nextOf_setNext {n : Nat} (ha : Site sh a) (hb : Site sh b) :
    nextOf A (setNext A m a n) b = if b = a then n else nextOf A m b := by
  rw [nextOf, setNext, readNode_writeNode ha hb, apply_ite SlabNode.next]
  rfl

theorem prevOf_setNext {n : Nat} (ha : Site sh a) (hb : Site sh b) :
    prevOf A (setNext A m a n) b = prevOf A m b := by
  rw [prevOf, setNext, readNode_writeNode ha hb, apply_ite SlabNode.prev]
  split
  · rename_i heq
    rw [heq]
    rfl
  · rfl

theorem setLinks_valid {p n : Nat} : Valid A (setLinks A m a p n) a := by
  rw [Valid, setLinks, readNode_writeNode_self]
  exact verifyChecksum_updateChecksum A _

end Links

/-! ## Slab lists -/

/-- The list with the given head is the circular list of the nodes `xs`, all of them intact. -/
structure SlabList (sh : Shape A) (m : Mem) (head : Nat) (xs : List Nat) : Prop where
  head : head = xs.headD 0
  ring : IsRing (nextOf A m) (prevOf A m) xs
  site : ∀ a ∈ xs, Site sh a
  valid : ∀ a ∈ xs, Valid A m a

namespace SlabList

variable {sh : Shape A}

theorem nil (sh : Shape A) (m : Mem) : SlabList sh m 0 [] :=
  ⟨rfl, IsRing.nil, by simp, by simp⟩

theorem head_eq_zero_iff (h : SlabList sh m head xs) : head = 0 ↔ xs = [] := by
  cases xs with
  | nil => simp [h.head]
  | cons x t =>
      have hx := (h.site x List.mem_cons_self).ne_zero
      simp [h.head, hx]

/-- A list only depends on the nodes it holds. -/
theorem congr (h : SlabList sh m head xs) (hm : ∀ a ∈ xs, readNode A m' a = readNode A m a) :
    SlabList sh m' head xs := by
  refine ⟨h.head, h.ring.congr ?_ ?_, h.site, ?_⟩
  · intro a ha
    rw [nextOf, hm a ha, nextOf]
  · intro a ha
    rw [prevOf, hm a ha, prevOf]
  · intro a ha
    rw [Valid, hm a ha]
    exact h.valid a ha

/-- Edits of the links of other nodes do not touch the list. -/
theorem linksOnly {ys : List Nat} (h : SlabList sh m head xs) (hl : LinksOnly sh ys m m')
    (hys : ∀ b ∈ ys, Site sh b) (hdisj : ∀ a ∈ xs, a ∉ ys) : SlabList sh m' head xs := by
  refine h.congr fun a ha => readNode_congr fun i hi => hl.outside _ ?_
  rintro b hb ⟨j, hj, heq⟩
  have hab := ((h.site a ha).eq_of_word_eq (hys b hb) hi hj heq).1
  exact hdisj a ha (hab ▸ hb)

end SlabList

/-! ## Adding a slab -/

section Add

variable {sh : Shape A}

theorem addSlabToTail_nil (ha : Site sh a) (hv : Valid A m a) :
    ∃ m', addSlabToTail A 0 a m = .ok (a, m') ∧ SlabList sh m' a [a] ∧ LinksOnly sh [a] m m' := by
  refine ⟨setLinks A m a a a, ?_, ⟨rfl, ?_, ?_, ?_⟩, ?_⟩
  · simp [addSlabToTail, ha.ne_zero, getSlabNodeMut_eq ha.ne_zero hv]
  · rw [IsRing.singleton_iff, nextOf_setLinks ha ha, prevOf_setLinks ha ha]
    simp
  · simpa using ha
  · simpa using setLinks_valid
  · exact linksOnly_setLinks ha (by simp)

/-- The node writes of `add_slab_to_tail` on a list with head `h`. -/
def linkedTail (A : Arch) (m : Mem) (h a : Nat) : Mem :=
  setNext A (setPrev A (setLinks A m a (prevOf A m h) h) h a) (prevOf A m h) a

theorem addSlabToTail_cons {h : Nat} {t : List Nat} (hl : SlabList sh m h (h :: t)) (ha : Site sh a)
    (hv : Valid A m a) : addSlabToTail A h a m = .ok (h, linkedTail A m h a) := by
  have hh := hl.site h List.mem_cons_self
  have hpmem : prevOf A m h ∈ h :: t := (hl.ring.links_mem List.mem_cons_self).2
  have hp := hl.site _ hpmem
  have hhv := hl.valid h List.mem_cons_self
  have hpv : Valid A m (readNode A m h).prev := hl.valid _ hpmem
  have hp0 : (readNode A m h).prev ≠ 0 := hp.ne_zero
  simp only [addSlabToTail, if_neg ha.ne_zero, getSlabNodeMut_eq ha.ne_zero hv, run_ok_bind,
    if_neg hh.ne_zero, getSlabNodeMut_eq hh.ne_zero hhv, getSlabNodeMut_eq hp0 hpv]
  rfl

theorem linkedTail_ring {h : Nat} {t : List Nat} (hl : SlabList sh m h (h :: t)) (ha : Site sh a)
    (hnot : a ∉ h :: t) :
    IsRing (nextOf A (linkedTail A m h a)) (prevOf A (linkedTail A m h a)) (h :: t ++ [a]) := by
  have hh := hl.site h List.mem_cons_self
  have hpmem : prevOf A m h ∈ h :: t := (hl.ring.links_mem List.mem_cons_self).2
  have hp := hl.site _ hpmem
  have hah : a ≠ h := by
    rintro rfl
    exact hnot List.mem_cons_self
  have hap : a ≠ prevOf A m h := by
    intro heq
    exact hnot (heq ▸ hpmem)
  have hother : ∀ x ∈ h :: t, x ≠ a := by
    rintro x hx rfl
    exact hnot hx
  -- The three writes in one formula each for `next` and `prev`.
  have hnext : ∀ x, Site sh x → nextOf A (linkedTail A m h a) x =
      if x = prevOf A m h then a else if x = a then h else nextOf A m x := by
    intro x hx
    rw [linkedTail, nextOf_setNext hp hx, nextOf_setPrev hh hx, nextOf_setLinks ha hx]
  have hprev : ∀ x, Site sh x → prevOf A (linkedTail A m h a) x =
      if x = h then a else if x = a then prevOf A m h else prevOf A m x := by
    intro x hx
    rw [linkedTail, prevOf_setNext hp hx, prevOf_setPrev hh hx, prevOf_setLinks ha hx]
  refine hl.ring.insertTail hnot ?_ ?_ ?_ ?_ ?_ ?_
  · rw [hnext a ha, if_neg hap, if_pos rfl]
  · rw [hprev a ha, if_neg hah, if_pos rfl]
  · rw [hnext _ hp, if_pos rfl]
  · rw [hprev h hh, if_pos rfl]
  · intro x hx hxp
    rw [hnext x (hl.site x hx), if_neg hxp, if_neg (hother x hx)]
  · intro x hx hxh
    rw [hprev x (hl.site x hx), if_neg hxh, if_neg (hother x hx)]

theorem linkedTail_linksOnly {h : Nat} {t : List Nat} (hl : SlabList sh m h (h :: t))
    (ha : Site sh a) : LinksOnly sh (h :: t ++ [a]) m (linkedTail A m h a) := by
  have hh := hl.site h List.mem_cons_self
  have hpmem : prevOf A m h ∈ h :: t := (hl.ring.links_mem List.mem_cons_self).2
  have hp := hl.site _ hpmem
  refine (linksOnly_setLinks ha (by simp)).trans ((linksOnly_setPrev hh (by simp)).trans
    (linksOnly_setNext hp ?_))
  exact List.mem_append_left _ hpmem

/-- Adding a slab appends it to the list. -/
theorem addSlabToTail_spec (hl : SlabList sh m head xs) (ha : Site sh a) (hv : Valid A m a)
    (hnot : a ∉ xs) :
    ∃ head' m', addSlabToTail A head a m = .ok (head', m') ∧ SlabList sh m' head' (xs ++ [a]) ∧
      LinksOnly sh (xs ++ [a]) m m' := by
  -- The source has one path for an empty list and one that links behind the tail.
  cases xs with
  | nil =>
      obtain rfl : head = 0 := hl.head
      rcases addSlabToTail_nil ha hv with ⟨m', hrun, hlist, honly⟩
      exact ⟨a, m', hrun, hlist, honly⟩
  | cons h t =>
      obtain rfl : head = h := hl.head
      have honly := linkedTail_linksOnly hl ha
      refine ⟨head, _, addSlabToTail_cons hl ha hv, ⟨rfl, linkedTail_ring hl ha hnot, ?_, ?_⟩, honly⟩
      · intro x hx
        rcases List.mem_append.1 hx with hx | hx
        · exact hl.site x hx
        · rwa [List.mem_singleton.1 hx]
      · intro x hx
        rcases List.mem_append.1 hx with hx | hx
        · exact honly.valid x (hl.site x hx) (hl.valid x hx)
        · rw [List.mem_singleton.1 hx]
          exact honly.valid a ha hv

end Add

/-! ## Removing a slab -/

section Remove

variable {sh : Shape A}

/-- The node writes of `remove_slab_from_list` on a list with more nodes. -/
def unlinkedNode (A : Arch) (m : Mem) (a : Nat) : Mem :=
  let m₁ := setPrev A m (nextOf A m a) (prevOf A m a)
  setLinks A (setNext A m₁ (prevOf A m a) (nextOf A m₁ a)) a 0 0

theorem removeSlabFromList_alone (hl : SlabList sh m head [a]) :
    ∃ m', removeSlabFromList A head a m = .ok (0, m') ∧ Valid A m' a ∧ LinksOnly sh [a] m m' := by
  have ha := hl.site a (by simp)
  have hv := hl.valid a (by simp)
  have hself := IsRing.singleton_iff.1 hl.ring
  have hcond : (readNode A m a).prev = a ∧ (readNode A m a).next = a := ⟨hself.2, hself.1⟩
  refine ⟨setLinks A m a 0 0, ?_, setLinks_valid, linksOnly_setLinks ha (by simp)⟩
  simp only [removeSlabFromList, if_neg ha.ne_zero, getSlabNodeMut_eq ha.ne_zero hv, run_ok_bind,
    if_pos hcond]
  rfl

/-- The neighbours of a node in a list with more nodes. -/
theorem SlabList.neighbours (hl : SlabList sh m head xs) (ha : a ∈ xs) (hmore : xs ≠ [a]) :
    nextOf A m a ∈ xs ∧ prevOf A m a ∈ xs ∧ nextOf A m a ≠ a ∧ prevOf A m a ≠ a := by
  have hmem := hl.ring.links_mem ha
  have hne : nextOf A m a ≠ a := fun heq => hmore ((hl.ring.next_eq_self_iff ha).1 heq)
  exact ⟨hmem.1, hmem.2, hne, hl.ring.prev_ne_self ha hne⟩

theorem nextOf_unlinkedNode (hl : SlabList sh m head xs) (ha : a ∈ xs) (hmore : xs ≠ [a])
    (hx : Site sh x) :
    nextOf A (unlinkedNode A m a) x =
      if x = a then 0 else if x = prevOf A m a then nextOf A m a else nextOf A m x := by
  rcases hl.neighbours ha hmore with ⟨hn, hp, -, -⟩
  have hsa := hl.site a ha
  rw [unlinkedNode, nextOf_setLinks hsa hx, nextOf_setNext (hl.site _ hp) hx,
    nextOf_setPrev (hl.site _ hn) hsa, nextOf_setPrev (hl.site _ hn) hx]

theorem prevOf_unlinkedNode (hl : SlabList sh m head xs) (ha : a ∈ xs) (hmore : xs ≠ [a])
    (hx : Site sh x) :
    prevOf A (unlinkedNode A m a) x =
      if x = a then 0 else if x = nextOf A m a then prevOf A m a else prevOf A m x := by
  rcases hl.neighbours ha hmore with ⟨hn, hp, -, -⟩
  have hsa := hl.site a ha
  rw [unlinkedNode, prevOf_setLinks hsa hx, prevOf_setNext (hl.site _ hp) hx,
    prevOf_setPrev (hl.site _ hn) hx]

theorem removeSlabFromList_more (hl : SlabList sh m head xs) (ha : a ∈ xs) (hmore : xs ≠ [a]) :
    removeSlabFromList A head a m =
      .ok (if head = a then nextOf A m a else head, unlinkedNode A m a) := by
  rcases hl.neighbours ha hmore with ⟨hn, hp, hna, hpa⟩
  have hsa := hl.site a ha
  have hcond : ¬ ((readNode A m a).prev = a ∧ (readNode A m a).next = a) := fun h => hna h.2
  have hn0 : (readNode A m a).next ≠ 0 := (hl.site _ hn).ne_zero
  have hp0 : (readNode A m a).prev ≠ 0 := (hl.site _ hp).ne_zero
  have hnv : Valid A m (readNode A m a).next := hl.valid _ hn
  have hpv : Valid A m (readNode A m a).prev := hl.valid _ hp
  have hnew : nextOf A (unlinkedNode A m a) (prevOf A m a) = nextOf A m a := by
    rw [nextOf_unlinkedNode hl ha hmore (hl.site _ hp), if_neg hpa, if_pos rfl]
  simp only [removeSlabFromList, if_neg hsa.ne_zero, getSlabNodeMut_eq hsa.ne_zero (hl.valid a ha),
    run_ok_bind, if_neg hcond, getSlabNodeMut_eq hn0 hnv, getSlabNodeMut_eq hp0 hpv]
  change Except.ok (if head = a then nextOf A (unlinkedNode A m a) (prevOf A m a) else head,
    unlinkedNode A m a) = _
  rw [hnew]

theorem unlinkedNode_ring {l r : List Nat} (hl : SlabList sh m head (l ++ a :: r))
    (hmore : l ++ r ≠ []) :
    IsRing (nextOf A (unlinkedNode A m a)) (prevOf A (unlinkedNode A m a)) (l ++ r) := by
  have ha : a ∈ l ++ a :: r := by simp
  have hne : l ++ a :: r ≠ [a] := by
    intro heq
    apply hmore
    have hlen := congrArg List.length heq
    simp only [List.length_append, List.length_cons, List.length_nil] at hlen
    rw [List.append_eq_nil_iff, ← List.length_eq_zero_iff, ← List.length_eq_zero_iff]
    omega
  rcases hl.neighbours ha hne with ⟨hn, hp, hna, hpa⟩
  have hsub : ∀ x ∈ l ++ r, x ∈ l ++ a :: r := by
    intro x hx
    simp only [List.mem_append, List.mem_cons] at hx ⊢
    tauto
  have hxa : ∀ x ∈ l ++ r, x ≠ a := by
    rintro x hx rfl
    have hnd := hl.ring.nodup
    rw [List.nodup_middle, List.nodup_cons] at hnd
    exact hnd.1 hx
  -- The neighbours are linked to each other, and nothing else changes.
  refine hl.ring.unlink hmore ?_ ?_ ?_ ?_
  · rw [nextOf_unlinkedNode hl ha hne (hl.site _ hp), if_neg hpa, if_pos rfl]
  · rw [prevOf_unlinkedNode hl ha hne (hl.site _ hn), if_neg hna, if_pos rfl]
  · intro x hx hxp
    rw [nextOf_unlinkedNode hl ha hne (hl.site x (hsub x hx)), if_neg (hxa x hx), if_neg hxp]
  · intro x hx hxn
    rw [prevOf_unlinkedNode hl ha hne (hl.site x (hsub x hx)), if_neg (hxa x hx), if_neg hxn]

theorem unlinkedNode_linksOnly (hl : SlabList sh m head xs) (ha : a ∈ xs) (hmore : xs ≠ [a]) :
    LinksOnly sh xs m (unlinkedNode A m a) ∧ Valid A (unlinkedNode A m a) a := by
  rcases hl.neighbours ha hmore with ⟨hn, hp, -, -⟩
  refine ⟨?_, setLinks_valid⟩
  exact (linksOnly_setPrev (hl.site _ hn) hn).trans
    ((linksOnly_setNext (hl.site _ hp) hp).trans (linksOnly_setLinks (hl.site a ha) ha))

/-- The head behind a removed head is the next node. -/
theorem headD_erase (hl : SlabList sh m head xs) (ha : a ∈ xs) (hmore : xs ≠ [a]) :
    (xs.erase a).headD 0 = if head = a then nextOf A m a else head := by
  cases xs with
  | nil => simp at ha
  | cons h t =>
      have hhead : head = h := hl.head
      by_cases hah : h = a
      · subst hah
        rw [if_pos hhead, List.erase_cons_head]
        cases t with
        | nil => simp at hmore
        | cons d t =>
            have hc := hl.ring.chain
            rw [Cycle.chain_coe_cons, List.cons_append, List.isChain_cons_cons] at hc
            exact hc.1.1.symm
      · rw [if_neg (hhead ▸ hah), List.erase_cons_tail (by simpa using hah)]
        exact hhead.symm

/-- Removing a slab erases it from the list. -/
theorem removeSlabFromList_spec (hl : SlabList sh m head xs) (ha : a ∈ xs) :
    ∃ head' m', removeSlabFromList A head a m = .ok (head', m') ∧
      SlabList sh m' head' (xs.erase a) ∧ Valid A m' a ∧ LinksOnly sh xs m m' := by
  by_cases hmore : xs = [a]
  · subst hmore
    rcases removeSlabFromList_alone hl with ⟨m', hrun, hv, honly⟩
    refine ⟨0, m', hrun, ?_, hv, honly⟩
    simpa using SlabList.nil sh m'
  · rcases unlinkedNode_linksOnly hl ha hmore with ⟨honly, hv⟩
    refine ⟨_, _, removeSlabFromList_more hl ha hmore, ?_, hv, honly⟩
    have hsub : ∀ x ∈ xs.erase a, x ∈ xs := fun x hx => List.mem_of_mem_erase hx
    refine ⟨(headD_erase hl ha hmore).symm, ?_, fun x hx => hl.site x (hsub x hx),
      fun x hx => honly.valid x (hl.site x (hsub x hx)) (hl.valid x (hsub x hx))⟩
    -- The list in front of the node and behind it.
    rcases List.append_of_mem ha with ⟨l, r, hlr⟩
    have hnl : a ∉ l := by
      have hnd := hl.ring.nodup
      rw [hlr, List.nodup_middle, List.nodup_cons] at hnd
      exact fun h => hnd.1 (List.mem_append_left _ h)
    have herase : xs.erase a = l ++ r := by
      rw [hlr, List.erase_append_right _ hnl, List.erase_cons_head]
    rw [herase]
    refine unlinkedNode_ring (hlr ▸ hl) ?_
    intro hnil
    apply hmore
    rcases List.append_eq_nil_iff.1 hnil with ⟨rfl, rfl⟩
    exact hlr

end Remove

end Slab
end Propeller
