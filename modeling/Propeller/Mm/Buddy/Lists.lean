import Propeller.Lib.Ring
import Propeller.Mm.Buddy.Model

/-!
# Buddy.Lists — the level lists in memory

`ListAt A s l xs` says that the list of level `l` is the circular list of the block addresses `xs`:
the level's head is the first of them, the links in memory form a ring, and every node has a valid
checksum.  This file gives the effect of `add_to_list` and `remove_from_list` on it:

* adding appends to the tail;
* removing a block that is not the head erases it; removing the head leaves the **empty** list, since
  the new head is read from the removed node after it has been cleared (`removed`).

Everything an edit does not touch is collected in `Frame`.
-/

namespace Propeller
namespace Buddy

variable {A : Arch} {s s' : State} {l m a b : Nat} {xs : List Nat}

/-! ## State projections -/

namespace State

/-- The `next` links of the nodes in memory. -/
def nextOf (s : State) (a : Nat) : Nat := (s.mem a).next

/-- The `prev` links of the nodes in memory. -/
def prevOf (s : State) (a : Nat) : Nat := (s.mem a).prev

/-- The first block of a level's list, or zero. -/
def head (s : State) (l : Nat) : Nat := (s.levels l).head

end State

theorem xorChecksum_swap (A : Arch) (x y : Nat) : xorChecksum A [x, y] = xorChecksum A [y, x] := by
  simp only [xorChecksum, List.foldl_cons, List.foldl_nil]
  rw [Nat.xor_assoc, Nat.xor_comm x y, ← Nat.xor_assoc]

@[simp] theorem verifyChecksum_updateChecksum (A : Arch) (n : BlockNode) :
    (n.updateChecksum A).verifyChecksum A = true := by
  simp [BlockNode.verifyChecksum, BlockNode.updateChecksum, xorChecksum_swap A n.next n.prev]

@[simp] theorem updateChecksum_next (A : Arch) (n : BlockNode) :
    (n.updateChecksum A).next = n.next := rfl

@[simp] theorem updateChecksum_prev (A : Arch) (n : BlockNode) :
    (n.updateChecksum A).prev = n.prev := rfl

@[simp] theorem mem_setNode (s : State) (a : Nat) (n : BlockNode) :
    (s.setNode a n).mem = Function.update s.mem a n := rfl

@[simp] theorem levels_setNode (s : State) (a : Nat) (n : BlockNode) :
    (s.setNode a n).levels = s.levels := rfl

@[simp] theorem levels_setHead (s : State) (l h : Nat) :
    (s.setHead l h).levels = Function.update s.levels l { s.levels l with head := h } := rfl

/-! Each setter on the links it writes, on the links it keeps and on the checksums. -/

@[simp] theorem nextOf_setNode (s : State) (a : Nat) (n : BlockNode) :
    (s.setNode a n).nextOf = Function.update s.nextOf a n.next := by
  funext x
  by_cases hx : x = a <;> simp [State.nextOf, hx]

@[simp] theorem prevOf_setNode (s : State) (a : Nat) (n : BlockNode) :
    (s.setNode a n).prevOf = Function.update s.prevOf a n.prev := by
  funext x
  by_cases hx : x = a <;> simp [State.prevOf, hx]

@[simp] theorem nextOf_setNext (s : State) (a n : Nat) :
    (s.setNext A a n).nextOf = Function.update s.nextOf a n :=
  nextOf_setNode s a _

@[simp] theorem prevOf_setNext (s : State) (a n : Nat) : (s.setNext A a n).prevOf = s.prevOf :=
  (prevOf_setNode s a _).trans (Function.update_eq_self a s.prevOf)

@[simp] theorem nextOf_setPrev (s : State) (a p : Nat) : (s.setPrev A a p).nextOf = s.nextOf :=
  (nextOf_setNode s a _).trans (Function.update_eq_self a s.nextOf)

@[simp] theorem prevOf_setPrev (s : State) (a p : Nat) :
    (s.setPrev A a p).prevOf = Function.update s.prevOf a p :=
  prevOf_setNode s a _

@[simp] theorem nextOf_setLinks (s : State) (a p n : Nat) :
    (s.setLinks A a p n).nextOf = Function.update s.nextOf a n :=
  nextOf_setNode s a _

@[simp] theorem prevOf_setLinks (s : State) (a p n : Nat) :
    (s.setLinks A a p n).prevOf = Function.update s.prevOf a p :=
  prevOf_setNode s a _

/-- The node at `a` carries a valid checksum. -/
def Valid (A : Arch) (s : State) (a : Nat) : Prop :=
  (s.mem a).verifyChecksum A = true

theorem valid_setNode {n : BlockNode} {x : Nat} (hn : n.verifyChecksum A = true)
    (hx : x ≠ a → Valid A s x) : Valid A (s.setNode a n) x := by
  by_cases hxa : x = a
  · simpa [Valid, hxa] using hn
  · simpa [Valid, hxa] using hx hxa

theorem valid_setNext {n x : Nat} (hx : x ≠ a → Valid A s x) : Valid A (s.setNext A a n) x :=
  valid_setNode (verifyChecksum_updateChecksum A _) hx

theorem valid_setPrev {p x : Nat} (hx : x ≠ a → Valid A s x) : Valid A (s.setPrev A a p) x :=
  valid_setNode (verifyChecksum_updateChecksum A _) hx

theorem valid_setLinks {p n x : Nat} (hx : x ≠ a → Valid A s x) :
    Valid A (s.setLinks A a p n) x :=
  valid_setNode (verifyChecksum_updateChecksum A _) hx

/-! ## Frames -/

/-- `s'` differs from `s` only in the head of level `l` and in the nodes that satisfy `touched`. -/
structure Frame (s s' : State) (l : Nat) (touched : Nat → Prop) : Prop where
  base : s'.base = s.base
  size : s'.size = s.size
  flags : s'.flags = s.flags
  allocMem : s'.allocMem = s.allocMem
  freeMem : s'.freeMem = s.freeMem
  offset : ∀ m, (s'.levels m).offset = (s.levels m).offset
  head : ∀ m, m ≠ l → s'.head m = s.head m
  mem : ∀ x, ¬ touched x → s'.mem x = s.mem x

/-- The list of level `l` is the circular list of the block addresses `xs`. -/
structure ListAt (A : Arch) (s : State) (l : Nat) (xs : List Nat) : Prop where
  head : s.head l = xs.headD 0
  ring : IsRing s.nextOf s.prevOf xs
  ne_zero : ∀ a ∈ xs, a ≠ 0
  aligned : ∀ a ∈ xs, alignDown A a pageSize = a
  checksum : ∀ a ∈ xs, Valid A s a

namespace ListAt

theorem nil (h : s.head l = 0) : ListAt A s l [] :=
  ⟨h, IsRing.nil, by simp, by simp, by simp⟩

theorem head_eq_zero_iff (h : ListAt A s l xs) : s.head l = 0 ↔ xs = [] := by
  rw [h.head]
  cases xs with
  | nil => simp
  | cons x t => simpa using h.ne_zero x List.mem_cons_self

/-- A list only depends on its head and on the memory of its nodes. -/
theorem congr (h : ListAt A s l xs) (hhead : s'.head l = s.head l)
    (hmem : ∀ x ∈ xs, s'.mem x = s.mem x) : ListAt A s' l xs := by
  refine ⟨hhead.trans h.head, h.ring.congr ?_ ?_, h.ne_zero, h.aligned, ?_⟩
  · intro x hx
    simp [State.nextOf, hmem x hx]
  · intro x hx
    simp [State.prevOf, hmem x hx]
  · intro x hx
    rw [Valid, hmem x hx]
    exact h.checksum x hx

theorem frame {touched : Nat → Prop} (h : ListAt A s m xs) (hf : Frame s s' l touched)
    (hml : m ≠ l) (hxs : ∀ x ∈ xs, ¬ touched x) : ListAt A s' m xs :=
  h.congr (hf.head m hml) (fun x hx => hf.mem x (hxs x hx))

/-- Reading a node of the list passes the checks of `get_block_node_mut`. -/
theorem getBlockNodeMut (h : ListAt A s l xs) (ha : a ∈ xs) :
    getBlockNodeMut A s a = .ok (s.mem a) := by
  have hv : (s.mem a).verifyChecksum A = true := h.checksum a ha
  unfold Buddy.getBlockNodeMut getBlockNodeUncheckedMut
  rw [require_pos (h.aligned a ha), require_pos hv]
  rfl

/-- The blocks of the list are what `next` reaches from a non-null head. -/
theorem reach_iff (h : ListAt A s l xs) :
    (s.head l ≠ 0 ∧ ∃ k, s.nextOf^[k] (s.head l) = a) ↔ a ∈ xs := by
  cases xs with
  | nil => simp [h.head]
  | cons x t =>
      have hx : s.head l = x := h.head
      rw [hx, h.ring.iterate_iff_mem]
      exact and_iff_right (h.ne_zero x List.mem_cons_self)

end ListAt

/-! ## Adding a block -/

theorem linkBlock_empty (hhead : s.head l = 0) (ha0 : a ≠ 0)
    (hal : alignDown A a pageSize = a) :
    ∃ s', linkBlock A s l a = .ok s' ∧ ListAt A s' l [a] ∧ Frame s s' l (· = a) := by
  have hif : (s.levels l).head = 0 := hhead
  refine ⟨_, if_pos hif, ?_, ?_⟩
  · refine ⟨?_, ?_, by simpa using ha0, by simpa using hal, ?_⟩
    · simp [State.head, State.setLinks]
    · rw [IsRing.singleton_iff]
      simp
    · intro x hx
      exact valid_setLinks fun hxa => absurd (List.mem_singleton.1 hx) hxa
  · refine ⟨rfl, rfl, rfl, rfl, rfl, ?_, ?_, ?_⟩
    · intro m
      by_cases hm : m = l <;> simp [State.setLinks, hm]
    · intro m hm
      simp [State.head, State.setLinks, hm]
    · intro x hx
      exact Function.update_of_ne hx _ _

/-- The node writes of `add_to_list` on a list with head `h`. -/
def linked (A : Arch) (s : State) (h a : Nat) : State :=
  ((s.setLinks A a (s.prevOf h) h).setPrev A h a).setNext A (s.prevOf h) a

theorem linkBlock_run {h : Nat} {t : List Nat} (hl : ListAt A s l (h :: t)) :
    linkBlock A s l a = .ok (linked A s h a) := by
  have hhead : (s.levels l).head = h := hl.head
  have hh0 : h ≠ 0 := hl.ne_zero h List.mem_cons_self
  have hpmem : s.prevOf h ∈ h :: t := (hl.ring.links_mem List.mem_cons_self).2
  simp only [linkBlock, hhead, if_neg hh0, hl.getBlockNodeMut List.mem_cons_self, run_ok_bind]
  change (Buddy.getBlockNodeMut A s (s.prevOf h) >>= _) = _
  rw [hl.getBlockNodeMut hpmem]
  rfl

theorem linked_frame {h : Nat} (hp : s.prevOf h ∈ h :: xs) :
    Frame s (linked A s h a) l (· ∈ a :: h :: xs) := by
  refine ⟨rfl, rfl, rfl, rfl, rfl, fun _ => rfl, fun _ _ => rfl, ?_⟩
  intro x hx
  have hxa : x ≠ a := by
    rintro rfl
    exact hx List.mem_cons_self
  have hxh : x ≠ h := by
    rintro rfl
    exact hx (List.mem_cons_of_mem _ List.mem_cons_self)
  have hxp : x ≠ s.prevOf h := by
    rintro rfl
    exact hx (List.mem_cons_of_mem _ hp)
  calc (linked A s h a).mem x
      = ((s.setLinks A a (s.prevOf h) h).setPrev A h a).mem x := Function.update_of_ne hxp _ _
    _ = (s.setLinks A a (s.prevOf h) h).mem x := Function.update_of_ne hxh _ _
    _ = s.mem x := Function.update_of_ne hxa _ _

theorem linked_ring {h : Nat} {t : List Nat} (hr : IsRing s.nextOf s.prevOf (h :: t))
    (ha : a ∉ h :: t) :
    IsRing (linked A s h a).nextOf (linked A s h a).prevOf (h :: t ++ [a]) := by
  have hpmem : s.prevOf h ∈ h :: t := (hr.links_mem List.mem_cons_self).2
  have hah : a ≠ h := by
    rintro rfl
    exact ha List.mem_cons_self
  have hap : a ≠ s.prevOf h := by
    intro heq
    exact ha (heq ▸ hpmem)
  have hother : ∀ x ∈ h :: t, x ≠ a := by
    rintro x hx rfl
    exact ha hx
  refine hr.insertTail ha ?_ ?_ ?_ ?_ ?_ ?_
  · simp [linked, hap]
  · simp [linked, hah]
  · simp [linked]
  · simp [linked]
  · intro x hx hxp
    simp [linked, hxp, hother x hx]
  · intro x hx hxh
    simp [linked, hxh, hother x hx]

/-- Adding a block appends it to the level's list. -/
theorem linkBlock_spec (hl : ListAt A s l xs) (ha : a ∉ xs) (ha0 : a ≠ 0)
    (hal : alignDown A a pageSize = a) :
    ∃ s', linkBlock A s l a = .ok s' ∧ ListAt A s' l (xs ++ [a]) ∧ Frame s s' l (· ∈ a :: xs) := by
  -- The source has one path for an empty list and one that links behind the tail.
  cases xs with
  | nil =>
      obtain ⟨s', hrun, hlist, hframe⟩ := linkBlock_empty hl.head ha0 hal
      refine ⟨s', hrun, hlist, ?_⟩
      simpa using hframe
  | cons h t =>
      have hpmem : s.prevOf h ∈ h :: t := (hl.ring.links_mem List.mem_cons_self).2
      refine ⟨_, linkBlock_run hl, ⟨hl.head, linked_ring hl.ring ha, ?_, ?_, ?_⟩,
        linked_frame hpmem⟩
      · intro x hx
        rcases List.mem_append.1 hx with hx | hx
        · exact hl.ne_zero x hx
        · rw [List.mem_singleton.1 hx]
          exact ha0
      · intro x hx
        rcases List.mem_append.1 hx with hx | hx
        · exact hl.aligned x hx
        · rw [List.mem_singleton.1 hx]
          exact hal
      · intro x hx
        refine valid_setNext fun _ => valid_setPrev fun _ => valid_setLinks fun hxa => ?_
        refine hl.checksum x ?_
        simpa [hxa] using hx

/-! ## Removing a block -/

/-- What is left of a list when `remove_from_list` takes `a` out of it. -/
def removed (xs : List Nat) (a : Nat) : List Nat :=
  if xs.headD 0 = a then [] else xs.erase a

/-- The node writes of `remove_from_list` on a list of two or more blocks. -/
def unlinked (A : Arch) (s : State) (a : Nat) : State :=
  ((s.setPrev A (s.nextOf a) (s.prevOf a)).setNext A (s.prevOf a) (s.nextOf a)).setNode a
    { next := 0, prev := 0, checksum := 0 }

theorem unlinkBlock_run (hl : ListAt A s l xs) (ha : a ∈ xs) (hself : s.nextOf a ≠ a) :
    unlinkBlock A s l a =
      .ok (if a = s.head l then (unlinked A s a).setHead l 0 else unlinked A s a) := by
  have hlinks := hl.ring.links_mem ha
  have hne : ¬ (s.mem a).next = a := hself
  have hmem1 : (s.setPrev A (s.nextOf a) (s.prevOf a)).mem a = s.mem a :=
    Function.update_of_ne hself.symm _ _
  simp only [unlinkBlock, hl.getBlockNodeMut ha, run_ok_bind, if_neg hne]
  change (Buddy.getBlockNodeMut A s (s.prevOf a) >>= fun _ =>
    Buddy.getBlockNodeMut A s (s.nextOf a) >>= _) = _
  rw [hl.getBlockNodeMut hlinks.2, run_ok_bind, hl.getBlockNodeMut hlinks.1, run_ok_bind]
  change (if a = s.head l then _ else _) = _
  rw [show (s.mem a).next = s.nextOf a from rfl, show (s.mem a).prev = s.prevOf a from rfl, hmem1]
  by_cases hhead : a = s.head l
  · rw [if_pos hhead, if_pos hhead]
    -- The head is read back from the cleared node.
    simp only [mem_setNode, Function.update_self]
    rfl
  · rw [if_neg hhead, if_neg hhead]
    rfl

theorem unlinked_frame (ha : a ∈ xs) (hn : s.nextOf a ∈ xs) (hp : s.prevOf a ∈ xs) :
    Frame s (unlinked A s a) l (· ∈ xs) := by
  refine ⟨rfl, rfl, rfl, rfl, rfl, fun _ => rfl, fun _ _ => rfl, ?_⟩
  intro x hx
  have hne : ∀ y ∈ xs, x ≠ y := by
    rintro y hy rfl
    exact hx hy
  calc (unlinked A s a).mem x
      = ((s.setPrev A (s.nextOf a) (s.prevOf a)).setNext A (s.prevOf a) (s.nextOf a)).mem x :=
        Function.update_of_ne (hne a ha) _ _
    _ = (s.setPrev A (s.nextOf a) (s.prevOf a)).mem x := Function.update_of_ne (hne _ hp) _ _
    _ = s.mem x := Function.update_of_ne (hne _ hn) _ _

theorem unlinked_ring {l₁ l₂ : List Nat} (hr : IsRing s.nextOf s.prevOf (l₁ ++ a :: l₂))
    (hself : s.nextOf a ≠ a) :
    IsRing (unlinked A s a).nextOf (unlinked A s a).prevOf (l₁ ++ l₂) := by
  have hnotin : a ∉ l₁ ++ l₂ := (List.nodup_cons.1 (List.nodup_middle.1 hr.nodup)).1
  have hne : l₁ ++ l₂ ≠ [] := by
    intro hnil
    have hboth : l₁ = [] ∧ l₂ = [] := by simpa using hnil
    rw [hboth.1, hboth.2] at hr
    exact hself (IsRing.singleton_iff.1 hr).1
  have hpa : s.prevOf a ≠ a := hr.prev_ne_self (by simp) hself
  have hother : ∀ x ∈ l₁ ++ l₂, x ≠ a := by
    rintro x hx rfl
    exact hnotin hx
  refine hr.unlink hne ?_ ?_ ?_ ?_
  · simp [unlinked, hpa]
  · simp [unlinked, hself]
  · intro x hx hxp
    simp [unlinked, hother x hx, hxp]
  · intro x hx hxn
    simp [unlinked, hother x hx, hxn]

/-- Removing a block takes it out of the level's list, and the whole list with it when the block is
the head. -/
theorem unlinkBlock_spec (hl : ListAt A s l xs) (ha : a ∈ xs) :
    ∃ s', unlinkBlock A s l a = .ok s' ∧ ListAt A s' l (removed xs a) ∧ Frame s s' l (· ∈ xs) := by
  by_cases hself : s.nextOf a = a
  · -- The block is alone.
    have hxs : xs = [a] := (hl.ring.next_eq_self_iff ha).1 hself
    subst hxs
    have hlinks := IsRing.singleton_iff.1 hl.ring
    have hhead : (s.levels l).head = a := hl.head
    refine ⟨s.setHead l 0, ?_, ?_, ?_⟩
    · have hn : (s.mem a).next = a := hlinks.1
      have hp : (s.mem a).prev = a := hlinks.2
      simp only [unlinkBlock, hl.getBlockNodeMut ha, run_ok_bind, hn, hp, hhead, if_true]
      simp [require]
    · rw [removed, List.headD_cons, if_pos rfl]
      exact ListAt.nil (by simp [State.head])
    · refine ⟨rfl, rfl, rfl, rfl, rfl, ?_, ?_, fun _ _ => rfl⟩
      · intro m
        by_cases hm : m = l <;> simp [hm]
      · intro m hm
        simp [State.head, hm]
  · have hlinks := hl.ring.links_mem ha
    have hframe : Frame s (unlinked A s a) l (· ∈ xs) := unlinked_frame ha hlinks.1 hlinks.2
    refine ⟨_, unlinkBlock_run hl ha hself, ?_, ?_⟩
    · rw [removed, ← hl.head]
      by_cases hhead : a = s.head l
      · rw [if_pos hhead, if_pos hhead.symm]
        exact ListAt.nil (by simp [State.head])
      · rw [if_neg hhead, if_neg (Ne.symm hhead)]
        obtain ⟨l₁, l₂, rfl, hnot⟩ := List.eq_append_cons_of_mem ha
        have herase : (l₁ ++ a :: l₂).erase a = l₁ ++ l₂ := by
          rw [List.erase_append_right _ hnot, List.erase_cons_head]
        have hsub : ∀ x ∈ l₁ ++ l₂, x ∈ l₁ ++ a :: l₂ := by
          intro x hx
          simp only [List.mem_append, List.mem_cons] at hx ⊢
          tauto
        rw [herase]
        refine ⟨?_, unlinked_ring hl.ring hself, ?_, ?_, ?_⟩
        · have hl₁ : l₁ ≠ [] := by
            rintro rfl
            exact hhead hl.head.symm
          have hh := hl.head
          rw [List.headD_eq_head?_getD, List.head?_append_of_ne_nil _ hl₁] at hh ⊢
          exact hh
        · exact fun x hx => hl.ne_zero x (hsub x hx)
        · exact fun x hx => hl.aligned x (hsub x hx)
        · intro x hx
          have hnotin : a ∉ l₁ ++ l₂ :=
            (List.nodup_cons.1 (List.nodup_middle.1 hl.ring.nodup)).1
          have hxa : x ≠ a := by
            rintro rfl
            exact hnotin hx
          have hv : Valid A ((s.setPrev A (s.nextOf a) (s.prevOf a)).setNext A (s.prevOf a)
              (s.nextOf a)) x :=
            valid_setNext fun _ => valid_setPrev fun _ => hl.checksum x (hsub x hx)
          simpa [Valid, unlinked, hxa] using hv
    · by_cases hhead : a = s.head l
      · rw [if_pos hhead]
        refine ⟨hframe.base, hframe.size, hframe.flags, hframe.allocMem, hframe.freeMem, ?_, ?_,
          hframe.mem⟩
        · intro m
          by_cases hm : m = l
          · subst hm
            simpa using hframe.offset m
          · simpa [hm] using hframe.offset m
        · intro m hm
          simpa [State.head, hm] using hframe.head m hm
      · rw [if_neg hhead]
        exact hframe

end Buddy
end Propeller
