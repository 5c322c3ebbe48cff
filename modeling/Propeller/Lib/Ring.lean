import Mathlib.Data.List.Cycle

/-!
# Ring — circular doubly-linked lists

An intrusive circular list is two link functions on addresses, `next` and `prev`, and a list of
members such that following `next` from any member visits the members in order and comes back,
with `prev` pointing the other way.  The two edits of such a list are *local*: linking a node in
before the head writes four links, and unlinking a node writes two.  This file states both edits for
link functions that agree with the old ones everywhere else, which is what a write to memory gives.

* `IsRing next prev xs` — `xs` is the circular list, in `next` order;
* `IsRing.insertTail` / `IsRing.unlink` — the two edits;
* `IsRing.iterate_iff_mem` — the members are exactly what `next` reaches from the head.
-/

namespace Propeller

variable {α : Type*} {next prev next' prev' : α → α} {xs l r : List α} {h a b : α}

/-- `x` is linked to `y` in both directions. -/
def Linked (next prev : α → α) (x y : α) : Prop :=
  next x = y ∧ prev y = x

/-- `xs` lists the nodes of a circular doubly-linked list in `next` order. -/
structure IsRing (next prev : α → α) (xs : List α) : Prop where
  nodup : xs.Nodup
  chain : Cycle.Chain (Linked next prev) (xs : Cycle α)

namespace IsRing

/-! ## Reading a ring -/

theorem nil : IsRing next prev [] :=
  ⟨List.nodup_nil, Cycle.Chain.nil _⟩

theorem singleton_iff : IsRing next prev [a] ↔ next a = a ∧ prev a = a := by
  constructor
  · intro hr
    exact (Cycle.chain_singleton _ a).1 hr.chain
  · intro hr
    exact ⟨List.nodup_singleton a, (Cycle.chain_singleton _ a).2 hr⟩

/-- A ring may be read from any of its nodes. -/
theorem rotate (hr : IsRing next prev (l ++ r)) : IsRing next prev (r ++ l) := by
  have hrot : (l ++ r) ~r (r ++ l) := List.isRotated_append
  refine ⟨hrot.nodup_iff.1 hr.nodup, ?_⟩
  have hc := hr.chain
  rwa [Cycle.coe_eq_coe.2 hrot] at hc

/-- A ring only depends on the links of its members. -/
theorem congr (hr : IsRing next prev xs) (hn : ∀ x ∈ xs, next' x = next x)
    (hp : ∀ x ∈ xs, prev' x = prev x) : IsRing next' prev' xs := by
  refine ⟨hr.nodup, ?_⟩
  cases xs with
  | nil => exact Cycle.Chain.nil _
  | cons h t =>
      have hc := hr.chain
      rw [Cycle.chain_coe_cons] at hc ⊢
      refine hc.imp_of_mem_imp ?_
      intro x y hx hy hxy
      have hx' : x ∈ h :: t := by simpa [or_comm, or_assoc] using hx
      have hy' : y ∈ h :: t := by simpa [or_comm, or_assoc] using hy
      exact ⟨(hn x hx').trans hxy.1, (hp y hy').trans hxy.2⟩

/-- The links around the seam of a ring with at least two nodes. -/
theorem seam (hr : IsRing next prev (b :: l ++ [a])) :
    next a = b ∧ prev b = a ∧ List.IsChain (Linked next prev) (b :: l ++ [a]) := by
  have hc := hr.chain
  rw [List.cons_append, Cycle.chain_coe_cons] at hc
  have hsplit : b :: ((l ++ [a]) ++ [b]) = (b :: l) ++ a :: b :: [] := by simp
  rw [hsplit, List.isChain_append_cons_cons] at hc
  exact ⟨hc.2.1.1, hc.2.1.2, hc.1⟩

/-- Both neighbours of a node are nodes. -/
theorem links_mem (hr : IsRing next prev xs) (ha : a ∈ xs) : next a ∈ xs ∧ prev a ∈ xs := by
  obtain ⟨l, r, rfl⟩ := List.append_of_mem ha
  -- Rotated to start at `a`, the links of `a` are the second and the last element.
  have hrot := hr.rotate
  suffices hgoal : next a ∈ (a :: r) ++ l ∧ prev a ∈ (a :: r) ++ l by
    simpa [or_comm, or_assoc, or_left_comm] using hgoal
  rw [List.cons_append] at hrot ⊢
  rcases List.eq_nil_or_concat' (r ++ l) with hnil | ⟨m, c, hm⟩
  · rw [hnil] at hrot ⊢
    have hself := singleton_iff.1 hrot
    simp [hself]
  · rw [hm, ← List.cons_append] at hrot
    have hseam := hrot.seam
    refine ⟨?_, by simp [hseam.2.1, hm]⟩
    cases m with
    | nil =>
        have hlink := hseam.2.2
        simp only [List.cons_append, List.nil_append, List.isChain_pair] at hlink
        simp [hlink.1, hm]
    | cons d m =>
        have hlink := hseam.2.2
        simp only [List.cons_append, List.isChain_cons_cons] at hlink
        simp [hlink.1.1, hm]

/-- A node points at itself exactly when it is alone. -/
theorem next_eq_self_iff (hr : IsRing next prev xs) (ha : a ∈ xs) : next a = a ↔ xs = [a] := by
  obtain ⟨l, r, rfl⟩ := List.append_of_mem ha
  constructor
  · intro hself
    have hrot := hr.rotate
    rw [List.cons_append] at hrot
    cases hm : r ++ l with
    | nil =>
        have hlr : r = [] ∧ l = [] := by simpa using hm
        simp [hlr]
    | cons d m =>
        -- A second node would be `next a`, so `a` would occur twice.
        have hc := hrot.chain
        rw [hm, Cycle.chain_coe_cons, List.cons_append, List.isChain_cons_cons] at hc
        have hd : d = a := hc.1.1.symm.trans hself
        have hnd := hrot.nodup
        rw [hm, hd] at hnd
        simp at hnd
  · intro hxs
    rw [hxs] at hr
    exact (singleton_iff.1 hr).1

/-- A node that does not point forward at itself does not point back at itself either. -/
theorem prev_ne_self (hr : IsRing next prev xs) (ha : a ∈ xs) (hself : next a ≠ a) :
    prev a ≠ a := by
  intro hpa
  obtain ⟨l, r, rfl⟩ := List.append_of_mem ha
  have hrot : IsRing next prev (a :: (r ++ l)) := hr.rotate
  rcases List.eq_nil_or_concat' (r ++ l) with hnil | ⟨m, c, hm⟩
  · rw [hnil] at hrot
    exact hself (singleton_iff.1 hrot).1
  · rw [hm, ← List.cons_append] at hrot
    obtain ⟨hca, hac, -⟩ := hrot.seam
    rw [← hac, hpa] at hca
    exact hself hca

/-- One round around the ring: `next` takes the members to the members, turned by one. -/
theorem map_next (hr : IsRing next prev (h :: l)) : (h :: l).map next = l ++ [h] := by
  have hc := hr.chain
  rw [Cycle.chain_coe_cons] at hc
  clear hr
  -- The chain is open: its last entry need not be its first.
  generalize h = e at hc ⊢
  suffices hgoal : ∀ a, List.IsChain (Linked next prev) (a :: (l ++ [e])) → (a :: l).map next = l ++ [e] by
    exact hgoal e hc
  clear hc
  induction l with
  | nil =>
      intro a ha
      have hlink : Linked next prev a e := by simpa using ha
      simp [hlink.1]
  | cons d m ih =>
      intro a ha
      rw [List.cons_append, List.isChain_cons_cons] at ha
      rw [List.map_cons, ih d ha.2, ha.1.1, List.cons_append]

/-! ## The two edits -/

/-- Linking a new node `b` in before the head `h` makes it the last node. -/
theorem insertTail (hr : IsRing next prev (h :: l)) (hb : b ∉ h :: l)
    (hbn : next' b = h) (hbp : prev' b = prev h) (hln : next' (prev h) = b) (hhp : prev' h = b)
    (hn : ∀ x ∈ h :: l, x ≠ prev h → next' x = next x)
    (hp : ∀ x ∈ h :: l, x ≠ h → prev' x = prev x) :
    IsRing next' prev' (h :: l ++ [b]) := by
  refine ⟨List.nodup_append.2 ⟨hr.nodup, List.nodup_singleton b, ?_⟩, ?_⟩
  · intro x hx y hy hxy
    rw [List.mem_singleton.1 hy] at hxy
    exact hb (hxy ▸ hx)
  rw [List.cons_append, Cycle.chain_coe_cons]
  rcases List.eq_nil_or_concat' l with rfl | ⟨m, c, rfl⟩
  · have hself := singleton_iff.1 hr
    rw [hself.2] at hln hbp
    simp [Linked, hln, hbn, hbp, hhp]
  · rw [← List.cons_append] at hr hb hn hp
    obtain ⟨hcn, hcp, hchain⟩ := hr.seam
    rw [hcp] at hbp hln hn
    have hsplit : h :: ((m ++ [c]) ++ [b] ++ [h]) = (h :: m) ++ c :: b :: h :: [] := by simp
    rw [hsplit, List.isChain_append_cons_cons]
    refine ⟨?_, ⟨hln, hbp⟩, by simp [Linked, hbn, hhp]⟩
    refine hchain.imp_of_mem_tail_imp ?_
    intro x y hx hy hxy
    have hhy : y ≠ h := by
      rintro rfl
      have hnd := hr.nodup
      rw [List.cons_append, List.nodup_cons] at hnd
      exact hnd.1 (by simpa using hy)
    -- The last node is followed by the head, which is not in the tail.
    have hxc : x ≠ c := by
      rintro rfl
      exact hhy (hxy.1.symm.trans hcn)
    refine ⟨(hn x hx hxc).trans hxy.1, (hp y ?_ hhy).trans hxy.2⟩
    exact List.mem_of_mem_tail hy

/-- Unlinking the node `b` joins its neighbours. -/
theorem unlink_head (hr : IsRing next prev (b :: l)) (hl : l ≠ [])
    (hpn : next' (prev b) = next b) (hnp : prev' (next b) = prev b)
    (hn : ∀ x ∈ l, x ≠ prev b → next' x = next x)
    (hp : ∀ x ∈ l, x ≠ next b → prev' x = prev x) : IsRing next' prev' l := by
  have hnd := List.nodup_cons.1 hr.nodup
  refine ⟨hnd.2, ?_⟩
  -- The seam moves: `c` was the last node before `b`, and now its successor is the first node behind `b`.
  obtain ⟨m, c, rfl⟩ := (List.eq_nil_or_concat' l).resolve_left hl
  rw [← List.cons_append] at hr
  obtain ⟨hcb, hbc, hchain⟩ := hr.seam
  rw [hbc] at hpn hnp hn
  cases m with
  | nil =>
      have hlink : Linked next prev b c := by simpa using hchain
      rw [hlink.1] at hpn hnp
      exact (Cycle.chain_singleton _ c).2 ⟨hpn, hnp⟩
  | cons d m =>
      rw [List.cons_append, List.cons_append, List.isChain_cons_cons] at hchain
      obtain ⟨hbd, hchain⟩ := hchain
      rw [hbd.1] at hpn hnp hp
      rw [List.cons_append, Cycle.chain_coe_cons]
      have hsplit : d :: ((m ++ [c]) ++ [d]) = (d :: m) ++ c :: d :: [] := by simp
      rw [hsplit, List.isChain_append_cons_cons]
      refine ⟨?_, ⟨hpn, hnp⟩, List.isChain_singleton d⟩
      refine hchain.imp_of_mem_imp ?_
      -- The links between other nodes stay as they are.
      intro x y hx hy hxy
      have hxc : x ≠ c := by
        rintro rfl
        exact hnd.1 (by rw [← hcb, hxy.1]; simpa using hy)
      have hyd : y ≠ d := by
        rintro rfl
        exact hnd.1 (by rw [← hbd.2, hxy.2]; simpa using hx)
      exact ⟨(hn x (by simpa using hx) hxc).trans hxy.1, (hp y (by simpa using hy) hyd).trans hxy.2⟩

/-- Unlinking a node anywhere in the ring keeps the order of the others. -/
theorem unlink (hr : IsRing next prev (l ++ b :: r)) (hlr : l ++ r ≠ [])
    (hpn : next' (prev b) = next b) (hnp : prev' (next b) = prev b)
    (hn : ∀ x ∈ l ++ r, x ≠ prev b → next' x = next x)
    (hp : ∀ x ∈ l ++ r, x ≠ next b → prev' x = prev x) : IsRing next' prev' (l ++ r) := by
  have hrot : IsRing next prev (b :: (r ++ l)) := hr.rotate
  have hmem : ∀ x, x ∈ r ++ l ↔ x ∈ l ++ r := by
    intro x
    simp [or_comm]
  refine (hrot.unlink_head ?_ hpn hnp ?_ ?_).rotate
  · intro hnil
    simp_all
  · intro x hx
    exact hn x ((hmem x).1 hx)
  · intro x hx
    exact hp x ((hmem x).1 hx)

/-! ## Reachability -/

/-- Following `next` from the head visits exactly the members. -/
theorem iterate_iff_mem (hr : IsRing next prev (h :: l)) :
    (∃ k, next^[k] h = a) ↔ a ∈ h :: l := by
  constructor
  · rintro ⟨k, rfl⟩
    induction k with
    | zero => simp
    | succ k ih =>
        rw [Function.iterate_succ_apply']
        exact (hr.links_mem ih).1
  · intro ha
    have hc := hr.chain
    rw [Cycle.chain_coe_cons, ← List.cons_append] at hc
    have hopen := hc.left_of_append
    clear hr hc
    -- Walk down the open chain: every member is an iterate of the first one.
    induction l generalizing h with
    | nil =>
        exact ⟨0, (List.mem_singleton.1 ha).symm⟩
    | cons d m ih =>
        rw [List.isChain_cons_cons] at hopen
        rcases List.mem_cons.1 ha with rfl | ha
        · exact ⟨0, rfl⟩
        · obtain ⟨k, hk⟩ := ih ha hopen.2
          refine ⟨k + 1, ?_⟩
          rw [Function.iterate_succ_apply, hopen.1.1, hk]

end IsRing

end Propeller
