import Mathlib.Data.Set.Lattice
import Mathlib.Order.CompletePartialOrder
import Propeller.Support.RangeSet

/-!
# Support.RangeTrim — what `trim_ranges` does

`trim_overlapping_ranges` merges neighbours that overlap: it moves the ranges behind the pair one place
down and looks at the same index again.  The count does not change with the move, so the last range is
there twice afterwards, and two equal ranges are merged again and again.

* `Stuck` — behind the index, two neighbours are neither before nor behind one another;
* `trimLoop_stuck` — a loop that is stuck never returns;
* `trimRanges_normalises_iff` — `trim_ranges` normalises exactly the sets of disjoint ranges, which it
  leaves as they are.
-/

namespace Propeller
namespace RangeSet

variable {N : Nat} {τ : Type} {A : Arch} {P : Profile} {r r' : Range τ} {ranges : List (Range τ)}

/-! ## The move -/

theorem mem_of_mem_copyWithin {x : Range τ} {src dest : Nat} (hx : x ∈ copyWithin ranges src dest) :
    x ∈ ranges := by
  rcases List.mem_append.1 hx with hx | hx
  · rcases List.mem_append.1 hx with hx | hx
    · exact List.mem_of_mem_take hx
    · exact List.mem_of_mem_drop hx
  · exact List.mem_of_mem_drop hx

/-- After the move, the last range is there twice. -/
theorem copyWithin_last {d : Nat} (hd : d + 1 < ranges.length) :
    (copyWithin ranges (d + 1) d)[ranges.length - 2]? = ranges[ranges.length - 1]? ∧
      (copyWithin ranges (d + 1) d)[ranges.length - 1]? = ranges[ranges.length - 1]? := by
  have hdest : d + (ranges.length - (d + 1)) = ranges.length - 1 := by omega
  have htake : (ranges.take d).length = d := List.length_take_of_le (by omega)
  rw [copyWithin, hdest, List.append_assoc]
  constructor
  · rw [List.getElem?_append_right (by omega), htake, List.getElem?_append_left, List.getElem?_drop]
    · congr 1
      omega
    · rw [List.length_drop]
      omega
  · rw [List.getElem?_append_right (by omega), htake, List.getElem?_append_right, List.getElem?_drop,
      List.length_drop]
    · congr 1
      omega
    · rw [List.length_drop]
      omega

/-- There is nothing to move behind the last pair. -/
theorem copyWithin_of_length {d : Nat} (hd : d + 1 = ranges.length) :
    copyWithin ranges (d + 1) d = ranges := by
  rw [copyWithin, hd, Nat.sub_self, List.drop_length, List.append_nil, Nat.add_zero,
    List.take_append_drop]

theorem getRange_eq_ok {i : Nat} : getRange ranges i = .ok r ↔ ranges[i]? = some r := by
  rw [getRange]
  cases ranges[i]? with
  | none => simp
  | some x => simp

/-! ## The loop is stuck -/

/-- The first range is neither before nor behind the second one. -/
def Blocked (P : Profile) (A : Arch) (r r' : Range τ) : Prop :=
  ∀ order, r.cmp P A r' = .ok (some order) → order ≠ .less ∧ order ≠ .greater

theorem blocked_self (r : Range τ) : Blocked P A r r := by
  intro order h
  rw [Range.cmp] at h
  split at h
  · cases h
  · rcases run_bind_eq_ok.1 h with ⟨lhsEnd, -, h⟩
    rcases run_bind_eq_ok.1 h with ⟨rhsEnd, -, h⟩
    obtain rfl := Option.some.inj (Except.ok.inj h)
    simp [Range.order]

/-- What the comparison of two neighbours says about them. -/
theorem cmp_eq_some {order : RangeOrdering} (hr : r.Fits A) (hr' : r'.Fits A)
    (h : r.cmp P A r' = .ok (some order)) : 0 < r.size ∧ 0 < r'.size ∧ Range.Lies r' r order := by
  rcases Nat.eq_zero_or_pos r.size with h0 | hr0
  · rw [Range.cmp, if_pos (Or.inl h0)] at h
    cases h
  · rcases Nat.eq_zero_or_pos r'.size with h0 | hr0'
    · rw [Range.cmp, if_pos (Or.inr h0)] at h
      cases h
    · rw [Range.cmp_eq hr hr' hr0 hr0'] at h
      obtain rfl := Option.some.inj (Except.ok.inj h)
      exact ⟨hr0, hr0', Range.lies_order hr0 hr0'⟩

/-- Ranges that have an address in common block each other. -/
theorem blocked_of_overlap (hr : r.Fits A) (hr' : r'.Fits A) (hlt : r.base < r'.stop)
    (hlt' : r'.base < r.stop) : Blocked P A r r' := by
  intro order h
  rcases cmp_eq_some hr hr' h with ⟨hr0, hr0', hlies⟩
  constructor
  · rintro rfl
    cases hlies
    omega
  · rintro rfl
    cases hlies
    omega

/-- Behind the index, two neighbours block each other. -/
structure Stuck (P : Profile) (A : Arch) (i : Nat) (ranges : List (Range τ)) : Prop where
  fits : ∀ r ∈ ranges, r.Fits A
  blocked : ∃ j r r', i ≤ j ∧ ranges[j]? = some r ∧ ranges[j + 1]? = some r' ∧ Blocked P A r r'

/-- A move that keeps the ranges keeps the loop stuck: the last range blocks its copy. -/
theorem stuck_copyWithin {i d : Nat} (hfits : ∀ r ∈ ranges, r.Fits A) (hd : d + 1 < ranges.length)
    (hi : i + 2 ≤ ranges.length) : Stuck P A i (copyWithin ranges (d + 1) d) := by
  refine ⟨fun r hr => hfits r (mem_of_mem_copyWithin hr), ?_⟩
  rcases copyWithin_last hd with ⟨hprev, hlast⟩
  have hget : ranges[ranges.length - 1]? = some (ranges.get ⟨ranges.length - 1, by omega⟩) :=
    List.getElem?_eq_getElem (by omega)
  refine ⟨ranges.length - 2, _, _, by omega, hprev.trans hget, ?_, blocked_self _⟩
  have hidx : ranges.length - 2 + 1 = ranges.length - 1 := by omega
  rw [hidx]
  exact hlast.trans hget

theorem blocked_of_empty (h : r.size = 0) : Blocked P A r r' := by
  intro order hcmp
  rw [Range.cmp, if_pos (Or.inl h)] at hcmp
  cases hcmp

/-- The size of the merged range: it ends where its neighbour does, or is empty if its neighbour ends with
the address space. -/
theorem merge_size {stop size : Nat} (hr : r.Fits A) (hr' : r'.Fits A) (hlt : r.base < r'.stop)
    (hstop : addWord P A r'.base r'.size = .ok stop) (hsize : subWord P A stop r.base = .ok size) :
    size = 0 ∨ r.base + size = r'.stop := by
  have hbase := hr.lt
  have hend : r'.base + r'.size = r'.stop := rfl
  rcases Nat.lt_or_eq_of_le hr'.le with hin | hlimit
  · rw [addWord_of_lt hin] at hstop
    obtain rfl := Except.ok.inj hstop
    rw [hend, subWord_of_le hlt.le hin] at hsize
    have := Except.ok.inj hsize
    exact Or.inr (by omega)
  · -- The end is the word limit and wraps to zero, so the size is only right if the subtraction wraps back.
    obtain rfl := addWord_eq_ok_of_limit hlimit hstop
    cases P with
    | dev =>
        have := checkedSub_eq_ok.1 hsize
        exact Or.inl (by omega)
    | release =>
        have hmod : (0 + A.wordLimit - r.base) % A.wordLimit = size := Except.ok.inj hsize
        rcases Nat.eq_zero_or_pos r.base with h0 | hpos
        · rw [h0, Nat.zero_add, Nat.sub_zero, Nat.mod_self] at hmod
          exact Or.inl hmod.symm
        · rw [Nat.mod_eq_of_lt (by omega)] at hmod
          exact Or.inr (by omega)

/-- The merged range still overlaps its neighbour. -/
theorem blocked_merge {stop size : Nat} (hr : r.Fits A) (hr' : r'.Fits A) (hr0' : 0 < r'.size)
    (hlt : r.base < r'.stop) (hstop : addWord P A r'.base r'.size = .ok stop)
    (hsize : subWord P A stop r.base = .ok size) :
    ({ r with size } : Range τ).Fits A ∧ Blocked P A { r with size } r' := by
  have hle := hr'.le
  have hbase := hr.lt
  have hend : r'.stop = r'.base + r'.size := rfl
  rcases merge_size hr hr' hlt hstop hsize with rfl | hmerge
  · exact ⟨⟨hr.lt, hr.lt.le⟩, blocked_of_empty rfl⟩
  · have hfits : ({ r with size } : Range τ).Fits A := ⟨hr.lt, hmerge.trans_le hle⟩
    refine ⟨hfits, blocked_of_overlap hfits hr' hlt ?_⟩
    show r'.base < r.base + size
    omega

/-! ## The loop never returns -/

/-- Merging a pair that overlaps in part keeps the loop stuck. -/
theorem stuck_merge {i stop size : Nat} (hfits : ∀ r ∈ ranges, r.Fits A) (hi : ranges[i]? = some r)
    (hi' : ranges[i + 1]? = some r') (hr0' : 0 < r'.size) (hlt : r.base < r'.stop)
    (hstop : addWord P A r'.base r'.size = .ok stop) (hsize : subWord P A stop r.base = .ok size) :
    Stuck P A i (copyWithin (ranges.set i { r with size }) (i + 2) (i + 1)) := by
  rcases blocked_merge (hfits r (List.mem_of_getElem? hi)) (hfits r' (List.mem_of_getElem? hi')) hr0' hlt
    hstop hsize with ⟨hmfits, hblocked⟩
  have hlen : i + 1 < ranges.length := (List.getElem?_eq_some_iff.1 hi').1
  have hset : (ranges.set i { r with size }).length = ranges.length := List.length_set
  have hsetfits : ∀ x ∈ ranges.set i { r with size }, x.Fits A := by
    intro x hx
    rcases List.mem_or_eq_of_mem_set hx with hx | rfl
    · exact hfits x hx
    · exact hmfits
  rcases Nat.lt_or_ge (i + 2) ranges.length with hmore | hlast
  · exact stuck_copyWithin hsetfits (by omega) (by omega)
  · -- Nothing stands behind the pair: it is compared again.
    rw [copyWithin_of_length (by omega)]
    refine ⟨hsetfits, i, { r with size }, r', le_rfl, ?_, ?_, hblocked⟩
    · exact List.getElem?_set_self (by omega)
    · rw [List.getElem?_set_ne (by omega)]
      exact hi'

theorem trimLoop_stuck {i : Nat} {out : List (Range τ)} (fuel : Nat) (h : Stuck P A i ranges) :
    trimLoop P A fuel i ranges ≠ .ok out := by
  induction fuel generalizing i ranges with
  | zero =>
      intro hrun
      cases hrun
  | succ fuel ih =>
      rcases h with ⟨hfits, j, a, b, hij, hj, hj', hblocked⟩
      have hlen : j + 1 < ranges.length := (List.getElem?_eq_some_iff.1 hj').1
      intro hrun
      rw [trimLoop, if_pos (by omega)] at hrun
      rcases run_bind_eq_ok.1 hrun with ⟨r, hr, hrun⟩
      rcases run_bind_eq_ok.1 hrun with ⟨next, hnext, hrun⟩
      rcases run_bind_eq_ok.1 hrun with ⟨order, horder, hrun⟩
      have hri : ranges[i]? = some r := getRange_eq_ok.1 hr
      have hni : ranges[i + 1]? = some next := getRange_eq_ok.1 hnext
      have hrf := hfits r (List.mem_of_getElem? hri)
      have hnf := hfits next (List.mem_of_getElem? hni)
      cases order with
      | none => cases hrun
      | some order =>
          rcases cmp_eq_some hrf hnf horder with ⟨hr0, hn0, hlies⟩
          -- The neighbours at the index are apart, and the blocked pair is behind them.
          have hapart : order = .less ∨ order = .greater → Stuck P A (i + 1) ranges := by
            intro hap
            have hne : i ≠ j := by
              rintro rfl
              obtain rfl := Option.some.inj (hri.symm.trans hj)
              obtain rfl := Option.some.inj (hni.symm.trans hj')
              rcases hblocked order horder with ⟨hless, hgreater⟩
              rcases hap with hap | hap
              · exact hless hap
              · exact hgreater hap
            exact ⟨hfits, j, a, b, by omega, hj, hj', hblocked⟩
          -- The second of the pair is dropped.
          have hdrop : order ≠ .less → order ≠ .greater →
              Stuck P A i (copyWithin ranges (i + 2) (i + 1)) := by
            intro hless hgreater
            rcases Nat.lt_or_ge (i + 2) ranges.length with hmore | hlast
            · exact stuck_copyWithin hfits hmore (by omega)
            · rw [copyWithin_of_length (by omega)]
              refine ⟨hfits, i, r, next, le_rfl, hri, hni, ?_⟩
              intro order' horder'
              obtain rfl := Option.some.inj (Except.ok.inj (horder.symm.trans horder'))
              exact ⟨hless, hgreater⟩
          cases order with
          | less => exact ih (hapart (Or.inl rfl)) hrun
          | greater => exact ih (hapart (Or.inr rfl)) hrun
          | equal => exact ih (hdrop (by decide) (by decide)) hrun
          | superset => exact ih (hdrop (by decide) (by decide)) hrun
          | subset => exact ih (stuck_copyWithin hfits (by omega) (by omega)) hrun
          | lessEqual =>
              rcases run_bind_eq_ok.1 hrun with ⟨stop, hstop, hrun⟩
              rcases run_bind_eq_ok.1 hrun with ⟨size, hsize, hrun⟩
              cases hlies with
              | lessEqual hlt hin hout =>
                  exact ih (stuck_merge hfits hri hni hn0 (by omega) hstop hsize) hrun
          | greaterEqual =>
              rcases run_bind_eq_ok.1 hrun with ⟨stop, hstop, hrun⟩
              rcases run_bind_eq_ok.1 hrun with ⟨size, hsize, hrun⟩
              cases hlies with
              | greaterEqual hlt hin hout =>
                  exact ih (stuck_merge hfits hri hni hn0 hin hstop hsize) hrun

/-! ## Sets of disjoint ranges -/

/-- The range ends before the other one starts. -/
def Before (r r' : Range τ) : Prop :=
  r.stop ≤ r'.base

theorem disjoint_of_before (h : Before r r') : Disjoint r.addrs r'.addrs := by
  rw [Set.disjoint_left]
  intro x hx hx'
  rw [Range.mem_addrs] at hx hx'
  have hle : r.base + r.size ≤ r'.base := h
  omega

/-- Of two disjoint ranges in order, the first ends before the second starts. -/
theorem before_of_disjoint (hle : r.base ≤ r'.base) (hr' : 0 < r'.size)
    (h : Disjoint r.addrs r'.addrs) : Before r r' := by
  by_contra hlt
  have hlt' : ¬ r.base + r.size ≤ r'.base := hlt
  have hmem : r'.base ∈ r.addrs := Range.mem_addrs.2 (by omega)
  have hmem' : r'.base ∈ r'.addrs := Range.mem_addrs.2 (by omega)
  exact Set.disjoint_left.1 h hmem hmem'

/-- Of ranges that stand one behind the other, the loop passes one. -/
theorem trimLoop_step {i : Nat} (P : Profile) (fuel : Nat) (hfits : ∀ r ∈ ranges, r.Fits A)
    (hpos : ∀ r ∈ ranges, 0 < r.size) (hbefore : ranges.Pairwise Before) :
    trimLoop P A (fuel + 1) i ranges =
      if i < ranges.length - 1 then trimLoop P A fuel (i + 1) ranges else .ok ranges := by
  rw [trimLoop]
  split
  · rename_i hi
    have hri : ranges[i]? = some (ranges.get ⟨i, by omega⟩) := List.getElem?_eq_getElem (by omega)
    have hni : ranges[i + 1]? = some (ranges.get ⟨i + 1, by omega⟩) :=
      List.getElem?_eq_getElem (by omega)
    have hless : Before (ranges.get ⟨i, by omega⟩) (ranges.get ⟨i + 1, by omega⟩) :=
      List.pairwise_iff_getElem.1 hbefore i (i + 1) (by omega) (by omega) (by omega)
    -- From here the two neighbours count, and not the list.
    generalize ranges.get ⟨i, by omega⟩ = r at hri hless
    generalize ranges.get ⟨i + 1, by omega⟩ = next at hni hless
    have hr0 := hpos r (List.mem_of_getElem? hri)
    have hn0 := hpos next (List.mem_of_getElem? hni)
    have hcmp := Range.cmp_eq (P := P) (hfits r (List.mem_of_getElem? hri))
      (hfits next (List.mem_of_getElem? hni)) hr0 hn0
    have horder : r.order next (r.stop - 1) (next.stop - 1) = .less := by
      have hstop : r.stop = r.base + r.size := rfl
      have hle : r.stop ≤ next.base := hless
      rw [Range.order, if_neg (by omega), if_pos (by omega)]
    rw [getRange_eq_ok.2 hri, getRange_eq_ok.2 hni, run_ok_bind, run_ok_bind, hcmp, horder]
    rfl
  · rfl

/-- Ranges that stand one behind the other are left as they are. -/
theorem trimLoop_before {i fuel : Nat} (P : Profile) (hfits : ∀ r ∈ ranges, r.Fits A)
    (hpos : ∀ r ∈ ranges, 0 < r.size) (hbefore : ranges.Pairwise Before)
    (hfuel : ranges.length ≤ i + fuel) (hf : 0 < fuel) : trimLoop P A fuel i ranges = .ok ranges := by
  induction fuel generalizing i with
  | zero => omega
  | succ fuel ih =>
      rw [trimLoop_step P fuel hfits hpos hbefore]
      split
      · exact ih (by omega) (by omega)
      · rfl

theorem trimLoop_eq_ok_of_before {i fuel : Nat} {out : List (Range τ)} (hfits : ∀ r ∈ ranges, r.Fits A)
    (hpos : ∀ r ∈ ranges, 0 < r.size) (hbefore : ranges.Pairwise Before)
    (h : trimLoop P A fuel i ranges = .ok out) : out = ranges := by
  induction fuel generalizing i with
  | zero => cases h
  | succ fuel ih =>
      rw [trimLoop_step P fuel hfits hpos hbefore] at h
      split at h
      · exact ih h
      · exact (Except.ok.inj h).symm

/-- Sorted ranges that are not disjoint have neighbours that overlap. -/
theorem stuck_of_overlap {s : RangeSet N τ} (P : Profile) (hs : Ordered A s)
    (h : ¬ s.ranges.Pairwise Before) : Stuck P A 0 s.ranges ∧ 2 ≤ s.ranges.length := by
  rw [List.pairwise_iff_getElem] at h
  push Not at h
  rcases h with ⟨i, j, hi, hj, hij, hnot⟩
  refine ⟨⟨hs.fits, i, s.ranges[i], s.ranges[i + 1], Nat.zero_le _, List.getElem?_eq_getElem hi,
    List.getElem?_eq_getElem (by omega), ?_⟩, by omega⟩
  have hsorted := List.pairwise_iff_getElem.1 hs.sorted
  have hnext : s.ranges[i].base ≤ s.ranges[i + 1].base := hsorted i (i + 1) hi (by omega) (by omega)
  -- If `i` overlaps some later range, it overlaps its neighbour: the bases are sorted.
  have hle : s.ranges[i + 1].base ≤ s.ranges[j].base := by
    rcases Nat.lt_or_eq_of_le (Nat.succ_le_of_lt hij) with hlt | heq
    · exact hsorted (i + 1) j (by omega) hj hlt
    · subst heq
      exact le_rfl
  have hover : s.ranges[j].base < s.ranges[i].stop := Nat.lt_of_not_le hnot
  have hpos := hs.pos s.ranges[i + 1] (List.getElem_mem _)
  have hstop : s.ranges[i + 1].stop = s.ranges[i + 1].base + s.ranges[i + 1].size := rfl
  exact blocked_of_overlap (hs.fits _ (List.getElem_mem _)) (hs.fits _ (List.getElem_mem _)) (by omega)
    (by omega)

/-! ## `trim_ranges` -/

/-- The second set is sorted, its ranges are not empty and disjoint, and it covers what the first does. -/
structure Normalises (s s' : RangeSet N τ) : Prop where
  sorted : s'.ranges.Pairwise fun r r' => r.base ≤ r'.base
  pos : ∀ r ∈ s'.ranges, 0 < r.size
  disjoint : s'.ranges.Pairwise fun r r' => Disjoint r.addrs r'.addrs
  covers : ∀ x, (∃ r ∈ s'.ranges, x ∈ r.addrs) ↔ ∃ r ∈ s.ranges, x ∈ r.addrs

def insertAll (A : Arch) (rs : List (Range τ)) (s : RangeSet N τ) : RangeSet N τ :=
  rs.foldl (fun s r => (insertRange A r s).2) s

theorem Ordered.insertAll {rs : List (Range τ)} {s : RangeSet N τ} (hs : Ordered A s)
    (hrs : ∀ r ∈ rs, r.size < A.wordLimit) : Ordered A (insertAll A rs s) := by
  induction rs generalizing s with
  | nil => exact hs
  | cons r rs ih =>
      exact ih (hs.insertRange (hrs r List.mem_cons_self)) fun x hx => hrs x (List.mem_cons_of_mem _ hx)

/-- Of disjoint ranges, an ordered set is returned as it is. -/
theorem trimRanges_of_before {s : RangeSet N τ} (P : Profile) (hs : Ordered A s)
    (h : s.ranges.Pairwise Before) : trimRanges P A s.ranges.length s = .ok s := by
  have hloop : trimOverlappingRanges P A s.ranges.length s.ranges = .ok s.ranges := by
    rw [trimOverlappingRanges]
    split
    · rfl
    · exact trimLoop_before P hs.fits hs.pos h (by omega) (by omega)
  have htrim : trimEmptyRanges s.ranges = s.ranges :=
    List.filter_eq_self.2 fun r hr => decide_eq_true (hs.pos r hr)
  rw [trimRanges, hloop, run_ok_bind, htrim]
  rfl

/-- Whenever `trim_ranges` returns, its ranges were disjoint and are the same. -/
theorem trimRanges_eq_ok {fuel : Nat} {s s' : RangeSet N τ} (hs : Ordered A s)
    (h : trimRanges P A fuel s = .ok s') : s' = s ∧ s.ranges.Pairwise Before := by
  rcases run_bind_eq_ok.1 h with ⟨out, hout, hret⟩
  have hbefore : s.ranges.Pairwise Before := by
    by_contra hover
    rcases stuck_of_overlap P hs hover with ⟨hstuck, hlen⟩
    rw [trimOverlappingRanges, if_neg (by omega)] at hout
    exact trimLoop_stuck fuel hstuck hout
  have hsame : out = s.ranges := by
    rw [trimOverlappingRanges] at hout
    split at hout
    · exact (Except.ok.inj hout).symm
    · exact trimLoop_eq_ok_of_before hs.fits hs.pos hbefore hout
  have htrim : trimEmptyRanges s.ranges = s.ranges :=
    List.filter_eq_self.2 fun r hr => decide_eq_true (hs.pos r hr)
  obtain rfl := Except.ok.inj hret
  rw [hsame, htrim]
  exact ⟨rfl, hbefore⟩

/-- For every set that insertions build, `trim_ranges` returns and normalises the set exactly if no two of
its ranges have an address in common. -/
theorem trimRanges_normalises_iff (P : Profile) (A : Arch) (rs : List (Range τ))
    (hrs : ∀ r ∈ rs, r.base < A.wordLimit ∧ r.size < A.wordLimit) :
    (∃ fuel s', trimRanges P A fuel (insertAll A rs (new : RangeSet N τ)) = .ok s' ∧
        Normalises (insertAll A rs new) s') ↔
      (insertAll A rs (new : RangeSet N τ)).ranges.Pairwise fun r r' => Disjoint r.addrs r'.addrs := by
  have hs : Ordered A (insertAll A rs (new : RangeSet N τ)) :=
    new_ordered.insertAll fun r hr => (hrs r hr).2
  generalize insertAll A rs (new : RangeSet N τ) = s at hs
  constructor
  · rintro ⟨fuel, s', hrun, -⟩
    exact (trimRanges_eq_ok hs hrun).2.imp disjoint_of_before
  · intro hdisj
    have hbefore : s.ranges.Pairwise Before := by
      refine List.Pairwise.imp_of_mem ?_ (hs.sorted.and hdisj)
      intro r r' _ hr' ⟨hle, hd⟩
      exact before_of_disjoint hle (hs.pos r' hr') hd
    exact ⟨_, s, trimRanges_of_before P hs hbefore, hs.sorted, hs.pos, hdisj, fun _ => Iff.rfl⟩

/-- Two ranges that meet are kept apart. -/
theorem trimRanges_normalises_two :
    ∃ fuel s', trimRanges .dev .arm fuel
        (insertAll .arm [⟨(), 16, 16⟩, ⟨(), 0, 16⟩] (new : RangeSet 64 Unit)) = .ok s' ∧
      Normalises (insertAll .arm [⟨(), 16, 16⟩, ⟨(), 0, 16⟩] new) s' := by
  refine (trimRanges_normalises_iff .dev .arm [⟨(), 16, 16⟩, ⟨(), 0, 16⟩] (by decide)).2 ?_
  have hranges : (insertAll .arm [⟨(), 16, 16⟩, ⟨(), 0, 16⟩] (new : RangeSet 64 Unit)).ranges =
      [⟨(), 0, 16⟩, ⟨(), 16, 16⟩] := by decide
  rw [hranges]
  refine List.pairwise_pair.2 (disjoint_of_before ?_)
  show 0 + 16 ≤ 16
  decide

/-- Two equal ranges: the loop finds them equal, moves nothing and looks at them again. -/
theorem trimRanges_equal_diverges :
    ¬ ∃ fuel s', trimRanges .dev .arm fuel
      (insertAll .arm [⟨(), 0, 16⟩, ⟨(), 0, 16⟩] (new : RangeSet 64 Unit)) = .ok s' := by
  rintro ⟨fuel, s', hrun⟩
  have hstuck : Stuck .dev .arm 0 [(⟨(), 0, 16⟩ : Range Unit), ⟨(), 0, 16⟩] :=
    ⟨by decide, 0, ⟨(), 0, 16⟩, ⟨(), 0, 16⟩, le_rfl, rfl, rfl, blocked_self _⟩
  rcases run_bind_eq_ok.1 hrun with ⟨out, hout, -⟩
  exact trimLoop_stuck fuel hstuck hout

end RangeSet
end Propeller
