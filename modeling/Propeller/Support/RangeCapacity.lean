import Mathlib.Combinatorics.Pigeonhole
import Propeller.Support.RangeArray

/-!
# Support.RangeCapacity — when a full set cannot be split

`exclude_range` panics when it has to insert a range into a full set.  It inserts the upper part of a range that
contains the excluded one before it looks whether one of the two parts is empty, so that it needs a free
slot where the difference does not.

* `FitsIn s e n` — the ranges of the set without the addresses of `e` are `n` ranges at most;
* `OneEnd e r` — `r` contains `e` and has exactly one end in common with it.
-/

namespace Propeller
namespace RangeSet

variable {N n : Nat} {τ : Type} {P : Profile} {A : Arch} {s : RangeSet N τ} {e r r' : Range τ}
  {pre post rest done : List (Range τ)}

/-- What `e` leaves of the set is covered by at most `n` ranges, each of them a part of a range of the set. -/
def FitsIn (s : RangeSet N τ) (e : Range τ) (n : Nat) : Prop :=
  ∃ rs : List (Range τ), rs.length ≤ n ∧
    (∀ p ∈ rs, 0 < p.size ∧ ∃ r ∈ s.ranges, p.addrs ⊆ r.addrs) ∧
    ∀ x, (∃ p ∈ rs, x ∈ p.addrs) ↔ x ∈ s.addrs ∧ x ∉ e.addrs

/-- `r` contains the range `e`, which starts where `r` starts or ends where `r` ends, but not both. -/
def OneEnd (e r : Range τ) : Prop :=
  0 < e.size ∧ (r.base = e.base ∧ e.stop < r.stop ∨ r.base < e.base ∧ e.stop = r.stop)

/-- `r` contains `e` and more. -/
def Around (e r : Range τ) : Prop :=
  r.base ≤ e.base ∧ e.stop ≤ r.stop ∧ ¬ (r.base = e.base ∧ e.stop = r.stop)

/-! ## What the difference needs -/

/-- A part of a range ends with the range or where the excluded range starts. -/
theorem stop_of_mem_minus {q : Range τ} (h : q ∈ Range.minus e r) : q.stop = r.stop ∨ q.stop = e.base := by
  rcases List.mem_filter.1 h with ⟨hmem, hpos⟩
  have hpos' : 0 < q.size := of_decide_eq_true hpos
  have hq : q.stop = q.base + q.size := rfl
  have hr : r.stop = r.base + r.size := rfl
  rcases List.mem_cons.1 hmem with rfl | hmem
  · simp only at hpos' hq
    omega
  · obtain rfl := List.mem_singleton.1 hmem
    simp only at hpos' hq
    omega

/-- Two ranges of the set with a common address are one. -/
theorem eq_of_common (hs : Apart A s) {x : Nat} (hr : r ∈ s.ranges) (hr' : r' ∈ s.ranges) (hx : x ∈ r.addrs)
    (hx' : x ∈ r'.addrs) : r = r' := by
  by_contra hne
  have hdisj : s.ranges.Pairwise fun r r' => Disjoint r.addrs r'.addrs := hs.before.imp disjoint_of_before
  exact Set.disjoint_left.1 (hdisj.forall hr hr' hne) hx hx'

/-- The parts are as many ranges as the difference needs: no range covers two of them. -/
theorem length_minus_le (hs : Apart A s) (he0 : 0 < e.size) (h : FitsIn s e n) :
    (s.ranges.flatMap (Range.minus e)).length ≤ n := by
  rcases h with ⟨rs, hlen, hparts, hcover⟩
  refine le_trans ?_ hlen
  by_contra hlt
  have hbefore := flatMap_minus_before e hs.before
  generalize hqs : s.ranges.flatMap (Range.minus e) = qs at hlt hbefore
  have hmem : ∀ q ∈ qs, ∃ r ∈ s.ranges, q ∈ Range.minus e r := by
    intro q hq
    rw [← hqs] at hq
    exact List.mem_flatMap.1 hq
  -- Every part starts in one of the ranges.
  have hstart : ∀ i, ∃ j, (hi : i < qs.length) → ∃ hj : j < rs.length, qs[i].base ∈ rs[j].addrs := by
    intro i
    by_cases hi : i < qs.length
    · rcases hmem _ (List.getElem_mem hi) with ⟨r, hr, hq⟩
      have hin : qs[i].base ∈ qs[i].addrs := by
        have hpos := (Range.mem_minus hq).2.1
        rw [Range.mem_addrs]
        omega
      have hdiff := Range.exists_mem_minus.1 ⟨_, hq, hin⟩
      rcases (hcover _).2 ⟨⟨r, hr, hdiff.1⟩, hdiff.2⟩ with ⟨p, hp, hx⟩
      rcases List.getElem_of_mem hp with ⟨j, hj, rfl⟩
      exact ⟨j, fun _ => ⟨hj, hx⟩⟩
    · exact ⟨0, fun hi' => absurd hi' hi⟩
  choose f hf using hstart
  have hcard : (Finset.range rs.length).card < (Finset.range qs.length).card := by
    rw [Finset.card_range, Finset.card_range]
    omega
  have hmaps : ∀ i ∈ Finset.range qs.length, f i ∈ Finset.range rs.length := by
    intro i hi
    exact Finset.mem_range.2 (hf i (Finset.mem_range.1 hi)).1
  -- A range with the starts of two parts has the end of the first one, which is not in the difference.
  have hclash : ∀ i i', i < i' → i' < qs.length → f i ≠ f i' := by
    intro i i' hlt' hi' heq
    have hi : i < qs.length := hlt'.trans hi'
    rcases hf i hi with ⟨hj, hx⟩
    rcases hf i' hi' with ⟨hj', hx'⟩
    simp only [← heq] at hx'
    have hle : qs[i].stop ≤ qs[i'].base := List.pairwise_iff_getElem.1 hbefore i i' hi hi' hlt'
    rcases hmem _ (List.getElem_mem hi) with ⟨r, hr, hq⟩
    have hq' := Range.mem_minus hq
    have hstop : qs[i].stop = qs[i].base + qs[i].size := rfl
    rcases hparts _ (List.getElem_mem hj) with ⟨-, r', hr', hsub⟩
    rw [Range.mem_addrs] at hx hx'
    have hend : qs[i].stop ∈ (rs[f i]).addrs := by
      rw [Range.mem_addrs]
      omega
    have hrr : r = r' := by
      refine eq_of_common hs hr hr' ?_ (hsub (Range.mem_addrs.2 hx))
      rw [Range.mem_addrs]
      have hrs : r.stop = r.base + r.size := rfl
      omega
    have hout := ((hcover _).1 ⟨_, List.getElem_mem hj, hend⟩).2
    have hinr := hsub hend
    rw [← hrr, Range.mem_addrs] at hinr
    have hrs : r.stop = r.base + r.size := rfl
    rcases stop_of_mem_minus hq with heq' | heq'
    · omega
    · refine hout ?_
      rw [heq', Range.mem_addrs]
      omega
  rcases Finset.exists_ne_map_eq_of_card_lt_of_maps_to hcard hmaps with ⟨i, hi, i', hi', hne, heq⟩
  rcases Nat.lt_or_gt_of_ne hne with hlt' | hlt'
  · exact hclash i i' hlt' (Finset.mem_range.1 hi') heq
  · exact hclash i' i hlt' (Finset.mem_range.1 hi) heq.symm

/-- The parts cover the difference. -/
theorem fitsIn_length (s : RangeSet N τ) (e : Range τ) : FitsIn s e (s.ranges.flatMap (Range.minus e)).length := by
  refine ⟨_, le_rfl, ?_, ?_⟩
  · intro p hp
    rcases List.mem_flatMap.1 hp with ⟨r, hr, hp⟩
    have hpart := Range.mem_minus hp
    refine ⟨hpart.2.1, r, hr, ?_⟩
    intro x hx
    exact (Range.exists_mem_minus.1 ⟨p, hp, hx⟩).1
  · intro x
    constructor
    · rintro ⟨p, hp, hx⟩
      rcases List.mem_flatMap.1 hp with ⟨r, hr, hp⟩
      rcases Range.exists_mem_minus.1 ⟨p, hp, hx⟩ with ⟨hxr, hxe⟩
      exact ⟨⟨r, hr, hxr⟩, hxe⟩
    · rintro ⟨⟨r, hr, hxr⟩, hxe⟩
      rcases Range.exists_mem_minus.2 ⟨hxr, hxe⟩ with ⟨p, hp, hx⟩
      exact ⟨p, List.mem_flatMap.2 ⟨r, hr, hp⟩, hx⟩

theorem fitsIn_iff (hs : Apart A s) (he0 : 0 < e.size) :
    FitsIn s e n ↔ (s.ranges.flatMap (Range.minus e)).length ≤ n := by
  constructor
  · exact length_minus_le hs he0
  · intro hle
    rcases fitsIn_length s e with ⟨rs, hlen, hrs⟩
    exact ⟨rs, hlen.trans hle, hrs⟩

/-- Ranges beside one that contains `e` are apart from `e`. -/
theorem apart_of_around (hs : (pre ++ r :: post).Pairwise Before) (hlo : r.base ≤ e.base) (hhi : e.stop ≤ r.stop)
    {x : Range τ} (hx : x ∈ pre ∨ x ∈ post) : x.stop ≤ e.base ∨ e.stop ≤ x.base := by
  rw [List.pairwise_append, List.pairwise_cons] at hs
  rcases hs with ⟨-, ⟨hpost, -⟩, hpre⟩
  rcases hx with hx | hx
  · have hle : x.stop ≤ r.base := hpre x hx r List.mem_cons_self
    exact Or.inl (hle.trans hlo)
  · have hle : r.stop ≤ x.base := hpost x hx
    exact Or.inr (hhi.trans hle)

theorem length_minus_of_apart {rs : List (Range τ)} (hpos : ∀ r ∈ rs, 0 < r.size)
    (hapart : ∀ r ∈ rs, r.stop ≤ e.base ∨ e.stop ≤ r.base) : (rs.flatMap (Range.minus e)).length = rs.length := by
  induction rs with
  | nil => rfl
  | cons r rs ih =>
      rw [List.flatMap_cons, minus_of_apart (hpos r List.mem_cons_self) (hapart r List.mem_cons_self),
        List.length_append, ih (fun x hx => hpos x (List.mem_cons_of_mem r hx))
          (fun x hx => hapart x (List.mem_cons_of_mem r hx)), List.length_singleton, List.length_cons,
        Nat.add_comm]

/-- Where a range contains `e`, the number of its parts decides. -/
theorem length_minus_around (hs : Apart A s) (hranges : s.ranges = pre ++ r :: post) (hlo : r.base ≤ e.base)
    (hhi : e.stop ≤ r.stop) :
    (s.ranges.flatMap (Range.minus e)).length + 1 = s.ranges.length + (Range.minus e r).length := by
  have hbefore := hs.before
  have hpos := hs.pos
  rw [hranges] at hbefore hpos ⊢
  have hpre : (pre.flatMap (Range.minus e)).length = pre.length :=
    length_minus_of_apart (fun x hx => hpos x (List.mem_append_left _ hx))
      fun x hx => apart_of_around hbefore hlo hhi (Or.inl hx)
  have hpost : (post.flatMap (Range.minus e)).length = post.length :=
    length_minus_of_apart (fun x hx => hpos x (List.mem_append_right _ (List.mem_cons_of_mem r hx)))
      fun x hx => apart_of_around hbefore hlo hhi (Or.inr hx)
  rw [List.flatMap_append, List.flatMap_cons, List.length_append, List.length_append, hpre, hpost,
    List.length_append, List.length_cons]
  omega

theorem length_minus_inside (he0 : 0 < e.size) (hlo : r.base < e.base) (hhi : e.stop < r.stop) :
    (Range.minus e r).length = 2 := by
  have he : e.stop = e.base + e.size := rfl
  have hlow : 0 < min r.stop e.base - r.base := by omega
  have hhigh : 0 < r.stop - max r.base e.stop := by omega
  rw [Range.minus, Range.parts, List.filter_cons_of_pos (by rw [Range.nonempty]; exact decide_eq_true hlow),
    List.filter_cons_of_pos (by rw [Range.nonempty]; exact decide_eq_true hhigh)]
  rfl

theorem length_minus_le_one (h : ¬ (r.base < e.base ∧ e.stop < r.stop)) : (Range.minus e r).length ≤ 1 := by
  have hempty : min r.stop e.base - r.base = 0 ∨ r.stop - max r.base e.stop = 0 := by omega
  rw [Range.minus, Range.parts]
  rcases hempty with hzero | hzero
  · rw [List.filter_cons_of_neg (by simp [Range.nonempty, hzero])]
    exact List.length_filter_le _ _
  · rw [List.filter_cons, List.filter_cons_of_neg (by simp [Range.nonempty, hzero])]
    split
    · exact le_rfl
    · exact Nat.zero_le _

theorem length_flatMap_minus_le {rs : List (Range τ)} (h : ∀ r ∈ rs, ¬ (r.base < e.base ∧ e.stop < r.stop)) :
    (rs.flatMap (Range.minus e)).length ≤ rs.length := by
  induction rs with
  | nil => exact le_rfl
  | cons r rs ih =>
      have hone := length_minus_le_one (h r List.mem_cons_self)
      have hrest := ih fun x hx => h x (List.mem_cons_of_mem r hx)
      rw [List.flatMap_cons, List.length_append, List.length_cons]
      omega

/-! ## What the loop needs -/

/-- A range with the bounds of the excluded one goes. -/
theorem exclude_of_equal (hr : r.Fits A) (he : e.Fits A) (he0 : 0 < e.size) (hbase : r.base = e.base)
    (hstop : e.stop = r.stop) : r.exclude P A e = .ok (some (none, none)) := by
  have hr' : r.stop = r.base + r.size := rfl
  have he' : e.stop = e.base + e.size := rfl
  have horder : r.order e (r.stop - 1) (e.stop - 1) = .equal := by
    rw [Range.order, if_pos ⟨hbase, by omega⟩]
  rw [Range.exclude, Range.cmp_eq hr he (by omega) he0, run_ok_bind, horder]
  rfl

/-- Two ranges are returned for a range around the excluded one only. -/
theorem around_iff_two_pieces (hr : r.Fits A) (he : e.Fits A) (hr0 : 0 < r.size) (he0 : 0 < e.size)
    {parts : Option (Range τ) × Option (Range τ)} (hrun : r.exclude P A e = .ok (some parts)) :
    (Range.pieces parts).length = 2 ↔ Around e r := by
  have hr' : r.stop = r.base + r.size := rfl
  have he' : e.stop = e.base + e.size := rfl
  -- The source compares first, and nothing is left of an equal range.
  by_cases hequal : r.base = e.base ∧ e.stop = r.stop
  · rw [exclude_of_equal hr he he0 hequal.1 hequal.2] at hrun
    obtain rfl := Option.some.inj (Except.ok.inj hrun)
    simp [Range.pieces, Around, hequal]
  · rcases Range.exclude_eq_ok hr he hr0 he0 hrun with ⟨parts', heq, hsplit⟩
    obtain rfl := Option.some.inj heq
    cases hsplit with
    | inside b hlo hhi _ _ => exact iff_of_true rfl ⟨hlo, hhi, hequal⟩
    | apart _ =>
        refine iff_of_false (by simp [Range.pieces]) ?_
        rintro ⟨hlo, hhi, -⟩
        omega
    | covered _ _ =>
        refine iff_of_false (by simp [Range.pieces]) ?_
        rintro ⟨hlo, hhi, -⟩
        omega
    | head _ _ _ =>
        refine iff_of_false (by simp [Range.pieces]) ?_
        rintro ⟨hlo, hhi, -⟩
        omega
    | tail _ _ _ =>
        refine iff_of_false (by simp [Range.pieces]) ?_
        rintro ⟨hlo, hhi, -⟩
        omega

/-- Without a range around the excluded one nothing is inserted. -/
theorem excludeLoop_of_not_around (done : List (Range τ)) (he : e.Fits A) (he0 : 0 < e.size)
    (hend : e.stop < A.wordLimit) (hfits : ∀ r ∈ rest, r.Fits A) (hpos : ∀ r ∈ rest, 0 < r.size)
    (hnot : ∀ r ∈ rest, ¬ Around e r) : ∃ out, excludeLoop P A N e done rest = .ok out := by
  induction rest generalizing done with
  | nil => exact ⟨_, rfl⟩
  | cons r rest ih =>
      have hr := hfits r List.mem_cons_self
      have hr0 := hpos r List.mem_cons_self
      rcases Range.exclude_returns P hr he hr0 he0 hend with ⟨parts, hparts, -⟩
      have hone := (around_iff_two_pieces hr he hr0 he0 hparts).not.2 (hnot r List.mem_cons_self)
      rw [excludeLoop_cons done hparts, if_neg fun hfull => hone hfull.1]
      exact ih _ (fun x hx => hfits x (List.mem_cons_of_mem r hx)) (fun x hx => hpos x (List.mem_cons_of_mem r hx))
        fun x hx => hnot x (List.mem_cons_of_mem r hx)

/-- With a range around the excluded one a slot must be free. -/
theorem excludeLoop_around (hs : Apart A s) (hranges : s.ranges = pre ++ r :: post) (hr : Around e r)
    (he : e.Fits A) (he0 : 0 < e.size) (hend : e.stop < A.wordLimit) :
    if N ≤ s.ranges.length then excludeLoop P A N e [] s.ranges = .error .rangeSetFull
    else ∃ out, excludeLoop P A N e [] s.ranges = .ok out := by
  have hbefore := hs.before
  have hpos := hs.pos
  have hfits := hs.fits
  rw [hranges] at hbefore hpos hfits ⊢
  have hmem : r ∈ pre ++ r :: post := List.mem_append_right _ List.mem_cons_self
  have hapart : ∀ x, x ∈ pre ∨ x ∈ post → x.stop ≤ e.base ∨ e.stop ≤ x.base := fun x hx =>
    apart_of_around hbefore hr.1 hr.2.1 hx
  rcases Range.exclude_returns P (hfits r hmem) he (hpos r hmem) he0 hend with ⟨parts, hparts, -⟩
  have htwo := (around_iff_two_pieces (hfits r hmem) he (hpos r hmem) he0 hparts).2 hr
  -- The ranges before `r` are passed as they are, so the loop comes to `r` with all of them stored.
  have hpass : excludeLoop P A N e [] (pre ++ r :: post) = excludeLoop P A N e pre (r :: post) := by
    rw [excludeLoop_append he he0 hend [] (fun x hx => hfits x (List.mem_append_left _ hx))
      (fun x hx => hpos x (List.mem_append_left _ hx)) (fun x hx => hapart x (Or.inl hx)), List.nil_append]
  have hlen : (pre ++ r :: post).length = pre.length + (post.length + 1) := by
    rw [List.length_append, List.length_cons]
  rw [hpass, excludeLoop_cons pre hparts, hlen]
  split
  next hfull => rw [if_pos ⟨htwo, hfull⟩]
  next hfree =>
    rw [if_neg fun h => hfree h.2]
    -- Behind `r` nothing is split any more: the ranges there are apart from `e`.
    refine excludeLoop_of_not_around _ he he0 hend
      (fun x hx => hfits x (List.mem_append_right _ (List.mem_cons_of_mem r hx)))
      (fun x hx => hpos x (List.mem_append_right _ (List.mem_cons_of_mem r hx))) ?_
    rintro x hx ⟨hlo, hhi, -⟩
    have he' : e.stop = e.base + e.size := rfl
    rcases hapart x (Or.inr hx) with hle | hle
    · omega
    · omega

/-- `exclude_range` fails with its loop. -/
theorem excludeRange_eq_error_iff {p : Panic} :
    excludeRange P A e s = .error p ↔ excludeLoop P A N e [] s.ranges = .error p := by
  rw [excludeRange]
  cases hloop : excludeLoop P A N e [] s.ranges with
  | error q => simp
  | ok out =>
      rcases out with ⟨finished, ranges⟩
      cases finished <;> simp [pure, Except.pure]

/-- `exclude_range` panics exactly when the set is full and one of its ranges is around the excluded one. -/
theorem excludeRange_panics_iff (hs : Apart A s) (he0 : 0 < e.size) (hend : e.stop < A.wordLimit) {p : Panic} :
    excludeRange P A e s = .error p ↔
      p = .rangeSetFull ∧ N ≤ s.ranges.length ∧ ∃ r ∈ s.ranges, Around e r := by
  have he : e.Fits A := ⟨(Nat.le_add_right e.base e.size).trans_lt hend, hend.le⟩
  rw [excludeRange_eq_error_iff]
  -- Only the split of a range around `e` needs a slot.
  by_cases hround : ∃ r ∈ s.ranges, Around e r
  · rcases hround with ⟨r, hmem, hr⟩
    rcases List.append_of_mem hmem with ⟨pre, post, hranges⟩
    have hloop := excludeLoop_around (P := P) hs hranges hr he he0 hend
    split at hloop
    next hfull =>
      rw [hloop]
      constructor
      · intro h
        exact ⟨(Except.error.inj h).symm, hfull, r, hmem, hr⟩
      · rintro ⟨rfl, -, -⟩
        rfl
    next hfree =>
      rcases hloop with ⟨out, hout⟩
      rw [hout]
      refine iff_of_false (fun h => by cases h) ?_
      rintro ⟨-, hfull, -⟩
      exact hfree hfull
  · have hnot : ∀ r ∈ s.ranges, ¬ Around e r := fun r hr ha => hround ⟨r, hr, ha⟩
    rcases excludeLoop_of_not_around (P := P) (N := N) [] he he0 hend hs.fits hs.pos hnot with ⟨out, hout⟩
    rw [hout]
    refine iff_of_false (fun h => by cases h) ?_
    rintro ⟨-, -, hr⟩
    exact hround hr

/-- `exclude_range` panics exactly where the rest does not fit, if and only if the set is not full or none of its
ranges has just one end in common with the excluded one. -/
theorem panics_only_when_needed_iff (hs : Apart A s) (hend : e.stop < A.wordLimit) :
    (excludeRange P A e s = .error .rangeSetFull ↔ ¬ FitsIn s e N) ↔
      s.count < N ∨ ∀ r ∈ s.ranges, ¬ OneEnd e r := by
  have hcount : s.ranges.length ≤ N := hs.count
  have he' : e.stop = e.base + e.size := rfl
  rcases Nat.eq_zero_or_pos e.size with hempty | he0
  · have hfits : FitsIn s e N := by
      refine ⟨s.ranges, hcount, fun p hp => ⟨hs.pos p hp, p, hp, subset_rfl⟩, fun x => ?_⟩
      have hx : x ∉ e.addrs := by
        rw [Range.mem_addrs]
        omega
      simp only [hx, not_false_iff, and_true]
      rfl
    rw [excludeRange_of_empty hempty]
    refine iff_of_true (iff_of_false (fun h => by cases h) (fun h => h hfits)) (Or.inr ?_)
    rintro r - ⟨hpos, -⟩
    omega
  rw [excludeRange_panics_iff hs he0 hend, fitsIn_iff hs he0, Nat.not_le]
  by_cases hround : ∃ r ∈ s.ranges, Around e r
  · rcases hround with ⟨r, hmem, hr⟩
    rcases List.append_of_mem hmem with ⟨pre, post, hranges⟩
    have hlen := length_minus_around hs hranges hr.1 hr.2.1
    -- Only one range contains an address of `e`.
    have honly : ∀ r' ∈ s.ranges, OneEnd e r' → r' = r := by
      rintro r' hr' ⟨-, hends⟩
      refine eq_of_common hs hr' hmem (x := e.base) ?_ ?_
      · rw [Range.mem_addrs]
        have hstop : r'.stop = r'.base + r'.size := rfl
        omega
      · rw [Range.mem_addrs]
        have hstop : r.stop = r.base + r.size := rfl
        have hle := hr.2.1
        have hlo := hr.1
        omega
    by_cases hone : OneEnd e r
    · have hle : (Range.minus e r).length ≤ 1 := by
        refine length_minus_le_one ?_
        have hends := hone.2
        omega
      constructor
      · intro h
        by_contra hno
        rw [not_or] at hno
        have hfull : N ≤ s.ranges.length := Nat.le_of_not_lt hno.1
        have hmore := h.1 ⟨rfl, hfull, r, hmem, hr⟩
        omega
      · rintro (hfree | hno)
        · have hfree' : s.ranges.length < N := hfree
          refine iff_of_false (fun h => ?_) (by omega)
          have hfull := h.2.1
          omega
        · exact absurd hone (hno r hmem)
    · have hinside : r.base < e.base ∧ e.stop < r.stop := by
        rcases hr with ⟨hlo, hhi, hne⟩
        by_contra hnot
        exact hone ⟨he0, by omega⟩
      have htwo := length_minus_inside he0 hinside.1 hinside.2
      refine iff_of_true ?_ (Or.inr fun r' hr' h' => hone (honly r' hr' h' ▸ h'))
      constructor
      · intro h
        have hfull := h.2.1
        omega
      · intro h
        exact ⟨rfl, by omega, r, hmem, hr⟩
  · have hnone : ∀ r ∈ s.ranges, ¬ (r.base < e.base ∧ e.stop < r.stop) := by
      intro r hr h
      exact hround ⟨r, hr, h.1.le, h.2.le, by omega⟩
    have hle := length_flatMap_minus_le hnone
    refine iff_of_true (iff_of_false (fun h => hround h.2.2) (by omega)) (Or.inr ?_)
    rintro r hr ⟨-, hends⟩
    exact hround ⟨r, hr, by omega, by omega, by omega⟩

end RangeSet

namespace RangeArray

variable {N : Nat} {τ : Type} {P : Profile} {A : Arch} {a : RangeArray τ} {e : Range τ} {live : List (Range τ)}

/-- A panic on the list of the elements in use is a panic on the array. -/
theorem excludeRange_refines_error {s : RangeSet N τ} {p : Panic} (h : Holds N a s.ranges)
    (hs : RangeSet.excludeRange P A e s = .error p) : a.excludeRange P A N e = .error p := by
  rw [RangeSet.excludeRange_eq_error_iff] at hs
  rcases excludeLoop_refines P A e [] h with ⟨t, hreach, hend⟩
  rw [hs] at hend
  have hiter : Loop.iterate .diverges (excludeStep P A N e) (a.count + 1) (0, a) = .error p :=
    (Loop.iterate_eq_error_iff (excludeStep_decreases P A N e) (Nat.lt_succ_of_le (Nat.sub_le _ _))).2
      ⟨t, hreach, hend⟩
  rw [excludeRange, hiter]
  rfl

theorem excludeRange_eq_error_iff {s : RangeSet N τ} {p : Panic} (h : Holds N a s.ranges) :
    a.excludeRange P A N e = .error p ↔ RangeSet.excludeRange P A e s = .error p := by
  constructor
  · intro herr
    cases hs : RangeSet.excludeRange P A e s with
    | error q =>
        rw [excludeRange_refines_error h hs] at herr
        exact congrArg _ (Except.error.inj herr)
    | ok s' =>
        rcases excludeRange_refines h hs with ⟨a', ha', -⟩
        rw [ha'] at herr
        cases herr
  · exact excludeRange_refines_error h

/-- `exclude_range` panics for one reason only, and exactly when the difference needs more ranges than the array
has slots, unless the array is full and one of its ranges has one end in common with the excluded range
inside it. -/
theorem excludeRange_full_iff (P : Profile) (A : Arch) (hlive : Holds N a live)
    (hapart : RangeSet.Apart A (⟨live⟩ : RangeSet N τ)) (hend : e.stop < A.wordLimit) :
    (∀ p, a.excludeRange P A N e = .error p → p = .rangeSetFull) ∧
      ((a.excludeRange P A N e = .error .rangeSetFull ↔ ¬ RangeSet.FitsIn (⟨live⟩ : RangeSet N τ) e N) ↔
        a.count < N ∨ ∀ r ∈ live, ¬ RangeSet.OneEnd e r) := by
  have hlist : ∀ p, a.excludeRange P A N e = .error p ↔
      RangeSet.excludeRange P A e (⟨live⟩ : RangeSet N τ) = .error p := fun p => excludeRange_eq_error_iff hlive
  constructor
  · intro p hp
    rw [hlist] at hp
    rcases Nat.eq_zero_or_pos e.size with hempty | he0
    · rw [RangeSet.excludeRange_of_empty hempty] at hp
      cases hp
    · exact ((RangeSet.excludeRange_panics_iff hapart he0 hend).1 hp).1
  · rw [hlist, hlive.count]
    exact RangeSet.panics_only_when_needed_iff hapart hend

/-- Two slots with a range each. -/
def exampleRanges : List (Range Nat) :=
  [⟨0, 0x1000, 0x1000⟩, ⟨0, 0x3000, 0x1000⟩]

theorem exampleRanges_apart : RangeSet.Apart .arm (⟨exampleRanges⟩ : RangeSet 2 Nat) :=
  ⟨⟨⟨by decide, by decide, by decide⟩, by decide⟩, List.pairwise_pair.2 (show _ ≤ _ by decide)⟩

/-- The middle of the first range cannot be taken out of the full set, and must not be. -/
theorem excludeRange_full_middle :
    excludeRange .dev .arm 2 ⟨0, 0x1400, 0x400⟩ ⟨exampleRanges, 2⟩ = .error .rangeSetFull ∧
      (excludeRange .dev .arm 2 ⟨0, 0x1400, 0x400⟩ ⟨exampleRanges, 2⟩ = .error .rangeSetFull ↔
        ¬ RangeSet.FitsIn (⟨exampleRanges⟩ : RangeSet 2 Nat) ⟨0, 0x1400, 0x400⟩ 2) := by
  have hholds : Holds 2 ⟨exampleRanges, 2⟩ exampleRanges := ⟨rfl, rfl, [], rfl⟩
  have hend : (⟨0, 0x1400, 0x400⟩ : Range Nat).stop < Arch.arm.wordLimit := by decide
  refine ⟨by decide, (excludeRange_full_iff .dev .arm hholds exampleRanges_apart hend).2.2 (Or.inr ?_)⟩
  rintro r hr ⟨-, hends⟩
  have hranges : r = ⟨0, 0x1000, 0x1000⟩ ∨ r = ⟨0, 0x3000, 0x1000⟩ := by simpa [exampleRanges] using hr
  rcases hranges with rfl | rfl
  · simp [Range.stop] at hends
  · simp [Range.stop] at hends

/-- The lower half of the first range cannot be taken out of the full set, although two ranges are left. -/
theorem excludeRange_full_needless :
    RangeSet.Apart .arm (⟨exampleRanges⟩ : RangeSet 2 Nat) ∧ Holds 2 ⟨exampleRanges, 2⟩ exampleRanges ∧
      excludeRange .dev .arm 2 ⟨0, 0x1000, 0x800⟩ ⟨exampleRanges, 2⟩ = .error .rangeSetFull ∧
      RangeSet.FitsIn (⟨exampleRanges⟩ : RangeSet 2 Nat) ⟨0, 0x1000, 0x800⟩ 2 :=
  ⟨exampleRanges_apart, ⟨rfl, rfl, [], rfl⟩, by decide,
    (RangeSet.fitsIn_iff exampleRanges_apart (by decide)).2 (by decide)⟩

end RangeArray
end Propeller
