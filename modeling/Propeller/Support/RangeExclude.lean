import Mathlib.Order.BooleanAlgebra.Set
import Propeller.Support.RangeTrim

/-!
# Support.RangeExclude — sets of disjoint ranges

A set that insertions have built and `trim_ranges` has returned consists of ranges of which each ends before
the next one starts.  Exclusions keep it so, and take away the excluded addresses and no others.
-/

namespace Propeller
namespace RangeSet

variable {N : Nat} {τ : Type} {A : Arch} {P : Profile} {s s' : RangeSet N τ} {r r' e : Range τ}
  {rs es : List (Range τ)}

/-- An ordered set of ranges of which each ends before the next one starts. -/
structure Apart (A : Arch) (s : RangeSet N τ) : Prop extends Ordered A s where
  before : s.ranges.Pairwise Before

/-- The addresses of a set. -/
def addrs (s : RangeSet N τ) : Set Nat :=
  {x | ∃ r ∈ s.ranges, x ∈ r.addrs}

/-- `exclude_range` for some ranges, one after the other. -/
def excludeAll (P : Profile) (A : Arch) (es : List (Range τ)) (s : RangeSet N τ) : Run (RangeSet N τ) :=
  es.foldlM (fun s e => excludeRange P A e s) s

/-! ## Exclusions -/

theorem minus_before (e r : Range τ) : (Range.minus e r).Pairwise Before := by
  have hr : r.stop = r.base + r.size := rfl
  have he : e.stop = e.base + e.size := rfl
  refine List.Pairwise.filter _ (List.pairwise_pair.2 ?_)
  show r.base + (min r.stop e.base - r.base) ≤ max r.base e.stop
  omega

theorem flatMap_minus_before (e : Range τ) (h : rs.Pairwise Before) :
    (rs.flatMap (Range.minus e)).Pairwise Before := by
  rw [List.pairwise_flatMap]
  refine ⟨fun r _ => minus_before e r, h.imp ?_⟩
  intro r r' hle p hp p' hp'
  rcases Range.mem_minus hp with ⟨-, -, -, hstop, -⟩
  rcases Range.mem_minus hp' with ⟨-, -, hbase, -, -⟩
  exact (hstop.trans hle).trans hbase

theorem excludeRange_apart (hs : Apart A s) (he : e.Fits A) (h : excludeRange P A e s = .ok s') :
    Apart A s' ∧ s'.addrs = s.addrs \ e.addrs := by
  -- The source returns at once for an empty range.
  rcases Nat.eq_zero_or_pos e.size with he0 | he0
  · rw [excludeRange_of_empty he0] at h
    obtain rfl := Except.ok.inj h
    have hempty : e.addrs = ∅ := by
      refine Set.eq_empty_iff_forall_notMem.2 fun x hx => ?_
      rw [Range.mem_addrs] at hx
      omega
    rw [hempty, Set.sdiff_empty]
    exact ⟨hs, rfl⟩
  · rcases excludeRange_eq_ok hs.toOrdered he he0 h with ⟨hranges, hcount⟩
    have hbefore : s'.ranges.Pairwise Before := by
      rw [hranges]
      exact flatMap_minus_before e hs.before
    refine ⟨⟨⟨⟨?_, ?_, hcount⟩, excludeRange_fits hs.toOrdered he h⟩, hbefore⟩, ?_⟩
    · refine hbefore.imp fun {r r'} hle => ?_
      exact (Nat.le_add_right r.base r.size).trans hle
    · intro p hp
      rw [hranges] at hp
      exact (flatMap_minus_fits hs.toOrdered hp).1
    · ext x
      constructor
      · rintro ⟨p, hp, hx⟩
        rw [hranges] at hp
        rcases List.mem_flatMap.1 hp with ⟨r, hr, hp⟩
        rcases Range.exists_mem_minus.1 ⟨p, hp, hx⟩ with ⟨hxr, hxe⟩
        exact ⟨⟨r, hr, hxr⟩, hxe⟩
      · rintro ⟨⟨r, hr, hxr⟩, hxe⟩
        rcases Range.exists_mem_minus.2 ⟨hxr, hxe⟩ with ⟨p, hp, hx⟩
        refine ⟨p, ?_, hx⟩
        rw [hranges]
        exact List.mem_flatMap.2 ⟨r, hr, hp⟩

theorem excludeAll_apart (hs : Apart A s) (hes : ∀ e ∈ es, e.Fits A) (h : excludeAll P A es s = .ok s') :
    Apart A s' ∧ ∀ x, x ∈ s'.addrs ↔ x ∈ s.addrs ∧ ∀ e ∈ es, x ∉ e.addrs := by
  induction es generalizing s with
  | nil =>
      obtain rfl := Except.ok.inj h
      exact ⟨hs, fun x => ⟨fun hx => ⟨hx, fun e he => nomatch he⟩, fun hx => hx.1⟩⟩
  | cons e es ih =>
      rw [excludeAll, List.foldlM_cons] at h
      rcases run_bind_eq_ok.1 h with ⟨s₁, hs₁, hrest⟩
      rcases excludeRange_apart hs (hes e List.mem_cons_self) hs₁ with ⟨hapart, haddrs⟩
      rcases ih hapart (fun e' he' => hes e' (List.mem_cons_of_mem _ he')) hrest with ⟨hapart', haddrs'⟩
      refine ⟨hapart', fun x => ?_⟩
      rw [haddrs' x, haddrs, List.forall_mem_cons]
      exact and_assoc

/-! ## The end of a range -/

theorem minus_of_apart (hr0 : 0 < r.size) (h : r.stop ≤ e.base ∨ e.stop ≤ r.base) : Range.minus e r = [r] := by
  have hrs : r.stop = r.base + r.size := rfl
  have hes : e.stop = e.base + e.size := rfl
  rcases h with hle | hle
  · have hlow : min r.stop e.base - r.base = r.size := by omega
    have hhigh : r.stop - max r.base e.stop = 0 := by omega
    simp [Range.minus, Range.parts, Range.nonempty, hlow, hhigh, hr0]
  · have hlow : min r.stop e.base - r.base = 0 := by omega
    have hbase : max r.base e.stop = r.base := by omega
    have hhigh : r.stop - r.base = r.size := by omega
    simp [Range.minus, Range.parts, Range.nonempty, hlow, hbase, hhigh, hr0]

theorem minus_of_end (hbase : r.base < e.base) (hle : e.base ≤ r.stop) (hstop : e.stop = r.stop) :
    Range.minus e r = [Range.lower e r] := by
  have hlow : min r.stop e.base = e.base := by omega
  have hhigh : r.stop - max r.base e.stop = 0 := by omega
  simp [Range.minus, Range.parts, Range.nonempty, Range.lower, hlow, hhigh, hbase]

/-- The loop passes ranges that are apart from the excluded one. -/
theorem excludeLoop_append (he : e.Fits A) (he0 : 0 < e.size) (hend : e.stop < A.wordLimit)
    (done : List (Range τ)) {pre tail : List (Range τ)} (hfits : ∀ r ∈ pre, r.Fits A)
    (hpos : ∀ r ∈ pre, 0 < r.size) (hapart : ∀ r ∈ pre, r.stop ≤ e.base ∨ e.stop ≤ r.base) :
    excludeLoop P A N e done (pre ++ tail) = excludeLoop P A N e (done ++ pre) tail := by
  induction pre generalizing done with
  | nil => rw [List.nil_append, List.append_nil]
  | cons r pre ih =>
      have hr0 := hpos r List.mem_cons_self
      have hr := hapart r List.mem_cons_self
      rcases Range.exclude_returns P (hfits r List.mem_cons_self) he hr0 he0 hend with ⟨parts, hparts, hsplit⟩
      have hstop : r.stop = r.base + r.size := rfl
      have hestop : e.stop = e.base + e.size := rfl
      -- Of the five ways to split, only the one that keeps `r` fits ranges that are apart.
      have hsame : parts = (some r, none) := by
        cases hsplit with
        | apart _ => rfl
        | covered _ _ => omega
        | inside _ _ _ _ _ => omega
        | head _ _ _ => omega
        | tail _ _ _ => omega
      subst hsame
      have hone : (Range.pieces (some r, none)).length ≠ 2 := by simp [Range.pieces]
      rw [List.cons_append, excludeLoop_cons done hparts, if_neg fun h => hone h.1,
        ih (done ++ Range.pieces (some r, none)) (fun x hx => hfits x (List.mem_cons_of_mem _ hx))
          (fun x hx => hpos x (List.mem_cons_of_mem _ hx)) (fun x hx => hapart x (List.mem_cons_of_mem _ hx)),
        List.append_assoc]
      rfl

/-- The end of a range is excluded: the range keeps its place, and no other range changes. -/
theorem excludeRange_end (P : Profile) {pre post : List (Range τ)} (hs : Apart A s)
    (hranges : s.ranges = pre ++ r :: post) (hroom : s.count < N) (hbase : r.base < e.base)
    (hstop : e.stop = r.stop) (he0 : 0 < e.size) (hend : e.stop < A.wordLimit) :
    excludeRange P A e s = .ok ⟨pre ++ Range.lower e r :: post⟩ := by
  have hrs : r.stop = r.base + r.size := rfl
  have hes : e.stop = e.base + e.size := rfl
  have hmem : ∀ x, x ∈ pre ∨ x = r ∨ x ∈ post → x ∈ s.ranges := by
    intro x hx
    rw [hranges, List.mem_append, List.mem_cons]
    exact hx
  have he : e.Fits A := ⟨by omega, hend.le⟩
  have hbefore := hs.before
  rw [hranges, List.pairwise_append, List.pairwise_cons] at hbefore
  rcases hbefore with ⟨-, ⟨hpost, -⟩, hpre⟩
  have hrfits := hs.fits r (hmem r (Or.inr (Or.inl rfl)))
  have hr0 := hs.pos r (hmem r (Or.inr (Or.inl rfl)))
  rcases Range.exclude_returns P hrfits he hr0 he0 hend with ⟨parts, hparts, hsplit⟩
  -- The upper part is returned, and empty.
  have hinside : ∃ b : Range τ, parts = (some (Range.lower e r), some b) ∧ b.size = 0 := by
    cases hsplit with
    | apart _ => omega
    | covered _ _ => omega
    | inside b _ _ hb _ => exact ⟨b, rfl, by omega⟩
    | head _ _ _ => omega
    | tail _ _ _ => omega
  rcases hinside with ⟨b, rfl, hb⟩
  have hcount : s.ranges.length < N := hroom
  rw [hranges, List.length_append, List.length_cons] at hcount
  have hloop : excludeLoop P A N e [] s.ranges = .ok (true, pre ++ [Range.lower e r, b] ++ post) := by
    rw [hranges, excludeLoop_append he he0 hend [] (fun x hx => hs.fits x (hmem x (Or.inl hx)))
      (fun x hx => hs.pos x (hmem x (Or.inl hx))), List.nil_append, excludeLoop_cons pre hparts,
      if_neg fun h => absurd h.2 (by omega), ← List.append_nil post,
      excludeLoop_append he he0 hend _ (fun x hx => hs.fits x (hmem x (Or.inr (Or.inr hx))))
      (fun x hx => hs.pos x (hmem x (Or.inr (Or.inr hx))))]
    · rw [List.append_nil]
      rfl
    · intro x hx
      have hle : r.stop ≤ x.base := hpost x hx
      omega
    · intro x hx
      have hle : x.stop ≤ r.base := hpre x hx r List.mem_cons_self
      omega
  have hkeep : ∀ rs : List (Range τ), (∀ x ∈ rs, x ∈ s.ranges) → rs.filter Range.nonempty = rs :=
    fun rs hrs => List.filter_eq_self.2 fun x hx => decide_eq_true (hs.pos x (hrs x hx))
  have hlower : (Range.lower e r).nonempty = true := decide_eq_true (Nat.sub_pos_of_lt hbase)
  have hempty : b.nonempty = false := decide_eq_false (by omega)
  have htrim : trimEmptyRanges (pre ++ [Range.lower e r, b] ++ post) = pre ++ Range.lower e r :: post := by
    rw [trimEmptyRanges, List.filter_append, List.filter_append, hkeep pre fun x hx => hmem x (Or.inl hx),
      hkeep post fun x hx => hmem x (Or.inr (Or.inr hx)), List.filter_cons_of_pos hlower,
      List.filter_cons_of_neg (by rw [hempty]; decide), List.filter_nil, List.append_assoc]
    rfl
  rw [excludeRange, hloop, run_ok_bind]
  simp only [if_true, htrim]
  rfl

/-! ## Insertions -/

/-- Valid ranges are inserted until the set is full. -/
theorem insertAll_perm (hrs : ∀ r ∈ rs, r.Fits A ∧ 0 < r.size ∧ r.size < A.wordLimit) (s : RangeSet N τ) :
    (insertAll A rs s).ranges.Perm (s.ranges ++ rs.take (N - s.count)) := by
  -- While there is room every range goes in; a full set drops the rest.
  induction rs generalizing s with
  | nil =>
      rw [List.take_nil, List.append_nil]
      exact List.Perm.refl _
  | cons r rs ih =>
      have hrest := fun x hx => hrs x (List.mem_cons_of_mem r hx)
      rcases hrs r List.mem_cons_self with ⟨hfits, hpos, hlt⟩
      rw [insertAll, List.foldl_cons]
      rcases Nat.lt_or_ge s.count N with hroom | hfull
      · have hins : (insertRange A r s).2 = ⟨insertAt r s.ranges⟩ := by
          have hle : r.base + r.size ≤ A.wordLimit := hfits.le
          rw [insertRange, if_neg (by omega), if_neg (by omega)]
          rfl
        have hcount : (⟨insertAt r s.ranges⟩ : RangeSet N τ).count = s.count + 1 :=
          (insertAt_perm r s.ranges).length_eq
        have htake : (r :: rs).take (N - s.count) = r :: rs.take (N - (s.count + 1)) := by
          have hsub : N - s.count = N - (s.count + 1) + 1 := by omega
          rw [hsub, List.take_succ_cons]
        have hih := ih hrest ⟨insertAt r s.ranges⟩
        rw [hcount] at hih
        rw [hins, htake]
        calc (insertAll A rs ⟨insertAt r s.ranges⟩).ranges.Perm
              (insertAt r s.ranges ++ rs.take (N - (s.count + 1))) := hih
          List.Perm _ (r :: s.ranges ++ rs.take (N - (s.count + 1))) := (insertAt_perm r s.ranges).append_right _
          List.Perm _ (s.ranges ++ r :: rs.take (N - (s.count + 1))) := List.perm_middle.symm
      · have hins : (insertRange A r s).2 = s := by
          rw [insertRange, if_pos hfull]
        have hzero : N - s.count = 0 := by omega
        have hih := ih hrest s
        rw [hzero, List.take_zero] at hih ⊢
        rw [hins]
        exact hih

/-- What the insertions leave in a new set. -/
theorem addrs_insertAll (hrs : ∀ r ∈ rs, r.Fits A ∧ 0 < r.size ∧ r.size < A.wordLimit) (x : Nat) :
    x ∈ (insertAll A rs (new : RangeSet N τ)).addrs ↔ ∃ r ∈ rs.take N, x ∈ r.addrs := by
  have hperm := insertAll_perm hrs (new : RangeSet N τ)
  constructor
  · rintro ⟨r, hr, hx⟩
    exact ⟨r, hperm.mem_iff.1 hr, hx⟩
  · rintro ⟨r, hr, hx⟩
    exact ⟨r, hperm.mem_iff.2 hr, hx⟩

end RangeSet

/-! ## A single exclusion -/

namespace Range

variable {τ : Type} {A : Arch} {r e : Range τ} {split : Option (Range τ) × Option (Range τ)}

/-- The pieces of `r` are not empty, lie one behind the other, and cover what `e` does not. -/
structure ExactSplit (e r : Range τ) (split : Option (Range τ) × Option (Range τ)) : Prop where
  pos : ∀ s ∈ pieces split, 0 < s.size
  tag : ∀ s ∈ pieces split, s.tag = r.tag
  before : (pieces split).Pairwise RangeSet.Before
  cover : ∀ x, (∃ s ∈ pieces split, x ∈ s.addrs) ↔ x ∈ r.addrs ∧ x ∉ e.addrs

/-- `e` is a proper part of `r` and shares an end with it. -/
def SharesEnd (e r : Range τ) : Prop :=
  e.base = r.base ∧ e.stop < r.stop ∨ e.stop = r.stop ∧ r.base < e.base

instance (e r : Range τ) : Decidable (SharesEnd e r) :=
  inferInstanceAs (Decidable (_ ∨ _))

theorem Split.exact (hr0 : 0 < r.size) (he0 : 0 < e.size) (h : Split e r split)
    (hpos : ∀ s ∈ pieces split, 0 < s.size) : ExactSplit e r split := by
  have hminus : pieces split = minus e r := by
    rw [← filter_pieces hr0 he0 h]
    exact (List.filter_eq_self.2 fun s hs => decide_eq_true (hpos s hs)).symm
  refine ⟨hpos, ?_, ?_, ?_⟩
  · intro s hs
    rw [hminus] at hs
    exact (mem_minus hs).1
  · rw [hminus]
    exact RangeSet.minus_before e r
  · intro x
    rw [hminus]
    exact exists_mem_minus

/-- Of a range that shares an end with the excluded one, an empty piece is left. -/
theorem Split.empty_piece (hr0 : 0 < r.size) (he0 : 0 < e.size) (h : Split e r split) (hends : SharesEnd e r) :
    ∃ s ∈ pieces split, s.size = 0 := by
  have hrs : r.stop = r.base + r.size := rfl
  have hes : e.stop = e.base + e.size := rfl
  cases h with
  | apart hapart => rcases hends with hends | hends <;> omega
  | covered hlo hhi => rcases hends with hends | hends <;> omega
  | head hlt hin hout => rcases hends with hends | hends <;> omega
  | tail hlt hin hout => rcases hends with hends | hends <;> omega
  | inside b hlo hhi hsize hupper =>
      rcases hends with ⟨hbase, -⟩ | ⟨hstop, -⟩
      · exact ⟨lower e r, List.mem_cons_self, by simp only [lower]; omega⟩
      · exact ⟨b, List.mem_cons_of_mem _ List.mem_cons_self, by omega⟩

/-- `exclude` returns exactly what is left, without an empty piece and without overflow, unless the excluded range
is a proper part of the range at one of its ends. -/
theorem exclude_exact_iff (P : Profile) (hr : r.Fits A) (he : e.Fits A) (hr0 : 0 < r.size) (he0 : 0 < e.size) :
    (∃ split, r.exclude P A e = .ok (some split) ∧ ExactSplit e r split) ↔ ¬ SharesEnd e r := by
  have hrs : r.stop = r.base + r.size := rfl
  have hes : e.stop = e.base + e.size := rfl
  constructor
  · rintro ⟨split, hrun, hexact⟩ hends
    rcases exclude_eq_ok hr he hr0 he0 hrun with ⟨split', heq, hsplit⟩
    obtain rfl := Option.some.inj heq
    rcases hsplit.empty_piece hr0 he0 hends with ⟨s, hs, hzero⟩
    have := hexact.pos s hs
    omega
  · intro hends
    rw [SharesEnd] at hends
    by_cases hsame : r.base = e.base ∧ r.size = e.size
    · -- The range itself is excluded.
      refine ⟨(none, none), ?_, (Split.covered (by omega) (by omega)).exact hr0 he0 fun s hs => nomatch hs⟩
      rw [exclude, cmp_eq hr he hr0 he0, order, if_pos hsame]
      rfl
    · have hend : r.order e (r.stop - 1) (e.stop - 1) = .superset → e.stop < A.wordLimit := by
        intro horder
        have hlies := lies_order (r := r) hr0 he0
        rw [horder] at hlies
        cases hlies with
        | superset hlo hhi =>
            have hrle := hr.le
            omega
      rcases exclude_returns_of P hr he hr0 he0 hend with ⟨split, hrun, hsplit⟩
      refine ⟨split, hrun, hsplit.exact hr0 he0 ?_⟩
      intro s hs
      cases hsplit with
      | apart hapart =>
          obtain rfl := List.mem_singleton.1 hs
          exact hr0
      | covered hlo hhi => exact nomatch hs
      | inside b hlo hhi hsize hupper =>
          rcases List.mem_cons.1 hs with rfl | hs
          · simp only [lower]
            omega
          · obtain rfl := List.mem_singleton.1 hs
            omega
      | head hlt hin hout =>
          obtain rfl := List.mem_singleton.1 hs
          simp only [lower]
          omega
      | tail hlt hin hout =>
          obtain rfl := List.mem_singleton.1 hs
          simp only [upper]
          omega

/-- The middle of a range is excluded. -/
theorem exclude_exact_middle :
    (⟨(), 0x1000, 0x3000⟩ : Range Unit).Fits .arm ∧ (⟨(), 0x2000, 0x1000⟩ : Range Unit).Fits .arm ∧
      ((∃ split, (⟨(), 0x1000, 0x3000⟩ : Range Unit).exclude .dev .arm ⟨(), 0x2000, 0x1000⟩ = .ok (some split) ∧
          ExactSplit ⟨(), 0x2000, 0x1000⟩ ⟨(), 0x1000, 0x3000⟩ split) ↔
        ¬ SharesEnd (⟨(), 0x2000, 0x1000⟩ : Range Unit) ⟨(), 0x1000, 0x3000⟩) :=
  ⟨by decide, by decide, exclude_exact_iff .dev (by decide) (by decide) (by decide) (by decide)⟩

/-- High memory, up to the end of the address space, is excluded from a range that ends there too. -/
theorem exclude_high_memory_overflows :
    let r : Range Unit := ⟨(), 0x10000000, 0xf0000000⟩
    let excl : Range Unit := ⟨(), 0x30000000, 0xd0000000⟩
    r.Fits .arm ∧ excl.Fits .arm ∧ r.exclude .dev .arm excl = .error .overflow ∧
      r.exclude .release .arm excl = .ok (some (some ⟨(), 0x10000000, 0x20000000⟩, some ⟨(), 0, 0⟩)) := by
  decide

end Range
end Propeller
