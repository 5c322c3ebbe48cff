import Propeller.Lib.Loop
import Propeller.Support.RangeExclude

/-!
# Support.RangeArray — a set of ranges as the array it is

`RangeSet` of the source is an array and a count.  `exclude_range` replaces, inserts and deletes elements in place
and moves its index and the count as it does so.  On every array the loops compute what `RangeSet.excludeRange`
computes on the list of the elements in use.  In a build without overflow checks the exclusion of a range from a
set with a free slot always returns.
-/

namespace Propeller

/-- The slots of the array and how many of them are in use. -/
structure RangeArray (τ : Type) where
  ranges : List (Range τ)
  count : Nat
  deriving DecidableEq, Repr

namespace RangeArray

variable {τ : Type}

/-- `copy_within(start..stop, dest)` of a slice. -/
def copySlots (slots : List (Range τ)) (start stop dest : Nat) : Run (List (Range τ)) :=
  if start ≤ stop ∧ stop ≤ slots.length ∧ dest + (stop - start) ≤ slots.length then
    .ok (slots.take dest ++ (slots.take stop).drop start ++ slots.drop (dest + (stop - start)))
  else .error .index

/-- The part of a round that stores the second range of a split: the index and the array. -/
def storeSecond (N i : Nat) (first second : Option (Range τ)) (a : RangeArray τ) : Run (Nat × RangeArray τ) :=
  match second with
  | none => .ok (i, a)
  | some b =>
      if first.isNone then .ok (i, { a with ranges := a.ranges.set i b })
      else if a.count < N then do
        let slots ← copySlots a.ranges i a.count (i + 1)
        return (i + 1, ⟨slots.set (i + 1) b, a.count + 1⟩)
      else .error .rangeSetFull

/-- A round of the loop of `exclude_range`, which is left when two ranges cannot be compared. -/
def excludeStep (P : Profile) (A : Arch) (N : Nat) (excl : Range τ) (s : Nat × RangeArray τ) :
    Run ((Nat × RangeArray τ) ⊕ (Bool × RangeArray τ)) :=
  if s.1 < s.2.count then do
    let r ← RangeSet.getRange s.2.ranges s.1
    match ← r.exclude P A excl with
    | none => return .inr (false, s.2)
    | some (first, second) => do
        let a := match first with
          | some r => { s.2 with ranges := s.2.ranges.set s.1 r }
          | none => s.2
        let (i, a) ← storeSecond N s.1 first second a
        if first.isNone ∧ second.isNone then
          let slots ← copySlots a.ranges (i + 1) a.count i
          return .inl (i, ⟨slots, a.count - 1⟩)
        else return .inl (i + 1, a)
  else .ok (.inr (true, s.2))

/-- A round of the loop of `trim_empty_ranges`. -/
def trimEmptyStep (s : Nat × RangeArray τ) : Run ((Nat × RangeArray τ) ⊕ RangeArray τ) :=
  if s.1 < s.2.count then do
    let r ← RangeSet.getRange s.2.ranges s.1
    if r.size > 0 then return .inl (s.1 + 1, s.2)
    else
      let slots ← copySlots s.2.ranges (s.1 + 1) s.2.count s.1
      return .inl (s.1, ⟨slots, s.2.count - 1⟩)
  else .ok (.inr s.2)

def trimEmptyRanges (a : RangeArray τ) : Run (RangeArray τ) :=
  Loop.iterate .diverges trimEmptyStep (a.count + 1) (0, a)

def excludeRange (P : Profile) (A : Arch) (N : Nat) (excl : Range τ) (a : RangeArray τ) : Run (RangeArray τ) := do
  let (finished, a) ← Loop.iterate .diverges (excludeStep P A N excl) (a.count + 1) (0, a)
  if finished then a.trimEmptyRanges else return a

/-! ## Arrays and lists -/

/-- The elements of an array of `N` slots that are in use. -/
structure Holds (N : Nat) (a : RangeArray τ) (live : List (Range τ)) : Prop where
  length : a.ranges.length = N
  count : a.count = live.length
  stored : live <+: a.ranges

variable {P : Profile} {A : Arch} {N i : Nat} {a a' : RangeArray τ} {r e b : Range τ}
  {done rest free slots live : List (Range τ)}

theorem getRange_at (h : Holds N a (done ++ r :: rest)) : RangeSet.getRange a.ranges done.length = .ok r := by
  rcases h.stored with ⟨free, heq⟩
  rw [RangeSet.getRange_eq_ok, ← heq, List.append_assoc, List.getElem?_append_right le_rfl, Nat.sub_self]
  rfl

theorem set_at (done : List (Range τ)) (r b : Range τ) (rest : List (Range τ)) :
    (done ++ r :: rest).set done.length b = done ++ b :: rest := by
  rw [List.set_append_right _ _ le_rfl, Nat.sub_self]
  rfl

theorem Holds.replace (h : Holds N a (done ++ r :: rest)) (b : Range τ) :
    Holds N { a with ranges := a.ranges.set done.length b } (done ++ b :: rest) := by
  rcases h.stored with ⟨free, heq⟩
  refine ⟨List.length_set.trans h.length, ?_, free, ?_⟩
  · rw [h.count, List.length_append, List.length_append]
    rfl
  · rw [← heq, List.append_assoc, List.append_assoc]
    exact (set_at done r b (rest ++ free)).symm

/-- An element is inserted behind the one at the index: the copy of that one is overwritten. -/
theorem Holds.insert (h : Holds N a (done ++ r :: rest)) (b : Range τ) (hroom : a.count < N) :
    ∃ slots, copySlots a.ranges done.length a.count (done.length + 1) = .ok slots ∧
      Holds N ⟨slots.set (done.length + 1) b, a.count + 1⟩ (done ++ r :: b :: rest) := by
  rcases h.stored with ⟨free, heq⟩
  have hcount : a.count = done.length + (rest.length + 1) := by
    rw [h.count, List.length_append, List.length_cons]
  have hlen := h.length
  rw [← heq, List.length_append, ← h.count] at hlen
  match free with
  | [] => simp only [List.length_nil] at hlen; omega
  | f :: free =>
      -- The copy moves the tail by one slot and leaves a second copy of `r` in the gap, which `b` overwrites.
      have htake : a.ranges.take (done.length + 1) = done ++ [r] := by
        rw [← heq, List.append_assoc, List.take_length_add_append]
        rfl
      have hmid : (a.ranges.take a.count).drop done.length = r :: rest := by
        rw [← heq, h.count, List.take_left, List.drop_left]
      have hdrop : a.ranges.drop (done.length + 1 + (a.count - done.length)) = free := by
        have hindex : done.length + 1 + (a.count - done.length) = (done ++ r :: rest).length + 1 := by
          rw [← h.count]
          omega
        rw [hindex, ← heq, List.drop_length_add_append]
        rfl
      have hfits : a.ranges.length = a.count + (free.length + 1) := by
        rw [← heq, List.length_append, ← h.count, List.length_cons]
      have hset : (done ++ [r] ++ (r :: rest) ++ free).set (done.length + 1) b = done ++ r :: b :: rest ++ free := by
        have hat := set_at (done ++ [r]) r b (rest ++ free)
        rw [List.length_append] at hat
        simp only [List.append_assoc, List.length_singleton, List.cons_append, List.nil_append] at hat ⊢
        exact hat
      refine ⟨_, if_pos ⟨by omega, by omega, by omega⟩, ?_, ?_, free, ?_⟩
      · rw [htake, hmid, hdrop, hset, List.length_append, List.length_append]
        simp only [List.length_cons] at hlen ⊢
        omega
      · simp only [List.length_append, List.length_cons]
        omega
      · rw [htake, hmid, hdrop, hset]

/-- The element at the index is deleted. -/
theorem Holds.delete (h : Holds N a (done ++ r :: rest)) :
    ∃ slots, copySlots a.ranges (done.length + 1) a.count done.length = .ok slots ∧
      Holds N ⟨slots, a.count - 1⟩ (done ++ rest) := by
  rcases h.stored with ⟨free, heq⟩
  have hcount : a.count = done.length + (rest.length + 1) := by
    rw [h.count, List.length_append, List.length_cons]
  have hlen : a.ranges.length = a.count + free.length := by
    rw [← heq, List.length_append, ← h.count]
  have htake : a.ranges.take done.length = done := by
    rw [← heq, List.append_assoc, List.take_left]
  have hmid : (a.ranges.take a.count).drop (done.length + 1) = rest := by
    rw [← heq, h.count, List.take_left, List.drop_length_add_append]
    rfl
  refine ⟨_, if_pos ⟨by omega, by omega, by omega⟩, ?_, ?_,
    a.ranges.drop (done.length + (a.count - (done.length + 1))), by rw [htake, hmid]⟩
  · rw [htake, hmid, List.length_append, List.length_append, List.length_drop, ← h.length]
    omega
  · rw [List.length_append, hcount]
    rfl

/-! ## The loops -/

/-- One round puts the pieces of a range in its place. -/
theorem excludeStep_at {split : Option (Range τ) × Option (Range τ)} (h : Holds N a (done ++ r :: rest))
    (hsplit : r.exclude P A e = .ok (some split))
    (hroom : ¬ ((Range.pieces split).length = 2 ∧ N ≤ done.length + (rest.length + 1))) :
    ∃ a', excludeStep P A N e (done.length, a) = .ok (.inl (done.length + (Range.pieces split).length, a')) ∧
      Holds N a' (done ++ Range.pieces split ++ rest) := by
  have hcount : a.count = done.length + (rest.length + 1) := by
    rw [h.count, List.length_append, List.length_cons]
  have hlt : done.length < a.count := by omega
  rw [excludeStep, if_pos hlt, getRange_at h, run_ok_bind, hsplit, run_ok_bind]
  -- Two pieces shift the tail up, one overwrites its slot, none shifts the tail down.
  match split with
  | (some x, some y) =>
      have hfree : a.count < N := by
        have hnot : ¬ N ≤ done.length + (rest.length + 1) := fun hle => hroom ⟨rfl, hle⟩
        omega
      rcases (h.replace x).insert y hfree with ⟨slots, hcopy, hholds⟩
      refine ⟨_, ?_, by simpa [Range.pieces] using hholds⟩
      simp only [storeSecond, Option.isNone_some, Bool.false_eq_true, if_false, if_pos hfree, hcopy, run_ok_bind]
      rfl
  | (some x, none) => exact ⟨_, rfl, by simpa [Range.pieces] using h.replace x⟩
  | (none, some y) => exact ⟨_, rfl, by simpa [Range.pieces] using h.replace y⟩
  | (none, none) =>
      rcases h.delete with ⟨slots, hcopy, hholds⟩
      refine ⟨_, ?_, by simpa [Range.pieces] using hholds⟩
      simp only [storeSecond, Option.isNone_none, and_self, if_true, run_ok_bind, hcopy]
      rfl

theorem excludeStep_full {split : Option (Range τ) × Option (Range τ)} (h : Holds N a (done ++ r :: rest))
    (hsplit : r.exclude P A e = .ok (some split))
    (hfull : (Range.pieces split).length = 2 ∧ N ≤ done.length + (rest.length + 1)) :
    excludeStep P A N e (done.length, a) = .error .rangeSetFull := by
  have hcount : a.count = done.length + (rest.length + 1) := by
    rw [h.count, List.length_append, List.length_cons]
  have hlt : done.length < a.count := by omega
  rw [excludeStep, if_pos hlt, getRange_at h, run_ok_bind, hsplit, run_ok_bind]
  match split with
  | (some x, some y) =>
      simp only [storeSecond, Option.isNone_some, Bool.false_eq_true, if_false, if_neg (show ¬ a.count < N by omega),
        run_error_bind]
  | (some x, none) => simp [Range.pieces] at hfull
  | (none, some y) => simp [Range.pieces] at hfull
  | (none, none) => simp [Range.pieces] at hfull

/-- An insertion moves the index and the count. -/
theorem storeSecond_cases {j : Nat} {first second : Option (Range τ)} (h : storeSecond N i first second a = .ok (j, a')) :
    i ≤ j ∧ a'.count + i = a.count + j := by
  match second with
  | none =>
    obtain ⟨rfl, rfl⟩ := Prod.mk.inj (Except.ok.inj h)
    exact ⟨le_rfl, rfl⟩
  | some b =>
    rw [storeSecond] at h
    split at h
    · obtain ⟨rfl, rfl⟩ := Prod.mk.inj (Except.ok.inj h)
      exact ⟨le_rfl, rfl⟩
    · split at h
      · rcases run_bind_eq_ok.1 h with ⟨slots, -, h⟩
        obtain ⟨rfl, rfl⟩ := Prod.mk.inj (Except.ok.inj h)
        exact ⟨Nat.le_succ i, by simp only; omega⟩
      · cases h

theorem excludeStep_decreases (P : Profile) (A : Arch) (N : Nat) (e : Range τ) :
    Loop.Decreases (excludeStep P A N e) fun s => s.2.count - s.1 := by
  rintro ⟨i, a⟩ ⟨i', a'⟩ hnext
  have hstep : excludeStep P A N e (i, a) = .ok (.inl (i', a')) := hnext
  rw [excludeStep] at hstep
  split at hstep
  next hlt =>
    rcases run_bind_eq_ok.1 hstep with ⟨r, -, hstep⟩
    rcases run_bind_eq_ok.1 hstep with ⟨split, -, hstep⟩
    match split with
    | none => cases hstep
    | some (first, second) =>
        rcases run_bind_eq_ok.1 hstep with ⟨⟨j, a₁⟩, hstore, hstep⟩
        have hmoved := storeSecond_cases hstore
        -- A stored second piece moves the count and the index alike.
        have hcount : a₁.count + i = a.count + j := by
          rw [hmoved.2]
          cases first <;> rfl
        have hle := hmoved.1
        simp only at hlt hstep ⊢
        split at hstep
        next =>
          rcases run_bind_eq_ok.1 hstep with ⟨slots, -, hstep⟩
          obtain ⟨rfl, rfl⟩ := Prod.mk.inj (Sum.inl.inj (Except.ok.inj hstep))
          simp only
          omega
        next =>
          obtain ⟨rfl, rfl⟩ := Prod.mk.inj (Sum.inl.inj (Except.ok.inj hstep))
          omega
  next => cases hstep

theorem trimEmptyStep_decreases :
    Loop.Decreases (trimEmptyStep : Nat × RangeArray τ → _) fun s => s.2.count - s.1 := by
  rintro ⟨i, a⟩ ⟨i', a'⟩ hnext
  have hstep : trimEmptyStep (i, a) = .ok (.inl (i', a')) := hnext
  rw [trimEmptyStep] at hstep
  split at hstep
  next hlt =>
    rcases run_bind_eq_ok.1 hstep with ⟨r, -, hstep⟩
    simp only at hlt hstep ⊢
    split at hstep
    next =>
      obtain ⟨rfl, rfl⟩ := Prod.mk.inj (Sum.inl.inj (Except.ok.inj hstep))
      omega
    next =>
      rcases run_bind_eq_ok.1 hstep with ⟨slots, -, hstep⟩
      obtain ⟨rfl, rfl⟩ := Prod.mk.inj (Sum.inl.inj (Except.ok.inj hstep))
      simp only
      omega
  next => cases hstep

/-- The loop over the array comes to the same end as the loop over the list. -/
theorem excludeLoop_refines (P : Profile) (A : Arch) (e : Range τ) (done : List (Range τ)) (h : Holds N a (done ++ rest)) :
    ∃ t, Loop.Reaches (excludeStep P A N e) (done.length, a) t ∧
      match RangeSet.excludeLoop P A N e done rest with
      | .ok (finished, out) => ∃ a', excludeStep P A N e t = .ok (.inr (finished, a')) ∧ Holds N a' out
      | .error p => excludeStep P A N e t = .error p := by
  -- `done` are the slots before the index: the list's loop moves ranges into it as the array's index passes them.
  induction rest generalizing done a with
  | nil =>
      rw [List.append_nil] at h
      refine ⟨_, .refl _, a, ?_, h⟩
      rw [excludeStep, if_neg (by rw [h.count]; exact lt_irrefl _)]
  | cons r rest ih =>
      have hlt : done.length < a.count := by
        rw [h.count, List.length_append, List.length_cons]
        omega
      match hsplit : r.exclude P A e with
      | .error p =>
          refine ⟨_, .refl _, ?_⟩
          rw [RangeSet.excludeLoop, hsplit, excludeStep, if_pos hlt, getRange_at h, run_ok_bind, hsplit]
          rfl
      | .ok none =>
          refine ⟨_, .refl _, ?_⟩
          rw [RangeSet.excludeLoop, hsplit]
          refine ⟨a, ?_, h⟩
          rw [excludeStep, if_pos hlt, getRange_at h, run_ok_bind, hsplit]
          rfl
      | .ok (some split) =>
          rw [RangeSet.excludeLoop_cons done hsplit]
          -- Two pieces need a free slot, and without one both loops stop here.
          by_cases hfull : (Range.pieces split).length = 2 ∧ N ≤ done.length + (rest.length + 1)
          · rw [if_pos hfull]
            exact ⟨_, .refl _, excludeStep_full h hsplit hfull⟩
          · rw [if_neg hfull]
            rcases excludeStep_at h hsplit hfull with ⟨a', hstep, hholds⟩
            rcases ih _ hholds with ⟨t, hreach, hend⟩
            rw [List.length_append] at hreach
            exact ⟨t, hreach.head hstep, hend⟩

theorem trimEmpty_reaches (done : List (Range τ)) (h : Holds N a (done ++ rest)) :
    ∃ t a', Loop.Reaches trimEmptyStep (done.length, a) t ∧ trimEmptyStep t = .ok (.inr a') ∧
      Holds N a' (done ++ RangeSet.trimEmptyRanges rest) := by
  induction rest generalizing done a with
  | nil =>
      refine ⟨_, a, .refl _, ?_, h⟩
      rw [List.append_nil] at h
      rw [trimEmptyStep, if_neg (by rw [h.count]; exact lt_irrefl _)]
  | cons r rest ih =>
      have hlt : done.length < a.count := by
        rw [h.count, List.length_append, List.length_cons]
        omega
      -- A range that stays moves the index on; an empty one is deleted, and the index waits for the next.
      by_cases hsize : r.size > 0
      · have hstep : trimEmptyStep (done.length, a) = .ok (.inl ((done ++ [r]).length, a)) := by
          rw [trimEmptyStep, if_pos hlt, getRange_at h, run_ok_bind, if_pos hsize, List.length_append]
          rfl
        rcases ih (done ++ [r]) (by rwa [List.append_assoc]) with ⟨t, a', hreach, hlast, hholds⟩
        refine ⟨t, a', hreach.head hstep, hlast, ?_⟩
        rw [RangeSet.trimEmptyRanges, List.filter_cons_of_pos (show r.nonempty from decide_eq_true hsize)]
        rwa [List.append_assoc] at hholds
      · rcases h.delete with ⟨slots, hcopy, hdeleted⟩
        have hstep : trimEmptyStep (done.length, a) = .ok (.inl (done.length, ⟨slots, a.count - 1⟩)) := by
          rw [trimEmptyStep, if_pos hlt, getRange_at h, run_ok_bind, if_neg hsize, hcopy]
          rfl
        rcases ih done hdeleted with ⟨t, a', hreach, hlast, hholds⟩
        refine ⟨t, a', hreach.head hstep, hlast, ?_⟩
        rwa [RangeSet.trimEmptyRanges, List.filter_cons_of_neg (by simpa [Range.nonempty] using hsize)]

theorem trimEmptyRanges_refines (h : Holds N a live) :
    ∃ a', a.trimEmptyRanges = .ok a' ∧ Holds N a' (RangeSet.trimEmptyRanges live) := by
  rcases trimEmpty_reaches [] h with ⟨t, a', hreach, hlast, hholds⟩
  exact ⟨a', Loop.iterate_of_reaches trimEmptyStep_decreases (Nat.lt_succ_of_le (Nat.sub_le _ _)) hreach hlast, hholds⟩

/-- `exclude_range` on an array does what it does on the list of the elements in use. -/
theorem excludeRange_refines {s s' : RangeSet N τ} (h : Holds N a s.ranges)
    (hs : RangeSet.excludeRange P A e s = .ok s') :
    ∃ a', a.excludeRange P A N e = .ok a' ∧ Holds N a' s'.ranges := by
  rcases run_bind_eq_ok.1 hs with ⟨⟨finished, out⟩, hloop, hret⟩
  rcases excludeLoop_refines P A e [] h with ⟨t, hreach, hend⟩
  rw [hloop] at hend
  rcases hend with ⟨a₁, hlast, hholds⟩
  have hiter : Loop.iterate .diverges (excludeStep P A N e) (a.count + 1) (0, a) = .ok (finished, a₁) :=
    Loop.iterate_of_reaches (excludeStep_decreases P A N e) (Nat.lt_succ_of_le (Nat.sub_le _ _)) hreach hlast
  have hrun : a.excludeRange P A N e = if finished then a₁.trimEmptyRanges else .ok a₁ := by
    rw [excludeRange, hiter]
    rfl
  rw [hrun]
  cases finished with
  | true =>
      obtain rfl := Except.ok.inj hret
      exact trimEmptyRanges_refines hholds
  | false =>
      obtain rfl := Except.ok.inj hret
      exact ⟨a₁, rfl, hholds⟩

/-! ## A set with a free slot -/

/-- Without overflow checks an exclusion always returns. -/
theorem exclude_release (A : Arch) (r e : Range τ) : ∃ split, r.exclude .release A e = .ok split := by
  rw [Range.exclude, Range.cmp]
  split
  · exact ⟨none, rfl⟩
  · simp only [addWord, run_ok_bind, pure_bind]
    generalize r.order e _ _ = order
    cases order <;> exact ⟨_, rfl⟩

/-- Only a range around the excluded one is split, so one free slot is enough for ranges that stand apart. -/
theorem excludeLoop_release (done : List (Range τ)) (he : e.Fits A) (he0 : 0 < e.size) (hfits : ∀ r ∈ rest, r.Fits A)
    (hpos : ∀ r ∈ rest, 0 < r.size) (hbefore : rest.Pairwise RangeSet.Before)
    (hroom : done.length + rest.length < N ∨ ∀ r ∈ rest, ¬ (r.base ≤ e.base ∧ e.stop ≤ r.stop)) :
    ∃ out, RangeSet.excludeLoop .release A N e done rest = .ok out := by
  induction rest generalizing done with
  | nil => exact ⟨_, rfl⟩
  | cons r rest ih =>
      rcases exclude_release A r e with ⟨split, hsplit⟩
      rcases Range.exclude_eq_ok (hfits r List.mem_cons_self) he (hpos r List.mem_cons_self) he0 hsplit with
        ⟨parts, rfl, hparts⟩
      rw [List.pairwise_cons] at hbefore
      have hestop : e.stop = e.base + e.size := rfl
      have hrest : ∀ done', (done'.length + rest.length < N ∨ ∀ r ∈ rest, ¬ (r.base ≤ e.base ∧ e.stop ≤ r.stop)) →
          ∃ out, RangeSet.excludeLoop .release A N e done' rest = .ok out := fun done' hroom' =>
        ih done' (fun x hx => hfits x (List.mem_cons_of_mem _ hx)) (fun x hx => hpos x (List.mem_cons_of_mem _ hx)) hbefore.2
          hroom'
      rw [RangeSet.excludeLoop_cons done hsplit]
      by_cases htwo : (Range.pieces parts).length = 2
      · -- The split range is around the excluded one, so no later range is.
        have hround : r.base ≤ e.base ∧ e.stop ≤ r.stop := by
          cases hparts with
          | inside b hlo hhi _ _ => exact ⟨hlo, hhi⟩
          | apart _ => simp [Range.pieces] at htwo
          | covered _ _ => simp [Range.pieces] at htwo
          | head _ _ _ => simp [Range.pieces] at htwo
          | tail _ _ _ => simp [Range.pieces] at htwo
        have hfree : done.length + (rest.length + 1) < N :=
          hroom.resolve_right fun hno => hno r List.mem_cons_self hround
        rw [if_neg fun hfull => absurd hfull.2 (Nat.not_le.mpr hfree)]
        refine hrest _ (Or.inr fun r' hr' hround' => ?_)
        have hafter : r.stop ≤ r'.base := hbefore.1 r' hr'
        omega
      · rw [if_neg fun hfull => htwo hfull.1]
        refine hrest _ (hroom.imp (fun hlt => ?_) fun hno r' hr' => hno r' (List.mem_cons_of_mem _ hr'))
        have hle := RangeSet.length_pieces_le parts
        rw [List.length_append]
        rw [List.length_cons] at hlt
        omega

/-- An address of the result has the tag that it had before. -/
theorem excludeRange_tags {s s' : RangeSet N τ} (hs : RangeSet.Ordered A s) (he : e.Fits A) (he0 : 0 < e.size)
    (h : RangeSet.excludeRange P A e s = .ok s') :
    ∀ r' ∈ s'.ranges, ∀ x ∈ r'.addrs, ∃ r ∈ s.ranges, x ∈ r.addrs ∧ r'.tag = r.tag := by
  intro r' hr' x hx
  rw [(RangeSet.excludeRange_eq_ok hs he he0 h).1] at hr'
  rcases List.mem_flatMap.1 hr' with ⟨r, hr, hpart⟩
  rcases Range.exists_mem_minus.1 ⟨r', hpart, hx⟩ with ⟨hxr, -⟩
  exact ⟨r, hr, hxr, (Range.mem_minus hpart).1⟩

/-- `exclude_range` takes the excluded addresses out of the set, and no others.  The arithmetic is that of a
release build, in which the range behind an exclusion range that ends at `usize::MAX` starts at zero and is
empty. -/
theorem excludeRange_difference (A : Arch) (hlive : Holds N a live)
    (hapart : RangeSet.Apart A (⟨live⟩ : RangeSet N τ)) (hfree : a.count < N) (he : e.Fits A) (he0 : 0 < e.size) :
    ∃ a' live', a.excludeRange .release A N e = .ok a' ∧ Holds N a' live' ∧
      RangeSet.Apart A (⟨live'⟩ : RangeSet N τ) ∧
      (⟨live'⟩ : RangeSet N τ).addrs = (⟨live⟩ : RangeSet N τ).addrs \ e.addrs ∧
      ∀ r' ∈ live', ∀ x ∈ r'.addrs, ∃ r ∈ live, x ∈ r.addrs ∧ r'.tag = r.tag := by
  have hroom : ([] : List (Range τ)).length + live.length < N := by
    rw [List.length_nil, Nat.zero_add, ← hlive.count]
    exact hfree
  rcases excludeLoop_release [] he he0 hapart.fits hapart.pos hapart.before (Or.inl hroom) with
    ⟨⟨finished, out⟩, hloop⟩
  have hreturns : ∃ s' : RangeSet N τ, RangeSet.excludeRange .release A e ⟨live⟩ = .ok s' := by
    rw [RangeSet.excludeRange, hloop, run_ok_bind]
    cases finished with
    | true => exact ⟨_, rfl⟩
    | false => exact ⟨_, rfl⟩
  rcases hreturns with ⟨s', hs'⟩
  rcases excludeRange_refines hlive hs' with ⟨a', ha', hholds⟩
  have hdiff := RangeSet.excludeRange_apart hapart he hs'
  exact ⟨a', s'.ranges, ha', hholds, hdiff.1, hdiff.2, excludeRange_tags hapart.toOrdered he he0 hs'⟩

/-- Three slots, two ranges, and an exclusion range that ends at `usize::MAX`. -/
theorem excludeRange_difference_top :
    ∃ a' live', excludeRange .release .arm 3 ⟨1, 0xfffff800, 0x800⟩
        ⟨[⟨0, 0x1000, 0x1000⟩, ⟨1, 0xfffff000, 0x1000⟩, ⟨0, 0, 0⟩], 2⟩ = .ok a' ∧ Holds 3 a' live' ∧
      RangeSet.Apart .arm (⟨live'⟩ : RangeSet 3 Nat) ∧
      (⟨live'⟩ : RangeSet 3 Nat).addrs =
        (⟨[⟨0, 0x1000, 0x1000⟩, ⟨1, 0xfffff000, 0x1000⟩]⟩ : RangeSet 3 Nat).addrs \
          (⟨1, 0xfffff800, 0x800⟩ : Range Nat).addrs := by
  have hapart : RangeSet.Apart .arm (⟨[⟨0, 0x1000, 0x1000⟩, ⟨1, 0xfffff000, 0x1000⟩]⟩ : RangeSet 3 Nat) :=
    ⟨⟨⟨by decide, by decide, by decide⟩, by decide⟩, List.pairwise_pair.2 (show _ ≤ _ by decide)⟩
  have hholds : Holds 3 ⟨[⟨0, 0x1000, 0x1000⟩, ⟨1, 0xfffff000, 0x1000⟩, ⟨0, 0, 0⟩], 2⟩
      ([⟨0, 0x1000, 0x1000⟩, ⟨1, 0xfffff000, 0x1000⟩] : List (Range Nat)) := ⟨rfl, rfl, [⟨0, 0, 0⟩], rfl⟩
  have he : (⟨1, 0xfffff800, 0x800⟩ : Range Nat).Fits .arm := by decide
  rcases excludeRange_difference .arm hholds hapart (by decide) he (by decide) with
    ⟨a', live', hrun, hholds, hapart', haddrs, -⟩
  exact ⟨a', live', hrun, hholds, hapart', haddrs⟩

end RangeArray
end Propeller
