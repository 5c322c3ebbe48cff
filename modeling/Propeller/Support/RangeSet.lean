import Mathlib.Logic.Relation
import Propeller.Support.Range

/-!
# Support.RangeSet — the fixed-size, ordered set of ranges

The set keeps its first `count` ranges in order; here they are a list, and `count` is its length.
`insert_range` keeps the list sorted by base.  `exclude_range` does so unless a range that reaches
beyond the exclusion range stands before one that starts below it: the part behind the hole is then
put before that range.  `trim_overlapping_ranges` moves the ranges behind a merged pair but leaves the
count as it is, so that the last range is there twice and the loop never ends.
-/

namespace Propeller

structure RangeSet (N : Nat) (τ : Type) where
  ranges : List (Range τ)
  deriving DecidableEq, Repr

namespace RangeSet

variable {N : Nat} {τ : Type}

def new : RangeSet N τ :=
  ⟨[]⟩

def count (s : RangeSet N τ) : Nat :=
  s.ranges.length

def getRanges (s : RangeSet N τ) : List (Range τ) :=
  s.ranges

def isEmpty (s : RangeSet N τ) : Bool :=
  s.count == 0

/-- Where `insert_range` puts a range: before the first one with a larger base. -/
def insertIndex (range : Range τ) (ranges : List (Range τ)) : Nat :=
  ranges.findIdx fun r => range.base < r.base

def insertRange (A : Arch) (range : Range τ) (s : RangeSet N τ) : Bool × RangeSet N τ :=
  if N ≤ s.count then (false, s)
  else if range.size = 0 ∨ A.wordLimit - 1 - range.size + 1 < range.base then (false, s)
  else
    let ins := insertIndex range s.ranges
    (true, ⟨s.ranges.take ins ++ range :: s.ranges.drop ins⟩)

/-- The loop of `exclude_range`: `done` are the ranges before the index.  The flag is false if the loop
was left because two ranges could not be compared. -/
def excludeLoop (P : Profile) (A : Arch) (N : Nat) (excl : Range τ) (done : List (Range τ)) :
    List (Range τ) → Run (Bool × List (Range τ))
  | [] => .ok (true, done)
  | r :: rest => do
      match ← r.exclude P A excl with
      | none => return (false, done ++ r :: rest)
      | some (some a, some b) =>
          if done.length + (rest.length + 1) < N then excludeLoop P A N excl (done ++ [a, b]) rest
          else .error .rangeSetFull
      | some (some a, none) => excludeLoop P A N excl (done ++ [a]) rest
      | some (none, some b) => excludeLoop P A N excl (done ++ [b]) rest
      | some (none, none) => excludeLoop P A N excl done rest

/-- `trim_empty_ranges`. -/
def trimEmptyRanges (ranges : List (Range τ)) : List (Range τ) :=
  ranges.filter Range.nonempty

def excludeRange (P : Profile) (A : Arch) (excl : Range τ) (s : RangeSet N τ) : Run (RangeSet N τ) := do
  let (finished, ranges) ← excludeLoop P A N excl [] s.ranges
  if finished then return ⟨trimEmptyRanges ranges⟩ else return ⟨ranges⟩

/-- `copy_within(src..count, dest)`; the count does not change. -/
def copyWithin (ranges : List (Range τ)) (src dest : Nat) : List (Range τ) :=
  ranges.take dest ++ ranges.drop src ++ ranges.drop (dest + (ranges.length - src))

def getRange (ranges : List (Range τ)) (i : Nat) : Run (Range τ) :=
  match ranges[i]? with
  | some r => .ok r
  | none => .error .index

/-- The loop of `trim_overlapping_ranges`. -/
def trimLoop (P : Profile) (A : Arch) : Nat → Nat → List (Range τ) → Run (List (Range τ))
  | 0, _, _ => .error .diverges
  | fuel + 1, i, ranges =>
      if i < ranges.length - 1 then do
        let r ← getRange ranges i
        let next ← getRange ranges (i + 1)
        match ← r.cmp P A next with
        | none => .error .unwrap
        | some .equal | some .superset => trimLoop P A fuel i (copyWithin ranges (i + 2) (i + 1))
        | some .subset => trimLoop P A fuel i (copyWithin ranges (i + 1) i)
        | some .lessEqual | some .greaterEqual => do
            let stop ← addWord P A next.base next.size
            let size ← subWord P A stop r.base
            trimLoop P A fuel i (copyWithin (ranges.set i { r with size }) (i + 2) (i + 1))
        | some .less | some .greater => trimLoop P A fuel (i + 1) ranges
      else .ok ranges

def trimOverlappingRanges (P : Profile) (A : Arch) (fuel : Nat) (ranges : List (Range τ)) :
    Run (List (Range τ)) :=
  if ranges.length < 2 then .ok ranges else trimLoop P A fuel 0 ranges

def trimRanges (P : Profile) (A : Arch) (fuel : Nat) (s : RangeSet N τ) : Run (RangeSet N τ) := do
  let ranges ← trimOverlappingRanges P A fuel s.ranges
  return ⟨trimEmptyRanges ranges⟩

variable {A : Arch} {P : Profile} {s s' : RangeSet N τ} {r e : Range τ} {ranges out : List (Range τ)}

/-! ## The invariant -/

/-- The ranges are sorted by base, none is empty, and the set has room for them. -/
structure InOrder (s : RangeSet N τ) : Prop where
  sorted : s.ranges.Pairwise fun r r' => r.base ≤ r'.base
  pos : ∀ r ∈ s.ranges, 0 < r.size
  count : s.count ≤ N

/-- An ordered set of ranges within the address space. -/
structure Ordered (A : Arch) (s : RangeSet N τ) : Prop extends InOrder s where
  fits : ∀ r ∈ s.ranges, r.Fits A

theorem new_ordered : Ordered A (new : RangeSet N τ) where
  sorted := List.Pairwise.nil
  pos := by simp [new]
  count := Nat.zero_le _
  fits := by simp [new]

/-- The ranges before the index start no later than the new one, those behind it later. -/
theorem insertIndex_spec (r : Range τ) (hs : ranges.Pairwise fun r r' => r.base ≤ r'.base) :
    (∀ x ∈ ranges.take (insertIndex r ranges), x.base ≤ r.base) ∧
      ∀ x ∈ ranges.drop (insertIndex r ranges), r.base < x.base := by
  constructor
  · intro x hx
    rcases List.mem_take_iff_getElem.1 hx with ⟨i, hi, rfl⟩
    have hlt : i < ranges.findIdx fun x => r.base < x.base := (Nat.lt_min.1 hi).1
    have hnot := List.not_of_lt_findIdx hlt
    simpa using hnot
  · intro x hx
    rcases List.mem_drop_iff_getElem.1 hx with ⟨i, hi, rfl⟩
    have hlt : (ranges.findIdx fun x => r.base < x.base) < ranges.length := by
      rw [insertIndex] at hi
      omega
    -- The index is the first greater base, and the list is sorted from there on.
    have hfound : r.base < (ranges[ranges.findIdx fun x => r.base < x.base]).base := by
      have hget := List.findIdx_getElem (w := hlt)
      simpa using hget
    rcases Nat.eq_zero_or_pos i with rfl | hpos
    · exact hfound
    · have hle := List.pairwise_iff_getElem.1 hs _ (insertIndex r ranges + i) hlt (by omega)
        (by rw [insertIndex]; omega)
      exact hfound.trans_le hle

/-- The list with the new range in its place. -/
def insertAt (r : Range τ) (ranges : List (Range τ)) : List (Range τ) :=
  ranges.take (insertIndex r ranges) ++ r :: ranges.drop (insertIndex r ranges)

theorem insertAt_perm (r : Range τ) (ranges : List (Range τ)) :
    (insertAt r ranges).Perm (r :: ranges) := by
  have hsplit : (ranges.take (insertIndex r ranges) ++ ranges.drop (insertIndex r ranges)) = ranges :=
    List.take_append_drop _ _
  have hperm : (insertAt r ranges).Perm
      (r :: (ranges.take (insertIndex r ranges) ++ ranges.drop (insertIndex r ranges))) :=
    List.perm_middle
  rwa [hsplit] at hperm

theorem insertAt_sorted (hs : ranges.Pairwise fun r r' => r.base ≤ r'.base) :
    (insertAt r ranges).Pairwise fun r r' => r.base ≤ r'.base := by
  rcases insertIndex_spec r hs with ⟨hbefore, hbehind⟩
  refine List.pairwise_append.2 ⟨hs.sublist (List.take_sublist _ _), ?_, ?_⟩
  · refine List.pairwise_cons.2 ⟨fun x hx => (hbehind x hx).le, ?_⟩
    exact hs.sublist (List.drop_sublist _ _)
  · intro x hx y hy
    rcases List.mem_cons.1 hy with rfl | hy
    · exact hbefore x hx
    · exact (hbefore x hx).trans (hbehind y hy).le

theorem Ordered.insertRange (h : Ordered A s) (hr : r.size < A.wordLimit) :
    Ordered A (insertRange A r s).2 := by
  rw [RangeSet.insertRange]
  split
  · exact h
  · split
    · exact h
    · rename_i hroom hok
      -- The checks are over: the range is new, positive and inside the word.
      have hperm := insertAt_perm r s.ranges
      refine ⟨⟨insertAt_sorted h.sorted, ?_, ?_⟩, ?_⟩
      · intro x hx
        rcases List.mem_cons.1 (hperm.mem_iff.1 hx) with rfl | hx
        · omega
        · exact h.pos x hx
      · have hlen := hperm.length_eq
        have hcount : s.count = s.ranges.length := rfl
        show (insertAt r s.ranges).length ≤ N
        rw [hlen, List.length_cons]
        omega
      · intro x hx
        rcases List.mem_cons.1 (hperm.mem_iff.1 hx) with rfl | hx
        · refine ⟨by omega, ?_⟩
          rw [Range.stop]
          omega
        · exact h.fits x hx

/-! ## Exclusion -/

/-- One round of the loop: the range is replaced by the pieces that `exclude` returns, if there is room. -/
theorem excludeLoop_cons {rest : List (Range τ)} {split : Option (Range τ) × Option (Range τ)}
    (done : List (Range τ)) (h : r.exclude P A e = .ok (some split)) :
    excludeLoop P A N e done (r :: rest) =
      if (Range.pieces split).length = 2 ∧ N ≤ done.length + (rest.length + 1) then
        .error .rangeSetFull
      else excludeLoop P A N e (done ++ Range.pieces split) rest := by
  rw [excludeLoop, h]
  match split with
  | (some a, some b) =>
      by_cases hroom : done.length + (rest.length + 1) < N
      · simp [Range.pieces, hroom]
      · simp [Range.pieces, hroom, Nat.le_of_not_lt hroom]
  | (some a, none) => simp [Range.pieces]
  | (none, some b) => simp [Range.pieces]
  | (none, none) => simp [Range.pieces]

theorem length_pieces_le (split : Option (Range τ) × Option (Range τ)) :
    (Range.pieces split).length ≤ 2 := by
  match split with
  | (some a, some b) => simp [Range.pieces]
  | (some a, none) => simp [Range.pieces]
  | (none, some b) => simp [Range.pieces]
  | (none, none) => simp [Range.pieces]

/-- Whenever the loop returns, it has replaced every range by what the excluded one leaves of it. -/
theorem excludeLoop_eq_ok {done rest : List (Range τ)} {finished : Bool} (he : e.Fits A)
    (he0 : 0 < e.size) (hfits : ∀ r ∈ rest, r.Fits A) (hpos : ∀ r ∈ rest, 0 < r.size)
    (h : excludeLoop P A N e done rest = .ok (finished, out)) :
    finished = true ∧
      trimEmptyRanges out = trimEmptyRanges done ++ rest.flatMap (Range.minus e) ∧
      (done.length + rest.length ≤ N → out.length ≤ N) := by
  induction rest generalizing done with
  | nil =>
      obtain ⟨rfl, rfl⟩ := Prod.mk.inj (Except.ok.inj h)
      exact ⟨rfl, by simp, by simp⟩
  | cons r rest ih =>
      have hr0 := hpos r List.mem_cons_self
      have hrun : ∃ split, r.exclude P A e = .ok split := by
        rcases run_bind_eq_ok.1 h with ⟨split, hsplit, -⟩
        exact ⟨split, hsplit⟩
      rcases hrun with ⟨split, hsplit⟩
      rcases Range.exclude_eq_ok (hfits r List.mem_cons_self) he hr0 he0 hsplit with ⟨parts, rfl, hparts⟩
      rw [excludeLoop_cons done hsplit] at h
      split at h
      · cases h
      · rename_i hroom
        rcases ih (fun x hx => hfits x (List.mem_cons_of_mem _ hx))
          (fun x hx => hpos x (List.mem_cons_of_mem _ hx)) h with ⟨hfin, htrim, hlen⟩
        refine ⟨hfin, ?_, ?_⟩
        · -- Empty pieces stay in the list until the loop is over, so only the trimmed lists agree.
          rw [htrim, List.flatMap_cons, ← Range.filter_pieces hr0 he0 hparts]
          simp [trimEmptyRanges, List.filter_append]
        · intro hle
          have htwo := length_pieces_le parts
          rw [List.length_cons] at hle
          refine hlen ?_
          rw [List.length_append]
          omega

/-- The loop returns unless the set is full, if the excluded range ends within the address space. -/
theorem excludeLoop_returns (P : Profile) (N : Nat) (done : List (Range τ)) {rest : List (Range τ)}
    (he : e.Fits A) (he0 : 0 < e.size)
    (hend : e.stop < A.wordLimit) (hfits : ∀ r ∈ rest, r.Fits A) (hpos : ∀ r ∈ rest, 0 < r.size) :
    excludeLoop P A N e done rest = .error .rangeSetFull ∨
      ∃ out, excludeLoop P A N e done rest = .ok out := by
  induction rest generalizing done with
  | nil => exact Or.inr ⟨_, rfl⟩
  | cons r rest ih =>
      rcases Range.exclude_returns P (hfits r List.mem_cons_self) he (hpos r List.mem_cons_self) he0 hend
        with ⟨parts, hsplit, -⟩
      rw [excludeLoop_cons done hsplit]
      split
      · exact Or.inl rfl
      · exact ih _ (fun x hx => hfits x (List.mem_cons_of_mem _ hx))
          (fun x hx => hpos x (List.mem_cons_of_mem _ hx))

/-- An empty exclusion range changes nothing: the loop is left at the first range. -/
theorem excludeRange_of_empty (he : e.size = 0) : excludeRange P A e s = .ok s := by
  rcases s with ⟨ranges⟩
  cases ranges with
  | nil => rfl
  | cons r rest =>
      have hcmp : r.exclude P A e = .ok none := by
        rw [Range.exclude, Range.cmp, if_pos (Or.inr he)]
        rfl
      rw [excludeRange, excludeLoop, hcmp]
      rfl

/-- Whenever `exclude_range` returns, each range is replaced by what the excluded one leaves of it. -/
theorem excludeRange_eq_ok (hs : Ordered A s) (he : e.Fits A) (he0 : 0 < e.size)
    (h : excludeRange P A e s = .ok s') :
    s'.ranges = s.ranges.flatMap (Range.minus e) ∧ s'.count ≤ N := by
  rcases run_bind_eq_ok.1 h with ⟨⟨finished, out⟩, hloop, hret⟩
  rcases excludeLoop_eq_ok he he0 hs.fits hs.pos hloop with ⟨rfl, htrim, hlen⟩
  obtain rfl := Except.ok.inj hret
  refine ⟨by simpa [trimEmptyRanges] using htrim, ?_⟩
  calc (trimEmptyRanges out).length ≤ out.length := List.length_filter_le _ _
    _ ≤ N := hlen (by simpa [count] using hs.count)

theorem excludeRange_returns (P : Profile) (hs : Ordered A s) (he : e.Fits A)
    (hend : e.stop < A.wordLimit) :
    excludeRange P A e s = .error .rangeSetFull ∨ ∃ s', excludeRange P A e s = .ok s' := by
  rcases Nat.eq_zero_or_pos e.size with he0 | he0
  · exact Or.inr ⟨s, excludeRange_of_empty he0⟩
  · rcases excludeLoop_returns P N [] he he0 hend hs.fits hs.pos with hfull | ⟨out, hout⟩
    · left
      rw [excludeRange, hfull]
      rfl
    · right
      rcases out with ⟨finished, ranges⟩
      rw [excludeRange, hout, run_ok_bind]
      cases finished with
      | true => exact ⟨_, rfl⟩
      | false => exact ⟨_, rfl⟩

/-! ## When exclusion keeps the order -/

/-- No range that reaches beyond `e` stands before one that starts below `e`. -/
def KeepsOrder (e : Range τ) (ranges : List (Range τ)) : Prop :=
  ranges.Pairwise fun r r' => r'.base < e.base → r.stop ≤ e.stop

instance (e : Range τ) (ranges : List (Range τ)) : Decidable (KeepsOrder e ranges) :=
  inferInstanceAs (Decidable (ranges.Pairwise fun r r' => r'.base < e.base → r.stop ≤ e.stop))

/-- A part is the lower one, of a range that starts below `e`, or the upper one, of a range that reaches
beyond `e`. -/
theorem mem_minus_base {p : Range τ} (hp : p ∈ Range.minus e r) :
    p.base = r.base ∧ r.base < e.base ∨ p.base = max r.base e.stop ∧ e.stop < r.stop := by
  rcases List.mem_filter.1 hp with ⟨hmem, hpos⟩
  have hpos' : 0 < p.size := of_decide_eq_true hpos
  rcases List.mem_cons.1 hmem with rfl | hmem
  · left
    simp only at hpos'
    exact ⟨rfl, by omega⟩
  · right
    obtain rfl := List.mem_singleton.1 hmem
    simp only at hpos'
    exact ⟨rfl, by omega⟩

theorem lower_mem_minus (hlo : r.base < e.base) (hr : 0 < r.size) :
    ∃ p ∈ Range.minus e r, p.base = r.base := by
  refine ⟨_, List.mem_filter.2 ⟨List.mem_cons_self, decide_eq_true ?_⟩, rfl⟩
  simp only [Range.stop]
  omega

theorem upper_mem_minus (hhi : e.stop < r.stop) (hr : 0 < r.size) :
    ∃ p ∈ Range.minus e r, p.base = max r.base e.stop := by
  refine ⟨_, List.mem_filter.2 ⟨List.mem_cons_of_mem _ List.mem_cons_self, decide_eq_true ?_⟩, rfl⟩
  have hstop : r.stop = r.base + r.size := rfl
  simp only
  omega

/-- The parts of two ranges in order are in order exactly if the first does not reach beyond `e` or the
second does not start below it. -/
theorem minus_le_iff {r' : Range τ} (hle : r.base ≤ r'.base) (hr : 0 < r.size) (hr' : 0 < r'.size) :
    (∀ p ∈ Range.minus e r, ∀ p' ∈ Range.minus e r', p.base ≤ p'.base) ↔
      (r'.base < e.base → r.stop ≤ e.stop) := by
  have he : e.stop = e.base + e.size := rfl
  constructor
  · intro h hlt
    by_contra hhi
    rcases upper_mem_minus (e := e) (by omega) hr with ⟨p, hp, hpbase⟩
    rcases lower_mem_minus hlt hr' with ⟨p', hp', hp'base⟩
    have := h p hp p' hp'
    omega
  · intro h p hp p' hp'
    rcases mem_minus_base hp with ⟨hp, -⟩ | ⟨hp, hbeyond⟩
    · -- The lower part of the first range starts where the range does.
      rcases mem_minus_base hp' with ⟨hp', -⟩ | ⟨hp', -⟩ <;> omega
    · rcases mem_minus_base hp' with ⟨-, hlt⟩ | ⟨hp', -⟩
      · have := h hlt
        omega
      · omega

/-- The two parts of one range are in order. -/
theorem minus_sorted (e r : Range τ) : (Range.minus e r).Pairwise fun p p' => p.base ≤ p'.base := by
  refine List.Pairwise.filter _ ?_
  simp [Range.parts]

/-- What is left of a sorted list is sorted exactly if the excluded range keeps the order. -/
theorem flatMap_minus_sorted_iff (hs : ranges.Pairwise fun r r' => r.base ≤ r'.base)
    (hpos : ∀ r ∈ ranges, 0 < r.size) :
    (ranges.flatMap (Range.minus e)).Pairwise (fun r r' => r.base ≤ r'.base) ↔
      KeepsOrder e ranges := by
  rw [List.pairwise_flatMap]
  constructor
  · rintro ⟨-, h⟩
    refine List.Pairwise.imp_of_mem ?_ (hs.and h)
    intro r r' hr hr' ⟨hle, hparts⟩
    exact (minus_le_iff hle (hpos r hr) (hpos r' hr')).1 hparts
  · intro h
    refine ⟨fun r _ => minus_sorted e r, ?_⟩
    refine List.Pairwise.imp_of_mem ?_ (hs.and h)
    intro r r' hr hr' ⟨hle, hkeeps⟩
    exact (minus_le_iff hle (hpos r hr) (hpos r' hr')).2 hkeeps

/-- Every stored range of a set that `exclude_range` returns is not empty and ends within the address
space. -/
theorem flatMap_minus_fits (hs : Ordered A s) {p : Range τ} (hp : p ∈ s.ranges.flatMap (Range.minus e)) :
    0 < p.size ∧ p.Fits A := by
  rcases List.mem_flatMap.1 hp with ⟨r, hr, hp⟩
  rcases Range.mem_minus hp with ⟨-, hpos, hlo, hhi, -⟩
  have hfits := hs.fits r hr
  have hle := hfits.le
  have hstop : p.stop = p.base + p.size := rfl
  exact ⟨hpos, by omega, by omega⟩

/-- What `exclude_range` returns lies within the address space. -/
theorem excludeRange_fits (hs : Ordered A s) (he : e.Fits A) (h : excludeRange P A e s = .ok s') :
    ∀ r ∈ s'.ranges, r.Fits A := by
  intro r hr
  rcases Nat.eq_zero_or_pos e.size with he0 | he0
  · rw [excludeRange_of_empty he0] at h
    obtain rfl := Except.ok.inj h
    exact hs.fits r hr
  · rw [(excludeRange_eq_ok hs he he0 h).1] at hr
    exact (flatMap_minus_fits hs hr).2

/-- After `exclude_range`, the set is in order exactly if the excluded range keeps the order. -/
theorem excludeRange_inOrder_iff (hs : Ordered A s) (he : e.Fits A)
    (h : excludeRange P A e s = .ok s') :
    InOrder s' ↔ (0 < e.size → KeepsOrder e s.ranges) := by
  rcases Nat.eq_zero_or_pos e.size with he0 | he0
  · rw [excludeRange_of_empty he0] at h
    obtain rfl := Except.ok.inj h
    exact ⟨fun _ hpos => by omega, fun _ => hs.toInOrder⟩
  · rcases excludeRange_eq_ok hs he he0 h with ⟨hranges, hcount⟩
    have hiff := flatMap_minus_sorted_iff (e := e) hs.sorted hs.pos
    constructor
    · intro hord _
      refine hiff.1 ?_
      have hsorted := hord.sorted
      rwa [hranges] at hsorted
    · intro hkeeps
      refine ⟨?_, ?_, hcount⟩
      · rw [hranges]
        exact hiff.2 (hkeeps he0)
      · intro p hp
        rw [hranges] at hp
        exact (flatMap_minus_fits hs hp).1

/-! ## Runs of insertions and exclusions -/

inductive Op (τ : Type)
  | insert (range : Range τ)
  | exclude (excl : Range τ)
  deriving DecidableEq, Repr

namespace Op

/-- The arguments are words, no range wraps, and no exclusion range ends at `usize::MAX`. -/
def Valid (A : Arch) : Op τ → Prop
  | .insert range => range.Fits A ∧ range.size < A.wordLimit
  | .exclude excl => excl.Fits A ∧ excl.stop < A.wordLimit

instance (A : Arch) (op : Op τ) : Decidable (op.Valid A) :=
  match op with
  | .insert range => inferInstanceAs (Decidable (range.Fits A ∧ range.size < A.wordLimit))
  | .exclude excl => inferInstanceAs (Decidable (excl.Fits A ∧ excl.stop < A.wordLimit))

def apply (P : Profile) (A : Arch) (s : RangeSet N τ) : Op τ → Run (RangeSet N τ)
  | .insert range => .ok (insertRange A range s).2
  | .exclude excl => excludeRange P A excl s

/-- The operation does not put the part behind a hole before a range that starts below the hole. -/
def Keeps (s : RangeSet N τ) : Op τ → Prop
  | .insert _ => True
  | .exclude excl => 0 < excl.size → KeepsOrder excl s.ranges

end Op

/-- The operations, one after the other; the run stops if the set is full. -/
def runOps (P : Profile) (A : Arch) (ops : List (Op τ)) (s : RangeSet N τ) : Run (RangeSet N τ) :=
  ops.foldlM (fun s op => op.apply P A s) s

/-- One step from an ordered set: the order is kept exactly if the operation keeps it. -/
theorem apply_inOrder_iff {op : Op τ} (hs : Ordered A s) (hop : op.Valid A)
    (h : op.apply P A s = .ok s') : InOrder s' ↔ op.Keeps s := by
  cases op with
  | insert range =>
      obtain rfl := Except.ok.inj h
      exact ⟨fun _ => trivial, fun _ => (hs.insertRange hop.2).toInOrder⟩
  | exclude excl => exact excludeRange_inOrder_iff hs hop.1 h

theorem apply_fits {op : Op τ} (hs : Ordered A s) (hop : op.Valid A)
    (h : op.apply P A s = .ok s') : ∀ r ∈ s'.ranges, r.Fits A := by
  cases op with
  | insert range =>
      obtain rfl := Except.ok.inj h
      exact (hs.insertRange hop.2).fits
  | exclude excl => exact excludeRange_fits hs hop.1 h

theorem runOps_cons_eq_ok {op : Op τ} {ops : List (Op τ)} :
    runOps P A (op :: ops) s = .ok s' ↔
      ∃ t, op.apply P A s = .ok t ∧ runOps P A ops t = .ok s' := by
  rw [runOps, List.foldlM_cons]
  exact run_bind_eq_ok

/-- A valid operation stops only if the set is full. -/
theorem apply_returns {op : Op τ} (P : Profile) (hs : Ordered A s) (hop : op.Valid A) :
    op.apply P A s = .error .rangeSetFull ∨ ∃ s', op.apply P A s = .ok s' := by
  cases op with
  | insert range => exact Or.inr ⟨_, rfl⟩
  | exclude excl => exact excludeRange_returns P hs hop.1 hop.2

theorem runOps_ordered_iff {ops : List (Op τ)} (hs : Ordered A s) (hops : ∀ op ∈ ops, op.Valid A)
    (hrun : runOps P A ops s = .ok s') :
    (∀ k ≤ ops.length, ∀ t, runOps P A (ops.take k) s = .ok t → InOrder t) ↔
      ∀ k op t, ops[k]? = some op → runOps P A (ops.take k) s = .ok t → op.Keeps t := by
  -- Along the run; the set before each step is ordered on either side of the equivalence.
  induction ops generalizing s with
  | nil =>
      constructor
      · intro _ k op t hop
        simp at hop
      · intro _ k _ t ht
        rw [List.take_nil] at ht
        obtain rfl := Except.ok.inj ht
        exact hs.toInOrder
  | cons op ops ih =>
      have hvalid := hops op List.mem_cons_self
      rcases runOps_cons_eq_ok.1 hrun with ⟨u, hu, hrest⟩
      have hstep := apply_inOrder_iff hs hvalid hu
      have hfits := apply_fits hs hvalid hu
      have ih' := fun hord : InOrder u =>
        ih ⟨hord, hfits⟩ (fun o ho => hops o (List.mem_cons_of_mem _ ho)) hrest
      constructor
      · intro hall
        have hord : InOrder u := hall 1 (by simp) u (runOps_cons_eq_ok.2 ⟨u, hu, rfl⟩)
        have hall' := (ih' hord).1 fun k hk t ht =>
          hall (k + 1) (by simpa using hk) t (runOps_cons_eq_ok.2 ⟨u, hu, ht⟩)
        intro k o t ho ht
        cases k with
        | zero =>
            obtain rfl := Except.ok.inj ht
            obtain rfl := Option.some.inj ho
            exact hstep.1 hord
        | succ k =>
            rcases runOps_cons_eq_ok.1 ht with ⟨u', hu', ht⟩
            obtain rfl := Except.ok.inj (hu.symm.trans hu')
            exact hall' k o t ho ht
      · intro hkeeps
        have hord : InOrder u := hstep.2 (hkeeps 0 op s rfl rfl)
        have hall' := (ih' hord).2 fun k o t ho ht =>
          hkeeps (k + 1) o t ho (runOps_cons_eq_ok.2 ⟨u, hu, ht⟩)
        intro k hk t ht
        cases k with
        | zero =>
            obtain rfl := Except.ok.inj ht
            exact hs.toInOrder
        | succ k =>
            rcases runOps_cons_eq_ok.1 ht with ⟨u', hu', ht⟩
            obtain rfl := Except.ok.inj (hu.symm.trans hu')
            exact hall' k (by simpa using hk) t ht

/-- Along every run from the empty set that does not fill it, the set is in order in every state reached
exactly if every exclusion keeps the order of the set it meets. -/
theorem runOps_inOrder_iff (P : Profile) (A : Arch) (ops : List (Op τ)) (s : RangeSet N τ)
    (hops : ∀ op ∈ ops, op.Valid A) (hrun : runOps P A ops new = .ok s) :
    (∀ k ≤ ops.length, ∀ t : RangeSet N τ, runOps P A (ops.take k) new = .ok t → InOrder t) ↔
      ∀ k op (t : RangeSet N τ), ops[k]? = some op → runOps P A (ops.take k) new = .ok t → op.Keeps t :=
  runOps_ordered_iff new_ordered hops hrun

/-- A hole in the only range of the set. -/
theorem runOps_inOrder_hole :
    runOps .dev .arm [Op.insert ⟨(), 0, 100⟩, .exclude ⟨(), 30, 10⟩] (new : RangeSet 64 Unit) =
        .ok ⟨[⟨(), 0, 30⟩, ⟨(), 40, 60⟩]⟩ ∧
      ∀ k ≤ 2, ∀ t : RangeSet 64 Unit,
        runOps .dev .arm ([Op.insert ⟨(), 0, 100⟩, .exclude ⟨(), 30, 10⟩].take k) new = .ok t → InOrder t := by
  refine ⟨by decide, (runOps_inOrder_iff .dev .arm [Op.insert ⟨(), 0, 100⟩, .exclude ⟨(), 30, 10⟩]
    ⟨[⟨(), 0, 30⟩, ⟨(), 40, 60⟩]⟩ (by decide) (by decide)).2 ?_⟩
  intro k op t hop ht
  match k with
  | 0 =>
      obtain rfl := Option.some.inj hop
      trivial
  | 1 =>
      obtain rfl := Option.some.inj hop
      obtain rfl := Except.ok.inj ht
      intro _
      show KeepsOrder ⟨(), 30, 10⟩ [⟨(), 0, 100⟩]
      decide
  | k + 2 => simp at hop

/-- The second range lies before the hole, and stands behind the part behind the hole. -/
theorem runOps_breaks_order :
    let ops := [Op.insert ⟨(), 0, 100⟩, .insert ⟨(), 10, 10⟩, .exclude ⟨(), 30, 10⟩]
    (∀ op ∈ ops, op.Valid .arm) ∧ ∃ s : RangeSet 64 Unit, runOps .dev .arm ops new = .ok s ∧
      ¬ s.ranges.Pairwise fun r r' => r.base ≤ r'.base := by
  refine ⟨by decide, ⟨[⟨(), 0, 30⟩, ⟨(), 40, 60⟩, ⟨(), 10, 10⟩]⟩, by decide, by decide⟩

end RangeSet
end Propeller
