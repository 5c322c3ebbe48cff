import Mathlib.Data.List.Basic
import Mathlib.Order.Interval.Set.Defs
import Propeller.Support.Word

/-!
# Support.Range — ranges of addresses

A range is `[base, base + size)`.  On ranges that end within the address space the two profiles of a build
differ in one place only: behind an exclusion range that ends at `usize::MAX`.

* `Range.minus` — the parts of a range that an exclusion range leaves;
* `exclude_spec` — `exclude` returns these parts, and maybe empty ones besides.
-/

namespace Propeller

/-! ## Ranges -/

inductive RangeOrdering
  | less
  | lessEqual
  | greaterEqual
  | greater
  | equal
  | superset
  | subset
  deriving DecidableEq, Repr

structure Range (τ : Type) where
  tag : τ
  base : Nat
  size : Nat
  deriving DecidableEq, Repr

namespace Range

variable {τ : Type} {r s e : Range τ} {x : Nat}

/-- The ordering of two ranges with the given last addresses. -/
def order (r rhs : Range τ) (lhsEnd rhsEnd : Nat) : RangeOrdering :=
  if r.base = rhs.base ∧ r.size = rhs.size then .equal
  else if lhsEnd < rhs.base then .less
  else if rhsEnd < r.base then .greater
  else if r.base ≤ rhs.base ∧ rhsEnd ≤ lhsEnd then .superset
  else if rhs.base ≤ r.base ∧ lhsEnd ≤ rhsEnd then .subset
  else if r.base < rhs.base then .lessEqual
  else .greaterEqual

def cmp (P : Profile) (A : Arch) (r rhs : Range τ) : Run (Option RangeOrdering) :=
  if r.size = 0 ∨ rhs.size = 0 then .ok none
  else do
    let lhsEnd ← addWord P A r.base (r.size - 1)
    let rhsEnd ← addWord P A rhs.base (rhs.size - 1)
    return some (r.order rhs lhsEnd rhsEnd)

/-- The part of `exclude` for ranges that overlap. -/
def excludeOverlap (P : Profile) (A : Arch) (r excl : Range τ) (order : RangeOrdering) :
    Run (Option (Range τ) × Option (Range τ)) := do
  let myEnd ← addWord P A r.base (r.size - 1)
  let exclEnd ← addWord P A excl.base (excl.size - 1)
  let a ← match order with
    | .lessEqual | .superset => do
        let size ← subWord P A excl.base r.base
        pure (some { r with size })
    | _ => pure none
  let b ← match order with
    | .greaterEqual | .superset => do
        let base ← addWord P A exclEnd 1
        let size ← subWord P A myEnd exclEnd
        pure (some { r with base, size })
    | _ => pure none
  return (a, b)

/-- `exclude`; the outer option is none for ranges that cannot be compared. -/
def exclude (P : Profile) (A : Arch) (r excl : Range τ) :
    Run (Option (Option (Range τ) × Option (Range τ))) := do
  match ← r.cmp P A excl with
  | none => return none
  | some .less | some .greater => return some (some r, none)
  | some .equal | some .subset => return some (none, none)
  | some order => do
      let split ← r.excludeOverlap P A excl order
      return some split

/-- `split`; the outer option is none for an empty range. -/
def split (P : Profile) (A : Arch) (r : Range τ) (splitAt : Nat) :
    Run (Option (Option (Range τ) × Option (Range τ))) :=
  if r.size = 0 then .ok none
  else do
    let myEnd ← addWord P A r.base (r.size - 1)
    if splitAt ≤ r.base then return some (none, some r)
    else if myEnd < splitAt then return some (some r, none)
    else do
      let low ← subWord P A splitAt r.base
      let high ← subWord P A myEnd splitAt
      let high ← addWord P A high 1
      return some (some { r with size := low }, some { r with base := splitAt, size := high })

/-! ## What ranges cover -/

/-- The end of a range, not included. -/
def stop (r : Range τ) : Nat :=
  r.base + r.size

/-- The addresses of a range. -/
def addrs (r : Range τ) : Set Nat :=
  Set.Ico r.base r.stop

/-- The range starts within the address space and ends at its end at last. -/
structure Fits (A : Arch) (r : Range τ) : Prop where
  lt : r.base < A.wordLimit
  le : r.stop ≤ A.wordLimit

instance (A : Arch) (r : Range τ) : Decidable (r.Fits A) :=
  decidable_of_iff (r.base < A.wordLimit ∧ r.stop ≤ A.wordLimit)
    ⟨fun h => ⟨h.1, h.2⟩, fun h => ⟨h.lt, h.le⟩⟩

/-- The two parts of `r` beside `e`, which may be empty. -/
def parts (e r : Range τ) : List (Range τ) :=
  [{ r with size := min r.stop e.base - r.base },
    { r with base := max r.base e.stop, size := r.stop - max r.base e.stop }]

/-- The range has an address. -/
def nonempty (r : Range τ) : Bool :=
  decide (0 < r.size)

/-- What `e` leaves of `r`. -/
def minus (e r : Range τ) : List (Range τ) :=
  (parts e r).filter nonempty

theorem mem_addrs : x ∈ r.addrs ↔ r.base ≤ x ∧ x < r.base + r.size :=
  Iff.rfl

theorem cmp_eq (hr : r.Fits A) (hs : s.Fits A) (hr0 : 0 < r.size) (hs0 : 0 < s.size) :
    r.cmp P A s = .ok (some (r.order s (r.stop - 1) (s.stop - 1))) := by
  have hrle := hr.le
  have hsle := hs.le
  rw [stop] at hrle hsle
  have hlhs : r.base + (r.size - 1) = r.stop - 1 := by
    rw [stop]
    omega
  have hrhs : s.base + (s.size - 1) = s.stop - 1 := by
    rw [stop]
    omega
  have hne : ¬ (r.size = 0 ∨ s.size = 0) := by omega
  rw [cmp, if_neg hne, addWord_of_lt (by omega), addWord_of_lt (by omega), hlhs, hrhs]
  rfl

/-- The lower part is behind the range's base, the upper part before its end. -/
def lower (e r : Range τ) : Range τ :=
  { r with size := e.base - r.base }

def upper (e r : Range τ) : Range τ :=
  { r with base := e.stop, size := r.stop - e.stop }

/-- How a range lies to the range that is excluded from it. -/
inductive Lies (e r : Range τ) : RangeOrdering → Prop
  | less : r.stop ≤ e.base → Lies e r .less
  | greater : e.stop ≤ r.base → Lies e r .greater
  | equal : r.base = e.base → r.stop = e.stop → Lies e r .equal
  | subset : e.base ≤ r.base → r.stop ≤ e.stop → Lies e r .subset
  | superset : r.base ≤ e.base → e.stop ≤ r.stop → Lies e r .superset
  | lessEqual : r.base < e.base → e.base < r.stop → r.stop < e.stop → Lies e r .lessEqual
  | greaterEqual : e.base < r.base → r.base < e.stop → e.stop < r.stop → Lies e r .greaterEqual

theorem lies_order (hr0 : 0 < r.size) (he0 : 0 < e.size) :
    Lies e r (r.order e (r.stop - 1) (e.stop - 1)) := by
  have hr : r.stop = r.base + r.size := rfl
  have he : e.stop = e.base + e.size := rfl
  rw [order]
  split
  · exact .equal (by omega) (by omega)
  · split
    · exact .less (by omega)
    · split
      · exact .greater (by omega)
      · split
        · exact .superset (by omega) (by omega)
        · split
          · exact .subset (by omega) (by omega)
          · split
            · exact .lessEqual (by omega) (by omega) (by omega)
            · exact .greaterEqual (by omega) (by omega) (by omega)

/-- The two ranges that `exclude` returns, in order. -/
def pieces (split : Option (Range τ) × Option (Range τ)) : List (Range τ) :=
  split.1.toList ++ split.2.toList

/-- What `exclude` returns.  Where `e` lies inside `r`, both parts are returned, empty or not. -/
inductive Split (e r : Range τ) : Option (Range τ) × Option (Range τ) → Prop
  | apart : r.stop ≤ e.base ∨ e.stop ≤ r.base → Split e r (some r, none)
  | covered : e.base ≤ r.base → r.stop ≤ e.stop → Split e r (none, none)
  | inside (b : Range τ) : r.base ≤ e.base → e.stop ≤ r.stop → b.size = r.stop - e.stop →
      (0 < b.size → b = upper e r) → Split e r (some (lower e r), some b)
  | head : r.base < e.base → e.base < r.stop → r.stop < e.stop → Split e r (some (lower e r), none)
  | tail : e.base < r.base → r.base < e.stop → e.stop < r.stop → Split e r (none, some (upper e r))

/-- The upper part, whatever the addition behind the exclusion range does. -/
theorem upper_cases {base size : Nat} (hr : r.Fits A) (he0 : 0 < e.size)
    (hle : e.stop ≤ r.stop) (hbase : addWord P A (e.stop - 1) 1 = .ok base)
    (hsize : subWord P A (r.stop - 1) (e.stop - 1) = .ok size) :
    size = r.stop - e.stop ∧ (0 < size → base = e.stop) := by
  have hpos : 0 < e.stop := by
    rw [stop]
    omega
  have hrle := hr.le
  rw [subWord_of_le (by omega) (by omega)] at hsize
  have hsize' := Except.ok.inj hsize
  refine ⟨by omega, ?_⟩
  intro hpos'
  rw [addWord_of_lt (by omega)] at hbase
  have hbase' := Except.ok.inj hbase
  omega

theorem excludeOverlap_eq_ok {split : Option (Range τ) × Option (Range τ)} {order : RangeOrdering}
    (hr : r.Fits A) (he : e.Fits A) (hr0 : 0 < r.size) (he0 : 0 < e.size) (hlies : Lies e r order)
    (horder : order = .superset ∨ order = .lessEqual ∨ order = .greaterEqual)
    (h : r.excludeOverlap P A e order = .ok split) : Split e r split := by
  have hrs : r.stop = r.base + r.size := rfl
  have hes : e.stop = e.base + e.size := rfl
  have hrle := hr.le
  have hele := he.le
  have hr1 : r.base + (r.size - 1) = r.stop - 1 := by omega
  have he1 : e.base + (e.size - 1) = e.stop - 1 := by omega
  rw [excludeOverlap, addWord_of_lt (by omega), addWord_of_lt (by omega), hr1, he1] at h
  simp only [run_ok_bind] at h
  -- Both pieces, the one below, the one above.
  rcases horder with rfl | rfl | rfl
  · cases hlies with
    | superset hlo hhi =>
        simp only [subWord_of_le hlo he.lt, run_ok_bind, pure_bind] at h
        rcases run_bind_eq_ok.1 h with ⟨base, hbase, h⟩
        rcases run_bind_eq_ok.1 h with ⟨size, hsize, h⟩
        obtain rfl := Except.ok.inj h
        rcases upper_cases hr he0 hhi hbase hsize with ⟨hsz, hbs⟩
        refine .inside _ hlo hhi hsz ?_
        intro hpos
        rw [upper, hbs hpos, hsz]
  · cases hlies with
    | lessEqual hlt hin hout =>
        simp only [subWord_of_le hlt.le he.lt, run_ok_bind, pure_bind] at h
        obtain rfl := Except.ok.inj h
        exact .head hlt hin hout
  · cases hlies with
    | greaterEqual hlt hin hout =>
        simp only [pure_bind] at h
        rcases run_bind_eq_ok.1 h with ⟨base, hbase, h⟩
        rcases run_bind_eq_ok.1 h with ⟨size, hsize, h⟩
        obtain rfl := Except.ok.inj h
        rcases upper_cases hr he0 hout.le hbase hsize with ⟨hsz, hbs⟩
        have hupper : ({ r with base, size } : Range τ) = upper e r := by
          rw [upper, hbs (by omega), hsz]
        rw [hupper]
        exact .tail hlt hin hout

/-- Whenever `exclude` returns, it returns the parts of the range beside the excluded one. -/
theorem exclude_eq_ok {split : Option (Option (Range τ) × Option (Range τ))} (hr : r.Fits A)
    (he : e.Fits A) (hr0 : 0 < r.size) (he0 : 0 < e.size) (h : r.exclude P A e = .ok split) :
    ∃ parts, split = some parts ∧ Split e r parts := by
  have hlies := lies_order (r := r) hr0 he0
  rw [exclude, cmp_eq hr he hr0 he0] at h
  generalize r.order e (r.stop - 1) (e.stop - 1) = order at hlies h
  simp only [run_ok_bind] at h
  -- One case for each result of `cmp`; the last three share the code behind the match.
  cases hlies with
  | less hle =>
      obtain rfl := Except.ok.inj h
      exact ⟨_, rfl, .apart (Or.inl hle)⟩
  | greater hle =>
      obtain rfl := Except.ok.inj h
      exact ⟨_, rfl, .apart (Or.inr hle)⟩
  | equal hlo hhi =>
      obtain rfl := Except.ok.inj h
      exact ⟨_, rfl, .covered hlo.ge hhi.le⟩
  | subset hlo hhi =>
      obtain rfl := Except.ok.inj h
      exact ⟨_, rfl, .covered hlo hhi⟩
  | superset hlo hhi =>
      rcases run_bind_eq_ok.1 h with ⟨parts, hparts, hsplit⟩
      obtain rfl := Except.ok.inj hsplit
      exact ⟨parts, rfl, excludeOverlap_eq_ok hr he hr0 he0 (.superset hlo hhi) (by simp) hparts⟩
  | lessEqual hlt hin hout =>
      rcases run_bind_eq_ok.1 h with ⟨parts, hparts, hsplit⟩
      obtain rfl := Except.ok.inj hsplit
      exact ⟨parts, rfl, excludeOverlap_eq_ok hr he hr0 he0 (.lessEqual hlt hin hout) (by simp) hparts⟩
  | greaterEqual hlt hin hout =>
      rcases run_bind_eq_ok.1 h with ⟨parts, hparts, hsplit⟩
      obtain rfl := Except.ok.inj hsplit
      exact ⟨parts, rfl,
        excludeOverlap_eq_ok hr he hr0 he0 (.greaterEqual hlt hin hout) (by simp) hparts⟩

/-- `exclude` returns unless the excluded range is a part of this one and ends at the end of the address space. -/
theorem exclude_returns_of (P : Profile) (hr : r.Fits A) (he : e.Fits A) (hr0 : 0 < r.size) (he0 : 0 < e.size)
    (hend : r.order e (r.stop - 1) (e.stop - 1) = .superset → e.stop < A.wordLimit) :
    ∃ parts, r.exclude P A e = .ok (some parts) ∧ Split e r parts := by
  have hrs : r.stop = r.base + r.size := rfl
  have hes : e.stop = e.base + e.size := rfl
  have hrle := hr.le
  have hele := he.le
  have hlies := lies_order (r := r) hr0 he0
  -- The call returns; what it returns is then known.
  have hret : ∃ split, r.exclude P A e = .ok split := by
    have hr1 : addWord P A r.base (r.size - 1) = .ok (r.stop - 1) := by
      rw [addWord_of_lt (by omega)]
      exact congrArg _ (by omega)
    have he1 : addWord P A e.base (e.size - 1) = .ok (e.stop - 1) := by
      rw [addWord_of_lt (by omega)]
      exact congrArg _ (by omega)
    have he2 : e.stop < A.wordLimit → addWord P A (e.stop - 1) 1 = .ok (e.stop - 1 + 1) :=
      fun hlt => addWord_of_lt (by omega)
    rw [exclude, cmp_eq hr he hr0 he0]
    generalize r.order e (r.stop - 1) (e.stop - 1) = order at hlies hend
    cases hlies with
    | less hle => exact ⟨_, rfl⟩
    | greater hle => exact ⟨_, rfl⟩
    | equal hlo hhi => exact ⟨_, rfl⟩
    | subset hlo hhi => exact ⟨_, rfl⟩
    -- The only case that adds one to the end of the excluded range without a bound on it.
    | superset hlo hhi =>
        have hsub : subWord P A (r.stop - 1) (e.stop - 1) = .ok (r.stop - 1 - (e.stop - 1)) :=
          subWord_of_le (by omega) (by omega)
        simp only [excludeOverlap, hr1, he1, he2 (hend rfl), hsub, subWord_of_le hlo he.lt, run_ok_bind, pure_bind]
        exact ⟨_, rfl⟩
    | lessEqual hlt hin hout =>
        simp only [excludeOverlap, hr1, he1, subWord_of_le hlt.le he.lt, run_ok_bind, pure_bind]
        exact ⟨_, rfl⟩
    | greaterEqual hlt hin hout =>
        have hsub : subWord P A (r.stop - 1) (e.stop - 1) = .ok (r.stop - 1 - (e.stop - 1)) :=
          subWord_of_le (by omega) (by omega)
        simp only [excludeOverlap, hr1, he1, he2 (hout.trans_le hrle), hsub, run_ok_bind, pure_bind]
        exact ⟨_, rfl⟩
  rcases hret with ⟨split, hsplit⟩
  rcases exclude_eq_ok hr he hr0 he0 hsplit with ⟨parts, rfl, hparts⟩
  exact ⟨parts, hsplit, hparts⟩

theorem exclude_returns (P : Profile) (hr : r.Fits A) (he : e.Fits A) (hr0 : 0 < r.size)
    (he0 : 0 < e.size) (hend : e.stop < A.wordLimit) :
    ∃ parts, r.exclude P A e = .ok (some parts) ∧ Split e r parts :=
  exclude_returns_of P hr he hr0 he0 fun _ => hend

/-! ## The parts that are left -/

theorem filter_pieces {split : Option (Range τ) × Option (Range τ)} (hr0 : 0 < r.size)
    (he0 : 0 < e.size) (h : Split e r split) : (pieces split).filter nonempty = minus e r := by
  have hrs : r.stop = r.base + r.size := rfl
  have hes : e.stop = e.base + e.size := rfl
  cases h with
  -- One of the two parts is all of `r`, and the other one is empty.
  | apart hapart =>
      rcases hapart with hle | hle
      · have hlow : min r.stop e.base - r.base = r.size := by omega
        have hhigh : r.stop - max r.base e.stop = 0 := by omega
        simp [pieces, minus, parts, nonempty, hlow, hhigh, hr0]
      · have hlow : min r.stop e.base - r.base = 0 := by omega
        have hbase : max r.base e.stop = r.base := by omega
        have hhigh : r.stop - r.base = r.size := by omega
        simp [pieces, minus, parts, nonempty, hlow, hbase, hhigh, hr0]
  | covered hlo hhi =>
      have hlow : min r.stop e.base - r.base = 0 := by omega
      have hhigh : r.stop - max r.base e.stop = 0 := by omega
      simp [pieces, minus, parts, nonempty, hlow, hhigh]
  | inside b hlo hhi hsize hupper =>
      have hlow : min r.stop e.base = e.base := by omega
      have hbase : max r.base e.stop = e.stop := by omega
      -- The upper piece may be empty: `e` then ends with `r`.
      by_cases hb : 0 < b.size
      · simp only [pieces, minus, parts, hlow, hbase, hupper hb]
        rfl
      · have hb0 : b.size = 0 := by omega
        have hhigh : r.stop - e.stop = 0 := by omega
        simp [pieces, minus, parts, nonempty, lower, List.filter_cons, hlow, hbase, hhigh, hb0]
  | head hlt hin hout =>
      have hlow : min r.stop e.base = e.base := by omega
      have hhigh : r.stop - max r.base e.stop = 0 := by omega
      simp [pieces, minus, parts, nonempty, lower, List.filter_cons, hlow, hhigh]
  | tail hlt hin hout =>
      have hlow : min r.stop e.base - r.base = 0 := by omega
      have hbase : max r.base e.stop = e.stop := by omega
      simp [pieces, minus, parts, nonempty, upper, List.filter_cons, hlow, hbase]

theorem mem_minus (hs : s ∈ minus e r) : s.tag = r.tag ∧ 0 < s.size ∧ r.base ≤ s.base ∧
    s.stop ≤ r.stop ∧ (s.stop ≤ e.base ∨ e.stop ≤ s.base) := by
  have hrs : r.stop = r.base + r.size := rfl
  rcases List.mem_filter.1 hs with ⟨hmem, hpos⟩
  have hpos' : 0 < s.size := of_decide_eq_true hpos
  rcases List.mem_cons.1 hmem with rfl | hmem
  · refine ⟨rfl, hpos', le_rfl, ?_, Or.inl ?_⟩
    · simp only [stop] at hpos' ⊢
      omega
    · simp only [stop] at hpos' ⊢
      omega
  · obtain rfl := List.mem_singleton.1 hmem
    refine ⟨rfl, hpos', ?_, ?_, Or.inr ?_⟩
    · exact le_max_left _ _
    · simp only [stop] at hpos' ⊢
      omega
    · exact le_max_right _ _

/-- The parts cover what the excluded range does not. -/
theorem exists_mem_minus : (∃ s ∈ minus e r, x ∈ s.addrs) ↔ x ∈ r.addrs ∧ x ∉ e.addrs := by
  constructor
  · rintro ⟨s, hs, hx⟩
    rcases mem_minus hs with ⟨-, -, hlo, hhi, hapart⟩
    rw [mem_addrs] at hx ⊢
    rw [mem_addrs]
    simp only [stop] at hhi hapart
    omega
  · rintro ⟨hx, hxe⟩
    rw [mem_addrs] at hx hxe
    -- What is left of `r` is below `e` or behind it.
    by_cases hlt : x < e.base
    · refine ⟨{ r with size := min r.stop e.base - r.base }, List.mem_filter.2 ⟨by simp [parts], ?_⟩, ?_⟩
      · refine decide_eq_true ?_
        simp only [stop]
        omega
      · rw [mem_addrs]
        simp only [stop]
        omega
    · refine ⟨{ r with base := max r.base e.stop, size := r.stop - max r.base e.stop },
        List.mem_filter.2 ⟨by simp [parts], ?_⟩, ?_⟩
      · refine decide_eq_true ?_
        simp only [stop]
        omega
      · rw [mem_addrs]
        simp only [stop]
        omega

theorem split_eq (P : Profile) (hr : r.Fits A) (hr0 : 0 < r.size) (p : Nat) :
    r.split P A p = .ok (some (if p ≤ r.base then (none, some r)
      else if r.stop ≤ p then (some r, none)
      else (some { r with size := p - r.base }, some { r with base := p, size := r.stop - p }))) := by
  have hstop : r.stop = r.base + r.size := rfl
  have hle := hr.le
  -- The source adds the last offset and not the size, so a range that ends at the word limit does not overflow.
  have hend : addWord P A r.base (r.size - 1) = .ok (r.stop - 1) := by
    rw [addWord_of_lt (by omega)]
    exact congrArg Except.ok (by omega)
  simp only [split, if_neg hr0.ne', hend, run_ok_bind]
  by_cases hlow : p ≤ r.base
  · simp only [if_pos hlow]
    rfl
  · by_cases hhigh : r.stop ≤ p
    · simp only [if_neg hlow, if_pos hhigh, if_pos (show r.stop - 1 < p by omega)]
      rfl
    · have hsum : r.stop - 1 - p + 1 = r.stop - p := by omega
      have hadd : addWord P A (r.stop - 1 - p) 1 = .ok (r.stop - p) := by
        rw [addWord_of_lt (by omega), hsum]
      simp only [if_neg hlow, if_neg hhigh, if_neg (show ¬ r.stop - 1 < p by omega),
        subWord_of_le (show r.base ≤ p by omega) (show p < A.wordLimit by omega),
        subWord_of_le (show p ≤ r.stop - 1 by omega) (show r.stop - 1 < A.wordLimit by omega), hadd, run_ok_bind]
      rfl

end Range
end Propeller
