import Propeller.Mm.Buddy.Init

/-!
# Buddy.Contract — what the constructor promises

The documentation of `new` lists the inputs for which there is no allocator.  The code compares the area with a
maximum that it derives from the physical address of the kernel, it subtracts before it compares, it does not look at
a base of zero, and it holds the available ranges against the end of the area before the alignment.  The inputs for
which it keeps the promise are given here without the code.
-/

namespace Propeller
namespace Buddy

/-! ## The contract -/

/-- The first page of the area. -/
def alignedBase (base : Nat) : Nat :=
  (base + (pageSize - 1)) / pageSize * pageSize

/-- The whole pages between the aligned base and the end of the area. -/
def alignedSize (base size : Nat) : Nat :=
  (base + size - alignedBase base) / pageSize * pageSize

/-- The complement of the virtual base address of the kernel. -/
def maximumPhysical (A : Arch) (cfg : KernelConfig) : Nat :=
  cfg.virtualBase ^^^ (A.wordLimit - 1)

/-- The reasons to return no allocator. -/
inductive Refused (A : Arch) (cfg : KernelConfig) (base size metadata : Nat) (avail : List MemoryRange) : Prop
  | baseZero (h : alignedBase base = 0)
  | baseInvalid (h : maximumPhysical A cfg < base)
  | sizeSmall (h : alignedSize base size < pageSize)
  | endInvalid (h : maximumPhysical A cfg < base + size)
  | metadataNull (h : metadata = 0)
  | availEmpty (h : avail = [])
  | rangeOutside (r : MemoryRange) (hr : r ∈ avail)
      (h : r.base < alignedBase base ∨ alignedBase base + alignedSize base size < r.base + r.size)

/-- `new` does not stop in its arithmetic, and it returns no allocator if there is a reason for it. -/
structure Honours (A : Arch) (cfg : KernelConfig) (base size metadata : Nat) (avail : List MemoryRange)
    (mem : Nat → BlockNode) : Prop where
  arithmetic : new A cfg base size metadata avail mem ≠ .error .overflow
  refused : Refused A cfg base size metadata avail → new A cfg base size metadata avail mem = .ok none

/-! ## The inputs -/

/-- The inputs for which a subtraction or an addition on the area goes wrong. -/
def AreaOverflows (A : Arch) (cfg : KernelConfig) (base size : Nat) : Prop :=
  base ≤ getMaximumPhysicalAddress A cfg ∧ (size = 0 ∨ base + (size - 1) ≤ getMaximumPhysicalAddress A cfg ∧
    (A.wordLimit ≤ base + size ∨ A.wordLimit < base + pageSize ∨ base + size ≤ alignedBase base))

/-- The area passes the checks of the code. -/
structure AreaPasses (A : Arch) (cfg : KernelConfig) (base size metadata : Nat) : Prop where
  stop : base + size ≤ getMaximumPhysicalAddress A cfg + 1
  pages : pageSize ≤ alignedSize base size
  metadata : metadata ≠ 0

/-- The code compares a range with the area that is aligned at its base only. -/
def InArea (base size : Nat) (r : MemoryRange) : Prop :=
  alignedBase base ≤ r.base ∧ r.base + r.size ≤ base + size

/-- The sizes of the ranges up to the first one outside of the area can be added. -/
def Counted (A : Arch) (base size : Nat) : List MemoryRange → Nat → Prop
  | [], _ => True
  | r :: rs, acc => InArea base size r → acc + r.size < A.wordLimit ∧ Counted A base size rs (acc + r.size)

/-- The area is what the documentation asks for, also where the code does not look. -/
structure AreaSound (A : Arch) (cfg : KernelConfig) (base size : Nat) (avail : List MemoryRange) : Prop where
  base_ne : alignedBase base ≠ 0
  stop : base + size ≤ maximumPhysical A cfg
  ranges : ∀ r ∈ avail, r.base + r.size ≤ alignedBase base + alignedSize base size

/-! ## The area -/

variable {A : Arch} {cfg : KernelConfig} {base size metadata acc : Nat} {avail : List MemoryRange}
  {mem : Nat → BlockNode} {s s' : State}

theorem new_eq_none_of_invalid
    (h : getMaximumPhysicalAddress A cfg < base ∨ 0 < size ∧ getMaximumPhysicalAddress A cfg < base + (size - 1)) :
    new A cfg base size metadata avail mem = .ok none := by
  unfold new
  by_cases hbase : getMaximumPhysicalAddress A cfg < base
  · rw [if_pos hbase]
    rfl
  · have hend := h.resolve_left hbase
    rw [if_neg hbase, checkedSub_of_le hend.1, run_ok_bind, if_pos (by omega)]
    rfl

theorem alignUp_page (hfits : base + pageSize ≤ A.wordLimit) : alignUp A base pageSize = .ok (alignedBase base) := by
  have hpos := pageSize_pos
  have hk : pageShift ≤ A.wordBits := by cases A <;> decide
  have hlt : base + (pageSize - 1) < A.wordLimit := by omega
  rw [alignUp, checkedAdd_of_lt hlt, run_ok_bind]
  exact congrArg Except.ok (and_wordNot_two_pow (k := pageShift) hlt hk)

theorem new_overflows (h : AreaOverflows A cfg base size) :
    new A cfg base size metadata avail mem = .error .overflow := by
  rcases h with ⟨hbase, hover⟩
  unfold new
  rw [if_neg (Nat.not_lt.mpr hbase)]
  by_cases hzero : size = 0
  · rw [hzero]
    rfl
  rcases hover.resolve_left hzero with ⟨hend, hover⟩
  rw [checkedSub_of_le (by omega), run_ok_bind, if_neg (by omega)]
  by_cases hlimit : base + size < A.wordLimit
  · rw [checkedAdd_of_lt hlimit, run_ok_bind]
    simp only
    by_cases halign : base + pageSize ≤ A.wordLimit
    · rw [alignUp_page halign, run_ok_bind, checkedSub, if_neg (by omega)]
      rfl
    · rw [alignUp, checkedAdd, if_neg (by omega)]
      rfl
  · rw [checkedAdd, if_neg hlimit]
    rfl

/-- The rest of `new`, from the first check of the aligned area on. -/
theorem new_of_area (metadata : Nat) (avail : List MemoryRange) (mem : Nat → BlockNode) (hpos : 0 < size)
    (hend : base + size ≤ getMaximumPhysicalAddress A cfg + 1) (hover : ¬ AreaOverflows A cfg base size) :
    new A cfg base size metadata avail mem =
      if alignedSize base size < pageSize ∨ metadata = 0 ∨ avail = [] then .ok none
      else do
        match ← checkRanges A (alignedBase base) (base + size - 1) avail 0 with
        | none => return none
        | some freeMem =>
            let s ← initRanges A avail (emptyArea A (alignedBase base) (alignedSize base size) 0 freeMem mem)
            return some s := by
  have hbase : base ≤ getMaximumPhysicalAddress A cfg := by omega
  -- Without an overflow in the arguments the aligned base is in the area.
  have hfits : base + size < A.wordLimit ∧ base + pageSize ≤ A.wordLimit ∧ alignedBase base < base + size := by
    by_contra hcon
    refine hover ⟨hbase, Or.inr ⟨by omega, ?_⟩⟩
    omega
  have hk : pageShift ≤ A.wordBits := by cases A <;> decide
  have hspan : base + size - 1 - alignedBase base + 1 = base + size - alignedBase base := by omega
  have hsize : alignDown A (base + size - 1 - alignedBase base + 1) pageSize = alignedSize base size := by
    rw [hspan]
    exact alignDown_eq (k := pageShift) (by omega) hk
  -- The checks of the source, in order.
  unfold new
  rw [if_neg (Nat.not_lt.mpr hbase), checkedSub_of_le hpos, run_ok_bind, if_neg (by omega), checkedAdd_of_lt hfits.1,
    run_ok_bind]
  simp only
  rw [alignUp_page hfits.2.1, run_ok_bind, checkedSub_of_le (by omega), run_ok_bind, hsize]
  by_cases hsmall : alignedSize base size < pageSize
  · rw [if_pos hsmall, if_pos (Or.inl hsmall)]
    rfl
  by_cases hmeta : metadata = 0
  · rw [if_neg hsmall, if_pos hmeta, if_pos (Or.inr (Or.inl hmeta))]
    rfl
  by_cases hempty : avail = []
  · rw [if_neg hsmall, if_neg hmeta, if_pos (by simp [hempty]), if_pos (Or.inr (Or.inr hempty))]
    rfl
  rw [if_neg hsmall, if_neg hmeta, if_neg (by simpa using hempty), if_neg (by simp [hsmall, hmeta, hempty])]
  refine congrArg _ (funext fun o => ?_)
  cases o with
  | none => rfl
  | some freeMem =>
      simp only [initMetadata, makeLevels, emptyArea, Nat.shiftLeft_shiftRight, List.map_replicate]

/-! ## The ranges -/

/-- The loop over the ranges: it stops in the addition of the sizes, or it finds whether all ranges are in the area. -/
theorem checkRanges_eq (acc : Nat) (hpos : 0 < base + size)
    (havail : ∀ r ∈ avail, 0 < r.size ∧ r.base + r.size ≤ A.wordLimit) :
    (¬ Counted A base size avail acc → checkRanges A (alignedBase base) (base + size - 1) avail acc = .error .overflow) ∧
      (Counted A base size avail acc → (∀ r ∈ avail, InArea base size r) →
        ∃ freeMem, checkRanges A (alignedBase base) (base + size - 1) avail acc = .ok (some freeMem)) ∧
      (Counted A base size avail acc → (¬ ∀ r ∈ avail, InArea base size r) →
        checkRanges A (alignedBase base) (base + size - 1) avail acc = .ok none) := by
  -- Along the ranges, with the number of bytes counted so far.
  induction avail generalizing acc with
  | nil => simp [Counted, checkRanges]
  | cons r rs ih =>
      have hr := havail r List.mem_cons_self
      have hrest := ih (acc + r.size) fun q hq => havail q (List.mem_cons_of_mem r hq)
      -- The end of a range never overflows.
      have hfirst : ∀ k : Nat → Run (Option Nat),
          (do
            let last ← checkedSub r.size 1
            let rangeEnd ← checkedAdd A r.base last
            k rangeEnd) = k (r.base + (r.size - 1)) := by
        intro k
        rw [checkedSub_of_le hr.1, run_ok_bind, checkedAdd_of_lt (by omega), run_ok_bind]
      rw [checkRanges, hfirst]
      by_cases hin : InArea base size r
      · have htest : ¬ (r.base < alignedBase base ∨ base + size - 1 < r.base + (r.size - 1)) := by
          rcases hin with ⟨hlow, hhigh⟩
          omega
        rw [if_neg htest, List.forall_mem_cons]
        by_cases hlt : acc + r.size < A.wordLimit
        · rw [checkedAdd_of_lt hlt, run_ok_bind]
          simpa [Counted, hin, hlt] using hrest
        · rw [checkedAdd, if_neg hlt]
          simp [Counted, hin, hlt]
      · have htest : r.base < alignedBase base ∨ base + size - 1 < r.base + (r.size - 1) := by
          by_contra hcon
          refine hin ⟨?_, ?_⟩ <;> omega
        rw [if_pos htest]
        simp [Counted, hin]

/-! ## The lists -/

theorem bind_ne_error {α β : Type} {x : Run α} {f : α → Run β} {e : Panic} (hx : x ≠ .error e)
    (hf : ∀ a, x = .ok a → f a ≠ .error e) : (x >>= f) ≠ .error e := by
  cases x with
  | error e' => exact fun h => hx (congrArg Except.error (Except.error.inj h))
  | ok a => exact hf a rfl

theorem require_ne_error {p : Prop} [Decidable p] {e e' : Panic} (hne : e ≠ e') : require p e ≠ .error e' := by
  rw [require]
  split
  next => exact fun h => by cases h
  next => exact fun h => hne (Except.error.inj h)

theorem checkedSub_ne_error {a b : Nat} {e : Panic} (hne : e ≠ .overflow) : checkedSub a b ≠ .error e := by
  rw [checkedSub]
  split
  next => exact fun h => by cases h
  next => exact fun h => hne (Except.error.inj h).symm

theorem checkedAdd_ne_error {a b : Nat} {e : Panic} (hne : e ≠ .overflow) : checkedAdd A a b ≠ .error e := by
  rw [checkedAdd]
  split
  next => exact fun h => by cases h
  next => exact fun h => hne (Except.error.inj h).symm

/-- The loop over the ranges can stop in its arithmetic only. -/
theorem checkRanges_ne_error {areaEnd : Nat} {e : Panic} (hne : e ≠ .overflow) :
    checkRanges A base areaEnd avail acc ≠ .error e := by
  induction avail generalizing acc with
  | nil => exact fun h => by cases h
  | cons r rs ih =>
      refine bind_ne_error (checkedSub_ne_error hne) fun last _ => ?_
      refine bind_ne_error (checkedAdd_ne_error hne) fun rangeEnd _ => ?_
      split
      next => exact fun h => by cases h
      next => exact bind_ne_error (checkedAdd_ne_error hne) fun freeMem _ => ih

theorem getBlockNodeMut_ne_overflow (A : Arch) (s : State) (a : Nat) : getBlockNodeMut A s a ≠ .error .overflow := by
  refine bind_ne_error (require_ne_error (by decide)) fun _ _ => ?_
  refine bind_ne_error (require_ne_error (by decide)) fun _ _ => ?_
  exact fun h => by cases h

theorem linkBlock_ne_overflow (A : Arch) (s : State) (l a : Nat) : linkBlock A s l a ≠ .error .overflow := by
  rw [linkBlock]
  split
  next => exact fun h => by cases h
  next =>
    refine bind_ne_error (getBlockNodeMut_ne_overflow A s _) fun head _ => ?_
    refine bind_ne_error (getBlockNodeMut_ne_overflow A s _) fun _ _ => ?_
    exact fun h => by cases h

/-- The panics of `add_to_list` for an address of the area are assertions and indices. -/
theorem addToList_ne_overflow {l a : Nat} (hle : s.base ≤ a) : addToList A s l a ≠ .error .overflow := by
  have hflag : getFlagIndexAndBit A s a l ≠ .error .overflow := by
    rw [getFlagIndexAndBit, checkedSub_of_le hle, run_ok_bind]
    exact fun h => by cases h
  refine bind_ne_error hflag fun f _ => ?_
  refine bind_ne_error (require_ne_error (by decide)) fun _ _ => ?_
  refine bind_ne_error (linkBlock_ne_overflow A s l a) fun s₁ _ => ?_
  refine bind_ne_error ?_ fun _ _ => fun h => by cases h
  rw [getFlagWord]
  split
  next => exact fun h => by cases h
  next => exact fun h => by cases h

/-- A block is never larger than what is left of the range. -/
theorem initRange_ne_overflow {fuel addr remaining : Nat} (hle : s.base ≤ addr) (hlt : addr + remaining < A.wordLimit) :
    initRange A fuel addr remaining s ≠ .error .overflow := by
  induction fuel generalizing addr remaining s with
  | zero => exact fun h => by cases h
  | succ fuel ih =>
      rw [initRange]
      split
      next => exact fun h => by cases h
      next hmore =>
        simp only
        have hpages : remaining >>> pageShift ≠ 0 := by
          rw [Nat.shiftRight_eq_div_pow, ← pageSize_eq]
          exact (Nat.div_pos (Nat.not_lt.mp hmore) pageSize_pos).ne'
        have hlog : floorLog2 A (remaining >>> pageShift) = (remaining >>> pageShift).log2 :=
          floorLog2_eq ((Nat.shiftRight_le _ _).trans_lt (by omega))
        -- The block of a round is not larger than what remains.
        have hblock : ∀ m, (1 <<< min (floorLog2 A (remaining >>> pageShift)) m) <<< pageShift ≤ remaining := by
          intro m
          have hpow : 2 ^ min (floorLog2 A (remaining >>> pageShift)) m ≤ remaining >>> pageShift :=
            (Nat.pow_le_pow_right (by decide) (min_le_left _ _)).trans (hlog ▸ Nat.log2_self_le hpages)
          rw [Nat.one_shiftLeft, Nat.shiftLeft_eq]
          refine (Nat.mul_le_mul_right _ hpow).trans ?_
          rw [Nat.shiftRight_eq_div_pow]
          exact Nat.div_mul_le_self _ _
        have hsize := hblock (min (floorLog2 A (leastSignificantBit A (addr >>> pageShift))) (BLOCK_LEVELS - 1))
        refine bind_ne_error (addToList_ne_overflow hle) fun s₁ hs₁ => ?_
        rw [checkedAdd_of_lt (by omega), run_ok_bind, checkedSub_of_le hsize, run_ok_bind]
        refine ih ?_ (by omega)
        rw [(addToList_sameTotals hs₁).base]
        exact hle.trans (Nat.le_add_right _ _)

theorem initRange_sameTotals {fuel addr remaining : Nat} (h : initRange A fuel addr remaining s = .ok s') :
    SameTotals s s' := by
  induction fuel generalizing addr remaining s with
  | zero => cases h
  | succ fuel ih =>
      rw [initRange] at h
      split at h
      next =>
        cases h
        exact ⟨rfl, rfl, rfl, rfl⟩
      next =>
        rcases run_bind_eq_ok.mp h with ⟨s₁, hs₁, h⟩
        rcases run_bind_eq_ok.mp h with ⟨addr', -, h⟩
        rcases run_bind_eq_ok.mp h with ⟨remaining', -, h⟩
        exact (addToList_sameTotals hs₁).trans (ih h)

theorem initRanges_ne_overflow (hranges : ∀ r ∈ avail, s.base ≤ r.base ∧ r.base + r.size < A.wordLimit) :
    initRanges A avail s ≠ .error .overflow := by
  induction avail generalizing s with
  | nil => exact fun h => by cases h
  | cons r rs ih =>
      have hr := hranges r List.mem_cons_self
      refine bind_ne_error (initRange_ne_overflow hr.1 hr.2) fun s₁ hs₁ => ih fun q hq => ?_
      rw [(initRange_sameTotals hs₁).base]
      exact hranges q (List.mem_cons_of_mem r hq)

/-! ## When the contract holds -/

theorem honours_of_none (h : new A cfg base size metadata avail mem = .ok none) :
    Honours A cfg base size metadata avail mem := by
  refine ⟨?_, fun _ => h⟩
  rw [h]
  exact fun h => by cases h

theorem le_alignedBase (base : Nat) : base ≤ alignedBase base := by
  have hpage : pageSize = 4096 := rfl
  rw [alignedBase, hpage]
  omega

theorem AreaPasses.size_pos (h : AreaPasses A cfg base size metadata) : 0 < size := by
  have hle := le_alignedBase base
  have hpages : pageSize ≤ base + size - alignedBase base := h.pages.trans (Nat.div_mul_le_self _ _)
  have hpos := pageSize_pos
  omega

/-- There is no reason to refuse an area that passes the checks and is sound, and only then. -/
theorem refused_iff (hpass : AreaPasses A cfg base size metadata) (hempty : avail ≠ [])
    (hin : ∀ r ∈ avail, InArea base size r) :
    Refused A cfg base size metadata avail ↔ ¬ AreaSound A cfg base size avail := by
  constructor
  · rintro hreason ⟨hbase, hstop, hranges⟩
    cases hreason with
    | baseZero h => exact hbase h
    | baseInvalid h => omega
    | sizeSmall h => exact absurd hpass.pages (Nat.not_le.mpr h)
    | endInvalid h => omega
    | metadataNull h => exact hpass.metadata h
    | availEmpty h => exact hempty h
    | rangeOutside r hr h =>
        have hlow := (hin r hr).1
        have hhigh := hranges r hr
        omega
  · -- The first unsound part is refused by its own check.
    intro hsound
    by_contra hnone
    refine hsound ⟨fun h => hnone (.baseZero h), ?_, fun r hr => ?_⟩
    · exact Nat.not_lt.mp fun h => hnone (.endInvalid h)
    · exact Nat.not_lt.mp fun h => hnone (.rangeOutside r hr (Or.inr h))

/-- `new` keeps the promise of its documentation exactly for the inputs whose arithmetic on the area does not
overflow and for which, if the area passes the checks of the code, the sizes of the ranges can be added and, if all
ranges are between the aligned base and the end, the area is sound. -/
theorem new_honours_iff (A : Arch) (cfg : KernelConfig) (base size metadata : Nat) (avail : List MemoryRange)
    (mem : Nat → BlockNode) (havail : ∀ r ∈ avail, 0 < r.size ∧ r.base + r.size ≤ A.wordLimit) :
    Honours A cfg base size metadata avail mem ↔
      ¬ AreaOverflows A cfg base size ∧
        (AreaPasses A cfg base size metadata → Counted A base size avail 0 ∧
          (avail ≠ [] → (∀ r ∈ avail, InArea base size r) → AreaSound A cfg base size avail)) := by
  by_cases hover : AreaOverflows A cfg base size
  · simp only [hover, not_true, false_and, iff_false]
    exact fun h => h.arithmetic (new_overflows hover)
  rw [and_iff_right hover]
  by_cases hinvalid : getMaximumPhysicalAddress A cfg < base ∨
      0 < size ∧ getMaximumPhysicalAddress A cfg < base + (size - 1)
  · have hfails : ¬ AreaPasses A cfg base size metadata := by
      intro hpass
      have hstop := hpass.stop
      have hpos := hpass.size_pos
      omega
    simp only [hfails, false_implies, iff_true]
    exact honours_of_none (new_eq_none_of_invalid hinvalid)
  have hbase : base ≤ getMaximumPhysicalAddress A cfg := by omega
  have hpos : 0 < size := Nat.pos_of_ne_zero fun h => hover ⟨hbase, Or.inl h⟩
  have hend : base + size ≤ getMaximumPhysicalAddress A cfg + 1 := by omega
  have hnew := new_of_area metadata avail mem hpos hend hover
  by_cases hrefuse : alignedSize base size < pageSize ∨ metadata = 0 ∨ avail = []
  · rw [if_pos hrefuse] at hnew
    refine iff_of_true (honours_of_none hnew) fun hpass => ?_
    have hempty : avail = [] :=
      (hrefuse.resolve_left (Nat.not_lt.mpr hpass.pages)).resolve_left hpass.metadata
    exact ⟨hempty ▸ trivial, fun hne => absurd hempty hne⟩
  rw [if_neg hrefuse] at hnew
  simp only [not_or, Nat.not_lt] at hrefuse
  have hpass : AreaPasses A cfg base size metadata := ⟨hend, hrefuse.1, hrefuse.2.1⟩
  have hcheck := checkRanges_eq 0 (show 0 < base + size by omega) havail
  rw [forall_prop_of_true hpass, forall_prop_of_true hrefuse.2.2]
  by_cases hcounted : Counted A base size avail 0
  · rw [and_iff_right hcounted]
    by_cases hin : ∀ r ∈ avail, InArea base size r
    · rw [forall_prop_of_true hin]
      rcases hcheck.2.1 hcounted hin with ⟨freeMem, hfree⟩
      rw [hfree, run_ok_bind] at hnew
      have hlimit : base + size < A.wordLimit := by
        by_contra hge
        exact hover ⟨hbase, Or.inr ⟨by omega, Or.inl (Nat.not_lt.mp hge)⟩⟩
      have harith : new A cfg base size metadata avail mem ≠ .error .overflow := by
        rw [hnew]
        refine bind_ne_error (initRanges_ne_overflow fun r hr => ?_) fun _ _ => fun h => by cases h
        exact ⟨(hin r hr).1, (hin r hr).2.trans_lt hlimit⟩
      have hsome : new A cfg base size metadata avail mem ≠ .ok none := by
        rw [hnew]
        intro h
        rcases run_bind_eq_ok.mp h with ⟨s, -, h⟩
        cases h
      -- The code accepts the area, so there must be no reason to refuse it.
      have hreasons := refused_iff hpass hrefuse.2.2 hin
      constructor
      · intro h
        by_contra hsound
        exact hsome (h.refused (hreasons.mpr hsound))
      · intro hsound
        exact ⟨harith, fun hreason => absurd hsound (hreasons.mp hreason)⟩
    · rw [hcheck.2.2 hcounted hin] at hnew
      exact iff_of_true (honours_of_none hnew) fun h => absurd h hin
  · rw [hcheck.1 hcounted] at hnew
    exact iff_of_false (fun h => h.arithmetic hnew) fun h => hcounted h.1

/-- The configuration of a kernel that is loaded at 0x80000. -/
def kernelAt80000 : KernelConfig := ⟨0xffff000000000000, 0x80000, 0⟩

theorem new_honours_sixteen_pages :
    Honours .aarch64 kernelAt80000 0x100000 0x10000 0x200000 [⟨0x100000, 0x8000⟩, ⟨0x10a000, 0x6000⟩]
      (fun _ => ⟨0, 0, 0⟩) := by
  refine (new_honours_iff _ _ _ _ _ _ _ (by decide)).mpr ⟨?_, fun _ => ⟨?_, fun _ _ => ⟨?_, ?_, ?_⟩⟩⟩
  · rw [AreaOverflows]
    decide
  · simp [Counted, InArea, Arch.wordLimit, Arch.wordBits]
  · decide
  · decide
  · decide

theorem accepted_of_isSome {α : Type} {x : Run (Option α)} (h : x.toOption.join.isSome = true) :
    ∃ a, x = .ok (some a) := by
  rcases x with e | _ | a
  · cases h
  · cases h
  · exact ⟨a, rfl⟩

/-- An area without a byte, an area without a whole page, an area at address zero, and an area above the physical
addresses of the kernel. -/
theorem new_breaks_contract :
    new .aarch64 kernelAt80000 0x1000 0 0x200000 [⟨0x1000, 0x1000⟩] (fun _ => ⟨0, 0, 0⟩) = .error .overflow ∧
      new .aarch64 kernelAt80000 0x1001 0x10 0x200000 [⟨0x1000, 0x1000⟩] (fun _ => ⟨0, 0, 0⟩) = .error .overflow ∧
      (∃ s, new .aarch64 kernelAt80000 0 0x3000 0x200000 [⟨0x1000, 0x1000⟩] (fun _ => ⟨0, 0, 0⟩) = .ok (some s)) ∧
      (∃ s, new .aarch64 kernelAt80000 0x1000000000000 0x3000 0x200000 [⟨0x1000000001000, 0x1000⟩] (fun _ => ⟨0, 0, 0⟩) =
        .ok (some s)) ∧
      ¬ Honours .aarch64 kernelAt80000 0x1000 0 0x200000 [⟨0x1000, 0x1000⟩] (fun _ => ⟨0, 0, 0⟩) := by
  have hzero : new .aarch64 kernelAt80000 0x1000 0 0x200000 [⟨0x1000, 0x1000⟩] (fun _ => ⟨0, 0, 0⟩) =
      .error .overflow := new_overflows (by rw [AreaOverflows]; decide)
  refine ⟨hzero, new_overflows (by rw [AreaOverflows]; decide), accepted_of_isSome (by decide +kernel),
    accepted_of_isSome (by decide +kernel), fun h => h.arithmetic hzero⟩

end Buddy
end Propeller
