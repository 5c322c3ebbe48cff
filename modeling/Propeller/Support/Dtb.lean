import Propeller.Lib.Loop
import Propeller.Support.Word

/-!
# Support.Dtb — the reader of flattened device trees

A cursor is an offset into the blob.  Every read is checked against the end of the blob, in a helper of its own;
the offset of a property's name is not.

* `DtbReader.getU32_eq`, `DtbReader.skipAndAlign_eq` — on a cursor within the blob the helpers do not panic;
* `DtbReader.getNextProperty_eq` — the next property, and when its name is looked up behind the blob.
-/

namespace Propeller

/-! ## The source -/

def fdtBeginNode : Nat := 0x1

def fdtEndNode : Nat := 0x2

def fdtProp : Nat := 0x3

def fdtNoop : Nat := 0x4

def fdtEnd : Nat := 0x9

def fdtMagic : Nat := 0xd00dfeed

def fdtMaxSize : Nat := 64 * 1024 * 1024

def fdtWordBits : Nat := 32

def fdtWordBytes : Nat := 4

def fdtHeaderSize : Nat := fdtWordBytes * 8

inductive DtbError
  | notADtb
  | invalidDtb
  | unknownProperty
  | unknownValue
  | unsupportedValue
  deriving DecidableEq, Repr

/-- The two ways that a scan ends early. -/
inductive Stop
  | panic (p : Panic)
  | dtb (e : DtbError)
  deriving DecidableEq, Repr

/-- A computation of the reader or of a scanner. -/
abbrev Scan (α : Type) : Type := Except Stop α

/-- Arithmetic that may stop the kernel. -/
def checked {α : Type} : Run α → Scan α
  | .ok a => .ok a
  | .error p => .error (.panic p)

/-- `ok_or(..)?`. -/
def okOr {α : Type} (o : Option α) (e : DtbError) : Scan α :=
  match o with
  | some a => .ok a
  | none => .error (.dtb e)

/-- A loop of the reader: the cursor is before the end of the blob and moves on in every round. -/
def dtbLoop {σ β : Type} (len : Nat) (step : σ → Scan (σ ⊕ β)) (s : σ) : Scan β :=
  Loop.iterate (.panic .diverges) step (len + 1) s

structure DtbPropertyHeader where
  size : Nat
  nameOffset : Nat
  name : List UInt8
  deriving DecidableEq, Repr

structure DtbReader where
  dtb : List UInt8
  dtStructOffset : Nat
  dtStringsOffset : Nat
  memRsvMapOffset : Nat
  version : Nat
  lastCompVersion : Nat
  bootCpuidPhys : Nat
  dtStringsSize : Nat
  dtStructSize : Nat
  deriving DecidableEq, Repr

/-- `u32::from_be_bytes`. -/
def fromBeBytes (bytes : List UInt8) : Nat :=
  bytes.foldl (fun n b => n * 256 + b.toNat) 0

/-- `u32::to_be_bytes`. -/
def toBeBytes (n : Nat) : List UInt8 :=
  [UInt8.ofNat (n / 2 ^ 24), UInt8.ofNat (n / 2 ^ 16), UInt8.ofNat (n / 2 ^ 8), UInt8.ofNat n]

/-- The bytes of some words. -/
def ofWords (words : List Nat) : List UInt8 :=
  words.flatMap toBeBytes

/-- `check_dtb`, for the bytes at the address. -/
def checkDtb (blob : List UInt8) : Scan Nat :=
  if fromBeBytes (blob.take 4) ≠ fdtMagic then .error (.dtb .notADtb)
  else
    let totalSize := fromBeBytes ((blob.drop 4).take 4)
    if totalSize < fdtHeaderSize ∨ fdtMaxSize < totalSize then .error (.dtb .invalidDtb)
    else .ok totalSize

/-- The place of the first null byte, or of the end. -/
def findNull : List UInt8 → Nat → Nat
  | [], stop => stop
  | b :: bytes, stop => if b = 0 then stop else findNull bytes (stop + 1)

namespace DtbReader

variable (P : Profile) (A : Arch) (R : DtbReader)

/-- `&self.dtb[start..stop]`. -/
def slice (start stop : Nat) : Scan (List UInt8) :=
  if start ≤ stop ∧ stop ≤ R.dtb.length then .ok ((R.dtb.take stop).drop start) else .error (.panic .index)

def getU32Unchecked (loc : Nat) : Scan (Nat × Nat) := do
  let endLoc ← checked (addWord P A loc fdtWordBytes)
  let bytes ← R.slice loc endLoc
  return (fromBeBytes bytes, endLoc)

/-- The value with the new cursor. -/
def getU32 (loc : Nat) : Scan (Option (Nat × Nat)) := do
  let last ← checked (subWord P A R.dtb.length fdtWordBytes)
  if last < loc then return none
  else return some (← R.getU32Unchecked P A loc)

def getU64 (loc : Nat) : Scan (Option (Nat × Nat)) := do
  let last ← checked (subWord P A R.dtb.length (fdtWordBytes * 2))
  if last < loc then return none
  else do
    let (upper, loc) ← R.getU32Unchecked P A loc
    let (lower, loc) ← R.getU32Unchecked P A loc
    return some (upper <<< fdtWordBits ||| lower, loc)

def skipAndAlign (skipBytes loc : Nat) : Scan Nat := do
  let len := R.dtb.length
  let left ← checked (subWord P A len loc)
  let next ← checked (addWord P A loc (min left skipBytes))
  let last ← checked (subWord P A len fdtWordBytes)
  if last < next then return len
  else checked (alignUpWord P A next fdtWordBytes)

/-- The bytes up to the terminator, with the cursor on it. -/
def getNullTerminatedU8Slice (loc : Nat) : Scan (Option (List UInt8 × Nat)) := do
  let stop := findNull (R.dtb.drop loc) loc
  if stop = R.dtb.length then return none
  else return some (← R.slice loc stop, stop)

def getSliceFromStringTable (strOffset : Nat) : Scan (Option (List UInt8)) := do
  let loc ← checked (addWord P A R.dtStringsOffset strOffset)
  return (← R.getNullTerminatedU8Slice loc).map Prod.fst

/-- The rest of a property header behind `FDT_PROP`. -/
def readPropertyHeader (loc : Nat) : Scan (Option DtbPropertyHeader × Nat) := do
  match ← R.getU32 P A loc with
  | none => return (none, loc)
  | some (size, loc) =>
      match ← R.getU32 P A loc with
      | none => return (none, loc)
      | some (nameOffset, loc) =>
          match ← R.getSliceFromStringTable P A nameOffset with
          | none => return (none, loc)
          | some name => return (some ⟨size, nameOffset, name⟩, loc)

def nextPropertyStep (loc : Nat) : Scan (Nat ⊕ (Option DtbPropertyHeader × Nat)) := do
  match ← R.getU32 P A loc with
  | none => return .inr (none, loc)
  | some (marker, loc) =>
      if marker = fdtProp then return .inr (← R.readPropertyHeader P A loc)
      else if marker = fdtNoop then return .inl loc
      else return .inr (none, ← checked (subWord P A loc fdtWordBytes))

/-- The next property's header, and the new cursor in any case. -/
def getNextProperty (loc : Nat) : Scan (Option DtbPropertyHeader × Nat) :=
  dtbLoop R.dtb.length (R.nextPropertyStep P A) loc

def skipPropertiesStep (loc : Nat) : Scan (Nat ⊕ Nat) := do
  let (marker, loc) ← okOr (← R.getU32 P A loc) .invalidDtb
  if marker = fdtProp then do
    let (propSize, loc) ← okOr (← R.getU32 P A loc) .invalidDtb
    let skipBytes ← checked (addWord P A propSize fdtWordBytes)
    return .inl (← R.skipAndAlign P A skipBytes loc)
  else if marker = fdtBeginNode ∨ marker = fdtEndNode then
    return .inr (← checked (subWord P A loc fdtWordBytes))
  else if marker = fdtNoop then return .inl loc
  else .error (.dtb .invalidDtb)

def skipNodeProperties (loc : Nat) : Scan Nat :=
  dtbLoop R.dtb.length (R.skipPropertiesStep P A) loc

def nextNodeStep (loc : Nat) : Scan (Nat ⊕ Option Nat) := do
  let (marker, loc) ← okOr (← R.getU32 P A loc) .invalidDtb
  if marker = fdtBeginNode then return .inr (some loc)
  else if marker = fdtEndNode ∨ marker = fdtNoop then return .inl loc
  else if marker = fdtEnd then return .inr none
  else .error (.dtb .invalidDtb)

/-- The inner loop of `scan`: the cursor behind the next `FDT_BEGIN_NODE`, or none at the end. -/
def nextNode (loc : Nat) : Scan (Option Nat) :=
  dtbLoop R.dtb.length (R.nextNodeStep P A) loc

/-- A scanner is called with the reader, the name of the node and the cursor behind it. -/
abbrev Scanner (σ : Type) : Type := DtbReader → List UInt8 → Nat → σ → Scan (Bool × σ)

/-- One round of the outer loop of `scan`. -/
def scanStep {σ : Type} (scanNode : Scanner σ) (x : Nat × σ) : Scan ((Nat × σ) ⊕ σ) := do
  let (loc, s) := x
  let (name, loc) ← okOr (← R.getNullTerminatedU8Slice loc) .invalidDtb
  let loc ← R.skipAndAlign P A 1 loc
  let (go, s) ← scanNode R name loc s
  if go = false then return .inr s
  else do
    let loc ← R.skipNodeProperties P A loc
    match ← R.nextNode P A loc with
    | some loc => return .inl (loc, s)
    | none => return .inr s

/-- `scan` returns the state that the scanner is left in. -/
def scan {σ : Type} (scanNode : Scanner σ) (s : σ) : Scan σ := do
  let (marker, loc) ← okOr (← R.getU32 P A R.dtStructOffset) .invalidDtb
  if marker ≠ fdtBeginNode then .error (.dtb .invalidDtb)
  else dtbLoop R.dtb.length (R.scanStep P A scanNode) (loc, s)

def getRegPairSize (addrCells sizeCells : Nat) : Scan Nat := do
  let cells ← checked (addWord P A addrCells sizeCells)
  checked (mulWord P A fdtWordBytes cells)

/-- `for _ in 0..cells`, with the value so far. -/
def readCells : Nat → Nat → Nat → Scan (Nat × Nat)
  | 0, value, loc => return (value, loc)
  | cells + 1, value, loc => do
      let (word, loc) ← R.getU32Unchecked P A loc
      readCells cells (value <<< fdtWordBits % 2 ^ 64 ||| word) loc

def getRegPair (addrCells sizeCells loc : Nat) : Scan (Option ((Nat × Nat) × Nat)) := do
  if addrCells = 0 then return none
  else do
    let pairSize ← getRegPairSize P A addrCells sizeCells
    let last ← checked (subWord P A R.dtb.length pairSize)
    if last < loc then return none
    else do
      let (addr, loc) ← R.readCells P A addrCells 0 loc
      let (size, loc) ← R.readCells P A sizeCells 0 loc
      return some ((addr, size), loc)

/-- `DtbReader::new`, for the bytes at the address. -/
def new (blob : List UInt8) : Scan DtbReader := do
  let totalSize ← checkDtb blob
  let R : DtbReader := ⟨blob.take totalSize, 0, 0, 0, 0, 0, 0, 0, 0⟩
  let loc := fdtWordBytes * 2
  let (dtStructOffset, loc) ← okOr (← R.getU32 P A loc) .invalidDtb
  let (dtStringsOffset, loc) ← okOr (← R.getU32 P A loc) .invalidDtb
  let (memRsvMapOffset, loc) ← okOr (← R.getU32 P A loc) .invalidDtb
  let (version, loc) ← okOr (← R.getU32 P A loc) .invalidDtb
  let (lastCompVersion, loc) ← okOr (← R.getU32 P A loc) .invalidDtb
  let (bootCpuidPhys, loc) ← okOr (← R.getU32 P A loc) .invalidDtb
  let (dtStringsSize, loc) ← okOr (← R.getU32 P A loc) .invalidDtb
  let (dtStructSize, _) ← okOr (← R.getU32 P A loc) .invalidDtb
  return { dtb := R.dtb, dtStructOffset, dtStringsOffset, memRsvMapOffset, version, lastCompVersion, bootCpuidPhys,
           dtStringsSize, dtStructSize }

end DtbReader
/-! ## Reading within the blob -/

section Panic

variable {α β : Type} {x : Scan α} {f : α → Scan β}

@[simp] theorem checked_ok (a : α) : checked (.ok a : Run α) = .ok a := rfl

@[simp] theorem okOr_some (a : α) (e : DtbError) : okOr (some a) e = .ok a := rfl

@[simp] theorem okOr_none (e : DtbError) : okOr (none : Option α) e = .error (.dtb e) := rfl

-- the brackets keep the kernel from comparing two binds argument by argument
@[simp] theorem scan_ok_bind (a : α) (f : α → Scan β) : (Except.ok a >>= f) = f a := (rfl)

@[simp] theorem scan_error_bind (e : Stop) (f : α → Scan β) : ((Except.error e : Scan α) >>= f) = .error e := rfl

theorem scan_bind_eq_ok {b : β} : (x >>= f) = .ok b ↔ ∃ a, x = .ok a ∧ f a = .ok b := by
  cases x with
  | error e => simp
  | ok a => simp

/-- The computation ends with a value or with a `DtbError`. -/
def Returns (x : Scan α) : Prop :=
  ∀ p, x ≠ .error (.panic p)

/-- The computation panics. -/
def panics : Scan α → Bool
  | .error (.panic _) => true
  | _ => false

theorem panics_eq_false_iff (x : Scan α) : panics x = false ↔ Returns x := by
  match x with
  | .ok a => exact iff_of_true rfl fun p h => nomatch h
  | .error (.dtb e) => exact iff_of_true rfl fun p h => nomatch h
  | .error (.panic p) => exact iff_of_false (fun h => nomatch h) fun h => h p rfl

instance (x : Scan α) : Decidable (Returns x) :=
  decidable_of_iff _ (panics_eq_false_iff x)

@[simp] theorem returns_ok (a : α) : Returns (.ok a : Scan α) := by
  intro p h
  cases h

@[simp] theorem returns_pure (a : α) : Returns (pure a : Scan α) :=
  returns_ok a

@[simp] theorem returns_dtb (e : DtbError) : Returns (.error (.dtb e) : Scan α) := by
  intro p h
  cases h

@[simp] theorem not_returns_panic (p : Panic) : ¬ Returns (.error (.panic p) : Scan α) :=
  fun h => h p rfl

@[simp] theorem returns_okOr (o : Option α) (e : DtbError) : Returns (okOr o e) := by
  cases o with
  | none => exact returns_dtb e
  | some a => exact returns_ok a

/-- A sequence returns exactly when both parts do. -/
theorem returns_bind : Returns (x >>= f) ↔ Returns x ∧ ∀ a, x = .ok a → Returns (f a) := by
  cases x with
  | ok a => simp
  | error e =>
      cases e with
      | panic p => simp
      | dtb e => simp

/-- A last part that always returns does not count. -/
theorem returns_bind_left (hf : ∀ a, Returns (f a)) : Returns (x >>= f) ↔ Returns x :=
  returns_bind.trans (and_iff_left fun a _ => hf a)

/-- The last round of a loop. -/
theorem dtbLoop_last {σ : Type} {len : Nat} {step : σ → Scan (σ ⊕ β)} {μ : σ → Nat} {s : σ}
    (hμ : Loop.Decreases step μ) (hs : μ s ≤ len) :
    ∃ t, Loop.Reaches step s t ∧ Loop.leaves (step t) = some (dtbLoop len step s) :=
  Loop.exists_last _ hμ (Nat.lt_succ_of_le hs)

/-- A loop returns exactly when every round returns that it comes to. -/
theorem returns_dtbLoop {σ : Type} {len : Nat} {step : σ → Scan (σ ⊕ β)} {μ : σ → Nat} {s : σ}
    (hμ : Loop.Decreases step μ) (hs : μ s ≤ len) :
    Returns (dtbLoop len step s) ↔ ∀ t, Loop.Reaches step s t → Returns (step t) := by
  constructor
  · intro h t ht p hp
    exact h p ((Loop.iterate_eq_error_iff hμ (Nat.lt_succ_of_le hs)).2 ⟨t, ht, hp⟩)
  · intro h p hp
    rcases (Loop.iterate_eq_error_iff hμ (Nat.lt_succ_of_le hs)).1 hp with ⟨t, ht, hstep⟩
    exact h t ht p hstep

end Panic

/-- What `check_dtb` and the fields of the header make sure of. -/
structure DtbReader.Sound (R : DtbReader) : Prop where
  minSize : fdtHeaderSize ≤ R.dtb.length
  maxSize : R.dtb.length ≤ fdtMaxSize
  strings : R.dtStringsOffset < 2 ^ 32

theorem two_pow_le_wordLimit (A : Arch) : 2 ^ 32 ≤ A.wordLimit := by
  cases A <;> decide

theorem findNull_bounds (bytes : List UInt8) (loc : Nat) :
    loc ≤ findNull bytes loc ∧ findNull bytes loc ≤ loc + bytes.length := by
  induction bytes generalizing loc with
  | nil => exact ⟨Nat.le_refl _, Nat.le_refl _⟩
  | cons b bytes ih =>
      have hih := ih (loc + 1)
      rw [findNull, List.length_cons]
      split
      · omega
      · omega

namespace DtbReader

variable {P : Profile} {A : Arch} {R : DtbReader} {loc stop skip : Nat}

/-- The word at an offset. -/
def wordAt (R : DtbReader) (loc : Nat) : Nat :=
  fromBeBytes ((R.dtb.take (loc + 4)).drop loc)

/-- Where `skip_and_align` goes. -/
def skipTo (len skip loc : Nat) : Nat :=
  if len - 4 < loc + min (len - loc) skip then len else (loc + min (len - loc) skip + 3) / 4 * 4

theorem Sound.lengths (hR : R.Sound) (A : Arch) : 32 ≤ R.dtb.length ∧ R.dtb.length + 64 < A.wordLimit := by
  have hlimit := two_pow_le_wordLimit A
  have hmin := hR.minSize
  have hmax := hR.maxSize
  rw [show fdtHeaderSize = 32 from rfl] at hmin
  rw [show fdtMaxSize = 67108864 from rfl] at hmax
  omega

theorem slice_of_le (h : loc ≤ stop) (hstop : stop ≤ R.dtb.length) :
    R.slice loc stop = .ok ((R.dtb.take stop).drop loc) :=
  if_pos ⟨h, hstop⟩

theorem getU32Unchecked_eq (hR : R.Sound) (h : loc + 4 ≤ R.dtb.length) :
    R.getU32Unchecked P A loc = .ok (R.wordAt loc, loc + 4) := by
  have hlen := hR.lengths A
  have hadd : addWord P A loc fdtWordBytes = .ok (loc + 4) := addWord_of_lt (by rw [fdtWordBytes]; omega)
  simp only [getU32Unchecked, hadd, checked_ok, scan_ok_bind, slice_of_le (Nat.le_add_right loc 4) h]
  rfl

/-- A word is read if there is one. -/
theorem getU32_eq (hR : R.Sound) (P : Profile) (A : Arch) (loc : Nat) :
    R.getU32 P A loc = .ok (if loc + 4 ≤ R.dtb.length then some (R.wordAt loc, loc + 4) else none) := by
  have hlen := hR.lengths A
  have hsub : subWord P A R.dtb.length fdtWordBytes = .ok (R.dtb.length - 4) :=
    subWord_of_le (by rw [fdtWordBytes]; omega) (by omega)
  simp only [getU32, hsub, checked_ok, scan_ok_bind]
  by_cases h : loc + 4 ≤ R.dtb.length
  · rw [if_neg (by omega), if_pos h, getU32Unchecked_eq hR h]
    rfl
  · rw [if_pos (by omega), if_neg h]
    rfl

theorem getU64_eq (hR : R.Sound) (P : Profile) (A : Arch) (loc : Nat) :
    R.getU64 P A loc = .ok (if loc + 8 ≤ R.dtb.length then
      some (R.wordAt loc <<< fdtWordBits ||| R.wordAt (loc + 4), loc + 8) else none) := by
  have hlen := hR.lengths A
  have hsub : subWord P A R.dtb.length (fdtWordBytes * 2) = .ok (R.dtb.length - 8) :=
    subWord_of_le (by rw [fdtWordBytes]; omega) (by omega)
  simp only [getU64, hsub, checked_ok, scan_ok_bind]
  by_cases h : loc + 8 ≤ R.dtb.length
  · rw [if_neg (by omega), if_pos h, getU32Unchecked_eq hR (by omega), scan_ok_bind,
      getU32Unchecked_eq hR (by omega)]
    rfl
  · rw [if_pos (by omega), if_neg h]
    rfl

theorem skipTo_bounds (h : loc ≤ stop) (h4 : 4 ≤ stop) (skip : Nat) :
    loc ≤ skipTo stop skip loc ∧ skipTo stop skip loc ≤ stop := by
  rw [skipTo]
  split
  · omega
  · omega

theorem skipAndAlign_eq (hR : R.Sound) (h : loc ≤ R.dtb.length) (P : Profile) (A : Arch) (skip : Nat) :
    R.skipAndAlign P A skip loc = .ok (skipTo R.dtb.length skip loc) := by
  have hlen := hR.lengths A
  have hk : 2 ≤ A.wordBits := by cases A <;> decide
  have hleft : subWord P A R.dtb.length loc = .ok (R.dtb.length - loc) := subWord_of_le h (by omega)
  have hnext : addWord P A loc (min (R.dtb.length - loc) skip) = .ok (loc + min (R.dtb.length - loc) skip) :=
    addWord_of_lt (by omega)
  have hlast : subWord P A R.dtb.length fdtWordBytes = .ok (R.dtb.length - 4) :=
    subWord_of_le (by rw [fdtWordBytes]; omega) (by omega)
  have halign : alignUpWord P A (loc + min (R.dtb.length - loc) skip) fdtWordBytes =
      .ok ((loc + min (R.dtb.length - loc) skip + 3) / 4 * 4) :=
    alignUpWord_two_pow (k := 2) (by omega) hk
  simp only [skipAndAlign, hleft, hnext, hlast, checked_ok, scan_ok_bind, skipTo]
  split
  · rfl
  · rw [halign]
    rfl

/-- The string at a cursor within the blob. -/
theorem getNullTerminatedU8Slice_eq (h : loc ≤ R.dtb.length) :
    R.getNullTerminatedU8Slice loc = .ok (if findNull (R.dtb.drop loc) loc = R.dtb.length then none
      else some ((R.dtb.take (findNull (R.dtb.drop loc) loc)).drop loc, findNull (R.dtb.drop loc) loc)) := by
  have hbounds := findNull_bounds (R.dtb.drop loc) loc
  rw [List.length_drop] at hbounds
  rw [getNullTerminatedU8Slice]
  split
  · rfl
  · rw [slice_of_le hbounds.1 (by omega)]
    rfl

/-- Behind the blob there is no string, but the end of the blob is not met either. -/
theorem getNullTerminatedU8Slice_behind (h : R.dtb.length < loc) :
    R.getNullTerminatedU8Slice loc = .error (.panic .index) := by
  have hnull : findNull (R.dtb.drop loc) loc = loc := by
    rw [List.drop_eq_nil_of_le (by omega)]
    rfl
  rw [getNullTerminatedU8Slice, hnull, if_neg (by omega), slice, if_neg (by omega)]
  rfl

theorem fromBeBytes_lt (bytes : List UInt8) : fromBeBytes bytes < 256 ^ bytes.length := by
  have hgen : ∀ (bytes : List UInt8) (n : Nat),
      bytes.foldl (fun n b => n * 256 + b.toNat) n < (n + 1) * 256 ^ bytes.length := by
    intro bytes
    induction bytes with
    | nil =>
        intro n
        simp
    | cons b bytes ih =>
        intro n
        have hb := b.toNat_lt
        calc (b :: bytes).foldl (fun n b => n * 256 + b.toNat) n
            < (n * 256 + b.toNat + 1) * 256 ^ bytes.length := ih _
          _ ≤ ((n + 1) * 256) * 256 ^ bytes.length := Nat.mul_le_mul_right _ (by omega)
          _ = (n + 1) * 256 ^ (b :: bytes).length := by rw [List.length_cons, Nat.pow_succ, Nat.mul_assoc, Nat.mul_comm 256]
  simpa [fromBeBytes] using hgen bytes 0

theorem wordAt_lt (R : DtbReader) (loc : Nat) : R.wordAt loc < 2 ^ 32 := by
  have hlen : ((R.dtb.take (loc + 4)).drop loc).length ≤ 4 := by
    rw [List.length_drop, List.length_take]
    omega
  calc R.wordAt loc < 256 ^ ((R.dtb.take (loc + 4)).drop loc).length := fromBeBytes_lt _
    _ ≤ 256 ^ 4 := Nat.pow_le_pow_right (by decide) hlen

/-- With 64-bit words the place of a name is not wrapped. -/
theorem Sound.name_lt (hR : R.Sound) (hA : 2 ^ 36 ≤ A.wordLimit) (t : Nat) :
    R.dtStringsOffset + R.wordAt t < A.wordLimit := by
  have hword := R.wordAt_lt t
  have hstrings := hR.strings
  omega

/-! ## Properties -/

/-- The string at an offset. -/
def stringAt (R : DtbReader) (loc : Nat) : Option (List UInt8) :=
  if findNull (R.dtb.drop loc) loc = R.dtb.length then none
  else some ((R.dtb.take (findNull (R.dtb.drop loc) loc)).drop loc)

variable {off t : Nat}

theorem getSliceFromStringTable_eq (hR : R.Sound) (h : R.dtStringsOffset + off ≤ R.dtb.length) :
    R.getSliceFromStringTable P A off = .ok (R.stringAt (R.dtStringsOffset + off)) := by
  have hlen := hR.lengths A
  rw [getSliceFromStringTable, addWord_of_lt (by omega), checked_ok, scan_ok_bind, getNullTerminatedU8Slice_eq h,
    scan_ok_bind, stringAt]
  split <;> rfl

theorem getSliceFromStringTable_behind (hlt : R.dtStringsOffset + off < A.wordLimit)
    (h : R.dtb.length < R.dtStringsOffset + off) : R.getSliceFromStringTable P A off = .error (.panic .index) := by
  rw [getSliceFromStringTable, addWord_of_lt hlt, checked_ok, scan_ok_bind, getNullTerminatedU8Slice_behind h]
  rfl

/-- There are only `FDT_NOOP` tokens from `loc` to `t`. -/
def NoopsTo (R : DtbReader) (loc t : Nat) : Prop :=
  ∃ k, t = loc + 4 * k ∧ ∀ i < k, loc + 4 * i + 4 ≤ R.dtb.length ∧ R.wordAt (loc + 4 * i) = fdtNoop

/-- The token of the next property behind `loc` is at `t`. -/
structure PropAt (R : DtbReader) (loc t : Nat) : Prop where
  noops : R.NoopsTo loc t
  token : R.wordAt t = fdtProp
  le : t + 12 ≤ R.dtb.length

theorem NoopsTo.refl (loc : Nat) : R.NoopsTo loc loc :=
  ⟨0, rfl, fun i hi => absurd hi (Nat.not_lt_zero i)⟩

theorem NoopsTo.le (h : R.NoopsTo loc t) : loc ≤ t := by
  rcases h with ⟨k, rfl, -⟩
  omega

theorem NoopsTo.tail (h : R.NoopsTo loc t) (hle : t + 4 ≤ R.dtb.length) (hw : R.wordAt t = fdtNoop) :
    R.NoopsTo loc (t + 4) := by
  rcases h with ⟨k, rfl, hk⟩
  refine ⟨k + 1, by omega, fun i hi => ?_⟩
  rcases Nat.lt_succ_iff_lt_or_eq.1 hi with hlt | rfl
  · exact hk i hlt
  · exact ⟨hle, hw⟩

theorem NoopsTo.head (h : R.NoopsTo (loc + 4) t) (hle : loc + 4 ≤ R.dtb.length) (hw : R.wordAt loc = fdtNoop) :
    R.NoopsTo loc t := by
  rcases h with ⟨k, rfl, hk⟩
  refine ⟨k + 1, by omega, fun i hi => ?_⟩
  cases i with
  | zero => exact ⟨hle, hw⟩
  | succ i =>
      have heq : loc + 4 * (i + 1) = loc + 4 + 4 * i := by omega
      rw [heq]
      exact hk i (Nat.lt_of_succ_lt_succ hi)

/-- A loop that passes `FDT_NOOP` tokens comes to the token behind them. -/
theorem NoopsTo.reaches {β : Type} {step : Nat → Scan (Nat ⊕ β)} (h : R.NoopsTo loc t)
    (hstep : ∀ x, x + 4 ≤ R.dtb.length → R.wordAt x = fdtNoop → step x = .ok (.inl (x + 4))) :
    Loop.Reaches step loc t := by
  rcases h with ⟨k, rfl, hk⟩
  induction k with
  | zero => exact Loop.Reaches.refl _
  | succ k ih =>
      have hlast := hk k (Nat.lt_succ_self k)
      exact (ih fun i hi => hk i (Nat.lt_succ_of_lt hi)).trans (Loop.Reaches.single (hstep _ hlast.1 hlast.2))

/-- The rounds of `get_next_property`. -/
theorem nextPropertyStep_eq (hR : R.Sound) (P : Profile) (A : Arch) (loc : Nat) :
    R.nextPropertyStep P A loc =
      if loc + 4 ≤ R.dtb.length then
        if R.wordAt loc = fdtProp then (R.readPropertyHeader P A (loc + 4)).map .inr
        else if R.wordAt loc = fdtNoop then .ok (.inl (loc + 4))
        else .ok (.inr (none, loc))
      else .ok (.inr (none, loc)) := by
  have hlen := hR.lengths A
  simp only [nextPropertyStep, getU32_eq hR, scan_ok_bind]
  by_cases h : loc + 4 ≤ R.dtb.length
  · have hsub : subWord P A (loc + 4) fdtWordBytes = .ok loc := by
      have hsub' := subWord_of_le (P := P) (A := A) (show fdtWordBytes ≤ loc + 4 by rw [fdtWordBytes]; omega) (by omega)
      rw [hsub', fdtWordBytes, Nat.add_sub_cancel]
    simp only [if_pos h, hsub, checked_ok, scan_ok_bind]
    split
    · cases R.readPropertyHeader P A (loc + 4) <;> rfl
    · split <;> rfl
  · simp only [if_neg h]
    rfl

theorem nextPropertyStep_next (hR : R.Sound) :
    R.nextPropertyStep P A loc = .ok (.inl t) ↔
      loc + 4 ≤ R.dtb.length ∧ R.wordAt loc = fdtNoop ∧ t = loc + 4 := by
  rw [nextPropertyStep_eq hR]
  split
  next hle =>
    split
    next hprop =>
      -- A property ends the loop, with its header or with the error of reading it.
      have hne : fdtProp ≠ fdtNoop := by decide
      constructor
      · intro h
        cases hread : R.readPropertyHeader P A (loc + 4) with
        | error e =>
            rw [hread] at h
            cases h
        | ok a =>
            rw [hread] at h
            cases h
      · rintro ⟨-, hnoop, -⟩
        exact absurd (hprop.symm.trans hnoop) hne
    next hprop =>
      split
      next hnoop =>
        constructor
        · intro h
          exact ⟨hle, hnoop, (Sum.inl.inj (Except.ok.inj h)).symm⟩
        · rintro ⟨-, -, rfl⟩
          rfl
      next hnoop =>
        constructor
        · intro h
          cases h
        · rintro ⟨-, h, -⟩
          exact absurd h hnoop
  next hle =>
    constructor
    · intro h
      cases h
    · rintro ⟨h, -, -⟩
      exact absurd h hle

theorem nextPropertyStep_decreases (hR : R.Sound) :
    Loop.Decreases (R.nextPropertyStep P A) fun loc => R.dtb.length - loc := by
  intro s s' h
  rcases (nextPropertyStep_next hR).1 h with ⟨hle, -, rfl⟩
  exact Nat.sub_lt_sub_left (by omega) (by omega)

/-- The loop of `get_next_property` passes exactly the `FDT_NOOP` tokens. -/
theorem reaches_nextProperty_iff (hR : R.Sound) :
    Loop.Reaches (R.nextPropertyStep P A) loc t ↔ R.NoopsTo loc t := by
  constructor
  · intro h
    refine h.invariant (I := fun t => R.NoopsTo loc t) (NoopsTo.refl loc) ?_
    intro s s' hs hnext
    rcases (nextPropertyStep_next hR).1 hnext with ⟨hle, hw, rfl⟩
    exact hs.tail hle hw
  · intro h
    exact h.reaches fun x hle hw => (nextPropertyStep_next hR).2 ⟨hle, hw, rfl⟩

/-- A header that is within the blob is read up to its name. -/
theorem readPropertyHeader_eq (hR : R.Sound) (h : loc + 8 ≤ R.dtb.length) :
    R.readPropertyHeader P A loc = (R.getSliceFromStringTable P A (R.wordAt (loc + 4))).map fun name =>
      (name.map fun name => ⟨R.wordAt loc, R.wordAt (loc + 4), name⟩, loc + 8) := by
  simp only [readPropertyHeader, getU32_eq hR, scan_ok_bind, if_pos (show loc + 4 ≤ R.dtb.length by omega),
    if_pos (show loc + 4 + 4 ≤ R.dtb.length by omega)]
  cases R.getSliceFromStringTable P A (R.wordAt (loc + 4)) with
  | error e => rfl
  | ok name => cases name <;> rfl

/-- A header that is cut off by the end of the blob is no property. -/
theorem readPropertyHeader_cut (hR : R.Sound) (h : R.dtb.length < loc + 8) :
    ∃ loc', R.readPropertyHeader P A loc = .ok (none, loc') := by
  simp only [readPropertyHeader, getU32_eq hR, scan_ok_bind]
  by_cases h4 : loc + 4 ≤ R.dtb.length
  · simp only [if_pos h4, if_neg (show ¬ loc + 4 + 4 ≤ R.dtb.length by omega)]
    exact ⟨_, rfl⟩
  · simp only [if_neg h4]
    exact ⟨_, rfl⟩

/-- How `get_next_property` ends. -/
theorem getNextProperty_eq_iff (hR : R.Sound) {r : Scan (Option DtbPropertyHeader × Nat)} :
    R.getNextProperty P A loc = r ↔
      ∃ t, R.NoopsTo loc t ∧ Loop.leaves (R.nextPropertyStep P A t) = some r := by
  rw [getNextProperty, dtbLoop, Loop.iterate_eq_iff (nextPropertyStep_decreases hR) (by omega)]
  simp only [reaches_nextProperty_iff hR]

theorem leaves_map_inr {ε σ β : Type} (x : Except ε β) : Loop.leaves (x.map (Sum.inr : β → σ ⊕ β)) = some x := by
  cases x <;> rfl

theorem getNextProperty_of_propAt (hR : R.Sound) (h : R.PropAt loc t) :
    R.getNextProperty P A loc = R.readPropertyHeader P A (t + 4) := by
  have hle := h.le
  refine (getNextProperty_eq_iff hR).2 ⟨t, h.noops, ?_⟩
  rw [nextPropertyStep_eq hR, if_pos (by omega), if_pos h.token, leaves_map_inr]

/-- The next property, if its name is in the blob. -/
theorem getNextProperty_eq (hR : R.Sound) (h : R.PropAt loc t)
    (hname : R.dtStringsOffset + R.wordAt (t + 8) ≤ R.dtb.length) :
    R.getNextProperty P A loc = .ok ((R.stringAt (R.dtStringsOffset + R.wordAt (t + 8))).map fun name =>
      ⟨R.wordAt (t + 4), R.wordAt (t + 8), name⟩, t + 12) := by
  have hle := h.le
  rw [getNextProperty_of_propAt hR h, readPropertyHeader_eq hR (by omega), getSliceFromStringTable_eq hR hname]
  rfl

/-- Another token ends the properties. -/
theorem getNextProperty_token (hR : R.Sound) (h : R.NoopsTo loc t) (hle : t + 4 ≤ R.dtb.length)
    (hprop : R.wordAt t ≠ fdtProp) (hnoop : R.wordAt t ≠ fdtNoop) :
    R.getNextProperty P A loc = .ok (none, t) := by
  refine (getNextProperty_eq_iff hR).2 ⟨t, h, ?_⟩
  rw [nextPropertyStep_eq hR, if_pos hle, if_neg hprop, if_neg hnoop]
  rfl

/-- There is a property, or there is none. -/
theorem getNextProperty_cases (hR : R.Sound) (P : Profile) (A : Arch) (loc : Nat) :
    (∃ t, R.PropAt loc t) ∨ ∃ loc', R.getNextProperty P A loc = .ok (none, loc') := by
  have hrun : R.getNextProperty P A loc = R.getNextProperty P A loc := rfl
  rcases (getNextProperty_eq_iff hR).1 hrun with ⟨t, ht, hr⟩
  rw [nextPropertyStep_eq hR] at hr
  by_cases hle : t + 4 ≤ R.dtb.length
  · rw [if_pos hle] at hr
    by_cases hprop : R.wordAt t = fdtProp
    · rw [if_pos hprop, leaves_map_inr] at hr
      rcases Nat.lt_or_ge R.dtb.length (t + 4 + 8) with hcut | hin
      · rcases readPropertyHeader_cut (P := P) (A := A) hR hcut with ⟨loc', hloc'⟩
        exact Or.inr ⟨loc', (Option.some.inj hr).symm.trans hloc'⟩
      · exact Or.inl ⟨t, ht, hprop, by omega⟩
    · rw [if_neg hprop] at hr
      split at hr
      · cases hr
      · exact Or.inr ⟨t, (Option.some.inj hr).symm⟩
  · rw [if_neg hle] at hr
    exact Or.inr ⟨t, (Option.some.inj hr).symm⟩

/-- The reader panics exactly on a name behind the blob. -/
theorem returns_getNextProperty (hR : R.Sound) (hlimit : ∀ t, R.dtStringsOffset + R.wordAt t < A.wordLimit) :
    Returns (R.getNextProperty P A loc) ↔
      ∀ t, R.PropAt loc t → R.dtStringsOffset + R.wordAt (t + 8) ≤ R.dtb.length := by
  constructor
  · intro h t ht
    by_contra hout
    have hle := ht.le
    rw [getNextProperty_of_propAt hR ht, readPropertyHeader_eq hR (by omega),
      getSliceFromStringTable_behind (hlimit _) (Nat.not_le.1 hout)] at h
    exact not_returns_panic _ h
  · intro h
    rcases getNextProperty_cases hR P A loc with ⟨t, ht⟩ | ⟨loc', hnone⟩
    · rw [getNextProperty_eq hR ht (h t ht)]
      exact returns_ok _
    · rw [hnone]
      exact returns_ok _

/-- Where a property comes from. -/
theorem getNextProperty_some (hR : R.Sound) {header : DtbPropertyHeader} {loc' : Nat}
    (h : R.getNextProperty P A loc = .ok (some header, loc')) :
    ∃ t, R.PropAt loc t ∧ loc' = t + 12 ∧ header.size = R.wordAt (t + 4) := by
  rcases getNextProperty_cases hR P A loc with ⟨t, ht⟩ | ⟨x, hnone⟩
  · have hle := ht.le
    rw [getNextProperty_of_propAt hR ht, readPropertyHeader_eq hR (by omega)] at h
    cases hs : R.getSliceFromStringTable P A (R.wordAt (t + 4 + 4)) with
    | error e =>
        rw [hs] at h
        cases h
    | ok name =>
        rw [hs] at h
        cases name with
        | none => cases h
        | some name =>
            cases h
            exact ⟨t, ht, by omega, rfl⟩
  · rw [hnone] at h
    cases h

/-! ## The reader of a blob -/

variable {blob : List UInt8}

theorem checkDtb_size (h : checkDtb blob = .ok blob.length) :
    fdtHeaderSize ≤ blob.length ∧ blob.length ≤ fdtMaxSize := by
  simp only [checkDtb] at h
  split at h
  next => cases h
  next =>
    split at h
    next => cases h
    next hsize =>
      have htotal := Except.ok.inj h
      omega

/-- One word of the header. -/
theorem readWord_eq {α : Type} (hR : R.Sound) (P : Profile) (A : Arch) (loc : Nat)
    (f : Nat × Nat → Scan α) :
    (R.getU32 P A loc >>= fun o => okOr o .invalidDtb >>= f) =
      if loc + 4 ≤ R.dtb.length then f (R.wordAt loc, loc + 4) else .error (.dtb .invalidDtb) := by
  rw [getU32_eq hR, scan_ok_bind]
  split <;> rfl

/-- A blob that `check_dtb` accepts has a reader, unless the rest of the header is cut off. -/
theorem new_cases (P : Profile) (A : Arch) (h : checkDtb blob = .ok blob.length) :
    DtbReader.new P A blob = .error (.dtb .invalidDtb) ∨
      ∃ R, DtbReader.new P A blob = .ok R ∧ R.Sound ∧ R.dtb = blob := by
  have hsize := checkDtb_size h
  have hR : DtbReader.Sound ⟨blob, 0, 0, 0, 0, 0, 0, 0, 0⟩ := ⟨hsize.1, hsize.2, Nat.two_pow_pos 32⟩
  simp only [DtbReader.new, h, scan_ok_bind, List.take_length, readWord_eq hR]
  split_ifs
  case pos =>
    refine Or.inr ⟨_, rfl, ⟨hsize.1, hsize.2, ?_⟩, rfl⟩
    exact wordAt_lt _ _
  all_goals exact Or.inl rfl

theorem new_sound (h : checkDtb blob = .ok blob.length) (hnew : DtbReader.new P A blob = .ok R) : R.Sound := by
  rcases new_cases P A h with herr | ⟨R', hnew', hR', -⟩
  · rw [herr] at hnew
    cases hnew
  · rw [hnew'] at hnew
    exact Except.ok.inj hnew ▸ hR'

end DtbReader

end Propeller
