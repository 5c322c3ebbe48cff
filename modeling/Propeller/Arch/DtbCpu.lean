import Propeller.Arch.Cpu
import Propeller.Support.DtbWalk

/-!
# Arch.DtbCpu — the scanner for the cores

The scanner reads the cell count and a default enable method from the `cpus` node, and a core from every `cpu@N`
node.  Each property has its own reader, and each reader leaves the cursor where its own reading ended: behind the
first string of `compatible`, and in front of the value of `reg`.
-/

namespace Propeller
namespace DtbCpu

open Cpu

/-! ## The source -/

inductive DtbStringTag
  | dtbPropAddressCells
  | dtbPropSizeCells
  | dtbPropCompatible
  | dtbPropEnableMethod
  | dtbPropCpuReleaseAddr
  | dtbPropReg
  | dtbValueSpinTable
  | dtbValueBcm2836
  deriving DecidableEq, Repr

/-- What `build_string_map` inserts. -/
def strings : List (List UInt8 × DtbStringTag) :=
  [(asBytes "#address-cells", .dtbPropAddressCells),
    (asBytes "#size-cells", .dtbPropSizeCells),
    (asBytes "compatible", .dtbPropCompatible),
    (asBytes "enable-method", .dtbPropEnableMethod),
    (asBytes "cpu-release-addr", .dtbPropCpuReleaseAddr),
    (asBytes "reg", .dtbPropReg),
    (asBytes "spin-table", .dtbValueSpinTable),
    (asBytes "brcm,bcm2836-smp", .dtbValueBcm2836)]

def buildStringMap (A : Arch) : HashMap (List UInt8) DtbStringTag 31 :=
  HashMap.insertAll (hashSlice A) strings

def findTag (A : Arch) (name : List UInt8) : Option DtbStringTag :=
  (buildStringMap A).find (hashSlice A) name

/-- The state of a `DtbCoreScanner`. -/
structure Scanner (A : Arch) where
  config : CoreConfig A
  addrCells : Nat
  defEnableMethod : CoreEnableMethod

def Scanner.new {A : Arch} (config : CoreConfig A) : Scanner A :=
  ⟨config, 0, .invalid⟩

section Source

variable (P : Profile) (A : Arch) (R : DtbReader)

/-- The string at the cursor, and the aligned cursor behind its terminator. -/
def readString (loc : Nat) : Scan (List UInt8 × Nat) := do
  let (string, loc) ← okOr (← R.getNullTerminatedU8Slice loc) .invalidDtb
  return (string, ← R.skipAndAlign P A 1 loc)

/-- `core_type[..len].clone_from_slice(&compatible[..len])`. -/
def copyType (coreType : List Nat) (compatible : List UInt8) : List Nat :=
  let len := min compatible.length coreType.length
  (compatible.take len).map UInt8.toNat ++ coreType.drop len

def readCompatible (coreType : List Nat) (loc : Nat) : Scan (List Nat × Nat) := do
  let (compatible, loc) ← readString P A R loc
  return (copyType coreType compatible, loc)

/-- The end of `read_enable_method`. -/
def enableMethodOf : Option DtbStringTag → Scan CoreEnableMethod
  | none => .error (.dtb .unknownValue)
  | some .dtbValueSpinTable => .ok .spinTable
  | some .dtbValueBcm2836 => .ok .bcm2836
  | some _ => .error (.dtb .unsupportedValue)

def readEnableMethod (loc : Nat) : Scan (CoreEnableMethod × Nat) := do
  let (enableMethod, loc) ← readString P A R loc
  return (← enableMethodOf (findTag A enableMethod), loc)

def readCpuReleaseAddr (size loc : Nat) : Scan (Nat × Nat) := do
  if size = 4 then okOr (← R.getU32 P A loc) .invalidDtb
  else if size = 8 then do
    let (addr, loc) ← okOr (← R.getU64 P A loc) .invalidDtb
    if addr < A.wordLimit then return (addr, loc) else .error (.dtb .invalidDtb)
  else .error (.dtb .unsupportedValue)

/-- The cursor is a copy that is dropped, and so is the quotient. -/
def readThreadId (addrCells loc : Nat) : Scan Nat := do
  let pairSize ← DtbReader.getRegPairSize P A addrCells 0
  if pairSize = 0 then .error (.panic .division)
  else do
    let ((id, _), _) ← okOr (← R.getRegPair P A addrCells 0 loc) .invalidDtb
    return id

/-- The arms of the match in `scan_cpu_node`. -/
def readCpuProperty (addrCells size loc : Nat) (core : Core) : Option DtbStringTag → Scan (Nat × Core)
  | some .dtbPropCompatible => do
      let (coreType, loc) ← readCompatible P A R core.coreType loc
      return (loc, { core with coreType })
  | some .dtbPropEnableMethod => do
      let (enableMethod, loc) ← readEnableMethod P A R loc
      return (loc, { core with enableMethod })
  | some .dtbPropCpuReleaseAddr => do
      let (releaseAddr, loc) ← readCpuReleaseAddr P A R size loc
      return (loc, { core with releaseAddr })
  | some .dtbPropReg => do
      let id ← readThreadId P A R addrCells loc
      return (loc, { core with id := id % A.wordLimit })
  | _ => do return (← R.skipAndAlign P A size loc, core)

/-- The loop body of `scan_cpu_node`. -/
def cpuProperty (addrCells : Nat) (header : DtbPropertyHeader) (loc : Nat) (core : Core) : Scan (Nat × Core) :=
  readCpuProperty P A R addrCells header.size loc core (findTag A header.name)

def scanCpuNode (primaryId loc : Nat) (s : Scanner A) : Scan (Scanner A) := do
  let core ← R.forProperties P A (cpuProperty P A R s.addrCells) loc Core.new
  return { s with config := registerCore primaryId s.defEnableMethod s.config core }

/-- The arms of the match in `scan_cpus_node`. -/
def readCpusProperty (size loc : Nat) (s : Scanner A) : Option DtbStringTag → Scan (Nat × Scanner A)
  | some .dtbPropAddressCells => do
      let (addrCells, loc) ← okOr (← R.getU32 P A loc) .invalidDtb
      return (loc, { s with addrCells })
  | some .dtbPropSizeCells => do
      let (sizeCells, loc) ← okOr (← R.getU32 P A loc) .invalidDtb
      if sizeCells ≠ 0 then .error (.dtb .invalidDtb) else return (loc, s)
  | some .dtbPropEnableMethod => do
      let (defEnableMethod, loc) ← readEnableMethod P A R loc
      return (loc, { s with defEnableMethod })
  | _ => do return (← R.skipAndAlign P A size loc, s)

/-- The loop body of `scan_cpus_node`. -/
def cpusProperty (header : DtbPropertyHeader) (loc : Nat) (s : Scanner A) : Scan (Nat × Scanner A) :=
  readCpusProperty P A R header.size loc s (findTag A header.name)

def scanCpusNode (loc : Nat) (s : Scanner A) : Scan (Scanner A) := do
  let s ← R.forProperties P A (cpusProperty P A R) loc s
  if s.addrCells = 0 then .error (.dtb .invalidDtb) else return s

/-- `cpu@N`. -/
def IsCpuNode (name : List UInt8) : Prop :=
  5 ≤ name.length ∧ name.take 4 = asBytes "cpu@"

instance (name : List UInt8) : Decidable (IsCpuNode name) :=
  inferInstanceAs (Decidable (_ ∧ _))

/-- `scan_node`. -/
def scanNode (primaryId : Nat) : DtbReader.Scanner (Scanner A) := fun R name loc s => do
  if name = asBytes "cpus" then return (true, ← scanCpusNode P A R loc s)
  else if IsCpuNode name then return (true, ← scanCpuNode P A R primaryId loc s)
  else return (true, s)

end Source

/-! ## The string map -/

/-- The map finds what was inserted. -/
theorem findTag_eq (A : Arch) (name : List UInt8) : findTag A name = strings.lookup name := by
  by_cases h : name ∈ strings.map Prod.fst
  · have hall : ∀ A, ∀ name ∈ strings.map Prod.fst, findTag A name = strings.lookup name := by
      intro A
      cases A <;> decide +kernel
    exact hall A name h
  · rw [findTag, buildStringMap, HashMap.find_insertAll_of_notMem h, eq_comm, List.lookup_eq_none_iff]
    intro p hp
    exact bne_iff_ne.2 fun heq => h (heq ▸ List.mem_map_of_mem hp)

/-- In a list with distinct keys a key has the value that it is listed with. -/
theorem lookup_eq_some_iff_mem {K V : Type} [BEq K] [LawfulBEq K] {pairs : List (K × V)}
    (h : (pairs.map Prod.fst).Nodup) {k : K} {v : V} : pairs.lookup k = some v ↔ (k, v) ∈ pairs := by
  induction pairs with
  | nil => simp
  | cons q pairs ih =>
      rw [List.map_cons, List.nodup_cons] at h
      rw [List.lookup_cons, List.mem_cons]
      by_cases hk : k = q.1
      · subst hk
        have hnot : (q.1, v) ∉ pairs := fun hmem => h.1 (List.mem_map.2 ⟨(q.1, v), hmem, rfl⟩)
        simp only [beq_self_eq_true, Option.some.injEq, hnot, or_false]
        constructor
        · rintro rfl
          rfl
        · intro heq
          rw [← heq]
      · have hne : (k, v) ≠ q := fun heq => hk (congrArg Prod.fst heq)
        simp only [beq_false_of_ne hk, hne, false_or]
        exact ih h.2

theorem findTag_eq_some_iff (A : Arch) {name : List UInt8} {tag : DtbStringTag} :
    findTag A name = some tag ↔ (name, tag) ∈ strings := by
  rw [findTag_eq, lookup_eq_some_iff_mem (by decide)]

theorem findTag_reg_iff (A : Arch) (name : List UInt8) :
    findTag A name = some .dtbPropReg ↔ name = asBytes "reg" := by
  have hall : ∀ q ∈ strings, q.2 = .dtbPropReg → q.1 = asBytes "reg" := by decide
  rw [findTag_eq_some_iff]
  constructor
  · intro hmem
    exact hall _ hmem rfl
  · rintro rfl
    decide

/-! ## When the scanner panics -/

section Returns

variable {P : Profile} {A : Arch} {R : DtbReader} {loc loc' size addrCells primaryId : Nat} {core core' : Core}
  {s s' : Scanner A}

/-- A string is read, or the blob ends before its terminator. -/
theorem readString_cases (hR : R.Sound) (P : Profile) (A : Arch) (h : loc ≤ R.dtb.length) :
    readString P A R loc = .error (.dtb .invalidDtb) ∨
      ∃ string loc', readString P A R loc = .ok (string, loc') ∧ loc ≤ loc' := by
  have hnull := DtbReader.getNullTerminatedU8Slice_eq h
  split at hnull
  · left
    simp only [readString, hnull, scan_ok_bind, okOr_none, scan_error_bind]
  · right
    have hbounds := DtbReader.getNullTerminatedU8Slice_bounds hnull
    simp only [readString, hnull, scan_ok_bind, okOr_some,
      DtbReader.skipAndAlign_eq hR (Nat.le_of_lt hbounds.2)]
    exact ⟨_, _, rfl, (DtbReader.skipTo_node hR hnull).1⟩

theorem enableMethodOf_cases (tag : Option DtbStringTag) :
    (∃ e, enableMethodOf tag = .error (.dtb e)) ∨ ∃ method, enableMethodOf tag = .ok method := by
  match tag with
  | some .dtbValueSpinTable | some .dtbValueBcm2836 => exact Or.inr ⟨_, rfl⟩
  | some .dtbPropAddressCells | some .dtbPropSizeCells | some .dtbPropCompatible | some .dtbPropEnableMethod
  | some .dtbPropCpuReleaseAddr | some .dtbPropReg | none => exact Or.inl ⟨_, rfl⟩

theorem readEnableMethod_cases (hR : R.Sound) (P : Profile) (A : Arch) (h : loc ≤ R.dtb.length) :
    (∃ e, readEnableMethod P A R loc = .error (.dtb e)) ∨
      ∃ enableMethod loc', readEnableMethod P A R loc = .ok (enableMethod, loc') ∧ loc ≤ loc' := by
  rcases readString_cases hR P A h with herr | ⟨string, loc', hok, hle⟩
  · rw [readEnableMethod, herr]
    exact Or.inl ⟨_, rfl⟩
  · rcases enableMethodOf_cases (findTag A string) with ⟨e, hmethod⟩ | ⟨method, hmethod⟩
    · simp only [readEnableMethod, hok, scan_ok_bind, hmethod]
      exact Or.inl ⟨e, rfl⟩
    · simp only [readEnableMethod, hok, scan_ok_bind, hmethod]
      exact Or.inr ⟨method, loc', rfl, hle⟩

theorem readCpuReleaseAddr_cases (hR : R.Sound) (P : Profile) (A : Arch) (size loc : Nat) :
    (∃ e, readCpuReleaseAddr P A R size loc = .error (.dtb e)) ∨
      ∃ addr loc', readCpuReleaseAddr P A R size loc = .ok (addr, loc') ∧ loc ≤ loc' := by
  simp only [readCpuReleaseAddr, DtbReader.getU32_eq hR, DtbReader.getU64_eq hR, scan_ok_bind]
  split
  · split
    · exact Or.inr ⟨_, _, rfl, Nat.le_add_right _ _⟩
    · exact Or.inl ⟨_, rfl⟩
  · split
    · by_cases h8 : loc + 8 ≤ R.dtb.length
      · simp only [if_pos h8, okOr_some, scan_ok_bind]
        split
        · exact Or.inr ⟨_, _, rfl, Nat.le_add_right _ _⟩
        · exact Or.inl ⟨_, rfl⟩
      · rw [if_neg h8]
        exact Or.inl ⟨_, rfl⟩
    · exact Or.inl ⟨_, rfl⟩

/-- The cell count is a 32-bit word. -/
def Scanner.CellsFit (s : Scanner A) : Prop :=
  s.addrCells < 2 ^ 32

theorem readCpusProperty_cases (hR : R.Sound) (h : loc ≤ R.dtb.length) (size : Nat) (s : Scanner A)
    (tag : Option DtbStringTag) :
    (∃ e, readCpusProperty P A R size loc s tag = .error (.dtb e)) ∨
      ∃ loc' s', readCpusProperty P A R size loc s tag = .ok (loc', s') ∧ loc ≤ loc' ∧
        (s.CellsFit → s'.CellsFit) := by
  have hlen := hR.lengths A
  have hword := R.wordAt_lt loc
  have hskip := DtbReader.skipTo_bounds h (by omega) size
  -- All properties that the node does not use are skipped.
  have hother : (do return (← R.skipAndAlign P A size loc, s) : Scan (Nat × Scanner A)) =
      .ok (DtbReader.skipTo R.dtb.length size loc, s) := by
    rw [DtbReader.skipAndAlign_eq hR h]
    rfl
  match tag with
  | some .dtbPropAddressCells =>
      simp only [readCpusProperty, DtbReader.getU32_eq hR, scan_ok_bind]
      split
      · exact Or.inr ⟨_, _, rfl, Nat.le_add_right _ _, fun _ => hword⟩
      · exact Or.inl ⟨_, rfl⟩
  | some .dtbPropSizeCells =>
      simp only [readCpusProperty, DtbReader.getU32_eq hR, scan_ok_bind]
      by_cases h4 : loc + 4 ≤ R.dtb.length
      · simp only [if_pos h4, okOr_some, scan_ok_bind]
        split
        · exact Or.inl ⟨_, rfl⟩
        · exact Or.inr ⟨_, _, rfl, Nat.le_add_right _ _, id⟩
      · rw [if_neg h4]
        exact Or.inl ⟨_, rfl⟩
  | some .dtbPropEnableMethod =>
      rcases readEnableMethod_cases hR P A h with ⟨e, herr⟩ | ⟨method, loc', hok, hle⟩
      · rw [readCpusProperty, herr]
        exact Or.inl ⟨e, rfl⟩
      · rw [readCpusProperty, hok]
        exact Or.inr ⟨_, _, rfl, hle, id⟩
  | some .dtbPropCompatible | some .dtbPropCpuReleaseAddr | some .dtbPropReg | some .dtbValueSpinTable
  | some .dtbValueBcm2836 | none => exact Or.inr ⟨_, _, hother, hskip.1, id⟩

theorem cpusProperty_tame (hR : R.Sound) : R.Tame (cpusProperty P A R) Scanner.CellsFit :=
  fun header _ s h => readCpusProperty_cases hR h header.size s (findTag A header.name)

/-- A thread identifier fits into the blob, and has a cell. -/
def CellsInside (R : DtbReader) (addrCells : Nat) : Prop :=
  0 < addrCells ∧ 4 * addrCells ≤ R.dtb.length

theorem returns_readThreadId (hR : R.Sound) (hcells : 4 * addrCells + R.dtb.length < A.wordLimit)
    (h : loc ≤ R.dtb.length) : Returns (readThreadId P A R addrCells loc) ↔ CellsInside R addrCells := by
  rw [readThreadId, DtbReader.getRegPairSize_eq (by omega), scan_ok_bind, Nat.add_zero]
  split
  next h0 => exact iff_of_false (not_returns_panic _) fun hin => by have := hin.1; omega
  next h0 =>
    have hpair : Returns (R.getRegPair P A addrCells 0 loc) ↔
        addrCells = 0 ∨ 4 * (addrCells + 0) ≤ R.dtb.length :=
      DtbReader.returns_getRegPair hR (by rw [Nat.add_zero]; exact hcells) h
    have hrest : ∀ o : Option ((Nat × Nat) × Nat), Returns (okOr o .invalidDtb >>= fun x => (return x.1.1 : Scan Nat)) :=
      fun o => returns_bind.2 ⟨returns_okOr _ _, fun _ _ => returns_ok _⟩
    rw [returns_bind, hpair, Nat.add_zero]
    constructor
    · rintro ⟨hfits, -⟩
      exact ⟨by omega, by omega⟩
    · intro hin
      exact ⟨Or.inr hin.2, fun o _ => hrest o⟩

/-- The arms for the other properties end with a value or an error, and do not move the cursor back. -/
theorem readCpuProperty_cases (hR : R.Sound) (h : loc ≤ R.dtb.length) (size : Nat) (core : Core)
    {tag : Option DtbStringTag} (htag : tag ≠ some .dtbPropReg) :
    (∃ e, readCpuProperty P A R addrCells size loc core tag = .error (.dtb e)) ∨
      ∃ loc' core', readCpuProperty P A R addrCells size loc core tag = .ok (loc', core') ∧ loc ≤ loc' := by
  have hlen := hR.lengths A
  have hskip := DtbReader.skipTo_bounds h (by omega) size
  have hother : (do return (← R.skipAndAlign P A size loc, core) : Scan (Nat × Core)) =
      .ok (DtbReader.skipTo R.dtb.length size loc, core) := by
    rw [DtbReader.skipAndAlign_eq hR h]
    rfl
  match tag with
  | some .dtbPropCompatible =>
      rcases readString_cases hR P A h with herr | ⟨string, loc', hok, hle⟩
      · rw [readCpuProperty, readCompatible, herr]
        exact Or.inl ⟨_, rfl⟩
      · rw [readCpuProperty, readCompatible, hok]
        exact Or.inr ⟨_, _, rfl, hle⟩
  | some .dtbPropEnableMethod =>
      rcases readEnableMethod_cases hR P A h with ⟨e, herr⟩ | ⟨method, loc', hok, hle⟩
      · rw [readCpuProperty, herr]
        exact Or.inl ⟨e, rfl⟩
      · rw [readCpuProperty, hok]
        exact Or.inr ⟨_, _, rfl, hle⟩
  | some .dtbPropCpuReleaseAddr =>
      rcases readCpuReleaseAddr_cases hR P A size loc with ⟨e, herr⟩ | ⟨addr, loc', hok, hle⟩
      · rw [readCpuProperty, herr]
        exact Or.inl ⟨e, rfl⟩
      · rw [readCpuProperty, hok]
        exact Or.inr ⟨_, _, rfl, hle⟩
  -- The `reg` property is left out: its cells can leave the word, and it has its own condition.
  | some .dtbPropReg => exact absurd rfl htag
  | some .dtbPropAddressCells | some .dtbPropSizeCells | some .dtbValueSpinTable | some .dtbValueBcm2836 | none =>
      exact Or.inr ⟨_, _, hother, hskip.1⟩

/-- Only the `reg` property can make the body panic. -/
theorem returns_readCpuProperty (hR : R.Sound) (hcells : 4 * addrCells + R.dtb.length < A.wordLimit)
    (h : loc ≤ R.dtb.length) (size : Nat) (core : Core) (tag : Option DtbStringTag) :
    Returns (readCpuProperty P A R addrCells size loc core tag) ↔
      (tag = some .dtbPropReg → CellsInside R addrCells) := by
  by_cases htag : tag = some .dtbPropReg
  · subst htag
    rw [readCpuProperty, returns_bind, returns_readThreadId hR hcells h]
    exact ⟨fun hret _ => hret.1, fun hin => ⟨hin rfl, fun _ _ => returns_ok _⟩⟩
  · refine iff_of_true ?_ fun hreg => absurd hreg htag
    rcases readCpuProperty_cases (P := P) (A := A) hR h size core htag with ⟨e, herr⟩ | ⟨loc', core', hok, -⟩
    · rw [herr]
      exact returns_dtb e
    · rw [hok]
      exact returns_ok _

/-- The body never moves the cursor back. -/
theorem cpuProperty_advances (hR : R.Sound) : R.Advances (cpuProperty P A R addrCells) := by
  intro header loc core loc' core' h hstep
  rw [cpuProperty] at hstep
  by_cases htag : findTag A header.name = some .dtbPropReg
  · rw [htag, readCpuProperty] at hstep
    rcases scan_bind_eq_ok.1 hstep with ⟨id, -, heq⟩
    cases heq
    exact Nat.le_refl _
  · rcases readCpuProperty_cases hR h header.size core htag with ⟨e, herr⟩ | ⟨loc₁, core₁, hok, hle⟩
    · rw [herr] at hstep
      cases hstep
    · rw [hok] at hstep
      cases hstep
      exact hle

/-- The name of the property at `t`. -/
def IsReg (R : DtbReader) (t : Nat) : Prop :=
  R.stringAt (R.dtStringsOffset + R.wordAt (t + 8)) = some (asBytes "reg")

/-- The names of the properties of a core are within the blob, and so is its thread identifier. -/
def CpuSafe (P : Profile) (A : Arch) (R : DtbReader) (addrCells loc : Nat) : Prop :=
  ∀ t core, R.ReadsAt P A (cpuProperty P A R addrCells) loc Core.new t core →
    R.NameInside t ∧ (IsReg R t → CellsInside R addrCells)

theorem returns_cpuProperties (hR : R.Sound) (hA : 2 ^ 36 ≤ A.wordLimit) (ha : addrCells < 2 ^ 32) (loc : Nat) :
    Returns (R.forProperties P A (cpuProperty P A R addrCells) loc Core.new) ↔ CpuSafe P A R addrCells loc := by
  have hlen := hR.lengths .arm
  have hmax : Arch.wordLimit .arm = 2 ^ 32 := rfl
  have hcells : 4 * addrCells + R.dtb.length < A.wordLimit := by omega
  rw [DtbReader.returns_forProperties hR (cpuProperty_advances hR) (hR.name_lt hA), CpuSafe]
  refine forall₂_congr fun t core => forall_congr' fun hat => and_congr_right fun _ => ?_
  rcases hat with ⟨x, -, hprop⟩
  have hbody := fun header : DtbPropertyHeader =>
    returns_readCpuProperty (P := P) hR hcells hprop.le header.size core (findTag A header.name)
  constructor
  · intro hret hreg
    have hheader : R.headerAt t = some ⟨R.wordAt (t + 4), R.wordAt (t + 8), asBytes "reg"⟩ := by
      rw [DtbReader.headerAt, show R.stringAt _ = _ from hreg]
      rfl
    exact (hbody _).1 (hret _ hheader) ((findTag_reg_iff A _).2 rfl)
  · intro hreg header hheader
    refine (hbody header).2 fun htag => hreg ?_
    rw [DtbReader.headerAt, Option.map_eq_some_iff] at hheader
    rcases hheader with ⟨name, hname, rfl⟩
    rw [IsReg, hname, (findTag_reg_iff A name).1 htag]

/-- What is looked up at a node is within the blob. -/
def NodeSafe (P : Profile) (A : Arch) (R : DtbReader) (name : List UInt8) (loc : Nat) (s : Scanner A) : Prop :=
  if name = asBytes "cpus" then R.NamesInside P A (cpusProperty P A R) loc s
  else if IsCpuNode name then CpuSafe P A R s.addrCells loc
  else True

theorem returns_scanNode (hR : R.Sound) (hA : 2 ^ 36 ≤ A.wordLimit) (hs : s.CellsFit) (name : List UInt8) (loc : Nat) :
    Returns (scanNode P A primaryId R name loc s) ↔ NodeSafe P A R name loc s := by
  rw [scanNode, NodeSafe]
  split
  next =>
    rw [returns_bind_left fun _ => returns_pure _, scanCpusNode, returns_bind_left,
      (cpusProperty_tame hR).returns_forProperties hR (hR.name_lt hA)]
    intro s
    split
    · exact returns_dtb _
    · exact returns_ok _
  next =>
    split
    next =>
      rw [returns_bind_left fun _ => returns_pure _, scanCpuNode, returns_bind_left fun _ => returns_pure _]
      exact returns_cpuProperties hR hA hs loc
    next => exact iff_of_true (returns_ok _) trivial

theorem scanNode_cells (hR : R.Sound) {name : List UInt8} {go : Bool}
    (h : scanNode P A primaryId R name loc s = .ok (go, s')) (hs : s.CellsFit) : s'.CellsFit := by
  rw [scanNode] at h
  split at h
  next =>
    rcases scan_bind_eq_ok.1 h with ⟨x, hx, h⟩
    cases h
    rw [scanCpusNode] at hx
    rcases scan_bind_eq_ok.1 hx with ⟨y, hy, hx⟩
    split at hx
    · cases hx
    · cases hx
      exact (cpusProperty_tame hR).keeps hR hs hy
  next =>
    split at h
    next =>
      rcases scan_bind_eq_ok.1 h with ⟨x, hx, h⟩
      cases h
      -- A `cpu` node reads the cells and does not write them.
      rw [scanCpuNode] at hx
      rcases scan_bind_eq_ok.1 hx with ⟨core, -, hx⟩
      cases hx
      exact hs
    next =>
      cases h
      exact hs

end Returns

end DtbCpu
end Propeller
