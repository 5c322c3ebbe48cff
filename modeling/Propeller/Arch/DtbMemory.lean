import Propeller.Arch.MemoryConfig
import Propeller.Support.DtbWalk
import Propeller.Support.HashMap

/-!
# Arch.DtbMemory — the scanner for memory nodes

The scanner reads the cell counts of the root node, and at every other node it looks for a memory device with
address and size pairs.  It panics when the blob refers to something behind its end: a name of a property, or a
pair that is longer than the blob.
-/

namespace Propeller
namespace DtbMemory

/-! ## The source -/

inductive StringTag
  | dtbPropAddressCells
  | dtbPropSizeCells
  | dtbPropDeviceType
  | dtbPropReg
  deriving DecidableEq, Repr

/-- What `build_string_map` inserts. -/
def strings : List (List UInt8 × StringTag) :=
  [(asBytes "#address-cells", .dtbPropAddressCells),
    (asBytes "#size-cells", .dtbPropSizeCells),
    (asBytes "device_type", .dtbPropDeviceType),
    (asBytes "reg", .dtbPropReg)]

def buildStringMap (A : Arch) : HashMap (List UInt8) StringTag 31 :=
  HashMap.insertAll (hashSlice A) strings

def findTag (A : Arch) (name : List UInt8) : Option StringTag :=
  (buildStringMap A).find (hashSlice A) name

/-- The state of a `DtbMemoryScanner`. -/
structure Scanner where
  config : MemoryConfig
  addrCells : Nat
  sizeCells : Nat

/-- The cell counts are 32-bit words. -/
def Scanner.CellsFit (s : Scanner) : Prop :=
  s.addrCells < 2 ^ 32 ∧ s.sizeCells < 2 ^ 32

def Scanner.new (config : MemoryConfig) : Scanner :=
  ⟨config, 0, 0⟩

variable (P : Profile) (A : Arch) (virtualBase : Nat) (R : DtbReader)

/-- The arms of the match in `scan_root_node`. -/
def readRootProperty (size loc : Nat) (s : Scanner) : Option StringTag → Scan (Nat × Scanner)
  | some .dtbPropAddressCells => do
      let (addrCells, loc) ← okOr (← R.getU32 P A loc) .invalidDtb
      return (loc, { s with addrCells })
  | some .dtbPropSizeCells => do
      let (sizeCells, loc) ← okOr (← R.getU32 P A loc) .invalidDtb
      return (loc, { s with sizeCells })
  | _ => do return (← R.skipAndAlign P A size loc, s)

/-- The loop body of `scan_root_node`. -/
def rootProperty (header : DtbPropertyHeader) (loc : Nat) (s : Scanner) : Scan (Nat × Scanner) :=
  readRootProperty P A R header.size loc s (findTag A header.name)

def scanRootNode (loc : Nat) (s : Scanner) : Scan Scanner :=
  R.forProperties P A (rootProperty P A R) loc s

/-- What `scan_device_node` keeps of the properties: cursors with sizes, and the cell counts. -/
structure Device where
  devType : Option (Nat × Nat)
  reg : Option (Nat × Nat)
  addrCells : Nat
  sizeCells : Nat
  deriving DecidableEq, Repr

/-- The arms of the match in `scan_device_node`. -/
def readDeviceProperty (size loc : Nat) (d : Device) : Option StringTag → Scan (Nat × Device)
  | some .dtbPropDeviceType => do return (← R.skipAndAlign P A size loc, { d with devType := some (loc, size) })
  | some .dtbPropReg => do return (← R.skipAndAlign P A size loc, { d with reg := some (loc, size) })
  | some .dtbPropAddressCells => do
      let (addrCells, loc) ← okOr (← R.getU32 P A loc) .invalidDtb
      return (loc, { d with addrCells })
  | some .dtbPropSizeCells => do
      let (sizeCells, loc) ← okOr (← R.getU32 P A loc) .invalidDtb
      return (loc, { d with sizeCells })
  | none => do return (← R.skipAndAlign P A size loc, d)

/-- The loop body of `scan_device_node`. -/
def deviceProperty (header : DtbPropertyHeader) (loc : Nat) (d : Device) : Scan (Nat × Device) :=
  readDeviceProperty P A R header.size loc d (findTag A header.name)

def checkDeviceType (loc : Nat) : Scan Bool := do
  match ← R.getNullTerminatedU8Slice loc with
  | some (name, _) => return name = asBytes "memory"
  | none => return false

/-- The loop of `add_memory_blocks`: the error it stops with, if any, and the configuration. -/
def addBlocks (addrCells sizeCells : Nat) : Nat → Nat → MemoryConfig → Scan (Option DtbError × MemoryConfig)
  | 0, _, config => return (none, config)
  | count + 1, loc, config => do
      match ← R.getRegPair P A addrCells sizeCells loc with
      | none => return (some .invalidDtb, config)
      | some ((base, size), loc) =>
          if A.wordLimit - 1 < base then addBlocks addrCells sizeCells count loc config
          else if size = 0 then addBlocks addrCells sizeCells count loc config
          else do
            let size := if base = 0 then min size (A.wordLimit - 1) else min size (A.wordLimit - 1 - base + 1)
            let config ← checked (handleRange P A virtualBase base size config)
            addBlocks addrCells sizeCells count loc config

def addMemoryBlocks (propSize addrCells sizeCells loc : Nat) (config : MemoryConfig) :
    Scan (Option DtbError × MemoryConfig) := do
  let pairSize ← DtbReader.getRegPairSize P A addrCells sizeCells
  if pairSize = 0 ∨ propSize = 0 ∨ propSize < pairSize ∨ propSize % pairSize ≠ 0 then
    return (some .invalidDtb, config)
  else addBlocks P A virtualBase R addrCells sizeCells (propSize / pairSize) loc config

/-- The part of `scan_device_node` behind the loop; the result of `add_memory_blocks` is dropped. -/
def addDevice (d : Device) (s : Scanner) : Scan Scanner := do
  match d.devType with
  | none => return s
  | some (pos, _) =>
      if ← checkDeviceType R pos then
        match d.reg with
        | none => return s
        | some (pos, size) => do
            let (_, config) ← addMemoryBlocks P A virtualBase R size d.addrCells d.sizeCells pos s.config
            return { s with config }
      else return s

def scanDeviceNode (loc : Nat) (s : Scanner) : Scan Scanner := do
  let d ← R.forProperties P A (deviceProperty P A R) loc ⟨none, none, s.addrCells, s.sizeCells⟩
  addDevice P A virtualBase R d s

/-- `scan_node`. -/
def scanNode : DtbReader.Scanner Scanner := fun R name loc s => do
  let s ← if name.length = 0 then scanRootNode P A R loc s else scanDeviceNode P A virtualBase R loc s
  return (true, s)

/-! ## When the scanner panics -/

section Returns

variable {P A virtualBase R} {header : DtbPropertyHeader} {loc loc' : Nat} {s s' : Scanner} {d d' : Device}
  {config : MemoryConfig} {addrCells sizeCells : Nat}

/-- The outcomes of a property that holds a cell count or is skipped. -/
theorem readRootProperty_cases (hR : R.Sound) (h : loc ≤ R.dtb.length) (size : Nat) (s : Scanner)
    (tag : Option StringTag) :
    readRootProperty P A R size loc s tag = .error (.dtb .invalidDtb) ∨
      ∃ loc' s', readRootProperty P A R size loc s tag = .ok (loc', s') ∧ loc ≤ loc' ∧
        (s.CellsFit → s'.CellsFit) := by
  have hlen := hR.lengths A
  have hword := R.wordAt_lt loc
  have hskip := DtbReader.skipTo_bounds h (by omega) size
  have hother : (do return (← R.skipAndAlign P A size loc, s) : Scan (Nat × Scanner)) =
      .ok (DtbReader.skipTo R.dtb.length size loc, s) := by
    rw [DtbReader.skipAndAlign_eq hR h]
    rfl
  match tag with
  | some .dtbPropAddressCells =>
      simp only [readRootProperty, DtbReader.getU32_eq hR, scan_ok_bind]
      split
      · exact Or.inr ⟨_, _, rfl, Nat.le_add_right _ _, fun hs => ⟨hword, hs.2⟩⟩
      · exact Or.inl rfl
  | some .dtbPropSizeCells =>
      simp only [readRootProperty, DtbReader.getU32_eq hR, scan_ok_bind]
      split
      · exact Or.inr ⟨_, _, rfl, Nat.le_add_right _ _, fun hs => ⟨hs.1, hword⟩⟩
      · exact Or.inl rfl
  | some .dtbPropDeviceType | some .dtbPropReg | none => exact Or.inr ⟨_, _, hother, hskip.1, id⟩

/-- The cell counts are 32-bit words, and the cursors that are kept are within the blob. -/
structure Device.Inside (R : DtbReader) (d : Device) : Prop where
  addrCells : d.addrCells < 2 ^ 32
  sizeCells : d.sizeCells < 2 ^ 32
  devType : ∀ pos size, d.devType = some (pos, size) → pos ≤ R.dtb.length
  reg : ∀ pos size, d.reg = some (pos, size) → pos ≤ R.dtb.length

theorem readDeviceProperty_cases (hR : R.Sound) (h : loc ≤ R.dtb.length) (size : Nat) (d : Device)
    (tag : Option StringTag) :
    readDeviceProperty P A R size loc d tag = .error (.dtb .invalidDtb) ∨
      ∃ loc' d', readDeviceProperty P A R size loc d tag = .ok (loc', d') ∧ loc ≤ loc' ∧
        (d.Inside R → d'.Inside R) := by
  have hlen := hR.lengths A
  have hword := R.wordAt_lt loc
  have hskip := DtbReader.skipTo_bounds h (by omega) size
  have hpos : ∀ pos size', some (loc, size) = some (pos, size') → pos ≤ R.dtb.length := by
    intro pos size' heq
    cases heq
    exact h
  match tag with
  | some .dtbPropAddressCells =>
      simp only [readDeviceProperty, DtbReader.getU32_eq hR, scan_ok_bind]
      split
      · exact Or.inr ⟨_, _, rfl, Nat.le_add_right _ _, fun hd => ⟨hword, hd.sizeCells, hd.devType, hd.reg⟩⟩
      · exact Or.inl rfl
  | some .dtbPropSizeCells =>
      simp only [readDeviceProperty, DtbReader.getU32_eq hR, scan_ok_bind]
      split
      · exact Or.inr ⟨_, _, rfl, Nat.le_add_right _ _, fun hd => ⟨hd.addrCells, hword, hd.devType, hd.reg⟩⟩
      · exact Or.inl rfl
  | some .dtbPropDeviceType =>
      simp only [readDeviceProperty, DtbReader.skipAndAlign_eq hR h, scan_ok_bind]
      exact Or.inr ⟨_, _, rfl, hskip.1, fun hd => ⟨hd.addrCells, hd.sizeCells, hpos, hd.reg⟩⟩
  | some .dtbPropReg =>
      simp only [readDeviceProperty, DtbReader.skipAndAlign_eq hR h, scan_ok_bind]
      exact Or.inr ⟨_, _, rfl, hskip.1, fun hd => ⟨hd.addrCells, hd.sizeCells, hd.devType, hpos⟩⟩
  | none =>
      simp only [readDeviceProperty, DtbReader.skipAndAlign_eq hR h, scan_ok_bind]
      exact Or.inr ⟨_, _, rfl, hskip.1, id⟩

theorem rootProperty_tame (hR : R.Sound) : R.Tame (rootProperty P A R) Scanner.CellsFit := by
  intro header loc s h
  rcases readRootProperty_cases (P := P) (A := A) hR h header.size s (findTag A header.name) with herr | hok
  · exact Or.inl ⟨_, herr⟩
  · exact Or.inr hok

theorem deviceProperty_tame (hR : R.Sound) : R.Tame (deviceProperty P A R) (Device.Inside R) := by
  intro header loc d h
  rcases readDeviceProperty_cases (P := P) (A := A) hR h header.size d (findTag A header.name) with herr | hok
  · exact Or.inl ⟨_, herr⟩
  · exact Or.inr hok

theorem checkDeviceType_eq (h : loc ≤ R.dtb.length) :
    checkDeviceType R loc = .ok (decide (R.stringAt loc = some (asBytes "memory"))) := by
  rw [checkDeviceType, DtbReader.getNullTerminatedU8Slice_eq h, scan_ok_bind, DtbReader.stringAt]
  by_cases hnull : findNull (R.dtb.drop loc) loc = R.dtb.length
  · simp only [if_pos hnull]
    rfl
  · simp only [if_neg hnull, Option.some.injEq]
    rfl

/-- A pair is no longer than the blob. -/
def PairFits (R : DtbReader) (addrCells sizeCells : Nat) : Prop :=
  addrCells = 0 ∨ 4 * (addrCells + sizeCells) ≤ R.dtb.length

/-- A block that is clipped to the address space is valid. -/
theorem validBlock_clip {base size : Nat} (hbase : ¬ A.wordLimit - 1 < base) (hsize : size ≠ 0) :
    ValidBlock A (base, if base = 0 then min size (A.wordLimit - 1) else min size (A.wordLimit - 1 - base + 1)) := by
  have hlimit := two_pow_le_wordLimit A
  split
  · exact ⟨by simp only; omega, by simp only; omega, by simp only; omega, by simp only; omega⟩
  · exact ⟨by simp only; omega, by simp only; omega, by simp only; omega, by simp only; omega⟩

/-- The blocks of a `reg` property are read exactly if a pair fits. -/
theorem returns_addBlocks (hR : R.Sound) (hcells : 4 * (addrCells + sizeCells) + R.dtb.length < A.wordLimit)
    (count : Nat) (h : loc ≤ R.dtb.length) (config : MemoryConfig) :
    Returns (addBlocks P A virtualBase R addrCells sizeCells count loc config) ↔
      count = 0 ∨ PairFits R addrCells sizeCells := by
  constructor
  · intro hret
    cases count with
    | zero => exact Or.inl rfl
    | succ count =>
        rw [addBlocks, returns_bind, DtbReader.returns_getRegPair hR hcells h] at hret
        exact Or.inr hret.1
  · intro hfits
    induction count generalizing loc config with
    | zero => exact returns_ok _
    | succ count ih =>
        have hpair : PairFits R addrCells sizeCells := hfits.resolve_left (Nat.succ_ne_zero _)
        rw [addBlocks, returns_bind]
        refine ⟨(DtbReader.returns_getRegPair hR hcells h).2 hpair, ?_⟩
        rintro o ho
        match o with
        | none => exact returns_ok _
        | some ((base, size), loc') =>
            have hloc' := (DtbReader.getRegPair_some hR h ho).2
            simp only
            split
            next => exact ih hloc' config (Or.inr hpair)
            next hbase =>
              split
              next => exact ih hloc' config (Or.inr hpair)
              next hsize =>
                -- The clipped block is valid, so its range is handled without a panic.
                rw [handleRange_eq (validBlock_clip hbase hsize), checked_ok, scan_ok_bind]
                exact ih hloc' _ (Or.inr hpair)

/-- `add_memory_blocks` does not reject the property. -/
def RegAccepted (size addrCells sizeCells : Nat) : Prop :=
  0 < addrCells + sizeCells ∧ 0 < size ∧ 4 * (addrCells + sizeCells) ∣ size

theorem returns_addMemoryBlocks (hR : R.Sound) (hcells : 4 * (addrCells + sizeCells) + R.dtb.length < A.wordLimit)
    (size : Nat) (h : loc ≤ R.dtb.length) (config : MemoryConfig) :
    Returns (addMemoryBlocks P A virtualBase R size addrCells sizeCells loc config) ↔
      (RegAccepted size addrCells sizeCells → PairFits R addrCells sizeCells) := by
  rw [addMemoryBlocks, DtbReader.getRegPairSize_eq (by omega), scan_ok_bind]
  split
  next hbad =>
    refine iff_of_true (returns_ok _) fun hacc => ?_
    have hle := Nat.le_of_dvd hacc.2.1 hacc.2.2
    have hmod := Nat.mod_eq_zero_of_dvd hacc.2.2
    have hpos := hacc.1
    omega
  next hgood =>
    have hacc : RegAccepted size addrCells sizeCells :=
      ⟨by omega, by omega, Nat.dvd_of_mod_eq_zero (by omega)⟩
    have hcount : size / (4 * (addrCells + sizeCells)) ≠ 0 :=
      Nat.pos_iff_ne_zero.1 (Nat.div_pos (by omega) (by omega))
    rw [returns_addBlocks hR hcells _ h]
    exact ⟨fun hret _ => hret.resolve_left hcount, fun hret => Or.inr (hret hacc)⟩

/-- A memory device with a `reg` property that is accepted has pairs that fit. -/
def RegFits (R : DtbReader) (d : Device) : Prop :=
  ∀ pos n pos' size, d.devType = some (pos, n) → R.stringAt pos = some (asBytes "memory") → d.reg = some (pos', size) →
    RegAccepted size d.addrCells d.sizeCells → PairFits R d.addrCells d.sizeCells

theorem returns_addDevice (hR : R.Sound) (hA : 2 ^ 36 ≤ A.wordLimit) (hd : d.Inside R) (s : Scanner) :
    Returns (addDevice P A virtualBase R d s) ↔ RegFits R d := by
  have hlen := hR.lengths .arm
  have hmax : Arch.wordLimit .arm = 2 ^ 32 := rfl
  have ha := hd.addrCells
  have hs := hd.sizeCells
  -- The cells are 32-bit numbers, so the size of a pair does not wrap in a 64-bit word.
  have hcells : 4 * (d.addrCells + d.sizeCells) + R.dtb.length < A.wordLimit := by omega
  match htype : d.devType with
  | none =>
      rw [addDevice, htype]
      refine iff_of_true (returns_ok _) ?_
      intro pos n pos' size h
      rw [htype] at h
      cases h
  | some (pos, n) =>
      simp only [addDevice, htype, checkDeviceType_eq (hd.devType pos n htype), scan_ok_bind, decide_eq_true_eq]
      split
      next hmem =>
        match hreg : d.reg with
        | none =>
            refine iff_of_true (returns_ok _) ?_
            intro _ _ pos' size _ _ h
            rw [hreg] at h
            cases h
        | some (pos', size) =>
            simp only
            rw [returns_bind, returns_addMemoryBlocks hR hcells size (hd.reg pos' size hreg)]
            constructor
            · rintro ⟨h, -⟩ _ _ _ _ _ _ hreg' hacc
              rw [hreg] at hreg'
              cases hreg'
              exact h hacc
            · intro h
              exact ⟨h pos n pos' size htype hmem hreg, fun _ _ => returns_ok _⟩
      next hmem =>
        refine iff_of_true (returns_ok _) ?_
        intro pos' n' _ _ h hmem'
        rw [htype] at h
        cases h
        exact absurd hmem' hmem

theorem addDevice_cells (h : addDevice P A virtualBase R d s = .ok s') (hs : s.CellsFit) : s'.CellsFit := by
  rw [addDevice] at h
  split at h
  next =>
    cases h
    exact hs
  next =>
    rcases scan_bind_eq_ok.1 h with ⟨isMemory, -, h⟩
    split at h
    next =>
      split at h
      next =>
        cases h
        exact hs
      next =>
        rcases scan_bind_eq_ok.1 h with ⟨x, -, h⟩
        cases h
        exact hs
    next =>
      cases h
      exact hs

theorem scanNode_cells (hR : R.Sound) {name : List UInt8} {go : Bool}
    (h : scanNode P A virtualBase R name loc s = .ok (go, s')) (hs : s.CellsFit) : s'.CellsFit := by
  rw [scanNode] at h
  split at h
  next =>
    rcases scan_bind_eq_ok.1 h with ⟨x, hx, h⟩
    cases h
    exact (rootProperty_tame hR).keeps hR hs hx
  next =>
    rcases scan_bind_eq_ok.1 h with ⟨x, hx, h⟩
    cases h
    rw [scanDeviceNode] at hx
    rcases scan_bind_eq_ok.1 hx with ⟨d, -, hadd⟩
    exact addDevice_cells hadd hs

/-- The names of the properties of a node are within the blob, and so are the pairs of a memory node. -/
def NodeSafe (P : Profile) (A : Arch) (R : DtbReader) (name : List UInt8) (loc : Nat) (s : Scanner) : Prop :=
  if name.length = 0 then R.NamesInside P A (rootProperty P A R) loc s
  else R.NamesInside P A (deviceProperty P A R) loc ⟨none, none, s.addrCells, s.sizeCells⟩ ∧
    ∀ d, R.forProperties P A (deviceProperty P A R) loc ⟨none, none, s.addrCells, s.sizeCells⟩ = .ok d → RegFits R d

theorem returns_scanNode (hR : R.Sound) (hA : 2 ^ 36 ≤ A.wordLimit) (hs : s.CellsFit) (name : List UInt8) (loc : Nat) :
    Returns (scanNode P A virtualBase R name loc s) ↔ NodeSafe P A R name loc s := by
  have hinit : (⟨none, none, s.addrCells, s.sizeCells⟩ : Device).Inside R :=
    ⟨hs.1, hs.2, fun _ _ h => (nomatch h), fun _ _ h => (nomatch h)⟩
  rw [scanNode, NodeSafe]
  split
  next =>
    rw [returns_bind_left fun _ => returns_pure _]
    exact (rootProperty_tame hR).returns_forProperties hR (hR.name_lt hA) loc s
  next =>
    rw [returns_bind_left fun _ => returns_pure _, scanDeviceNode, returns_bind,
      (deviceProperty_tame hR).returns_forProperties hR (hR.name_lt hA)]
    refine and_congr_right fun _ => forall₂_congr fun d hd => ?_
    exact returns_addDevice hR hA ((deviceProperty_tame hR).keeps hR hinit hd) s

end Returns

end DtbMemory
end Propeller
