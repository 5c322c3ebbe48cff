import Propeller.Arch.DtbCpu
import Propeller.Arch.DtbMemory
import Propeller.Support.DtbTree

/-!
# Arch.DtbScan — scans of arbitrary blobs

The reader and its two scanners on a blob of which only the header is known to be accepted.  They return on every
blob but those that refer to something behind their end.
-/

namespace Propeller

open DtbReader

/-- The scan of `get_memory_layout`. -/
def scanMemory (P : Profile) (A : Arch) (virtualBase : Nat) (blob : List UInt8) : Scan DtbMemory.Scanner := do
  let R ← DtbReader.new P A blob
  R.scan P A (DtbMemory.scanNode P A virtualBase) (.new RangeSet.new)

/-- The scan of `get_core_config`. -/
def scanCores (P : Profile) (A : Arch) (primaryId : Nat) (blob : List UInt8) : Scan (DtbCpu.Scanner A) := do
  let R ← DtbReader.new P A blob
  R.scan P A (DtbCpu.scanNode P A primaryId) (.new Cpu.CoreConfig.new)

variable {P : Profile} {A : Arch} {blob : List UInt8}

theorem two_pow_le_aarch64 : 2 ^ 36 ≤ Arch.wordLimit .aarch64 := by decide

/-- A scan of a blob returns exactly when the scanner does at the nodes that are visited. -/
theorem returns_blob {σ : Type} {scanNode : Scanner σ} {s : σ} (hA : 2 ^ 36 ≤ A.wordLimit)
    (h : checkDtb blob = .ok blob.length) :
    Returns (do let R ← DtbReader.new P A blob; R.scan P A scanNode s) ↔
      ∀ R, DtbReader.new P A blob = .ok R → ∀ name loc s', R.Visits P A scanNode s name loc s' →
        Returns (scanNode R name loc s') := by
  rcases new_cases P A h with herr | ⟨R, hnew, hR, -⟩
  · rw [herr]
    exact iff_of_true (returns_dtb _) fun R hnew => nomatch hnew
  · have hlimit : ¬ SizeOverflows A R := by
      rintro ⟨t, ht⟩
      have hword := R.wordAt_lt t
      omega
    rw [hnew, scan_ok_bind, returns_scan hlimit hR]
    constructor
    · intro hall R' hR'
      exact Except.ok.inj hR' ▸ hall
    · intro hall
      exact hall R rfl

/-- On a 64-bit platform, the reader and its scanners return on exactly the blobs that do not refer to something
behind their end: at every node that is visited, the names of the properties, the pairs of a memory node and the
thread identifier of a core are within the blob. -/
theorem scan_returns_iff (P : Profile) (blob : List UInt8) (virtualBase primaryId : Nat)
    (h : checkDtb blob = .ok blob.length) :
    (Returns (scanMemory P .aarch64 virtualBase blob) ↔
      ∀ R, DtbReader.new P .aarch64 blob = .ok R → ∀ name loc s,
        R.Visits P .aarch64 (DtbMemory.scanNode P .aarch64 virtualBase) (.new RangeSet.new) name loc s →
          DtbMemory.NodeSafe P .aarch64 R name loc s) ∧
      (Returns (scanCores P .aarch64 primaryId blob) ↔
        ∀ R, DtbReader.new P .aarch64 blob = .ok R → ∀ name loc s,
          R.Visits P .aarch64 (DtbCpu.scanNode P .aarch64 primaryId) (.new Cpu.CoreConfig.new) name loc s →
            DtbCpu.NodeSafe P .aarch64 R name loc s) := by
  constructor
  · rw [scanMemory, returns_blob two_pow_le_aarch64 h]
    refine forall₂_congr fun R hnew => forall₃_congr fun name loc s => forall_congr' fun hvisit => ?_
    have hR := new_sound h hnew
    -- The cells that a node reads with are 32-bit numbers at every visit.
    have hcells := (Visits.invariant hR (I := DtbMemory.Scanner.CellsFit)
      (fun _ _ _ _ _ _ hs hnode => DtbMemory.scanNode_cells hR hnode hs)
      ⟨Nat.two_pow_pos 32, Nat.two_pow_pos 32⟩ hvisit).1
    exact DtbMemory.returns_scanNode hR two_pow_le_aarch64 hcells name loc
  · rw [scanCores, returns_blob two_pow_le_aarch64 h]
    refine forall₂_congr fun R hnew => forall₃_congr fun name loc s => forall_congr' fun hvisit => ?_
    have hR := new_sound h hnew
    have hinit : (DtbCpu.Scanner.new (Cpu.CoreConfig.new : Cpu.CoreConfig .aarch64)).CellsFit := Nat.two_pow_pos 32
    have hcells := (Visits.invariant hR (I := DtbCpu.Scanner.CellsFit)
      (fun _ _ _ _ _ _ hs hnode => DtbCpu.scanNode_cells hR hnode hs) hinit hvisit).1
    exact DtbCpu.returns_scanNode hR two_pow_le_aarch64 hcells name loc

/-- A memory node, before the given nodes. -/
def memoryNode (reg : List Nat) : Forest → Forest :=
  .node (asBytes "memory")
    [some ⟨asBytes "device_type", asBytes "memory" ++ [0], 27⟩, some ⟨asBytes "reg", ofWords reg, 39⟩] .nil

/-- A blob with one cell for an address and one for a size. -/
def memoryBlob (children : Forest) : List UInt8 :=
  DeviceTree.blob
    ⟨[], [some ⟨asBytes "#address-cells", ofWords [1], 0⟩, some ⟨asBytes "#size-cells", ofWords [1], 15⟩], children, 0⟩
    (["#address-cells", "#size-cells", "device_type", "reg"].map asBytes)

/-- 16 MiB of memory. -/
theorem scan_returns_memory :
    checkDtb (memoryBlob (memoryNode [0x40000000, 0x1000000] .nil)) =
        .ok (memoryBlob (memoryNode [0x40000000, 0x1000000] .nil)).length ∧
      (∀ R, DtbReader.new .dev .aarch64 (memoryBlob (memoryNode [0x40000000, 0x1000000] .nil)) = .ok R →
        ∀ name loc s, R.Visits .dev .aarch64 (DtbMemory.scanNode .dev .aarch64 0) (.new RangeSet.new) name loc s →
          DtbMemory.NodeSafe .dev .aarch64 R name loc s) ∧
      ∀ R, DtbReader.new .dev .aarch64 (memoryBlob (memoryNode [0x40000000, 0x1000000] .nil)) = .ok R →
        ∀ name loc s, R.Visits .dev .aarch64 (DtbCpu.scanNode .dev .aarch64 0) (.new Cpu.CoreConfig.new) name loc s →
          DtbCpu.NodeSafe .dev .aarch64 R name loc s := by
  have hcheck : checkDtb (memoryBlob (memoryNode [0x40000000, 0x1000000] .nil)) =
      .ok (memoryBlob (memoryNode [0x40000000, 0x1000000] .nil)).length := by decide +kernel
  rcases scan_returns_iff .dev _ 0 0 hcheck with ⟨hmemory, hcores⟩
  exact ⟨hcheck, hmemory.1 (by decide +kernel), hcores.1 (by decide +kernel)⟩

/-- The root node has a property with its name far behind the blob. -/
theorem scan_panics_name :
    checkDtb (ofWords [fdtMagic, 68, 40, 68, 0, 17, 16, 0, 0, 28, 1, 0, 3, 0, 0x1000, 2, 9]) = .ok 68 ∧
      (ofWords [fdtMagic, 68, 40, 68, 0, 17, 16, 0, 0, 28, 1, 0, 3, 0, 0x1000, 2, 9]).length = 68 ∧
      ¬ Returns (scanMemory .dev .aarch64 0
        (ofWords [fdtMagic, 68, 40, 68, 0, 17, 16, 0, 0, 28, 1, 0, 3, 0, 0x1000, 2, 9])) := by
  refine ⟨?_, ?_, ?_⟩
  all_goals decide +kernel

end Propeller
