import Propeller.Arch.Aarch64.BootMap
import Propeller.Arch.BufferedPages
import Propeller.Arch.Granular

/-!
# Arch.Aarch64.Init — from the tables of the start code to the direct map

`init` adds to the tables of the start code: with serial output the registers of the device, then every range of
the memory configuration.  New tables come from what is left of the area for page tables.  No step takes back
what another one has mapped, and so the translation of an address is known whenever `init` returns.
-/

namespace Propeller
namespace Aarch64

open Paging

/-! ## The source -/

/-- `init_direct_map` -/
def initDirectMap (P : Profile) (virtBase pagesStart fuel : Nat) (ranges : List MemoryRange) (st : TableState Nat) :
    Run (TableState Nat) :=
  ranges.foldlM
    (fun st r => directMapMemory P virtBase pagesStart r.base r.size false .compact fuel st) st

/-- The pages in the order in which the allocator gives them. -/
def initSupply (pagesStart n : Nat) : Option Nat :=
  if n < 10 then some (pagesStart + 6 * pageSize + n * pageSize) else none

/-- What the call of `alloc` behind `n` other calls returns. -/
def nthAlloc {A : Arch} {w : Nat} (P : Profile) : Nat → BufferedPageAllocator A w → Run (Option (Nat × Nat))
  | 0, b => do
      let (page, _) ← b.alloc P 1
      return page
  | n + 1, b => do
      let (_, b) ← b.alloc P 1
      nthAlloc P n b

/-- The first `n` pages of the block are taken. -/
structure Given {A : Arch} {w : Nat} (B : BufferedPageAllocator.Block A) (n : Nat) (b : BufferedPageAllocator A w) :
    Prop where
  pageSize : b.pageSize = 2 ^ B.shift
  startAddr : b.startAddr = B.startAddr
  bits : b.bitmap.bits = B.count w
  isSet : ∀ i < B.count w, b.bitmap.isSet i = decide (i < n)

section Supply

variable {A : Arch} {w n : Nat} {B : BufferedPageAllocator.Block A} {b : BufferedPageAllocator A w}

/-- `alloc` gives the next page. -/
theorem Given.alloc (h : Given B n b) (P : Profile) :
    ∃ b', b.alloc P 1 = .ok (if n < B.count w then some (B.page n, 1) else none, b') ∧ Given B (n + 1) b' := by
  match hzero : b.bitmap.firstZero with
  | none =>
      have hall := Bitmap.firstZero_eq_none hzero
      have hfull : ∀ i < B.count w, i < n := by
        intro i hi
        have hset := hall i (h.bits ▸ hi)
        rw [h.isSet i hi, decide_eq_true_iff] at hset
        exact hset
      have hge : ¬ n < B.count w := fun hlt => absurd (hfull n hlt) (Nat.lt_irrefl n)
      refine ⟨b, ?_, h.pageSize, h.startAddr, h.bits, ?_⟩
      · simp only [BufferedPageAllocator.alloc, hzero, ne_eq, not_true_eq_false, if_false, hge]
      · intro i hi
        rw [h.isSet i hi, decide_eq_true (hfull i hi), decide_eq_true ((hfull i hi).trans (Nat.lt_succ_self n))]
  | some z =>
      rcases Bitmap.firstZero_eq_some hzero with ⟨hz, hfree, hbelow⟩
      rw [h.bits] at hz
      -- The first page whose bit is clear is page `n`.
      have hzn : z = n := by
        rw [h.isSet z hz, decide_eq_false_iff_not] at hfree
        by_contra hne
        have hset := hbelow n (by omega)
        rw [h.isSet n (by omega), decide_eq_true_iff] at hset
        exact Nat.lt_irrefl n hset
      subst hzn
      have hpage : B.startAddr + z * 2 ^ B.shift < A.wordLimit :=
        (BufferedPageAllocator.Block.page_lt hz).trans B.end_lt
      refine ⟨{ b with bitmap := b.bitmap.setBit z }, ?_, h.pageSize, h.startAddr, ?_, ?_⟩
      · simp only [BufferedPageAllocator.alloc, hzero, ne_eq, not_true_eq_false, if_false, h.pageSize, h.startAddr,
          mulWord_of_lt (show z * 2 ^ B.shift < A.wordLimit by omega), run_ok_bind, addWord_of_lt hpage, hz, if_true]
        rfl
      · exact (Bitmap.setBit_bits _ _).trans h.bits
      · intro i hi
        show (b.bitmap.setBit z).isSet i = _
        rw [Bitmap.isSet_setBit (h.bits ▸ hz), h.isSet i hi, ← Bool.decide_or]
        exact decide_eq_decide.2 (by omega)

theorem Given.nthAlloc (h : Given B n b) (P : Profile) (m : Nat) :
    nthAlloc P m b = .ok (if n + m < B.count w then some (B.page (n + m), 1) else none) := by
  induction m generalizing n b with
  | zero =>
      rcases h.alloc P with ⟨b', hrun, -⟩
      rw [Aarch64.nthAlloc, hrun]
      rfl
  | succ m ih =>
      rcases h.alloc P with ⟨b', hrun, h'⟩
      rw [Aarch64.nthAlloc, hrun, run_ok_bind, show n + (m + 1) = n + 1 + m by omega]
      exact ih h'

end Supply

/-! ## One range after the other -/

/-- A range is mapped at the virtual base, and the walks of other addresses are as before. -/
structure RangeMapped (st st' : TableState Nat) (root base size : Nat) : Prop where
  inside : ∀ x, base ≤ x → x < base + size → translate st' root (virtualBase + x) = some x
  outside : ∀ x < 2 ^ 48, ¬ (base ≤ x ∧ x < base + size) →
    mmu.leaf st'.mem 3 root (virtualBase + x) = mmu.leaf st.mem 3 root (virtualBase + x)

section Ranges

variable {P : Profile} {st st' : TableState Nat} {root base size fuel : Nat} {S : Set Nat} {ranges : List MemoryRange}

/-- Where nothing is mapped, no block is in the way of a range. -/
theorem RangeMapped.clear {base' size' : Nat} (h : RangeMapped st st' root base size) (hlimit : base' + size' ≤ 2 ^ 48)
    (hapart : base + size ≤ base' ∨ base' + size' ≤ base)
    (hclear : Clear mmu st 3 root (virtualBase + base') size') : Clear mmu st' 3 root (virtualBase + base') size' := by
  intro v hlo hhi b hb
  obtain ⟨x, rfl⟩ := Nat.exists_eq_add_of_le (show virtualBase ≤ v by omega)
  rw [h.outside x (by omega) (by omega)] at hb
  exact hclear _ hlo hhi b hb

/-- A granular fill of a range within 2 MiB, whenever it returns. -/
theorem mapMemory_maps {virt : Nat} {device : Bool} (hs : Sound mmu physLimit st 3 root S)
    (hvirt : pageSize ∣ virt) (hbase : pageSize ∣ base) (hsize : pageSize ∣ size) (hpos : 0 < size)
    (hend : virt + size ≤ 2 ^ 64) (hlimit : base + size ≤ 2 ^ 48) (hwin : virt % span 1 + size ≤ span 1)
    (hclear : Clear mmu st 3 root virt size)
    (hrun : mapMemory P root virt base size device .granular fuel st = .ok st') :
    Maps mmu st st' 3 root virt base size ∧ Sound mmu physLimit st' 3 root (S ∪ pages st st') := by
  have hfits : Fits .aarch64 virt base size := by
    have hword : Arch.wordLimit .aarch64 = 2 ^ 64 := rfl
    exact ⟨by omega, by omega, by omega⟩
  have hloop : granularLoop format P .aarch64 device fuel .level1 root virt base size st = .ok st' :=
    checkAligned_eq_ok hrun
  exact ⟨granularLoop_maps (l := TableLevel.level1) lawful hs hfits hlimit hvirt hbase hsize hpos hwin
    (fun h => by cases h) hclear hloop, hs.keeps (granularLoop_keeps (l := TableLevel.level1) lawful hs hfits hloop)⟩

end Ranges

/-! ## The memory configuration -/

theorem exists_of_isOk {α : Type} {x : Run α} (h : x.isOk = true) : ∃ a, x = .ok a := by
  cases x with
  | ok a => exact ⟨a, rfl⟩
  | error e => cases h

/-- The tables and the pages that `init` starts with. -/
def bootState (sym : BootSymbols) (blob blobSize : Nat) (mem : Tables Nat) : TableState Nat where
  mem := bootPageTables sym blob blobSize mem
  supply := initSupply sym.pagesStart
  used := 0

/-- The registers of the serial device are pages of one section, and away from everything that is mapped. -/
structure SerialFits (sym : BootSymbols) (blob blobSize : Nat) (config : MemoryConfig) (range : Nat × Nat) : Prop where
  base_dvd : pageSize ∣ range.1
  size_dvd : pageSize ∣ range.2
  pos : 0 < range.2
  limit : range.1 + range.2 ≤ 2 ^ 48
  window : range.1 % span 1 + range.2 ≤ span 1
  sections : ∀ x, range.1 ≤ x → x < range.1 + range.2 → ¬ InSections sym blob blobSize x
  apart : ∀ r ∈ config.ranges, range.1 + range.2 ≤ r.base ∨ r.base + r.size ≤ range.1

theorem SerialFits.not_mem {sym : BootSymbols} {blob blobSize x : Nat} {config : MemoryConfig} {range : Nat × Nat}
    (h : SerialFits sym blob blobSize config range) (hlo : range.1 ≤ x) (hhi : x < range.1 + range.2) :
    x ∉ config.addrs := by
  rintro ⟨r, hr, hx⟩
  have hx' := Range.mem_addrs.1 hx
  rcases h.apart r hr with hbelow | habove
  · omega
  · omega

section Init

variable {P : Profile} {sym : BootSymbols} {kernelStart blob blobSize fuel fuel' : Nat} {s : Sections} {mem : Tables Nat}
  {st' : TableState Nat} {config : MemoryConfig} {blocks : List (Nat × Nat)} {serial : Option (Nat × Nat)}

/-- What the start code leaves is a tree of tables, and the pages behind it are fresh. -/
theorem bootState_sound (hl : BootLayout sym) (hlimit : sym.kernelEnd ≤ 2 ^ 30) (hsize : 0 < blobSize)
    (hblob : blob + blobSize ≤ 2 ^ 30) (mem : Tables Nat) :
    Sound mmu physLimit (bootState sym blob blobSize mem) 3 sym.pagesStart
      {t | ∃ k < 6, t = sym.pagesStart + k * pageSize} := by
  have hpage : pageSize = 4096 := rfl
  have hphys : physLimit = 2 ^ 48 := rfl
  have hend : sym.kernelEnd = sym.pagesStart + 16 * 4096 := hl.kernelEnd
  have hsupply : ∀ n x, (bootState sym blob blobSize mem).supply n = some x →
      n < 10 ∧ x = sym.pagesStart + 6 * pageSize + n * pageSize := by
    intro n x hx
    simp only [bootState, initSupply] at hx
    split at hx
    · rename_i hn
      exact ⟨hn, (Option.some.inj hx).symm⟩
    · cases hx
  rcases createKernelPageTables_tables hl hlimit blob blobSize mem with ⟨entry, htables, hentry⟩
  have hboot := setupPrimaryCoreStack_tables hl htables
  refine ⟨hboot.separate hl hlimit (hentry hsize hblob), ?_, ?_, ?_⟩
  · rintro x ⟨k, hk, rfl⟩
    rw [hphys, hpage]
    omega
  · intro n x _ hx
    rcases hsupply n x hx with ⟨hn, rfl⟩
    refine ⟨?_, ?_, ?_⟩
    · rintro ⟨k, hk, heq⟩
      rw [hpage] at heq
      omega
    · rw [hphys, hpage]
      omega
    · exact dvd_add (dvd_add hl.dvd_pages (Nat.dvd_mul_left _ _)) (Nat.dvd_mul_left _ _)
  · intro n m x _ _ hn hm
    have hn' := (hsupply n x hn).2
    have hm' := (hsupply m x hm).2
    rw [hpage] at hn' hm'
    omega

/-- The translation of the tables that `init` starts with. -/
theorem bootState_translate (hl : BootLayout sym) (hlimit : sym.kernelEnd ≤ 2 ^ 30) (hsize : 0 < blobSize)
    (hblob : blob + blobSize ≤ 2 ^ 30) (mem : Tables Nat) {x : Nat} (hx : x < 2 ^ 48) :
    translate (bootState sym blob blobSize mem) sym.pagesStart (virtualBase + x) =
      bootMap sym blob blobSize (virtualBase + x) := by
  rcases createKernelPageTables_tables hl hlimit blob blobSize mem with ⟨entry, htables, hentry⟩
  exact (setupPrimaryCoreStack_tables hl htables).walk hl hlimit hblob (hentry hsize hblob) hx

end Init

end Aarch64
end Propeller
