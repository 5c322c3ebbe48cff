import Propeller.Arch.Arm.Mm
import Propeller.Arch.Arm.Stacks
import Propeller.Arch.Cpu
import Propeller.Support.Bitmap

/-!
# Arch.Arm.LocalMappings — the pages a task maps into its core's section

A core has a section of the thread local area and one Level 3 table for it.  A task maps pages one behind the
other and unmaps the last one.  A page in linear memory takes an entry of the table as well, but leaves it zero;
`unmap_page` does not know which pages are high, so it relies on the word in the table.
-/

namespace Propeller
namespace Arm

open Paging
open Cpu (MAX_CORES)

/-! ## The source -/

def sectionShift : Nat := 21

def pageTableEntryShift : Nat := 3

def maxLocalMappings : Nat := pageSize >>> pageTableEntryShift

def cpuMaskWords : Nat := (MAX_CORES .arm + Arch.arm.wordBits - 1) >>> Arch.arm.wordBitShift

abbrev AffinityMask : Type := Bitmap .arm cpuMaskWords

/-- `TaskContext` with the fields that the local mappings use. -/
structure TaskContext where
  mapCount : Nat
  pinMask : Option AffinityMask

/-- `TaskContext::default()`. -/
def TaskContext.default : TaskContext := ⟨0, none⟩

/-- What the context takes from the kernel configuration and the device tree. -/
structure LocalConfig where
  split : VmSplit
  coreCount : Nat
  threadLocalAreaVirtualBase : Nat
  deriving DecidableEq, Repr

/-- The part of `init_memory_config` that places the thread local area. -/
def placeThreadLocalArea (P : Profile) (kernelStackPages coreCount : Nat) : Run Nat := do
  let isrBase ← isrStackAreaVirtualBase P kernelStackPages coreCount
  let size ← mulWord P .arm sectionSize coreCount
  let base ← subWord P .arm isrBase size
  return alignDown .arm base sectionSize

def getThreadLocalVirtualBase (P : Profile) (cfg : LocalConfig) (coreIdx : Nat) : Run Nat := do
  require (coreIdx < cfg.coreCount) .localMapping
  addWord P .arm cfg.threadLocalAreaVirtualBase (coreIdx <<< sectionShift % Arch.arm.wordLimit)

/-- The table that maps an address of the upper GiB, seen through the recursive mapping. -/
def getPageVirtualAddressForVirtualAddress (P : Profile) (virtAddr : Nat) : Run (Option Nat) :=
  if virtAddr < 0xc0000000 then .ok none
  else do
    let index := (virtAddr - 0xc0000000) >>> sectionShift
    let table ← addWord P .arm recursiveMapArea (index <<< pageShift % Arch.arm.wordLimit)
    return some table

/-- The two words that `mmu_update_table_entry_local` stores. -/
def mmuUpdateTableEntryLocal (mem : Nat → Nat) (descVaddr desc descHigh : Nat) : Nat → Nat :=
  Function.update (Function.update mem descVaddr desc) (descVaddr + 4) descHigh

/-- The address of `table[idx]` in a slice of 1024 words. -/
def wordOf (table idx : Nat) : Run Nat :=
  if idx < 1024 then .ok (table + 4 * idx) else .error .index

def mapPageLocal (P : Profile) (table sectionVaddr pageAddr count : Nat) (device : Bool) (mem : Nat → Nat) :
    Run (Nat × (Nat → Nat)) := do
  require (count < maxLocalMappings) .localMapping
  let idx := count <<< 1
  let pageVaddr ← addWord P .arm sectionVaddr (count <<< pageShift % Arch.arm.wordLimit)
  let descVaddr ← wordOf table idx
  let desc ← unwrap (makeDescriptor .level3 pageAddr device)
  return (pageVaddr, mmuUpdateTableEntryLocal mem descVaddr desc.1 desc.2)

def unmapPageLocal (P : Profile) (table sectionVaddr count : Nat) (mem : Nat → Nat) : Run (Nat → Nat) := do
  require (count > 0) .localMapping
  let idx := (count - 1) <<< 1
  let descVaddr ← wordOf table idx
  -- A null entry stands for a page in linear memory.
  if mem descVaddr = 0 then return mem
  else
    let _pageVaddr ← addWord P .arm sectionVaddr ((count - 1) <<< pageShift % Arch.arm.wordLimit)
    return mmuUpdateTableEntryLocal mem descVaddr 0 0

/-- A task and the words at the virtual addresses of the kernel. -/
structure LocalState where
  context : TaskContext
  mem : Nat → Nat

/-- `TaskContext::map_page` on the core `coreIdx`. -/
def mapPage (P : Profile) (cfg : LocalConfig) (coreIdx pageAddr : Nat) (s : LocalState) : Run (Nat × LocalState) :=
  if pageAddr < getHighMemBase cfg.split.virtualBase then do
    let mapCount ← addWord P .arm s.context.mapCount 1
    let vaddr ← addWord P .arm cfg.split.virtualBase pageAddr
    return (vaddr, ⟨{ s.context with mapCount }, s.mem⟩)
  else do
    let pinMask := s.context.pinMask.getD ((Bitmap.new .arm cpuMaskWords (MAX_CORES .arm)).setBit coreIdx)
    let localBase ← getThreadLocalVirtualBase P cfg coreIdx
    let table ← (← getPageVirtualAddressForVirtualAddress P localBase) |> unwrap
    let (vaddr, mem) ← mapPageLocal P table localBase pageAddr s.context.mapCount false s.mem
    let mapCount ← addWord P .arm s.context.mapCount 1
    return (vaddr, ⟨⟨mapCount, some pinMask⟩, mem⟩)

/-- `TaskContext::unmap_page` on the core `coreIdx`. -/
def unmapPage (P : Profile) (cfg : LocalConfig) (coreIdx : Nat) (s : LocalState) : Run LocalState :=
  if s.context.mapCount = 0 then .ok s
  else do
    let localBase ← getThreadLocalVirtualBase P cfg coreIdx
    let table ← (← getPageVirtualAddressForVirtualAddress P localBase) |> unwrap
    let mem ← unmapPageLocal P table localBase s.context.mapCount s.mem
    let mapCount := s.context.mapCount - 1
    return ⟨⟨mapCount, if mapCount = 0 then none else s.context.pinMask⟩, mem⟩

/-! ## What the mappings are for -/

/-- The entry `i` of a table: its low and its high word. -/
def entry (mem : Nat → Nat) (table i : Nat) : Desc :=
  (mem (table + 4 * (2 * i)), mem (table + 4 * (2 * i) + 4))

/-- A mapping of a task: the page, the address that `map_page` returned, and the entry of the table after the
call. -/
structure Mapping where
  pageAddr : Nat
  vaddr : Nat
  entry : Desc
  deriving DecidableEq, Repr

def Mapping.High (cfg : LocalConfig) (m : Mapping) : Prop :=
  getHighMemBase cfg.split.virtualBase ≤ m.pageAddr

instance (cfg : LocalConfig) (m : Mapping) : Decidable (m.High cfg) :=
  inferInstanceAs (Decidable (_ ≤ _))

inductive LocalCall
  | mapPage (pageAddr : Nat)
  | unmapPage
  deriving DecidableEq, Repr

/-- The number of live mappings after a call. -/
def depthAfter (n : Nat) : LocalCall → Nat
  | .mapPage _ => n + 1
  | .unmapPage => n - 1

/-- The number of live mappings after some calls. -/
def depth (n : Nat) (calls : List LocalCall) : Nat :=
  calls.foldl depthAfter n

/-- A call, with the list of the live mappings. -/
def callStep (P : Profile) (cfg : LocalConfig) (coreIdx table : Nat) (call : LocalCall)
    (s : LocalState × List Mapping) : Run (LocalState × List Mapping) :=
  match call with
  | .mapPage pageAddr => do
      let (vaddr, t) ← mapPage P cfg coreIdx pageAddr s.1
      return (t, s.2 ++ [⟨pageAddr, vaddr, entry t.mem table s.1.context.mapCount⟩])
  | .unmapPage => do
      let t ← unmapPage P cfg coreIdx s.1
      return (t, s.2.dropLast)

def runLocal (P : Profile) (cfg : LocalConfig) (coreIdx table : Nat) :
    List LocalCall → LocalState × List Mapping → Run (LocalState × List Mapping)
  | [], s => .ok s
  | call :: calls, s => do
      let t ← callStep P cfg coreIdx table call s
      runLocal P cfg coreIdx table calls t

/-- The local mappings of a task as a stack. -/
structure MappedAsStack (cfg : LocalConfig) (coreIdx localBase table : Nat) (s : LocalState) (live : List Mapping) :
    Prop where
  count : s.context.mapCount = live.length
  zero_above : ∀ i < 512, s.context.mapCount ≤ i → entry s.mem table i = (0, 0)
  /-- The hardware finds the page in the entry for the address. -/
  mapped : ∀ m ∈ live, m.High cfg →
    decode 0 (s.mem (table + 4 * getDescriptorIndex m.vaddr .level3),
      s.mem (table + 4 * getDescriptorIndex m.vaddr .level3 + 4)) = .block (m.pageAddr / pageSize * pageSize)
  distinct : ((live.filter fun m => m.High cfg).map (·.vaddr)).Nodup
  inside : ∀ m ∈ live, m.High cfg → pageSize ∣ m.vaddr ∧ localBase ≤ m.vaddr ∧ m.vaddr + pageSize ≤ localBase + sectionSize
  kept : ∀ i m, live[i]? = some m → entry s.mem table i = m.entry
  pinned : (∃ m ∈ live, m.High cfg) → ∃ mask, s.context.pinMask = some mask ∧ mask.isSet coreIdx = true

/-! ## The section of a core -/

variable {P : Profile} {cfg : LocalConfig} {coreIdx localBase table count i j : Nat} {mem : Nat → Nat}
  {s : LocalState} {live : List Mapping} {calls : List LocalCall}

/-- The code finds the section of the core and its table, and both end within the address space. -/
structure CoreSection (P : Profile) (cfg : LocalConfig) (coreIdx localBase table : Nat) : Prop where
  localBase_eq : getThreadLocalVirtualBase P cfg coreIdx = .ok localBase
  table_eq : getPageVirtualAddressForVirtualAddress P localBase = .ok (some table)
  aligned : sectionSize ∣ localBase
  fits : localBase + sectionSize ≤ Arch.arm.wordLimit
  core : coreIdx < MAX_CORES .arm

/-- The area is in the upper GiB, with the stacks of the linker script. -/
theorem placeThreadLocalArea_eq (P : Profile) {coreCount : Nat} (hpos : 0 < coreCount)
    (hmax : coreCount ≤ MAX_CORES .arm) :
    ∃ areaBase, placeThreadLocalArea P kernelStackPages coreCount = .ok areaBase ∧ sectionSize ∣ areaBase ∧
      0xc0000000 ≤ areaBase ∧ areaBase + sectionSize * coreCount ≤ pageDatabaseVirtualBase := by
  have hcores : coreCount ≤ 16 := hmax
  have hpages : (kernelStackPages + 1) * pageSize * 4 * coreCount = 49152 * coreCount := rfl
  have hsections : sectionSize * coreCount = 2097152 * coreCount := rfl
  have hdb : pageDatabaseVirtualBase = 0xfe400000 := by decide
  have hword : Arch.arm.wordLimit = 2 ^ 32 := rfl
  have hisr := (isrStackAreaVirtualBase_eq P hpos (show _ ≤ _ from hpages.trans_le (by omega))).2
  have halign : alignDown .arm (pageDatabaseVirtualBase - 49152 * coreCount - 2097152 * coreCount) sectionSize =
      (pageDatabaseVirtualBase - 49152 * coreCount - 2097152 * coreCount) / 2 ^ 21 * 2 ^ 21 :=
    alignDown_eq (k := 21) (show _ < 2 ^ 32 by omega) (by decide)
  rw [placeThreadLocalArea, hisr, run_ok_bind, mulWord_of_lt (by omega), run_ok_bind, hpages, hsections,
    subWord_of_le (by omega) (by omega), run_ok_bind, halign]
  refine ⟨_, rfl, Nat.dvd_mul_left _ _, ?_, ?_⟩ <;> omega

theorem coreSection (P : Profile) (split : VmSplit) {coreCount areaBase : Nat} (hmax : coreCount ≤ MAX_CORES .arm)
    (hidx : coreIdx < coreCount) (hdvd : sectionSize ∣ areaBase) (hupper : 0xc0000000 ≤ areaBase)
    (hend : areaBase + sectionSize * coreCount ≤ pageDatabaseVirtualBase) :
    ∃ localBase table, CoreSection P ⟨split, coreCount, areaBase⟩ coreIdx localBase table := by
  have hcores : coreCount ≤ 16 := hmax
  have hdb : pageDatabaseVirtualBase = 0xfe400000 := by decide
  have hrec : recursiveMapArea = 0xffc00000 := rfl
  have hsections : sectionSize * coreCount = 2097152 * coreCount ∧ coreIdx * sectionSize = coreIdx * 2097152 := ⟨rfl, rfl⟩
  have hword : Arch.arm.wordLimit = 2 ^ 32 := rfl
  have hshift : coreIdx <<< sectionShift % Arch.arm.wordLimit = coreIdx * sectionSize := by
    rw [Nat.shiftLeft_eq, sectionShift, Nat.mod_eq_of_lt (by omega)]
    rfl
  have hbase : getThreadLocalVirtualBase P ⟨split, coreCount, areaBase⟩ coreIdx =
      .ok (areaBase + coreIdx * sectionSize) := by
    rw [getThreadLocalVirtualBase, require, if_pos hidx, run_ok_bind, hshift]
    exact addWord_of_lt (show areaBase + _ < _ by omega)
  have hindex : (areaBase + coreIdx * sectionSize - 0xc0000000) >>> sectionShift < 512 := by
    rw [Nat.shiftRight_eq_div_pow, sectionShift]
    omega
  have htable : getPageVirtualAddressForVirtualAddress P (areaBase + coreIdx * sectionSize) =
      .ok (some (recursiveMapArea + ((areaBase + coreIdx * sectionSize - 0xc0000000) >>> sectionShift) * pageSize)) := by
    have hpage : 511 * pageSize = 2093056 := rfl
    have hle := Nat.mul_le_mul_right pageSize (Nat.le_of_lt_succ hindex)
    rw [getPageVirtualAddressForVirtualAddress, if_neg (by omega)]
    simp only
    rw [Nat.shiftLeft_eq, ← pageSize_eq, Nat.mod_eq_of_lt (by omega), addWord_of_lt (by omega)]
    rfl
  refine ⟨_, _, hbase, htable, Nat.dvd_add hdvd (Nat.dvd_mul_left _ _), ?_, hidx.trans_le hmax⟩
  have hsection : sectionSize = 2 ^ 21 := rfl
  omega

/-! ## The table -/

theorem wordOf_entry (table : Nat) (h : i < 512) : wordOf table (i <<< 1) = .ok (table + 4 * (2 * i)) := by
  rw [Nat.shiftLeft_eq, Nat.pow_one, Nat.mul_comm i, wordOf, if_pos (by omega)]

/-- The two words are those of one entry. -/
theorem entry_update (mem : Nat → Nat) (table i j : Nat) (d : Desc) :
    entry (mmuUpdateTableEntryLocal mem (table + 4 * (2 * i)) d.1 d.2) table j =
      if j = i then d else entry mem table j := by
  rw [entry, mmuUpdateTableEntryLocal]
  split
  next heq =>
    rw [heq, Function.update_self, Function.update_of_ne (by omega), Function.update_self]
  next hne =>
    rw [Function.update_of_ne (by omega), Function.update_of_ne (by omega), Function.update_of_ne (by omega),
      Function.update_of_ne (by omega), entry]

/-- The descriptor of a page in high memory. -/
def pageEntry (pageAddr : Nat) : Desc :=
  makePageDescriptor (pageAddr &&& tableOrPageLowMaskLong) mmNormalMairIdxLong

theorem pageEntry_eq (pageAddr : Nat) : ∃ c, c < 2 ^ 12 ∧ c % 4 = 3 ∧ pageEntry pageAddr = (bitField 12 32 pageAddr ||| c, 0) := by
  rcases or_attributes false (bitField 12 32 pageAddr) mmPageFlagLong (Or.inr rfl) with ⟨c, hlt, hmod, heq⟩
  refine ⟨c, hlt, hmod, ?_⟩
  rw [pageEntry, makePageDescriptor, and_tableOrPageLowMaskLong]
  exact congrArg (·, 0) heq

theorem pageEntry_ne_zero (pageAddr : Nat) : (pageEntry pageAddr).1 ≠ 0 := by
  rcases pageEntry_eq pageAddr with ⟨c, -, hmod, heq⟩
  have htype : (bitField 12 32 pageAddr ||| c) % 4 = 3 :=
    (or_mod_two_pow (four_dvd_bitField 12 pageAddr (by decide))).trans hmod
  rw [heq]
  omega

theorem decode_pageEntry {pageAddr : Nat} (h : pageAddr < Arch.arm.wordLimit) :
    decode 0 (pageEntry pageAddr) = .block (pageAddr / pageSize * pageSize) := by
  rcases pageEntry_eq pageAddr with ⟨c, hlt, hmod, heq⟩
  have hfield : bitField 12 32 pageAddr = pageAddr / pageSize * pageSize :=
    congrArg (· / 2 ^ 12 * 2 ^ 12) (Nat.mod_eq_of_lt h)
  have haddr : pageAddr / pageSize * pageSize < 2 ^ 32 := (Nat.div_mul_le_self _ _).trans_lt h
  have hdvd : 2 ^ 12 ∣ pageAddr / pageSize * pageSize := Nat.dvd_mul_left _ _
  rw [heq, hfield, decode_page hdvd haddr hlt hmod, if_pos rfl]

/-- The entry that the hardware uses for an address of the section. -/
theorem getDescriptorIndex_local (hdvd : sectionSize ∣ localBase) (h : i < 512) :
    getDescriptorIndex (localBase + i * pageSize) .level3 = 2 * i := by
  rcases hdvd with ⟨k, rfl⟩
  have hpage : i * pageSize = i * 2 ^ 12 := rfl
  have hsection : sectionSize * k = 2 ^ 21 * k := rfl
  refine (index_eq _ 12 9).trans ?_
  omega

/-! ## The calls -/

theorem mapPageLocal_spec (hsec : CoreSection P cfg coreIdx localBase table) (h : count < 512) (pageAddr : Nat)
    (mem : Nat → Nat) :
    ∃ mem', mapPageLocal P table localBase pageAddr count false mem = .ok (localBase + count * pageSize, mem') ∧
      ∀ j, entry mem' table j = if j = count then pageEntry pageAddr else entry mem table j := by
  have hmax : maxLocalMappings = 512 := by decide
  have hpage : count * pageSize = count * 4096 := rfl
  have hsection : sectionSize = 2 ^ 21 := rfl
  have hfits := hsec.fits
  have hword : Arch.arm.wordLimit = 2 ^ 32 := rfl
  have hshift : count <<< pageShift % Arch.arm.wordLimit = count * pageSize := by
    rw [Nat.shiftLeft_eq, ← pageSize_eq, Nat.mod_eq_of_lt (by omega)]
  refine ⟨_, ?_, fun j => entry_update mem table count j (pageEntry pageAddr)⟩
  rw [mapPageLocal, require, if_pos (by omega), run_ok_bind, hshift, addWord_of_lt (by omega), run_ok_bind,
    wordOf_entry table h]
  rfl

/-- Whatever the last entry is, it is zero afterwards if a null low word means a null entry. -/
theorem unmapPageLocal_spec (hsec : CoreSection P cfg coreIdx localBase table) (h : i < 512)
    (hnull : (entry mem table i).1 = 0 → entry mem table i = (0, 0)) :
    ∃ mem', unmapPageLocal P table localBase (i + 1) mem = .ok mem' ∧
      ∀ j, entry mem' table j = if j = i then (0, 0) else entry mem table j := by
  have hpage : i * pageSize = i * 4096 := rfl
  have hsection : sectionSize = 2 ^ 21 := rfl
  have hfits := hsec.fits
  have hword : Arch.arm.wordLimit = 2 ^ 32 := rfl
  have hshift : i <<< pageShift % Arch.arm.wordLimit = i * pageSize := by
    rw [Nat.shiftLeft_eq, ← pageSize_eq, Nat.mod_eq_of_lt (by omega)]
  rw [unmapPageLocal, require, if_pos (Nat.succ_pos i), run_ok_bind, Nat.add_sub_cancel]
  simp only [wordOf_entry table h, run_ok_bind]
  split
  next hzero =>
    refine ⟨mem, rfl, fun j => ?_⟩
    split
    next heq => rw [heq, hnull hzero]
    next => rfl
  next =>
    refine ⟨_, ?_, fun j => entry_update mem table i j (0, 0)⟩
    rw [hshift, addWord_of_lt (by omega), run_ok_bind]
    rfl

/-- The invariant of the calls: an entry of a live mapping is null for a page in linear memory and else the
descriptor of the page. -/
structure LocalInv (cfg : LocalConfig) (coreIdx localBase table : Nat) (s : LocalState) (live : List Mapping) :
    Prop where
  count : s.context.mapCount = live.length
  above : ∀ j < 512, live.length ≤ j → entry s.mem table j = (0, 0)
  kept : ∀ j m, live[j]? = some m → entry s.mem table j = m.entry
  addresses : ∀ m ∈ live, m.pageAddr < Arch.arm.wordLimit
  high : ∀ j m, live[j]? = some m → m.High cfg → m.entry = pageEntry m.pageAddr ∧ m.vaddr = localBase + j * pageSize
  linear : ∀ m ∈ live, ¬ m.High cfg → m.entry = (0, 0)
  pinned : (∃ m ∈ live, m.High cfg) → s.context.pinMask ≠ none
  -- The mask stays when only mappings of linear pages are left.
  mask : ∀ mask, s.context.pinMask = some mask → mask.isSet coreIdx = true

theorem LocalInv.start (hzero : ∀ idx < 1024, mem (table + 4 * idx) = 0) :
    LocalInv cfg coreIdx localBase table ⟨.default, mem⟩ [] where
  count := rfl
  above := by
    intro j hj _
    have hlow := hzero (2 * j) (by omega)
    have hhigh := hzero (2 * j + 1) (by omega)
    rw [Nat.mul_add, Nat.mul_one, ← Nat.add_assoc] at hhigh
    exact Prod.ext hlow hhigh
  kept := by simp
  addresses := by simp
  high := by simp
  linear := by simp
  pinned := by simp
  mask := by simp [TaskContext.default]

/-- What the context does for a page in high memory pins the task to this core. -/
theorem isSet_pinMask (hcore : coreIdx < MAX_CORES .arm) :
    ((Bitmap.new .arm cpuMaskWords (MAX_CORES .arm)).setBit coreIdx).isSet i = decide (i = coreIdx) := by
  have hbits : (Bitmap.new .arm cpuMaskWords (MAX_CORES .arm)).bits = MAX_CORES .arm := by
    rw [Bitmap.new_bits]
    decide
  rw [Bitmap.isSet_setBit (by rwa [hbits]), Bitmap.isSet_new, Bool.or_false]

theorem LocalInv.push (h : LocalInv cfg coreIdx localBase table s live) {t : LocalState} {m : Mapping}
    (hcount : t.context.mapCount = live.length + 1)
    (hentry : ∀ j, entry t.mem table j = if j = live.length then m.entry else entry s.mem table j)
    (haddr : m.pageAddr < Arch.arm.wordLimit)
    (hhigh : m.High cfg → m.entry = pageEntry m.pageAddr ∧ m.vaddr = localBase + live.length * pageSize)
    (hlinear : ¬ m.High cfg → m.entry = (0, 0))
    (hpinned : m.High cfg ∨ s.context.pinMask ≠ none → t.context.pinMask ≠ none)
    (hmask : ∀ mask, t.context.pinMask = some mask → mask.isSet coreIdx = true) :
    LocalInv cfg coreIdx localBase table t (live ++ [m]) := by
  -- Every mapping of the longer stack is an old one at its old slot or the new one on top.
  have hcases : ∀ j m', (live ++ [m])[j]? = some m' → live[j]? = some m' ∨ j = live.length ∧ m' = m := by
    intro j m' hj
    rcases Nat.lt_trichotomy j live.length with hlt | rfl | hgt
    · rw [List.getElem?_append_left hlt] at hj
      exact Or.inl hj
    · rw [List.getElem?_concat_length, Option.some.injEq] at hj
      exact Or.inr ⟨rfl, hj.symm⟩
    · rw [List.getElem?_eq_none (by rw [List.length_append, List.length_singleton]; omega)] at hj
      cases hj
  have hmem : ∀ m', m' ∈ live ++ [m] → m' ∈ live ∨ m' = m := fun m' hm' => by simpa using hm'
  refine ⟨by rw [hcount, List.length_append, List.length_singleton], ?_, ?_, ?_, ?_, ?_, ?_, hmask⟩
  · intro j hj hle
    rw [List.length_append, List.length_singleton] at hle
    -- The slots above the new top were already clear and are not written.
    rw [hentry, if_neg (by omega), h.above j hj (by omega)]
  · intro j m' hj
    rw [hentry]
    rcases hcases j m' hj with hold | ⟨rfl, rfl⟩
    · have hlt : j < live.length := (List.getElem?_eq_some_iff.mp hold).1
      rw [if_neg hlt.ne, h.kept j m' hold]
    · rw [if_pos rfl]
  · intro m' hm'
    rcases hmem m' hm' with hm' | rfl
    · exact h.addresses m' hm'
    · exact haddr
  · intro j m' hj hm'
    rcases hcases j m' hj with hold | ⟨rfl, rfl⟩
    · exact h.high j m' hold hm'
    · exact hhigh hm'
  · intro m' hm' hlow
    rcases hmem m' hm' with hm' | rfl
    · exact h.linear m' hm' hlow
    · exact hlinear hlow
  · -- The pin outlives the linear mappings on top of it.
    rintro ⟨m', hm', hm'high⟩
    rcases hmem m' hm' with hm' | rfl
    · exact hpinned (Or.inr (h.pinned ⟨m', hm', hm'high⟩))
    · exact hpinned (Or.inl hm'high)

theorem LocalInv.pop {m : Mapping} (h : LocalInv cfg coreIdx localBase table s (live ++ [m])) {t : LocalState}
    (hcount : t.context.mapCount = live.length)
    (hentry : ∀ j, entry t.mem table j = if j = live.length then (0, 0) else entry s.mem table j)
    (hpin : t.context.pinMask = if live.length = 0 then none else s.context.pinMask) :
    LocalInv cfg coreIdx localBase table t live := by
  -- The mappings that stay keep their slots, and none of these slots is the one that is cleared.
  have hold : ∀ j m', live[j]? = some m' → j < live.length ∧ (live ++ [m])[j]? = some m' := by
    intro j m' hj
    have hlt : j < live.length := (List.getElem?_eq_some_iff.mp hj).1
    exact ⟨hlt, (List.getElem?_append_left hlt).trans hj⟩
  have hmem : ∀ m', m' ∈ live → m' ∈ live ++ [m] := fun m' => List.mem_append_left [m]
  refine ⟨hcount, ?_, ?_, fun m' hm' => h.addresses m' (hmem m' hm'), ?_, fun m' hm' => h.linear m' (hmem m' hm'),
    ?_, ?_⟩
  · intro j hj hle
    rw [hentry]
    split
    next => rfl
    next hne => exact h.above j hj (by rw [List.length_append, List.length_singleton]; omega)
  · intro j m' hj
    rw [hentry, if_neg (hold j m' hj).1.ne, h.kept j m' (hold j m' hj).2]
  · intro j m' hj
    exact h.high j m' (hold j m' hj).2
  · rintro ⟨m', hm', hhigh⟩
    -- A high mapping that stays keeps the count above zero, so the task is not unpinned.
    rw [hpin, if_neg (List.length_pos_of_mem hm').ne']
    exact h.pinned ⟨m', hmem m' hm', hhigh⟩
  · intro mask hmask
    rw [hpin] at hmask
    split at hmask
    · cases hmask
    · exact h.mask mask hmask

theorem getHighMemBase_le (split : VmSplit) : split.virtualBase + getHighMemBase split.virtualBase < Arch.arm.wordLimit := by
  cases split <;> decide

theorem callStep_mapPage (hsec : CoreSection P cfg coreIdx localBase table)
    (h : LocalInv cfg coreIdx localBase table s live) (hlt : live.length < 512) {pageAddr : Nat}
    (haddr : pageAddr < Arch.arm.wordLimit) :
    ∃ t m, callStep P cfg coreIdx table (.mapPage pageAddr) (s, live) = .ok (t, live ++ [m]) ∧
      LocalInv cfg coreIdx localBase table t (live ++ [m]) := by
  have hword : Arch.arm.wordLimit = 2 ^ 32 := rfl
  have hnext : addWord P .arm s.context.mapCount 1 = .ok (live.length + 1) := by
    rw [h.count, addWord_of_lt (by omega)]
  have habove := h.above live.length hlt le_rfl
  rw [callStep, mapPage]
  split
  -- Low memory: the page has its linear address, and the slot is counted but not written.
  next hlow =>
    have hsum := getHighMemBase_le cfg.split
    rw [hnext, run_ok_bind, addWord_of_lt (by omega)]
    refine ⟨_, _, rfl, h.push rfl (fun j => ?_) haddr (fun hhigh => absurd hlow (Nat.not_lt.mpr hhigh)) (fun _ => ?_)
      (fun hpin => hpin.resolve_left (Nat.not_le.mpr hlow)) h.mask⟩
    · split
      next heq => rw [heq, h.count]
      next => rfl
    · rw [h.count, habove]
  -- High memory: the slot's entry is written and the task is pinned, unless an outer mapping has pinned it.
  next hhigh =>
    rcases mapPageLocal_spec hsec hlt pageAddr s.mem with ⟨mem', hmap, hentry⟩
    rw [hsec.localBase_eq, run_ok_bind, hsec.table_eq, run_ok_bind, unwrap, run_ok_bind, h.count, hmap]
    rw [h.count] at hnext
    simp only [run_ok_bind, hnext]
    refine ⟨_, _, rfl, h.push rfl (fun j => ?_) haddr (fun _ => ⟨?_, rfl⟩)
      (fun hlow => absurd hlow (not_not_intro (Nat.le_of_not_lt hhigh))) (fun _ => Option.some_ne_none _) ?_⟩
    · simp only [hentry, if_true]
    · simp only [hentry, if_true]
    · intro mask hmask
      rw [← Option.some.inj hmask]
      cases hpin : s.context.pinMask with
      | none => exact (isSet_pinMask hsec.core).trans (decide_eq_true rfl)
      | some mask => exact h.mask mask hpin

theorem callStep_unmapPage (hsec : CoreSection P cfg coreIdx localBase table)
    (h : LocalInv cfg coreIdx localBase table s live) (hle : live.length ≤ 512) :
    ∃ t, callStep P cfg coreIdx table .unmapPage (s, live) = .ok (t, live.dropLast) ∧
      LocalInv cfg coreIdx localBase table t live.dropLast := by
  rw [callStep, unmapPage]
  dsimp only
  rcases List.eq_nil_or_concat live with rfl | ⟨rest, m, rfl⟩
  · have hzero : s.context.mapCount = 0 := h.count
    rw [if_pos hzero]
    exact ⟨s, rfl, h⟩
  · rw [List.concat_eq_append] at *
    have hlen : s.context.mapCount = rest.length + 1 := by
      rw [h.count, List.length_append, List.length_singleton]
    rw [List.length_append, List.length_singleton] at hle
    have hlast := h.kept rest.length m List.getElem?_concat_length
    -- The word that `unmap_page_local` tests tells the two kinds of mappings apart.
    have hnull : (entry s.mem table rest.length).1 = 0 → entry s.mem table rest.length = (0, 0) := by
      intro hzero
      rw [hlast] at hzero ⊢
      by_cases hhigh : m.High cfg
      · rw [(h.high _ m List.getElem?_concat_length hhigh).1] at hzero
        exact absurd hzero (pageEntry_ne_zero m.pageAddr)
      · exact h.linear m (List.mem_append_right rest List.mem_cons_self) hhigh
    rcases unmapPageLocal_spec hsec (show rest.length < 512 by omega) hnull with ⟨mem', hunmap, hentry⟩
    rw [if_neg (by omega), hsec.localBase_eq, run_ok_bind, hsec.table_eq, run_ok_bind, unwrap, run_ok_bind, hlen, hunmap,
      List.dropLast_concat]
    refine ⟨_, rfl, h.pop ?_ hentry rfl⟩
    rfl

/-- What a whole run of calls keeps. -/
theorem runLocal_spec (hsec : CoreSection P cfg coreIdx localBase table)
    (h : LocalInv cfg coreIdx localBase table s live)
    (haddr : ∀ pageAddr, .mapPage pageAddr ∈ calls → pageAddr < Arch.arm.wordLimit)
    (hdepth : ∀ p, p <+: calls → depth live.length p ≤ 512) :
    ∃ t live', runLocal P cfg coreIdx table calls (s, live) = .ok (t, live') ∧
      LocalInv cfg coreIdx localBase table t live' ∧ live'.length = depth live.length calls ∧
      ∀ i, (∀ p, p <+: calls → i < depth live.length p) → live'[i]? = live[i]? := by
  induction calls generalizing s live with
  | nil => exact ⟨s, live, rfl, h, rfl, fun _ _ => rfl⟩
  | cons call calls ih =>
      -- One call changes the stack at its top only, so the mappings below both depths stay.
      have hstep : ∃ t live', callStep P cfg coreIdx table call (s, live) = .ok (t, live') ∧
          LocalInv cfg coreIdx localBase table t live' ∧ live'.length = depthAfter live.length call ∧
          ∀ i < live.length, i < live'.length → live'[i]? = live[i]? := by
        cases call with
        | mapPage pageAddr =>
            have hlt : live.length + 1 ≤ 512 := hdepth [.mapPage pageAddr] (by simp)
            rcases callStep_mapPage hsec h hlt (haddr pageAddr List.mem_cons_self) with ⟨t, m, heq, hinv⟩
            exact ⟨t, _, heq, hinv, List.length_append, fun i hi _ => List.getElem?_append_left hi⟩
        | unmapPage =>
            rcases callStep_unmapPage hsec h (hdepth [] List.nil_prefix) with ⟨t, heq, hinv⟩
            refine ⟨t, _, heq, hinv, List.length_dropLast, fun i _ hi => ?_⟩
            rw [List.length_dropLast] at hi
            rw [List.getElem?_dropLast, if_pos hi]
      rcases hstep with ⟨t, live', heq, hinv, hlen, hsame⟩
      -- The bounds on the depth are about prefixes, and a prefix of the rest is a prefix without its first call.
      have hinit : ∀ p, p <+: calls → depth live'.length p = depth live.length (call :: p) := by
        intro p _
        rw [hlen]
        rfl
      rcases ih hinv (fun a ha => haddr a (List.mem_cons_of_mem _ ha)) (fun p hp => by
        rw [hinit p hp]
        exact hdepth _ (List.prefix_cons_inj call |>.mpr hp)) with ⟨t', live'', hrun, hinv', hlen', hkept⟩
      refine ⟨t', live'', ?_, hinv', by rw [hlen', hinit calls List.prefix_rfl], fun i hi => ?_⟩
      · rw [runLocal, heq, run_ok_bind, hrun]
      · have hfirst : i < live'.length := by
          rw [hlen]
          exact hi [call] (by simp)
        have hlater := hkept i fun p hp => by
          rw [hinit p hp]
          exact hi _ (List.prefix_cons_inj call |>.mpr hp)
        rw [hlater, hsame i (hi [] List.nil_prefix) hfirst]

theorem LocalInv.mappedAsStack (hsec : CoreSection P cfg coreIdx localBase table)
    (h : LocalInv cfg coreIdx localBase table s live) (hle : live.length ≤ 512) :
    MappedAsStack cfg coreIdx localBase table s live := by
  -- The slot of a high mapping is its place in the stack, and the address is the slot's.
  have hplace : ∀ m ∈ live, m.High cfg →
      ∃ j < 512, entry s.mem table j = pageEntry m.pageAddr ∧ m.vaddr = localBase + j * pageSize := by
    intro m hm hhigh
    rcases List.mem_iff_getElem?.mp hm with ⟨j, hj⟩
    have hlt : j < live.length := (List.getElem?_eq_some_iff.mp hj).1
    have hboth := h.high j m hj hhigh
    exact ⟨j, by omega, (h.kept j m hj).trans hboth.1, hboth.2⟩
  refine ⟨h.count, fun i hi hcount => h.above i hi (h.count ▸ hcount), ?_, ?_, ?_, h.kept, ?_⟩
  · intro m hm hhigh
    rcases hplace m hm hhigh with ⟨j, hj, hentry, hvaddr⟩
    rw [hvaddr, getDescriptorIndex_local hsec.aligned hj, ← decode_pageEntry (h.addresses m hm), ← hentry, entry]
  · -- Two high mappings are at two slots, so their addresses are a page apart.
    rw [List.Nodup, List.pairwise_map, List.pairwise_filter, List.pairwise_iff_getElem]
    intro i j hi hj hij hhigh hhigh'
    rw [(h.high i _ (List.getElem?_eq_getElem hi) (of_decide_eq_true hhigh)).2,
      (h.high j _ (List.getElem?_eq_getElem hj) (of_decide_eq_true hhigh')).2]
    have hlt := Nat.mul_lt_mul_of_pos_right hij pageSize_pos
    omega
  · intro m hm hhigh
    rcases hplace m hm hhigh with ⟨j, hj, -, hvaddr⟩
    have hpage : pageSize ∣ localBase := (show pageSize ∣ sectionSize by decide).trans hsec.aligned
    have hmul := Nat.mul_le_mul_right pageSize (show j + 1 ≤ 512 from hj)
    rw [hvaddr]
    refine ⟨Nat.dvd_add hpage (Nat.dvd_mul_left _ _), Nat.le_add_right _ _, ?_⟩
    rw [Nat.add_assoc, ← Nat.succ_mul]
    exact Nat.add_le_add_left hmul _
  · intro hhigh
    rcases Option.ne_none_iff_exists'.mp (h.pinned hhigh) with ⟨mask, hmask⟩
    exact ⟨mask, hmask, h.mask mask hmask⟩

/-- Every run of `map_page` and `unmap_page` on one core with at most 512 live mappings keeps the mappings as a
stack, and a mapping that stays live keeps its address and its entry. -/
theorem runLocal_mappedAsStack (P : Profile) (split : VmSplit) {coreCount : Nat} (hidx : coreIdx < coreCount)
    (hmax : coreCount ≤ MAX_CORES .arm) :
    ∃ areaBase localBase table, placeThreadLocalArea P kernelStackPages coreCount = .ok areaBase ∧
      getThreadLocalVirtualBase P ⟨split, coreCount, areaBase⟩ coreIdx = .ok localBase ∧
      getPageVirtualAddressForVirtualAddress P localBase = .ok (some table) ∧
      ∀ mem, (∀ idx < 1024, mem (table + 4 * idx) = 0) →
        ∀ calls, (∀ pageAddr, .mapPage pageAddr ∈ calls → pageAddr < Arch.arm.wordLimit) →
          (∀ p, p <+: calls → depth 0 p ≤ 512) →
          ∃ s live, runLocal P ⟨split, coreCount, areaBase⟩ coreIdx table calls (⟨.default, mem⟩, []) = .ok (s, live) ∧
            live.length = depth 0 calls ∧
            MappedAsStack ⟨split, coreCount, areaBase⟩ coreIdx localBase table s live ∧
            ∀ later, (∀ pageAddr, .mapPage pageAddr ∈ later → pageAddr < Arch.arm.wordLimit) →
              (∀ p, p <+: later → depth live.length p ≤ 512) →
              ∃ t live', runLocal P ⟨split, coreCount, areaBase⟩ coreIdx table later (s, live) = .ok (t, live') ∧
                ∀ i, (∀ p, p <+: later → i < depth live.length p) →
                  live'[i]? = live[i]? ∧ entry t.mem table i = entry s.mem table i := by
  rcases placeThreadLocalArea_eq P (Nat.zero_lt_of_lt hidx) hmax with ⟨areaBase, harea, hdvd, hupper, hend⟩
  rcases coreSection P split hmax hidx hdvd hupper hend with ⟨localBase, table, hsec⟩
  refine ⟨areaBase, localBase, table, harea, hsec.localBase_eq, hsec.table_eq, fun mem hzero calls haddr hdepth => ?_⟩
  rcases runLocal_spec hsec (LocalInv.start hzero) haddr hdepth with ⟨s, live, hrun, hinv, hlen, -⟩
  have hle : live.length ≤ 512 := hlen.trans_le (hdepth calls List.prefix_rfl)
  refine ⟨s, live, hrun, hlen, hinv.mappedAsStack hsec hle, fun later haddr' hdepth' => ?_⟩
  rcases runLocal_spec hsec hinv haddr' hdepth' with ⟨t, live', hrun', hinv', -, hsame⟩
  refine ⟨t, live', hrun', fun i hi => ⟨hsame i hi, ?_⟩⟩
  have hlt : i < live.length := hi [] List.nil_prefix
  have hlive : live[i]? = some live[i] := List.getElem?_eq_getElem hlt
  rw [hinv'.kept i _ ((hsame i hi).trans hlive), hinv.kept i _ hlive]

theorem runLocal_mappedAsStack_four :
    ∃ areaBase localBase table, placeThreadLocalArea .dev kernelStackPages 4 = .ok areaBase ∧
      getThreadLocalVirtualBase .dev ⟨.three, 4, areaBase⟩ 1 = .ok localBase ∧
      getPageVirtualAddressForVirtualAddress .dev localBase = .ok (some table) ∧
      ∃ s live, runLocal .dev ⟨.three, 4, areaBase⟩ 1 table
          [.mapPage 0x39000000, .mapPage 0x37000000, .mapPage 0x39000000, .unmapPage] (⟨.default, fun _ => 0⟩, []) =
            .ok (s, live) ∧ live.length = 2 ∧ MappedAsStack ⟨.three, 4, areaBase⟩ 1 localBase table s live := by
  rcases runLocal_mappedAsStack .dev .three (show 1 < 4 by decide) (by decide) with
    ⟨areaBase, localBase, table, harea, hbase, htable, hruns⟩
  rcases hruns (fun _ => 0) (fun _ _ => rfl)
    [.mapPage 0x39000000, .mapPage 0x37000000, .mapPage 0x39000000, .unmapPage] (by simp; decide)
    (fun p hp => (show ∀ p ∈ List.inits _, depth 0 p ≤ 512 by decide) p ((List.mem_inits _ _).mpr hp)) with
    ⟨s, live, hrun, hlen, hmapped, -⟩
  exact ⟨areaBase, localBase, table, harea, hbase, htable, s, live, hrun, hlen, hmapped⟩

end Arm
end Propeller
