import Propeller.Arch.Compact

/-!
# Arch.Arm.Mm — ARM page tables

Three levels of tables with descriptors of 64 bits, which the code writes as two words.  The hardware
translates a user address with all three levels, starting with four entries at Level 1.  The kernel segment
has tables of its own: with a 3/1 split the walk starts at Level 2, and with a 2/2 split only bit 30 of the
address chooses the Level 1 entry.
-/

namespace Propeller
namespace Arm

open Paging

/-! ## The source -/

def level1TableShiftLong : Nat := 2

def level2TableShiftLong : Nat := 9

def level3TableShiftLong : Nat := 9

def level3ShiftLong : Nat := pageShift

def level2ShiftLong : Nat := level3ShiftLong + level3TableShiftLong

def level1ShiftLong : Nat := level2ShiftLong + level2TableShiftLong

def level1IndexMaskLong : Nat := (1 <<< level1TableShiftLong) - 1

def level2IndexMaskLong : Nat := (1 <<< level2TableShiftLong) - 1

def level3IndexMaskLong : Nat := (1 <<< level3TableShiftLong) - 1

def addrMaskHighMaskLong : Nat := 0xff

def tableOrPageLowMaskLong : Nat := 0xfffff000

def level1BlockLowMaskLong : Nat := 0xc0000000

def level2BlockLowMaskLong : Nat := 0xffe00000

def mmPageTableFlagLong : Nat := 0b11

def mmPageFlagLong : Nat := 0b11

def mmBlockFlagLong : Nat := 0b01

def mmAccessFlagLong : Nat := 1 <<< 10

def mmNormalMairIdxLong : Nat := 0

def mmDeviceMairIdxLong : Nat := 1

def typeMask : Nat := 3

/-- The low and the high word of a descriptor. -/
abbrev Desc : Type := Nat × Nat

inductive TableLevel
  | level1
  | level2
  | level3
  deriving DecidableEq, Repr

def getTableEntrySize : TableLevel → Nat
  | .level1 => 1 <<< level1ShiftLong
  | .level2 => 1 <<< level2ShiftLong
  | .level3 => pageSize

def getNextTable : TableLevel → Option TableLevel
  | .level1 => some .level2
  | .level2 => some .level3
  | .level3 => none

def getPhysAddrFromDescriptor (level : TableLevel) (desc : Desc) : Option Nat :=
  if desc.2 &&& addrMaskHighMaskLong ≠ 0 then none
  else if desc.1 &&& typeMask = mmPageTableFlagLong then some (desc.1 &&& tableOrPageLowMaskLong)
  else if desc.1 &&& typeMask = mmBlockFlagLong then
    match level with
    | .level1 => some (desc.1 &&& level1BlockLowMaskLong)
    | .level2 => some (desc.1 &&& level2BlockLowMaskLong)
    | _ => none
  else none

def makeBlockDescriptor (physAddr mairIdx : Nat) : Desc :=
  (physAddr ||| mairIdx <<< 2 ||| mmAccessFlagLong ||| mmBlockFlagLong, 0)

def makePageDescriptor (physAddr mairIdx : Nat) : Desc :=
  (physAddr ||| mairIdx <<< 2 ||| mmAccessFlagLong ||| mmPageFlagLong, 0)

def makeDescriptor (level : TableLevel) (physAddr : Nat) (device : Bool) : Option Desc :=
  let mairIdx := if device then mmDeviceMairIdxLong else mmNormalMairIdxLong
  match level with
  | .level1 => some (makeBlockDescriptor (physAddr &&& level1BlockLowMaskLong) mairIdx)
  | .level2 => some (makeBlockDescriptor (physAddr &&& level2BlockLowMaskLong) mairIdx)
  | .level3 => some (makePageDescriptor (physAddr &&& tableOrPageLowMaskLong) mairIdx)

def isPointerEntry (level : TableLevel) (desc : Desc) : Bool :=
  match level with
  | .level3 => false
  | _ => desc.1 &&& typeMask == mmPageTableFlagLong

def makePointerDescriptor (level : TableLevel) (physAddr : Nat) : Option Desc :=
  match level with
  | .level3 => none
  | _ =>
      if isAligned .arm physAddr pageSize then
        some (physAddr ||| mmNormalMairIdxLong <<< 2 ||| mmAccessFlagLong ||| mmPageTableFlagLong, 0)
      else none

/-- The index of the low word; the high word is the next one. -/
def getDescriptorIndex (virtAddr : Nat) : TableLevel → Nat
  | .level1 => (virtAddr >>> level1ShiftLong &&& level1IndexMaskLong) <<< 1
  | .level2 => (virtAddr >>> level2ShiftLong &&& level2IndexMaskLong) <<< 1
  | .level3 => (virtAddr >>> level3ShiftLong &&& level3IndexMaskLong) <<< 1

/-- The compact loop tests the virtual address against the section size at all levels.  A table is addressed
by the index of the low words. -/
def format : Format TableLevel Desc where
  getTableEntrySize := getTableEntrySize
  blockAlignment := fun _ => sectionSize
  getNextTable := getNextTable
  isLastLevel := fun level => level == .level3
  getDescriptorIndex := getDescriptorIndex
  makeDescriptor := makeDescriptor
  isPointerEntry := isPointerEntry
  makePointerEntry := makePointerDescriptor
  getPhysAddrFromDescriptor := getPhysAddrFromDescriptor
  zero := (0, 0)

/-- The virtual memory split of the kernel configuration: the user segment has two or three GiB. -/
inductive VmSplit
  | two
  | three
  deriving DecidableEq, Repr

/-- The kernel segment base address of the split, as the kernel asserts at start. -/
def VmSplit.virtualBase : VmSplit → Nat
  | .two => 0x80000000
  | .three => 0xc0000000

def getFirstTableLevel (split : VmSplit) (virtAddr : Nat) : TableLevel :=
  if virtAddr ≥ split.virtualBase ∧ split = .three then .level2 else .level1

def mapMemory (P : Profile) (split : VmSplit) (pagesStart virt base size : Nat) (device : Bool)
    (strategy : MappingStrategy) (fuel : Nat) (st : TableState Desc) : Run (TableState Desc) :=
  fillTable format P .arm device strategy fuel (getFirstTableLevel split virt) pagesStart virt base size st

def directMapMemory (P : Profile) (split : VmSplit) (pagesStart base size : Nat) (device : Bool)
    (strategy : MappingStrategy) (fuel : Nat) (st : TableState Desc) : Run (TableState Desc) := do
  let virt ← addWord P .arm split.virtualBase base
  fillTable format P .arm device strategy fuel (getFirstTableLevel split virt) pagesStart virt base size st

/-- `map_thread_local_table`; the write is that of `mmu_update_table_entry_local`. -/
def mapThreadLocalTable (split : VmSplit) (pagesStart localVirt tableAddr : Nat) (st : TableState Desc) :
    Run (TableState Desc) := do
  let startLevel := getFirstTableLevel split localVirt
  let l2Addr ←
    if startLevel = .level1 then
      unwrap (getPhysAddrFromDescriptor startLevel (st.mem pagesStart (getDescriptorIndex localVirt startLevel)))
    else pure pagesStart
  let desc ← unwrap (makePointerDescriptor .level2 tableAddr)
  return st.set l2Addr (getDescriptorIndex localVirt .level2) desc

/-! ## The hardware -/

/-- The address in a descriptor: bits [39:`lo`], of which [39:32] are in the high word. -/
def addrField (lo : Nat) (desc : Desc) : Nat :=
  desc.2 % 256 * 2 ^ 32 + bitField lo 32 desc.1

/-- What a descriptor says in a table of the given height: the last tables have height zero. -/
def decode (h : Nat) (desc : Desc) : Slot :=
  if desc.1 % 4 = 0b11 then
    if h = 0 then .block (addrField 12 desc) else .table (addrField 12 desc)
  else if desc.1 % 4 = 0b01 ∧ (h = 1 ∨ h = 2) then .block (addrField (12 + 9 * h) desc)
  else .invalid

/-- The hardware with `n` entries at Level 1. -/
def mmuOf (n : Nat) : Mmu Desc where
  entries := fun h => if h = 2 then n else 512
  stride := 2
  decode := decode

/-- The hardware as the code sees it: two bits of the address choose the Level 1 entry. -/
def mmu : Mmu Desc :=
  mmuOf 4

namespace TableLevel

def height : TableLevel → Nat
  | .level1 => 2
  | .level2 => 1
  | .level3 => 0

end TableLevel

/-- Physical addresses of the code have 32 bits. -/
def physLimit : Nat := 2 ^ 32

/-! ## The hardware reads what the code writes -/

theorem and_tableOrPageLowMaskLong (x : Nat) : x &&& tableOrPageLowMaskLong = bitField 12 32 x :=
  and_two_pow_sub_two_pow (m := 12) (n := 32) (by decide) x

theorem and_level2BlockLowMaskLong (x : Nat) : x &&& level2BlockLowMaskLong = bitField 21 32 x :=
  and_two_pow_sub_two_pow (m := 21) (n := 32) (by decide) x

theorem and_level1BlockLowMaskLong (x : Nat) : x &&& level1BlockLowMaskLong = bitField 30 32 x :=
  and_two_pow_sub_two_pow (m := 30) (n := 32) (by decide) x

theorem and_typeMask (x : Nat) : x &&& typeMask = x % 4 :=
  Nat.and_two_pow_sub_one_eq_mod x 2

/-- A block or page descriptor is the address and some low bits, of which the last two are its type. -/
theorem or_attributes (device : Bool) (addr type : Nat) (htype : type = 1 ∨ type = 3) :
    ∃ c, c < 2 ^ 12 ∧ c % 4 = type ∧
      (addr ||| (if device then mmDeviceMairIdxLong else mmNormalMairIdxLong) <<< 2 ||| mmAccessFlagLong |||
        type) = addr ||| c := by
  refine ⟨(if device then mmDeviceMairIdxLong else mmNormalMairIdxLong) <<< 2 ||| mmAccessFlagLong ||| type,
    ?_, ?_, ?_⟩
  · cases device <;> rcases htype with rfl | rfl <;> decide
  · cases device <;> rcases htype with rfl | rfl <;> decide
  · rw [Nat.or_assoc, Nat.or_assoc, ← Nat.or_assoc _ mmAccessFlagLong]

theorem decode_block {h addr c : Nat} (hh : h = 1 ∨ h = 2) (haddr : 2 ^ (12 + 9 * h) ∣ addr)
    (hlt : addr < 2 ^ 32) (hc : c < 2 ^ 12) (htype : c % 4 = 1) :
    decode h (addr ||| c, 0) = .block addr := by
  have hdvd : 2 ^ 2 ∣ addr := (Nat.pow_dvd_pow 2 (by omega)).trans haddr
  have hmod : (addr ||| c) % 4 = 1 := (or_mod_two_pow hdvd).trans htype
  have hlow : c < 2 ^ (12 + 9 * h) := hc.trans_le (Nat.pow_le_pow_right (by decide) (by omega))
  have hfield : addrField (12 + 9 * h) (addr ||| c, 0) = addr := by
    rw [addrField, bitField_or haddr hlt hlow, Nat.zero_mod, Nat.zero_mul, Nat.zero_add]
  rw [decode, if_neg (by omega), if_pos ⟨hmod, hh⟩, hfield]

theorem decode_page {h addr c : Nat} (haddr : 2 ^ 12 ∣ addr) (hlt : addr < 2 ^ 32) (hc : c < 2 ^ 12)
    (htype : c % 4 = 3) : decode h (addr ||| c, 0) = if h = 0 then .block addr else .table addr := by
  have hdvd : 2 ^ 2 ∣ addr := (Nat.pow_dvd_pow 2 (by decide)).trans haddr
  have hmod : (addr ||| c) % 4 = 3 := (or_mod_two_pow hdvd).trans htype
  have hfield : addrField 12 (addr ||| c, 0) = addr := by
    rw [addrField, bitField_or haddr hlt hc, Nat.zero_mod, Nat.zero_mul, Nat.zero_add]
  rw [decode, if_pos hmod, hfield]

theorem decode_eq_table {h next : Nat} {d : Desc} (hdec : decode h d = .table next) :
    h ≠ 0 ∧ d.1 % 4 = 3 ∧ next = addrField 12 d := by
  rw [decode] at hdec
  split at hdec
  · rename_i htype
    split at hdec
    · cases hdec
    · rename_i hh
      exact ⟨hh, htype, (Slot.table.inj hdec).symm⟩
  · split at hdec
    · cases hdec
    · cases hdec

theorem four_dvd_bitField (lo x : Nat) (hlo : 2 ≤ lo) : 2 ^ 2 ∣ bitField lo 32 x :=
  (Nat.pow_dvd_pow 2 hlo).trans (Nat.dvd_mul_left _ _)

/-- A block descriptor is no pointer. -/
theorem block_type {lo p : Nat} (device : Bool) (hlo : 2 ≤ lo) :
    (makeBlockDescriptor (bitField lo 32 p)
      (if device then mmDeviceMairIdxLong else mmNormalMairIdxLong)).1 % 4 = 1 := by
  rcases or_attributes device (bitField lo 32 p) mmBlockFlagLong (Or.inl rfl) with ⟨c, -, hc, heq⟩
  calc _ = (bitField lo 32 p ||| c) % 4 := congrArg (· % 4) heq
    _ = c % 4 := or_mod_two_pow (four_dvd_bitField lo p hlo)
    _ = 1 := hc

/-- The bits of an address above a shift, as the index of a low word. -/
theorem index_eq (v s n : Nat) : (v >>> s &&& (1 <<< n) - 1) <<< 1 = v / 2 ^ s % 2 ^ n * 2 := by
  rw [Nat.shiftRight_eq_div_pow, Nat.one_shiftLeft, Nat.and_two_pow_sub_one_eq_mod, Nat.shiftLeft_eq,
    Nat.pow_one]

theorem getTableEntrySize_eq (l : TableLevel) : format.getTableEntrySize l = span l.height := by
  cases l <;> rfl

theorem getDescriptorIndex_eq (l : TableLevel) (v : Nat) : format.getDescriptorIndex v l = mmu.index l.height v := by
  cases l with
  | level1 => exact index_eq v 30 2
  | level2 => exact index_eq v 21 9
  | level3 => exact index_eq v 12 9

theorem isLastLevel_iff (l : TableLevel) : format.isLastLevel l = true ↔ l.height = 0 := by
  cases l <;> decide

theorem getNextTable_of_zero {l : TableLevel} (hl : l.height = 0) : format.getNextTable l = none := by
  cases l <;> first | rfl | cases hl

theorem getNextTable_of_succ {l : TableLevel} {h : Nat} (hl : l.height = h + 1) :
    ∃ l', format.getNextTable l = some l' ∧ l'.height = h := by
  cases l with
  | level1 => exact ⟨.level2, rfl, by cases hl; rfl⟩
  | level2 => exact ⟨.level3, rfl, by cases hl; rfl⟩
  | level3 => cases hl

theorem entries_of_lt {l : TableLevel} {j : Nat} (hj : j < l.height) : mmu.entries j = 512 := by
  have hj2 : j ≠ 2 := by
    rintro rfl
    cases l <;> exact absurd hj (by decide)
  exact if_neg hj2

/-- A block descriptor gives its address back, since the address is aligned and below the limit. -/
theorem decode_makeDescriptor {l : TableLevel} {p : Nat} {device : Bool} {d : Desc}
    (hd : format.makeDescriptor l p device = some d) (hdvd : span l.height ∣ p) (hle : p + span l.height ≤ physLimit) :
    mmu.decode l.height d = .block p := by
  have hlt : p < 2 ^ 32 := by
    have := span_pos l.height
    rw [physLimit] at hle
    omega
  cases l with
  | level1 =>
      obtain rfl := Option.some.inj hd
      rcases or_attributes device (p &&& level1BlockLowMaskLong) mmBlockFlagLong (Or.inl rfl)
        with ⟨c, hc, htype, heq⟩
      have hfield : bitField 30 32 p = p := bitField_of_dvd hdvd hlt
      rw [makeBlockDescriptor, heq, and_level1BlockLowMaskLong, hfield]
      exact decode_block (Or.inr rfl) hdvd hlt hc htype
  | level2 =>
      obtain rfl := Option.some.inj hd
      rcases or_attributes device (p &&& level2BlockLowMaskLong) mmBlockFlagLong (Or.inl rfl)
        with ⟨c, hc, htype, heq⟩
      have hfield : bitField 21 32 p = p := bitField_of_dvd hdvd hlt
      rw [makeBlockDescriptor, heq, and_level2BlockLowMaskLong, hfield]
      exact decode_block (Or.inl rfl) hdvd hlt hc htype
  | level3 =>
      obtain rfl := Option.some.inj hd
      rcases or_attributes device (p &&& tableOrPageLowMaskLong) mmPageFlagLong (Or.inr rfl)
        with ⟨c, hc, htype, heq⟩
      have hfield : bitField 12 32 p = p := bitField_of_dvd hdvd hlt
      rw [makePageDescriptor, heq, and_tableOrPageLowMaskLong, hfield]
      exact decode_page hdvd hlt hc htype

/-- No block or page counts as a table. -/
theorem makeDescriptor_ne_table {l : TableLevel} {p : Nat} {device : Bool} {d : Desc}
    (hd : format.makeDescriptor l p device = some d) (next : Nat) : mmu.decode l.height d ≠ .table next := by
  intro hdec
  rcases decode_eq_table hdec with ⟨hh, htype, -⟩
  cases l with
  | level1 =>
      obtain rfl := Option.some.inj hd
      rw [and_level1BlockLowMaskLong, block_type device (by decide)] at htype
      exact absurd htype (by decide)
  | level2 =>
      obtain rfl := Option.some.inj hd
      rw [and_level2BlockLowMaskLong, block_type device (by decide)] at htype
      exact absurd htype (by decide)
  | level3 => exact hh rfl

theorem makeDescriptor_page {l : TableLevel} (p : Nat) (device : Bool) (hl : l.height = 0) :
    ∃ d, format.makeDescriptor l p device = some d := by
  cases l with
  | level1 => cases hl
  | level2 => cases hl
  | level3 => exact ⟨_, rfl⟩

/-- The source tests the type bits only; the last level has no pointers. -/
theorem isPointerEntry_iff {l : TableLevel} {h : Nat} (d : Desc) (hl : l.height = h + 1) :
    format.isPointerEntry l d = true ↔ ∃ next, mmu.decode (h + 1) d = .table next := by
  have hptr : format.isPointerEntry l d = true ↔ d.1 % 4 = 3 := by
    cases l with
    | level3 => cases hl
    | level1 | level2 =>
        show (d.1 &&& typeMask == mmPageTableFlagLong) = true ↔ d.1 % 4 = 3
        rw [beq_iff_eq, and_typeMask]
        rfl
  rw [hptr]
  constructor
  · intro htype
    exact ⟨addrField 12 d, by simp [mmu, mmuOf, decode, htype]⟩
  · rintro ⟨next, hdec⟩
    exact (decode_eq_table hdec).2.1

/-- A table that the walk goes on to is the one that the source goes on to. -/
theorem getPhysAddrFromDescriptor_eq {l : TableLevel} {h next : Nat} {d : Desc}
    (hdec : mmu.decode (h + 1) d = .table next) (hlt : next < physLimit) :
    format.getPhysAddrFromDescriptor l d = some next := by
  rcases decode_eq_table hdec with ⟨-, htype, rfl⟩
  -- A table below the limit has no bits in the high word.
  have hhigh : d.2 % 256 = 0 := by
    rw [addrField, physLimit] at hlt
    omega
  have hmask : d.2 &&& addrMaskHighMaskLong = 0 :=
    (Nat.and_two_pow_sub_one_eq_mod d.2 8).trans hhigh
  show getPhysAddrFromDescriptor l d = _
  unfold getPhysAddrFromDescriptor
  rw [if_neg (not_not.2 hmask), and_typeMask, if_pos (show d.1 % 4 = mmPageTableFlagLong from htype),
    and_tableOrPageLowMaskLong, addrField, hhigh, Nat.zero_mul, Nat.zero_add]

/-- A pointer to a page below the limit gives it back. -/
theorem decode_makePointerEntry {l : TableLevel} {h x : Nat} (hl : l.height = h + 1) (hdvd : pageSize ∣ x)
    (hlt : x < physLimit) : ∃ d, format.makePointerEntry l x = some d ∧ mmu.decode (h + 1) d = .table x := by
  have hor : x ||| mmNormalMairIdxLong <<< 2 ||| mmAccessFlagLong ||| mmPageTableFlagLong = x ||| 0x403 := by
    rw [Nat.or_assoc, Nat.or_assoc]
    rfl
  have hdec := decode_page (h := h + 1) hdvd hlt (c := 0x403) (by decide) rfl
  have haligned : isAligned .arm x pageSize = true :=
    (isAligned_iff (A := .arm) (k := 12) hlt (by decide)).2 hdvd
  refine ⟨(x ||| 0x403, 0), ?_, hdec⟩
  rw [← hor]
  cases l with
  | level3 => cases hl
  | level1 | level2 => exact if_pos haligned

theorem lawful : Lawful format mmu physLimit TableLevel.height where
  entrySize := getTableEntrySize_eq
  index := getDescriptorIndex_eq
  last := isLastLevel_iff
  next_zero := fun _ => getNextTable_of_zero
  next_succ := fun _ _ => getNextTable_of_succ
  stride := by decide
  entries := fun _ _ => entries_of_lt
  block := fun _ _ _ _ => decode_makeDescriptor
  block_ne := fun _ _ _ _ => makeDescriptor_ne_table
  page := fun _ => makeDescriptor_page
  pointer := fun _ _ => isPointerEntry_iff
  physAddr := fun _ _ _ _ _ hdec hlt => getPhysAddrFromDescriptor_eq hdec hlt
  makePointer := fun _ _ _ => decode_makePointerEntry
  zero := by
    intro h
    rfl

theorem tests : Tests .arm format fun _ => 1 where
  eq := fun _ => rfl
  le := fun _ => by decide

end Arm
end Propeller
