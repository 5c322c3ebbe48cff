import Propeller.Arch.Compact

/-!
# Arch.Aarch64.Mm — AArch64 page tables

Four levels of tables with 512 descriptors of 64 bits each.  `mmu` is how the hardware reads them: bits
[47:12] of a table or page descriptor and bits [47:30] or [47:21] of a block descriptor are an address.
-/

namespace Propeller
namespace Aarch64

open Paging

/-! ## The source -/

def tableShift : Nat := 9

def indexMask : Nat := (1 <<< tableShift) - 1

def level4Shift : Nat := pageShift

def level3Shift : Nat := level4Shift + tableShift

def level2Shift : Nat := level3Shift + tableShift

def level1Shift : Nat := level2Shift + tableShift

def tableOrPageMask : Nat := 0x0000fffffffff000

def level2BlockMask : Nat := 0x0000ffffc0000000

def level3BlockMask : Nat := 0x0000ffffffe00000

def mmPageTableFlag : Nat := 0b11

def mmPageFlag : Nat := 0b11

def mmBlockFlag : Nat := 0b01

def mmAccessFlag : Nat := 1 <<< 10

def mmNormalMairIdx : Nat := 0

def mmDeviceMairIdx : Nat := 1

def typeMask : Nat := 3

inductive TableLevel
  | level1
  | level2
  | level3
  | level4
  deriving DecidableEq, Repr

def getTableEntrySize : TableLevel → Nat
  | .level1 => 1 <<< level1Shift
  | .level2 => 1 <<< level2Shift
  | .level3 => 1 <<< level3Shift
  | .level4 => 1 <<< level4Shift

def getNextTable : TableLevel → Option TableLevel
  | .level1 => some .level2
  | .level2 => some .level3
  | .level3 => some .level4
  | .level4 => none

def getPhysAddrFromDescriptor (level : TableLevel) (desc : Nat) : Option Nat :=
  if desc &&& typeMask = mmPageTableFlag then some (desc &&& tableOrPageMask)
  else if desc &&& typeMask = mmBlockFlag then
    match level with
    | .level2 => some (desc &&& level2BlockMask)
    | .level3 => some (desc &&& level3BlockMask)
    | _ => none
  else none

def makeBlockDescriptor (physAddr mairIdx : Nat) : Nat :=
  physAddr ||| mairIdx <<< 2 ||| mmAccessFlag ||| mmBlockFlag

def makePageDescriptor (physAddr mairIdx : Nat) : Nat :=
  physAddr ||| mairIdx <<< 2 ||| mmAccessFlag ||| mmPageFlag

def makeDescriptor (level : TableLevel) (physAddr : Nat) (device : Bool) : Option Nat :=
  let mairIdx := if device then mmDeviceMairIdx else mmNormalMairIdx
  match level with
  | .level2 => some (makeBlockDescriptor (physAddr &&& level2BlockMask) mairIdx)
  | .level3 => some (makeBlockDescriptor (physAddr &&& level3BlockMask) mairIdx)
  | .level4 => some (makePageDescriptor (physAddr &&& tableOrPageMask) mairIdx)
  | .level1 => none

def isPointerEntry (level : TableLevel) (desc : Nat) : Bool :=
  match level with
  | .level4 => false
  | _ => desc &&& typeMask == mmPageTableFlag

def makePointerEntry (level : TableLevel) (physAddr : Nat) : Option Nat :=
  match level with
  | .level4 => none
  | _ => if isAligned .aarch64 physAddr pageSize then some (physAddr ||| mmPageTableFlag) else none

def getDescriptorIndex (virtAddr : Nat) : TableLevel → Nat
  | .level1 => virtAddr >>> level1Shift &&& indexMask
  | .level2 => virtAddr >>> level2Shift &&& indexMask
  | .level3 => virtAddr >>> level3Shift &&& indexMask
  | .level4 => virtAddr >>> level4Shift &&& indexMask

/-- The compact loop tests the virtual address against the entry size. -/
def format : Format TableLevel Nat where
  getTableEntrySize := getTableEntrySize
  blockAlignment := getTableEntrySize
  getNextTable := getNextTable
  isLastLevel := fun level => level == .level4
  getDescriptorIndex := getDescriptorIndex
  makeDescriptor := makeDescriptor
  isPointerEntry := isPointerEntry
  makePointerEntry := makePointerEntry
  getPhysAddrFromDescriptor := getPhysAddrFromDescriptor
  zero := 0

def mapMemory (P : Profile) (pagesStart virt base size : Nat) (device : Bool)
    (strategy : MappingStrategy) (fuel : Nat) (st : TableState Nat) : Run (TableState Nat) :=
  fillTable format P .aarch64 device strategy fuel .level1 pagesStart virt base size st

def directMapMemory (P : Profile) (virtualBase pagesStart base size : Nat) (device : Bool)
    (strategy : MappingStrategy) (fuel : Nat) (st : TableState Nat) : Run (TableState Nat) := do
  let virt ← addWord P .aarch64 virtualBase base
  fillTable format P .aarch64 device strategy fuel .level1 pagesStart virt base size st

/-! ## The hardware -/

/-- Bits [47:`lo`] of a descriptor, in place. -/
def addrField (lo desc : Nat) : Nat :=
  bitField lo 48 desc

/-- What a descriptor says in a table of the given height: the last tables have height zero. -/
def decode (h desc : Nat) : Slot :=
  if desc % 4 = 0b11 then
    if h = 0 then .block (addrField 12 desc) else .table (addrField 12 desc)
  else if desc % 4 = 0b01 ∧ (h = 1 ∨ h = 2) then .block (addrField (12 + 9 * h) desc)
  else .invalid

def mmu : Mmu Nat where
  entries := fun _ => 512
  stride := 1
  decode := decode

namespace TableLevel

def height : TableLevel → Nat
  | .level1 => 3
  | .level2 => 2
  | .level3 => 1
  | .level4 => 0

end TableLevel

/-- Physical addresses have 48 bits. -/
def physLimit : Nat := 2 ^ 48

/-! ## The hardware reads what the code writes -/

theorem and_tableOrPageMask (x : Nat) : x &&& tableOrPageMask = addrField 12 x :=
  and_two_pow_sub_two_pow (m := 12) (n := 48) (by decide) x

theorem and_level3BlockMask (x : Nat) : x &&& level3BlockMask = addrField 21 x :=
  and_two_pow_sub_two_pow (m := 21) (n := 48) (by decide) x

theorem and_level2BlockMask (x : Nat) : x &&& level2BlockMask = addrField 30 x :=
  and_two_pow_sub_two_pow (m := 30) (n := 48) (by decide) x

theorem and_typeMask (x : Nat) : x &&& typeMask = x % 4 :=
  Nat.and_two_pow_sub_one_eq_mod x 2

/-- A block or page descriptor is the address and some low bits, of which the last two are its type. -/
theorem or_attributes (device : Bool) (addr type : Nat) (htype : type = 1 ∨ type = 3) :
    ∃ c, c < 2 ^ 12 ∧ c % 4 = type ∧
      (addr ||| (if device then mmDeviceMairIdx else mmNormalMairIdx) <<< 2 ||| mmAccessFlag ||| type) =
        addr ||| c := by
  refine ⟨(if device then mmDeviceMairIdx else mmNormalMairIdx) <<< 2 ||| mmAccessFlag ||| type, ?_, ?_, ?_⟩
  · cases device <;> rcases htype with rfl | rfl <;> decide
  · cases device <;> rcases htype with rfl | rfl <;> decide
  · rw [Nat.or_assoc, Nat.or_assoc, ← Nat.or_assoc _ mmAccessFlag]

theorem decode_block {h addr c : Nat} (hh : h = 1 ∨ h = 2) (haddr : 2 ^ (12 + 9 * h) ∣ addr)
    (hlt : addr < 2 ^ 48) (hc : c < 2 ^ 12) (htype : c % 4 = 1) :
    decode h (addr ||| c) = .block addr := by
  have hdvd : 2 ^ 2 ∣ addr := (Nat.pow_dvd_pow 2 (by omega)).trans haddr
  have hmod : (addr ||| c) % 4 = 1 := (or_mod_two_pow hdvd).trans htype
  have hlow : c < 2 ^ (12 + 9 * h) := hc.trans_le (Nat.pow_le_pow_right (by decide) (by omega))
  rw [decode, if_neg (by omega), if_pos ⟨hmod, hh⟩, addrField, bitField_or haddr hlt hlow]

theorem decode_page {h addr c : Nat} (haddr : 2 ^ 12 ∣ addr) (hlt : addr < 2 ^ 48) (hc : c < 2 ^ 12)
    (htype : c % 4 = 3) : decode h (addr ||| c) = if h = 0 then .block addr else .table addr := by
  have hdvd : 2 ^ 2 ∣ addr := (Nat.pow_dvd_pow 2 (by decide)).trans haddr
  have hmod : (addr ||| c) % 4 = 3 := (or_mod_two_pow hdvd).trans htype
  rw [decode, if_pos hmod, addrField, bitField_or haddr hlt hc]

theorem decode_eq_table {h d next : Nat} (hdec : decode h d = .table next) :
    h ≠ 0 ∧ d % 4 = 3 ∧ next = addrField 12 d := by
  rw [decode] at hdec
  split at hdec
  · rename_i htype
    split at hdec
    · cases hdec
    · rename_i hh
      exact ⟨hh, htype, (Slot.table.inj hdec).symm⟩
  · split at hdec
    · cases hdec
    · cases hdec

theorem four_dvd_addrField (lo x : Nat) (hlo : 2 ≤ lo) : 2 ^ 2 ∣ addrField lo x :=
  (Nat.pow_dvd_pow 2 hlo).trans (Nat.dvd_mul_left _ _)

theorem getTableEntrySize_eq (l : TableLevel) : format.getTableEntrySize l = span l.height := by
  cases l <;> rfl

theorem getDescriptorIndex_eq (l : TableLevel) (v : Nat) : format.getDescriptorIndex v l = mmu.index l.height v := by
  cases l <;> exact (Nat.and_two_pow_sub_one_eq_mod _ 9).trans
    (by rw [Nat.shiftRight_eq_div_pow]; exact (Nat.mul_one _).symm)

theorem isLastLevel_iff (l : TableLevel) : format.isLastLevel l = true ↔ l.height = 0 := by
  cases l <;> decide

theorem getNextTable_of_zero {l : TableLevel} (hl : l.height = 0) : format.getNextTable l = none := by
  cases l <;> first | rfl | cases hl

theorem getNextTable_of_succ {l : TableLevel} {h : Nat} (hl : l.height = h + 1) :
    ∃ l', format.getNextTable l = some l' ∧ l'.height = h := by
  cases l with
  | level1 => exact ⟨.level2, rfl, by cases hl; rfl⟩
  | level2 => exact ⟨.level3, rfl, by cases hl; rfl⟩
  | level3 => exact ⟨.level4, rfl, by cases hl; rfl⟩
  | level4 => cases hl

/-- A block descriptor gives its address back, since the address is aligned and below the limit. -/
theorem decode_makeDescriptor {l : TableLevel} {p : Nat} {device : Bool} {d : Nat}
    (hd : format.makeDescriptor l p device = some d) (hdvd : span l.height ∣ p) (hle : p + span l.height ≤ physLimit) :
    mmu.decode l.height d = .block p := by
  have hlt : p < 2 ^ 48 := by
    have := span_pos l.height
    rw [physLimit] at hle
    omega
  cases l with
  | level1 => cases hd
  | level2 =>
      obtain rfl := Option.some.inj hd
      rcases or_attributes device (p &&& level2BlockMask) mmBlockFlag (Or.inl rfl) with ⟨c, hc, htype, heq⟩
      have hfield : addrField 30 p = p := bitField_of_dvd hdvd hlt
      rw [makeBlockDescriptor, heq, and_level2BlockMask, hfield]
      exact decode_block (Or.inr rfl) hdvd hlt hc htype
  | level3 =>
      obtain rfl := Option.some.inj hd
      rcases or_attributes device (p &&& level3BlockMask) mmBlockFlag (Or.inl rfl) with ⟨c, hc, htype, heq⟩
      have hfield : addrField 21 p = p := bitField_of_dvd hdvd hlt
      rw [makeBlockDescriptor, heq, and_level3BlockMask, hfield]
      exact decode_block (Or.inl rfl) hdvd hlt hc htype
  | level4 =>
      obtain rfl := Option.some.inj hd
      rcases or_attributes device (p &&& tableOrPageMask) mmPageFlag (Or.inr rfl) with ⟨c, hc, htype, heq⟩
      have hfield : addrField 12 p = p := bitField_of_dvd hdvd hlt
      rw [makePageDescriptor, heq, and_tableOrPageMask, hfield]
      exact decode_page hdvd hlt hc htype

/-- No block or page counts as a table. -/
theorem makeDescriptor_ne_table {l : TableLevel} {p : Nat} {device : Bool} {d : Nat}
    (hd : format.makeDescriptor l p device = some d) (next : Nat) : mmu.decode l.height d ≠ .table next := by
  intro hdec
  rcases decode_eq_table hdec with ⟨hh, htype, -⟩
  cases l with
  | level1 => cases hd
  | level2 =>
      obtain rfl := Option.some.inj hd
      rcases or_attributes device (p &&& level2BlockMask) mmBlockFlag (Or.inl rfl) with ⟨c, -, hc, heq⟩
      rw [makeBlockDescriptor, heq, and_level2BlockMask] at htype
      have hmod := (or_mod_two_pow (c := c) (four_dvd_addrField 30 p (by decide))).symm.trans htype
      exact absurd (hc.symm.trans hmod) (by decide)
  | level3 =>
      obtain rfl := Option.some.inj hd
      rcases or_attributes device (p &&& level3BlockMask) mmBlockFlag (Or.inl rfl) with ⟨c, -, hc, heq⟩
      rw [makeBlockDescriptor, heq, and_level3BlockMask] at htype
      have hmod := (or_mod_two_pow (c := c) (four_dvd_addrField 21 p (by decide))).symm.trans htype
      exact absurd (hc.symm.trans hmod) (by decide)
  | level4 => exact hh rfl

theorem makeDescriptor_page {l : TableLevel} (p : Nat) (device : Bool) (hl : l.height = 0) :
    ∃ d, format.makeDescriptor l p device = some d := by
  cases l <;> first | exact ⟨_, rfl⟩ | cases hl

/-- The source tests the type bits only; the last level has no pointers. -/
theorem isPointerEntry_iff {l : TableLevel} {h : Nat} (d : Nat) (hl : l.height = h + 1) :
    format.isPointerEntry l d = true ↔ ∃ next, mmu.decode (h + 1) d = .table next := by
  have hptr : format.isPointerEntry l d = true ↔ d % 4 = 3 := by
    cases l with
    | level4 => cases hl
    | level1 | level2 | level3 =>
        show (d &&& typeMask == mmPageTableFlag) = true ↔ d % 4 = 3
        rw [beq_iff_eq, and_typeMask]
        rfl
  rw [hptr]
  constructor
  · intro htype
    exact ⟨addrField 12 d, by simp [mmu, decode, htype]⟩
  · rintro ⟨next, hdec⟩
    exact (decode_eq_table hdec).2.1

/-- A table that the walk goes on to is the one that the source goes on to. -/
theorem getPhysAddrFromDescriptor_eq {l : TableLevel} {h next : Nat} {d : Nat}
    (hdec : mmu.decode (h + 1) d = .table next) :
    format.getPhysAddrFromDescriptor l d = some next := by
  rcases decode_eq_table hdec with ⟨-, htype, rfl⟩
  show getPhysAddrFromDescriptor l d = _
  unfold getPhysAddrFromDescriptor
  rw [and_typeMask, if_pos (show d % 4 = mmPageTableFlag from htype),
    and_tableOrPageMask]

/-- A pointer to a page below the limit gives it back. -/
theorem decode_makePointerEntry {l : TableLevel} {h x : Nat} (hl : l.height = h + 1) (hdvd : pageSize ∣ x)
    (hlt : x < physLimit) : ∃ d, format.makePointerEntry l x = some d ∧ mmu.decode (h + 1) d = .table x := by
  have hdec := decode_page (h := h + 1) hdvd hlt (c := mmPageTableFlag) (by decide) rfl
  have haligned : isAligned .aarch64 x pageSize = true :=
    (isAligned_iff (A := .aarch64) (k := 12) (hlt.trans (by decide)) (by decide)).2 hdvd
  refine ⟨x ||| mmPageTableFlag, ?_, hdec⟩
  cases l with
  | level4 => cases hl
  | level1 | level2 | level3 => exact if_pos haligned

theorem lawful : Lawful format mmu physLimit TableLevel.height where
  entrySize := getTableEntrySize_eq
  index := getDescriptorIndex_eq
  last := isLastLevel_iff
  next_zero := fun _ => getNextTable_of_zero
  next_succ := fun _ _ => getNextTable_of_succ
  stride := Nat.one_pos
  entries := fun _ _ _ => rfl
  block := fun _ _ _ _ => decode_makeDescriptor
  block_ne := fun _ _ _ _ => makeDescriptor_ne_table
  page := fun _ => makeDescriptor_page
  pointer := fun _ _ => isPointerEntry_iff
  physAddr := fun _ _ _ _ _ hdec _ => getPhysAddrFromDescriptor_eq hdec
  makePointer := fun _ _ _ => decode_makePointerEntry
  zero := by
    intro h
    rfl

theorem tests : Tests .aarch64 format TableLevel.height where
  eq := lawful.entrySize
  le := by
    intro l
    cases l <;> decide

end Aarch64
end Propeller
