import Propeller.Arch.Aarch64.DirectMap
import Propeller.Arch.MemoryConfig

/-!
# Arch.Aarch64.Boot — the page tables of the start code

`start/mm.s` makes the first page tables, before there is an allocator.  One Level 3 table maps the kernel and
the device tree by sections of 2 MiB, so nothing beyond the first GiB can be mapped; a second tree of tables
maps the kernel to itself for the time until the core runs at virtual addresses.  Later a third path of tables
is added for the stack of the primary core.

The tables are described entry by entry here (`BootTables`, `KernelTables`); `BootMap` has the translation of
every address.
-/

namespace Propeller
namespace Aarch64

open Paging

/-! ## The source -/

/-- `SECTION_SHIFT`, the logarithm of `SECTION_SIZE`. -/
def sectionShift : Nat := pageShift + tableShift

/-- `MM_ACCESS_RO` -/
def mmAccessRo : Nat := 0b10 <<< 6

/-- `MMU_NORMAL_RW_FLAGS` -/
def mmuNormalRwFlags : Nat := mmNormalMairIdx <<< 2 ||| mmAccessFlag

/-- `MMU_NORMAL_RO_FLAGS` -/
def mmuNormalRoFlags : Nat := mmAccessRo ||| mmNormalMairIdx <<< 2 ||| mmAccessFlag

/-- `section_align_block`: the base and the size.  Registers are words. -/
def sectionAlignBlock (base size : Nat) : Nat × Nat :=
  let mask := sectionSize - 1
  let last := (base + size) % 2 ^ 64
  let last := (last + mask) % 2 ^ 64 &&& wordNot .aarch64 mask
  let base := base &&& wordNot .aarch64 mask
  (base, (last + (2 ^ 64 - base)) % 2 ^ 64)

/-- `memset` of one table. -/
def clearTable (start : Nat) (mem : Tables Nat) (i : Nat) : Tables Nat :=
  Function.update mem (start + i * pageSize) fun _ => 0

/-- `memset` of an area of page tables. -/
def clearTables (start : Nat) (mem : Tables Nat) : Tables Nat :=
  (List.range kernelPageTables).foldl (clearTable start) mem

/-- `create_table_entry`: the entry of the table points to the page behind the table. -/
def createTableEntry (table virt shift : Nat) (mem : Tables Nat) : Nat × Tables Nat :=
  (table + pageSize, mem.set table (virt >>> shift &&& indexMask) ((table + pageSize) ||| mmPageTableFlag))

/-- `init_tables`: the address of the Level 3 table. -/
def initTables (table virt : Nat) (mem : Tables Nat) : Nat × Tables Nat :=
  let (table, mem) := createTableEntry table virt level1Shift mem
  createTableEntry table virt level2Shift mem

/-- The loop of `map_block`.  An index takes no more than 512 rounds to pass `last`. -/
def mapBlockLoop (table last : Nat) : Nat → Nat → Nat → Tables Nat → Tables Nat
  | 0, _, _, mem => mem
  | fuel + 1, index, desc, mem =>
      let mem := mem.set table index desc
      let index := index + 1
      let desc := (desc + sectionSize) % 2 ^ 64
      if index ≤ last then mapBlockLoop table last fuel index desc mem else mem

/-- `map_block` -/
def mapBlock (table base virt last flags : Nat) (mem : Tables Nat) : Tables Nat :=
  let index := virt >>> sectionShift &&& indexMask
  let last := last >>> sectionShift &&& indexMask
  let desc := flags ||| (base >>> sectionShift) <<< sectionShift
  mapBlockLoop table last 512 index desc mem

/-- The addresses that the start code takes from the linker script, as physical ones. -/
structure BootSymbols where
  kernelEnd : Nat
  pagesStart : Nat
  idPagesStart : Nat
  stackEnd : Nat
  deriving DecidableEq, Repr

/-- `mmu_create_kernel_page_tables` -/
def createKernelPageTables (sym : BootSymbols) (blob blobSize : Nat) (mem : Tables Nat) : Tables Nat :=
  let (blob, blobSize) := sectionAlignBlock blob blobSize
  let (_, kernelSize) := sectionAlignBlock 0 sym.kernelEnd
  let mem := clearTables sym.pagesStart mem
  let mem := clearTables sym.idPagesStart mem
  let (table, mem) := initTables sym.pagesStart virtualBase mem
  let (idTable, mem) := initTables sym.idPagesStart 0 mem
  let mem := mapBlock table 0 virtualBase (virtualBase + kernelSize - 1) (mmuNormalRwFlags ||| mmBlockFlag) mem
  let mem := mapBlock idTable 0 0 (kernelSize - 1) (mmuNormalRwFlags ||| mmBlockFlag) mem
  if blobSize = 0 then mem
  else mapBlock table blob (virtualBase + blob) (virtualBase + blob + blobSize - 1)
    (mmuNormalRoFlags ||| mmBlockFlag) mem

/-- The loop of `mmu_setup_primary_core_stack`, for the pages of the stack. -/
def mapStackLoop (table : Nat) : Nat → Nat → Nat → Tables Nat → Tables Nat
  | 0, _, _, mem => mem
  | n + 1, index, desc, mem => mapStackLoop table n (index + 1) (desc + pageSize) (mem.set table index desc)

/-- `mmu_setup_primary_core_stack`: the tables are the three pages behind the first three. -/
def setupPrimaryCoreStack (sym : BootSymbols) (stackStart : Nat) (mem : Tables Nat) : Tables Nat :=
  let table := sym.pagesStart
  let next := table + pageSize + pageSize + pageSize
  let virt := stackStart - kernelStackPages * pageSize
  let mem := mem.set table (virt >>> level1Shift &&& 0x1ff) (next ||| mmPageTableFlag)
  let table := next
  let next := next + pageSize
  let mem := mem.set table (virt >>> level2Shift &&& 0x1ff) (next ||| mmPageTableFlag)
  let table := next
  let next := next + pageSize
  let mem := mem.set table (virt >>> level3Shift &&& 0x1ff) (next ||| mmPageTableFlag)
  mapStackLoop next kernelStackPages (virt >>> level4Shift &&& 0x1ff)
    (sym.stackEnd ||| (mmuNormalRwFlags ||| mmPageFlag)) mem

/-- `PRIMARY_STACK_START` -/
def primaryStackStart : Nat := 0xfffffe0000000000

/-- The page tables that `primary_core_boot` leaves for `pk_init`. -/
def bootPageTables (sym : BootSymbols) (blob blobSize : Nat) (mem : Tables Nat) : Tables Nat :=
  setupPrimaryCoreStack sym primaryStackStart (createKernelPageTables sym blob blobSize mem)

/-! ## What the routines write -/

variable {mem : Tables Nat} {table base virt last flags index desc fuel : Nat}

theorem Tables.set_apply {D : Type} (mem : Tables D) (t i : Nat) (d : D) (x j : Nat) :
    mem.set t i d x j = if x = t ∧ j = i then d else mem x j := by
  by_cases hx : x = t
  · subst hx
    by_cases hj : j = i
    · rw [hj, Tables.set_self, if_pos ⟨rfl, rfl⟩]
    · rw [Tables.set_of_ne_entry hj, if_neg fun h => hj h.2]
  · rw [Tables.set_of_ne_table hx, if_neg fun h => hx h.1]

/-- The loop writes the entries from the first one to the last one, and at least one. -/
theorem mapBlockLoop_spec (hfuel : last < index + fuel) (hpos : 0 < fuel)
    (hdesc : desc + fuel * sectionSize ≤ 2 ^ 64) (t e : Nat) :
    mapBlockLoop table last fuel index desc mem t e =
      if t = table ∧ index ≤ e ∧ e ≤ max index last then desc + (e - index) * sectionSize else mem t e := by
  have hsize := sectionSize_eq
  induction fuel generalizing index desc mem with
  | zero => omega
  | succ fuel ih =>
      rw [mapBlockLoop]
      by_cases hlast : index + 1 ≤ last
      · have hnext : (desc + sectionSize) % 2 ^ 64 = desc + sectionSize := by
          refine Nat.mod_eq_of_lt ?_
          have hmul : sectionSize ≤ fuel * sectionSize := Nat.le_mul_of_pos_left _ (by omega)
          rw [Nat.succ_mul] at hdesc
          omega
        have hrest : desc + sectionSize + fuel * sectionSize ≤ 2 ^ 64 := by
          rw [Nat.succ_mul] at hdesc
          omega
        simp only [hlast, if_true, hnext]
        rw [ih (by omega) (by omega) hrest, Tables.set_apply]
        -- The entry is the first one, a later one, or not written.
        by_cases ht : t = table
        · rcases Nat.lt_trichotomy e index with hlt | heq | hgt
          · rw [if_neg (by omega), if_neg (by omega), if_neg (by omega)]
          · rw [if_neg (by omega), if_pos ⟨ht, heq⟩, if_pos (by omega), heq, Nat.sub_self, Nat.zero_mul, Nat.add_zero]
          · by_cases hle : e ≤ last
            · obtain ⟨k, rfl⟩ := Nat.exists_eq_add_of_lt hgt
              rw [if_pos (by omega), if_pos (by omega), show index + k + 1 - (index + 1) = k by omega,
                show index + k + 1 - index = k + 1 by omega, Nat.succ_mul]
              omega
            · rw [if_neg (by omega), if_neg (by omega), if_neg (by omega)]
        · rw [if_neg (by omega), if_neg (by omega), if_neg (by omega)]
      · simp only [hlast, if_false]
        rw [Tables.set_apply]
        by_cases ht : t = table ∧ e = index
        · rw [if_pos ht, if_pos (by omega), ht.2, Nat.sub_self, Nat.zero_mul, Nat.add_zero]
        · rw [if_neg ht, if_neg (by omega)]

/-- `map_block` within one table: sections from `base` on at the addresses from `virt` on. -/
theorem mapBlock_spec {i n : Nat} (hvirt : virt >>> sectionShift &&& indexMask = i)
    (hlast : last >>> sectionShift &&& indexMask = i + n) (hin : i + n < 512) (hbase : base < 2 ^ 48)
    (hdvd : sectionSize ∣ base) (hflags : flags < 2 ^ 12) (t e : Nat) :
    mapBlock table base virt last flags mem t e =
      if t = table ∧ i ≤ e ∧ e ≤ i + n then (base + (e - i) * sectionSize) ||| flags else mem t e := by
  have hsize := sectionSize_eq
  rcases hdvd with ⟨k, rfl⟩
  have hshift : (sectionSize * k) >>> sectionShift <<< sectionShift = 2 ^ 21 * k := by
    rw [Nat.shiftRight_eq_div_pow, Nat.shiftLeft_eq, hsize, show sectionShift = 21 from rfl,
      Nat.mul_div_cancel_left _ (Nat.two_pow_pos 21), Nat.mul_comm]
  have hor : ∀ a, 2 ^ 21 * a ||| flags = 2 ^ 21 * a + flags := by
    intro a
    exact (Nat.two_pow_add_eq_or_of_lt (hflags.trans (by decide)) a).symm
  unfold mapBlock
  simp only [hvirt, hlast]
  rw [mapBlockLoop_spec (by omega) (by decide)]
  · rw [Nat.max_eq_right (Nat.le_add_right i n)]
    split
    · rw [hshift, Nat.or_comm, hor, hsize, show 2 ^ 21 * k + (e - i) * 2 ^ 21 = 2 ^ 21 * (k + (e - i)) by ring, hor]
      ring
    · rfl
  · rw [hshift, Nat.or_comm, hor, hsize]
    rw [hsize] at hbase
    omega

theorem clearTable_self {start i : Nat} : clearTable start mem i (start + i * pageSize) = fun _ => 0 :=
  Function.update_self ..

theorem clearTable_of_ne {start i t : Nat} (h : t ≠ start + i * pageSize) : clearTable start mem i t = mem t :=
  Function.update_of_ne h ..

theorem clearTables_of_lt {start i : Nat} (hi : i < kernelPageTables) :
    clearTables start mem (start + i * pageSize) = fun _ => 0 := by
  have hall : ∀ (l : List Nat) (mem : Tables Nat), i ∈ l ∨ mem (start + i * pageSize) = (fun _ => 0) →
      l.foldl (clearTable start) mem (start + i * pageSize) = fun _ => 0 := by
    intro l
    induction l with
    | nil =>
        rintro mem (hmem | hzero)
        · cases hmem
        · exact hzero
    | cons j l ih =>
        intro mem h
        refine ih _ ?_
        by_cases hji : start + i * pageSize = start + j * pageSize
        · exact Or.inr (by rw [hji, clearTable_self])
        · rcases h with hmem | hzero
          · refine Or.inl ((List.mem_cons.1 hmem).resolve_left ?_)
            rintro rfl
            exact hji rfl
          · exact Or.inr (by rw [clearTable_of_ne hji, hzero])
  exact hall _ mem (Or.inl (List.mem_range.2 hi))

theorem clearTables_of_ne {start t : Nat} (ht : ∀ i < kernelPageTables, t ≠ start + i * pageSize) :
    clearTables start mem t = mem t := by
  have hall : ∀ (l : List Nat) (mem : Tables Nat), (∀ i ∈ l, t ≠ start + i * pageSize) →
      l.foldl (clearTable start) mem t = mem t := by
    intro l
    induction l with
    | nil => exact fun mem _ => rfl
    | cons j l ih =>
        intro mem h
        rw [List.foldl_cons, ih _ fun i hi => h i (List.mem_cons_of_mem j hi),
          clearTable_of_ne (h j List.mem_cons_self)]
  exact hall _ mem fun i hi => ht i (List.mem_range.1 hi)

theorem mapBlock_of_ne {t : Nat} (ht : t ≠ table) : mapBlock table base virt last flags mem t = mem t := by
  have hloop : ∀ fuel index desc (mem : Tables Nat),
      mapBlockLoop table (last >>> sectionShift &&& indexMask) fuel index desc mem t = mem t := by
    intro fuel
    induction fuel with
    | zero => exact fun _ _ _ => rfl
    | succ fuel ih =>
        intro index desc mem
        rw [mapBlockLoop]
        split
        · rw [ih, Tables.set_of_ne_table ht]
        · exact Tables.set_of_ne_table ht
  exact hloop ..

/-- Blocks are aligned as `init_memory_config` aligns them. -/
theorem sectionAlignBlock_eq {size : Nat} (h : base + size + sectionSize ≤ 2 ^ 64) :
    sectionAlignBlock base size = (sectionStart base, sectionEnd (base + size) - sectionStart base) := by
  have hsection := sectionSize_eq
  have hdown : ∀ addr < 2 ^ 64, addr &&& wordNot .aarch64 (sectionSize - 1) = addr / 2 ^ 21 * 2 ^ 21 :=
    fun addr haddr => alignDown_eq (A := .aarch64) (k := 21) haddr (by decide)
  have hsum : (base + size) % 2 ^ 64 = base + size := Nat.mod_eq_of_lt (by omega)
  have hup : (base + size + (sectionSize - 1)) % 2 ^ 64 = base + size + (sectionSize - 1) :=
    Nat.mod_eq_of_lt (by omega)
  have hle : base / 2 ^ 21 * 2 ^ 21 ≤ (base + size + (2 ^ 21 - 1)) / 2 ^ 21 * 2 ^ 21 :=
    Nat.mul_le_mul_right _ (Nat.div_le_div_right (by omega))
  have hbase := hdown base (by omega)
  have hlast := hdown (base + size + (sectionSize - 1)) (by omega)
  simp only [sectionAlignBlock, hsum, hup, hbase, hlast]
  rw [sectionStart, sectionEnd, hsection]
  refine Prod.ext rfl ?_
  show _ % 2 ^ 64 = _
  omega

/-- `init_tables` for an address space that starts on a multiple of 512 GiB. -/
theorem initTables_eq {root : Nat} (h1 : virt >>> level1Shift &&& indexMask = 0)
    (h2 : virt >>> level2Shift &&& indexMask = 0) :
    (initTables root virt mem).2 =
      (mem.set root 0 ((root + pageSize) ||| mmPageTableFlag)).set (root + pageSize) 0
        ((root + pageSize + pageSize) ||| mmPageTableFlag) := by
  simp only [initTables, createTableEntry, h1, h2]

/-! ## The layout of the image -/

/-- `start.ld`: the symbols of the start code, as physical addresses. -/
def bootSymbols (kernelStart : Nat) (s : Sections) : BootSymbols :=
  let dot := kernelStart + s.text
  let dot := pageAlign dot + s.rodata
  let dot := pageAlign dot + s.data
  let dot := pageAlign dot + s.bss
  let sym := link .aarch64 kernelStart s
  { kernelEnd := sym.kernelPagesStart + sym.kernelPagesSize - virtualBase
    pagesStart := sym.kernelPagesStart - virtualBase
    idPagesStart := pageAlign (imageEnd .aarch64 kernelStart s) - virtualBase
    stackEnd := pageAlign dot - virtualBase }

/-- The two areas for page tables end the image; the stack is in front of them, with a page for the list of
the stacks. -/
structure BootLayout (sym : BootSymbols) : Prop where
  stackEnd : pageSize ∣ sym.stackEnd
  idPages : sym.idPagesStart = sym.stackEnd + kernelStackPages * pageSize + pageSize
  pages : sym.pagesStart = sym.idPagesStart + kernelPageTables * pageSize
  kernelEnd : sym.kernelEnd = sym.pagesStart + kernelPageTables * pageSize

theorem BootLayout.pages_eq {sym : BootSymbols} (hl : BootLayout sym) : sym.pagesStart = sym.idPagesStart + 16 * 4096 :=
  hl.pages

theorem BootLayout.dvd_pages {sym : BootSymbols} (hl : BootLayout sym) : pageSize ∣ sym.pagesStart := by
  rw [hl.pages, hl.idPages]
  exact dvd_add (dvd_add (dvd_add hl.stackEnd (Nat.dvd_mul_left _ _)) dvd_rfl) (Nat.dvd_mul_left _ _)

theorem BootLayout.dvd_stack {sym : BootSymbols} (hl : BootLayout sym) (n : Nat) :
    pageSize ∣ sym.stackEnd + n * pageSize :=
  dvd_add hl.stackEnd (Nat.dvd_mul_left _ _)

/-- The pages of the stack are in the image. -/
theorem BootLayout.stack_lt {sym : BootSymbols} (hl : BootLayout sym) (hlimit : sym.kernelEnd ≤ 2 ^ 30) {n : Nat}
    (hn : n < 2) : sym.stackEnd + n * pageSize < 2 ^ 48 := by
  have hid := hl.idPages
  have hpages := hl.pages
  have hkernel := hl.kernelEnd
  rw [show pageSize = 4096 from rfl]
  omega

theorem bootSymbols_layout {kernelStart : Nat} (s : Sections) (h : virtualBase ≤ kernelStart) :
    BootLayout (bootSymbols kernelStart s) := by
  have hpage : pageSize = 4096 := rfl
  have hvirt : pageSize ∣ virtualBase := by decide
  have hlink := link_pages .aarch64 kernelStart s
  have hid := pageAlign_of_dvd (imageEnd_spec .aarch64 kernelStart s).1
  have hlt := (imageEnd_spec .aarch64 kernelStart s).2
  have hbss : ∀ dot size, dot ≤ pageAlign dot + size :=
    fun dot size => (le_pageAlign dot).trans (Nat.le_add_right _ _)
  -- The image ends behind the stack and the list.
  have hend : imageEnd .aarch64 kernelStart s =
      pageAlign (pageAlign (pageAlign (pageAlign (kernelStart + s.text) + s.rodata) + s.data) + s.bss) +
        kernelStackPages * pageSize + pageSize := by
    have hdvd : pageSize ∣ pageAlign (pageAlign (pageAlign (pageAlign (kernelStart + s.text) + s.rodata) + s.data) +
        s.bss) + kernelStackPages * pageSize := dvd_add (dvd_pageAlign _) (Nat.dvd_mul_left _ _)
    rw [imageEnd, pageAlign_of_dvd hdvd]
  have hle : virtualBase ≤
      pageAlign (pageAlign (pageAlign (pageAlign (kernelStart + s.text) + s.rodata) + s.data) + s.bss) :=
    h.trans ((Nat.le_add_right _ _).trans ((hbss _ _).trans ((hbss _ _).trans ((hbss _ _).trans (le_pageAlign _)))))
  refine ⟨Nat.dvd_sub (dvd_pageAlign _) hvirt, ?_, ?_, ?_⟩
  · simp only [bootSymbols]
    rw [hid, hend]
    omega
  · simp only [bootSymbols, hid, hlink.1]
    omega
  · simp only [bootSymbols, hlink.1, hlink.2]
    have hge : virtualBase ≤ imageEnd .aarch64 kernelStart s + kernelPageTables * pageSize := by omega
    omega

/-! ## The entries -/

/-- The entry of a section that the kernel takes, for reading and writing. -/
def kernelEntry (sym : BootSymbols) (e : Nat) : Nat :=
  if e * sectionSize < sectionEnd sym.kernelEnd then e * sectionSize ||| (mmuNormalRwFlags ||| mmBlockFlag) else 0

/-- The sections of the device tree are for reading only, also where the kernel is in them. -/
def sectionEntry (sym : BootSymbols) (blob blobSize e : Nat) : Nat :=
  if sectionStart blob ≤ e * sectionSize ∧ e * sectionSize < sectionEnd (blob + blobSize) then
    e * sectionSize ||| (mmuNormalRoFlags ||| mmBlockFlag)
  else kernelEntry sym e

/-- The tables for the first GiB, one behind the other.  The entries of the last one are given. -/
structure LowTables (mem : Tables Nat) (root : Nat) (entry : Nat → Nat) : Prop where
  level1 : mem root 0 = (root + pageSize) ||| mmPageTableFlag
  level2 : ∀ i, mem (root + pageSize) i = if i = 0 then (root + pageSize + pageSize) ||| mmPageTableFlag else 0
  level3 : ∀ i, mem (root + pageSize + pageSize) i = entry i

section Create

variable {sym : BootSymbols} {blob blobSize : Nat}

/-- What `map_block` writes for the sections up to the end of the kernel. -/
theorem mapBlock_kernel (virt : Nat) (hlimit : sym.kernelEnd ≤ 2 ^ 30) (hpos : 0 < sym.kernelEnd) (hvirt : 2 ^ 30 ∣ virt)
    (hzero : ∀ e, mem table e = 0) (e : Nat) :
    mapBlock table 0 virt (virt + sectionEnd sym.kernelEnd - 1) (mmuNormalRwFlags ||| mmBlockFlag) mem table e =
      kernelEntry sym e := by
  have hsection := sectionSize_eq
  rcases hvirt with ⟨k, rfl⟩
  have hsum : sectionEnd sym.kernelEnd = (sectionEnd sym.kernelEnd / 2 ^ 21 - 1) * 2 ^ 21 + 2 ^ 21 := by
    rw [sectionEnd, hsection]
    omega
  have hle : sectionEnd sym.kernelEnd / 2 ^ 21 - 1 < 512 := by
    rw [sectionEnd, hsection]
    omega
  generalize sectionEnd sym.kernelEnd / 2 ^ 21 - 1 = n at hsum hle
  have hindex : ∀ addr, addr >>> sectionShift &&& indexMask = addr / 2 ^ 21 % 512 := by
    intro addr
    rw [Nat.shiftRight_eq_div_pow]
    exact Nat.and_two_pow_sub_one_eq_mod _ 9
  rw [mapBlock_spec (i := 0) (n := n) (by rw [hindex]; omega) (by rw [hindex, hsum]; omega) (by omega)
    (by decide) (Nat.dvd_zero _) (by decide)]
  rw [kernelEntry, hsum, hsection]
  by_cases hen : e ≤ n
  · rw [if_pos (by omega), if_pos (by omega), Nat.sub_zero, Nat.zero_add]
  · rw [if_neg (by omega), if_neg (by omega), hzero e]

/-- What `map_block` writes for the sections of the device tree. -/
theorem mapBlock_blob (hlimit : blob + blobSize ≤ 2 ^ 30) (hpos : 0 < blobSize) {entry : Nat → Nat}
    (hentry : ∀ e, mem table e = entry e) (e : Nat) :
    mapBlock table (sectionStart blob) (virtualBase + sectionStart blob)
      (virtualBase + sectionStart blob + (sectionEnd (blob + blobSize) - sectionStart blob) - 1)
      (mmuNormalRoFlags ||| mmBlockFlag) mem table e =
      if sectionStart blob ≤ e * sectionSize ∧ e * sectionSize < sectionEnd (blob + blobSize) then
        e * sectionSize ||| (mmuNormalRoFlags ||| mmBlockFlag)
      else entry e := by
  have hsection := sectionSize_eq
  -- The sections by number: the first one is `i`, and `n` follow it.
  obtain ⟨i, hi⟩ : ∃ i, i = blob / 2 ^ 21 := ⟨_, rfl⟩
  obtain ⟨n, hn⟩ : ∃ n, (blob + blobSize + (2 ^ 21 - 1)) / 2 ^ 21 = i + n + 1 :=
    Nat.exists_eq_add_of_lt (show i < _ by omega)
  have hin : i + n < 512 := by omega
  have hstart : sectionStart blob = i * 2 ^ 21 := by rw [sectionStart, hsection, hi]
  have hend : sectionEnd (blob + blobSize) = (i + n) * 2 ^ 21 + 2 ^ 21 := by
    rw [sectionEnd, hsection, hn, Nat.succ_mul]
  have hindex : ∀ addr, addr >>> sectionShift &&& indexMask = addr / 2 ^ 21 % 512 := by
    intro addr
    rw [Nat.shiftRight_eq_div_pow]
    exact Nat.and_two_pow_sub_one_eq_mod _ 9
  have hvirt : ∀ x, (virtualBase + x) / 2 ^ 21 % 512 = x / 2 ^ 21 % 512 := by
    intro x
    rw [virtualBase]
    omega
  rw [hstart, hend, mapBlock_spec (i := i) (n := n) (by rw [hindex, hvirt]; omega)
    (by rw [hindex, Nat.add_assoc, Nat.add_sub_assoc (by omega), hvirt]; omega) hin
    (by omega) (sectionSize_eq ▸ Nat.dvd_mul_left _ _) (by decide), sectionSize_eq]
  by_cases hen : i ≤ e ∧ e ≤ i + n
  · obtain ⟨k, rfl⟩ := Nat.exists_eq_add_of_le hen.1
    rw [if_pos ⟨rfl, hen⟩, if_pos (by omega), Nat.add_sub_cancel_left, Nat.add_mul]
  · rw [if_neg (by omega), if_neg (by omega), hentry e]

/-- What the start code leaves in the two areas: a tree of three tables in each, and zeros. -/
structure BootTables (sym : BootSymbols) (entry idEntry : Nat → Nat) (mem : Tables Nat) : Prop where
  low : LowTables mem sym.pagesStart entry
  level1 : ∀ i, i ≠ 0 → mem sym.pagesStart i = 0
  rest : ∀ k, 3 ≤ k → k < kernelPageTables → ∀ i, mem (sym.pagesStart + k * pageSize) i = 0
  idLow : LowTables mem sym.idPagesStart idEntry
  idLevel1 : ∀ i, i ≠ 0 → mem sym.idPagesStart i = 0

/-- Both areas are clear before the tables are linked. -/
theorem clear_pages (mem : Tables Nat) (hl : BootLayout sym) {k : Nat} (hk : k < kernelPageTables) :
    clearTables sym.idPagesStart (clearTables sym.pagesStart mem) (sym.pagesStart + k * pageSize) = (fun _ => 0) ∧
      clearTables sym.idPagesStart (clearTables sym.pagesStart mem) (sym.idPagesStart + k * pageSize) =
        fun _ => 0 := by
  refine ⟨?_, clearTables_of_lt hk⟩
  rw [clearTables_of_ne, clearTables_of_lt hk]
  intro i hi
  have hi' : i < 16 := hi
  rw [hl.pages, show pageSize = 4096 from rfl, show kernelPageTables = 16 from rfl]
  omega

/-- A new tree of tables in a clear area. -/
theorem initTables_low (virt : Nat) {root : Nat} (h1 : virt >>> level1Shift &&& indexMask = 0)
    (h2 : virt >>> level2Shift &&& indexMask = 0)
    (hclear : ∀ k < kernelPageTables, mem (root + k * pageSize) = fun _ => 0) :
    LowTables (initTables root virt mem).2 root (fun _ => 0) ∧
      (∀ i, i ≠ 0 → (initTables root virt mem).2 root i = 0) ∧
      ∀ t, t ≠ root → t ≠ root + pageSize → (initTables root virt mem).2 t = mem t := by
  have hpage : pageSize = 4096 := rfl
  have hzero : ∀ k < kernelPageTables, ∀ i, mem (root + k * pageSize) i = 0 := by
    intro k hk i
    rw [hclear k hk]
  rw [initTables_eq h1 h2]
  refine ⟨⟨?_, ?_, ?_⟩, ?_, ?_⟩
  · rw [Tables.set_of_ne_table (by omega), Tables.set_self]
  · intro i
    by_cases hi : i = 0
    · rw [hi, Tables.set_self, if_pos rfl]
    · rw [Tables.set_of_ne_entry hi, Tables.set_of_ne_table (by omega), if_neg hi]
      exact hzero 1 (by decide) i
  · intro i
    rw [Tables.set_of_ne_table (by omega), Tables.set_of_ne_table (by omega)]
    exact hzero 2 (by decide) i
  · intro i hi
    rw [Tables.set_of_ne_table (by omega), Tables.set_of_ne_entry hi]
    exact hzero 0 (by decide) i
  · intro t ht ht'
    rw [Tables.set_of_ne_table ht', Tables.set_of_ne_table ht]

/-- A tree stays as it is when its tables do, but for the entries of the last one. -/
theorem LowTables.congr {mem' : Tables Nat} {root : Nat} {entry entry' : Nat → Nat} (h : LowTables mem root entry)
    (h1 : mem' root = mem root) (h2 : mem' (root + pageSize) = mem (root + pageSize))
    (h3 : ∀ e, mem' (root + pageSize + pageSize) e = entry' e) : LowTables mem' root entry' := by
  refine ⟨?_, ?_, h3⟩
  · rw [h1]
    exact h.level1
  · rw [h2]
    exact h.level2

/-- The tables as they are linked, before a section is mapped. -/
theorem initTables_tables (hl : BootLayout sym)
    (hclear : ∀ k < kernelPageTables, mem (sym.pagesStart + k * pageSize) = (fun _ => 0) ∧
      mem (sym.idPagesStart + k * pageSize) = fun _ => 0) :
    BootTables sym (fun _ => 0) (fun _ => 0)
      (initTables sym.idPagesStart 0 (initTables sym.pagesStart virtualBase mem).2).2 := by
  have hpage : pageSize = 4096 := rfl
  have hpages := hl.pages_eq
  rcases initTables_low virtualBase (by decide) (by decide) (fun k hk => (hclear k hk).1)
    with ⟨hlow, hlevel1, hsame⟩
  -- The tables of the second tree are other ones than those of the first.
  have hidClear : ∀ k < kernelPageTables,
      (initTables sym.pagesStart virtualBase mem).2 (sym.idPagesStart + k * pageSize) = fun _ => 0 := by
    intro k hk
    have hk' : k < 16 := hk
    rw [hsame _ (by rw [hpage]; omega) (by rw [hpage]; omega)]
    exact (hclear k hk).2
  rcases initTables_low 0 (by decide) (by decide) hidClear with ⟨hidLow, hidLevel1, hidSame⟩
  refine ⟨hlow.congr (hidSame _ (by omega) (by omega)) (hidSame _ (by omega) (by omega)) ?_, ?_, ?_, hidLow,
    hidLevel1⟩
  · rw [hidSame _ (by omega) (by omega)]
    exact hlow.level3
  · rw [hidSame _ (by omega) (by omega)]
    exact hlevel1
  · intro k hk hk' i
    rw [hidSame _ (by rw [hpage]; omega) (by rw [hpage]; omega), hsame _ (by rw [hpage]; omega)
      (by rw [hpage]; omega), (hclear k hk').1]

/-- Only the last table of a tree is written for a section. -/
theorem BootTables.mapBlock {entry entry' idEntry : Nat → Nat} (hl : BootLayout sym)
    (h : BootTables sym entry idEntry mem)
    (hentry : ∀ e, mapBlock (sym.pagesStart + pageSize + pageSize) base virt last flags mem
      (sym.pagesStart + pageSize + pageSize) e = entry' e) :
    BootTables sym entry' idEntry
      (mapBlock (sym.pagesStart + pageSize + pageSize) base virt last flags mem) := by
  have hpage : pageSize = 4096 := rfl
  have hpages := hl.pages_eq
  have hne : ∀ t, t ≠ sym.pagesStart + pageSize + pageSize →
      Aarch64.mapBlock (sym.pagesStart + pageSize + pageSize) base virt last flags mem t = mem t :=
    fun t ht => mapBlock_of_ne ht
  refine ⟨h.low.congr (hne _ (by omega)) (hne _ (by omega)) hentry, ?_, ?_,
    h.idLow.congr (hne _ (by omega)) (hne _ (by omega)) ?_, ?_⟩
  · rw [hne _ (by omega)]
    exact h.level1
  · intro k hk hk'
    rw [hne _ (by rw [hpage]; omega)]
    exact h.rest k hk hk'
  · rw [hne _ (by omega)]
    exact h.idLow.level3
  · rw [hne _ (by omega)]
    exact h.idLevel1

theorem BootTables.mapBlockId {entry idEntry idEntry' : Nat → Nat} (hl : BootLayout sym)
    (h : BootTables sym entry idEntry mem)
    (hentry : ∀ e, Aarch64.mapBlock (sym.idPagesStart + pageSize + pageSize) base virt last flags mem
      (sym.idPagesStart + pageSize + pageSize) e = idEntry' e) :
    BootTables sym entry idEntry'
      (Aarch64.mapBlock (sym.idPagesStart + pageSize + pageSize) base virt last flags mem) := by
  have hpage : pageSize = 4096 := rfl
  have hpages := hl.pages_eq
  have hne : ∀ t, t ≠ sym.idPagesStart + pageSize + pageSize →
      Aarch64.mapBlock (sym.idPagesStart + pageSize + pageSize) base virt last flags mem t = mem t :=
    fun t ht => mapBlock_of_ne ht
  refine ⟨h.low.congr (hne _ (by omega)) (hne _ (by omega)) ?_, ?_, ?_,
    h.idLow.congr (hne _ (by omega)) (hne _ (by omega)) hentry, ?_⟩
  · rw [hne _ (by omega)]
    exact h.low.level3
  · rw [hne _ (by omega)]
    exact h.level1
  · intro k hk hk'
    rw [hne _ (by rw [hpage]; omega)]
    exact h.rest k hk hk'
  · rw [hne _ (by omega)]
    exact h.idLevel1

theorem createKernelPageTables_tables (hl : BootLayout sym) (hlimit : sym.kernelEnd ≤ 2 ^ 30) (blob blobSize : Nat)
    (mem : Tables Nat) :
    ∃ entry, BootTables sym entry (kernelEntry sym) (createKernelPageTables sym blob blobSize mem) ∧
      (0 < blobSize → blob + blobSize ≤ 2 ^ 30 → ∀ e, entry e = sectionEntry sym blob blobSize e) := by
  have hpos : 0 < sym.kernelEnd := by
    have hpage : 0 < kernelPageTables * pageSize := by decide
    rw [hl.kernelEnd]
    omega
  have hkernel : sectionAlignBlock 0 sym.kernelEnd = (0, sectionEnd sym.kernelEnd) := by
    rw [sectionAlignBlock_eq (by rw [sectionSize_eq]; omega), Nat.zero_add]
    rfl
  have htable : (initTables sym.pagesStart virtualBase
      (clearTables sym.idPagesStart (clearTables sym.pagesStart mem))).1 = sym.pagesStart + pageSize + pageSize := rfl
  have hid : ∀ mem, (initTables sym.idPagesStart 0 mem).1 = sym.idPagesStart + pageSize + pageSize := fun _ => rfl
  have hlinked := initTables_tables hl fun k hk => clear_pages mem hl hk
  have hmapped := hlinked.mapBlock hl (mapBlock_kernel virtualBase hlimit hpos (by decide)
    hlinked.low.level3)
  have hboth := hmapped.mapBlockId hl (mapBlock_kernel 0 hlimit hpos (by decide)
    hmapped.idLow.level3)
  rw [Nat.zero_add] at hboth
  rw [createKernelPageTables]
  simp only [hkernel, htable, hid]
  have halign : blob + blobSize ≤ 2 ^ 30 → sectionAlignBlock blob blobSize =
      (sectionStart blob, sectionEnd (blob + blobSize) - sectionStart blob) :=
    fun hblob => sectionAlignBlock_eq (by rw [sectionSize_eq]; omega)
  split
  · rename_i hzero
    refine ⟨_, hboth, ?_⟩
    intro hsize hblob
    -- A block of some size takes a section.
    rw [halign hblob, sectionStart, sectionEnd, sectionSize_eq] at hzero
    omega
  · refine ⟨_, hboth.mapBlock hl fun e => rfl, ?_⟩
    intro hsize hblob e
    simp only [halign hblob]
    rw [sectionEntry]
    exact mapBlock_blob hblob hsize hboth.low.level3 e

/-- The tables for the stack of the primary core, one behind the other: its two pages are the last ones below
`PRIMARY_STACK_START`. -/
structure StackTables (mem : Tables Nat) (root stackEnd : Nat) : Prop where
  level1 : mem root 507 = (root + 3 * pageSize) ||| mmPageTableFlag
  level2 : ∀ i, mem (root + 3 * pageSize) i = if i = 511 then (root + 4 * pageSize) ||| mmPageTableFlag else 0
  level3 : ∀ i, mem (root + 4 * pageSize) i = if i = 511 then (root + 5 * pageSize) ||| mmPageTableFlag else 0
  level4 : ∀ i, mem (root + 5 * pageSize) i =
    if 510 ≤ i ∧ i < 512 then (stackEnd + (i - 510) * pageSize) ||| (mmuNormalRwFlags ||| mmPageFlag) else 0

/-- The tables of the kernel as `init` gets them. -/
structure KernelTables (sym : BootSymbols) (entry : Nat → Nat) (mem : Tables Nat) : Prop where
  low : LowTables mem sym.pagesStart entry
  stack : StackTables mem sym.pagesStart sym.stackEnd
  level1 : ∀ i, i ≠ 0 → i ≠ 507 → mem sym.pagesStart i = 0

theorem setupPrimaryCoreStack_eq (hl : BootLayout sym) (mem : Tables Nat) :
    setupPrimaryCoreStack sym primaryStackStart mem =
      ((((mem.set sym.pagesStart 507 ((sym.pagesStart + 3 * pageSize) ||| mmPageTableFlag)).set
        (sym.pagesStart + 3 * pageSize) 511 ((sym.pagesStart + 4 * pageSize) ||| mmPageTableFlag)).set
        (sym.pagesStart + 4 * pageSize) 511 ((sym.pagesStart + 5 * pageSize) ||| mmPageTableFlag)).set
        (sym.pagesStart + 5 * pageSize) 510 (sym.stackEnd ||| (mmuNormalRwFlags ||| mmPageFlag))).set
        (sym.pagesStart + 5 * pageSize) 511 ((sym.stackEnd + pageSize) ||| (mmuNormalRwFlags ||| mmPageFlag)) := by
  have hflags : sym.stackEnd ||| (mmuNormalRwFlags ||| mmPageFlag) =
      sym.stackEnd + (mmuNormalRwFlags ||| mmPageFlag) := by
    rcases hl.stackEnd with ⟨k, hk⟩
    rw [hk]
    exact (Nat.two_pow_add_eq_or_of_lt (i := 12) (by decide) k).symm
  have hnext : (sym.stackEnd + pageSize) ||| (mmuNormalRwFlags ||| mmPageFlag) =
      sym.stackEnd + pageSize + (mmuNormalRwFlags ||| mmPageFlag) := by
    rcases hl.stackEnd with ⟨k, hk⟩
    rw [hk, ← Nat.mul_succ]
    exact (Nat.two_pow_add_eq_or_of_lt (i := 12) (by decide) (k + 1)).symm
  have hdesc : (sym.stackEnd ||| (mmuNormalRwFlags ||| mmPageFlag)) + pageSize =
      (sym.stackEnd + pageSize) ||| (mmuNormalRwFlags ||| mmPageFlag) := by
    rw [hflags, hnext]
    omega
  have hloop : ∀ table index desc (mem : Tables Nat), mapStackLoop table kernelStackPages index desc mem =
      (mem.set table index desc).set table (index + 1) (desc + pageSize) := fun _ _ _ _ => rfl
  have h1 : (primaryStackStart - kernelStackPages * pageSize) >>> level1Shift &&& 0x1ff = 507 := by decide
  have h2 : (primaryStackStart - kernelStackPages * pageSize) >>> level2Shift &&& 0x1ff = 511 := by decide
  have h3 : (primaryStackStart - kernelStackPages * pageSize) >>> level3Shift &&& 0x1ff = 511 := by decide
  have h4 : (primaryStackStart - kernelStackPages * pageSize) >>> level4Shift &&& 0x1ff = 510 := by decide
  have hthree : sym.pagesStart + pageSize + pageSize + pageSize = sym.pagesStart + 3 * pageSize := by omega
  have hfour : sym.pagesStart + 3 * pageSize + pageSize = sym.pagesStart + 4 * pageSize := by omega
  have hfive : sym.pagesStart + 4 * pageSize + pageSize = sym.pagesStart + 5 * pageSize := by omega
  simp only [setupPrimaryCoreStack, hloop, h1, h2, h3, h4, hthree, hfour, hfive, hdesc]

theorem setupPrimaryCoreStack_tables {entry idEntry : Nat → Nat} (hl : BootLayout sym)
    (h : BootTables sym entry idEntry mem) :
    KernelTables sym entry (setupPrimaryCoreStack sym primaryStackStart mem) := by
  have hpage : pageSize = 4096 := rfl
  have hrest : ∀ k, 3 ≤ k → k < 16 → ∀ i, mem (sym.pagesStart + k * pageSize) i = 0 := h.rest
  rw [setupPrimaryCoreStack_eq hl]
  refine ⟨⟨?_, ?_, ?_⟩, ⟨?_, ?_, ?_, ?_⟩, ?_⟩
  · simp only [Tables.set_apply]
    rw [if_neg (by omega), if_neg (by omega), if_neg (by omega), if_neg (by omega), if_neg (by omega)]
    exact h.low.level1
  · intro i
    simp only [Tables.set_apply]
    rw [if_neg (by omega), if_neg (by omega), if_neg (by omega), if_neg (by omega), if_neg (by omega)]
    exact h.low.level2 i
  · intro i
    simp only [Tables.set_apply]
    rw [if_neg (by omega), if_neg (by omega), if_neg (by omega), if_neg (by omega), if_neg (by omega)]
    exact h.low.level3 i
  · simp only [Tables.set_apply]
    rw [if_neg (by omega), if_neg (by omega), if_neg (by omega), if_neg (by omega), if_pos ⟨trivial, trivial⟩]
  · intro i
    simp only [Tables.set_apply]
    rw [if_neg (by omega), if_neg (by omega), if_neg (by omega)]
    by_cases hi : i = 511
    · rw [if_pos ⟨trivial, hi⟩, if_pos hi]
    · rw [if_neg (by omega), if_neg (by omega), if_neg hi, hrest 3 (by omega) (by omega)]
  · intro i
    simp only [Tables.set_apply]
    rw [if_neg (by omega), if_neg (by omega)]
    by_cases hi : i = 511
    · rw [if_pos ⟨trivial, hi⟩, if_pos hi]
    · rw [if_neg (by omega), if_neg (by omega), if_neg (by omega), if_neg hi, hrest 4 (by omega) (by omega)]
  · intro i
    simp only [Tables.set_apply]
    by_cases hi : i = 511
    · rw [if_pos ⟨trivial, hi⟩, if_pos (by omega), hi, Nat.one_mul]
    · rw [if_neg (by omega)]
      by_cases hi' : i = 510
      · rw [if_pos ⟨trivial, hi'⟩, if_pos (by omega), hi', Nat.sub_self, Nat.zero_mul, Nat.add_zero]
      · rw [if_neg (by omega), if_neg (by omega), if_neg (by omega), if_neg (by omega), if_neg (by omega),
          hrest 5 (by omega) (by omega)]
  · intro i hi hi'
    simp only [Tables.set_apply]
    rw [if_neg (by omega), if_neg (by omega), if_neg (by omega), if_neg (by omega), if_neg (by omega)]
    exact h.level1 i hi

end Create

end Aarch64
end Propeller
