import Propeller.Support.RangeExclude

/-!
# Arch.MemoryConfig — which memory the allocators get

`init_memory_config` takes the memory ranges of the device tree and excludes what is in use: everything from
the virtual base on, everything up to the end of the section-aligned kernel, and the section-aligned device
tree.  Where the kernel ends is a symbol of the linker script, and the script puts two areas for page tables
behind that symbol.  The second one holds the page tables of the kernel.
-/

namespace Propeller

/-! ## The linker script -/

/-- `ALIGN(__page_size)` -/
def pageAlign (dot : Nat) : Nat :=
  (dot + (pageSize - 1)) / pageSize * pageSize

/-- The sizes of what the compiler puts into the sections. -/
structure Sections where
  text : Nat
  rodata : Nat
  data : Nat
  bss : Nat
  vectors : Nat
  stubs : Nat

/-- The symbols of the script that the start code passes on. -/
structure Symbols where
  kernelStart : Nat
  kernelSize : Nat
  kernelPagesStart : Nat
  kernelPagesSize : Nat
  deriving DecidableEq, Repr

def kernelStackPages : Nat := 2

def kernelPageTables : Nat := 16

/-- Where the sections that count for `__kernel_size` end.  Only ARM has more than one stack, and sections for
the exception vectors and stubs. -/
def imageEnd (A : Arch) (kernelStart : Nat) (s : Sections) : Nat :=
  let dot := kernelStart + s.text
  let dot := pageAlign dot + s.rodata
  let dot := pageAlign dot + s.data
  let dot := pageAlign dot + s.bss
  match A with
  | .aarch64 =>
      let dot := pageAlign dot + kernelStackPages * pageSize
      pageAlign dot + pageSize
  | .arm =>
      let dot := pageAlign dot + 5 * (kernelStackPages * pageSize)
      let dot := pageAlign dot + pageSize
      let dot := pageAlign (pageAlign dot + s.vectors)
      pageAlign (pageAlign dot + s.stubs)

/-- `start.ld`, with the given address of `.text`. -/
def link (A : Arch) (kernelStart : Nat) (s : Sections) : Symbols :=
  let dot := imageEnd A kernelStart s
  let idPagesStart := pageAlign dot
  let idPagesEnd := idPagesStart + kernelPageTables * pageSize
  let pagesStart := pageAlign idPagesEnd
  let pagesEnd := pagesStart + kernelPageTables * pageSize
  { kernelStart
    kernelSize := dot - kernelStart
    kernelPagesStart := pagesStart
    kernelPagesSize := pagesEnd - pagesStart }

/-- `KernelConfig` with the fields that the memory layout needs. -/
structure LayoutConfig extends KernelConfig where
  blob : Nat
  kernelSize : Nat
  kernelPagesStart : Nat
  kernelPagesSize : Nat
  deriving DecidableEq, Repr

/-- The start code passes physical addresses. -/
def startConfig (virtualStart vmSplit blob : Nat) (sym : Symbols) : LayoutConfig where
  virtualBase := virtualStart
  kernelBase := sym.kernelStart - virtualStart
  vmSplit := vmSplit
  blob := blob
  kernelSize := sym.kernelSize
  kernelPagesStart := sym.kernelPagesStart - virtualStart
  kernelPagesSize := sym.kernelPagesSize

/-- The virtual base addresses of the linker scripts, and those that `init` accepts. -/
def IsVirtualBase (A : Arch) (v : Nat) : Prop :=
  match A with
  | .aarch64 => v = 0xffff000000000000
  | .arm => v = 0xc0000000 ∨ v = 0x80000000

/-! ## The source -/

inductive MemoryZone
  | invalidZone
  | linearMemoryZone
  | highMemoryZone
  deriving DecidableEq, Repr

def maxMemRanges : Nat := 64

abbrev MemoryRange : Type := Range MemoryZone

abbrev MemoryConfig : Type := RangeSet maxMemRanges MemoryZone

namespace Arm

def highMemSize : Nat := 128 * 1024 * 1024

def recursiveMapArea : Nat := 0xffc00000

def pageDatabaseSize : Nat := 24 * 1024 * 1024

def pageDatabaseVirtualBase : Nat := recursiveMapArea - pageDatabaseSize

def getHighMemBase (virtualBase : Nat) : Nat :=
  Arch.wordLimit .arm - 1 - virtualBase - highMemSize + 1

end Arm

/-- `RangeZoneTagger::handle_range`.  On AArch64, all memory is linear memory. -/
def handleRange (P : Profile) (A : Arch) (virtualBase base size : Nat) (config : MemoryConfig) :
    Run MemoryConfig :=
  match A with
  | .aarch64 => .ok (config.insertRange A ⟨.linearMemoryZone, base, size⟩).2
  | .arm => do
      let range : MemoryRange := ⟨.invalidZone, base, size⟩
      let (rl, rh) ← unwrap (← range.split P A (Arm.getHighMemBase virtualBase))
      let config := match rl with
        | some rl => (config.insertRange A ⟨.linearMemoryZone, rl.base, rl.size⟩).2
        | none => config
      let config := match rh with
        | some rh => (config.insertRange A ⟨.highMemoryZone, rh.base, rh.size⟩).2
        | none => config
      return config

/-- What is excluded on one architecture only: the place of the page database. -/
def reservedRanges (A : Arch) (virtualBase : Nat) : List MemoryRange :=
  match A with
  | .aarch64 => []
  | .arm => [⟨.invalidZone, Arm.pageDatabaseVirtualBase - virtualBase, Arm.pageDatabaseSize⟩]

/-- `init_memory_config`, for the memory blocks that the device tree has. -/
def initMemoryConfig (P : Profile) (A : Arch) (k : LayoutConfig) (blobSize : Nat) (blocks : List (Nat × Nat))
    (fuel : Nat) : Run MemoryConfig := do
  let blobStart := alignDown A k.blob sectionSize
  let blobEnd ← alignUpWord P A (← addWord P A k.blob blobSize) sectionSize
  let blobSize ← subWord P A blobEnd blobStart
  -- `get_memory_layout`.
  let config ← blocks.foldlM (fun config b => handleRange P A k.virtualBase b.1 b.2 config) RangeSet.new
  let config ← config.trimRanges P A fuel
  require (config.isEmpty = false) .noMemory
  let kernelEnd ← alignUpWord P A (← addWord P A k.kernelBase k.kernelSize) sectionSize
  RangeSet.excludeAll P A
    (reservedRanges A k.virtualBase ++
      [⟨.invalidZone, k.virtualBase, A.wordLimit - 1 - k.virtualBase + 1⟩,
        ⟨.invalidZone, 0, kernelEnd⟩,
        ⟨.invalidZone, blobStart, blobSize⟩])
    config

/-! ## The layout of the image -/

theorem dvd_pageAlign (dot : Nat) : pageSize ∣ pageAlign dot :=
  Nat.dvd_mul_left _ _

theorem le_pageAlign (dot : Nat) : dot ≤ pageAlign dot := by
  have hpage : pageSize = 4096 := rfl
  rw [pageAlign, hpage]
  omega

theorem pageAlign_of_dvd {dot : Nat} (h : pageSize ∣ dot) : pageAlign dot = dot := by
  have hpage : pageSize = 4096 := rfl
  rw [hpage] at h
  rw [pageAlign, hpage]
  omega

variable {P : Profile} {A : Arch} {k : LayoutConfig} {blobSize fuel : Nat} {blocks : List (Nat × Nat)}
  {config config' : MemoryConfig}

theorem imageEnd_spec (A : Arch) (kernelStart : Nat) (s : Sections) :
    pageSize ∣ imageEnd A kernelStart s ∧ kernelStart < imageEnd A kernelStart s := by
  have hpage := pageSize_pos
  -- Every section ends behind the location counter.
  have hstep : ∀ dot size, dot ≤ pageAlign dot + size :=
    fun dot size => (le_pageAlign dot).trans (Nat.le_add_right _ _)
  have hbss : kernelStart ≤ pageAlign (pageAlign (pageAlign (kernelStart + s.text) + s.rodata) + s.data) + s.bss :=
    (Nat.le_add_right _ _).trans ((hstep _ _).trans ((hstep _ _).trans (hstep _ _)))
  have hlist : ∀ dot size, kernelStart ≤ dot → kernelStart < pageAlign (pageAlign dot + size) + pageSize := by
    intro dot size hdot
    have h₁ := hstep dot size
    have h₂ := le_pageAlign (pageAlign dot + size)
    omega
  cases A with
  | aarch64 => exact ⟨dvd_add (dvd_pageAlign _) dvd_rfl, hlist _ _ hbss⟩
  | arm =>
      refine ⟨dvd_pageAlign _, ?_⟩
      exact (hlist _ _ hbss).trans_le ((hstep _ _).trans ((le_pageAlign _).trans ((hstep _ _).trans
        (le_pageAlign _))))

/-- The page tables of the kernel are the second area behind the image. -/
theorem link_pages (A : Arch) (kernelStart : Nat) (s : Sections) :
    (link A kernelStart s).kernelPagesStart = imageEnd A kernelStart s + kernelPageTables * pageSize ∧
      (link A kernelStart s).kernelPagesSize = kernelPageTables * pageSize := by
  have hdvd := (imageEnd_spec A kernelStart s).1
  have hid : pageAlign (imageEnd A kernelStart s) = imageEnd A kernelStart s := pageAlign_of_dvd hdvd
  have hpages : pageAlign (imageEnd A kernelStart s + kernelPageTables * pageSize) =
      imageEnd A kernelStart s + kernelPageTables * pageSize :=
    pageAlign_of_dvd (dvd_add hdvd (Nat.dvd_mul_left _ _))
  simp only [link, hid, hpages, Nat.add_sub_cancel_left, and_self]

/-! ## Rounding -/

/-- The end of the section that the address lies in or at the end of. -/
def sectionEnd (addr : Nat) : Nat :=
  (addr + (sectionSize - 1)) / sectionSize * sectionSize

theorem section_le_wordBits (A : Arch) : 21 ≤ A.wordBits := by
  cases A <;> decide

theorem alignUpWord_eq {addr : Nat} (h : addr + sectionSize ≤ A.wordLimit) :
    alignUpWord P A addr sectionSize = .ok (sectionEnd addr) := by
  have hsection := sectionSize_eq
  have hsum : addr + (sectionSize - 1) < A.wordLimit := by omega
  rw [sectionEnd, hsection] at *
  exact alignUpWord_two_pow hsum (section_le_wordBits A)

theorem le_sectionEnd (addr : Nat) : addr ≤ sectionEnd addr := by
  have hsection := sectionSize_eq
  rw [sectionEnd, hsection]
  omega

/-! ## The memory blocks -/

/-- A memory block as the device tree reader passes it on. -/
structure ValidBlock (A : Arch) (b : Nat × Nat) : Prop where
  lt : b.1 < A.wordLimit
  pos : 0 < b.2
  le : b.1 + b.2 ≤ A.wordLimit
  size : b.2 < A.wordLimit

/-- The ranges that a block is inserted as. -/
def zoneRanges (A : Arch) (virtualBase : Nat) (b : Nat × Nat) : List MemoryRange :=
  match A with
  | .aarch64 => [⟨.linearMemoryZone, b.1, b.2⟩]
  | .arm =>
      let high := Arm.getHighMemBase virtualBase
      if high ≤ b.1 then [⟨.highMemoryZone, b.1, b.2⟩]
      else if b.1 + b.2 ≤ high then [⟨.linearMemoryZone, b.1, b.2⟩]
      else [⟨.linearMemoryZone, b.1, high - b.1⟩, ⟨.highMemoryZone, high, b.1 + b.2 - high⟩]

theorem handleRange_eq {b : Nat × Nat} (hb : ValidBlock A b) (virtualBase : Nat) (config : MemoryConfig) :
    handleRange P A virtualBase b.1 b.2 config =
      .ok (RangeSet.insertAll A (zoneRanges A virtualBase b) config) := by
  cases A with
  | aarch64 => simp only [handleRange, zoneRanges, RangeSet.insertAll, List.foldl_cons, List.foldl_nil]
  | arm =>
      have hfits : (⟨.invalidZone, b.1, b.2⟩ : MemoryRange).Fits .arm := ⟨hb.lt, hb.le⟩
      have hinsert : ∀ rs : List MemoryRange, RangeSet.insertAll .arm rs config =
          rs.foldl (fun s r => (s.insertRange .arm r).2) config := fun _ => rfl
      simp only [handleRange, zoneRanges, Range.split_eq P hfits hb.pos, Range.stop, run_ok_bind]
      generalize Arm.getHighMemBase virtualBase = high
      by_cases hhigh : high ≤ b.1
      · simp only [hhigh, if_true, unwrap, run_ok_bind, hinsert, run_pure_eq_ok, List.foldl_cons, List.foldl_nil]
      · by_cases hlow : b.1 + b.2 ≤ high
        · simp only [hhigh, hlow, if_true, if_false, unwrap, run_ok_bind, hinsert, run_pure_eq_ok,
            List.foldl_cons, List.foldl_nil]
        · simp only [hhigh, hlow, if_false, unwrap, run_ok_bind, hinsert, run_pure_eq_ok, List.foldl_cons,
            List.foldl_nil]

theorem foldlM_handleRange (hblocks : ∀ b ∈ blocks, ValidBlock A b) (virtualBase : Nat) (config : MemoryConfig) :
    blocks.foldlM (fun config b => handleRange P A virtualBase b.1 b.2 config) config =
      .ok (RangeSet.insertAll A (blocks.flatMap (zoneRanges A virtualBase)) config) := by
  induction blocks generalizing config with
  | nil => rfl
  | cons b blocks ih =>
      rw [List.foldlM_cons, handleRange_eq (hblocks b List.mem_cons_self), run_ok_bind,
        ih fun b' hb' => hblocks b' (List.mem_cons_of_mem _ hb'), List.flatMap_cons, RangeSet.insertAll,
        RangeSet.insertAll, RangeSet.insertAll, List.foldl_append]

theorem zoneRanges_valid {b : Nat × Nat} (hb : ValidBlock A b) {virtualBase : Nat} {r : MemoryRange}
    (hr : r ∈ zoneRanges A virtualBase b) : r.Fits A ∧ 0 < r.size ∧ r.size < A.wordLimit := by
  rcases hb with ⟨hlt, hpos, hle, hsize⟩
  have hfits : ∀ tag base size, base < A.wordLimit → base + size ≤ A.wordLimit →
      (⟨tag, base, size⟩ : MemoryRange).Fits A := fun _ _ _ h₁ h₂ => ⟨h₁, h₂⟩
  cases A with
  | aarch64 =>
      obtain rfl := List.mem_singleton.1 hr
      exact ⟨hfits _ _ _ hlt hle, hpos, hsize⟩
  | arm =>
      simp only [zoneRanges] at hr
      split at hr
      · obtain rfl := List.mem_singleton.1 hr
        exact ⟨hfits _ _ _ hlt hle, hpos, hsize⟩
      · split at hr
        · obtain rfl := List.mem_singleton.1 hr
          exact ⟨hfits _ _ _ hlt hle, hpos, hsize⟩
        · rcases List.mem_pair.1 hr with rfl | rfl
          · exact ⟨hfits _ _ _ hlt (by omega), by simp only; omega, by simp only; omega⟩
          · exact ⟨hfits _ _ _ (by omega) (by omega), by simp only; omega, by simp only; omega⟩

/-! ## What is left of the memory -/

/-- The start of the section that the address lies in. -/
def sectionStart (addr : Nat) : Nat :=
  addr / sectionSize * sectionSize

/-- The assumption of `init_memory_config`: the ends of the kernel and of the device tree do not overflow. -/
structure LayoutFits (A : Arch) (k : LayoutConfig) (blobSize : Nat) : Prop where
  virtualBase : IsVirtualBase A k.virtualBase
  kernel : k.kernelBase + k.kernelSize + sectionSize ≤ A.wordLimit
  blob : k.blob + blobSize + sectionSize ≤ A.wordLimit

/-- The memory that is stored: a set takes no more than 64 ranges. -/
def memory (A : Arch) (virtualBase : Nat) (blocks : List (Nat × Nat)) : Set Nat :=
  {x | ∃ r ∈ (blocks.flatMap (zoneRanges A virtualBase)).take maxMemRanges, x ∈ r.addrs}

/-- The sections of the device tree. -/
def blobSections (k : LayoutConfig) (blobSize : Nat) : Set Nat :=
  Set.Ico (sectionStart k.blob) (sectionEnd (k.blob + blobSize))

/-- The place of the page database, which is excluded on ARM. -/
def reserved (A : Arch) (virtualBase : Nat) : Set Nat :=
  {x | ∃ e ∈ reservedRanges A virtualBase, x ∈ e.addrs}

theorem IsVirtualBase.lt {v : Nat} (h : IsVirtualBase A v) : v < A.wordLimit := by
  cases A with
  | aarch64 =>
      obtain rfl : v = _ := h
      decide
  | arm => rcases h with rfl | rfl <;> decide

theorem reservedRanges_fits {v : Nat} (h : IsVirtualBase A v) : ∀ e ∈ reservedRanges A v, e.Fits A := by
  cases A with
  | aarch64 =>
      intro e he
      cases he
  | arm =>
      rcases h with rfl | rfl <;> decide

/-- The addresses of the memory configuration: memory that is not excluded. -/
theorem initMemoryConfig_addrs (hfits : LayoutFits A k blobSize) (hblocks : ∀ b ∈ blocks, ValidBlock A b)
    (hrun : initMemoryConfig P A k blobSize blocks fuel = .ok config) (x : Nat) :
    x ∈ config.addrs ↔ x ∈ memory A k.virtualBase blocks ∧ x ∉ reserved A k.virtualBase ∧ x < k.virtualBase ∧
      sectionEnd (k.kernelBase + k.kernelSize) ≤ x ∧ x ∉ blobSections k blobSize := by
  have hv := hfits.virtualBase.lt
  have hkernel := hfits.kernel
  have hblob := hfits.blob
  have hsection := sectionSize_eq
  -- The memory that is inserted.
  have hvalid : ∀ r ∈ blocks.flatMap (zoneRanges A k.virtualBase),
      r.Fits A ∧ 0 < r.size ∧ r.size < A.wordLimit := by
    intro r hr
    rcases List.mem_flatMap.1 hr with ⟨b, hb, hr⟩
    exact zoneRanges_valid (hblocks b hb) hr
  have hordered : RangeSet.Ordered A
      (RangeSet.insertAll A (blocks.flatMap (zoneRanges A k.virtualBase)) (RangeSet.new : MemoryConfig)) :=
    RangeSet.new_ordered.insertAll fun r hr => (hvalid r hr).2.2
  -- The steps of the function.
  have hdown : alignDown A k.blob sectionSize = sectionStart k.blob :=
    alignDown_eq (k := 21) (by omega) (section_le_wordBits A)
  have hle : sectionStart k.blob ≤ sectionEnd (k.blob + blobSize) := by
    rw [sectionStart, sectionEnd, hsection]
    omega
  have hendlt : ∀ addr, addr + sectionSize ≤ A.wordLimit → sectionEnd addr < A.wordLimit := by
    intro addr haddr
    rw [hsection] at haddr
    rw [sectionEnd, hsection]
    omega
  simp only [initMemoryConfig, addWord_of_lt (show k.blob + blobSize < A.wordLimit by omega),
    addWord_of_lt (show k.kernelBase + k.kernelSize < A.wordLimit by omega), run_ok_bind, alignUpWord_eq hblob,
    alignUpWord_eq hkernel, hdown, subWord_of_le hle (hendlt _ hblob),
    foldlM_handleRange hblocks] at hrun
  rcases run_bind_eq_ok.1 hrun with ⟨trimmed, htrim, hrun⟩
  rcases run_bind_eq_ok.1 hrun with ⟨_, -, hexcl⟩
  rcases RangeSet.trimRanges_eq_ok hordered htrim with ⟨rfl, hbefore⟩
  have hrange : ∀ base size, base < A.wordLimit → base + size ≤ A.wordLimit →
      (⟨.invalidZone, base, size⟩ : MemoryRange).Fits A := fun _ _ h₁ h₂ => ⟨h₁, h₂⟩
  have hall : ∀ e ∈ reservedRanges A k.virtualBase ++
      [⟨.invalidZone, k.virtualBase, A.wordLimit - 1 - k.virtualBase + 1⟩,
        ⟨.invalidZone, 0, sectionEnd (k.kernelBase + k.kernelSize)⟩,
        ⟨.invalidZone, sectionStart k.blob, sectionEnd (k.blob + blobSize) - sectionStart k.blob⟩],
      e.Fits A := by
    have hkend := hendlt _ hkernel
    have hbend := hendlt _ hblob
    intro e he
    rcases List.mem_append.1 he with he | he
    · exact reservedRanges_fits hfits.virtualBase e he
    · simp only [List.mem_cons, List.not_mem_nil, or_false] at he
      rcases he with rfl | rfl | rfl
      · exact hrange _ _ hv (by omega)
      · exact hrange _ _ (by omega) (by omega)
      · exact hrange _ _ (by omega) (by omega)
  have haddrs := (RangeSet.excludeAll_apart ⟨hordered, hbefore⟩ hall hexcl).2 x
  rw [haddrs, RangeSet.addrs_insertAll hvalid]
  refine and_congr_right fun hmem => ?_
  have hlt : x < A.wordLimit := by
    rcases hmem with ⟨r, hr, hx⟩
    exact hx.2.trans_le (hvalid r (List.mem_of_mem_take hr)).1.le
  -- Membership in the excluded ranges, one by one.
  have hvirtual : x ∉ (⟨.invalidZone, k.virtualBase, A.wordLimit - 1 - k.virtualBase + 1⟩ : MemoryRange).addrs ↔
      x < k.virtualBase := by
    rw [Range.mem_addrs]
    simp only
    omega
  have hkernelArea : x ∉ (⟨.invalidZone, 0, sectionEnd (k.kernelBase + k.kernelSize)⟩ : MemoryRange).addrs ↔
      sectionEnd (k.kernelBase + k.kernelSize) ≤ x := by
    rw [Range.mem_addrs]
    simp only
    omega
  have hblobArea : x ∈ (⟨.invalidZone, sectionStart k.blob,
      sectionEnd (k.blob + blobSize) - sectionStart k.blob⟩ : MemoryRange).addrs ↔ x ∈ blobSections k blobSize := by
    rw [Range.mem_addrs, blobSections, Set.mem_Ico]
    simp only
    omega
  have hreserved : (∀ e ∈ reservedRanges A k.virtualBase, x ∉ e.addrs) ↔ x ∉ reserved A k.virtualBase := by
    constructor
    · rintro h ⟨e, he, hx⟩
      exact h e he hx
    · intro h e he hx
      exact h ⟨e, he, hx⟩
  rw [List.forall_mem_append, List.forall_mem_cons, List.forall_mem_cons, List.forall_mem_singleton, hreserved,
    hvirtual, hkernelArea, hblobArea]

/-! ## What is in use -/

/-- The kernel image, the page tables of the kernel, the sections of the device tree, and page zero. -/
def InUse (k : LayoutConfig) (blobSize x : Nat) : Prop :=
  (k.kernelBase ≤ x ∧ x < k.kernelBase + k.kernelSize) ∨
    (k.kernelPagesStart ≤ x ∧ x < k.kernelPagesStart + k.kernelPagesSize) ∨
    x ∈ blobSections k blobSize ∨ x < pageSize

/-- No memory of the page tables lies behind the section that the image ends in, other than what is excluded
for another reason. -/
def PagesCovered (A : Arch) (k : LayoutConfig) (blobSize : Nat) (blocks : List (Nat × Nat)) : Prop :=
  ∀ x, k.kernelPagesStart ≤ x → x < k.kernelPagesStart + k.kernelPagesSize →
    sectionEnd (k.kernelBase + k.kernelSize) ≤ x → x ∈ memory A k.virtualBase blocks →
    x ∈ blobSections k blobSize ∨ x ∈ reserved A k.virtualBase ∨ k.virtualBase ≤ x

/-- Whatever the link layout, the place of the device tree and the memory: whenever `init_memory_config`
returns, it leaves nothing in use to the allocators exactly if the page tables are covered. -/
theorem initMemoryConfig_unused_iff (P : Profile) (A : Arch) (kernelStart virtualStart vmSplit blob blobSize : Nat)
    (s : Sections) (blocks : List (Nat × Nat)) (fuel : Nat) (config : MemoryConfig)
    (hfits : LayoutFits A (startConfig virtualStart vmSplit blob (link A kernelStart s)) blobSize)
    (hblocks : ∀ b ∈ blocks, ValidBlock A b)
    (hrun : initMemoryConfig P A (startConfig virtualStart vmSplit blob (link A kernelStart s)) blobSize blocks
      fuel = .ok config) :
    (∀ r ∈ config.getRanges, ∀ x ∈ r.addrs,
        ¬ InUse (startConfig virtualStart vmSplit blob (link A kernelStart s)) blobSize x) ↔
      PagesCovered A (startConfig virtualStart vmSplit blob (link A kernelStart s)) blobSize blocks := by
  have haddrs := initMemoryConfig_addrs hfits hblocks hrun
  have hsize : (startConfig virtualStart vmSplit blob (link A kernelStart s)).kernelSize =
      imageEnd A kernelStart s - kernelStart := rfl
  have himage := (imageEnd_spec A kernelStart s).2
  generalize startConfig virtualStart vmSplit blob (link A kernelStart s) = k at *
  constructor
  · intro hunused x hlo hhi hsec hmem
    by_contra hnot
    push Not at hnot
    rcases hnot with ⟨hblob, hres, hvirt⟩
    rcases (haddrs x).2 ⟨hmem, hres, hvirt, hsec, hblob⟩ with ⟨r, hr, hx⟩
    exact hunused r hr x hx (Or.inr (Or.inl ⟨hlo, hhi⟩))
  · intro hcovered r hr x hx hused
    rcases (haddrs x).1 ⟨r, hr, hx⟩ with ⟨hmem, hres, hvirt, hsec, hblob⟩
    have hle := le_sectionEnd (k.kernelBase + k.kernelSize)
    rcases hused with ⟨-, hlt⟩ | ⟨hlo, hhi⟩ | hin | hzero
    · omega
    · rcases hcovered x hlo hhi hsec hmem with h | h | h
      · exact hblob h
      · exact hres h
      · omega
    · exact hblob hin
    · -- The image is not empty, so its last section ends behind page zero.
      have hpage : pageSize = 4096 := rfl
      have hsection := sectionSize_eq
      rw [sectionEnd, hsection] at hsec
      omega

/-- The areas for page tables behind the image end in the same section. -/
theorem pagesCovered_of_le {kernelStart virtualStart : Nat} (vmSplit blob blobSize : Nat) (s : Sections)
    (blocks : List (Nat × Nat)) (hstart : virtualStart ≤ kernelStart)
    (hle : imageEnd A kernelStart s - virtualStart + 2 * (kernelPageTables * pageSize) ≤
      sectionEnd (imageEnd A kernelStart s - virtualStart)) :
    PagesCovered A (startConfig virtualStart vmSplit blob (link A kernelStart s)) blobSize blocks := by
  intro x _ hhi hsec _
  rcases link_pages A kernelStart s with ⟨hpages, hsize⟩
  have himage := (imageEnd_spec A kernelStart s).2
  have hend : kernelStart - virtualStart + (imageEnd A kernelStart s - kernelStart) =
      imageEnd A kernelStart s - virtualStart := by omega
  have hsec' : sectionEnd (kernelStart - virtualStart + (imageEnd A kernelStart s - kernelStart)) ≤ x := hsec
  rw [hend] at hsec'
  have hhi' : x < (link A kernelStart s).kernelPagesStart - virtualStart + (link A kernelStart s).kernelPagesSize :=
    hhi
  rw [hpages, hsize] at hhi'
  omega

/-- An image that ends 128 KiB before a section does. -/
theorem initMemoryConfig_unused_small :
    ∃ config, initMemoryConfig .dev .aarch64
        (startConfig 0xffff000000000000 0 0x8000000 (link .aarch64 0xffff000000080000 ⟨0x15d000, 0, 0, 0, 0, 0⟩))
        0x1000 [(0, 0x40000000)] 1 = .ok config ∧
      ∀ r ∈ config.getRanges, ∀ x ∈ r.addrs, ¬ InUse
        (startConfig 0xffff000000000000 0 0x8000000 (link .aarch64 0xffff000000080000 ⟨0x15d000, 0, 0, 0, 0, 0⟩))
        0x1000 x := by
  refine ⟨⟨[⟨.linearMemoryZone, 0x200000, 0x7e00000⟩, ⟨.linearMemoryZone, 0x8200000, 0x37e00000⟩]⟩, ?_, ?_⟩
  · decide +kernel
  · refine (initMemoryConfig_unused_iff .dev .aarch64 0xffff000000080000 0xffff000000000000 0 0x8000000 0x1000
      ⟨0x15d000, 0, 0, 0, 0, 0⟩ [(0, 0x40000000)] 1 _ ⟨rfl, by decide, by decide⟩ ?_ (by decide +kernel)).2 ?_
    · rintro b hb
      obtain rfl := List.mem_singleton.1 hb
      exact ⟨by decide, by decide, by decide, by decide⟩
    · exact pagesCovered_of_le 0 0x8000000 0x1000 _ _ (by decide) (by decide)

/-- An image that ends with a section: the page tables are given to the allocators. -/
theorem initMemoryConfig_gives_pages :
    ∃ config, initMemoryConfig .dev .aarch64
        (startConfig 0xffff000000000000 0 0x8000000 (link .aarch64 0xffff000000080000 ⟨0x17d000, 0, 0, 0, 0, 0⟩))
        0x1000 [(0, 0x40000000)] 1 = .ok config ∧
      ∃ r ∈ config.getRanges, ∃ x ∈ r.addrs, InUse
        (startConfig 0xffff000000000000 0 0x8000000 (link .aarch64 0xffff000000080000 ⟨0x17d000, 0, 0, 0, 0, 0⟩))
        0x1000 x := by
  refine ⟨⟨[⟨.linearMemoryZone, 0x200000, 0x7e00000⟩, ⟨.linearMemoryZone, 0x8200000, 0x37e00000⟩]⟩, ?_,
    ⟨.linearMemoryZone, 0x200000, 0x7e00000⟩, List.mem_cons_self, 0x210000, ?_, ?_⟩
  · decide +kernel
  · exact ⟨by decide, by decide⟩
  · exact Or.inr (Or.inl ⟨by decide, by decide⟩)

end Propeller
