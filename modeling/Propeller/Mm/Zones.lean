import Propeller.Arch.MemoryConfig
import Propeller.Mm.Buddy.Init

/-!
# Mm.Zones — setting up the zone allocators

`init_allocators` computes, from the memory configuration, a range and the size of the metadata for each zone,
takes the metadata of all zones from the end of a linear range, and constructs one page allocator for a zone.
The indices of a zone's ranges are computed before the metadata is taken out and used afterwards.
-/

namespace Propeller
namespace Mm

/-! ## The source -/

structure ZoneInfo where
  range : MemoryRange
  metaSize : Nat
  zoneIndex : Nat
  startIndex : Nat
  endIndex : Nat
  deriving DecidableEq, Repr

def zoneAllocatorCount : Nat := 2

def linearMemoryAllocator : Nat := 0

def highMemoryAllocator : Nat := 1

def zoneInfoInitializer : ZoneInfo where
  range := ⟨.invalidZone, 0, 0⟩
  metaSize := 0
  zoneIndex := 0
  startIndex := 0
  endIndex := 0

def getZoneIndex : MemoryZone → Option Nat
  | .linearMemoryZone => some linearMemoryAllocator
  | .highMemoryZone => some highMemoryAllocator
  | _ => none

/-- One round of the first loop of `init_zone_info`. -/
def scanRange (P : Profile) (A : Arch) (info : Nat → ZoneInfo) (x : MemoryRange × Nat) :
    Run (Nat → ZoneInfo) := do
  let (range, index) := x
  let zoneIndex ← unwrap (getZoneIndex range.tag)
  let zone := info zoneIndex
  if zone.range.tag = .invalidZone then
    return Function.update info zoneIndex { zone with range, zoneIndex, startIndex := index, endIndex := index }
  else if zone.range.tag = range.tag then do
    let rangeEnd ← addWord P A range.base (← subWord P A range.size 1)
    let size ← addWord P A (← subWord P A rangeEnd zone.range.base) 1
    return Function.update info zoneIndex { zone with range := { zone.range with size }, endIndex := index }
  else return info

/-- One round of the second loop of `init_zone_info`. -/
def sizeZone (P : Profile) (A : Arch) (info : Nat → ZoneInfo) (i : Nat) : Run (Nat → ZoneInfo) := do
  let metaSize ← alignUpWord P A (Buddy.calcMetadataSize A (info i).range.size) pageSize
  return Function.update info i { info i with metaSize }

def initZoneInfo (P : Profile) (A : Arch) (memConfig : MemoryConfig) : Run (Nat → ZoneInfo) := do
  let info ← memConfig.getRanges.zipIdx.foldlM (scanRange P A) fun _ => zoneInfoInitializer
  (List.range zoneAllocatorCount).foldlM (sizeZone P A) info

/-- The metadata base address, and the ranges that are left to the allocators. -/
def initAllocatorMemoryConfig (P : Profile) (A : Arch) (memConfig : MemoryConfig) (info : Nat → ZoneInfo) :
    Run (Nat × MemoryConfig) := do
  let metaTotal ← (List.range zoneAllocatorCount).foldlM (fun acc i => addWord P A acc (info i).metaSize) 0
  let metaBase ←
    match memConfig.getRanges.find? fun range => range.tag = .linearMemoryZone ∧ metaTotal < range.size with
    | some range => do
        let rangeEnd ← addWord P A range.base (← subWord P A range.size 1)
        addWord P A (← subWord P A rangeEnd metaTotal) 1
    | none => pure 0
  require (metaBase ≠ 0) .noMemory
  let allocConfig ← memConfig.excludeRange P A ⟨.invalidZone, metaBase, metaTotal⟩
  return (metaBase, allocConfig)

/-- `&ranges[start..=end]`. -/
def sliceInclusive {α : Type} (xs : List α) (start last : Nat) : Run (List α) :=
  if start ≤ last + 1 ∧ last < xs.length then .ok ((xs.take (last + 1)).drop start) else .error .index

/-- A call of `BuddyPageAllocator::new`, and the size of the metadata area that goes with it. -/
structure ZoneCall where
  zoneIndex : Nat
  base : Nat
  size : Nat
  metadata : Nat
  metaSize : Nat
  avail : List MemoryRange
  deriving DecidableEq, Repr

/-- One round of the last loop of `init_allocators`, up to the call. -/
def zoneCall (P : Profile) (A : Arch) (allocConfig : MemoryConfig) (info : Nat → ZoneInfo)
    (x : Nat × List ZoneCall) (i : Nat) : Run (Nat × List ZoneCall) := do
  let (metadata, calls) := x
  let zone := info i
  if zone.range.tag = .invalidZone then return x
  else do
    let avail ← sliceInclusive allocConfig.getRanges zone.startIndex zone.endIndex
    let next ← addWord P A metadata zone.metaSize
    return (next, calls ++
      [{ zoneIndex := zone.zoneIndex
         base := zone.range.base
         size := zone.range.size
         metadata
         metaSize := zone.metaSize
         avail }])

/-- The calls that `init_allocators` makes, in order. -/
def zoneCalls (P : Profile) (A : Arch) (cfg : KernelConfig) (memConfig : MemoryConfig) :
    Run (List ZoneCall) := do
  let info ← initZoneInfo P A memConfig
  let (metaBase, allocConfig) ← initAllocatorMemoryConfig P A memConfig info
  let metadata ← addWord P A cfg.virtualBase metaBase
  let (_, calls) ← (List.range zoneAllocatorCount).foldlM (zoneCall P A allocConfig info) (metadata, [])
  return calls

/-- The ranges as the page allocator takes them. -/
def availRanges (avail : List MemoryRange) : List Buddy.MemoryRange :=
  avail.map fun r => ⟨r.base, r.size⟩

/-- `BuddyPageAllocator::new(..).unwrap()`. -/
def ZoneCall.construct (A : Arch) (cfg : KernelConfig) (mem : Nat → Buddy.BlockNode) (c : ZoneCall) :
    Run Buddy.State := do
  unwrap (← Buddy.new A cfg c.base c.size c.metadata (availRanges c.avail) mem)

/-- `init_allocators`: the allocator of each zone, over the memory as it is found. -/
def initAllocators (P : Profile) (A : Arch) (cfg : KernelConfig) (memConfig : MemoryConfig)
    (mem : Nat → Buddy.BlockNode) : Run (List (Nat × Buddy.State)) := do
  let calls ← zoneCalls P A cfg memConfig
  calls.mapM fun c => do return (c.zoneIndex, ← c.construct A cfg mem)

variable {P : Profile} {A : Arch} {cfg : KernelConfig} {config : MemoryConfig} {tag : MemoryZone}
  {r : MemoryRange} {rs lin high : List MemoryRange} {i n : Nat} {info : Nat → ZoneInfo}

/-! ## The zones -/

/-- The size of the range that spans the ranges of a zone. -/
def zoneSize : List MemoryRange → Nat
  | [] => 0
  | r :: rs => ((r :: rs).getLast (List.cons_ne_nil r rs)).stop - r.base

/-- The size of the metadata of a zone, in whole pages. -/
def metaSizeOf (A : Arch) (rs : List MemoryRange) : Nat :=
  pageAlign (Buddy.calcMetadataSize A (zoneSize rs))

theorem dvd_metaSizeOf (A : Arch) (rs : List MemoryRange) : pageSize ∣ metaSizeOf A rs := by
  rw [metaSizeOf]
  exact dvd_pageAlign _

/-- What is found out about a zone whose ranges stand from the index `start` on. -/
def zoneInfo (metaSize zoneIndex start : Nat) : List MemoryRange → ZoneInfo
  | [] => { zoneInfoInitializer with metaSize }
  | r :: rs =>
      { range := { r with size := zoneSize (r :: rs) }
        metaSize
        zoneIndex
        startIndex := start
        endIndex := start + rs.length }

/-- The ranges of a zone: they are in order and within the address space, and not everything. -/
structure ZoneRanges (A : Arch) (tag : MemoryZone) (rs : List MemoryRange) : Prop where
  tag : ∀ r ∈ rs, r.tag = tag
  fits : ∀ r ∈ rs, r.Fits A
  pos : ∀ r ∈ rs, 0 < r.size
  sorted : rs.Pairwise fun r r' => r.base ≤ r'.base
  size : ∀ r ∈ rs, ∀ r' ∈ rs, r'.stop - r.base < A.wordLimit

theorem ZoneRanges.sublist {rs' : List MemoryRange} (h : ZoneRanges A tag rs) (hsub : rs'.Sublist rs) :
    ZoneRanges A tag rs' where
  tag := fun r hr => h.tag r (hsub.subset hr)
  fits := fun r hr => h.fits r (hsub.subset hr)
  pos := fun r hr => h.pos r (hsub.subset hr)
  sorted := h.sorted.sublist hsub
  size := fun r hr r' hr' => h.size r (hsub.subset hr) r' (hsub.subset hr')

theorem tag_ne_of_getZoneIndex (h : getZoneIndex tag = some i) : tag ≠ .invalidZone := by
  rintro rfl
  cases h

theorem zoneSize_append (r x : MemoryRange) (rs : List MemoryRange) :
    zoneSize (r :: (rs ++ [x])) = x.stop - r.base := by
  rw [zoneSize]
  simp only [← List.cons_append, List.getLast_append_singleton]

/-- The first range of a zone. -/
theorem scanRange_first (hi : getZoneIndex r.tag = some i) (hinfo : (info i).range.tag = .invalidZone)
    (hmeta : (info i).metaSize = 0) (P : Profile) (n : Nat) :
    scanRange P A info (r, n) = .ok (Function.update info i (zoneInfo 0 i n [r])) := by
  have hsize : zoneSize [r] = r.size := Nat.add_sub_cancel_left _ _
  simp only [scanRange, hi, unwrap, run_ok_bind, hinfo, if_true, hmeta, zoneInfo, hsize, List.length_nil,
    Nat.add_zero]
  rfl

/-- Another range of a zone. -/
theorem scanRange_next {z : ZoneInfo} (hi : getZoneIndex r.tag = some i) (hinfo : info i = z)
    (htag : z.range.tag = r.tag) (hfits : r.Fits A) (hpos : 0 < r.size) (hle : z.range.base ≤ r.base)
    (hlt : r.stop - z.range.base < A.wordLimit) (P : Profile) (n : Nat) :
    scanRange P A info (r, n) = .ok (Function.update info i
      { z with range := { z.range with size := r.stop - z.range.base }, endIndex := n }) := by
  have hstop : r.stop = r.base + r.size := rfl
  have hfle := hfits.le
  have hblt := hfits.lt
  have hne : z.range.tag ≠ .invalidZone := htag ▸ tag_ne_of_getZoneIndex hi
  -- The source works with the last address, so a range up to the word limit does not overflow.
  have hend : addWord P A r.base (r.size - 1) = .ok (r.stop - 1) := by
    rw [addWord_of_lt (by omega)]
    exact congrArg Except.ok (by omega)
  have hsum : r.stop - 1 - z.range.base + 1 = r.stop - z.range.base := by omega
  have hadd : addWord P A (r.stop - 1 - z.range.base) 1 = .ok (r.stop - z.range.base) := by
    rw [addWord_of_lt (by omega), hsum]
  rcases Nat.lt_or_ge r.size A.wordLimit with hsize | hsize
  · simp only [scanRange, hi, unwrap, run_ok_bind, hinfo, if_neg hne, if_pos htag,
      subWord_of_le (show 1 ≤ r.size from hpos) hsize, hend,
      subWord_of_le (show z.range.base ≤ r.stop - 1 by omega) (show r.stop - 1 < A.wordLimit by omega), hadd]
    rfl
  · omega

/-- The ranges of one zone, one after the other. -/
theorem scan_zone (P : Profile) (n : Nat) (info : Nat → ZoneInfo) (hzone : ZoneRanges A tag rs)
    (hi : getZoneIndex tag = some i) (hinfo : info i = zoneInfoInitializer) :
    (rs.zipIdx n).foldlM (scanRange P A) info = .ok (Function.update info i (zoneInfo 0 i n rs)) := by
  -- The scan folds from the left, so the induction takes the last range off.
  induction rs using List.reverseRecOn with
  | nil =>
      have hself : zoneInfo 0 i n [] = info i := hinfo.symm
      rw [hself, Function.update_eq_self]
      rfl
  | append_singleton rs x ih =>
      have hx : x ∈ rs ++ [x] := List.mem_append_right _ List.mem_cons_self
      have hxi : getZoneIndex x.tag = some i := by rw [hzone.tag x hx, hi]
      rw [List.zipIdx_append, List.foldlM_append, ih (hzone.sublist (List.sublist_append_left rs [x])), run_ok_bind,
        List.zipIdx_singleton, List.foldlM_cons]
      cases rs with
      | nil =>
          have hself : zoneInfo 0 i n [] = info i := hinfo.symm
          -- The first range opens the zone.
          rw [hself, Function.update_eq_self,
            scanRange_first hxi (by rw [hinfo]; rfl) (by rw [hinfo]; rfl)]
          rfl
      | cons r rs =>
          have hr : r ∈ r :: rs ++ [x] := List.mem_cons_self
          have hle : r.base ≤ x.base :=
            (List.pairwise_append.1 hzone.sorted).2.2 r List.mem_cons_self x List.mem_cons_self
          have htag : r.tag = x.tag := (hzone.tag r hr).trans (hzone.tag x hx).symm
          rw [scanRange_next hxi (Function.update_self i _ _) htag (hzone.fits x hx) (hzone.pos x hx) hle
            (hzone.size r hr x hx), Function.update_idem]
          refine congrArg (fun z => Except.ok (Function.update info i z)) ?_
          simp only [zoneInfo, List.cons_append, zoneSize_append, List.length_append, List.length_cons,
            List.length_nil]

/-! ## Memory configurations -/

/-- A memory configuration with room for one more range: disjoint ranges of whole pages, the linear ones first
and in linear memory, and one of these larger than the metadata of both zones. -/
structure ZoneConfig (A : Arch) (cfg : KernelConfig) (config : MemoryConfig) (lin high : List MemoryRange) :
    Prop where
  apart : config.Apart A
  room : config.count ≤ maxMemRanges - 1
  ranges : config.getRanges = lin ++ high
  linTag : ∀ r ∈ lin, r.tag = .linearMemoryZone
  highTag : ∀ r ∈ high, r.tag = .highMemoryZone
  aligned : ∀ r ∈ config.getRanges, pageSize ∣ r.base ∧ pageSize ∣ r.size
  mapped : ∀ r ∈ lin, cfg.virtualBase + r.stop < A.wordLimit
  large : ∃ r ∈ lin, metaSizeOf A lin + metaSizeOf A high < r.size

namespace ZoneConfig

variable (h : ZoneConfig A cfg config lin high)

include h

theorem mem_lin (hr : r ∈ lin) : r ∈ config.ranges := by
  have hranges : config.ranges = lin ++ high := h.ranges
  rw [hranges]
  exact List.mem_append_left _ hr

theorem mem_high (hr : r ∈ high) : r ∈ config.ranges := by
  have hranges : config.ranges = lin ++ high := h.ranges
  rw [hranges]
  exact List.mem_append_right _ hr

theorem before : (lin ++ high).Pairwise RangeSet.Before := by
  rw [← h.ranges]
  exact h.apart.before

theorem sorted : (lin ++ high).Pairwise fun r r' => r.base ≤ r'.base := by
  rw [← h.ranges]
  exact h.apart.sorted

theorem zone_lin : ZoneRanges A .linearMemoryZone lin where
  tag := h.linTag
  fits := fun r hr => h.apart.fits r (h.mem_lin hr)
  pos := fun r hr => h.apart.pos r (h.mem_lin hr)
  sorted := h.sorted.sublist (List.sublist_append_left _ _)
  size := by
    intro r _ r' hr'
    have := h.mapped r' hr'
    omega

/-- High memory does not start at zero, as there is linear memory before it. -/
theorem zone_high : ZoneRanges A .highMemoryZone high where
  tag := h.highTag
  fits := fun r hr => h.apart.fits r (h.mem_high hr)
  pos := fun r hr => h.apart.pos r (h.mem_high hr)
  sorted := h.sorted.sublist (List.sublist_append_right _ _)
  size := by
    intro r hr r' hr'
    rcases h.large with ⟨x, hx, hlarge⟩
    have hle : x.base + x.size ≤ r.base := (List.pairwise_append.1 h.before).2.2 x hx r hr
    have hfits : r'.stop ≤ A.wordLimit := (h.apart.fits r' (h.mem_high hr')).le
    have hpos := Nat.two_pow_pos A.wordBits
    rw [Arch.wordLimit] at hfits ⊢
    omega

/-- The metadata is smaller than a range of whole pages, so it does not overflow when it is rounded. -/
theorem meta_lt : metaSizeOf A lin + metaSizeOf A high + pageSize ≤ A.wordLimit := by
  rcases h.large with ⟨x, hx, hlarge⟩
  have hfits : x.base + x.size ≤ A.wordLimit := (h.apart.fits x (h.mem_lin hx)).le
  have hx' := (h.aligned x (h.mem_lin hx)).2
  have hle := Nat.le_of_dvd (Nat.sub_pos_of_lt hlarge)
    (Nat.dvd_sub hx' (dvd_add (dvd_metaSizeOf A lin) (dvd_metaSizeOf A high)))
  omega

end ZoneConfig

theorem alignUpWord_page {addr : Nat} (h : pageAlign addr + pageSize ≤ A.wordLimit) :
    alignUpWord P A addr pageSize = .ok (pageAlign addr) := by
  have hle := le_pageAlign addr
  have hpos := pageSize_pos
  have hsum : addr + (pageSize - 1) < A.wordLimit := by omega
  have hk : 12 ≤ A.wordBits := by cases A <;> decide
  have hpow : pageSize = 2 ^ 12 := rfl
  rw [pageAlign, hpow] at *
  exact alignUpWord_two_pow hsum hk

theorem zoneInfo_size (m i n : Nat) (rs : List MemoryRange) : (zoneInfo m i n rs).range.size = zoneSize rs := by
  cases rs <;> rfl

theorem sizeZone_eq {j : Nat} (P : Profile) (rs : List MemoryRange) (hinfo : info i = zoneInfo 0 j n rs)
    (hle : metaSizeOf A rs + pageSize ≤ A.wordLimit) :
    sizeZone P A info i = .ok (Function.update info i (zoneInfo (metaSizeOf A rs) j n rs)) := by
  have hset : { zoneInfo 0 j n rs with metaSize := metaSizeOf A rs } = zoneInfo (metaSizeOf A rs) j n rs := by
    cases rs <;> rfl
  simp only [sizeZone, hinfo, zoneInfo_size, alignUpWord_page hle, run_ok_bind]
  exact congrArg (fun z => Except.ok (Function.update info i z)) hset

/-- What `init_zone_info` returns. -/
def zonesOf (A : Arch) (lin high : List MemoryRange) : Nat → ZoneInfo :=
  Function.update (Function.update (fun _ => zoneInfoInitializer)
    linearMemoryAllocator (zoneInfo (metaSizeOf A lin) linearMemoryAllocator 0 lin))
    highMemoryAllocator (zoneInfo (metaSizeOf A high) highMemoryAllocator lin.length high)

theorem initZoneInfo_eq (h : ZoneConfig A cfg config lin high) (P : Profile) :
    initZoneInfo P A config = .ok (zonesOf A lin high) := by
  have hlt := h.meta_lt
  have hlin := scan_zone (i := linearMemoryAllocator) P 0 (fun _ => zoneInfoInitializer) h.zone_lin rfl rfl
  have hhigh := scan_zone (i := highMemoryAllocator) P lin.length
    (Function.update (fun _ => zoneInfoInitializer) linearMemoryAllocator
      (zoneInfo 0 linearMemoryAllocator 0 lin)) h.zone_high rfl rfl
  have hrange : List.range zoneAllocatorCount = [linearMemoryAllocator, highMemoryAllocator] := rfl
  rw [initZoneInfo, h.ranges, List.zipIdx_append, List.foldlM_append, hlin, run_ok_bind, Nat.zero_add, hhigh,
    run_ok_bind, hrange, List.foldlM_cons, sizeZone_eq P lin rfl (by omega), run_ok_bind, List.foldlM_cons,
    sizeZone_eq P high rfl (by omega), run_ok_bind, List.foldlM_nil]
  refine congrArg Except.ok ?_
  rw [Function.update_comm (by decide : highMemoryAllocator ≠ linearMemoryAllocator), Function.update_idem,
    Function.update_idem, zonesOf]

/-! ## The metadata -/

theorem calcMetadataSize_pos {size : Nat} (h : pageSize ≤ size) : 0 < Buddy.calcMetadataSize A size := by
  have hblocks : 1 ≤ size / pageSize := (Nat.one_le_div_iff pageSize_pos).2 h
  have hpair : 0 < Buddy.pairCount size 0 := by
    rw [Buddy.pairCount, Nat.pow_zero, Nat.div_one]
    omega
  have hfirst : 0 < (Buddy.levelStart A size 1).2 :=
    (Nat.zero_le _).trans_lt (Buddy.pair_word_lt A hpair)
  have hmono := Buddy.levelStart_snd_mono A size (show 1 ≤ Buddy.BLOCK_LEVELS by decide)
  rw [Buddy.calcMetadataSize, Nat.shiftLeft_eq]
  exact Nat.mul_pos (by omega) (Nat.two_pow_pos _)

/-- A zone with a range has room for that range. -/
theorem size_le_zoneSize (hzone : ZoneRanges A tag rs) (hne : rs ≠ []) : ∃ r ∈ rs, r.size ≤ zoneSize rs := by
  cases rs with
  | nil => exact absurd rfl hne
  | cons r rs =>
      have hmem := List.getLast_mem (List.cons_ne_nil r rs)
      refine ⟨_, hmem, ?_⟩
      have hle : r.base ≤ ((r :: rs).getLast (List.cons_ne_nil r rs)).base := by
        rcases List.mem_cons.1 hmem with heq | hin
        · rw [heq]
        · exact (List.pairwise_cons.1 hzone.sorted).1 _ hin
      rw [zoneSize, Range.stop]
      omega

theorem ZoneConfig.meta_pos (h : ZoneConfig A cfg config lin high) : 0 < metaSizeOf A lin := by
  rcases h.large with ⟨x, hx, -⟩
  rcases size_le_zoneSize h.zone_lin (List.ne_nil_of_mem hx) with ⟨r, hr, hle⟩
  have hpage : pageSize ≤ r.size := Nat.le_of_dvd (h.apart.pos r (h.mem_lin hr)) (h.aligned r (h.mem_lin hr)).2
  exact (calcMetadataSize_pos (hpage.trans hle)).trans_le (le_pageAlign _)

/-- The metadata of all zones. -/
def metaTotal (A : Arch) (lin high : List MemoryRange) : Nat :=
  metaSizeOf A lin + metaSizeOf A high

/-- The block that the metadata is taken from. -/
def metaBlock (A : Arch) (lin high : List MemoryRange) (metaBase : Nat) : MemoryRange :=
  ⟨.invalidZone, metaBase, metaTotal A lin high⟩

theorem zoneInfo_metaSize (m i n : Nat) (rs : List MemoryRange) : (zoneInfo m i n rs).metaSize = m := by
  cases rs <;> rfl

/-- The sum of the sizes of the metadata. -/
theorem metaTotal_fold (h : ZoneConfig A cfg config lin high) (P : Profile) :
    (List.range zoneAllocatorCount).foldlM (fun acc i => addWord P A acc (zonesOf A lin high i).metaSize) 0 =
      .ok (metaTotal A lin high) := by
  have hlt := h.meta_lt
  have hpos := pageSize_pos
  have hrange : List.range zoneAllocatorCount = [linearMemoryAllocator, highMemoryAllocator] := rfl
  have hlin : (zonesOf A lin high linearMemoryAllocator).metaSize = metaSizeOf A lin :=
    zoneInfo_metaSize _ _ _ _
  have hhigh : (zonesOf A lin high highMemoryAllocator).metaSize = metaSizeOf A high :=
    zoneInfo_metaSize _ _ _ _
  rw [hrange, List.foldlM_cons, hlin, addWord_of_lt (by omega), run_ok_bind, List.foldlM_cons, hhigh,
    addWord_of_lt (by omega), run_ok_bind, List.foldlM_nil, Nat.zero_add]
  rfl

/-- The range that the metadata is taken from: the first large linear one. -/
theorem find_large (h : ZoneConfig A cfg config lin high) :
    ∃ r pre post, r ∈ lin ∧ metaTotal A lin high < r.size ∧ config.ranges = pre ++ r :: post ∧
      config.getRanges.find? (fun range => range.tag = .linearMemoryZone ∧ metaTotal A lin high < range.size) =
        some r := by
  rcases h.large with ⟨x, hx, hlarge⟩
  have hsome : (config.getRanges.find? fun range =>
      range.tag = .linearMemoryZone ∧ metaTotal A lin high < range.size).isSome := by
    rw [List.find?_isSome]
    exact ⟨x, h.mem_lin hx, decide_eq_true ⟨h.linTag x hx, hlarge⟩⟩
  rcases Option.isSome_iff_exists.1 hsome with ⟨r, hr⟩
  rcases List.find?_eq_some_iff_append.1 hr with ⟨hp, pre, post, hranges, -⟩
  rcases of_decide_eq_true hp with ⟨htag, hsize⟩
  have hmem : r ∈ lin ++ high := by
    rw [← h.ranges]
    exact List.mem_of_find?_eq_some hr
  refine ⟨r, pre, post, ?_, hsize, hranges, hr⟩
  rcases List.mem_append.1 hmem with hlin | hhigh
  · exact hlin
  · -- A range of high memory does not have the tag that the search asks for.
    rw [h.highTag r hhigh] at htag
    cases htag

/-- The metadata is taken from the end of a linear range, and every range of the configuration keeps its
place. -/
theorem initAllocatorMemoryConfig_eq (h : ZoneConfig A cfg config lin high) (P : Profile) :
    ∃ r ∈ lin, metaTotal A lin high < r.size ∧
      initAllocatorMemoryConfig P A config (zonesOf A lin high) =
        .ok (r.stop - metaTotal A lin high,
          ⟨config.ranges.flatMap (Range.minus (metaBlock A lin high (r.stop - metaTotal A lin high)))⟩) ∧
      ∀ x ∈ config.ranges, (Range.minus (metaBlock A lin high (r.stop - metaTotal A lin high)) x).length = 1 := by
  rcases find_large h with ⟨r, pre, post, hr, hlarge, hranges, hfind⟩
  have hrs : r.stop = r.base + r.size := rfl
  have hmapped := h.mapped r hr
  have hpos : 0 < metaTotal A lin high := h.meta_pos.trans_le (Nat.le_add_right _ _)
  have hrpos := h.apart.pos r (h.mem_lin hr)
  refine ⟨r, hr, hlarge, ?_, ?_⟩
  · -- The block is the end of the first linear range that is large enough.
    have hend : addWord P A r.base (r.size - 1) = .ok (r.stop - 1) := by
      rw [addWord_of_lt (by omega)]
      exact congrArg Except.ok (by omega)
    have hsum : r.stop - 1 - metaTotal A lin high + 1 = r.stop - metaTotal A lin high := by omega
    have hadd : addWord P A (r.stop - 1 - metaTotal A lin high) 1 = .ok (r.stop - metaTotal A lin high) := by
      rw [addWord_of_lt (by omega), hsum]
    have hne : r.stop - metaTotal A lin high ≠ 0 := by omega
    have hcount : config.count < maxMemRanges := by
      have := h.room
      have hmax : maxMemRanges = 64 := rfl
      omega
    have hblock : (metaBlock A lin high (r.stop - metaTotal A lin high)).stop = r.stop :=
      Nat.sub_add_cancel (by omega)
    have hexcl := RangeSet.excludeRange_end P (e := metaBlock A lin high (r.stop - metaTotal A lin high)) h.apart
      hranges hcount (show r.base < r.stop - metaTotal A lin high by omega) hblock hpos (by omega)
    have heq := (RangeSet.excludeRange_eq_ok h.apart.toOrdered ⟨by rw [metaBlock]; simp only; omega, by omega⟩ hpos
      hexcl).1
    simp only [initAllocatorMemoryConfig, metaTotal_fold h, run_ok_bind, hfind,
      subWord_of_le (show 1 ≤ r.size from hrpos) (show r.size < A.wordLimit by omega), hend,
      subWord_of_le (show metaTotal A lin high ≤ r.stop - 1 by omega) (show r.stop - 1 < A.wordLimit by omega),
      hadd, require_pos hne]
    rw [metaBlock] at hexcl heq ⊢
    rw [hexcl, run_ok_bind, ← heq]
    rfl
  · intro x hx
    have hblock : (metaBlock A lin high (r.stop - metaTotal A lin high)).stop = r.stop :=
      Nat.sub_add_cancel (by omega)
    have hbase : (metaBlock A lin high (r.stop - metaTotal A lin high)).base = r.stop - metaTotal A lin high := rfl
    -- The other ranges are before or behind the block.
    have hbefore := h.apart.before
    rw [hranges, List.pairwise_append, List.pairwise_cons] at hbefore
    rcases hbefore with ⟨-, ⟨hpost, -⟩, hpre⟩
    have hxpos := h.apart.pos x hx
    rw [hranges, List.mem_append, List.mem_cons] at hx
    rcases hx with hx | rfl | hx
    · have hle : x.stop ≤ r.base := hpre x hx r List.mem_cons_self
      rw [RangeSet.minus_of_apart hxpos (Or.inl (by omega)), List.length_singleton]
    · rw [RangeSet.minus_of_end (by omega) (by omega) hblock, List.length_singleton]
    · have hle : r.stop ≤ x.base := hpost x hx
      rw [RangeSet.minus_of_apart hxpos (Or.inr (by omega)), List.length_singleton]

/-! ## The calls -/

theorem sliceInclusive_append {α : Type} {xs ys zs : List α} {last : Nat} (hys : ys ≠ [])
    (hlast : last + 1 = xs.length + ys.length) : sliceInclusive (xs ++ (ys ++ zs)) xs.length last = .ok ys := by
  have hpos := List.length_pos_iff.2 hys
  have hlen : (xs ++ (ys ++ zs)).length = xs.length + (ys.length + zs.length) := by
    rw [List.length_append, List.length_append]
  have htake : (xs ++ (ys ++ zs)).take (last + 1) = xs ++ ys := by
    rw [← List.append_assoc, hlast]
    exact List.take_left' List.length_append
  rw [sliceInclusive, if_pos (by omega), htake, List.drop_left]

theorem length_flatMap_one {f : MemoryRange → List MemoryRange} (h : ∀ r ∈ rs, (f r).length = 1) :
    (rs.flatMap f).length = rs.length := by
  induction rs with
  | nil => rfl
  | cons r rs ih =>
      rw [List.flatMap_cons, List.length_append, h r List.mem_cons_self,
        ih fun x hx => h x (List.mem_cons_of_mem _ hx), List.length_cons, Nat.add_comm]

/-- The call for a zone: its own ranges, without the block. -/
def callOf (A : Arch) (zoneIndex metadata : Nat) (block r : MemoryRange) (rs : List MemoryRange) : ZoneCall where
  zoneIndex := zoneIndex
  base := r.base
  size := zoneSize (r :: rs)
  metadata := metadata
  metaSize := metaSizeOf A (r :: rs)
  avail := (r :: rs).flatMap (Range.minus block)

theorem zoneCall_eq {metadata : Nat} {calls : List ZoneCall} {block : MemoryRange} {pre post : List MemoryRange}
    {allocConfig : MemoryConfig} (hinfo : info i = zoneInfo (metaSizeOf A (r :: rs)) i n (r :: rs))
    (htag : r.tag ≠ .invalidZone) (hranges : allocConfig.ranges = pre ++ ((r :: rs).flatMap (Range.minus block) ++ post))
    (hn : pre.length = n) (hone : ∀ x ∈ r :: rs, (Range.minus block x).length = 1)
    (hlt : metadata + metaSizeOf A (r :: rs) < A.wordLimit) (P : Profile) :
    zoneCall P A allocConfig info (metadata, calls) i =
      .ok (metadata + metaSizeOf A (r :: rs), calls ++ [callOf A i metadata block r rs]) := by
  have hlen := length_flatMap_one hone
  have hne : (r :: rs).flatMap (Range.minus block) ≠ [] := by
    intro hnil
    rw [hnil] at hlen
    cases hlen
  have hslice : sliceInclusive allocConfig.getRanges n (n + rs.length) =
      .ok ((r :: rs).flatMap (Range.minus block)) := by
    subst hn
    rw [RangeSet.getRanges, hranges]
    refine sliceInclusive_append hne ?_
    rw [hlen, List.length_cons]
    omega
  simp only [zoneCall, hinfo, zoneInfo, if_neg htag, hslice, run_ok_bind, addWord_of_lt hlt]
  rfl

/-- What `init_allocators` is to pass on, with the metadata in the block at `metaBase`. -/
structure ConsistentCalls (A : Arch) (cfg : KernelConfig) (config : MemoryConfig) (lin high : List MemoryRange)
    (metaBase : Nat) (calls : List ZoneCall) : Prop where
  /-- one call for each zone that has a range -/
  zones : calls.map ZoneCall.zoneIndex =
    if high = [] then [linearMemoryAllocator] else [linearMemoryAllocator, highMemoryAllocator]
  /-- the block is the end of a linear range -/
  block : ∃ r ∈ config.getRanges, r.tag = .linearMemoryZone ∧ r.base < metaBase ∧
    metaBase + metaTotal A lin high = r.stop
  /-- each zone gets its own ranges, without the block -/
  avail : ∀ c ∈ calls, c.avail =
    (config.getRanges.filter fun r => getZoneIndex r.tag = some c.zoneIndex).flatMap
      (Range.minus (metaBlock A lin high metaBase))
  /-- the metadata areas lie in the block -/
  inside : ∀ c ∈ calls, cfg.virtualBase + metaBase ≤ c.metadata ∧
    c.metadata + c.metaSize ≤ cfg.virtualBase + metaBase + metaTotal A lin high
  /-- one behind the other -/
  apart : calls.Pairwise fun c c' => c.metadata + c.metaSize ≤ c'.metadata
  /-- and share no address with a range that any zone gets -/
  unavailable : ∀ c ∈ calls, ∀ c' ∈ calls, ∀ r ∈ c'.avail, ∀ x ∈ r.addrs,
    ¬ (c.metadata ≤ cfg.virtualBase + x ∧ cfg.virtualBase + x < c.metadata + c.metaSize)
  /-- the flags of the allocator fit its area -/
  flags : ∀ c ∈ calls, ∀ mem s,
    Buddy.new A cfg c.base c.size c.metadata (availRanges c.avail) mem = .ok (some s) →
      s.flags.length * A.wordBytes ≤ c.metaSize

theorem zoneSize_dvd (hrs : ∀ x ∈ rs, pageSize ∣ x.base ∧ pageSize ∣ x.size) : pageSize ∣ zoneSize rs := by
  cases rs with
  | nil => exact Nat.dvd_zero _
  | cons r rs =>
      have hlast := hrs _ (List.getLast_mem (List.cons_ne_nil r rs))
      exact Nat.dvd_sub (dvd_add hlast.1 hlast.2) (hrs r List.mem_cons_self).1

theorem callOf_flags {metadata : Nat} {block : MemoryRange}
    (hrs : ∀ x ∈ r :: rs, pageSize ∣ x.base ∧ pageSize ∣ x.size) (mem : Nat → Buddy.BlockNode) (s : Buddy.State)
    (hnew : Buddy.new A cfg (callOf A i metadata block r rs).base (callOf A i metadata block r rs).size
      (callOf A i metadata block r rs).metadata (availRanges (callOf A i metadata block r rs).avail) mem =
        .ok (some s)) :
    s.flags.length * A.wordBytes ≤ (callOf A i metadata block r rs).metaSize := by
  rw [Buddy.new_flags_bytes hnew (hrs r List.mem_cons_self).1 (zoneSize_dvd hrs)]
  exact le_pageAlign _

/-- The ranges of a zone are those with its tag. -/
theorem ZoneConfig.filter (h : ZoneConfig A cfg config lin high) :
    (config.getRanges.filter fun r => getZoneIndex r.tag = some linearMemoryAllocator) = lin ∧
      (config.getRanges.filter fun r => getZoneIndex r.tag = some highMemoryAllocator) = high := by
  have hall : ∀ (rs : List MemoryRange) (p : MemoryRange → Prop) [DecidablePred p], (∀ r ∈ rs, p r) →
      (rs.filter fun r => decide (p r)) = rs :=
    fun rs p _ hp => List.filter_eq_self.2 fun r hr => decide_eq_true (hp r hr)
  have hnone : ∀ (rs : List MemoryRange) (p : MemoryRange → Prop) [DecidablePred p], (∀ r ∈ rs, ¬ p r) →
      (rs.filter fun r => decide (p r)) = [] :=
    fun rs p _ hp => List.filter_eq_nil_iff.2 fun r hr => by simpa using hp r hr
  rw [h.ranges, List.filter_append, List.filter_append]
  constructor
  · rw [hall lin _ fun r hr => by rw [h.linTag r hr]; rfl,
      hnone high _ fun r hr => by rw [h.highTag r hr]; decide, List.append_nil]
  · rw [hnone lin _ fun r hr => by rw [h.linTag r hr]; decide,
      hall high _ fun r hr => by rw [h.highTag r hr]; rfl, List.nil_append]

/-- The calls for the high zone, which may have no range. -/
def highCalls (A : Arch) (metadata : Nat) (block : MemoryRange) : List MemoryRange → List ZoneCall
  | [] => []
  | r :: rs => [callOf A highMemoryAllocator metadata block r rs]

/-- The loop over the zones: linear memory always has a range. -/
theorem zoneCalls_fold {metadata : Nat} {block l : MemoryRange} {ls : List MemoryRange} (allocConfig : MemoryConfig)
    (h : ZoneConfig A cfg config (l :: ls) high)
    (hranges : allocConfig.ranges = (l :: ls ++ high).flatMap (Range.minus block))
    (hone : ∀ x ∈ l :: ls ++ high, (Range.minus block x).length = 1)
    (hlt : metadata + metaTotal A (l :: ls) high < A.wordLimit) (P : Profile) :
    ∃ next, (List.range zoneAllocatorCount).foldlM (zoneCall P A allocConfig (zonesOf A (l :: ls) high))
        (metadata, []) = .ok (next, callOf A linearMemoryAllocator metadata block l ls ::
          highCalls A (metadata + metaSizeOf A (l :: ls)) block high) := by
  -- The loop has two rounds, and the second one does nothing without high memory.
  have hrange : List.range zoneAllocatorCount = [linearMemoryAllocator, highMemoryAllocator] := rfl
  have hsum : metadata + metaSizeOf A (l :: ls) + metaSizeOf A high < A.wordLimit := by
    rw [Nat.add_assoc]
    exact hlt
  have hlin : l.tag ≠ .invalidZone := by
    rw [h.linTag l List.mem_cons_self]
    decide
  have hzones : zonesOf A (l :: ls) high linearMemoryAllocator =
        zoneInfo (metaSizeOf A (l :: ls)) linearMemoryAllocator 0 (l :: ls) ∧
      zonesOf A (l :: ls) high highMemoryAllocator =
        zoneInfo (metaSizeOf A high) highMemoryAllocator (l :: ls).length high := ⟨rfl, rfl⟩
  rw [List.flatMap_append] at hranges
  have hfront : allocConfig.ranges =
      [] ++ ((l :: ls).flatMap (Range.minus block) ++ high.flatMap (Range.minus block)) := hranges
  have hfirst : zoneCall P A allocConfig (zonesOf A (l :: ls) high) (metadata, []) linearMemoryAllocator =
      .ok (metadata + metaSizeOf A (l :: ls), [] ++ [callOf A linearMemoryAllocator metadata block l ls]) :=
    zoneCall_eq hzones.1 hlin hfront rfl (fun x hx => hone x (List.mem_append_left _ hx))
      ((Nat.le_add_right _ _).trans_lt hsum) P
  rw [hrange, List.foldlM_cons, hfirst, run_ok_bind, List.foldlM_cons, List.nil_append]
  cases high with
  | nil => exact ⟨_, rfl⟩
  | cons r rs =>
      have hhigh : r.tag ≠ .invalidZone := by
        rw [h.highTag r List.mem_cons_self]
        decide
      -- The ranges of high memory start behind those of linear memory.
      have hlen := length_flatMap_one fun x hx => hone x (List.mem_append_left _ hx)
      have happend : allocConfig.ranges =
          (l :: ls).flatMap (Range.minus block) ++ ((r :: rs).flatMap (Range.minus block) ++ []) := by
        rw [List.append_nil, hranges]
      have hsecond : zoneCall P A allocConfig (zonesOf A (l :: ls) (r :: rs))
          (metadata + metaSizeOf A (l :: ls), [callOf A linearMemoryAllocator metadata block l ls])
          highMemoryAllocator = .ok (metadata + metaSizeOf A (l :: ls) + metaSizeOf A (r :: rs),
            [callOf A linearMemoryAllocator metadata block l ls] ++
              [callOf A highMemoryAllocator (metadata + metaSizeOf A (l :: ls)) block r rs]) :=
        zoneCall_eq hzones.2 hhigh happend hlen (fun x hx => hone x (List.mem_append_right _ hx)) hsum P
      rw [hsecond, run_ok_bind]
      exact ⟨_, rfl⟩

/-- A range without the block has no address of it. -/
theorem not_mem_block {block x : MemoryRange} {a : Nat} (hx : x ∈ rs.flatMap (Range.minus block)) (ha : a ∈ x.addrs) :
    a ∉ block.addrs := by
  rcases List.mem_flatMap.1 hx with ⟨r, -, hr⟩
  exact (Range.exists_mem_minus.1 ⟨x, hr, ha⟩).2

theorem highCalls_cases {c : ZoneCall} {metadata : Nat} {block : MemoryRange} (hc : c ∈ highCalls A metadata block high) :
    ∃ r rs, high = r :: rs ∧ c = callOf A highMemoryAllocator metadata block r rs := by
  cases high with
  | nil => cases hc
  | cons r rs => exact ⟨r, rs, rfl, List.mem_singleton.1 hc⟩

/-- The calls are consistent once the block is the end of a linear range. -/
theorem consistentCalls {metaBase : Nat} {l x : MemoryRange} {ls : List MemoryRange}
    (h : ZoneConfig A cfg config (l :: ls) high) (hx : x ∈ l :: ls) (hlt : x.base < metaBase)
    (hstop : metaBase + metaTotal A (l :: ls) high = x.stop) :
    ConsistentCalls A cfg config (l :: ls) high metaBase
      (callOf A linearMemoryAllocator (cfg.virtualBase + metaBase) (metaBlock A (l :: ls) high metaBase) l ls ::
        highCalls A (cfg.virtualBase + metaBase + metaSizeOf A (l :: ls)) (metaBlock A (l :: ls) high metaBase)
          high) := by
  have htotal : metaTotal A (l :: ls) high = metaSizeOf A (l :: ls) + metaSizeOf A high := rfl
  -- The metadata of the zones lie one behind the other in the block.
  have hinside : ∀ c ∈ callOf A linearMemoryAllocator (cfg.virtualBase + metaBase)
        (metaBlock A (l :: ls) high metaBase) l ls ::
      highCalls A (cfg.virtualBase + metaBase + metaSizeOf A (l :: ls)) (metaBlock A (l :: ls) high metaBase) high,
      cfg.virtualBase + metaBase ≤ c.metadata ∧
        c.metadata + c.metaSize ≤ cfg.virtualBase + metaBase + metaTotal A (l :: ls) high := by
    intro c hc
    rcases List.mem_cons.1 hc with rfl | hc
    · refine ⟨Nat.le_refl _, ?_⟩
      simp only [callOf]
      omega
    · rcases highCalls_cases hc with ⟨r, rs, rfl, rfl⟩
      refine ⟨Nat.le_add_right _ _, ?_⟩
      simp only [callOf]
      omega
  have havail : ∀ c ∈ callOf A linearMemoryAllocator (cfg.virtualBase + metaBase)
        (metaBlock A (l :: ls) high metaBase) l ls ::
      highCalls A (cfg.virtualBase + metaBase + metaSizeOf A (l :: ls)) (metaBlock A (l :: ls) high metaBase) high,
      c.avail = (config.getRanges.filter fun r => getZoneIndex r.tag = some c.zoneIndex).flatMap
        (Range.minus (metaBlock A (l :: ls) high metaBase)) := by
    intro c hc
    rcases List.mem_cons.1 hc with rfl | hc
    · exact (congrArg (List.flatMap (Range.minus _)) h.filter.1).symm
    · rcases highCalls_cases hc with ⟨r, rs, rfl, rfl⟩
      exact (congrArg (List.flatMap (Range.minus _)) h.filter.2).symm
  constructor
  case zones => cases high <;> rfl
  case block => exact ⟨x, h.mem_lin hx, h.linTag x hx, hlt, hstop⟩
  case avail => exact havail
  case inside => exact hinside
  case apart =>
    refine List.pairwise_cons.2 ⟨?_, ?_⟩
    · intro c hc
      rcases highCalls_cases hc with ⟨r, rs, rfl, rfl⟩
      exact Nat.le_refl _
    · cases high with
      | nil => exact List.Pairwise.nil
      | cons r rs => exact List.pairwise_singleton _ _
  -- The block is cut out of the ranges before they are handed to the allocators.
  case unavailable =>
    intro c hc c' hc' r hr a ha hmem
    rw [havail c' hc'] at hr
    refine not_mem_block hr ha ?_
    have hin := hinside c hc
    change metaBase ≤ a ∧ a < metaBase + metaTotal A (l :: ls) high
    omega
  case flags =>
    intro c hc mem s hnew
    rcases List.mem_cons.1 hc with rfl | hc
    · exact callOf_flags (fun y hy => h.aligned y (h.mem_lin hy)) mem s hnew
    · rcases highCalls_cases hc with ⟨r, rs, rfl, rfl⟩
      exact callOf_flags (fun y hy => h.aligned y (h.mem_high hy)) mem s hnew

/-- Zone set-up is consistent: each zone is handed its own ranges without the block of the metadata, whose areas
are apart, inside the block and long enough. -/
theorem zoneCalls_consistent (h : ZoneConfig A cfg config lin high) (P : Profile) :
    ∃ metaBase calls, zoneCalls P A cfg config = .ok calls ∧
      ConsistentCalls A cfg config lin high metaBase calls := by
  rcases initAllocatorMemoryConfig_eq h P with ⟨x, hx, hlarge, hconfig, hone⟩
  cases lin with
  | nil => cases hx
  | cons l ls =>
      have hmapped := h.mapped x hx
      have hxs : x.stop = x.base + x.size := rfl
      have hranges : config.ranges = l :: ls ++ high := h.ranges
      rw [hranges] at hone hconfig
      have hlt : cfg.virtualBase + (x.stop - metaTotal A (l :: ls) high) + metaTotal A (l :: ls) high <
          A.wordLimit := by omega
      rcases zoneCalls_fold ⟨(l :: ls ++ high).flatMap (Range.minus _)⟩ h rfl hone hlt P with ⟨next, hfold⟩
      refine ⟨x.stop - metaTotal A (l :: ls) high, _, ?_, consistentCalls h hx ?_ ?_⟩
      · simp only [zoneCalls, initZoneInfo_eq h, run_ok_bind, hconfig]
        rw [addWord_of_lt (by omega), run_ok_bind, hfold]
        rfl
      · omega
      · omega

/-- Two linear ranges, of which the first is too small for the metadata, and high memory. -/
theorem zoneCalls_consistent_arm :
    ∃ metaBase calls, zoneCalls .dev .arm ⟨0x80000000, 0x80000000, 2⟩
        ⟨[⟨.linearMemoryZone, 0x1000, 0x1000⟩, ⟨.linearMemoryZone, 0x200000, 0x200000⟩,
          ⟨.highMemoryZone, 0x40000000, 0x100000⟩]⟩ = .ok calls ∧
      ConsistentCalls .arm ⟨0x80000000, 0x80000000, 2⟩
        ⟨[⟨.linearMemoryZone, 0x1000, 0x1000⟩, ⟨.linearMemoryZone, 0x200000, 0x200000⟩,
          ⟨.highMemoryZone, 0x40000000, 0x100000⟩]⟩
        [⟨.linearMemoryZone, 0x1000, 0x1000⟩, ⟨.linearMemoryZone, 0x200000, 0x200000⟩]
        [⟨.highMemoryZone, 0x40000000, 0x100000⟩] metaBase calls := by
  have hfits : ∀ r ∈ ([⟨.linearMemoryZone, 0x1000, 0x1000⟩, ⟨.linearMemoryZone, 0x200000, 0x200000⟩,
      ⟨.highMemoryZone, 0x40000000, 0x100000⟩] : List MemoryRange),
      r.base < Arch.arm.wordLimit ∧ r.base + r.size ≤ Arch.arm.wordLimit := by decide +kernel
  refine zoneCalls_consistent ?_ .dev
  constructor
  case apart =>
    refine ⟨⟨⟨?_, ?_, ?_⟩, fun r hr => ⟨(hfits r hr).1, (hfits r hr).2⟩⟩, ?_⟩
    all_goals simp +decide [RangeSet.Before]
  all_goals decide +kernel

end Mm
end Propeller
