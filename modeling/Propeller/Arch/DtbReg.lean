import Propeller.Arch.DtbMemory
import Propeller.Support.DtbCells

/-!
# Arch.DtbReg — from a `reg` property to the memory configuration

`add_memory_blocks` reads the pairs of a `reg` property, clips each to the address space, and the handler splits the
block at the base of high memory before it is inserted.  None of the steps overflows, and together they keep exactly
the addresses of the pairs that the word can hold.
-/

namespace Propeller

variable {P : Profile} {A : Arch} {R : DtbReader} {loc cells n addrCells sizeCells virtualBase : Nat}
  {pairs : List (Nat × Nat)} {p : Nat × Nat}

/-! ## Clipping and tagging -/

namespace DtbMemory

/-- The part of a pair's block that `add_memory_blocks` passes on, if there is any. -/
def clip (A : Arch) (p : Nat × Nat) : Option (Nat × Nat) :=
  if A.wordLimit - 1 < p.1 ∨ p.2 = 0 then none
  else some (p.1, if p.1 = 0 then min p.2 (A.wordLimit - 1) else min p.2 (A.wordLimit - 1 - p.1 + 1))

/-- The ranges that the pairs are inserted as. -/
def memoryRanges (A : Arch) (virtualBase : Nat) (pairs : List (Nat × Nat)) : List MemoryRange :=
  (pairs.filterMap (clip A)).flatMap (zoneRanges A virtualBase)

/-- The addresses of a pair that a word can hold; the size of a block at zero is a word, too. -/
def pairAddrs (A : Arch) (p : Nat × Nat) : Set Nat :=
  Set.Ico p.1 (p.1 + if p.1 = 0 then min p.2 (A.wordLimit - 1) else p.2) ∩ Set.Iio A.wordLimit

theorem clip_valid {b : Nat × Nat} (h : clip A p = some b) : ValidBlock A b := by
  rw [clip] at h
  split at h
  next => cases h
  next hnot =>
    rw [not_or] at hnot
    cases h
    exact validBlock_clip hnot.1 hnot.2

/-- The block that is passed on has the addresses of the pair. -/
theorem mem_clip (A : Arch) (p : Nat × Nat) (x : Nat) :
    (∃ b, clip A p = some b ∧ b.1 ≤ x ∧ x < b.1 + b.2) ↔ 0 < p.2 ∧ x ∈ pairAddrs A p := by
  have hlimit := two_pow_le_wordLimit A
  rw [clip, pairAddrs, Set.mem_inter_iff, Set.mem_Ico, Set.mem_Iio]
  split
  next hskip =>
    refine iff_of_false (fun ⟨b, hb, _⟩ => nomatch hb) ?_
    rintro ⟨hpos, ⟨hlo, -⟩, hlt⟩
    omega
  next hkeep =>
    simp only [Option.some.injEq, exists_eq_left']
    split
    · omega
    · omega

/-- Splitting at the base of high memory keeps the addresses. -/
theorem mem_zoneRanges {b : Nat × Nat} (virtualBase x : Nat) :
    (∃ r ∈ zoneRanges A virtualBase b, x ∈ r.addrs) ↔ b.1 ≤ x ∧ x < b.1 + b.2 := by
  have hone : ∀ r : MemoryRange, (∃ r' ∈ [r], x ∈ r'.addrs) ↔ r.base ≤ x ∧ x < r.base + r.size := by
    intro r
    constructor
    · rintro ⟨r', hr', hx⟩
      obtain rfl := List.mem_singleton.mp hr'
      exact hx
    · intro hx
      exact ⟨r, List.mem_singleton_self r, hx⟩
  cases A with
  | aarch64 => exact hone _
  | arm =>
      simp only [zoneRanges]
      split
      next => exact hone _
      next =>
        split
        next => exact hone _
        next =>
          -- The block is cut at the high memory base, and the two parts meet there.
          simp only [List.exists_mem_cons_iff, Range.mem_addrs, List.not_mem_nil, false_and, exists_false, or_false]
          omega

theorem mem_memoryRanges (virtualBase : Nat) (pairs : List (Nat × Nat)) (x : Nat) :
    (∃ r ∈ memoryRanges A virtualBase pairs, x ∈ r.addrs) ↔ ∃ p ∈ pairs, 0 < p.2 ∧ x ∈ pairAddrs A p := by
  constructor
  · rintro ⟨r, hr, hx⟩
    rcases List.mem_flatMap.mp hr with ⟨b, hb, hr⟩
    rcases List.mem_filterMap.mp hb with ⟨p, hp, hclip⟩
    exact ⟨p, hp, (mem_clip A p x).mp ⟨b, hclip, (mem_zoneRanges virtualBase x).mp ⟨r, hr, hx⟩⟩⟩
  · rintro ⟨p, hp, hx⟩
    rcases (mem_clip A p x).mpr hx with ⟨b, hclip, hb⟩
    rcases (mem_zoneRanges virtualBase x).mpr hb with ⟨r, hr, hx⟩
    exact ⟨r, List.mem_flatMap.mpr ⟨b, List.mem_filterMap.mpr ⟨p, hp, hclip⟩, hr⟩, hx⟩

/-- Linear memory ends below the base of high memory, and high memory starts there. -/
def Tagged (high : Nat) (r : MemoryRange) : Prop :=
  (r.tag = .linearMemoryZone ∧ r.base + r.size ≤ high) ∨ (r.tag = .highMemoryZone ∧ high ≤ r.base)

theorem zoneRanges_tagged {b : Nat × Nat} {r : MemoryRange} (hr : r ∈ zoneRanges .arm virtualBase b) :
    Tagged (Arm.getHighMemBase virtualBase) r := by
  simp only [zoneRanges] at hr
  split at hr
  next hhigh =>
    obtain rfl := List.mem_singleton.mp hr
    exact Or.inr ⟨rfl, hhigh⟩
  next =>
    split at hr
    next hlow =>
      obtain rfl := List.mem_singleton.mp hr
      exact Or.inl ⟨rfl, hlow⟩
    next =>
      rcases List.mem_pair.mp hr with rfl | rfl
      · exact Or.inl ⟨rfl, by simp only; omega⟩
      · exact Or.inr ⟨rfl, Nat.le_refl _⟩

theorem memoryRanges_valid {r : MemoryRange} (hr : r ∈ memoryRanges A virtualBase pairs) :
    r.Fits A ∧ 0 < r.size ∧ r.size < A.wordLimit := by
  rcases List.mem_flatMap.mp hr with ⟨b, hb, hr⟩
  rcases List.mem_filterMap.mp hb with ⟨p, -, hclip⟩
  exact zoneRanges_valid (clip_valid hclip) hr

/-! ## The whole property -/

/-- The cell counts that the device tree specification has for memory, and pairs that fit them. -/
structure RegPairs (addrCells sizeCells : Nat) (pairs : List (Nat × Nat)) : Prop where
  addr : addrCells = 1 ∨ addrCells = 2
  size : sizeCells = 1 ∨ sizeCells = 2
  fits : ∀ p ∈ pairs, p.1 < 2 ^ (32 * addrCells) ∧ p.2 < 2 ^ (32 * sizeCells)

theorem lt_two_pow_64 (hcells : cells = 1 ∨ cells = 2) (hn : n < 2 ^ (32 * cells)) : n < 2 ^ 64 := by
  rcases hcells with rfl | rfl
  · omega
  · exact hn

/-- One round of the loop: the block of the pair, if there is any, is inserted. -/
theorem addBlocks_cons (hR : R.Sound) (hpairs : RegPairs addrCells sizeCells (p :: pairs))
    (h : R.Holds loc (regValue addrCells sizeCells [p])) (count : Nat) (config : MemoryConfig) :
    addBlocks P A virtualBase R addrCells sizeCells (count + 1) loc config =
      addBlocks P A virtualBase R addrCells sizeCells count (loc + 4 * (addrCells + sizeCells))
        (RangeSet.insertAll A (memoryRanges A virtualBase [p]) config) := by
  rcases hpairs.fits p List.mem_cons_self with ⟨haddr, hsize⟩
  have h0 : addrCells ≠ 0 := by
    have hcells := hpairs.addr
    omega
  have h64 := And.intro (lt_two_pow_64 hpairs.addr haddr) (lt_two_pow_64 hpairs.size hsize)
  rw [addBlocks, DtbReader.getRegPair_eq hR h h0 haddr hsize h64, scan_ok_bind]
  simp only [memoryRanges, List.filterMap_cons, List.filterMap_nil, clip]
  by_cases hbase : A.wordLimit - 1 < p.1
  · rw [if_pos hbase, if_pos (Or.inl hbase)]
    rfl
  · by_cases hzero : p.2 = 0
    · rw [if_neg hbase, if_pos hzero, if_pos (Or.inr hzero)]
      rfl
    · rw [if_neg hbase, if_neg hzero, if_neg (not_or.mpr ⟨hbase, hzero⟩),
        handleRange_eq (validBlock_clip hbase hzero), checked_ok, scan_ok_bind]
      simp only [List.flatMap_cons, List.flatMap_nil, List.append_nil]

theorem addBlocks_eq (hR : R.Sound) (hpairs : RegPairs addrCells sizeCells pairs)
    (h : R.Holds loc (regValue addrCells sizeCells pairs)) (config : MemoryConfig) :
    addBlocks P A virtualBase R addrCells sizeCells pairs.length loc config =
      .ok (none, RangeSet.insertAll A (memoryRanges A virtualBase pairs) config) := by
  induction pairs generalizing loc config with
  | nil => rfl
  | cons p pairs ih =>
      have hfirst : regValue addrCells sizeCells (p :: pairs) =
          regValue addrCells sizeCells [p] ++ regValue addrCells sizeCells pairs := by
        rw [regValue, List.flatMap_cons, regValue, List.flatMap_singleton, regValue]
      have hranges : memoryRanges A virtualBase (p :: pairs) =
          memoryRanges A virtualBase [p] ++ memoryRanges A virtualBase pairs := by
        rw [memoryRanges, ← List.singleton_append, List.filterMap_append, List.flatMap_append]
        rfl
      rw [hfirst] at h
      rcases h.append with ⟨hp, hrest⟩
      rw [regValue_length, List.length_singleton, Nat.mul_one] at hrest
      have hpairs' : RegPairs addrCells sizeCells pairs :=
        ⟨hpairs.addr, hpairs.size, fun q hq => hpairs.fits q (List.mem_cons_of_mem p hq)⟩
      rw [List.length_cons, addBlocks_cons hR hpairs hp, ih hpairs' hrest, hranges, RangeSet.insertAll,
        RangeSet.insertAll, RangeSet.insertAll, List.foldl_append]

/-- A property with pairs is read to its end; one without is rejected, and nothing is inserted. -/
theorem addMemoryBlocks_eq (hR : R.Sound) (hpairs : RegPairs addrCells sizeCells pairs)
    (h : R.Holds loc (regValue addrCells sizeCells pairs)) (config : MemoryConfig) :
    addMemoryBlocks P A virtualBase R (regValue addrCells sizeCells pairs).length addrCells sizeCells loc config =
      .ok (if pairs = [] then some .invalidDtb else none,
        RangeSet.insertAll A (memoryRanges A virtualBase pairs) config) := by
  have hlimit := two_pow_le_wordLimit A
  have ha := hpairs.addr
  have hs := hpairs.size
  rw [addMemoryBlocks, DtbReader.getRegPairSize_eq (by omega), scan_ok_bind, regValue_length]
  cases pairs with
  | nil =>
      rw [List.length_nil, Nat.mul_zero, if_pos (Or.inr (Or.inl rfl)), if_pos rfl]
      rfl
  | cons p pairs =>
      have hpos : 0 < 4 * (addrCells + sizeCells) := by omega
      have hle : 4 * (addrCells + sizeCells) ≤ 4 * (addrCells + sizeCells) * (pairs.length + 1) :=
        Nat.le_mul_of_pos_right _ (Nat.succ_pos pairs.length)
      rw [List.length_cons, if_neg, if_neg (List.cons_ne_nil p pairs), Nat.mul_div_cancel_left _ hpos]
      · exact addBlocks_eq hR hpairs h config
      · -- None of the four tests of the length fails on a whole number of pairs.
        rintro (hzero | hzero | hlt | hmod)
        · omega
        · omega
        · omega
        · exact hmod (Nat.mul_mod_right _ _)

/-- Whatever the pairs, `add_memory_blocks` returns.  With room in the configuration it adds ranges with exactly the
addresses of the pairs that a word can hold, and on ARM they are tagged by their side of the base of high memory. -/
theorem addMemoryBlocks_exact (P : Profile) (A : Arch) (virtualBase : Nat) (R : DtbReader) (hR : R.Sound)
    (addrCells sizeCells loc : Nat) (pairs : List (Nat × Nat)) (hpairs : RegPairs addrCells sizeCells pairs)
    (h : R.Holds loc (regValue addrCells sizeCells pairs)) (config : MemoryConfig) :
    (∃ e config', addMemoryBlocks P A virtualBase R (regValue addrCells sizeCells pairs).length addrCells sizeCells loc
        config = .ok (e, config') ∧ (e = none ↔ pairs ≠ []) ∧
      (config.count + (memoryRanges A virtualBase pairs).length ≤ maxMemRanges →
        config'.getRanges.Perm (config.getRanges ++ memoryRanges A virtualBase pairs))) ∧
    (∀ x, (∃ r ∈ memoryRanges A virtualBase pairs, x ∈ r.addrs) ↔ ∃ p ∈ pairs, 0 < p.2 ∧ x ∈ pairAddrs A p) ∧
    (A = .arm → ∀ r ∈ memoryRanges A virtualBase pairs, Tagged (Arm.getHighMemBase virtualBase) r) := by
  refine ⟨⟨_, _, addMemoryBlocks_eq hR hpairs h config, ?_, fun hroom => ?_⟩, mem_memoryRanges virtualBase pairs, ?_⟩
  · split
    next hnil => simp [hnil]
    next hcons => simp [hcons]
  · have hvalid : ∀ r ∈ memoryRanges A virtualBase pairs, r.Fits A ∧ 0 < r.size ∧ r.size < A.wordLimit :=
      fun r hr => memoryRanges_valid hr
    have hperm := RangeSet.insertAll_perm hvalid config
    rw [List.take_of_length_le (by omega)] at hperm
    exact hperm
  · rintro rfl r hr
    rcases List.mem_flatMap.mp hr with ⟨b, -, hr⟩
    exact zoneRanges_tagged hr

/-- Three pairs on ARM: one on both sides of the base of high memory, one that reaches beyond the address space, and
one behind it. -/
theorem addMemoryBlocks_exact_three :
    ∃ config', addMemoryBlocks .dev .arm 0xc0000000
        ⟨List.replicate 32 0 ++ regValue 2 1 [(0x30000000, 0x10000000), (0xf0000000, 0xffffffff), (0x100000000, 1)],
          0, 0, 0, 0, 0, 0, 0, 0⟩ 36 2 1 32 RangeSet.new = .ok (none, config') ∧
      config'.getRanges.Perm [⟨.linearMemoryZone, 0x30000000, 0x8000000⟩, ⟨.highMemoryZone, 0x38000000, 0x8000000⟩,
        ⟨.highMemoryZone, 0xf0000000, 0x10000000⟩] := by
  rcases addMemoryBlocks_exact .dev .arm 0xc0000000
      ⟨List.replicate 32 0 ++ regValue 2 1 [(0x30000000, 0x10000000), (0xf0000000, 0xffffffff), (0x100000000, 1)],
        0, 0, 0, 0, 0, 0, 0, 0⟩ ⟨by decide, by decide, by decide⟩ 2 1 32
      [(0x30000000, 0x10000000), (0xf0000000, 0xffffffff), (0x100000000, 1)]
      ⟨Or.inr rfl, Or.inl rfl, by decide⟩ (by rw [DtbReader.Holds]; decide +kernel) RangeSet.new with
    ⟨⟨e, config', hrun, he, hperm⟩, -, -⟩
  obtain rfl := he.mpr (List.cons_ne_nil _ _)
  exact ⟨config', hrun, hperm (by decide)⟩

end DtbMemory
end Propeller
