import Propeller.Support.DtbTree

/-!
# Support.DtbCells — numbers of one or two cells

The cells of a number are big-endian words.  `get_reg_pair` shifts the cells together by the bits of a word, so it
reads back what has been written.  `get_range` shifts by the bytes of a word instead, four bits, so it does so for
numbers that need one cell only.
-/

namespace Propeller

/-- The cells of a number, the most significant one first. -/
def cellWords : Nat → Nat → List Nat
  | 0, _ => []
  | cells + 1, n => n / 2 ^ (32 * cells) % 2 ^ 32 :: cellWords cells n

/-- The value of a `reg` property. -/
def regValue (addrCells sizeCells : Nat) (pairs : List (Nat × Nat)) : List UInt8 :=
  pairs.flatMap fun p => ofWords (cellWords addrCells p.1) ++ ofWords (cellWords sizeCells p.2)

variable {P : Profile} {A : Arch} {R : DtbReader} {loc cells n addrCells sizeCells : Nat}
  {pairs : List (Nat × Nat)} {p : Nat × Nat}

theorem ofWords_length (words : List Nat) : (ofWords words).length = 4 * words.length := by
  induction words with
  | nil => rfl
  | cons w words ih =>
      rw [ofWords] at ih
      rw [ofWords, List.flatMap_cons, List.length_append, ih, toBeBytes_length, List.length_cons]
      omega

theorem cellWords_length (cells n : Nat) : (cellWords cells n).length = cells := by
  induction cells with
  | zero => rfl
  | succ cells ih => rw [cellWords, List.length_cons, ih]

theorem regValue_length (addrCells sizeCells : Nat) (pairs : List (Nat × Nat)) :
    (regValue addrCells sizeCells pairs).length = 4 * (addrCells + sizeCells) * pairs.length := by
  induction pairs with
  | nil => rfl
  | cons p pairs ih =>
      rw [regValue] at ih
      rw [regValue, List.flatMap_cons, List.length_append, List.length_append, ih, ofWords_length, ofWords_length,
        cellWords_length, cellWords_length, List.length_cons, Nat.mul_succ]
      omega

/-! ## Address and size pairs -/

namespace DtbReader

/-- Shifting in the next cell of a number that fits in 64 bits. -/
theorem shift_cell (hn : n < 2 ^ 64) (cells : Nat) :
    (n / 2 ^ (32 * (cells + 1))) <<< fdtWordBits % 2 ^ 64 ||| n / 2 ^ (32 * cells) % 2 ^ 32 = n / 2 ^ (32 * cells) := by
  have hpow : 2 ^ (32 * (cells + 1)) = 2 ^ (32 * cells) * 2 ^ 32 := by
    rw [Nat.mul_succ, Nat.pow_add]
  have hle := Nat.div_le_self n (2 ^ (32 * cells))
  rw [shift_or_cell (Nat.mod_lt _ (Nat.two_pow_pos 32)), hpow, ← Nat.div_div_eq_div_mul]
  omega

theorem readCells_eq (hR : R.Sound) (h : R.Holds loc (ofWords (cellWords cells n))) (hn : n < 2 ^ 64) :
    R.readCells P A cells (n / 2 ^ (32 * cells)) loc = .ok (n, loc + 4 * cells) := by
  induction cells generalizing loc with
  | zero =>
      rw [readCells, Nat.mul_zero, Nat.pow_zero, Nat.div_one]
      rfl
  | succ cells ih =>
      rw [cellWords, ofWords, List.flatMap_cons] at h
      rcases h.append with ⟨hword, hrest⟩
      rw [toBeBytes_length] at hrest
      rcases hword.word (Nat.mod_lt _ (Nat.two_pow_pos 32)) with ⟨hle, hw⟩
      rw [readCells, getU32Unchecked_eq hR hle, scan_ok_bind]
      simp only [hw, shift_cell hn]
      rw [ih hrest]
      congr 2
      omega

/-- A pair that stands in the blob is read. -/
theorem getRegPair_eq (hR : R.Sound) (h : R.Holds loc (regValue addrCells sizeCells [p])) (h0 : addrCells ≠ 0)
    (haddr : p.1 < 2 ^ (32 * addrCells)) (hsize : p.2 < 2 ^ (32 * sizeCells)) (h64 : p.1 < 2 ^ 64 ∧ p.2 < 2 ^ 64) :
    R.getRegPair P A addrCells sizeCells loc = .ok (some (p, loc + 4 * (addrCells + sizeCells))) := by
  have hlen := hR.lengths A
  have hbytes := regValue_length addrCells sizeCells [p]
  rw [List.length_singleton, Nat.mul_one] at hbytes
  have hne : regValue addrCells sizeCells [p] ≠ [] := by
    intro hnil
    rw [hnil, List.length_nil] at hbytes
    omega
  have hle := h.le hne
  rw [hbytes] at hle
  rw [regValue, List.flatMap_singleton] at h
  -- The size stands behind the address.
  rcases h.append with ⟨hbase, hrest⟩
  rw [ofWords_length, cellWords_length] at hrest
  have hread := readCells_eq (P := P) (A := A) hR hbase h64.1
  have hread' := readCells_eq (P := P) (A := A) hR hrest h64.2
  -- No cell is cut off, since the values fit.
  rw [Nat.div_eq_of_lt haddr] at hread
  rw [Nat.div_eq_of_lt hsize] at hread'
  rw [getRegPair, if_neg h0, getRegPairSize_eq (by omega), scan_ok_bind, subWord_of_le (by omega) (by omega),
    checked_ok, scan_ok_bind, if_neg (by omega), hread, scan_ok_bind]
  simp only [hread', scan_ok_bind]
  rw [Nat.mul_add, ← Nat.add_assoc]
  rfl

/-! ## Ranges -/

def getRangeSize (P : Profile) (A : Arch) (childAddrCells parentAddrCells sizeCells : Nat) : Scan Nat := do
  let cells ← checked (addWord P A childAddrCells parentAddrCells)
  let cells ← checked (addWord P A cells sizeCells)
  checked (mulWord P A fdtWordBytes cells)

/-- A loop of `get_range`, with the value so far; the shift is by `FDT_WORD_BYTES`. -/
def readRangeCells (P : Profile) (A : Arch) (R : DtbReader) : Nat → Nat → Nat → Scan (Nat × Nat)
  | 0, value, loc => return (value, loc)
  | cells + 1, value, loc => do
      let (word, loc) ← R.getU32Unchecked P A loc
      readRangeCells P A R cells (value <<< fdtWordBytes % 2 ^ 64 ||| word) loc

def getRange (P : Profile) (A : Arch) (R : DtbReader) (childAddrCells parentAddrCells sizeCells loc : Nat) :
    Scan (Option ((Nat × Nat × Nat) × Nat)) := do
  if childAddrCells = 0 ∨ parentAddrCells = 0 ∨ sizeCells = 0 then return none
  else do
    let count ← getRangeSize P A childAddrCells parentAddrCells sizeCells
    let last ← checked (subWord P A R.dtb.length count)
    if last < loc then return none
    else do
      let (childAddr, loc) ← R.readRangeCells P A childAddrCells 0 loc
      let (parentAddr, loc) ← R.readRangeCells P A parentAddrCells 0 loc
      let (size, loc) ← R.readRangeCells P A sizeCells 0 loc
      return some ((childAddr, parentAddr, size), loc)

/-- What `get_range` makes of the cells of a number. -/
def rangeNumber (cells n : Nat) : Nat :=
  (cellWords cells n).foldl (fun value word => value <<< fdtWordBytes % 2 ^ 64 ||| word) 0

/-- The value of a `ranges` property with one entry. -/
def rangeValue (childAddrCells parentAddrCells sizeCells : Nat) (entry : Nat × Nat × Nat) : List UInt8 :=
  ofWords (cellWords childAddrCells entry.1) ++
    (ofWords (cellWords parentAddrCells entry.2.1) ++ ofWords (cellWords sizeCells entry.2.2))

/-- The number fits into one or two cells. -/
structure FitsCells (cells n : Nat) : Prop where
  count : cells = 1 ∨ cells = 2
  lt : n < 2 ^ (32 * cells)

variable {childAddrCells parentAddrCells : Nat} {entry : Nat × Nat × Nat}

theorem FitsCells.lt_two_pow (h : FitsCells cells n) : n < 2 ^ 64 := by
  have hlt := h.lt
  rcases h.count with rfl | rfl
  · exact hlt.trans (by decide)
  · exact hlt

theorem readRangeCells_eq (hR : R.Sound) (h : R.Holds loc (ofWords (cellWords cells n))) (value : Nat) :
    R.readRangeCells P A cells value loc =
      .ok ((cellWords cells n).foldl (fun value word => value <<< fdtWordBytes % 2 ^ 64 ||| word) value,
        loc + 4 * cells) := by
  induction cells generalizing loc value with
  | zero => rfl
  | succ cells ih =>
      rw [cellWords, ofWords, List.flatMap_cons] at h
      rcases h.append with ⟨hword, hrest⟩
      rw [toBeBytes_length] at hrest
      rcases hword.word (Nat.mod_lt _ (Nat.two_pow_pos 32)) with ⟨hle, hw⟩
      rw [readRangeCells, getU32Unchecked_eq hR hle, scan_ok_bind]
      simp only [hw]
      rw [ih hrest, cellWords, List.foldl_cons]
      congr 2
      omega

/-- Two cells that are shifted together by four bits only. -/
theorem rangeNumber_two (hn : n < 2 ^ 64) : rangeNumber 2 n = (n / 2 ^ 32) <<< 4 ||| n % 2 ^ 32 := by
  have hhigh : n / 2 ^ 32 % 2 ^ 32 = n / 2 ^ 32 := Nat.mod_eq_of_lt (by omega)
  have hshift : (n / 2 ^ 32) <<< 4 % 2 ^ 64 = (n / 2 ^ 32) <<< 4 := by
    rw [Nat.shiftLeft_eq]
    omega
  simp only [rangeNumber, cellWords, List.foldl_cons, List.foldl_nil, Nat.zero_shiftLeft, Nat.zero_mod, Nat.zero_or,
    Nat.mul_one, Nat.mul_zero, Nat.pow_zero, Nat.div_one, fdtWordBytes, hhigh, hshift]

theorem rangeNumber_eq_iff (h : FitsCells cells n) : rangeNumber cells n = n ↔ n < 2 ^ 32 := by
  have hlt := h.lt
  rcases h.count with rfl | rfl
  · refine iff_of_true ?_ hlt
    simp only [rangeNumber, cellWords, List.foldl_cons, List.foldl_nil, Nat.zero_shiftLeft, Nat.zero_mod, Nat.zero_or,
      Nat.mul_zero, Nat.pow_zero, Nat.div_one]
    exact Nat.mod_eq_of_lt hlt
  · rw [rangeNumber_two hlt]
    constructor
    · intro heq
      -- Above the low cell there are the top four bits of the upper one, and not all of it.
      have hupper := congrArg (· / 2 ^ 32) heq
      simp only [Nat.or_div_two_pow, Nat.shiftLeft_eq] at hupper
      rw [Nat.div_eq_of_lt (Nat.mod_lt n (Nat.two_pow_pos 32)), Nat.or_zero] at hupper
      omega
    · intro hsmall
      rw [Nat.div_eq_of_lt hsmall, Nat.zero_shiftLeft, Nat.zero_or, Nat.mod_eq_of_lt hsmall]

theorem getRangeSize_eq (h : 4 * (childAddrCells + parentAddrCells + sizeCells) < A.wordLimit) :
    getRangeSize P A childAddrCells parentAddrCells sizeCells =
      .ok (4 * (childAddrCells + parentAddrCells + sizeCells)) := by
  rw [getRangeSize, addWord_of_lt (by omega), checked_ok, scan_ok_bind, addWord_of_lt (by omega), checked_ok,
    scan_ok_bind, fdtWordBytes, mulWord_of_lt h]
  rfl

theorem rangeValue_length (childAddrCells parentAddrCells sizeCells : Nat) (entry : Nat × Nat × Nat) :
    (rangeValue childAddrCells parentAddrCells sizeCells entry).length =
      4 * (childAddrCells + parentAddrCells + sizeCells) := by
  simp only [rangeValue, List.length_append, ofWords_length, cellWords_length]
  omega

/-- The entry that stands in the blob is read, cell by cell. -/
theorem getRange_eq (hR : R.Sound) (h : R.Holds loc (rangeValue childAddrCells parentAddrCells sizeCells entry))
    (h0 : ¬ (childAddrCells = 0 ∨ parentAddrCells = 0 ∨ sizeCells = 0)) :
    R.getRange P A childAddrCells parentAddrCells sizeCells loc =
      .ok (some ((rangeNumber childAddrCells entry.1, rangeNumber parentAddrCells entry.2.1,
        rangeNumber sizeCells entry.2.2), loc + 4 * (childAddrCells + parentAddrCells + sizeCells))) := by
  have hlen := hR.lengths A
  have hbytes := rangeValue_length childAddrCells parentAddrCells sizeCells entry
  have hne : rangeValue childAddrCells parentAddrCells sizeCells entry ≠ [] := by
    intro hnil
    rw [hnil, List.length_nil] at hbytes
    omega
  have hle := h.le hne
  rw [hbytes] at hle
  rw [rangeValue] at h
  -- The three fields stand behind each other.
  rcases h.append with ⟨hchild, hrest⟩
  rcases hrest.append with ⟨hparent, hsize⟩
  simp only [ofWords_length, cellWords_length] at hparent hsize
  have hread := readRangeCells_eq (P := P) (A := A) hR hchild 0
  have hread' := readRangeCells_eq (P := P) (A := A) hR hparent 0
  have hread'' := readRangeCells_eq (P := P) (A := A) hR hsize 0
  rw [getRange, if_neg h0, getRangeSize_eq (by omega), scan_ok_bind, subWord_of_le (by omega) (by omega), checked_ok,
    scan_ok_bind, if_neg (by omega), hread, scan_ok_bind]
  simp only [hread', scan_ok_bind, hread'']
  rw [show loc + 4 * (childAddrCells + parentAddrCells + sizeCells) =
    loc + 4 * childAddrCells + 4 * parentAddrCells + 4 * sizeCells by omega]
  rfl

/-- `get_range` returns the entry that stands at the cursor exactly if all three numbers of it are below `2 ^ 32`;
`get_reg_pair` returns every pair. -/
theorem getRange_inverts_iff {loc' addrCells sizeCells' : Nat} {pair : Nat × Nat} (P : Profile) (A : Arch) (hR : R.Sound)
    (hchild : FitsCells childAddrCells entry.1) (hparent : FitsCells parentAddrCells entry.2.1)
    (hsize : FitsCells sizeCells entry.2.2)
    (hentry : R.Holds loc (rangeValue childAddrCells parentAddrCells sizeCells entry))
    (haddr : FitsCells addrCells pair.1) (hsize' : FitsCells sizeCells' pair.2)
    (hpair : R.Holds loc' (regValue addrCells sizeCells' [pair])) :
    ((∃ size, getRangeSize P A childAddrCells parentAddrCells sizeCells = .ok size ∧
        R.getRange P A childAddrCells parentAddrCells sizeCells loc = .ok (some (entry, loc + size))) ↔
      entry.1 < 2 ^ 32 ∧ entry.2.1 < 2 ^ 32 ∧ entry.2.2 < 2 ^ 32) ∧
    ∃ size, getRegPairSize P A addrCells sizeCells' = .ok size ∧
      R.getRegPair P A addrCells sizeCells' loc' = .ok (some (pair, loc' + size)) := by
  have hlimit := two_pow_le_wordLimit A
  have hchild' := hchild.count
  have hparent' := hparent.count
  have hsizes := hsize.count
  have hpairs := haddr.count
  have hpairs' := hsize'.count
  have hcells : getRangeSize P A childAddrCells parentAddrCells sizeCells =
      .ok (4 * (childAddrCells + parentAddrCells + sizeCells)) := getRangeSize_eq (by omega)
  -- `get_range` reads another number where an upper cell is not zero, `get_reg_pair` never does.
  refine ⟨?_, 4 * (addrCells + sizeCells'), getRegPairSize_eq (by omega), ?_⟩
  · rw [← rangeNumber_eq_iff hchild, ← rangeNumber_eq_iff hparent, ← rangeNumber_eq_iff hsize, hcells,
      getRange_eq hR hentry (by omega)]
    constructor
    · rintro ⟨size, -, hread⟩
      have hvalue := congrArg Prod.fst (Option.some.inj (Except.ok.inj hread))
      rcases entry with ⟨child, parent, length⟩
      simp only [Prod.mk.injEq] at hvalue
      exact hvalue
    · rintro ⟨h1, h2, h3⟩
      exact ⟨_, rfl, by rw [h1, h2, h3]⟩
  · exact getRegPair_eq hR hpair (by omega) haddr.lt hsize'.lt ⟨haddr.lt_two_pow, hsize'.lt_two_pow⟩

/-- A blob with an entry of a `ranges` property at 40 and a pair of a `reg` property at 64. -/
def cellsBlob (entry : Nat × Nat × Nat) (pair : Nat × Nat) : List UInt8 :=
  ofWords [fdtMagic, 80, 40, 76, 0, 17, 16, 0, 4, 36] ++ (rangeValue 2 2 2 entry ++ (regValue 2 2 [pair]))

theorem getRange_inverts_low :
    let R : DtbReader := ⟨cellsBlob (0x7e000000, 0xfe000000, 0x1800000) (0x100000000, 0x40000000), 40, 76, 0, 17, 16, 0, 4, 36⟩
    ((∃ size, getRangeSize .dev .aarch64 2 2 2 = .ok size ∧
        R.getRange .dev .aarch64 2 2 2 40 = .ok (some ((0x7e000000, 0xfe000000, 0x1800000), 40 + size))) ↔
      0x7e000000 < 2 ^ 32 ∧ 0xfe000000 < 2 ^ 32 ∧ 0x1800000 < 2 ^ 32) ∧
    ∃ size, getRegPairSize .dev .aarch64 2 2 = .ok size ∧
      R.getRegPair .dev .aarch64 2 2 64 = .ok (some ((0x100000000, 0x40000000), 64 + size)) := by
  intro R
  have hR : R.Sound := ⟨by decide, by decide, by decide⟩
  exact getRange_inverts_iff .dev .aarch64 hR ⟨Or.inr rfl, by decide⟩ ⟨Or.inr rfl, by decide⟩ ⟨Or.inr rfl, by decide⟩
    (by decide +kernel : _ <+: _) ⟨Or.inr rfl, by decide⟩ ⟨Or.inr rfl, by decide⟩ (by decide +kernel : _ <+: _)

/-- A window above four gigabytes is read as one at the start of the address space. -/
theorem getRange_loses_upper_cell :
    let entry := (0x600000000, 0x600000000, 0x40000000)
    let R : DtbReader := ⟨cellsBlob entry (0, 0), 40, 76, 0, 17, 16, 0, 4, 36⟩
    R.Sound ∧ R.Holds 40 (rangeValue 2 2 2 entry) ∧
      R.getRange .dev .aarch64 2 2 2 40 = .ok (some ((0x60, 0x60, 0x40000000), 64)) ∧
      ¬ ∃ loc, R.getRange .dev .aarch64 2 2 2 40 = .ok (some (entry, loc)) := by
  intro entry R
  have hread : R.getRange .dev .aarch64 2 2 2 40 = .ok (some ((0x60, 0x60, 0x40000000), 64)) := by decide +kernel
  refine ⟨⟨by decide, by decide, by decide⟩, (by decide +kernel : _ <+: _), hread, ?_⟩
  rintro ⟨loc, hexact⟩
  rw [hread] at hexact
  have hvalue : ((0x60, 0x60, 0x40000000) : Nat × Nat × Nat) = entry :=
    congrArg Prod.fst (Option.some.inj (Except.ok.inj hexact))
  exact absurd hvalue (by decide)

end DtbReader

end Propeller
