import Propeller.Lib.PageTable
import Propeller.Support.Bits
import Propeller.Support.Range

/-!
# Arch.Paging — filling page tables

Both architectures fill their tables with the same two loops; they differ in the levels, the descriptors
and the alignment that the compact loop tests.  `Format` has what differs, and the loops are written once
over it.

A table is addressed by its physical address: all tables are in linear memory, where the code reaches them
at `virtual_base + table_addr`.  The allocator is a supply of pages, some of which it may fail to give.
-/

namespace Propeller

namespace Paging

/-- The table levels and the descriptors of an architecture. -/
structure Format (L D : Type) where
  /-- `get_table_entry_size` -/
  getTableEntrySize : L → Nat
  /-- the size the compact loop tests the virtual address against -/
  blockAlignment : L → Nat
  /-- `get_next_table` -/
  getNextTable : L → Option L
  /-- the level whose entries are pages -/
  isLastLevel : L → Bool
  /-- `get_descriptor_index` -/
  getDescriptorIndex : Nat → L → Nat
  /-- `make_descriptor` -/
  makeDescriptor : L → Nat → Bool → Option D
  /-- `is_pointer_entry` -/
  isPointerEntry : L → D → Bool
  /-- `make_pointer_entry` -/
  makePointerEntry : L → Nat → Option D
  /-- `get_phys_addr_from_descriptor` -/
  getPhysAddrFromDescriptor : L → D → Option Nat
  /-- an entry of a table that is filled with zero bytes -/
  zero : D

/-- The tables and the allocator that provides new ones. -/
structure TableState (D : Type) where
  mem : Tables D
  supply : Nat → Option Nat
  used : Nat

namespace TableState

variable {D : Type}

/-- `allocator.alloc(1).unwrap()`. -/
def alloc (st : TableState D) : Run (Nat × TableState D) :=
  match st.supply st.used with
  | some page => .ok (page, { st with used := st.used + 1 })
  | none => .error .noTablePage

/-- `ptr::write_bytes(.., 0, TABLE_SIZE)`. -/
def writeBytes (st : TableState D) (page : Nat) (zero : D) : TableState D :=
  { st with mem := Function.update st.mem page fun _ => zero }

/-- `table[idx] = desc`. -/
def set (st : TableState D) (table idx : Nat) (desc : D) : TableState D :=
  { st with mem := st.mem.set table idx desc }

end TableState

/-- A function that fills a table of a level for a range: level, table, `virt`, `base`, `size`. -/
abbrev Fill (L D : Type) : Type :=
  L → Nat → Nat → Nat → Nat → TableState D → Run (TableState D)

/-- How the loops are called: the range must be page-aligned. -/
def checkAligned {L D : Type} (A : Arch) (fill : Fill L D) : Fill L D :=
  fun level table virt base size st => do
    require (isAligned A base pageSize) .alignment
    require (isAligned A virt pageSize) .alignment
    fill level table virt base size st

section Fill

variable {L D : Type} (F : Format L D) (P : Profile) (A : Arch) (device : Bool)

/-- The descriptor of a table: the present one, or one of a new, empty table. -/
def allocTable (level : L) (desc : D) (st : TableState D) : Run (D × TableState D) :=
  if F.isPointerEntry level desc then .ok (desc, st)
  else do
    let (nextAddr, st) ← st.alloc
    let desc ← unwrap (F.makePointerEntry level nextAddr)
    return (desc, st.writeBytes nextAddr F.zero)

def allocTableAndFill (fill : Fill L D) (level : L) (desc : D) (virt base size : Nat)
    (st : TableState D) : Run (D × TableState D) := do
  let (desc, st) ← allocTable F level desc st
  let next ← unwrap (F.getNextTable level)
  let table ← unwrap (F.getPhysAddrFromDescriptor level desc)
  let st ← fill next table virt base size st
  return (desc, st)

/-- One round of the compact loop: what it fills, the descriptor, and the tables. -/
def compactRound (fill : Fill L D) (level : L) (table virt base size : Nat) (st : TableState D) :
    Run (Nat × D × TableState D) :=
  let entrySize := F.getTableEntrySize level
  let aligned := isAligned A virt (F.blockAlignment level)
  if ¬ aligned ∨ size < entrySize then do
    let fillSize := if ¬ aligned then size &&& (entrySize - 1) else size
    let desc := st.mem table (F.getDescriptorIndex virt level)
    let (desc, st) ← allocTableAndFill F fill level desc virt base fillSize st
    return (fillSize, desc, st)
  else do
    let desc ← unwrap (F.makeDescriptor level base device)
    return (entrySize, desc, st)

def compactLoop : Nat → Fill L D
  | 0, _, _, _, _, _, _ => .error .diverges
  | fuel + 1, level, table, virt, base, size, st =>
      if size < pageSize then .ok st
      else do
        let (fillSize, desc, st) ←
          compactRound F A device (checkAligned A (compactLoop fuel)) level table virt base size st
        let st := st.set table (F.getDescriptorIndex virt level) desc
        let virt ← addWord P A virt fillSize
        let base ← addWord P A base fillSize
        let size ← subWord P A size fillSize
        compactLoop fuel level table virt base size st

def fillTableCompact (fuel : Nat) : Fill L D :=
  checkAligned A (compactLoop F P A device fuel)

/-- One round of the granular loop. -/
def granularRound (fill : Fill L D) (level : L) (table virt base size : Nat) (st : TableState D) :
    Run (D × TableState D) :=
  if F.isLastLevel level then do
    let desc ← unwrap (F.makeDescriptor level base device)
    return (desc, st)
  else
    allocTableAndFill F fill level (st.mem table (F.getDescriptorIndex virt level)) virt base size st

def granularLoop : Nat → Fill L D
  | 0, _, _, _, _, _, _ => .error .diverges
  | fuel + 1, level, table, virt, base, size, st => do
      let entrySize := F.getTableEntrySize level
      let (desc, st) ←
        granularRound F device (checkAligned A (granularLoop fuel)) level table virt base size st
      let st := st.set table (F.getDescriptorIndex virt level) desc
      if size ≤ entrySize then return st
      else do
        let virt ← addWord P A virt entrySize
        let base ← addWord P A base entrySize
        let size ← subWord P A size entrySize
        granularLoop fuel level table virt base size st

def fillTableGranular (fuel : Nat) : Fill L D :=
  checkAligned A (granularLoop F P A device fuel)

end Fill

inductive MappingStrategy
  | compact
  | granular
  deriving DecidableEq, Repr

def fillTable {L D : Type} (F : Format L D) (P : Profile) (A : Arch) (device : Bool)
    (strategy : MappingStrategy) (fuel : Nat) : Fill L D :=
  match strategy with
  | .compact => fillTableCompact F P A device fuel
  | .granular => fillTableGranular F P A device fuel

/-! ## What the hardware makes of the descriptors -/

/-- The hardware reads the descriptors as the code means them.  Tables and blocks lie below `limit`. -/
structure Lawful {L D : Type} (F : Format L D) (M : Mmu D) (limit : Nat) (height : L → Nat) : Prop where
  entrySize : ∀ l, F.getTableEntrySize l = span (height l)
  index : ∀ l v, F.getDescriptorIndex v l = M.index (height l) v
  last : ∀ l, F.isLastLevel l = true ↔ height l = 0
  next_zero : ∀ l, height l = 0 → F.getNextTable l = none
  next_succ : ∀ l h, height l = h + 1 → ∃ l', F.getNextTable l = some l' ∧ height l' = h
  stride : 0 < M.stride
  entries : ∀ l j, j < height l → M.entries j = 512
  block : ∀ l p device d, F.makeDescriptor l p device = some d → span (height l) ∣ p →
    p + span (height l) ≤ limit → M.decode (height l) d = .block p
  block_ne : ∀ l p device d, F.makeDescriptor l p device = some d → ∀ next,
    M.decode (height l) d ≠ .table next
  page : ∀ l p device, height l = 0 → ∃ d, F.makeDescriptor l p device = some d
  pointer : ∀ l h d, height l = h + 1 →
    (F.isPointerEntry l d = true ↔ ∃ next, M.decode (h + 1) d = .table next)
  physAddr : ∀ l h d next, height l = h + 1 → M.decode (h + 1) d = .table next → next < limit →
    F.getPhysAddrFromDescriptor l d = some next
  makePointer : ∀ l h x, height l = h + 1 → pageSize ∣ x → x < limit →
    ∃ d, F.makePointerEntry l x = some d ∧ M.decode (h + 1) d = .table x
  zero : ∀ h, M.decode h F.zero = .invalid

/-- The pages that the allocator has given between two states. -/
def pages {D : Type} (st st' : TableState D) : Set Nat :=
  {x | ∃ n, st.used ≤ n ∧ n < st'.used ∧ st.supply n = some x}

/-- A tree of tables in the set `S`, and a supply of fresh pages. -/
structure Sound {D : Type} (M : Mmu D) (limit : Nat) (st : TableState D) (h t : Nat) (S : Set Nat) :
    Prop where
  separate : M.Separate st.mem h t S
  bounded : ∀ x ∈ S, x < limit
  fresh : ∀ n x, st.used ≤ n → st.supply n = some x → x ∉ S ∧ x < limit ∧ pageSize ∣ x
  distinct : ∀ n m x, st.used ≤ n → st.used ≤ m → st.supply n = some x → st.supply m = some x → n = m

/-- Only tables of the set and new pages are written, and they are still a tree. -/
structure Keeps {D : Type} (M : Mmu D) (st st' : TableState D) (h t : Nat) (S : Set Nat) : Prop where
  supply : st'.supply = st.supply
  used : st.used ≤ st'.used
  separate : M.Separate st'.mem h t (S ∪ pages st st')
  frame : ∀ x, x ∉ S ∪ pages st st' → st'.mem x = st.mem x

section Keeps

variable {L D : Type} {F : Format L D} {M : Mmu D} {limit : Nat} {height : L → Nat}
  {st st₁ st₂ : TableState D} {h t : Nat} {S : Set Nat}

theorem pages_self (st : TableState D) : pages st st = ∅ := by
  refine Set.eq_empty_iff_forall_notMem.2 ?_
  rintro x ⟨n, hle, hlt, -⟩
  omega

theorem Keeps.refl (hs : Sound M limit st h t S) : Keeps M st st h t S := by
  refine ⟨rfl, le_rfl, ?_, fun _ _ => rfl⟩
  rw [pages_self, Set.union_empty]
  exact hs.separate

theorem pages_trans (hsupply : st₁.supply = st.supply) (h₁ : st.used ≤ st₁.used)
    (h₂ : st₁.used ≤ st₂.used) : pages st st₂ = pages st st₁ ∪ pages st₁ st₂ := by
  ext x
  constructor
  · rintro ⟨n, hle, hlt, hn⟩
    rcases Nat.lt_or_ge n st₁.used with hlt₁ | hge
    · exact Or.inl ⟨n, hle, hlt₁, hn⟩
    · exact Or.inr ⟨n, hge, hlt, by rw [hsupply]; exact hn⟩
  · rintro (⟨n, hle, hlt, hn⟩ | ⟨n, hle, hlt, hn⟩)
    · exact ⟨n, hle, by omega, hn⟩
    · exact ⟨n, by omega, hlt, by rw [← hsupply]; exact hn⟩

theorem Sound.keeps (hs : Sound M limit st h t S) (hk : Keeps M st st₁ h t S) :
    Sound M limit st₁ h t (S ∪ pages st st₁) := by
  have hused := hk.used
  refine ⟨hk.separate, ?_, ?_, ?_⟩
  · rintro x (hx | ⟨n, hle, -, hn⟩)
    · exact hs.bounded x hx
    · exact (hs.fresh n x hle hn).2.1
  · intro n x hle hn
    rw [hk.supply] at hn
    have hfresh := hs.fresh n x (by omega) hn
    refine ⟨?_, hfresh.2⟩
    rintro (hx | ⟨m, hle', hlt', hm⟩)
    · exact hfresh.1 hx
    · have := hs.distinct n m x (by omega) hle' hn hm
      omega
  · intro n m x hn hm hxn hxm
    rw [hk.supply] at hxn hxm
    exact hs.distinct n m x (by omega) (by omega) hxn hxm

theorem Keeps.trans (h₁ : Keeps M st st₁ h t S) (h₂ : Keeps M st₁ st₂ h t (S ∪ pages st st₁)) :
    Keeps M st st₂ h t S := by
  have hpages := pages_trans h₁.supply h₁.used h₂.used
  have hset : S ∪ pages st st₂ = S ∪ pages st st₁ ∪ pages st₁ st₂ := by
    rw [hpages, Set.union_assoc]
  refine ⟨h₂.supply.trans h₁.supply, h₁.used.trans h₂.used, ?_, ?_⟩
  · rw [hset]
    exact h₂.separate
  · intro x hx
    rw [hset] at hx
    rw [h₂.frame x hx]
    exact h₁.frame x fun hx' => hx (Or.inl hx')

end Keeps

/-! ## Descending to the next table -/

section Descend

variable {L D : Type} {F : Format L D} {M : Mmu D} {limit : Nat} {height : L → Nat}
  {st st₁ st₂ : TableState D} {h t i virt base size : Nat} {S : Set Nat} {l : L} {d : D} {fill : Fill L D}

/-- What a fill of a table below does to the table above: the entry points to the filled table. -/
structure Descends (M : Mmu D) (st st₂ : TableState D) (h t i next : Nat) (d : D) (S : Set Nat) : Prop where
  keeps : Keeps M st (st₂.set t i d) (h + 1) t S
  inside : ∀ v, M.index (h + 1) v = i →
    M.leaf (st₂.set t i d).mem (h + 1) t v = M.leaf st₂.mem h next v
  outside : ∀ v, M.index (h + 1) v ≠ i →
    M.leaf (st₂.set t i d).mem (h + 1) t v = M.leaf st.mem (h + 1) t v
  /-- The fill has left the table itself alone. -/
  row : st₂.mem t = st.mem t

/-- The table below the entry, before it is filled. -/
structure Opened (M : Mmu D) (limit : Nat) (st st₁ : TableState D) (h t i next : Nat) (d : D)
    (S K : Set Nat) : Prop where
  sound : Sound M limit st₁ h next K
  decode : M.decode (h + 1) d = .table next
  below : M.Below st.mem h t i (S ∪ pages st st₁) K
  supply : st₁.supply = st.supply
  used : st.used ≤ st₁.used
  used_le : st₁.used ≤ st.used + 1
  frame : ∀ x, x ∉ K → st₁.mem x = st.mem x
  /-- A pointer is kept as it is. -/
  same : ∀ x, M.decode (h + 1) (st.mem t i) = .table x → d = st.mem t i
  /-- Unless the entry was a block, the new table translates what the entry did. -/
  leaf : (∀ addr, M.decode (h + 1) (st.mem t i) ≠ .block addr) →
    ∀ v, M.index (h + 1) v = i → M.leaf st₁.mem h next v = M.leaf st.mem (h + 1) t v

theorem opened_of_pointer {next : Nat} (hs : Sound M limit st (h + 1) t S)
    (hd : M.decode (h + 1) (st.mem t i) = .table next) :
    ∃ K, Opened M limit st st h t i next (st.mem t i) S K := by
  rcases hs.separate.below i with ⟨K, hbelow, hsep⟩
  refine ⟨K, ⟨⟨hsep next hd, ?_, ?_, hs.distinct⟩, hd, ?_, rfl, le_rfl, Nat.le_succ _, fun _ _ => rfl,
    fun _ _ => rfl, ?_⟩⟩
  · intro x hx
    exact hs.bounded x (hbelow.subset hx)
  · intro n x hle hn
    have hfresh := hs.fresh n x hle hn
    exact ⟨fun hx => hfresh.1 (hbelow.subset hx), hfresh.2⟩
  · rw [pages_self, Set.union_empty]
    exact hbelow
  · rintro - v rfl
    exact (Mmu.leaf_of_table hd).symm

theorem opened_of_alloc {x : Nat} (hF : Lawful F M limit height) (hs : Sound M limit st (h + 1) t S)
    (hd : ∀ next, M.decode (h + 1) (st.mem t i) ≠ .table next) (hx : st.supply st.used = some x)
    (hdesc : M.decode (h + 1) d = .table x) :
    Opened M limit st ({ st with used := st.used + 1 }.writeBytes x F.zero) h t i x d S {x} := by
  have hfresh := hs.fresh st.used x le_rfl hx
  -- The new table is cleared before it is linked.
  have hzero : ∀ j k, M.decode k ((Function.update st.mem x fun _ => F.zero) x j) = .invalid := by
    intro j k
    rw [Function.update_self]
    exact hF.zero k
  refine ⟨⟨?_, ?_, ?_, ?_⟩, hdesc, ?_, rfl, Nat.le_succ _, le_rfl, ?_, fun y hy => absurd hy (hd y), ?_⟩
  · exact Mmu.separate_of_invalid fun j => hzero j h
  · rintro y rfl
    exact hfresh.2.1
  · intro n y hle hn
    have hle' : st.used + 1 ≤ n := hle
    have hfresh' := hs.fresh n y (by omega) hn
    refine ⟨?_, hfresh'.2⟩
    rintro rfl
    have := hs.distinct n st.used y (by omega) le_rfl hn hx
    omega
  · intro n m y hn hm
    have hn' : st.used + 1 ≤ n := hn
    have hm' : st.used + 1 ≤ m := hm
    exact hs.distinct n m y (by omega) (by omega)
  · rcases hs.separate.below i with ⟨K, hbelow, -⟩
    -- The page is fresh, so it is in no other entry's tables.
    refine hbelow.extend Set.subset_union_left ?_ ?_ ?_
    · rintro y rfl
      exact Or.inr ⟨st.used, le_rfl, Nat.lt_succ_self _, hx⟩
    · rintro rfl
      exact hfresh.1 hs.separate.root_mem
    · rintro y rfl hy
      exact absurd hy hfresh.1
  · intro y hy
    exact Function.update_of_ne hy _ _
  · rintro hblock v rfl
    -- Nothing was mapped below the entry, and nothing is mapped by a clear table.
    have hnone : M.leaf st.mem (h + 1) t v = none := by
      refine Mmu.leaf_of_invalid ?_
      cases hdec : M.decode (h + 1) (st.mem t (M.index (h + 1) v)) with
      | invalid => rfl
      | block addr => exact absurd hdec (hblock addr)
      | table next => exact absurd hdec (hd next)
    rw [hnone]
    exact Mmu.leaf_of_invalid (hzero _ h)

/-- The entry is written after the table below it has been filled. -/
theorem Opened.descends {next : Nat} {K : Set Nat} (hs : Sound M limit st (h + 1) t S)
    (ho : Opened M limit st st₁ h t i next d S K) (hk : Keeps M st₁ st₂ h next K) :
    Descends M st st₂ h t i next d S := by
  have hpages := pages_trans ho.supply ho.used hk.used
  have ht := hs.separate.root_mem
  -- A page that is new since the table below was opened is not among the old tables.
  have hnew : ∀ x ∈ pages st₁ st₂, x ∉ S ∪ pages st st₁ := by
    rintro x ⟨n, hle, hlt, hn⟩ hx
    rw [ho.supply] at hn
    have hused := ho.used
    rcases hx with hx | ⟨m, hle', hlt', hm⟩
    · exact (hs.fresh n x (by omega) hn).1 hx
    · have := hs.distinct n m x (by omega) hle' hn hm
      omega
  have hset : S ∪ pages st st₂ = S ∪ pages st st₁ ∪ pages st₁ st₂ := by
    rw [hpages, Set.union_assoc]
  have hbelow : M.Below st.mem h t i (S ∪ pages st st₂) (K ∪ pages st₁ st₂) := by
    rw [hset]
    refine ho.below.extend Set.subset_union_left ?_ ?_ ?_
    · exact Set.union_subset_union_left _ ho.below.subset
    · rintro (hx | hx)
      · exact ho.below.notMem hx
      · exact hnew t hx (Or.inl ht)
    · rintro x (hx | hx) hold
      · exact hx
      · exact absurd hold (hnew x hx)
  have hsame : ∀ x, x ∉ K ∪ pages st₁ st₂ → st₂.mem x = st.mem x := by
    intro x hx
    rw [hk.frame x hx]
    exact ho.frame x fun hxK => hx (Or.inl hxK)
  rcases hbelow.setTable (Or.inl ht) ho.decode hk.separate (fun x _ hx => hsame x hx)
    with ⟨hsep, hin, hout⟩
  refine ⟨⟨hk.supply.trans ho.supply, ho.used.trans hk.used, hsep, ?_⟩, hin, hout, hsame t hbelow.notMem⟩
  intro x hx
  have hxt : x ≠ t := by
    rintro rfl
    exact hx (Or.inl ht)
  calc (st₂.set t i d).mem x = st₂.mem x := Tables.set_of_ne_table hxt
    _ = st.mem x := hsame x fun hxK => hx (hbelow.subset hxK)

theorem alloc_eq_ok {x : Nat} (halloc : st.alloc = .ok (x, st₁)) :
    st.supply st.used = some x ∧ st₁ = { st with used := st.used + 1 } := by
  rw [TableState.alloc] at halloc
  split at halloc
  · rename_i page hpage
    obtain ⟨rfl, rfl⟩ := Prod.mk.inj (Except.ok.inj halloc)
    exact ⟨hpage, rfl⟩
  · cases halloc

/-- The table that the descriptor of `alloc_table_and_fill` points to. -/
theorem allocTable_eq_ok (hF : Lawful F M limit height) (hl : height l = h + 1) (hs : Sound M limit st (h + 1) t S)
    (hrun : allocTable F l (st.mem t i) st = .ok (d, st₁)) :
    ∃ next K, F.getPhysAddrFromDescriptor l d = some next ∧ Opened M limit st st₁ h t i next d S K := by
  rw [allocTable] at hrun
  split at hrun
  · rename_i hptr
    obtain ⟨rfl, rfl⟩ := Prod.mk.inj (Except.ok.inj hrun)
    rcases (hF.pointer l h _ hl).1 hptr with ⟨next, hdec⟩
    rcases opened_of_pointer hs hdec with ⟨K, hopened⟩
    exact ⟨next, K, hF.physAddr l h _ next hl hdec (hopened.sound.bounded _ hopened.sound.separate.root_mem), hopened⟩
  · rename_i hptr
    have hnot : ∀ next, M.decode (h + 1) (st.mem t i) ≠ .table next := by
      intro next hdec
      exact hptr ((hF.pointer l h _ hl).2 ⟨next, hdec⟩)
    rcases run_bind_eq_ok.1 hrun with ⟨⟨x, st'⟩, hx, hrun⟩
    rcases alloc_eq_ok hx with ⟨hsupply, rfl⟩
    rcases run_bind_eq_ok.1 hrun with ⟨d', hdesc, hrun⟩
    obtain ⟨rfl, rfl⟩ := Prod.mk.inj (Except.ok.inj hrun)
    have hfresh := hs.fresh st.used x le_rfl hsupply
    rcases hF.makePointer l h x hl hfresh.2.2 hfresh.2.1 with ⟨d₀, hd₀, hdec⟩
    rw [unwrap_eq_ok, hd₀] at hdesc
    obtain rfl := Option.some.inj hdesc
    exact ⟨x, {x}, hF.physAddr l h _ x hl hdec hfresh.2.1, opened_of_alloc hF hs hnot hsupply hdec⟩

/-- Whenever `alloc_table_and_fill` returns, it has filled the table below the entry. -/
theorem allocTableAndFill_eq_ok (hF : Lawful F M limit height) (hl : height l = h + 1)
    (hs : Sound M limit st (h + 1) t S)
    (hrun : allocTableAndFill F fill l (st.mem t i) virt base size st = .ok (d, st₂)) :
    ∃ l' next st₁ K, height l' = h ∧ fill l' next virt base size st₁ = .ok st₂ ∧
      Opened M limit st st₁ h t i next d S K := by
  rcases run_bind_eq_ok.1 hrun with ⟨⟨d', st₁⟩, halloc, hrun⟩
  rcases run_bind_eq_ok.1 hrun with ⟨l', hl', hrun⟩
  rcases run_bind_eq_ok.1 hrun with ⟨table, htable, hrun⟩
  rcases run_bind_eq_ok.1 hrun with ⟨st₂', hfill, hrun⟩
  obtain ⟨rfl, rfl⟩ := Prod.mk.inj (Except.ok.inj hrun)
  rcases hF.next_succ l h hl with ⟨l'', hl'', hheight⟩
  rw [unwrap_eq_ok, hl''] at hl'
  obtain rfl := Option.some.inj hl'
  -- The table that the descriptor points to is the one the hardware walks.
  rcases allocTable_eq_ok hF hl hs halloc with ⟨next, K, hphys, hopened⟩
  rw [unwrap_eq_ok, hphys] at htable
  obtain rfl := Option.some.inj htable
  exact ⟨l'', next, st₁, K, hheight, hfill, hopened⟩

/-- `alloc_table_and_fill` returns if the allocator has a page and the fill of every table below that it
may be called for returns. -/
theorem allocTableAndFill_returns {Q : TableState D → Prop} (hF : Lawful F M limit height)
    (hl : height l = h + 1) (hs : Sound M limit st (h + 1) t S) (hpage : ∃ x, st.supply st.used = some x)
    (hfill : ∀ l' next st₁ K, height l' = h → Sound M limit st₁ h next K → st₁.supply = st.supply →
      st.used ≤ st₁.used → st₁.used ≤ st.used + 1 → ∃ st₂, fill l' next virt base size st₁ = .ok st₂ ∧ Q st₂) :
    ∃ d st₂, allocTableAndFill F fill l (st.mem t i) virt base size st = .ok (d, st₂) ∧ Q st₂ := by
  rcases hF.next_succ l h hl with ⟨l', hl', hheight⟩
  rw [allocTableAndFill, allocTable]
  -- A pointer entry is followed as it is; any other entry is replaced by a new table.
  by_cases hptr : F.isPointerEntry l (st.mem t i) = true
  · rcases (hF.pointer l h _ hl).1 hptr with ⟨next, hdec⟩
    rcases opened_of_pointer hs hdec with ⟨K, hopened⟩
    have hphys := hF.physAddr l h _ next hl hdec
      (hopened.sound.bounded next hopened.sound.separate.root_mem)
    rcases hfill l' next st K hheight hopened.sound rfl le_rfl (Nat.le_succ _) with ⟨st₂, hst₂, hQ⟩
    refine ⟨st.mem t i, st₂, ?_, hQ⟩
    simp only [hptr, if_true, run_ok_bind, hl', hphys, unwrap, hst₂]
    rfl
  · rcases hpage with ⟨x, hx⟩
    have hnot : ∀ next, M.decode (h + 1) (st.mem t i) ≠ .table next := by
      intro next hdec
      exact hptr ((hF.pointer l h _ hl).2 ⟨next, hdec⟩)
    have hfresh := hs.fresh st.used x le_rfl hx
    rcases hF.makePointer l h x hl hfresh.2.2 hfresh.2.1 with ⟨d, hd, hdec⟩
    have hopened := opened_of_alloc (d := d) hF hs hnot hx hdec
    have hphys := hF.physAddr l h d x hl hdec hfresh.2.1
    rcases hfill l' x _ {x} hheight hopened.sound rfl (Nat.le_succ _) le_rfl with ⟨st₂, hst₂, hQ⟩
    refine ⟨d, st₂, ?_, hQ⟩
    simp only [hptr, if_false, TableState.alloc, hx, hd, unwrap, run_ok_bind, hl', hphys, pure_bind,
      Bool.false_eq_true]
    rw [hst₂]
    rfl

end Descend

/-! ## Mapping a range -/

/-- What the entries of a table cover together. -/
def cover {D : Type} (M : Mmu D) (h : Nat) : Nat :=
  span h * M.entries h

/-- The range is translated as asked for, and no other address of the table is touched. -/
structure Maps {D : Type} (M : Mmu D) (st st' : TableState D) (h t virt base size : Nat) : Prop where
  inside : ∀ v, virt ≤ v → v < virt + size → M.walk st'.mem h t v = some (base + (v - virt))
  outside : ∀ v, v / cover M h = virt / cover M h → ¬ (virt ≤ v ∧ v < virt + size) →
    M.leaf st'.mem h t v = M.leaf st.mem h t v

/-- There is no block on the walk of the address above the last table. -/
def ClearAt {D : Type} (M : Mmu D) (st : TableState D) (h t v : Nat) : Prop :=
  ∀ b, M.leaf st.mem h t v = some b → b.1 = 0

/-- The walks of the range are clear. -/
def Clear {D : Type} (M : Mmu D) (st : TableState D) (h t virt size : Nat) : Prop :=
  ∀ v, virt ≤ v → v < virt + size → ClearAt M st h t v

/-- A range that fits between two multiples of `c`. -/
theorem div_eq_of_window {c virt size v : Nat} (hwin : virt % c + size ≤ c) (hlo : virt ≤ v)
    (hhi : v < virt + size) : v / c = virt / c := by
  have hsum := Nat.div_add_mod virt c
  have hlt : virt % c + (v - virt) < c := by omega
  calc v / c = (c * (virt / c) + (virt % c + (v - virt))) / c := congrArg (· / c) (by omega)
    _ = virt / c + (virt % c + (v - virt)) / c := Nat.mul_add_div (by omega) _ _
    _ = virt / c := by rw [Nat.div_eq_of_lt hlt, Nat.add_zero]

/-- A range that crosses no multiple of a span crosses no multiple of a larger span. -/
theorem window_mono {s s' x n : Nat} (hdvd : s ∣ s') (hs' : 0 < s') (hwin : x % s + n ≤ s) :
    x % s' + n ≤ s' := by
  rcases hdvd with ⟨k, rfl⟩
  have hs : 0 < s := Nat.pos_of_mul_pos_right hs'
  have hmod : x % (s * k) % s = x % s := Nat.mod_mul_right_mod _ _ _
  have hdm := Nat.div_add_mod (x % (s * k)) s
  have hlt : x % (s * k) / s < k := Nat.div_lt_of_lt_mul (Nat.mod_lt _ hs')
  have hle := Nat.mul_le_mul_left s (Nat.succ_le_of_lt hlt)
  rw [Nat.mul_succ] at hle
  omega

/-- The addresses of the entry that an aligned address takes. -/
theorem div_eq_iff_of_dvd {s virt v : Nat} (hs : 0 < s) (hdvd : s ∣ virt) :
    v / s = virt / s ↔ virt ≤ v ∧ v < virt + s := by
  rcases hdvd with ⟨k, rfl⟩
  rw [Nat.mul_div_cancel_left k hs, Nat.div_eq_iff hs]
  constructor
  · rintro ⟨hlo, hhi⟩
    rw [Nat.mul_comm k s] at hlo hhi
    exact ⟨hlo, by omega⟩
  · rintro ⟨hlo, hhi⟩
    rw [Nat.mul_comm k s]
    exact ⟨hlo, by omega⟩

section Maps

variable {L D : Type} {F : Format L D} {M : Mmu D} {limit : Nat} {height : L → Nat}
  {st st₁ st₂ : TableState D} {h t i virt base size s₁ s₂ : Nat} {S : Set Nat} {l : L} {d : D}

theorem Maps.empty : Maps M st st h t virt base 0 :=
  ⟨fun v hlo hhi => by omega, fun _ _ _ => rfl⟩

/-- Two ranges, one behind the other, in one table. -/
theorem Maps.trans (h₁ : Maps M st st₁ h t virt base s₁)
    (h₂ : Maps M st₁ st₂ h t (virt + s₁) (base + s₁) s₂)
    (hwin : virt % cover M h + (s₁ + s₂) ≤ cover M h) (hs₂ : 0 < s₂) :
    Maps M st st₂ h t virt base (s₁ + s₂) := by
  have hsame : (virt + s₁) / cover M h = virt / cover M h :=
    div_eq_of_window hwin (by omega) (by omega)
  constructor
  · intro v hlo hhi
    rcases Nat.lt_or_ge v (virt + s₁) with hlt | hge
    · have hv : v / cover M h = (virt + s₁) / cover M h := by
        rw [hsame]
        exact div_eq_of_window hwin hlo hhi
      rw [Mmu.walk, h₂.outside v hv (by omega)]
      exact h₁.inside v hlo hlt
    · rw [h₂.inside v hge (by omega)]
      exact congrArg some (by omega)
  · intro v hv hout
    rw [h₂.outside v (hv.trans hsame.symm) (by omega)]
    exact h₁.outside v hv (by omega)

/-- A block entry maps what the entry covers. -/
theorem Maps.block (hF : Lawful F M limit height) (hs : Sound M limit st h t S) (hvirt : span h ∣ virt)
    (hd : M.decode h d = .block base) :
    Maps M st (st.set t (M.index h virt) d) h t virt base (span h) := by
  constructor
  · intro v hlo hhi
    have hdiv := (div_eq_iff_of_dvd (span_pos h) hvirt).2 ⟨hlo, hhi⟩
    have hindex : M.index h v = M.index h virt := by
      rw [Mmu.index, Mmu.index, hdiv]
    have hmod : v % span h = v - virt := by
      have hv := Nat.div_add_mod v (span h)
      rw [hdiv, Nat.mul_div_cancel' hvirt] at hv
      omega
    show ((M.leaf (st.mem.set t (M.index h virt) d) h t v).map _) = _
    rw [Mmu.leaf_set_block hd hindex, Option.map_some, hmod]
  · intro v hv hrange
    refine Mmu.leaf_set_of_ne hs.separate fun hindex => hrange ?_
    exact (div_eq_iff_of_dvd (span_pos h) hvirt).1 ((Mmu.index_eq_iff hF.stride hv).1 hindex)

theorem ClearAt.not_block {addr : Nat} (hc : ClearAt M st (h + 1) t virt) :
    M.decode (h + 1) (st.mem t (M.index (h + 1) virt)) ≠ .block addr := by
  intro hd
  have := hc _ (Mmu.leaf_of_block hd)
  omega

theorem ClearAt.below {next v : Nat} {K : Set Nat} (hc : ClearAt M st (h + 1) t v)
    (hopened : Opened M limit st st₁ h t i next d S K) (hindex : M.index (h + 1) v = i) :
    ClearAt M st₁ h next v := by
  intro b hb
  subst hindex
  rw [hopened.leaf (fun addr => hc.not_block) v rfl] at hb
  exact hc b hb

theorem Clear.head (hc : Clear M st h t virt size) (hsize : 0 < size) : ClearAt M st h t virt :=
  hc virt le_rfl (by omega)

/-- A table below covers what an entry does. -/
theorem Lawful.cover_eq (hF : Lawful F M limit height) (hl : height l = h + 1) : cover M h = span (h + 1) := by
  rw [cover, hF.entries l h (by omega), span_succ]

/-- An address in another multiple of a span than `virt` is translated as before, if the table below leaves it alone. -/
theorem Opened.leaf_outside {next v j : Nat} {K : Set Nat} (hF : Lawful F M limit height) (hl : height l = h + 1)
    (hopened : Opened M limit st st₁ h t (M.index (h + 1) virt) next d S K)
    (hdesc : Descends M st st₂ h t (M.index (h + 1) virt) next d S) (hclear : ClearAt M st (h + 1) t virt)
    (hj : j ≤ h + 1) (hv : v / cover M (h + 1) = virt / cover M (h + 1)) (hne : v / span j ≠ virt / span j)
    (hbelow : j ≤ h → ClearAt M st₁ h next virt → v / cover M h = virt / cover M h →
      M.leaf st₂.mem h next v = M.leaf st₁.mem h next v) :
    M.leaf (st₂.set t (M.index (h + 1) virt) d).mem (h + 1) t v = M.leaf st.mem (h + 1) t v := by
  by_cases hindex : M.index (h + 1) v = M.index (h + 1) virt
  · have hdiv := (Mmu.index_eq_iff hF.stride hv).1 hindex
    -- Both addresses are below the same entry, so the span is one of a lower table.
    have hjh : j ≤ h := by
      by_contra hgt
      have hjeq : j = h + 1 := by omega
      exact hne (hjeq ▸ hdiv)
    rw [← hF.cover_eq hl] at hdiv
    rw [hdesc.inside v hindex, hbelow hjh (hclear.below hopened rfl) hdiv]
    exact hopened.leaf (fun addr => hclear.not_block) v hindex
  · exact hdesc.outside v hindex

/-- A table below maps a range that it covers. -/
theorem Maps.below {next : Nat} {K : Set Nat} (hF : Lawful F M limit height) (hl : height l = h + 1)
    (hopened : Opened M limit st st₁ h t (M.index (h + 1) virt) next d S K)
    (hdesc : Descends M st st₂ h t (M.index (h + 1) virt) next d S)
    (hmaps : Maps M st₁ st₂ h next virt base size) (hwin : virt % span (h + 1) + size ≤ span (h + 1))
    (hblock : ∀ addr, M.decode (h + 1) (st.mem t (M.index (h + 1) virt)) ≠ .block addr) :
    Maps M st (st₂.set t (M.index (h + 1) virt) d) (h + 1) t virt base size := by
  constructor
  · intro v hlo hhi
    have hindex : M.index (h + 1) v = M.index (h + 1) virt := by
      rw [Mmu.index, Mmu.index, div_eq_of_window hwin hlo hhi]
    rw [Mmu.walk, hdesc.inside v hindex]
    exact hmaps.inside v hlo hhi
  · intro v hv hrange
    by_cases hindex : M.index (h + 1) v = M.index (h + 1) virt
    · have hdiv : v / cover M h = virt / cover M h := by
        rw [hF.cover_eq hl]
        exact (Mmu.index_eq_iff hF.stride hv).1 hindex
      rw [hdesc.inside v hindex, hmaps.outside v hdiv hrange]
      exact hopened.leaf hblock v hindex
    · exact hdesc.outside v hindex

/-- The range below is clear as well. -/
theorem Clear.below {next : Nat} {K : Set Nat} (hc : Clear M st (h + 1) t virt size)
    (hopened : Opened M limit st st₁ h t (M.index (h + 1) virt) next d S K) (hs : s₁ ≤ size)
    (hwin : virt % span (h + 1) + s₁ ≤ span (h + 1)) : Clear M st₁ h next virt s₁ := by
  intro v hlo hhi
  refine (hc v hlo (by omega)).below hopened ?_
  rw [Mmu.index, Mmu.index, div_eq_of_window hwin hlo hhi]

/-- What is left of the range is still clear. -/
theorem Clear.rest (hc : Clear M st h t virt (s₁ + s₂)) (hmaps : Maps M st st₁ h t virt base s₁)
    (hwin : virt % cover M h + (s₁ + s₂) ≤ cover M h) : Clear M st₁ h t (virt + s₁) s₂ := by
  intro v hlo hhi b hb
  rw [hmaps.outside v (div_eq_of_window hwin (by omega) (by omega)) (by omega)] at hb
  exact hc v (by omega) (by omega) b hb

/-- A block entry keeps the tables a tree. -/
theorem Keeps.block (hs : Sound M limit st h t S) (hd : ∀ next, M.decode h d ≠ .table next) :
    Keeps M st (st.set t i d) h t S := by
  refine ⟨rfl, le_rfl, ?_, ?_⟩
  · exact (hs.separate.set hd).mono Set.subset_union_left
  · intro x hx
    refine Tables.set_of_ne_table ?_
    rintro rfl
    exact hx (Or.inl hs.separate.root_mem)

end Maps

/-! ## The empty table -/

section Empty

variable {L D : Type} {F : Format L D} {M : Mmu D} {limit : Nat} {height : L → Nat}

/-- An empty table at address zero, and `n` pages behind it. -/
def emptyState (zero : D) (n : Nat) : TableState D where
  mem := fun _ _ => zero
  supply := fun m => if m < n then some (pageSize * (m + 1)) else none
  used := 0

theorem emptyState_supply {zero : D} {n m x : Nat} (h : (emptyState zero n).supply m = some x) :
    m < n ∧ x = pageSize * (m + 1) := by
  simp only [emptyState] at h
  split at h
  · rename_i hm
    exact ⟨hm, (Option.some.inj h).symm⟩
  · cases h

theorem emptyState_sound (hF : Lawful F M limit height) {n : Nat} (hn : pageSize * (n + 1) ≤ limit)
    (h : Nat) : Sound M limit (emptyState F.zero n) h 0 {0} := by
  have hpos := pageSize_pos
  refine ⟨Mmu.separate_of_invalid fun i => hF.zero h, ?_, ?_, ?_⟩
  · rintro x rfl
    have := Nat.mul_le_mul_left pageSize (Nat.le_add_left 1 n)
    omega
  · intro m x _ hx
    rcases emptyState_supply hx with ⟨hm, rfl⟩
    have hlt := Nat.mul_lt_mul_of_pos_left (Nat.add_lt_add_right hm 1) hpos
    refine ⟨?_, by omega, Nat.dvd_mul_right _ _⟩
    exact (Nat.mul_pos hpos (Nat.succ_pos m)).ne'
  · intro m k x _ _ hm hk
    have hm' := (emptyState_supply hm).2
    have hk' := (emptyState_supply hk).2
    have := Nat.eq_of_mul_eq_mul_left hpos (hm'.symm.trans hk')
    omega

theorem emptyState_leaf (hF : Lawful F M limit height) (n h t v : Nat) :
    M.leaf (emptyState F.zero n).mem h t v = none :=
  Mmu.leaf_of_invalid (hF.zero h)

theorem emptyState_clearAt (hF : Lawful F M limit height) (n h t v : Nat) :
    ClearAt M (emptyState F.zero n) h t v := by
  intro b hb
  rw [emptyState_leaf hF] at hb
  cases hb

end Empty

end Paging
end Propeller
