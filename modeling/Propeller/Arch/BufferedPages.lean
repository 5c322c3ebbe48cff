import Propeller.Lib.Steps
import Propeller.Support.Bitmap
import Propeller.Support.Word

/-!
# Arch.BufferedPages — the page allocator of the boot code

`BufferedPageAllocator` hands out single pages of a block of memory and marks them in a bitmap.  `alloc`
counts pages from the start of the block, `free` from address zero.  The two agree only if the block starts
there; the boot code never frees a page.
-/

namespace Propeller

structure BufferedPageAllocator (A : Arch) (bitmapWords : Nat) where
  bitmap : Bitmap A bitmapWords
  pageSize : Nat
  pageShift : Nat
  startAddr : Nat
  endAddr : Nat

namespace BufferedPageAllocator

variable {A : Arch} {bitmapWords : Nat}

def new (A : Arch) (bitmapWords startAddr endAddr pageSize : Nat) :
    Run (BufferedPageAllocator A bitmapWords) := do
  require (isPowerOf2 pageSize = true) .alignment
  require (isAligned A startAddr pageSize = true) .alignment
  require (isAligned A endAddr pageSize = true) .alignment
  require (startAddr < endAddr) .badBlock
  let pageShift := floorLog2 A pageSize
  let pages := (endAddr - startAddr) >>> pageShift
  return ⟨Bitmap.new A bitmapWords pages, pageSize, pageShift, startAddr, endAddr⟩

def alloc (P : Profile) (pages : Nat) (b : BufferedPageAllocator A bitmapWords) :
    Run (Option (Nat × Nat) × BufferedPageAllocator A bitmapWords) :=
  if pages ≠ 1 then .ok (none, b)
  else
    match b.bitmap.firstZero with
    | some z => do
        let offset ← mulWord P A z b.pageSize
        let addr ← addWord P A b.startAddr offset
        return (some (addr, 1), { b with bitmap := b.bitmap.setBit z })
    | none => .ok (none, b)

def free (addr pages : Nat) (b : BufferedPageAllocator A bitmapWords) :
    Run (BufferedPageAllocator A bitmapWords) := do
  require (pages = 1) .badBlock
  require (b.startAddr ≤ addr ∧ addr < b.endAddr) .badBlock
  require (isAligned A addr b.pageSize = true) .alignment
  let z := addr >>> b.pageShift
  return { b with bitmap := b.bitmap.clearBit z }

def getAllocMem (b : BufferedPageAllocator A bitmapWords) : Nat :=
  b.bitmap.ones <<< b.pageShift

def getFreeMem (b : BufferedPageAllocator A bitmapWords) : Nat :=
  (b.bitmap.len - b.bitmap.ones) <<< b.pageShift

/-! ## Runs -/

/-- The allocator and the pages that its clients have. -/
structure State (A : Arch) (bitmapWords : Nat) where
  allocator : BufferedPageAllocator A bitmapWords
  outstanding : List Nat

inductive Op
  | alloc
  | free (addr : Nat)
  deriving DecidableEq, Repr

/-- Clients free pages that they have. -/
def Op.Valid (s : State A bitmapWords) : Op → Prop
  | .alloc => True
  | .free addr => addr ∈ s.outstanding

instance (s : State A bitmapWords) : (op : Op) → Decidable (op.Valid s)
  | .alloc => inferInstanceAs (Decidable True)
  | .free addr => inferInstanceAs (Decidable (addr ∈ s.outstanding))

def step (P : Profile) (s : State A bitmapWords) : Op → Run (State A bitmapWords)
  | .alloc => do
      let (page, allocator) ← s.allocator.alloc P 1
      return ⟨allocator, (page.map Prod.fst).toList ++ s.outstanding⟩
  | .free addr => do
      let allocator ← s.allocator.free addr 1
      return ⟨allocator, s.outstanding.erase addr⟩

/-- Some calls lead from one state to another one. -/
def Reaches (P : Profile) : State A bitmapWords → List Op → State A bitmapWords → Prop :=
  Steps.Follows (fun s op => op.Valid s) (step P)

/-- The number of pages that the bitmap has a bit for. -/
def tracked (A : Arch) (bitmapWords startAddr endAddr pageSize : Nat) : Nat :=
  min ((endAddr - startAddr) / pageSize) (bitmapWords * A.wordBits)

/-- What is expected of an allocator for the pages from `startAddr` to `endAddr`.  A page is allocatable if its bit
is not set. -/
structure Correct (P : Profile) (startAddr endAddr pageSize : Nat) (s : State A bitmapWords) : Prop where
  returns : ∀ op : Op, op.Valid s → ∃ s', step P s op = .ok s'
  fresh : ∀ page allocator, s.allocator.alloc P 1 = .ok (some page, allocator) →
    page.1 ∉ s.outstanding ∧ startAddr ≤ page.1 ∧ page.1 < endAddr ∧ pageSize ∣ page.1 ∧ page.2 = 1
  full : ∀ allocator, s.allocator.alloc P 1 = .ok (none, allocator) →
    ∀ i < tracked A bitmapWords startAddr endAddr pageSize, startAddr + i * pageSize ∈ s.outstanding
  allocatable : ∀ i < tracked A bitmapWords startAddr endAddr pageSize,
    s.allocator.bitmap.isSet i = false ↔ startAddr + i * pageSize ∉ s.outstanding
  allocMem : s.allocator.getAllocMem = s.outstanding.length * pageSize

/-! ## The bitmap and the pages -/

/-- The block that the allocator works on: pages of `2 ^ shift` bytes below the end of the address space. -/
structure Block (A : Arch) where
  startAddr : Nat
  endAddr : Nat
  shift : Nat
  start_dvd : 2 ^ shift ∣ startAddr
  end_dvd : 2 ^ shift ∣ endAddr
  start_lt : startAddr < endAddr
  end_lt : endAddr < A.wordLimit

namespace Block

variable {B : Block A}

/-- The address of a page. -/
def page (B : Block A) (i : Nat) : Nat :=
  B.startAddr + i * 2 ^ B.shift

/-- The pages of the block that the bitmap has a bit for. -/
def count (B : Block A) (bitmapWords : Nat) : Nat :=
  tracked A bitmapWords B.startAddr B.endAddr (2 ^ B.shift)

theorem shift_lt (B : Block A) : B.shift < A.wordBits := by
  have hle : 2 ^ B.shift ≤ B.endAddr := Nat.le_of_dvd (Nat.zero_lt_of_lt B.start_lt) B.end_dvd
  exact (Nat.pow_lt_pow_iff_right (by decide)).1 (hle.trans_lt B.end_lt)

theorem page_inj {i j : Nat} (h : B.page i = B.page j) : i = j :=
  Nat.eq_of_mul_eq_mul_right (Nat.two_pow_pos B.shift) (Nat.add_left_cancel h)

theorem page_lt {i : Nat} (h : i < B.count bitmapWords) : B.page i < B.endAddr := by
  have hi : i < (B.endAddr - B.startAddr) / 2 ^ B.shift := h.trans_le (Nat.min_le_left _ _)
  have hlt := (Nat.lt_div_iff_mul_lt (Nat.two_pow_pos B.shift)).1 hi
  rw [page]
  omega

theorem page_dvd (B : Block A) (i : Nat) : 2 ^ B.shift ∣ B.page i :=
  Nat.dvd_add B.start_dvd (Nat.dvd_mul_left _ _)

/-- The bit that `free` clears. -/
theorem page_shiftRight (B : Block A) (i : Nat) : B.page i >>> B.shift = B.startAddr / 2 ^ B.shift + i := by
  rw [page, Nat.shiftRight_eq_div_pow, Nat.add_mul_div_right _ _ (Nat.two_pow_pos B.shift)]

end Block

/-- The bits that are set are those of the pages that are outstanding. -/
structure Tracks (B : Block A) (s : State A bitmapWords) : Prop where
  pageSize : s.allocator.pageSize = 2 ^ B.shift
  pageShift : s.allocator.pageShift = B.shift
  startAddr : s.allocator.startAddr = B.startAddr
  endAddr : s.allocator.endAddr = B.endAddr
  bits : s.allocator.bitmap.bits = B.count bitmapWords
  nodup : s.outstanding.Nodup
  isPage : ∀ addr ∈ s.outstanding, ∃ i < B.count bitmapWords, addr = B.page i
  isSet : ∀ i, s.allocator.bitmap.isSet i = true ↔ i < B.count bitmapWords ∧ B.page i ∈ s.outstanding

namespace Tracks

variable {P : Profile} {B : Block A} {s s' : State A bitmapWords}

theorem init (B : Block A) (bitmapWords : Nat) :
    ∃ b : BufferedPageAllocator A bitmapWords, new A bitmapWords B.startAddr B.endAddr (2 ^ B.shift) = .ok b ∧
      Tracks B ⟨b, []⟩ := by
  have hshift := B.shift_lt
  have hstart := B.start_lt.trans B.end_lt
  have hsize : 2 ^ B.shift < A.wordLimit := Nat.pow_lt_pow_right (by decide) hshift
  have hlog : floorLog2 A (2 ^ B.shift) = B.shift := by
    rw [floorLog2_eq hsize, Nat.log2_two_pow]
  refine ⟨⟨Bitmap.new A bitmapWords ((B.endAddr - B.startAddr) >>> B.shift), 2 ^ B.shift, B.shift, B.startAddr,
    B.endAddr⟩, ?_, ?_⟩
  · rw [new, require_pos (isPowerOf2_iff.2 ⟨_, rfl⟩), run_ok_bind,
      require_pos ((isAligned_iff hstart hshift.le).2 B.start_dvd), run_ok_bind,
      require_pos ((isAligned_iff B.end_lt hshift.le).2 B.end_dvd), run_ok_bind, require_pos B.start_lt, run_ok_bind,
      hlog]
    rfl
  · refine ⟨rfl, rfl, rfl, rfl, ?_, List.nodup_nil, fun _ haddr => absurd haddr List.not_mem_nil, ?_⟩
    · rw [Bitmap.new_bits, Nat.shiftRight_eq_div_pow, Block.count, tracked]
    · intro i
      exact iff_of_false (by simp [Bitmap.isSet_new]) fun h => absurd h.2 List.not_mem_nil

/-- An outstanding page, or one that has its bit not set. -/
theorem isSet_iff (h : Tracks B s) {i : Nat} (hi : i < B.count bitmapWords) :
    s.allocator.bitmap.isSet i = true ↔ B.page i ∈ s.outstanding := by
  rw [h.isSet i, and_iff_right hi]

/-- `alloc` finds the first page that is not outstanding, or there is none. -/
theorem alloc_cases (h : Tracks B s) (P : Profile) :
    s.allocator.alloc P 1 = .ok (none, s.allocator) ∧ (∀ i < B.count bitmapWords, B.page i ∈ s.outstanding) ∨
      ∃ z < B.count bitmapWords, B.page z ∉ s.outstanding ∧ s.allocator.alloc P 1 =
        .ok (some (B.page z, 1), { s.allocator with bitmap := s.allocator.bitmap.setBit z }) := by
  match hzero : s.allocator.bitmap.firstZero with
  | none =>
      refine Or.inl ⟨?_, ?_⟩
      · simp only [alloc, hzero, ne_eq, not_true_eq_false, if_false]
      · intro i hi
        exact (h.isSet_iff hi).1 (Bitmap.firstZero_eq_none hzero i (h.bits ▸ hi))
  | some z =>
      rcases Bitmap.firstZero_eq_some hzero with ⟨hz, hfree, -⟩
      rw [h.bits] at hz
      have hpage : B.startAddr + z * 2 ^ B.shift < A.wordLimit := (Block.page_lt hz).trans B.end_lt
      refine Or.inr ⟨z, hz, ?_, ?_⟩
      · rw [← h.isSet_iff hz, hfree]
        exact Bool.false_ne_true
      · simp only [alloc, hzero, ne_eq, not_true_eq_false, if_false, h.pageSize, h.startAddr,
          mulWord_of_lt (show z * 2 ^ B.shift < A.wordLimit by omega), run_ok_bind, addWord_of_lt hpage]
        rfl

/-- The page that `alloc` returns becomes outstanding. -/
theorem alloc (h : Tracks B s) {z : Nat} (hz : z < B.count bitmapWords) (hfree : B.page z ∉ s.outstanding) :
    Tracks B ⟨{ s.allocator with bitmap := s.allocator.bitmap.setBit z }, B.page z :: s.outstanding⟩ := by
  refine ⟨h.pageSize, h.pageShift, h.startAddr, h.endAddr, ?_, List.nodup_cons.2 ⟨hfree, h.nodup⟩, ?_, ?_⟩
  · rw [Bitmap.setBit_bits, h.bits]
  · rintro addr haddr
    rcases List.mem_cons.1 haddr with rfl | haddr
    · exact ⟨z, hz, rfl⟩
    · exact h.isPage addr haddr
  · intro i
    rw [Bitmap.isSet_setBit (h.bits ▸ hz), Bool.or_eq_true, decide_eq_true_iff, h.isSet i, List.mem_cons]
    constructor
    · rintro (rfl | ⟨hi, hmem⟩)
      · exact ⟨hz, Or.inl rfl⟩
      · exact ⟨hi, Or.inr hmem⟩
    · rintro ⟨hi, heq | hmem⟩
      · exact Or.inl (Block.page_inj heq)
      · exact Or.inr ⟨hi, hmem⟩

/-- `free` of an outstanding page returns, and clears the bit of the page counted from address zero. -/
theorem free_eq (h : Tracks B s) {i : Nat} (hi : i < B.count bitmapWords) :
    s.allocator.free (B.page i) 1 = .ok { s.allocator with
      bitmap := s.allocator.bitmap.clearBit (B.startAddr / 2 ^ B.shift + i) } := by
  have hlt := Block.page_lt hi
  have hin : s.allocator.startAddr ≤ B.page i ∧ B.page i < s.allocator.endAddr := by
    rw [h.startAddr, h.endAddr]
    exact ⟨Nat.le_add_right _ _, hlt⟩
  have haligned : isAligned A (B.page i) s.allocator.pageSize = true := by
    rw [h.pageSize, isAligned_iff (hlt.trans B.end_lt) B.shift_lt.le]
    exact B.page_dvd i
  have hbit : B.page i >>> s.allocator.pageShift = B.startAddr / 2 ^ B.shift + i := by
    rw [h.pageShift, B.page_shiftRight]
  rw [BufferedPageAllocator.free, require_pos rfl, run_ok_bind, require_pos hin, run_ok_bind, require_pos haligned,
    run_ok_bind, hbit]
  rfl

/-- If the block starts at address zero, a page that is freed is not outstanding any more. -/
theorem free (h : Tracks B s) (hzero : B.startAddr = 0) {i : Nat} (hi : i < B.count bitmapWords) :
    Tracks B ⟨{ s.allocator with bitmap := s.allocator.bitmap.clearBit (B.startAddr / 2 ^ B.shift + i) },
      s.outstanding.erase (B.page i)⟩ := by
  rw [hzero, Nat.zero_div, Nat.zero_add]
  refine ⟨h.pageSize, h.pageShift, h.startAddr, h.endAddr, ?_, h.nodup.erase _, ?_, ?_⟩
  · rw [Bitmap.clearBit_bits, h.bits]
  · intro addr haddr
    exact h.isPage addr (List.mem_of_mem_erase haddr)
  · intro j
    rw [Bitmap.isSet_clearBit (h.bits ▸ hi), Bool.and_eq_true, Bool.not_eq_true', decide_eq_false_iff_not, h.isSet j,
      h.nodup.mem_erase_iff]
    constructor
    · rintro ⟨hne, hj, hmem⟩
      exact ⟨hj, fun heq => hne (Block.page_inj heq), hmem⟩
    · rintro ⟨hj, hne, hmem⟩
      refine ⟨?_, hj, hmem⟩
      rintro rfl
      exact hne rfl

/-- The number of bits that are set is that of the pages that are outstanding. -/
theorem card_marked (h : Tracks B s) : s.allocator.bitmap.marked.card = s.outstanding.length := by
  have himage : s.allocator.bitmap.marked.image B.page = s.outstanding.toFinset := by
    ext addr
    simp only [Bitmap.marked, Finset.mem_image, Finset.mem_filter, Finset.mem_range, List.mem_toFinset]
    constructor
    · rintro ⟨i, ⟨-, hset⟩, rfl⟩
      exact ((h.isSet i).1 hset).2
    · intro haddr
      rcases h.isPage addr haddr with ⟨i, hi, rfl⟩
      exact ⟨i, ⟨hi.trans_le (Nat.min_le_right _ _), (h.isSet_iff hi).2 haddr⟩, rfl⟩
  rw [← List.toFinset_card_of_nodup h.nodup, ← himage, Finset.card_image_of_injective _ fun _ _ => Block.page_inj]

theorem correct (h : Tracks B s) (P : Profile) : Correct P B.startAddr B.endAddr (2 ^ B.shift) s := by
  refine ⟨?_, ?_, ?_, ?_, ?_⟩
  · intro op hvalid
    cases op with
    | alloc =>
        rcases h.alloc_cases P with ⟨hrun, -⟩ | ⟨z, -, -, hrun⟩
        · exact ⟨_, by rw [step, hrun]; rfl⟩
        · exact ⟨_, by rw [step, hrun]; rfl⟩
    | free addr =>
        rcases h.isPage addr hvalid with ⟨i, hi, rfl⟩
        exact ⟨_, by rw [step, h.free_eq hi]; rfl⟩
  · intro page allocator hpage
    rcases h.alloc_cases P with ⟨hrun, -⟩ | ⟨z, hz, hfree, hrun⟩
    · cases hrun.symm.trans hpage
    · cases hrun.symm.trans hpage
      exact ⟨hfree, Nat.le_add_right _ _, Block.page_lt hz, B.page_dvd z, rfl⟩
  · intro allocator hnone
    rcases h.alloc_cases P with ⟨-, hall⟩ | ⟨z, -, -, hrun⟩
    · exact hall
    · cases hrun.symm.trans hnone
  · intro i hi
    rw [← Bool.not_eq_true]
    exact not_congr (h.isSet_iff hi)
  · rw [getAllocMem, Bitmap.ones_eq_card, h.card_marked, h.pageShift, Nat.shiftLeft_eq]

/-- Calls of `alloc` keep the bitmap right, calls of `free` do if the block starts at address zero. -/
theorem step {op : Op} (h : Tracks B s) (hvalid : op.Valid s) (hop : B.startAddr = 0 ∨ ∀ addr, op ≠ .free addr)
    (hstep : step P s op = .ok s') : Tracks B s' := by
  cases op with
  | alloc =>
      rcases h.alloc_cases P with ⟨hrun, -⟩ | ⟨z, hz, hfree, hrun⟩
      · rw [BufferedPageAllocator.step, hrun] at hstep
        obtain rfl := Except.ok.inj hstep
        exact h
      · rw [BufferedPageAllocator.step, hrun] at hstep
        obtain rfl := Except.ok.inj hstep
        exact h.alloc hz hfree
  | free addr =>
      rcases h.isPage addr hvalid with ⟨i, hi, rfl⟩
      rw [BufferedPageAllocator.step, h.free_eq hi] at hstep
      obtain rfl := Except.ok.inj hstep
      exact h.free (hop.resolve_right fun hne => hne _ rfl) hi

theorem reaches {ops : List Op} (h : Tracks B s) (hrun : Reaches P s ops s')
    (hops : B.startAddr = 0 ∨ ∀ addr, Op.free addr ∉ ops) : Tracks B s' := by
  refine Steps.Follows.invariant (I := fun s => Tracks B s) hrun ?_ h
  intro s op hmem s' hs hvalid hstep
  refine hs.step hvalid (hops.imp_right fun hnone addr heq => hnone addr ?_) hstep
  rwa [← heq]

/-- If the block does not start at address zero, a page that is freed keeps its bit. -/
theorem not_correct_of_free {addr : Nat} (h : Tracks B s) (hne : B.startAddr ≠ 0) (hvalid : addr ∈ s.outstanding)
    (hstep : BufferedPageAllocator.step P s (.free addr) = .ok s') :
    ¬ Correct P B.startAddr B.endAddr (2 ^ B.shift) s' := by
  rcases h.isPage addr hvalid with ⟨i, hi, rfl⟩
  rw [BufferedPageAllocator.step, h.free_eq hi] at hstep
  obtain rfl := Except.ok.inj hstep
  intro hcorrect
  have hnot : B.page i ∉ s.outstanding.erase (B.page i) := fun hmem => (h.nodup.mem_erase_iff.1 hmem).1 rfl
  have hclear := (hcorrect.allocatable i hi).2 hnot
  have hset := (h.isSet_iff hi).2 hvalid
  -- Another bit is cleared, if any.
  have hother : 0 < B.startAddr / 2 ^ B.shift :=
    Nat.div_pos (Nat.le_of_dvd (Nat.pos_of_ne_zero hne) B.start_dvd) (Nat.two_pow_pos _)
  by_cases hlt : B.startAddr / 2 ^ B.shift + i < s.allocator.bitmap.bits
  · rw [Bitmap.isSet_clearBit hlt, hset, decide_eq_false (by omega)] at hclear
    cases hclear
  · rw [Bitmap.clearBit, if_pos (Nat.le_of_not_lt hlt), hset] at hclear
    cases hclear

end Tracks

/-! ## Correct runs -/

/-- The allocator is correct in all states of a run exactly if its block starts at address zero or the run frees
no page. -/
theorem reaches_correct_iff {P : Profile} {startAddr endAddr pageSize : Nat} (hsize : isPowerOf2 pageSize = true)
    (hstart : pageSize ∣ startAddr) (hend : pageSize ∣ endAddr) (hlt : startAddr < endAddr)
    (hword : endAddr < A.wordLimit) :
    ∃ b : BufferedPageAllocator A bitmapWords, new A bitmapWords startAddr endAddr pageSize = .ok b ∧
      ∀ ops s, Reaches P ⟨b, []⟩ ops s →
        ((∀ before s₁, before <+: ops → Reaches P ⟨b, []⟩ before s₁ → Correct P startAddr endAddr pageSize s₁) ↔
          startAddr = 0 ∨ ∀ addr, Op.free addr ∉ ops) := by
  rcases isPowerOf2_iff.1 hsize with ⟨shift, rfl⟩
  rcases Tracks.init (⟨startAddr, endAddr, shift, hstart, hend, hlt, hword⟩ : Block A) bitmapWords with ⟨b, hnew, htracks⟩
  refine ⟨b, hnew, fun ops s hrun => ⟨?_, ?_⟩⟩
  · intro hall
    rw [or_iff_not_imp_left]
    intro hzero
    induction hrun with
    | refl => exact fun _ => List.not_mem_nil
    | @snoc ops op s' s'' hrun hvalid hstep ih =>
        have hnone := ih fun before s₁ hbefore => hall before s₁ (hbefore.trans (List.prefix_append _ _))
        intro addr hmem
        rcases List.mem_append.1 hmem with hmem | hmem
        · exact hnone addr hmem
        · -- The first page that is freed keeps its bit.
          obtain rfl := List.mem_singleton.1 hmem
          have htracks' := htracks.reaches hrun (Or.inr hnone)
          exact htracks'.not_correct_of_free hzero hvalid hstep (hall _ _ List.prefix_rfl (hrun.snoc hvalid hstep))
  · intro hops before s₁ hbefore hrun₁
    refine Tracks.correct (htracks.reaches hrun₁ ?_) P
    exact hops.imp_right fun hnone addr hmem => hnone addr (hbefore.subset hmem)

/-- The calls one after the other, with what is expected of them checked. -/
def run (P : Profile) : State A bitmapWords → List Op → Run (State A bitmapWords) :=
  Steps.trace .badBlock (fun s op => op.Valid s) (step P)

theorem reaches_of_run {P : Profile} {s s' : State A bitmapWords} {ops : List Op} (h : run P s ops = .ok s') :
    Reaches P s ops s' :=
  Steps.follows_of_trace h

/-- Two pages at the start of memory; the first one is freed. -/
theorem reaches_correct_two :
    isPowerOf2 4096 = true ∧ ∃ b : BufferedPageAllocator .arm 1, new .arm 1 0 0x2000 4096 = .ok b ∧
      ∃ s, Reaches .dev ⟨b, []⟩ [.alloc, .alloc, .free 0] s ∧ s.outstanding = [0x1000] ∧
        Correct .dev 0 0x2000 4096 s := by
  rcases @reaches_correct_iff .arm 1 .dev 0 0x2000 4096 (by decide) (by decide) (by decide) (by decide)
    (by decide) with ⟨b, hnew, h⟩
  have hmap : (do
      let b ← new .arm 1 0 0x2000 4096
      let s ← run .dev ⟨b, []⟩ [.alloc, .alloc, .free 0]
      return s.outstanding : Run (List Nat)) = .ok [0x1000] := by
    decide +kernel
  rw [hnew, run_ok_bind] at hmap
  rcases run_bind_eq_ok.1 hmap with ⟨s, hrun, hmap⟩
  have hreach := reaches_of_run hrun
  exact ⟨by decide, b, hnew, s, hreach, Except.ok.inj hmap,
    (h _ _ hreach).2 (Or.inl rfl) _ _ List.prefix_rfl hreach⟩

/-- Three pages behind the first one of the memory.  The first one of them is freed, and the second one is handed
out again. -/
theorem reaches_allocates_twice :
    ∃ (b : BufferedPageAllocator .arm 1) (s : State .arm 1), new .arm 1 0x1000 0x4000 4096 = .ok b ∧
      Reaches .dev ⟨b, []⟩ [.alloc, .alloc, .free 0x1000] s ∧ s.outstanding = [0x2000] ∧
      (s.allocator.alloc .dev 1).map Prod.fst = .ok (some (0x2000, 1)) ∧ ¬ Correct .dev 0x1000 0x4000 4096 s := by
  have hmap : (do
      let b ← new .arm 1 0x1000 0x4000 4096
      let s ← run .dev ⟨b, []⟩ [.alloc, .alloc, .free 0x1000]
      let r ← s.allocator.alloc .dev 1
      return (s.outstanding, r.1) : Run (List Nat × Option (Nat × Nat))) = .ok ([0x2000], some (0x2000, 1)) := by
    decide +kernel
  rcases run_bind_eq_ok.1 hmap with ⟨b, hnew, hmap⟩
  rcases run_bind_eq_ok.1 hmap with ⟨s, hrun, hmap⟩
  rcases run_bind_eq_ok.1 hmap with ⟨⟨page, allocator⟩, halloc, hmap⟩
  rcases Prod.mk.inj (Except.ok.inj hmap) with ⟨hout, hpage⟩
  simp only at hpage
  subst hpage
  refine ⟨b, s, hnew, reaches_of_run hrun, hout, by rw [halloc]; rfl, ?_⟩
  intro hcorrect
  have hfresh := (hcorrect.fresh _ _ halloc).1
  rw [hout] at hfresh
  exact hfresh List.mem_cons_self

end BufferedPageAllocator
end Propeller
