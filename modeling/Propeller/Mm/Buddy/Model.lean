import Mathlib.Logic.Function.Basic
import Propeller.Support.Bits

/-!
# Buddy.Model — `mm::page_allocator`

The buddy page allocator, function by function.  Two things of the source are not fields of its
`BuddyPageAllocator` structure and are made explicit here:

* the memory that holds the list nodes.  A node is the first three words of a page, so the memory
  the allocator can see is a function from page addresses to `BlockNode`;
* panics.  Every function returns in `Run`.

References to nodes are addresses.  A statement such as `head.prev = block_addr` writes through the
address at the time it runs, so two references to one node behave as they do in the source.
-/

namespace Propeller
namespace Buddy

/-- The number of block sizes: blocks are up to `2 ^ 10` pages long. -/
def BLOCK_LEVELS : Nat := 11

/-- Linked-list node placed at the beginning of each unallocated block. -/
structure BlockNode where
  next : Nat
  prev : Nat
  checksum : Nat
  deriving DecidableEq, Repr

def BlockNode.updateChecksum (A : Arch) (n : BlockNode) : BlockNode :=
  { n with checksum := xorChecksum A [n.prev, n.next] }

def BlockNode.verifyChecksum (A : Arch) (n : BlockNode) : Bool :=
  xorChecksum A [n.next, n.prev] == n.checksum

/-- Block level metadata. -/
structure BlockLevel where
  head : Nat
  offset : Nat
  deriving DecidableEq, Repr

/-- A range of physical addresses; the zone tag is not read by the allocator. -/
structure MemoryRange where
  base : Nat
  size : Nat
  deriving DecidableEq, Repr

/-- The allocator together with the memory its nodes live in. -/
structure State where
  base : Nat
  size : Nat
  levels : Nat → BlockLevel
  flags : List Nat
  allocMem : Nat
  freeMem : Nat
  mem : Nat → BlockNode

namespace State

def setHead (s : State) (level head : Nat) : State :=
  { s with levels := Function.update s.levels level { s.levels level with head := head } }

def setNode (s : State) (addr : Nat) (n : BlockNode) : State :=
  { s with mem := Function.update s.mem addr n }

/-- `node.next = next; node.update_checksum()`. -/
def setNext (A : Arch) (s : State) (addr next : Nat) : State :=
  s.setNode addr (({ s.mem addr with next := next } : BlockNode).updateChecksum A)

/-- `node.prev = prev; node.update_checksum()`. -/
def setPrev (A : Arch) (s : State) (addr prev : Nat) : State :=
  s.setNode addr (({ s.mem addr with prev := prev } : BlockNode).updateChecksum A)

/-- `node.prev = prev; node.next = next; node.update_checksum()`. -/
def setLinks (A : Arch) (s : State) (addr prev next : Nat) : State :=
  s.setNode addr (({ s.mem addr with prev := prev, next := next } : BlockNode).updateChecksum A)

end State

/-! ## Metadata layout -/

/-- The number of blocks at the first level and the initial offset. -/
def calcFirstLevel (size : Nat) : Nat × Nat :=
  (size >>> pageShift, 0)

/-- The number of blocks at the next level and the next level's offset. -/
def calcNextLevel (A : Arch) (level : Nat × Nat) : Nat × Nat :=
  let bits := (level.1 + 1) >>> 1
  (level.1 >>> 1, level.2 + ((bits + A.wordBits - 1) >>> A.wordBitShift))

/-- Blocks and offset of the level with index `l`. -/
def levelStart (A : Arch) (size l : Nat) : Nat × Nat :=
  (calcNextLevel A)^[l] (calcFirstLevel size)

def calcMetadataSize (A : Arch) (size : Nat) : Nat :=
  (levelStart A size BLOCK_LEVELS).2 <<< A.wordShift

def makeLevels (A : Arch) (size : Nat) : (Nat → BlockLevel) × Nat :=
  (fun l => { head := 0, offset := (levelStart A size l).2 },
    (levelStart A size BLOCK_LEVELS).2 <<< A.wordShift)

/-! ## Nodes and flags -/

/-- `get_block_node_unchecked_mut`: only the alignment of the address is checked. -/
def getBlockNodeUncheckedMut (A : Arch) (addr : Nat) : Run Unit :=
  require (alignDown A addr pageSize = addr) .alignment

/-- `get_block_node_mut`: the node at a page address with a valid checksum. -/
def getBlockNodeMut (A : Arch) (s : State) (addr : Nat) : Run BlockNode := do
  getBlockNodeUncheckedMut A addr
  require ((s.mem addr).verifyChecksum A = true) .checksum
  return s.mem addr

def getFlagIndexAndBit (A : Arch) (s : State) (blockAddr level : Nat) : Run (Nat × Nat) := do
  let offset ← checkedSub blockAddr s.base
  let pageNum := offset >>> pageShift
  let blockNum := pageNum >>> level
  let blockPair := blockNum >>> 1
  let index := (s.levels level).offset + (blockPair >>> A.wordBitShift)
  let bit := blockPair &&& (A.wordBits - 1)
  return (index, bit)

/-- `self.flags[index]`. -/
def getFlagWord (s : State) (index : Nat) : Run Nat :=
  match s.flags[index]? with
  | some w => .ok w
  | none => .error .index

/-- `self.flags[index] ^= 1 << bit_idx`. -/
def toggleFlag (s : State) (index bitIdx : Nat) : Run State := do
  let w ← getFlagWord s index
  return { s with flags := s.flags.set index (w ^^^ (1 <<< bitIdx)) }

/-! ## The level lists -/

/-- The node writes of `add_to_list`. -/
def linkBlock (A : Arch) (s : State) (level blockAddr : Nat) : Run State :=
  let headAddr := (s.levels level).head
  if headAddr = 0 then
    .ok ((s.setHead level blockAddr).setLinks A blockAddr blockAddr blockAddr)
  else do
    let head ← getBlockNodeMut A s headAddr
    let _ ← getBlockNodeMut A s head.prev
    let s := s.setLinks A blockAddr head.prev headAddr
    let s := s.setPrev A headAddr blockAddr
    return s.setNext A head.prev blockAddr

/-- Adds a block to the tail of a level's list of available blocks. -/
def addToList (A : Arch) (s : State) (level blockAddr : Nat) : Run State := do
  let (index, bitIdx) ← getFlagIndexAndBit A s blockAddr level
  getBlockNodeUncheckedMut A blockAddr
  let s ← linkBlock A s level blockAddr
  toggleFlag s index bitIdx

/-- The node writes of `remove_from_list`.  The head is read back from the removed node, after the
node has been cleared. -/
def unlinkBlock (A : Arch) (s : State) (level blockAddr : Nat) : Run State := do
  let headAddr := (s.levels level).head
  let block ← getBlockNodeMut A s blockAddr
  if block.next = blockAddr then
    require (block.prev = block.next) .listLinks
    require (headAddr = blockAddr) .listHead
    return s.setHead level 0
  else
    let _ ← getBlockNodeMut A s block.prev
    let _ ← getBlockNodeMut A s block.next
    let s := s.setPrev A block.next (s.mem blockAddr).prev
    let s := s.setNext A block.prev (s.mem blockAddr).next
    let s := s.setNode blockAddr { next := 0, prev := 0, checksum := 0 }
    if blockAddr = headAddr then
      return s.setHead level (s.mem blockAddr).next
    else
      return s

/-- Removes a specific block from a level's free list. -/
def removeFromList (A : Arch) (s : State) (level blockAddr : Nat) : Run State := do
  let (index, bitIdx) ← getFlagIndexAndBit A s blockAddr level
  let s ← unlinkBlock A s level blockAddr
  toggleFlag s index bitIdx

/-- Pop the head of a level's free list. -/
def popFromList (A : Arch) (s : State) (level : Nat) : Run (Nat × State) := do
  let headAddr := (s.levels level).head
  let s ← removeFromList A s level headAddr
  return (headAddr, s)

/-! ## Allocation -/

/-- The splitting loop over the levels `minLevel + n - 1, …, minLevel`. -/
def splitLoop (A : Arch) (blockAddr minLevel : Nat) : Nat → State → Run State
  | 0, s => .ok s
  | n + 1, s => do
      let buddyAddr := blockAddr ||| (pageSize <<< (minLevel + n))
      let s ← addToList A s (minLevel + n) buddyAddr
      splitLoop A blockAddr minLevel n s

/-- Split a free block until it is the required size. -/
def splitFreeBlock (A : Arch) (s : State) (level minLevel : Nat) : Run (Nat × State) := do
  let (blockAddr, s) ← popFromList A s level
  let s ← splitLoop A blockAddr minLevel (level - minLevel) s
  return (blockAddr, s)

/-- The search of `allocate` over the `n` levels from `level` on. -/
def allocateLoop (A : Arch) (minLevel : Nat) :
    Nat → Nat → State → Run (Option (Nat × Nat) × State)
  | 0, _, s => .ok (none, s)
  | n + 1, level, s =>
      if (s.levels level).head = 0 then
        allocateLoop A minLevel n (level + 1) s
      else do
        let (block, s) ← splitFreeBlock A s level minLevel
        let pages := 1 <<< minLevel
        let blockSize := pages <<< pageShift
        let freeMem ← checkedSub s.freeMem blockSize
        let allocMem ← checkedAdd A s.allocMem blockSize
        return (some (block, pages), { s with freeMem := freeMem, allocMem := allocMem })

/-- Attempts to allocate a contiguous block of pages. -/
def allocate (A : Arch) (s : State) (pages : Nat) : Run (Option (Nat × Nat) × State) :=
  if pages = 0 then
    .ok (none, s)
  else
    let minLevel := ceilLog2 A pages
    allocateLoop A minLevel (BLOCK_LEVELS - minLevel) minLevel s

/-! ## Freeing -/

/-- The address of a block's buddy, relative to the beginning of the allocator's memory. -/
def buddyAddr (s : State) (base level : Nat) : Nat :=
  ((base - s.base) ^^^ ((1 <<< level) <<< pageShift)) + s.base

/-- The coalescing loop of `free` over the `n` levels from `level` on. -/
def freeLoop (A : Arch) : Nat → Nat → Nat → State → Run State
  | 0, _, _, s => .ok s
  | n + 1, level, base, s => do
      let (index, bitIdx) ← getFlagIndexAndBit A s base level
      let word ← getFlagWord s index
      if word &&& (1 <<< bitIdx) = 0 then
        addToList A s level base
      else
        let buddy := buddyAddr s base level
        let s ← removeFromList A s level buddy
        freeLoop A n (level + 1) (min base buddy) s

/-- Frees a block of memory. -/
def free (A : Arch) (s : State) (base pages : Nat) : Run State :=
  if base = 0 ∨ pages = 0 then
    .ok s
  else do
    require (isPowerOf2 pages = true) .badBlock
    let minLevel := floorLog2 A pages
    require (minLevel < BLOCK_LEVELS) .badBlock
    let blockSize := pages <<< pageShift
    require (base &&& (blockSize - 1) = 0) .badBlock
    let blockEnd ← checkedAdd A base blockSize
    let allocEnd ← checkedAdd A s.base (s.size - 1)
    require (s.base ≤ base ∧ blockEnd - 1 ≤ allocEnd) .badBlock
    let s ← freeLoop A (BLOCK_LEVELS - minLevel) minLevel base s
    let freeMem ← checkedAdd A s.freeMem blockSize
    let allocMem ← checkedSub s.allocMem blockSize
    return { s with freeMem := freeMem, allocMem := allocMem }

/-! ## Construction -/

/-- The tiling loop of `init_metadata` for one available range. -/
def initRange (A : Arch) : Nat → Nat → Nat → State → Run State
  | 0, _, _, _ => .error .diverges
  | fuel + 1, addr, remaining, s =>
      if remaining < pageSize then
        .ok s
      else do
        let pageNum := addr >>> pageShift
        let addrAlign := leastSignificantBit A pageNum
        let maxLevel := min (floorLog2 A addrAlign) (BLOCK_LEVELS - 1)
        let pagesRemaining := remaining >>> pageShift
        let level := min (floorLog2 A pagesRemaining) maxLevel
        let size := (1 <<< level) <<< pageShift
        let s ← addToList A s level addr
        let addr ← checkedAdd A addr size
        let remaining ← checkedSub remaining size
        initRange A fuel addr remaining s

/-- The loop of `init_metadata` over the available ranges. -/
def initRanges (A : Arch) : List MemoryRange → State → Run State
  | [], s => .ok s
  | r :: rs, s => do
      let s ← initRange A ((r.size >>> pageShift) + 1) r.base r.size s
      initRanges A rs s

/-- Initializes the allocator's linked list and accounting metadata. -/
def initMetadata (A : Arch) (s : State) (avail : List MemoryRange) : Run State :=
  initRanges A avail { s with flags := s.flags.map (fun _ => 0) }

/-- The validation loop of `new`; the result is the free memory, or none for a bad range. -/
def checkRanges (A : Arch) (base areaEnd : Nat) : List MemoryRange → Nat → Run (Option Nat)
  | [], freeMem => .ok (some freeMem)
  | r :: rs, freeMem => do
      let last ← checkedSub r.size 1
      let rangeEnd ← checkedAdd A r.base last
      if r.base < base ∨ areaEnd < rangeEnd then
        return none
      else
        let freeMem ← checkedAdd A freeMem r.size
        checkRanges A base areaEnd rs freeMem

/-- Construct a new page allocator for a given contiguous memory area.  `metadata` is the address of
the flag words and `mem` is whatever the area's memory holds before. -/
def new (A : Arch) (cfg : KernelConfig) (base size metadata : Nat) (avail : List MemoryRange)
    (mem : Nat → BlockNode) : Run (Option State) := do
  let maxPhysical := getMaximumPhysicalAddress A cfg
  if maxPhysical < base then
    return none
  let last ← checkedSub size 1
  if maxPhysical - base < last then
    return none
  let limit ← checkedAdd A base size
  let areaEnd := limit - 1
  let base ← alignUp A base pageSize
  let span ← checkedSub areaEnd base
  let size := alignDown A (span + 1) pageSize
  if size < pageSize then
    return none
  if metadata = 0 then
    return none
  if avail.isEmpty then
    return none
  match ← checkRanges A base areaEnd avail 0 with
  | none => return none
  | some freeMem =>
      let (levels, metaSize) := makeLevels A size
      let s : State :=
        { base := base
          size := size
          levels := levels
          flags := List.replicate (metaSize >>> A.wordShift) 0
          allocMem := 0
          freeMem := freeMem
          mem := mem }
      let s ← initMetadata A s avail
      return some s

end Buddy
end Propeller
