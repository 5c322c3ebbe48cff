import Propeller.Support.Bits

/-!
# Slab.Model — the slab layer of `mm/slab_allocator.rs`

A `SlabManager` cuts page blocks into wrapped objects and keeps the slabs on three circular lists.  All
its bookkeeping lies in the slabs themselves, so it is modelled on a word-addressed memory: a slab node
is five words at the end of its slab, and the link of a free object is the word behind the object.

The source works on references that alias the memory.  Every field access below reads the memory as
the writes before it have left it.

The page allocator is outside the slab layer: `grant` is the answer it would give to the one request
a call may make.
-/

namespace Propeller
namespace Slab

/-- Memory as words at word-aligned linear virtual addresses. -/
abbrev Mem : Type := Nat → Nat

/-- Where `ObjectWrapper<T>` has its `next` word. -/
structure Layout (A : Arch) where
  objSize : Nat
  nextOff : Nat
  size_dvd : A.wordBytes ∣ objSize
  next_dvd : A.wordBytes ∣ nextOff
  next_le : nextOff + A.wordBytes ≤ objSize

/-! ## Slab nodes -/

structure SlabNode where
  avail : Nat
  free : Nat
  prev : Nat
  next : Nat
  checksum : Nat
  deriving DecidableEq, Repr

def SlabNode.updateChecksum (A : Arch) (n : SlabNode) : SlabNode :=
  { n with checksum := xorChecksum A [n.avail, n.free, n.prev, n.next] }

def SlabNode.verifyChecksum (A : Arch) (n : SlabNode) : Bool :=
  xorChecksum A [n.avail, n.free, n.prev, n.next] == n.checksum

/-- `size_of::<SlabNode>()`. -/
def nodeSize (A : Arch) : Nat :=
  5 * A.wordBytes

/-- The node at `addr`. -/
def readNode (A : Arch) (m : Mem) (addr : Nat) : SlabNode where
  avail := m addr
  free := m (addr + A.wordBytes)
  prev := m (addr + 2 * A.wordBytes)
  next := m (addr + 3 * A.wordBytes)
  checksum := m (addr + 4 * A.wordBytes)

/-- The five words of a node. -/
def writeNode (A : Arch) (m : Mem) (addr : Nat) (n : SlabNode) : Mem := fun a =>
  if a = addr then n.avail
  else if a = addr + A.wordBytes then n.free
  else if a = addr + 2 * A.wordBytes then n.prev
  else if a = addr + 3 * A.wordBytes then n.next
  else if a = addr + 4 * A.wordBytes then n.checksum
  else m a

/-- `node.prev = prev; node.update_checksum()`. -/
def setPrev (A : Arch) (m : Mem) (addr prev : Nat) : Mem :=
  writeNode A m addr (SlabNode.updateChecksum A { readNode A m addr with prev })

/-- `node.next = next; node.update_checksum()`. -/
def setNext (A : Arch) (m : Mem) (addr next : Nat) : Mem :=
  writeNode A m addr (SlabNode.updateChecksum A { readNode A m addr with next })

/-- `node.prev = prev; node.next = next; node.update_checksum()`. -/
def setLinks (A : Arch) (m : Mem) (addr prev next : Nat) : Mem :=
  writeNode A m addr (SlabNode.updateChecksum A { readNode A m addr with prev, next })

/-- `node.avail = avail; node.free = free; node.update_checksum()`. -/
def setFree (A : Arch) (m : Mem) (addr avail free : Nat) : Mem :=
  writeNode A m addr (SlabNode.updateChecksum A { readNode A m addr with avail, free })

def getSlabNodeUncheckedMut (A : Arch) (m : Mem) (nodeAddr : Nat) : Run SlabNode := do
  require (nodeAddr ≠ 0) .unwrap
  return readNode A m nodeAddr

def getSlabNodeMut (A : Arch) (m : Mem) (nodeAddr : Nat) : Run SlabNode := do
  let node ← getSlabNodeUncheckedMut A m nodeAddr
  require (node.verifyChecksum A = true) .checksum
  return node

/-! ## Slab lists -/

def addSlabToTail (A : Arch) (list nodeAddr : Nat) (m : Mem) : Run (Nat × Mem) :=
  if nodeAddr = 0 then .ok (list, m)
  else do
    let _ ← getSlabNodeMut A m nodeAddr
    if list = 0 then
      return (nodeAddr, setLinks A m nodeAddr nodeAddr nodeAddr)
    else do
      let head ← getSlabNodeMut A m list
      let _ ← getSlabNodeMut A m head.prev
      let m := setLinks A m nodeAddr head.prev list
      let m := setPrev A m list nodeAddr
      let m := setNext A m head.prev nodeAddr
      return (list, m)

def removeSlabFromList (A : Arch) (list nodeAddr : Nat) (m : Mem) : Run (Nat × Mem) :=
  if nodeAddr = 0 then .ok (list, m)
  else do
    let node ← getSlabNodeMut A m nodeAddr
    if node.prev = nodeAddr ∧ node.next = nodeAddr then
      return (0, setLinks A m nodeAddr 0 0)
    else do
      let _ ← getSlabNodeMut A m node.next
      let _ ← getSlabNodeMut A m node.prev
      let m := setPrev A m node.next (readNode A m nodeAddr).prev
      let m := setNext A m node.prev (readNode A m nodeAddr).next
      let m := setLinks A m nodeAddr 0 0
      return (if list = nodeAddr then (readNode A m node.prev).next else list, m)

/-! ## The manager -/

structure SlabManager where
  slabPages : Nat
  objsPerSlab : Nat
  unused : Nat
  inUse : Nat
  empty : Nat
  slabsAllocated : Nat
  objectsAllocated : Nat
  objectsAvailable : Nat
  deriving DecidableEq, Repr

/-- The three lists of slabs. -/
inductive Kind
  | unused
  | inUse
  | empty
  deriving DecidableEq, Repr

namespace SlabManager

def head (g : SlabManager) : Kind → Nat
  | .unused => g.unused
  | .inUse => g.inUse
  | .empty => g.empty

def setHead (g : SlabManager) (addr : Nat) : Kind → SlabManager
  | .unused => { g with unused := addr }
  | .inUse => { g with inUse := addr }
  | .empty => { g with empty := addr }

/-- The size of a slab in bytes. -/
def slabSize (g : SlabManager) : Nat :=
  g.slabPages * pageSize

end SlabManager

def MIN_OBJECTS_PER_SLAB : Nat := 7

/-- `SlabManager::new`; `maxBlockPages` is the `MAX_BLOCK_PAGES` of the page allocator. -/
def new (A : Arch) (ly : Layout A) (maxBlockPages : Nat) : Run SlabManager := do
  let minSlabSize := ly.objSize * MIN_OBJECTS_PER_SLAB + nodeSize A
  require (minSlabSize + pageSize - 1 < A.wordLimit) .overflow
  let slabPages := 1 <<< ceilLog2 A ((minSlabSize + pageSize - 1) / pageSize)
  require (slabPages ≤ maxBlockPages) .slabSize
  let slabSize := slabPages * pageSize
  require (slabSize < A.wordLimit) .overflow
  let objsPerSlab := (slabSize - nodeSize A) / ly.objSize
  require (0 < objsPerSlab) .slabSize
  return ⟨slabPages, objsPerSlab, 0, 0, 0, 0, 0, 0⟩

/-- `remove_slab_from_list` followed by `add_slab_to_tail`, as `alloc` and `free` move a slab. -/
def moveSlab (A : Arch) (src dst : Kind) (nodeAddr : Nat) (g : SlabManager) (m : Mem) :
    Run (SlabManager × Mem) := do
  let (list, m) ← removeSlabFromList A (g.head src) nodeAddr m
  let g := g.setHead list src
  let (list, m) ← addSlabToTail A (g.head dst) nodeAddr m
  return (g.setHead list dst, m)

/-- A slab is moved under a condition. -/
def moveSlabIf (A : Arch) (cond : Prop) [Decidable cond] (src dst : Kind) (nodeAddr : Nat)
    (g : SlabManager) (m : Mem) : Run (SlabManager × Mem) :=
  if cond then moveSlab A src dst nodeAddr g m else .ok (g, m)

/-- `get_object_mut`: the address of the wrapper's `next` word. -/
def getObjectMut {A : Arch} (ly : Layout A) (objAddr : Nat) : Run Nat := do
  require (objAddr ≠ 0) .unwrap
  return objAddr + ly.nextOff

/-- The loop of `alloc_slab`: put `n` objects from `objAddr` on in front of the free list. -/
def linkObjects {A : Arch} (ly : Layout A) (nodeAddr : Nat) : Nat → Nat → Mem → Run Mem
  | 0, _, m => .ok m
  | n + 1, objAddr, m => do
      let next ← getObjectMut ly objAddr
      let m := Function.update m next (m (nodeAddr + A.wordBytes))
      let m := Function.update m (nodeAddr + A.wordBytes) objAddr
      let objAddr ← checkedAdd A objAddr ly.objSize
      linkObjects ly nodeAddr n objAddr m

def allocSlab (A : Arch) (ly : Layout A) (virtBase : Nat) (grant : Option Nat) (g : SlabManager)
    (m : Mem) : Run (Option Nat × SlabManager × Mem) :=
  match grant with
  | none => .ok (none, g, m)
  | some physAddr => do
      let virtAddr ← checkedAdd A physAddr virtBase
      let slabEnd ← checkedAdd A virtAddr g.slabSize
      let nodeAddr ← checkedSub slabEnd (nodeSize A)
      let node ← getSlabNodeUncheckedMut A m nodeAddr
      let m := writeNode A m nodeAddr
        { node with avail := g.objsPerSlab, free := 0, prev := 0, next := 0 }
      let m ← linkObjects ly nodeAddr g.objsPerSlab virtAddr m
      let m := writeNode A m nodeAddr ((readNode A m nodeAddr).updateChecksum A)
      let slabsAllocated ← checkedAdd A g.slabsAllocated 1
      let objectsAvailable ← checkedAdd A g.objectsAvailable g.objsPerSlab
      return (some nodeAddr, { g with slabsAllocated, objectsAvailable }, m)

/-- The block that `alloc` takes from the page allocator: it asks for one only when it has no slab with
a free object. -/
def SlabManager.taken (g : SlabManager) (grant : Option Nat) : Option Nat :=
  if g.inUse = 0 ∧ g.unused = 0 then grant else none

/-- The part of `alloc` that finds a slab with a free object, if it can. -/
def findSlab (A : Arch) (ly : Layout A) (virtBase : Nat) (grant : Option Nat) (g : SlabManager)
    (m : Mem) : Run (SlabManager × Mem) := do
  let (g, m) ← moveSlabIf A (g.inUse = 0 ∧ g.unused ≠ 0) .unused .inUse g.unused g m
  if g.inUse = 0 then do
    let (node, g, m) ← allocSlab A ly virtBase grant g m
    let (list, m) ← addSlabToTail A g.inUse (node.getD 0) m
    return ({ g with inUse := list }, m)
  else return (g, m)

/-- The part of `alloc` that takes an object off the first slab in use. -/
def takeObject (A : Arch) (ly : Layout A) (g : SlabManager) (m : Mem) :
    Run (Nat × SlabManager × Mem) := do
  let node ← getSlabNodeMut A m g.inUse
  require (node.free ≠ 0) .slabState
  require (0 < node.avail) .slabState
  let objAddr := node.free
  let next ← getObjectMut ly objAddr
  let m := setFree A m g.inUse (node.avail - 1) (m next)
  let m := Function.update m next A.poison
  let (g, m) ← moveSlabIf A ((readNode A m g.inUse).avail = 0) .inUse .empty g.inUse g m
  let objectsAllocated ← checkedAdd A g.objectsAllocated 1
  let objectsAvailable ← checkedSub g.objectsAvailable 1
  return (objAddr, { g with objectsAllocated, objectsAvailable }, m)

/-- `SlabManager::alloc`. -/
def alloc (A : Arch) (ly : Layout A) (virtBase : Nat) (grant : Option Nat) (g : SlabManager)
    (m : Mem) : Run (Option Nat × SlabManager × Mem) := do
  let (g, m) ← findSlab A ly virtBase grant g m
  if g.inUse = 0 then return (none, g, m)
  else do
    let (objAddr, g, m) ← takeObject A ly g m
    return (some objAddr, g, m)

/-- The node of the slab that an object address lies in. -/
def nodeOfObject (A : Arch) (g : SlabManager) (objAddr : Nat) : Run Nat := do
  let slabAddr := alignDown A objAddr g.slabSize
  let slabEnd ← checkedAdd A slabAddr g.slabSize
  checkedSub slabEnd (nodeSize A)

/-- `SlabManager::free`. -/
def free (A : Arch) (ly : Layout A) (objAddr : Nat) (g : SlabManager) (m : Mem) :
    Run (SlabManager × Mem) :=
  if objAddr = 0 then .ok (g, m)
  else do
    let nodeAddr ← nodeOfObject A g objAddr
    let node ← getSlabNodeMut A m nodeAddr
    require (node.avail < g.objsPerSlab) .slabState
    let (g, m) ← moveSlabIf A (node.avail = 0) .empty .inUse nodeAddr g m
    let next ← getObjectMut ly objAddr
    require (m next = A.poison) .notPoisoned
    let m := Function.update m next (readNode A m nodeAddr).free
    let avail ← checkedAdd A (readNode A m nodeAddr).avail 1
    let m := setFree A m nodeAddr avail objAddr
    let (g, m) ← moveSlabIf A ((readNode A m nodeAddr).avail = g.objsPerSlab) .inUse .unused nodeAddr g m
    let objectsAllocated ← checkedSub g.objectsAllocated 1
    let objectsAvailable ← checkedAdd A g.objectsAvailable 1
    return ({ g with objectsAllocated, objectsAvailable }, m)

end Slab
end Propeller
