import Propeller.Mm.Slab.Model

/-!
# Slab.Allocator — the bundle layer and the core caches

A `BundleManager` keeps two stacks of bundles, the empty and the full ones, linked through the `next`
word behind each bundle.  Every core has a `CoreCache` with two bundles.  `alloc_internal` and
`free_internal` run on all cores at once; they are cut here where they take or release a spin lock
(`Pc`): what happens under one lock, together with the core's own bookkeeping behind it, is one step.
-/

namespace Propeller
namespace Slab

def BUNDLE_SIZE : Nat := 16

/-- `ObjectWrapper<BundleWrapper>`: sixteen slots, the `next` word of the bundle, and the link of the slab
layer. -/
def bundleLayout (A : Arch) : Layout A where
  objSize := (BUNDLE_SIZE + 2) * A.wordBytes
  nextOff := (BUNDLE_SIZE + 1) * A.wordBytes
  size_dvd := Nat.dvd_mul_left _ _
  next_dvd := Nat.dvd_mul_left _ _
  next_le := by rw [← Nat.succ_mul]

/-! ## The bundle layer -/

structure BundleManager where
  bundleAlloc : SlabManager
  empty : Nat
  full : Nat
  deriving DecidableEq, Repr

/-- `get_bundle_wrapper_mut`: the address of the bundle's `next` word. -/
def getBundleWrapperMut (A : Arch) (bundleAddr : Nat) : Run Nat := do
  require (bundleAddr ≠ 0) .unwrap
  return bundleAddr + BUNDLE_SIZE * A.wordBytes

/-- Put a bundle in front of a list; the new head is returned. -/
def returnBundle (A : Arch) (bundleAddr list : Nat) (m : Mem) : Run (Nat × Mem) :=
  if bundleAddr = 0 then .ok (list, m)
  else do
    let next ← getBundleWrapperMut A bundleAddr
    require (m next = A.poison) .notPoisoned
    return (bundleAddr, Function.update m next list)

/-- Take the first bundle off a list that is not empty; the bundle and the new head are returned. -/
def popBundle (A : Arch) (list : Nat) (m : Mem) : Run (Nat × Nat × Mem) := do
  let next ← getBundleWrapperMut A list
  return (list, m next, Function.update m next A.poison)

/-- The first part of `alloc_empty_bundle`: allocate a bundle if the manager has no empty one. -/
def refillEmpty (A : Arch) (virtBase : Nat) (grant : Option Nat) (b : BundleManager) (m : Mem) :
    Run (BundleManager × Mem) :=
  if b.empty = 0 then do
    let (bundle, bundleAlloc, m) ← alloc A (bundleLayout A) virtBase grant b.bundleAlloc m
    match bundle with
    | none => return ({ b with bundleAlloc }, m)
    | some bundleAddr => do
        let next ← getBundleWrapperMut A bundleAddr
        return ({ b with bundleAlloc, empty := bundleAddr }, Function.update m next 0)
  else .ok (b, m)

def allocEmptyBundle (A : Arch) (virtBase : Nat) (grant : Option Nat) (b : BundleManager) (m : Mem) :
    Run (Option Nat × BundleManager × Mem) := do
  let (b, m) ← refillEmpty A virtBase grant b m
  if b.empty = 0 then return (none, b, m)
  else do
    let (bundleAddr, empty, m) ← popBundle A b.empty m
    return (some bundleAddr, { b with empty }, m)

def exchangeEmptyBundle (A : Arch) (bundleAddr : Nat) (b : BundleManager) (m : Mem) :
    Run (Option Nat × BundleManager × Mem) :=
  if b.full = 0 then .ok (none, b, m)
  else do
    let (empty, m) ← returnBundle A bundleAddr b.empty m
    let (retAddr, full, m) ← popBundle A b.full m
    return (some retAddr, { b with empty, full }, m)

def exchangeFullBundle (A : Arch) (virtBase : Nat) (grant : Option Nat) (bundleAddr : Nat)
    (b : BundleManager) (m : Mem) : Run (Option Nat × BundleManager × Mem) := do
  let (full, m) ← returnBundle A bundleAddr b.full m
  allocEmptyBundle A virtBase grant { b with full } m

/-! ## Core caches -/

structure CoreCache where
  current : Nat
  currCount : Nat
  standby : Nat
  stbyCount : Nat
  deriving DecidableEq, Repr

def CoreCache.new : CoreCache :=
  ⟨0, 0, 0, 0⟩

def swapCacheBundles (cache : CoreCache) : CoreCache :=
  ⟨cache.standby, cache.stbyCount, cache.current, cache.currCount⟩

/-- The slot `i` of a bundle. -/
def slotAddr (A : Arch) (bundleAddr i : Nat) : Nat :=
  bundleAddr + i * A.wordBytes

def allocFromCache (A : Arch) (cache : CoreCache) (m : Mem) : Run (Nat × CoreCache) := do
  require (cache.current ≠ 0) .unwrap
  let i ← checkedSub cache.currCount 1
  require (i < BUNDLE_SIZE) .index
  return (m (slotAddr A cache.current i), { cache with currCount := i })

def releaseToCache (A : Arch) (cache : CoreCache) (objAddr : Nat) (m : Mem) :
    Run (CoreCache × Mem) := do
  require (cache.current ≠ 0) .unwrap
  require (cache.currCount < BUNDLE_SIZE) .index
  return ({ cache with currCount := cache.currCount + 1 },
    Function.update m (slotAddr A cache.current cache.currCount) objAddr)

/-! ## The allocator and its cores -/

structure SlabAllocator where
  cache : Nat → CoreCache
  objAlloc : SlabManager
  bundleMgr : BundleManager
  mem : Mem

/-- Where a core is in `alloc_internal` or `free_internal`. -/
inductive Pc
  /-- in no call -/
  | idle
  /-- before the lazy allocation of the current bundle -/
  | allocCurrent
  /-- before the lazy allocation of the standby bundle -/
  | allocStandby
  /-- before cases 1 and 2 of `alloc_internal` -/
  | allocCases
  /-- before case 3 of `alloc_internal` -/
  | allocExchange
  /-- before the allocation from the slab layer -/
  | allocDirect
  /-- before cases 1 and 2 of `free_internal` -/
  | freeCases (objAddr : Nat)
  /-- before case 3 of `free_internal` -/
  | freeExchange (objAddr : Nat)
  /-- behind case 3 of `free_internal` -/
  | freeRelease (objAddr : Nat)
  /-- before the release to the slab layer -/
  | freeDirect (objAddr : Nat)
  deriving DecidableEq, Repr

/-- What one step of a core leaves behind: the allocator, where the core goes on, and the object that a
call of `alloc_internal` has returned, if it has. -/
structure Outcome where
  alloc : SlabAllocator
  pc : Pc
  obj : Option Nat

variable {A : Arch}

/-- One step of core `i`; `grant` is the page allocator's answer, should it be asked. -/
def coreStep (ly : Layout A) (virtBase : Nat) (grant : Option Nat) (i : Nat) (s : SlabAllocator) :
    Pc → Run Outcome
  | .idle => .ok ⟨s, .idle, none⟩
  | .allocCurrent =>
      if (s.cache i).current = 0 then do
        let (bundle, bundleMgr, mem) ← allocEmptyBundle A virtBase grant s.bundleMgr s.mem
        let cache := { s.cache i with current := bundle.getD 0 }
        return ⟨{ s with cache := Function.update s.cache i cache, bundleMgr, mem }, .allocStandby, none⟩
      else .ok ⟨s, .allocStandby, none⟩
  | .allocStandby =>
      if (s.cache i).standby = 0 then do
        let (bundle, bundleMgr, mem) ← allocEmptyBundle A virtBase grant s.bundleMgr s.mem
        let cache := { s.cache i with standby := bundle.getD 0 }
        return ⟨{ s with cache := Function.update s.cache i cache, bundleMgr, mem }, .allocCases, none⟩
      else .ok ⟨s, .allocCases, none⟩
  | .allocCases =>
      if 0 < (s.cache i).currCount then do
        let (obj, cache) ← allocFromCache A (s.cache i) s.mem
        return ⟨{ s with cache := Function.update s.cache i cache }, .idle, some obj⟩
      else if 0 < (s.cache i).stbyCount then do
        let (obj, cache) ← allocFromCache A (swapCacheBundles (s.cache i)) s.mem
        return ⟨{ s with cache := Function.update s.cache i cache }, .idle, some obj⟩
      else .ok ⟨s, .allocExchange, none⟩
  | .allocExchange => do
      let (bundle, bundleMgr, mem) ← exchangeEmptyBundle A (s.cache i).current s.bundleMgr s.mem
      match bundle with
      | some bundleAddr => do
          let cache := { s.cache i with standby := bundleAddr, stbyCount := BUNDLE_SIZE }
          let (obj, cache) ← allocFromCache A (swapCacheBundles cache) mem
          return ⟨{ s with cache := Function.update s.cache i cache, bundleMgr, mem }, .idle, some obj⟩
      | none => return ⟨{ s with bundleMgr, mem }, .allocDirect, none⟩
  | .allocDirect => do
      let (obj, objAlloc, mem) ← alloc A ly virtBase grant s.objAlloc s.mem
      return ⟨{ s with objAlloc, mem }, .idle, obj⟩
  | .freeCases objAddr => do
      require (objAddr ≠ 0) .nullObject
      if (s.cache i).currCount < BUNDLE_SIZE ∧ (s.cache i).current ≠ 0 then do
        let (cache, mem) ← releaseToCache A (s.cache i) objAddr s.mem
        return ⟨{ s with cache := Function.update s.cache i cache, mem }, .idle, none⟩
      else if (s.cache i).stbyCount < BUNDLE_SIZE ∧ (s.cache i).standby ≠ 0 then do
        let (cache, mem) ← releaseToCache A (swapCacheBundles (s.cache i)) objAddr s.mem
        return ⟨{ s with cache := Function.update s.cache i cache, mem }, .idle, none⟩
      else return ⟨s, .freeExchange objAddr, none⟩
  | .freeExchange objAddr => do
      let (bundle, bundleMgr, mem) ←
        exchangeFullBundle A virtBase grant (s.cache i).standby s.bundleMgr s.mem
      match bundle with
      | some bundleAddr =>
          let cache := swapCacheBundles { s.cache i with standby := bundleAddr, stbyCount := 0 }
          return ⟨{ s with cache := Function.update s.cache i cache, bundleMgr, mem },
            .freeRelease objAddr, none⟩
      | none => return ⟨{ s with bundleMgr, mem }, .freeRelease objAddr, none⟩
  | .freeRelease objAddr =>
      if (s.cache i).current ≠ 0 ∧ (s.cache i).currCount < BUNDLE_SIZE then do
        let (cache, mem) ← releaseToCache A (s.cache i) objAddr s.mem
        return ⟨{ s with cache := Function.update s.cache i cache, mem }, .idle, none⟩
      else .ok ⟨s, .freeDirect objAddr, none⟩
  | .freeDirect objAddr => do
      let (objAlloc, mem) ← free A ly objAddr s.objAlloc s.mem
      return ⟨{ s with objAlloc, mem }, .idle, none⟩

/-- The size of the block that the slab layer asks the page allocator for, if it asks. -/
def SlabManager.request (g : SlabManager) : Option Nat :=
  if g.inUse = 0 ∧ g.unused = 0 then some g.slabSize else none

def BundleManager.request (b : BundleManager) : Option Nat :=
  if b.empty = 0 then b.bundleAlloc.request else none

/-- The size of the block that a step of core `i` asks the page allocator for, if it asks. -/
def SlabAllocator.request (s : SlabAllocator) (i : Nat) : Pc → Option Nat
  | .allocCurrent => if (s.cache i).current = 0 then s.bundleMgr.request else none
  | .allocStandby => if (s.cache i).standby = 0 then s.bundleMgr.request else none
  | .allocDirect => s.objAlloc.request
  | .freeExchange _ => s.bundleMgr.request
  | _ => none

/-- `SlabAllocator::new`. -/
def SlabAllocator.new (ly : Layout A) (maxBlockPages : Nat) (mem : Mem) : Run SlabAllocator := do
  let objAlloc ← Slab.new A ly maxBlockPages
  let bundleAlloc ← Slab.new A (bundleLayout A) maxBlockPages
  return ⟨fun _ => CoreCache.new, objAlloc, ⟨bundleAlloc, 0, 0⟩, mem⟩

/-! ## Cores and clients -/

/-- The allocator with its cores, the objects the clients hold, and the blocks the page allocator has
handed out. -/
structure Cores where
  alloc : SlabAllocator
  pc : Nat → Pc
  held : List Nat
  regions : List (Nat × Nat)

/-- What can happen next. -/
inductive Event
  | callAlloc (i : Nat)
  | callFree (i objAddr : Nat)
  | run (i : Nat) (grant : Option Nat)
  | write (objAddr addr word : Nat)

/-- The block at `p` is not null, aligned, in linear memory, and overlaps no region handed out. -/
structure RegionOk (A : Arch) (virtBase : Nat) (regions : List (Nat × Nat)) (size p : Nat) : Prop where
  ne_zero : p ≠ 0
  dvd : size ∣ p
  lt : p + virtBase + size < A.wordLimit
  apart : ∀ r ∈ regions, p + size ≤ r.1 ∨ r.1 + r.2 ≤ p

instance (virtBase : Nat) (regions : List (Nat × Nat)) (size p : Nat) :
    Decidable (RegionOk A virtBase regions size p) :=
  decidable_of_iff (p ≠ 0 ∧ size ∣ p ∧ p + virtBase + size < A.wordLimit ∧
      ∀ r ∈ regions, p + size ≤ r.1 ∨ r.1 + r.2 ≤ p)
    ⟨fun h => ⟨h.1, h.2.1, h.2.2.1, h.2.2.2⟩, fun h => ⟨h.ne_zero, h.dvd, h.lt, h.apart⟩⟩

/-- The cores are the first `n`.  An idle core may enter a call, and a client frees an object it holds;
the page allocator answers with a block that it may hand out; clients write to objects they hold but
not to the link behind them. -/
def Event.Valid (ly : Layout A) (virtBase n : Nat) (σ : Cores) : Event → Prop
  | .callAlloc i => i < n ∧ σ.pc i = .idle
  | .callFree i objAddr => i < n ∧ σ.pc i = .idle ∧ objAddr ∈ σ.held
  | .run i grant => i < n ∧
      ∀ size ∈ σ.alloc.request i (σ.pc i), ∀ p ∈ grant, RegionOk A virtBase σ.regions size p
  | .write objAddr addr _ => objAddr ∈ σ.held ∧ objAddr ≤ addr ∧ addr < objAddr + ly.objSize ∧
      addr ≠ objAddr + ly.nextOff ∧ A.wordBytes ∣ addr

instance (ly : Layout A) (virtBase n : Nat) (σ : Cores) (e : Event) :
    Decidable (e.Valid ly virtBase n σ) :=
  match e with
  | .callAlloc i => inferInstanceAs (Decidable (i < n ∧ σ.pc i = .idle))
  | .callFree i objAddr => inferInstanceAs (Decidable (i < n ∧ σ.pc i = .idle ∧ objAddr ∈ σ.held))
  | .run i grant => inferInstanceAs (Decidable (i < n ∧
      ∀ size ∈ σ.alloc.request i (σ.pc i), ∀ p ∈ grant, RegionOk A virtBase σ.regions size p))
  | .write objAddr addr _ => inferInstanceAs (Decidable (objAddr ∈ σ.held ∧ objAddr ≤ addr ∧
      addr < objAddr + ly.objSize ∧ addr ≠ objAddr + ly.nextOff ∧ A.wordBytes ∣ addr))

def Cores.step (ly : Layout A) (virtBase : Nat) (σ : Cores) : Event → Run Cores
  | .callAlloc i => .ok { σ with pc := Function.update σ.pc i .allocCurrent }
  | .callFree i objAddr => .ok { σ with
      pc := Function.update σ.pc i (.freeCases objAddr)
      held := σ.held.erase objAddr }
  | .run i grant => do
      let r ← coreStep ly virtBase grant i σ.alloc (σ.pc i)
      let block := (σ.alloc.request i (σ.pc i)).bind fun size => grant.map fun p => (p, size)
      return ⟨r.alloc, Function.update σ.pc i r.pc, r.obj.toList ++ σ.held,
        block.toList ++ σ.regions⟩
  | .write _ addr word =>
      .ok { σ with alloc := { σ.alloc with mem := Function.update σ.alloc.mem addr word } }

end Slab
end Propeller
