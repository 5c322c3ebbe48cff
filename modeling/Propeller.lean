import Propeller.Lib.Ring
import Propeller.Lib.Dyadic
import Propeller.Lib.Buddy
import Propeller.Lib.BuddyStore
import Propeller.Lib.BuddyNormal
import Propeller.Arch
import Propeller.Support.Bits
import Propeller.Support.Word
import Propeller.Support.Bitmap
import Propeller.Support.Logarithms
import Propeller.Support.BitmapOps
import Propeller.Support.BitmapIter
import Propeller.Support.Interleave
import Propeller.Mm.Buddy.Model
import Propeller.Mm.Buddy.Lists
import Propeller.Mm.Buddy.Flags
import Propeller.Mm.Buddy.Sizing
import Propeller.Mm.Buddy.Edits
import Propeller.Mm.Buddy.Blocks
import Propeller.Mm.Buddy.Books
import Propeller.Mm.Buddy.Consistent
import Propeller.Mm.Buddy.Allocate
import Propeller.Mm.Buddy.Take
import Propeller.Mm.Buddy.Free
import Propeller.Mm.Buddy.Init
import Propeller.Mm.Buddy.Contract
import Propeller.Mm.Buddy.Tiles
import Propeller.Mm.Buddy.Runs
import Propeller.Mm.Buddy.Intact
import Propeller.Mm.Buddy.Accounting
import Propeller.Mm.Buddy.Order
import Propeller.Mm.Slab.Model
import Propeller.Mm.Slab.Nodes
import Propeller.Mm.Slab.Contents
import Propeller.Mm.Slab.Manager
import Propeller.Mm.Slab.Grant
import Propeller.Mm.Slab.Calls
import Propeller.Mm.Slab.Runs
import Propeller.Mm.Slab.Allocator
import Propeller.Mm.Slab.World
import Propeller.Mm.Slab.Places
import Propeller.Mm.Slab.Exchange
import Propeller.Mm.Slab.Steps
import Propeller.Mm.Slab.Sharing
import Propeller.Mm.Slab.Owners
import Propeller.Mm.Slab.Pressure
import Propeller.Mm.Slab.Caches
import Propeller.Mm.Slab.Unused
import Propeller.Mm.Slab.Paged
import Propeller.Mm.Slab.Release
import Propeller.Support.HashMap
import Propeller.Support.HashLoad
import Propeller.Arch.Cpu
import Propeller.Arch.CoreIndex
import Propeller.Arch.BufferedPages
import Propeller.Support.Range
import Propeller.Support.RangeSet
import Propeller.Support.RangeTrim
import Propeller.Lib.PageTable
import Propeller.Arch.Paging
import Propeller.Arch.Compact
import Propeller.Arch.Aarch64.Mm
import Propeller.Arch.Aarch64.DirectMap
import Propeller.Arch.Aarch64.Returns
import Propeller.Arch.Granular
import Propeller.Arch.Recursive
import Propeller.Arch.Arm.Mm
import Propeller.Arch.MapMemory
import Propeller.Arch.Arm.Compact
import Propeller.Arch.Arm.Split
import Propeller.Support.RangeExclude
import Propeller.Support.RangeArray
import Propeller.Support.RangeCapacity
import Propeller.Arch.MemoryConfig
import Propeller.Arch.Arm.Stacks
import Propeller.Arch.Arm.LocalMappings
import Propeller.Arch.Arm.LocalCapacity
import Propeller.Arch.Arm.StackList
import Propeller.Mm.Zones
import Propeller.Lib.Loop
import Propeller.Lib.Steps
import Propeller.Lib.Fields
import Propeller.Lib.OrMap
import Propeller.Support.Dtb
import Propeller.Support.DtbWalk
import Propeller.Support.DtbTree
import Propeller.Support.DtbCells
import Propeller.Support.DtbChild
import Propeller.Arch.DtbMemory
import Propeller.Arch.DtbCpu
import Propeller.Arch.DtbScan
import Propeller.Arch.DtbReg
import Propeller.Arch.DtbLayout
import Propeller.Arch.DtbCore
import Propeller.Lib.Exclusive
import Propeller.Sync.Machine
import Propeller.Sync.SpinLock
import Propeller.Sync.Progress
import Propeller.Sync.Guarded
import Propeller.Arch.Debug
import Propeller.Arch.Aarch64.Boot
import Propeller.Arch.Aarch64.BootMap
import Propeller.Arch.Aarch64.Init
import Propeller.Arch.Aarch64.Stacks
import Propeller.Mm.Buddy.Clients
import Propeller.Mm.Service
import Propeller.Mm.ZoneBlocks
import Propeller.Mm.Slab.Backed
import Propeller.Arch.Arm.Affinity
import Propeller.Arch.Arm.DirectMap
