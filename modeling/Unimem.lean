import Unimem.ByteMemory
import Unimem.LinkedRing
import Unimem.Tiling
import Unimem.WordArith
import Unimem.Fuelled
import Unimem.Transitions
import Unimem.Store
import Unimem.Chunk
import Unimem.MallocState
import Unimem.TreeIndex
import Unimem.UniAllocator
import Unimem.Heap
import Unimem.Layout
import Unimem.Tags
import Unimem.Bitmaps
import Unimem.Links
import Unimem.SmallBins
import Unimem.TreeBins
import Unimem.SizeKeys
import Unimem.Represents
import Unimem.Surgery
import Unimem.Carving
import Unimem.Serving
import Unimem.Alloc
import Unimem.Free
import Unimem.Picks
import Unimem.Startup
import Unimem.Endings
import Unimem.Observe
import Unimem.Calls
import Unimem.Run
import Unimem.Chunks
import Unimem.FreeStore
import Unimem.Merges
import Unimem.Effects
import Unimem.Selection
import Unimem.Throwing
import Unimem.Expansion
import Unimem.Confined
import Unimem.Segments
import Unimem.Twins
import Unimem.Contents
import Unimem.Payload
import Unimem.Twice
import Unimem.Walks
import Unimem.Guarded
import Unimem.Preconditions
import Unimem.DigitalTree
import Unimem.LinkedTree
import Unimem.TreeLinks
import Unimem.Tries
import Unimem.TreeInsert
import Unimem.TreeHeirs
import Unimem.TreeRemove
import Unimem.BestFit
import Unimem.OrderedSets
import Unimem.LinkedRow
import Unimem.Coalescing
import Unimem.MemoryBlock
import Unimem.BuddyAllocator
import Unimem.Descriptors
import Unimem.Blocks
import Unimem.ExistChunk
import Unimem.Regions
import Unimem.RegionLaws
import Unimem.Threads
import Unimem.Stores
import Unimem.BuddyFree
import Unimem.BuddyAlloc
import Unimem.BuddyCalls
import Unimem.LiveParts
import Unimem.BuddyRun
import Unimem.BuddyReplies
import Unimem.BuddyClients
import Unimem.BuddyPool
import Unimem.BuddyUsed
import Unimem.BuddyTwins
import Unimem.BuddyEnd
import Unimem.BuddyIdle
import Unimem.BuddyTwice
