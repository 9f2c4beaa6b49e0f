import Mathlib.Data.Prod.Lex
import Unimem.MemoryBlock
import Unimem.OrderedSets

/-!
The buddy allocator over a system allocator. What the system allocator's n-th
call of `Alloc` answers to a size is given; what it has handed out and not got
back is recorded, so that a `Free` of anything else shows.
-/

namespace Buddy

open ByteMemory WordArith OrderedSets

@[ext] structure IndexSizeAddress where
  index : Nat
  size : Nat
  address : Nat
  deriving DecidableEq

namespace IndexSizeAddress

def key (item : IndexSizeAddress) : Nat ×ₗ Nat ×ₗ Nat :=
  toLex (item.index, toLex (item.size, item.address))

instance : LinearOrder IndexSizeAddress :=
  LinearOrder.lift' key fun item other same => by
    simp only [key, EmbeddingLike.apply_eq_iff_eq, Prod.mk.injEq] at same
    exact IndexSizeAddress.ext same.1 same.2.1 same.2.2

theorem le_iff {item other : IndexSizeAddress} : item ≤ other ↔
    item.index < other.index ∨ item.index = other.index ∧
      (item.size < other.size ∨ item.size = other.size ∧ item.address ≤ other.address) := by
  change key item ≤ key other ↔ _
  simp only [key, Prod.Lex.le_iff, ofLex_toLex]

end IndexSizeAddress

/-- A piece of memory that the system allocator has handed out. -/
structure Grant where
  address : Nat
  size : Nat
  index : Nat
  deriving DecidableEq

/-- `answer n size` is the pointer and the index of the n-th call, or nothing
where the call itself fails an `assert`. `keeps n x` says whether the byte at `x`
can still be read when it is given back after n calls: `free` of the C library
may leave it as it is, or unmap it. -/
structure SystemAllocator where
  useGpu : Bool
  answer : Nat → Nat → Option (Nat × Nat)
  keeps : Nat → Nat → Bool
  calls : Nat
  outstanding : List Grant

/-- `posix_memalign` is given by what its n-th call answers to a size. -/
def CPUAllocator.answer (posixMemalign : Nat → Nat → Option Nat) (call size : Nat) :
    Option (Nat × Nat) :=
  if size = 0 then some (0, 0)
  else
    match posixMemalign call size with
    | none => none
    -- `use_pinned_memory` is false, the index stays 0
    | some p => if p = 0 then none else some (p, 0)

structure BuddyAllocator where
  totalUsed : Nat
  totalFree : Nat
  minChunkSize : Nat
  maxChunkSize : Nat
  pool : Finset IndexSizeAddress
  fallbackAllocCount : Nat
  cache : MetadataCache
  systemAllocator : SystemAllocator

abbrev Prog (α : Type) := EStateM Stop BuddyAllocator α

def BuddyAllocator.new (systemAllocator : SystemAllocator) (minChunkSize maxChunkSize : Nat)
    (mem : Memory) : BuddyAllocator where
  totalUsed := 0
  totalFree := 0
  minChunkSize := minChunkSize
  maxChunkSize := maxChunkSize
  pool := ∅
  fallbackAllocCount := 0
  cache := MetadataCache.new systemAllocator.useGpu mem
  systemAllocator := systemAllocator

def onCache {α : Type} (action : MetadataCache.Action α) : Prog α := fun this =>
  match action this.cache with
  | .ok value cache => .ok value { this with cache := cache }
  | .error stop cache => .error stop { this with cache := cache }

def remap (mem : Memory) (address size : Nat) (mapped : Nat → Bool) : Memory :=
  { mem with mapped := fun x =>
      if address ≤ x ∧ x < address + size then mapped x else mem.mapped x }

namespace SystemAllocator

/-- Memory of a GPU is not memory of the program. -/
def alloc (size : Nat) : Prog (Nat × Nat) := do
  let this ← get
  let system := this.systemAllocator
  match system.answer system.calls size with
  | none => throw .assertion
  | some (p, index) =>
      if p = 0 then do
        set { this with systemAllocator := { system with calls := system.calls + 1 } }
        return (p, index)
      else do
        set { this with
          systemAllocator := { system with
            calls := system.calls + 1
            outstanding := ⟨p, size, index⟩ :: system.outstanding }
          cache := { this.cache with
            mem := if system.useGpu then this.cache.mem
              else remap this.cache.mem p size fun _ => true } }
        return (p, index)

/-- A pointer that was not handed out, or is back already, is undefined to free. -/
def free (p size index : Nat) : Prog Unit := do
  let this ← get
  let system := this.systemAllocator
  if ⟨p, size, index⟩ ∈ system.outstanding then
    set { this with
      systemAllocator := { system with outstanding := system.outstanding.erase ⟨p, size, index⟩ }
      cache := { this.cache with
        mem := if system.useGpu then this.cache.mem
          else remap this.cache.mem p size (system.keeps system.calls) } }
  else throw .undefined

end SystemAllocator

def poolInsert (item : IndexSizeAddress) : Prog Unit :=
  modify fun this => { this with pool := insert item this.pool }

def poolErase (item : IndexSizeAddress) : Prog Unit :=
  modify fun this => { this with pool := this.pool.erase item }

def align (size alignment : Nat) : Nat :=
  let remaining := size % alignment
  if remaining = 0 then size else add64 size (alignment - remaining)

variable [StdHash]

def systemAlloc (size : Nat) : Prog Nat := do
  let (p, index) ← SystemAllocator.alloc size
  if p = 0 then return 0
  else do
    onCache (MemoryBlock.init p .hugeChunk index size 0 0)
    return MemoryBlock.data p

/-- The part of `RefillPool` about a gpu fallback allocation. -/
def countFallback (p : Nat) : Prog Unit := do
  if (← get).systemAllocator.useGpu then
    if (← onCache (MemoryBlock.index p)) = 1 then
      modify fun this => { this with fallbackAllocCount := add64 this.fallbackAllocCount 1 }

def refillPool : Prog (Option IndexSizeAddress) := do
  let max := (← get).maxChunkSize
  let (p, index) ← SystemAllocator.alloc max
  if p = 0 then return none
  else do
    onCache (MemoryBlock.init p .freeChunk index max 0 0)
    countFallback p
    modify fun this => { this with totalFree := add64 this.totalFree max }
    poolInsert ⟨index, max, p⟩
    return some ⟨index, max, p⟩

omit [StdHash] in
/-- The loop of `FindExistChunk`; every further round is at a greater index. -/
def findExistChunkFrom (size : Nat) : Nat → Nat → Prog (Option IndexSizeAddress)
  | 0, _ => throw .fuel
  | fuel + 1, index => do
      match lowerBound (← get).pool ⟨index, size, 0⟩ with
      -- no match chunk memory
      | none => return none
      | some it =>
          if it.index > index then
            -- find suitable one
            if it.size ≥ size then return some it
            -- update and continue
            else findExistChunkFrom size fuel it.index
          else return some it

omit [StdHash] in
def findExistChunk (size : Nat) : Prog (Option IndexSizeAddress) := do
  findExistChunkFrom size ((← get).pool.card + 1) 0

/-- The part of `SplitToAlloc` that inserts the rest of memory if exist. -/
def insertRest (block : Nat) : Prog Unit := do
  if ← onCache (MemoryBlock.hasRightBuddy block) then
    let right ← onCache (MemoryBlock.rightBuddy block)
    if (← onCache (MemoryBlock.type right)) = .freeChunk then
      poolInsert ⟨← onCache (MemoryBlock.index right), ← onCache (MemoryBlock.totalSize right),
        right⟩

def splitToAlloc (it : IndexSizeAddress) (size : Nat) : Prog Nat := do
  let block := it.address
  poolErase it
  onCache (MemoryBlock.split block size)
  onCache (MemoryBlock.setType block .arenaChunk)
  insertRest block
  return block

/-- The end of `Alloc`: the sizes are accounted for and the block is split. -/
def serve (it : IndexSizeAddress) (size : Nat) : Prog Nat := do
  modify fun this => { this with
    totalUsed := add64 this.totalUsed size
    totalFree := sub64 this.totalFree size }
  return MemoryBlock.data (← splitToAlloc it size)

def alloc (unalignedSize : Nat) : Prog Nat := do
  let this ← get
  -- `size % 0`
  if this.minChunkSize = 0 then throw .undefined
  else do
    let size := align (add64 unalignedSize sizeofDesc) this.minChunkSize
    -- if the allocation is huge, send directly to the system allocator
    if size > this.maxChunkSize then systemAlloc size
    else do
      -- query and allocate from the existing chunk
      match ← findExistChunk size with
      | some it => serve it size
      | none =>
          -- refill the pool if failure
          match ← refillPool with
          -- if still failure, fail fatally
          | none => return 0
          | some it => serve it size

/-- The part of `Free` that merges a free right buddy to the block. -/
def mergeRight (block : Nat) : Prog Unit := do
  if ← onCache (MemoryBlock.hasRightBuddy block) then
    let right ← onCache (MemoryBlock.rightBuddy block)
    if (← onCache (MemoryBlock.type right)) = .freeChunk then
      poolErase ⟨← onCache (MemoryBlock.index right), ← onCache (MemoryBlock.totalSize right),
        right⟩
      onCache (MemoryBlock.merge block right)

/-- The part of `Free` that merges the block to a free left buddy; the block that remains. -/
def mergeLeft (block : Nat) : Prog Nat := do
  if ← onCache (MemoryBlock.hasLeftBuddy block) then
    let left ← onCache (MemoryBlock.leftBuddy block)
    if (← onCache (MemoryBlock.type left)) = .freeChunk then
      poolErase ⟨← onCache (MemoryBlock.index left), ← onCache (MemoryBlock.totalSize left), left⟩
      onCache (MemoryBlock.merge left block)
      return left
    else return block
  else return block

/-- The end of `Free`: the block is merged with its buddies and dumped into the pool. -/
def mergeAndDump (block : Nat) : Prog Unit := do
  mergeRight block
  let block ← mergeLeft block
  poolInsert ⟨← onCache (MemoryBlock.index block), ← onCache (MemoryBlock.totalSize block),
    block⟩

def free (p : Nat) : Prog Unit := do
  let block := MemoryBlock.metadata p
  if (← onCache (MemoryBlock.type block)) = .hugeChunk then
    SystemAllocator.free block (← onCache (MemoryBlock.totalSize block))
      (← onCache (MemoryBlock.index block))
    onCache (MetadataCache.invalidate block)
  else do
    onCache (MemoryBlock.markAsFree block)
    let total ← onCache (MemoryBlock.totalSize block)
    modify fun this => { this with totalUsed := sub64 this.totalUsed total }
    let total ← onCache (MemoryBlock.totalSize block)
    modify fun this => { this with totalFree := add64 this.totalFree total }
    mergeAndDump block

/-- The steps that give an entry of the pool back to the system as a whole chunk. -/
def giveBack (item : IndexSizeAddress) : Prog Unit := do
  let block := item.address
  let max := (← get).maxChunkSize
  SystemAllocator.free block max (← onCache (MemoryBlock.index block))
  onCache (MetadataCache.invalidate block)
  poolErase item

def destructorFrom : Nat → Prog Unit
  | 0 => throw .fuel
  | fuel + 1 => do
      match first (← get).pool with
      | none => return ()
      | some item => do
          giveBack item
          destructorFrom fuel

def destructor : Prog Unit := do
  destructorFrom ((← get).pool.card + 1)

def cleanIdleFallBackFrom : Nat → Prog Unit
  | 0 => throw .fuel
  | fuel + 1 => do
      let this ← get
      -- what is erased is the last element, so the next one is the last again
      match last this.pool with
      | none => return ()
      | some item =>
          -- If free memory block less than max_chunk_size_, return directly
          if item.size < this.maxChunkSize then return ()
          -- If no GPU fallback allocator, return
          else if this.systemAllocator.useGpu = false then return ()
          else if (← onCache (MemoryBlock.index item.address)) = 0 then return ()
          else do
            giveBack item
            modify fun this => { this with
              totalFree := sub64 this.totalFree this.maxChunkSize
              fallbackAllocCount := sub64 this.fallbackAllocCount 1 }
            -- If no fall allocation exists, return directly
            if (← get).fallbackAllocCount = 0 then return ()
            else cleanIdleFallBackFrom fuel

def cleanIdleFallBackAlloc : Prog Unit := do
  let this ← get
  -- If fallback allocation does not exist, return directly
  if this.fallbackAllocCount = 0 then return ()
  else cleanIdleFallBackFrom (this.pool.card + 1)

omit [StdHash] in
def shallFreeAlloc (this : BuddyAllocator) : Bool :=
  -- free all fallback allocations
  this.fallbackAllocCount > 0 ||
    -- keep 2x overhead if we haven't fallen back
    (add64 this.totalUsed this.maxChunkSize * 2) % 2 ^ 64 < this.totalFree

def cleanIdleNormalFrom : Nat → Prog Unit
  | 0 => throw .fuel
  | fuel + 1 => do
      let this ← get
      match last this.pool with
      | none => return ()
      | some item =>
          -- If free memory block less than max_chunk_size_, return directly
          if item.size < this.maxChunkSize then return ()
          else do
            giveBack item
            modify fun this => { this with
              totalFree := sub64 this.totalFree this.maxChunkSize }
            if shallFreeAlloc (← get) then cleanIdleNormalFrom fuel
            else return ()

def cleanIdleNormalAlloc : Prog Unit := do
  let this ← get
  if shallFreeAlloc this then cleanIdleNormalFrom (this.pool.card + 1)
  else return ()

end Buddy
