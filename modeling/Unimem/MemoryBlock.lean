import Unimem.ByteMemory
import Unimem.WordArith
import Unimem.Fuelled

/-!
The memory blocks of the buddy allocator and the cache of their descriptors.
On a CPU a descriptor lies at the beginning of its block, for a GPU it is kept
in a map apart from the block. Pointers are addresses, null is 0. `std::hash`
is given by its values on sizes and on pointers.
-/

namespace Buddy

open ByteMemory WordArith

/-- Why a call does not return: a failed `assert`, an access outside the mapped
memory, behaviour that C++ leaves undefined, or no fuel left. -/
inductive Stop where
  | assertion
  | fault
  | undefined
  | fuel
  deriving DecidableEq

inductive BlockType where
  | freeChunk
  | arenaChunk
  | hugeChunk
  | invalidChunk
  deriving DecidableEq

namespace BlockType

def toNat : BlockType → Nat
  | freeChunk => 0
  | arenaChunk => 1
  | hugeChunk => 2
  | invalidChunk => 3

def ofNat? : Nat → Option BlockType
  | 0 => some freeChunk
  | 1 => some arenaChunk
  | 2 => some hugeChunk
  | 3 => some invalidChunk
  | _ => none

@[simp] theorem ofNat?_toNat (type : BlockType) : ofNat? type.toNat = some type := by
  cases type <;> rfl

theorem toNat_lt (type : BlockType) : type.toNat < 4 := by
  cases type <;> decide

end BlockType

class StdHash where
  ofSize : Nat → Nat
  ofPointer : Nat → Nat

structure Desc where
  guardBegin : Nat
  type : BlockType
  index : Nat
  size : Nat
  totalSize : Nat
  leftBuddy : Nat
  rightBuddy : Nat
  guardEnd : Nat
  deriving DecidableEq

def sizeofDesc : Nat := 64

/-- `hasher(v)` of a value is already taken. -/
@[irreducible] def hashCombine (seed hashed : Nat) : Nat :=
  seed ^^^ ((hashed + 0x9e3779b9 + shl64 seed 6 + seed >>> 2) % 2 ^ 64)

namespace Desc

def new (type : BlockType) (index size totalSize leftBuddy rightBuddy : Nat) : Desc where
  guardBegin := 0
  type := type
  index := index
  size := size
  totalSize := totalSize
  leftBuddy := leftBuddy
  rightBuddy := rightBuddy
  guardEnd := 0

def withGuards (desc : Desc) (guardBegin guardEnd : Nat) : Desc :=
  { desc with guardBegin := guardBegin, guardEnd := guardEnd }

section Guards

variable [StdHash]

@[irreducible] def hash (metadata : Desc) (initialSeed : Nat) : Nat :=
  let seed := hashCombine initialSeed (StdHash.ofSize metadata.type.toNat)
  let seed := hashCombine seed (StdHash.ofSize metadata.index)
  let seed := hashCombine seed (StdHash.ofSize metadata.size)
  let seed := hashCombine seed (StdHash.ofSize metadata.totalSize)
  let seed := hashCombine seed (StdHash.ofPointer metadata.leftBuddy)
  hashCombine seed (StdHash.ofPointer metadata.rightBuddy)

@[irreducible] def updateGuards (desc : Desc) : Desc := desc.withGuards (desc.hash 1) (desc.hash 2)

def checkGuards (desc : Desc) : Bool :=
  desc.guardBegin == desc.hash 1 && desc.guardEnd == desc.hash 2

end Guards

/-- The bytes of a descriptor; four bytes behind the type are padding. -/
def read (mem : Memory) (block : Nat) : Option Desc :=
  (BlockType.ofNat? (mem.load (block + 8) 4)).map fun type =>
    { guardBegin := mem.load block 8
      type := type
      index := mem.load (block + 16) 8
      size := mem.load (block + 24) 8
      totalSize := mem.load (block + 32) 8
      leftBuddy := mem.load (block + 40) 8
      rightBuddy := mem.load (block + 48) 8
      guardEnd := mem.load (block + 56) 8 }

def write (desc : Desc) (mem : Memory) (block : Nat) : Memory :=
  let mem := mem.store block 8 desc.guardBegin
  let mem := mem.store (block + 8) 4 desc.type.toNat
  let mem := mem.store (block + 16) 8 desc.index
  let mem := mem.store (block + 24) 8 desc.size
  let mem := mem.store (block + 32) 8 desc.totalSize
  let mem := mem.store (block + 40) 8 desc.leftBuddy
  let mem := mem.store (block + 48) 8 desc.rightBuddy
  mem.store (block + 56) 8 desc.guardEnd

end Desc

structure MetadataCache where
  usesGpu : Bool
  cache : Nat → Option Desc
  mem : Memory

def assert {σ : Type} (condition : Bool) : EStateM Stop σ Unit :=
  if condition then pure () else throw .assertion

namespace MetadataCache

abbrev Action (α : Type) := EStateM Stop MetadataCache α

def new (usesGpu : Bool) (mem : Memory) : MetadataCache where
  usesGpu := usesGpu
  cache := fun _ => none
  mem := mem

variable [StdHash]

def load (block : Nat) : Action Desc := do
  let this ← get
  if this.usesGpu then
    match this.cache block with
    -- the end of the map is dereferenced
    | none => throw .undefined
    | some desc => do
        assert desc.checkGuards
        return desc
  else if this.mem.accessible block sizeofDesc then
    match Desc.read this.mem block with
    -- no enumerator has the value found
    | none => throw .undefined
    | some desc => do
        assert desc.checkGuards
        return desc
  else throw .fault

def save (block : Nat) (originalDesc : Desc) : Action Unit := do
  let desc := originalDesc.updateGuards
  let this ← get
  if this.usesGpu then
    set { this with cache := fun other => if other = block then some desc else this.cache other }
  else if this.mem.accessible block sizeofDesc then
    set { this with mem := desc.write this.mem block }
  else throw .fault

omit [StdHash] in
def invalidate (block : Nat) : Action Unit := do
  let this ← get
  if this.usesGpu then
    set { this with cache := fun other => if other = block then none else this.cache other }

end MetadataCache

namespace MemoryBlock

open MetadataCache

def data (this : Nat) : Nat := add64 this sizeofDesc

def metadata (this : Nat) : Nat := sub64 this sizeofDesc

variable [StdHash]

def init (this : Nat) (type : BlockType) (index size leftBuddy rightBuddy : Nat) : Action Unit :=
  save this (Desc.new type index (sub64 size sizeofDesc) size leftBuddy rightBuddy)

def type (this : Nat) : Action BlockType := return (← load this).type

def size (this : Nat) : Action Nat := return (← load this).size

def index (this : Nat) : Action Nat := return (← load this).index

def totalSize (this : Nat) : Action Nat := return (← load this).totalSize

def leftBuddy (this : Nat) : Action Nat := return (← load this).leftBuddy

def rightBuddy (this : Nat) : Action Nat := return (← load this).rightBuddy

def hasLeftBuddy (this : Nat) : Action Bool := return (← leftBuddy this) != 0

def hasRightBuddy (this : Nat) : Action Bool := return (← rightBuddy this) != 0

/-- The end of `split` and the middle of `merge`: a right buddy learns its new left buddy. -/
def linkBuddy (buddy left : Nat) : Action Unit := do
  if buddy ≠ 0 then do
    let buddyMetadata ← load buddy
    save buddy { buddyMetadata with leftBuddy := left }

def split (this size : Nat) : Action Unit := do
  assert (decide ((← totalSize this) ≥ size))
  -- bail out if there is no room for another partition
  if sub64 (← totalSize this) size ≤ sizeofDesc then return ()
  else do
    let rightPartition := add64 this size
    let remainingSize := sub64 (← totalSize this) size
    let metadata ← load this
    let newBlockRightBuddy := metadata.rightBuddy
    save rightPartition (Desc.new .freeChunk (← index this) (sub64 remainingSize sizeofDesc)
      remainingSize this newBlockRightBuddy)
    save this { metadata with
      rightBuddy := rightPartition
      size := sub64 size sizeofDesc
      totalSize := size }
    linkBuddy newBlockRightBuddy rightPartition

def merge (this right : Nat) : Action Unit := do
  assert ((← type this) == .freeChunk)
  assert ((← type right) == .freeChunk)
  let metadata ← load this
  let metadata := { metadata with rightBuddy := ← rightBuddy right }
  linkBuddy metadata.rightBuddy this
  let metadata := { metadata with size := add64 metadata.size (← totalSize right) }
  let metadata := { metadata with totalSize := add64 metadata.totalSize (← totalSize right) }
  save this metadata
  save right (Desc.new .invalidChunk 0 0 0 0 0)

def setType (this : Nat) (type : BlockType) : Action Unit := do
  let metadata ← load this
  save this { metadata with type := type }

def markAsFree (this : Nat) : Action Unit := do
  -- check for double free or corruption
  assert ((← type this) != .freeChunk)
  assert ((← type this) != .invalidChunk)
  setType this .freeChunk

end MemoryBlock

end Buddy
