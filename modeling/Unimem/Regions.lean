import Unimem.Coalescing
import Unimem.BuddyAllocator

/-!
What the buddy allocator keeps, apart from descriptors: regions got from the
system, each tiled by parts that are live or free. A request is cut from the
front of a free part; a part that becomes free is coalesced with its free
neighbours. Huge requests have a region of their own.
-/

namespace Buddy

open Tiling Coalescing OrderedSets WordArith

structure Part where
  start : Nat
  total : Nat
  live : Bool
  deriving DecidableEq

namespace Part

def stop (part : Part) : Nat := part.start + part.total

def marked (part : Part) (live : Bool) : Part := { part with live := live }

def join (part next : Part) : Part := { part with total := part.total + next.total }

def cut (part : Part) (wanted : Nat) : List Part :=
  if part.total - wanted ≤ sizeofDesc then [part.marked true]
  else [⟨part.start, wanted, true⟩, ⟨part.start + wanted, part.total - wanted, false⟩]

/-- The bytes of a part behind its descriptor. -/
def Payload (part : Part) (x : Nat) : Prop := part.start + sizeofDesc ≤ x ∧ x < part.stop

def entry (part : Part) (index : Nat) : IndexSizeAddress := ⟨index, part.total, part.start⟩

@[simp] theorem entry_address (part : Part) (index : Nat) :
    (part.entry index).address = part.start := rfl

def Separate (part other : Part) : Prop := part.stop ≤ other.start ∨ other.stop ≤ part.start

end Part

/-- The entries of the pool for the free ones of some parts. -/
def freeEntries (index : Nat) (parts : List Part) : List IndexSizeAddress :=
  (parts.filter fun part => !part.live).map fun part => part.entry index

structure Region where
  base : Nat
  size : Nat
  index : Nat
  huge : Bool
  parts : List Part
  deriving DecidableEq

namespace Region

def entries (region : Region) : List IndexSizeAddress := freeEntries region.index region.parts

def grant (region : Region) : Grant := ⟨region.base, region.size, region.index⟩

/-- One part that is as large as the region. -/
def fresh (base size index : Nat) (huge : Bool) : Region :=
  ⟨base, size, index, huge, [⟨base, size, huge⟩]⟩

def stop (region : Region) : Nat := region.base + region.size

def Within (region : Region) (x : Nat) : Prop := region.base ≤ x ∧ x < region.stop

def Separate (region other : Region) : Prop :=
  region.stop ≤ other.base ∨ other.stop ≤ region.base

end Region

def carveParts (start wanted : Nat) (parts : List Part) : List Part :=
  parts.flatMap fun part => if part.start = start then part.cut wanted else [part]

def releaseParts (start : Nat) (parts : List Part) : List Part :=
  coalesce Part.live Part.join
    (parts.map fun part => if part.start = start then part.marked false else part)

def poolOf (regions : List Region) : Finset IndexSizeAddress :=
  (regions.flatMap Region.entries).toFinset

structure Heap where
  regions : List Region
  totalUsed : Nat
  totalFree : Nat
  deriving DecidableEq

namespace Heap

def empty : Heap := ⟨[], 0, 0⟩

def parts (h : Heap) : List Part := h.regions.flatMap Region.parts

def pool (h : Heap) : Finset IndexSizeAddress := poolOf h.regions

def fit (h : Heap) (wanted : Nat) : Option IndexSizeAddress :=
  first (h.pool.filter fun item => wanted ≤ item.size)

def onParts (change : List Part → List Part) (h : Heap) : List Region :=
  h.regions.map fun region => { region with parts := change region.parts }

def carve (h : Heap) (start wanted : Nat) : Heap where
  regions := h.onParts (carveParts start wanted)
  totalUsed := add64 h.totalUsed wanted
  totalFree := sub64 h.totalFree wanted

/-- The size of the part at an address. -/
def totalAt (h : Heap) (start : Nat) : Nat :=
  ((h.parts.find? fun part => part.start = start).map Part.total).getD 0

def release (h : Heap) (start : Nat) : Heap where
  regions := h.onParts (releaseParts start)
  totalUsed := sub64 h.totalUsed (h.totalAt start)
  totalFree := add64 h.totalFree (h.totalAt start)

def adopt (h : Heap) (region : Region) : Heap := { h with regions := region :: h.regions }

def dismiss (h : Heap) (base : Nat) : Heap :=
  { h with regions := h.regions.filter fun region => region.base ≠ base }

def refill (h : Heap) (reply : Nat × Nat) (max : Nat) : Heap :=
  { h.adopt (Region.fresh reply.1 max reply.2 false) with totalFree := add64 h.totalFree max }

/-- What `Alloc` returns and leaves, for a size that is rounded already. -/
def alloc (h : Heap) (max wanted : Nat) (reply : Nat × Nat) : Nat × Heap :=
  if wanted > max then
    if reply.1 = 0 then (0, h)
    else (reply.1 + sizeofDesc, h.adopt (Region.fresh reply.1 wanted reply.2 true))
  else match h.fit wanted with
    | some item => (item.address + sizeofDesc, h.carve item.address wanted)
    | none =>
        if reply.1 = 0 then (0, h)
        else (reply.1 + sizeofDesc, (h.refill reply max).carve reply.1 wanted)

def isHuge (h : Heap) (start : Nat) : Bool :=
  h.regions.any fun region => region.huge && region.base == start

def free (h : Heap) (p : Nat) : Heap :=
  if h.isHuge (p - sizeofDesc) then h.dismiss (p - sizeofDesc) else h.release (p - sizeofDesc)

end Heap

end Buddy
