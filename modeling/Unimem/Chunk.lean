import Unimem.Store

/-!
size_bits.h, chunk.h and tree_chunk.h for a 64-bit size_t. A chunk is the
address of its first byte; each field is read and written at its offset.
-/

namespace Unimem

open WordArith

def sizeTSize : Nat := 8
def twoSizeTSizes : Nat := sizeTSize <<< 2
def sizeTBitsize : Nat := sizeTSize <<< 3
def sizeTOne : Nat := 1
def pinuseBit : Nat := 1
def cinuseBit : Nat := 2
def flag4Bit : Nat := 4
def inuseBits : Nat := pinuseBit ||| cinuseBit
def flagBits : Nat := pinuseBit ||| cinuseBit ||| flag4Bit

def mchunkSize : Nat := 32
def mallocAlignment : Nat := 2 * 8
def chunkOverhead : Nat := sizeTSize
def chunkAlignMask : Nat := mallocAlignment - sizeTOne
def minChunkSize : Nat := add64 mchunkSize chunkAlignMask &&& not64 chunkAlignMask
def topFootSize : Nat := sizeTSize
def maxRequest : Nat := shl64 (neg64 minChunkSize) 2
def minRequest : Nat := minChunkSize - chunkOverhead - sizeTOne

def alignOffset (a : Nat) : Nat :=
  if a &&& chunkAlignMask = 0 then 0
  else (mallocAlignment - (a &&& chunkAlignMask)) &&& chunkAlignMask

def padRequest (req : Nat) : Nat :=
  add64 (add64 req chunkOverhead) chunkAlignMask &&& not64 chunkAlignMask

def request2size (req : Nat) : Nat :=
  if req < minRequest then minChunkSize else padRequest req

def chunkPlusOffset (p s : Nat) : Nat := add64 p s
def chunkMinusOffset (p s : Nat) : Nat := sub64 p s
def okNext (p n : Nat) : Bool := decide (p < n)

def chunk2mem (p : Nat) : Nat := add64 p twoSizeTSizes
def mem2chunk (mem : Nat) : Nat := sub64 mem twoSizeTSizes

namespace Chunk

def prevFoot (p : Nat) : Prog Nat := load64 p
def head (p : Nat) : Prog Nat := load64 (p + 8)
def fd (p : Nat) : Prog Nat := load64 (p + 16)
def bk (p : Nat) : Prog Nat := load64 (p + 24)

def setPrevFoot (p v : Nat) : Prog Unit := store64 p v
def setHead (p v : Nat) : Prog Unit := store64 (p + 8) v
def setFd (p v : Nat) : Prog Unit := store64 (p + 16) v
def setBk (p v : Nat) : Prog Unit := store64 (p + 24) v

def cinuse (p : Nat) : Prog Nat := do return (← head p) &&& cinuseBit
def pinuse (p : Nat) : Prog Nat := do return (← head p) &&& pinuseBit
def isInuse (p : Nat) : Prog Bool := do return decide ((← head p) &&& inuseBits ≠ pinuseBit)
def chunksize (p : Nat) : Prog Nat := do return (← head p) &&& not64 flagBits

/-- `this + n` on a `Chunk*` steps `n` chunks of 32 bytes each. -/
def nextChunk (p : Nat) : Prog Nat := do
  return add64 p (mchunkSize * ((← head p) &&& not64 flagBits))

def prevChunk (p : Nat) : Prog Nat := do return sub64 p (mchunkSize * (← prevFoot p))

def nextPinuse (p : Nat) : Prog Nat := do pinuse (← nextChunk p)

def setFoot (p s : Nat) : Prog Unit := setPrevFoot (chunkPlusOffset p s) s

def setSizeAndPinuseOfFreeChunk (p s : Nat) : Prog Unit := do
  setHead p (s ||| pinuseBit)
  setFoot p s

def setSizeAndPinuseOfInuseChunk (p s : Nat) : Prog Unit :=
  setHead p (s ||| pinuseBit ||| cinuseBit)

def clearPinuse (p : Nat) : Prog Unit := do
  setHead p ((← head p) &&& not64 pinuseBit)

def setFreeWithPinuse (p s next : Nat) : Prog Unit := do
  clearPinuse next
  setSizeAndPinuseOfFreeChunk p s

end Chunk

namespace TreeChunk

/-- The address of `child[i]`, where the code takes one. -/
def childSlot (p i : Nat) : Nat := p + 32 + 8 * i

def child (p i : Nat) : Prog Nat := load64 (childSlot p i)
def parent (p : Nat) : Prog Nat := load64 (p + 48)
def index (p : Nat) : Prog Nat := load32 (p + 56)

def setChild (p i v : Nat) : Prog Unit := store64 (childSlot p i) v
def setParent (p v : Nat) : Prog Unit := store64 (p + 48) v
def setIndex (p v : Nat) : Prog Unit := store32 (p + 56) v

def leftmostChild (p : Nat) : Prog Nat := do
  let first ← child p 0
  if first ≠ 0 then return first else child p 1

end TreeChunk

end Unimem
