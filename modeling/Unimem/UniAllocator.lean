import Unimem.MallocState

/-!
uni_allocator.cc: construction, InitOrExpand, Alloc and Free. Alloc is one entry
(`tryAlloc`, `none` where the source falls through to InitOrExpand) and the
retry after it.
-/

namespace Unimem

open WordArith ByteMemory MallocState

/-- The constructor. `new MallocState` initialises nothing, so the fields and the
bins hold whatever `raw` and the memory at its address held before. -/
def construct (underlyingAllocator : Nat → Nat → Nat) (increasingSize : Nat) (raw : MallocState)
    (mem : Memory) : Store where
  underlyingAllocator := underlyingAllocator
  underlyingCalls := 0
  increasingSize := increasingSize
  increasingStep := 1
  gm := raw
  mem := mem

def underlyingAlloc (size : Nat) : Prog Nat := fun s =>
  .ok (s.underlyingAllocator s.underlyingCalls size)
    { s with underlyingCalls := s.underlyingCalls + 1 }

def initOrExpand : Prog Unit := do
  let tsize := (← readThis).increasingSize * (← readThis).increasingStep % 2 ^ 64
  let tbase ← underlyingAlloc tsize
  -- any later block is dropped
  if ¬ (← isInitialized) then
    if (← readGm).leastAddr = 0 ∨ tbase < (← readGm).leastAddr then
      writeGm fun g => { g with leastAddr := tbase }
    writeGm fun g => { g with magic := sizeTOne }
    writeGm fun g => { g with releaseChecks := maxReleaseCheckRate }
    initBins
    initTop tbase (sub64 tsize topFootSize)

/-- Remainderless fit: the bin of index `idx`, or the next one if that is empty. -/
def allocExactSmall (idx smallbits : Nat) : Prog Nat := do
  let idx := idx + (not32 smallbits &&& 1)
  let b := (← readGm).smallbinAt idx
  let p ← Chunk.fd b
  unlinkFirstSmallChunk b p idx
  setInuseAndPinuse p (smallIndex2size idx)
  return chunk2mem p

/-- Uses a chunk of the next non-empty small bin. -/
def allocNextSmall (nb idx smallbits : Nat) : Prog Nat := do
  let leftbits := shl32 smallbits idx &&& leftBits (idx2bit idx)
  let i := computeBit2idx (leastBit leftbits)
  let b := (← readGm).smallbinAt i
  let p ← Chunk.fd b
  unlinkFirstSmallChunk b p i
  let rsize := sub64 (smallIndex2size i) nb
  if sizeTSize ≠ 4 ∧ rsize < minChunkSize then setInuseAndPinuse p (smallIndex2size i)
  else
    setSizeAndPinuseOfInuseChunk p nb
    let r := chunkPlusOffset p nb
    Chunk.setSizeAndPinuseOfFreeChunk r rsize
    replaceDv r rsize
  return chunk2mem p

def allocFromDv (nb : Nat) : Prog Nat := do
  let rsize := sub64 (← readGm).dvsize nb
  let p := (← readGm).dv
  if rsize ≥ minChunkSize then
    let r := chunkPlusOffset p nb
    writeGm fun g => { g with dv := r }
    writeGm fun g => { g with dvsize := rsize }
    Chunk.setSizeAndPinuseOfFreeChunk r rsize
    Chunk.setSizeAndPinuseOfInuseChunk p nb
  else
    let dvs := (← readGm).dvsize
    writeGm fun g => { g with dvsize := 0 }
    writeGm fun g => { g with dv := 0 }
    setInuseAndPinuse p dvs
  return chunk2mem p

def allocFromTop (nb : Nat) : Prog Nat := do
  let rsize := sub64 (← readGm).topsize nb
  writeGm fun g => { g with topsize := rsize }
  let p := (← readGm).top
  let r := chunkPlusOffset p nb
  writeGm fun g => { g with top := r }
  Chunk.setHead r (rsize ||| pinuseBit)
  setSizeAndPinuseOfInuseChunk p nb
  return chunk2mem p

/-- dv, then top; `none` if neither is large enough. -/
def allocFromDvOrTop (nb : Nat) : Prog (Option Nat) := do
  if nb ≤ (← readGm).dvsize then return some (← allocFromDv nb)
  else if nb < (← readGm).topsize then return some (← allocFromTop nb)
  else return none

/-- The padded size Alloc works with. -/
def paddedRequest (bytes : Nat) : Nat :=
  if bytes ≤ maxSmallRequest then (if bytes < minRequest then minChunkSize else padRequest bytes)
  else if bytes ≥ maxRequest then maxSizeT
  else padRequest bytes

def tryAlloc (fuel bytes : Nat) : Prog (Option Nat) := do
  let nb := paddedRequest bytes
  if bytes ≤ maxSmallRequest then
    let idx := smallIndex nb
    let smallbits := (← readGm).smallmap >>> idx
    if smallbits &&& 0x3 ≠ 0 then return some (← allocExactSmall idx smallbits)
    else if nb > (← readGm).dvsize then
      if smallbits ≠ 0 then return some (← allocNextSmall nb idx smallbits)
      else if (← readGm).treemap ≠ 0 then
        let mem ← tmallocSmall fuel nb
        if mem ≠ 0 then return some mem else allocFromDvOrTop nb
      else allocFromDvOrTop nb
    else allocFromDvOrTop nb
  -- nothing is that large, so this ends in InitOrExpand
  else if bytes ≥ maxRequest then allocFromDvOrTop nb
  else if (← readGm).treemap ≠ 0 then
    let mem ← tmallocLarge fuel nb
    if mem ≠ 0 then return some mem else allocFromDvOrTop nb
  else allocFromDvOrTop nb

def alloc : Nat → Nat → Prog Nat
  | 0, _ => throw .fuel
  | fuel + 1, bytes => do
      match ← tryAlloc fuel bytes with
      | some mem => return mem
      | none =>
          -- the source retries without a bound
          initOrExpand
          alloc fuel bytes

/-- Files the free chunk `p` of size `psize`. -/
def freeInsert (fuel p psize : Nat) : Prog Unit :=
  if isSmall psize then insertSmallChunk p psize else insertLargeChunk fuel p psize

/-- The rest of Free once `p` and `psize` cover a free left neighbour. -/
def freeForward (fuel p psize next : Nat) : Prog Unit := do
  if ← (pure (okNext p next) <&&> do return (← Chunk.pinuse next) != 0) then
    if (← Chunk.cinuse next) = 0 then
      if next = (← readGm).top then
        let tsize := add64 (← readGm).topsize psize
        writeGm fun g => { g with topsize := tsize }
        writeGm fun g => { g with top := p }
        Chunk.setHead p (tsize ||| pinuseBit)
        if p = (← readGm).dv then
          writeGm fun g => { g with dv := 0 }
          writeGm fun g => { g with dvsize := 0 }
        if ← shouldTrim tsize then
          let _ ← sysTrim 0
      else if next = (← readGm).dv then
        let dsize := add64 (← readGm).dvsize psize
        writeGm fun g => { g with dvsize := dsize }
        writeGm fun g => { g with dv := p }
        Chunk.setSizeAndPinuseOfFreeChunk p dsize
      else
        let nsize ← Chunk.chunksize next
        let psize := add64 psize nsize
        unlinkChunk fuel next nsize
        Chunk.setSizeAndPinuseOfFreeChunk p psize
        if p = (← readGm).dv then writeGm fun g => { g with dvsize := psize }
        else freeInsert fuel p psize
    else
      Chunk.setFreeWithPinuse p psize next
      freeInsert fuel p psize

def free (fuel mem : Nat) : Prog Unit := do
  if mem ≠ 0 then
    let p := mem2chunk mem
    if ← (okAddress p <&&> Chunk.isInuse p) then
      let psize ← Chunk.chunksize p
      let next := chunkPlusOffset p psize
      if (← Chunk.pinuse p) = 0 then
        let prevsize ← Chunk.prevFoot p
        let prev := chunkMinusOffset p prevsize
        let psize := add64 psize prevsize
        if ← okAddress prev then
          if prev ≠ (← readGm).dv then
            unlinkChunk fuel prev prevsize
            freeForward fuel prev psize next
          -- dv in front and a used chunk behind: dv only grows
          else if (← Chunk.head next) &&& inuseBits = inuseBits then
            writeGm fun g => { g with dvsize := psize }
            Chunk.setFreeWithPinuse prev psize next
          else freeForward fuel prev psize next
        else throw .corrupted
      else freeForward fuel p psize next

end Unimem
