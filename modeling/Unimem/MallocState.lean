import Unimem.Chunk

/-!
uni_allocator.h: bin geometry, bitmaps, and the small and tree bin operations of
`MallocState`. DEBUG_ASSERT and the do_check functions are empty without DEBUG
and are left out; `assert` stays. Loops take fuel.
-/

namespace Unimem

open WordArith

def nsmallbins : Nat := 32
def ntreebins : Nat := 32
def smallbinShift : Nat := 3
def treebinShift : Nat := 8
def minLargeSize : Nat := sizeTOne <<< treebinShift
def maxSmallSize : Nat := minLargeSize - sizeTOne
def maxSmallRequest : Nat := maxSmallSize - chunkAlignMask - chunkOverhead
def maxSizeT : Nat := not64 0

def isSmall (s : Nat) : Bool := decide (s >>> smallbinShift < nsmallbins)
def smallIndex (s : Nat) : Nat := (s >>> smallbinShift) % 2 ^ 32
def smallIndex2size (i : Nat) : Nat := shl32 i smallbinShift

def maxReleaseCheckRate : Nat := maxSizeT
def defaultTrimThreshold : Nat := 2 * 1024 * 1024

/-- Offset of `smallbins` in MallocState, and the size of the object. -/
def smallbinsOffset : Nat := 72
def mallocStateSize : Nat := 904

def idx2bit (i : Nat) : Nat := shl32 1 i
def leastBit (x : Nat) : Nat := x &&& neg32 x
def leftBits (x : Nat) : Nat := shl32 x 1 ||| neg32 (shl32 x 1)
def computeBit2idx (x : Nat) : Nat := ctz32 x

def computeTreeIndex (s : Nat) : Nat :=
  -- an unsigned int: the bits of `s` from 2^40 on are lost
  let x := (s >>> treebinShift) % 2 ^ 32
  if x = 0 then 0
  else if x > 0xFFFF then ntreebins - 1
  else
    let k := 4 * 8 - 1 - clz32 x
    (k <<< 1) + ((s >>> (k + (treebinShift - 1))) &&& 1)

def leftshiftForTreeIndex (i : Nat) : Nat :=
  if i = ntreebins - 1 then 0 else (sizeTBitsize - sizeTOne) - ((i >>> 1) + treebinShift - 2)

namespace MallocState

def smallbinAt (g : MallocState) (i : Nat) : Nat := g.this + smallbinsOffset + 8 * (i <<< 1)

def isInitialized : Prog Bool := do return decide ((← readGm).top ≠ 0)

def okAddress (a : Nat) : Prog Bool := do return decide (a ≥ (← readGm).leastAddr)

def markSmallmap (i : Nat) : Prog Unit :=
  writeGm fun g => { g with smallmap := g.smallmap ||| idx2bit i }

def clearSmallmap (i : Nat) : Prog Unit :=
  writeGm fun g => { g with smallmap := g.smallmap &&& not32 (idx2bit i) }

def smallmapIsMarked (i : Nat) : Prog Nat := do return (← readGm).smallmap &&& idx2bit i

def markTreemap (i : Nat) : Prog Unit :=
  writeGm fun g => { g with treemap := g.treemap ||| idx2bit i }

def clearTreemap (i : Nat) : Prog Unit :=
  writeGm fun g => { g with treemap := g.treemap &&& not32 (idx2bit i) }

def treemapIsMarked (i : Nat) : Prog Nat := do return (← readGm).treemap &&& idx2bit i

/-- `*treebin_at(i)` and the store to it. -/
def treebin (i : Nat) : Prog Nat := do return (← readGm).treebins i

def setTreebin (i v : Nat) : Prog Unit :=
  writeGm fun g => { g with treebins := Function.update g.treebins i v }

/-- A bin of no members points to itself. -/
def initBins.loop : Nat → Nat → Prog Unit
  | 0, _ => pure ()
  | left + 1, i => do
      let bin := (← readGm).smallbinAt i
      Chunk.setBk bin bin
      Chunk.setFd bin bin
      initBins.loop left (i + 1)

def initBins : Prog Unit := initBins.loop nsmallbins 0

def initTop (p psize : Nat) : Prog Unit := do
  let offset := alignOffset (chunk2mem p)
  let p := chunkPlusOffset p offset
  let psize := sub64 psize offset
  writeGm fun g => { g with top := p }
  writeGm fun g => { g with topsize := psize }
  Chunk.setHead p (psize ||| pinuseBit)
  -- the fake trailing chunk, of which only the head is ever written
  Chunk.setHead (chunkPlusOffset p psize) topFootSize
  writeGm fun g => { g with trimCheck := defaultTrimThreshold }

def unlinkFirstSmallChunk (B P I : Nat) : Prog Unit := do
  let F ← Chunk.fd P
  if B = F then clearSmallmap I
  else if ← (okAddress F <&&> do return (← Chunk.bk F) == P) then
    Chunk.setBk F B
    Chunk.setFd B F
  else throw .corrupted

def setInuseAndPinuse (p s : Nat) : Prog Unit := do
  Chunk.setHead p (s ||| pinuseBit ||| cinuseBit)
  let next := chunkPlusOffset p s
  Chunk.setHead next ((← Chunk.head next) ||| pinuseBit)

def setSizeAndPinuseOfInuseChunk (p s : Nat) : Prog Unit :=
  Chunk.setHead p (s ||| pinuseBit ||| cinuseBit)

def insertSmallChunk.link (B F P : Nat) : Prog Unit := do
  Chunk.setFd B P
  Chunk.setBk F P
  Chunk.setFd P F
  Chunk.setBk P B

def insertSmallChunk (P S : Nat) : Prog Unit := do
  let I := smallIndex S
  let B := (← readGm).smallbinAt I
  if ¬ (S ≥ minChunkSize) then throw .assertion
  else if (← smallmapIsMarked I) = 0 then
    markSmallmap I
    insertSmallChunk.link B B P
  else if ← okAddress (← Chunk.fd B) then
    insertSmallChunk.link B (← Chunk.fd B) P
  else throw .corrupted

def insertLargeChunk.descend (X S : Nat) : Nat → Nat × Nat → Prog Unit
  | 0, _ => throw .fuel
  | fuel + 1, (T, K) => do
      if (← Chunk.chunksize T) ≠ S then
        let i := (K >>> (sizeTBitsize - sizeTOne)) &&& 1
        let K := shl64 K 1
        let C ← TreeChunk.child T i
        if C ≠ 0 then insertLargeChunk.descend X S fuel (C, K)
        -- the slot is empty, and what is checked is the null in it
        else if ← okAddress C then
          TreeChunk.setChild T i X
          TreeChunk.setParent X T
          Chunk.setBk X X
          Chunk.setFd X X
        else throw .corrupted
      else
        let F ← Chunk.fd T
        if ← (okAddress T <&&> okAddress F) then
          Chunk.setBk F X
          Chunk.setFd T X
          Chunk.setFd X F
          Chunk.setBk X T
          -- a null parent tells the ring's other members from its node
          TreeChunk.setParent X 0
        else throw .corrupted

def insertLargeChunk (fuel X S : Nat) : Prog Unit := do
  let I := computeTreeIndex S
  TreeChunk.setIndex X I
  TreeChunk.setChild X 1 0
  TreeChunk.setChild X 0 0
  if (← treemapIsMarked I) = 0 then
    markTreemap I
    setTreebin I X
    -- `X` itself: a root's parent is never followed
    TreeChunk.setParent X (← treebin I)
    Chunk.setBk X X
    Chunk.setFd X X
  else
    insertLargeChunk.descend X S fuel (← treebin I, shl64 S (leftshiftForTreeIndex I))

def insertChunk (fuel P S : Nat) : Prog Unit :=
  if isSmall S then insertSmallChunk P S else insertLargeChunk fuel P S

def replaceDv (P S : Nat) : Prog Unit := do
  let DVS := (← readGm).dvsize
  if ¬ isSmall DVS then throw .assertion
  else
    -- the old dv goes to its small bin
    if DVS ≠ 0 then insertSmallChunk (← readGm).dv DVS
    writeGm fun g => { g with dvsize := S }
    writeGm fun g => { g with dv := P }

/-- Follows right, else left children to a leaf; returns it and the slot holding it. -/
def unlinkLargeChunk.leaf : Nat → Nat × Nat → Prog (Nat × Nat)
  | 0, _ => throw .fuel
  | fuel + 1, (R, RP) => do
      let C1 ← TreeChunk.child R 1
      if C1 ≠ 0 then unlinkLargeChunk.leaf fuel (C1, TreeChunk.childSlot R 1)
      else
        let C0 ← TreeChunk.child R 0
        if C0 ≠ 0 then unlinkLargeChunk.leaf fuel (C0, TreeChunk.childSlot R 0)
        else return (R, RP)

/-- The chunk that takes `X`'s place, already taken out of its own. -/
def unlinkLargeChunk.replacement (fuel X : Nat) : Prog Nat := do
  if (← Chunk.bk X) ≠ X then
    let F ← Chunk.fd X
    let R ← Chunk.bk X
    if ← (okAddress F <&&> (do return (← Chunk.bk F) == X) <&&> do return (← Chunk.fd R) == X) then
      Chunk.setBk F R
      Chunk.setFd R F
      return R
    else throw .corrupted
  else
    let C1 ← TreeChunk.child X 1
    let C0 ← (if C1 ≠ 0 then pure C1 else TreeChunk.child X 0 : Prog Nat)
    if C0 ≠ 0 then
      let slot := TreeChunk.childSlot X (if C1 ≠ 0 then 1 else 0)
      let leaf ← unlinkLargeChunk.leaf fuel (C0, slot)
      if ← okAddress (← load64 leaf.2) then
        store64 leaf.2 0
        return leaf.1
      else throw .corrupted
    else return C0

def unlinkLargeChunk.adopt (X R i : Nat) : Prog Unit := do
  let C ← TreeChunk.child X i
  if C ≠ 0 then
    if ← okAddress C then
      TreeChunk.setChild R i C
      TreeChunk.setParent C R
    else throw .corrupted

def unlinkLargeChunk.inherit (X R XP : Nat) : Prog Unit := do
  if R ≠ 0 then
    if ← okAddress R then
      TreeChunk.setParent R XP
      unlinkLargeChunk.adopt X R 0
      unlinkLargeChunk.adopt X R 1
    else throw .corrupted

def unlinkLargeChunk (fuel X : Nat) : Prog Unit := do
  let XP ← TreeChunk.parent X
  let R ← unlinkLargeChunk.replacement fuel X
  -- otherwise `X` was not its ring's node, and no tree link leads to it
  if XP ≠ 0 then
    let i ← TreeChunk.index X
    if X = (← treebin i) then
      setTreebin i R
      if R = 0 then clearTreemap (← TreeChunk.index X)
      unlinkLargeChunk.inherit X R XP
    else if ← okAddress XP then
      if (← TreeChunk.child XP 0) = X then TreeChunk.setChild XP 0 R
      else TreeChunk.setChild XP 1 R
      unlinkLargeChunk.inherit X R XP
    else throw .corrupted

/-- Keeps the best fit `v` with remainder `rsize` down the leftmost path from `t`. -/
def leastOfPath (nb : Nat) : Nat → Nat × Nat × Nat → Prog (Nat × Nat)
  | 0, _ => throw .fuel
  | fuel + 1, (t, v, rsize) => do
      if t = 0 then return (v, rsize)
      else
        let trem := sub64 (← Chunk.chunksize t) nb
        let best := if trem < rsize then (t, trem) else (v, rsize)
        leastOfPath nb fuel (← TreeChunk.leftmostChild t, best.1, best.2)

/-- The common end of tmalloc_small and tmalloc_large: take `v` out of its tree
and split it, the remainder going where `keep` puts it. -/
def splitTree (fuel nb v rsize : Nat) (keep : Nat → Nat → Prog Unit) : Prog Nat := do
  if ← okAddress v then
    let r := chunkPlusOffset v nb
    if okNext v r then
      unlinkLargeChunk fuel v
      if rsize < minChunkSize then setInuseAndPinuse v (add64 rsize nb)
      else
        setSizeAndPinuseOfInuseChunk v nb
        Chunk.setSizeAndPinuseOfFreeChunk r rsize
        keep r rsize
      return chunk2mem v
    else throw .corrupted
  else throw .corrupted

def tmallocSmall (fuel nb : Nat) : Prog Nat := do
  let i := computeBit2idx (leastBit (← readGm).treemap)
  let t ← treebin i
  let rsize := sub64 (← Chunk.chunksize t) nb
  let best ← leastOfPath nb fuel (← TreeChunk.leftmostChild t, t, rsize)
  splitTree fuel nb best.1 best.2 replaceDv

/-- The variables of the walk towards a node of size `nb`. -/
structure Walk where
  t : Nat
  v : Nat
  rsize : Nat
  sizebits : Nat
  rst : Nat

def tmallocLarge.walk (nb : Nat) : Nat → Walk → Prog Walk
  | 0, _ => throw .fuel
  | fuel + 1, w => do
      let trem := sub64 (← Chunk.chunksize w.t) nb
      if trem < w.rsize ∧ trem = 0 then return { w with v := w.t, rsize := trem }
      else
        let w := if trem < w.rsize then { w with v := w.t, rsize := trem } else w
        let rt ← TreeChunk.child w.t 1
        let t ← TreeChunk.child w.t ((w.sizebits >>> (sizeTBitsize - sizeTOne)) &&& 1)
        let w := if rt ≠ 0 ∧ rt ≠ t then { w with rst := rt } else w
        -- the least subtree holding sizes > nb, if any
        if t = 0 then return { w with t := w.rst }
        else tmallocLarge.walk nb fuel { w with t := t, sizebits := shl64 w.sizebits 1 }

/-- Root of the next non-empty treebin above `idx`, 0 if there is none. -/
def tmallocLarge.nextBin (idx : Nat) : Prog Nat := do
  let leftbits := leftBits (idx2bit idx) &&& (← readGm).treemap
  if leftbits ≠ 0 then treebin (computeBit2idx (leastBit leftbits)) else return 0

/-- tmalloc_large after the walk through the bin of index `idx`. -/
def tmallocLarge.settle (fuel nb idx : Nat) (w : Walk) : Prog Nat := do
  let t ← (if w.t = 0 ∧ w.v = 0 then tmallocLarge.nextBin idx else pure w.t : Prog Nat)
  let best ← leastOfPath nb fuel (t, w.v, w.rsize)
  if best.1 ≠ 0 ∧ best.2 < sub64 (← readGm).dvsize nb then
    splitTree fuel nb best.1 best.2 (insertChunk fuel)
  else return 0

def tmallocLarge (fuel nb : Nat) : Prog Nat := do
  let idx := computeTreeIndex nb
  let start : Walk := { t := ← treebin idx, v := 0, rsize := neg64 nb,
                        sizebits := shl64 nb (leftshiftForTreeIndex idx), rst := 0 }
  let w ← (if start.t ≠ 0 then tmallocLarge.walk nb fuel start else pure start : Prog Walk)
  tmallocLarge.settle fuel nb idx w

def unlinkSmallChunk (P S : Nat) : Prog Unit := do
  let F ← Chunk.fd P
  let B ← Chunk.bk P
  let I := smallIndex S
  let bin := (← readGm).smallbinAt I
  if ← (pure (F == bin) <||> (okAddress F <&&> do return (← Chunk.bk F) == P)) then
    if B = F then clearSmallmap I
    else if ← (pure (B == bin) <||> (okAddress B <&&> do return (← Chunk.fd B) == P)) then
      Chunk.setBk F B
      Chunk.setFd B F
    else throw .corrupted
  else throw .corrupted

def unlinkChunk (fuel P S : Nat) : Prog Unit :=
  if isSmall S then unlinkSmallChunk P S else unlinkLargeChunk fuel P

def shouldTrim (s : Nat) : Prog Bool := do return decide (s > (← readGm).trimCheck)

def sysTrim (_pad : Nat) : Prog Nat := return 1

end MallocState

end Unimem
