import Unimem.Calls

/-!
The allocator with its helpers' preconditions checked on entry. Every function
that calls a helper is written out again, with a `guard` run at each place where
the code relies on something: a guard that does nothing gives the code back, and
one that asserts stops at the first precondition that does not hold.
-/

namespace Unimem

open Fuelled WordArith MallocState

/-- What is done with a check. -/
abbrev Guard : Type := Prog Bool → Prog Unit

namespace Guard

def idle : Guard := fun _ => pure ()

def asserting : Guard := fun check => do
  if ¬ (← check) then throw .assertion

end Guard

/-! ## The preconditions -/

namespace Guarded

def indexed (i : Nat) : Prog Bool := return decide (i < nsmallbins ∧ i < ntreebins)

def present (p : Nat) : Prog Bool := return decide (p ≠ 0)

def stored (p size : Nat) : Prog Bool := do return (← Chunk.chunksize p) == size

def smallSized (size : Nat) : Prog Bool :=
  return decide (minChunkSize ≤ size ∧ size < minLargeSize)

/-- A free chunk of `size` bytes. -/
def vacant (p size : Nat) : Prog Bool := do
  return decide ((← Chunk.cinuse p) = 0 ∧ (← Chunk.chunksize p) = size)

/-- The mask is not zero, and the small bin it names holds a chunk. -/
def namesSmall (mask : Nat) : Prog Bool := do
  let i := computeBit2idx mask
  let b := (← readGm).smallbinAt i
  let p ← Chunk.fd b
  return decide (mask ≠ 0 ∧ p ≠ b ∧ (← Chunk.bk p) = b) && (← vacant p (smallIndex2size i))

/-- The mask is not zero, and the tree bin it names holds a chunk. -/
def namesTree (mask : Nat) : Prog Bool := do
  let i := computeBit2idx mask
  let t ← treebin i
  let size ← Chunk.chunksize t
  return decide (mask ≠ 0 ∧ t ≠ 0 ∧ computeTreeIndex size = i) && (← vacant t size)

/-! ## The functions -/

variable (guard : Guard)

def initBins.loop : Nat → Nat → Prog Unit
  | 0, _ => pure ()
  | left + 1, i => do
      guard (indexed i)
      let bin := (← readGm).smallbinAt i
      Chunk.setBk bin bin
      Chunk.setFd bin bin
      initBins.loop left (i + 1)

def initOrExpand : Prog Unit := do
  let tsize := (← readThis).increasingSize * (← readThis).increasingStep % 2 ^ 64
  let tbase ← underlyingAlloc tsize
  if ¬ (← isInitialized) then
    if (← readGm).leastAddr = 0 ∨ tbase < (← readGm).leastAddr then
      writeGm fun g => { g with leastAddr := tbase }
    writeGm fun g => { g with magic := sizeTOne }
    writeGm fun g => { g with releaseChecks := maxReleaseCheckRate }
    initBins.loop guard nsmallbins 0
    initTop tbase (sub64 tsize topFootSize)

def unlinkFirstSmallChunk (B P I : Nat) : Prog Unit := do
  guard (indexed I)
  guard (stored P (smallIndex2size I))
  MallocState.unlinkFirstSmallChunk B P I

def unlinkSmallChunk (P S : Nat) : Prog Unit := do
  guard (indexed (smallIndex S))
  guard (stored P S)
  MallocState.unlinkSmallChunk P S

def insertSmallChunk (P S : Nat) : Prog Unit := do
  guard (smallSized S)
  guard (indexed (smallIndex S))
  MallocState.insertSmallChunk P S

def insertLargeChunk (fuel X S : Nat) : Prog Unit := do
  guard (indexed (computeTreeIndex S))
  MallocState.insertLargeChunk fuel X S

def insertChunk (fuel P S : Nat) : Prog Unit :=
  if isSmall S then insertSmallChunk guard P S else insertLargeChunk guard fuel P S

def replaceDv (P S : Nat) : Prog Unit := do
  let DVS := (← readGm).dvsize
  guard (return isSmall DVS)
  if ¬ isSmall DVS then throw .assertion
  else
    if DVS ≠ 0 then insertSmallChunk guard (← readGm).dv DVS
    writeGm fun g => { g with dvsize := S }
    writeGm fun g => { g with dv := P }

def unlinkLargeChunk (fuel X : Nat) : Prog Unit := do
  let XP ← TreeChunk.parent X
  let R ← unlinkLargeChunk.replacement fuel X
  if XP ≠ 0 then
    let i ← TreeChunk.index X
    guard (indexed i)
    if X = (← treebin i) then
      setTreebin i R
      if R = 0 then
        guard (do indexed (← TreeChunk.index X))
        clearTreemap (← TreeChunk.index X)
      unlinkLargeChunk.inherit X R XP
    else if ← okAddress XP then
      if (← TreeChunk.child XP 0) = X then TreeChunk.setChild XP 0 R
      else TreeChunk.setChild XP 1 R
      unlinkLargeChunk.inherit X R XP
    else throw .corrupted

def unlinkChunk (fuel P S : Nat) : Prog Unit :=
  if isSmall S then unlinkSmallChunk guard P S else unlinkLargeChunk guard fuel P

def leastOfPath (nb : Nat) : Nat → Nat × Nat × Nat → Prog (Nat × Nat)
  | 0, _ => throw .fuel
  | fuel + 1, (t, v, rsize) => do
      if t = 0 then return (v, rsize)
      else
        guard (present t)
        let trem := sub64 (← Chunk.chunksize t) nb
        let best := if trem < rsize then (t, trem) else (v, rsize)
        leastOfPath nb fuel (← TreeChunk.leftmostChild t, best.1, best.2)

def splitTree (fuel nb v rsize : Nat) (keep : Nat → Nat → Prog Unit) : Prog Nat := do
  if ← okAddress v then
    let r := chunkPlusOffset v nb
    if okNext v r then
      unlinkLargeChunk guard fuel v
      if rsize < minChunkSize then setInuseAndPinuse v (add64 rsize nb)
      else
        setSizeAndPinuseOfInuseChunk v nb
        Chunk.setSizeAndPinuseOfFreeChunk r rsize
        keep r rsize
      return chunk2mem v
    else throw .corrupted
  else throw .corrupted

def tmallocSmall (fuel nb : Nat) : Prog Nat := do
  guard (do namesTree (leastBit (← readGm).treemap))
  let i := computeBit2idx (leastBit (← readGm).treemap)
  guard (indexed i)
  let t ← treebin i
  guard (present t)
  let rsize := sub64 (← Chunk.chunksize t) nb
  let best ← leastOfPath guard nb fuel (← TreeChunk.leftmostChild t, t, rsize)
  splitTree guard fuel nb best.1 best.2 (replaceDv guard)

def tmallocLarge.walk (nb : Nat) : Nat → Walk → Prog Walk
  | 0, _ => throw .fuel
  | fuel + 1, w => do
      guard (present w.t)
      let trem := sub64 (← Chunk.chunksize w.t) nb
      if trem < w.rsize ∧ trem = 0 then return { w with v := w.t, rsize := trem }
      else
        let w := if trem < w.rsize then { w with v := w.t, rsize := trem } else w
        let rt ← TreeChunk.child w.t 1
        let t ← TreeChunk.child w.t ((w.sizebits >>> (sizeTBitsize - sizeTOne)) &&& 1)
        let w := if rt ≠ 0 ∧ rt ≠ t then { w with rst := rt } else w
        if t = 0 then return { w with t := w.rst }
        else tmallocLarge.walk nb fuel { w with t := t, sizebits := shl64 w.sizebits 1 }

def tmallocLarge.nextBin (idx : Nat) : Prog Nat := do
  let leftbits := leftBits (idx2bit idx) &&& (← readGm).treemap
  if leftbits ≠ 0 then
    guard (namesTree (leastBit leftbits))
    guard (indexed (computeBit2idx (leastBit leftbits)))
    treebin (computeBit2idx (leastBit leftbits))
  else return 0

def tmallocLarge.settle (fuel nb idx : Nat) (w : Walk) : Prog Nat := do
  let t ← (if w.t = 0 ∧ w.v = 0 then tmallocLarge.nextBin guard idx else pure w.t : Prog Nat)
  let best ← leastOfPath guard nb fuel (t, w.v, w.rsize)
  if best.1 ≠ 0 ∧ best.2 < sub64 (← readGm).dvsize nb then
    splitTree guard fuel nb best.1 best.2 (insertChunk guard fuel)
  else return 0

def tmallocLarge (fuel nb : Nat) : Prog Nat := do
  let idx := computeTreeIndex nb
  guard (indexed idx)
  let start : Walk := { t := ← treebin idx, v := 0, rsize := neg64 nb,
                        sizebits := shl64 nb (leftshiftForTreeIndex idx), rst := 0 }
  let w ← (if start.t ≠ 0 then tmallocLarge.walk guard nb fuel start else pure start : Prog Walk)
  tmallocLarge.settle guard fuel nb idx w

def allocExactSmall (idx smallbits : Nat) : Prog Nat := do
  let idx := idx + (not32 smallbits &&& 1)
  guard (indexed idx)
  let b := (← readGm).smallbinAt idx
  let p ← Chunk.fd b
  unlinkFirstSmallChunk guard b p idx
  setInuseAndPinuse p (smallIndex2size idx)
  return chunk2mem p

def allocNextSmall (nb idx smallbits : Nat) : Prog Nat := do
  let leftbits := shl32 smallbits idx &&& leftBits (idx2bit idx)
  guard (namesSmall (leastBit leftbits))
  let i := computeBit2idx (leastBit leftbits)
  guard (indexed i)
  let b := (← readGm).smallbinAt i
  let p ← Chunk.fd b
  unlinkFirstSmallChunk guard b p i
  let rsize := sub64 (smallIndex2size i) nb
  if sizeTSize ≠ 4 ∧ rsize < minChunkSize then setInuseAndPinuse p (smallIndex2size i)
  else
    setSizeAndPinuseOfInuseChunk p nb
    let r := chunkPlusOffset p nb
    Chunk.setSizeAndPinuseOfFreeChunk r rsize
    replaceDv guard r rsize
  return chunk2mem p

def tryAlloc (fuel bytes : Nat) : Prog (Option Nat) := do
  let nb := paddedRequest bytes
  if bytes ≤ maxSmallRequest then
    let idx := smallIndex nb
    guard (indexed idx)
    let smallbits := (← readGm).smallmap >>> idx
    if smallbits &&& 0x3 ≠ 0 then return some (← allocExactSmall guard idx smallbits)
    else if nb > (← readGm).dvsize then
      if smallbits ≠ 0 then return some (← allocNextSmall guard nb idx smallbits)
      else if (← readGm).treemap ≠ 0 then
        let mem ← tmallocSmall guard fuel nb
        if mem ≠ 0 then return some mem else allocFromDvOrTop nb
      else allocFromDvOrTop nb
    else allocFromDvOrTop nb
  else if bytes ≥ maxRequest then allocFromDvOrTop nb
  else if (← readGm).treemap ≠ 0 then
    let mem ← tmallocLarge guard fuel nb
    if mem ≠ 0 then return some mem else allocFromDvOrTop nb
  else allocFromDvOrTop nb

def alloc : Nat → Nat → Prog Nat
  | 0, _ => throw .fuel
  | fuel + 1, bytes => do
      match ← tryAlloc guard fuel bytes with
      | some mem => return mem
      | none =>
          initOrExpand guard
          alloc fuel bytes

def freeInsert (fuel p psize : Nat) : Prog Unit :=
  if isSmall psize then insertSmallChunk guard p psize else insertLargeChunk guard fuel p psize

def freeForward (fuel p psize next : Nat) : Prog Unit := do
  if ← (pure (okNext p next) <&&> do return (← Chunk.pinuse next) != 0) then
    if (← Chunk.cinuse next) = 0 then
      if next = (← readGm).top then
        let tsize := add64 (← readGm).topsize psize
        writeGm fun g => { g with topsize := tsize }
        writeGm fun g => { g with top := p }
        Chunk.setHead p (tsize ||| pinuseBit)
        if p = (← readGm).dv then
          writeGm fun g => { g with dv := 0 }
          writeGm fun g => { g with dvsize := 0 }
        if ← shouldTrim tsize then
          let _ ← sysTrim 0
      else if next = (← readGm).dv then
        let dsize := add64 (← readGm).dvsize psize
        writeGm fun g => { g with dvsize := dsize }
        writeGm fun g => { g with dv := p }
        Chunk.setSizeAndPinuseOfFreeChunk p dsize
      else
        let nsize ← Chunk.chunksize next
        let psize := add64 psize nsize
        unlinkChunk guard fuel next nsize
        Chunk.setSizeAndPinuseOfFreeChunk p psize
        if p = (← readGm).dv then writeGm fun g => { g with dvsize := psize }
        else freeInsert guard fuel p psize
    else
      Chunk.setFreeWithPinuse p psize next
      freeInsert guard fuel p psize

def free (fuel mem : Nat) : Prog Unit := do
  if mem ≠ 0 then
    let p := mem2chunk mem
    if ← (okAddress p <&&> Chunk.isInuse p) then
      let psize ← Chunk.chunksize p
      let next := chunkPlusOffset p psize
      if (← Chunk.pinuse p) = 0 then
        let prevsize ← Chunk.prevFoot p
        let prev := chunkMinusOffset p prevsize
        let psize := add64 psize prevsize
        if ← okAddress prev then
          if prev ≠ (← readGm).dv then
            unlinkChunk guard fuel prev prevsize
            freeForward guard fuel prev psize next
          else if (← Chunk.head next) &&& inuseBits = inuseBits then
            writeGm fun g => { g with dvsize := psize }
            Chunk.setFreeWithPinuse prev psize next
          else freeForward guard fuel prev psize next
        else throw .corrupted
      else freeForward guard fuel p psize next

def run (fuel : Nat) : Call → Prog Nat
  | .alloc bytes => alloc guard fuel bytes
  | .free mem => do free guard fuel mem; return 0
  | .expand => do initOrExpand guard; return 0

/-! ## A guard that does nothing -/

section Idle

@[simp] theorem idle_bind {α : Type} (check : Prog Bool) (rest : Unit → Prog α) :
    (Guard.idle check >>= rest) = rest () := rfl

@[simp] theorem initBins_loop_idle (left i : Nat) :
    initBins.loop Guard.idle left i = MallocState.initBins.loop left i := by
  induction left generalizing i with
  | zero => rfl
  | succ left ih => simp only [initBins.loop, MallocState.initBins.loop, idle_bind, ih]

@[simp] theorem initOrExpand_idle : initOrExpand Guard.idle = Unimem.initOrExpand := by
  simp only [initOrExpand, Unimem.initOrExpand, initBins_loop_idle, initBins]

@[simp] theorem insertChunk_idle (fuel : Nat) :
    insertChunk Guard.idle fuel = MallocState.insertChunk fuel := rfl

@[simp] theorem replaceDv_idle : replaceDv Guard.idle = MallocState.replaceDv := rfl

@[simp] theorem leastOfPath_idle (nb fuel : Nat) (node : Nat × Nat × Nat) :
    leastOfPath Guard.idle nb fuel node = MallocState.leastOfPath nb fuel node := by
  induction fuel generalizing node with
  | zero => rfl
  | succ fuel ih => simp only [leastOfPath, MallocState.leastOfPath, idle_bind, ih]

@[simp] theorem splitTree_idle (fuel nb v rsize : Nat) (keep : Nat → Nat → Prog Unit) :
    splitTree Guard.idle fuel nb v rsize keep = MallocState.splitTree fuel nb v rsize keep := rfl

@[simp] theorem tmallocSmall_idle (fuel nb : Nat) :
    tmallocSmall Guard.idle fuel nb = MallocState.tmallocSmall fuel nb := by
  simp only [tmallocSmall, MallocState.tmallocSmall, idle_bind, leastOfPath_idle, splitTree_idle,
    replaceDv_idle]

@[simp] theorem walk_idle (nb fuel : Nat) (w : Walk) :
    tmallocLarge.walk Guard.idle nb fuel w = MallocState.tmallocLarge.walk nb fuel w := by
  induction fuel generalizing w with
  | zero => rfl
  | succ fuel ih => simp only [tmallocLarge.walk, MallocState.tmallocLarge.walk, idle_bind, ih]

@[simp] theorem nextBin_idle (idx : Nat) :
    tmallocLarge.nextBin Guard.idle idx = MallocState.tmallocLarge.nextBin idx := rfl

@[simp] theorem settle_idle (fuel nb idx : Nat) (w : Walk) :
    tmallocLarge.settle Guard.idle fuel nb idx w =
      MallocState.tmallocLarge.settle fuel nb idx w := by
  simp only [tmallocLarge.settle, MallocState.tmallocLarge.settle, nextBin_idle, leastOfPath_idle,
    splitTree_idle, insertChunk_idle]

@[simp] theorem tmallocLarge_idle (fuel nb : Nat) :
    tmallocLarge Guard.idle fuel nb = MallocState.tmallocLarge fuel nb := by
  simp only [tmallocLarge, MallocState.tmallocLarge, idle_bind, walk_idle, settle_idle]

@[simp] theorem allocExactSmall_idle (idx smallbits : Nat) :
    allocExactSmall Guard.idle idx smallbits = Unimem.allocExactSmall idx smallbits := rfl

@[simp] theorem allocNextSmall_idle (nb idx smallbits : Nat) :
    allocNextSmall Guard.idle nb idx smallbits = Unimem.allocNextSmall nb idx smallbits := rfl

@[simp] theorem tryAlloc_idle (fuel bytes : Nat) :
    tryAlloc Guard.idle fuel bytes = Unimem.tryAlloc fuel bytes := by
  simp only [tryAlloc, Unimem.tryAlloc, idle_bind, allocExactSmall_idle, allocNextSmall_idle,
    tmallocSmall_idle, tmallocLarge_idle]

@[simp] theorem alloc_idle (fuel bytes : Nat) :
    alloc Guard.idle fuel bytes = Unimem.alloc fuel bytes := by
  induction fuel with
  | zero => rfl
  | succ fuel ih =>
      rw [alloc, Unimem.alloc, tryAlloc_idle]
      refine bind_congr fun found => ?_
      cases found with
      | some mem => rfl
      | none => simp only [initOrExpand_idle, ih]

@[simp] theorem unlinkChunk_idle (fuel : Nat) :
    unlinkChunk Guard.idle fuel = MallocState.unlinkChunk fuel := rfl

@[simp] theorem freeInsert_idle (fuel : Nat) :
    freeInsert Guard.idle fuel = Unimem.freeInsert fuel := rfl

@[simp] theorem freeForward_idle (fuel : Nat) :
    freeForward Guard.idle fuel = Unimem.freeForward fuel := by
  funext p psize next
  unfold freeForward Unimem.freeForward
  rw [unlinkChunk_idle, freeInsert_idle]

@[simp] theorem free_idle (fuel mem : Nat) :
    free Guard.idle fuel mem = Unimem.free fuel mem := by
  unfold free Unimem.free
  rw [unlinkChunk_idle, freeForward_idle]

/-- Without checks the functions above are the code's. -/
theorem run_idle (fuel : Nat) (call : Call) : run Guard.idle fuel call = call.run fuel := by
  cases call with
  | alloc bytes => simp only [run, Call.run, alloc_idle]
  | free mem => simp only [run, Call.run, free_idle]
  | expand => simp only [run, Call.run, initOrExpand_idle]

end Idle

end Guarded

end Unimem
