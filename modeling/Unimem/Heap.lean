import Unimem.UniAllocator
import Unimem.Tiling

/-!
The abstract allocator: a segment as a list of blocks in address order, top the
last of them, and the free store as lists of addresses. It says which block each
call takes, splits, merges and files, with no memory, links or bitmaps. A tree
bin holds blocks of one size: a second size is the refused `link`. `lastOut` is
what the header of an emptied small bin still points to.
-/

namespace Unimem

structure Block where
  addr : Nat
  size : Nat
  cinuse : Bool
  pinuse : Bool
  deriving DecidableEq

abbrev Block.stop (b : Block) : Nat := b.addr + b.size

/-- One tree bin: the common size of its nodes, the root first. -/
structure TreeBin where
  size : Nat
  nodes : List Nat

structure Heap where
  blocks : List Block
  top : Nat
  small : Nat → List Nat
  lastOut : Nat → Option Nat
  tree : Nat → TreeBin
  dv : Nat
  dvsize : Nat

/-- Taking a node out of a tree bin: for the root, the last node comes forward. -/
def dropNode (p : Nat) : List Nat → List Nat
  | [] => []
  | root :: rest =>
      if root = p then
        match rest.getLast? with
        | none => []
        | some last => last :: rest.dropLast
      else root :: rest.erase p

/-- A further node of the same size goes behind the root. -/
def addNode (p : Nat) : List Nat → List Nat
  | [] => [p]
  | root :: rest => root :: p :: rest

namespace Heap

def blockAt (h : Heap) (p : Nat) : Option Block := h.blocks.find? fun b => b.addr = p

def blockEnding (h : Heap) (p : Nat) : Option Block := h.blocks.find? fun b => b.stop = p

def topsize (h : Heap) : Nat := ((h.blockAt h.top).map Block.size).getD 0

/-- Replaces the blocks that start in `[low, high)`. -/
def relay (h : Heap) (low high : Nat) (blocks : List Block) : Heap :=
  { h with blocks := h.blocks.filter (fun b => b.addr < low) ++ blocks ++
      h.blocks.filter (fun b => high ≤ b.addr) }

def unlink (h : Heap) (p s : Nat) : Heap :=
  if s < 256 then
    { h with small := Function.update h.small (s / 8) ((h.small (s / 8)).erase p)
             lastOut := Function.update h.lastOut (s / 8) (some p) }
  else
    let i := computeTreeIndex s
    { h with tree := Function.update h.tree i ⟨(h.tree i).size, dropNode p (h.tree i).nodes⟩ }

def link (h : Heap) (p s : Nat) : Option Heap :=
  if s < 256 then
    some { h with small := Function.update h.small (s / 8) (p :: h.small (s / 8)) }
  else
    let i := computeTreeIndex s
    if (h.tree i).nodes = [] ∨ (h.tree i).size = s then
      some { h with tree := Function.update h.tree i ⟨s, addNode p (h.tree i).nodes⟩ }
    else none

/-- `b` is handed out whole; `n` follows it. -/
def use (h : Heap) (b n : Block) : Heap :=
  h.relay b.addr n.stop [⟨b.addr, b.size, true, true⟩, { n with pinuse := true }]

/-- The first `nb` bytes of `b` are handed out, the rest stays free; `n` follows it. -/
def split (h : Heap) (b n : Block) (nb : Nat) : Heap :=
  h.relay b.addr n.stop
    [⟨b.addr, nb, true, true⟩, ⟨b.addr + nb, b.size - nb, false, true⟩, n]

/-- The first `nb` bytes of top `t` are handed out. -/
def splitTop (h : Heap) (t : Block) (nb : Nat) : Heap :=
  { h.relay t.addr t.stop
      [⟨t.addr, nb, true, true⟩, ⟨t.addr + nb, t.size - nb, t.cinuse, true⟩] with
    top := t.addr + nb }

def fileDv (h : Heap) : Option Heap :=
  if h.dvsize = 0 then some h else h.link h.dv h.dvsize

def setDv (h : Heap) (p s : Nat) : Heap := { h with dv := p, dvsize := s }

/-- Where the bytes of a request come from. -/
inductive Pick where
  | bin (p s : Nat)
  | dv
  | top
  | expand
  deriving DecidableEq

def pickRest (h : Heap) (nb : Nat) : Pick :=
  if nb ≤ h.dvsize then .dv else if nb < h.topsize then .top else .expand

def nextSmall (h : Heap) (i : Nat) : Option Nat :=
  (List.range 32).find? fun j => decide (i < j) && !(h.small j).isEmpty

def nextTree (h : Heap) (i : Nat) : Option Nat :=
  (List.range 32).find? fun j => decide (i ≤ j) && !(h.tree j).nodes.isEmpty

def pickTree (h : Heap) (i : Nat) : Pick := .bin ((h.tree i).nodes.headD 0) (h.tree i).size

/-- The bin whose root the search for a large `nb` settles on. -/
def largeFit (h : Heap) (nb : Nat) : Option Nat :=
  let i := computeTreeIndex nb
  if (h.tree i).nodes ≠ [] ∧ nb ≤ (h.tree i).size then some i
  else (h.nextTree (i + 1)).filter fun j => decide (nb ≤ (h.tree j).size)

def pickSmall (h : Heap) (nb : Nat) : Pick :=
  match h.small (nb / 8) with
  | p :: _ => .bin p nb
  | [] =>
    if nb ≤ h.dvsize then .dv
    else
      match h.nextSmall (nb / 8) with
      | some i => .bin ((h.small i).headD 0) (8 * i)
      | none =>
        match h.nextTree 0 with
        | some i => h.pickTree i
        | none => h.pickRest nb

def pickLarge (h : Heap) (nb : Nat) : Pick :=
  match h.largeFit nb with
  | some i => if (h.tree i).size < h.dvsize ∨ h.dvsize < nb then h.pickTree i else h.pickRest nb
  | none => h.pickRest nb

def pick (h : Heap) (bytes : Nat) : Pick :=
  let nb := paddedRequest bytes
  if bytes ≤ maxSmallRequest then h.pickSmall nb
  else if bytes ≥ maxRequest then h.pickRest nb
  else h.pickLarge nb

inductive Reply where
  | served (mem : Nat) (after : Heap)
  | corrupted
  | expand

/-- A small request's remainder becomes dv, a large one's is filed. -/
def keepRest (h : Heap) (bytes p s : Nat) : Option Heap :=
  if bytes ≤ maxSmallRequest then h.fileDv.map fun h => h.setDv p s else h.link p s

def serveBin (h : Heap) (bytes p s : Nat) (b n : Block) : Reply :=
  let nb := paddedRequest bytes
  let h := h.unlink p s
  if s - nb < 32 then .served (p + 32) (h.use b n)
  else
    match (h.split b n nb).keepRest bytes (p + nb) (s - nb) with
    | some h => .served (p + 32) h
    | none => .corrupted

def serveDv (h : Heap) (nb : Nat) (b n : Block) : Heap :=
  if h.dvsize - nb < 32 then (h.use b n).setDv 0 0
  else (h.split b n nb).setDv (h.dv + nb) (h.dvsize - nb)

def serve (h : Heap) (bytes : Nat) : Pick → Reply
  | .bin p s =>
      match h.blockAt p, h.blockAt (p + s) with
      | some b, some n => h.serveBin bytes p s b n
      | _, _ => .corrupted
  | .dv =>
      match h.blockAt h.dv, h.blockAt (h.dv + h.dvsize) with
      | some b, some n => .served (h.dv + 32) (h.serveDv (paddedRequest bytes) b n)
      | _, _ => .corrupted
  | .top =>
      match h.blockAt h.top with
      | some t => .served (h.top + 32) (h.splitTop t (paddedRequest bytes))
      | none => .corrupted
  | .expand => .expand

def alloc (h : Heap) (bytes : Nat) : Reply := h.serve bytes (h.pick bytes)

/-- `[p, p + size)` becomes a free block, the blocks in it go; `n` follows it. -/
def freed (h : Heap) (p size : Nat) (n : Block) : Heap :=
  h.relay p n.stop [⟨p, size, false, true⟩, { n with pinuse := false }]

/-- As `freed`, with the free block `n` merged in. -/
def merged (h : Heap) (p size : Nat) (n : Block) : Heap :=
  h.relay p n.stop [⟨p, size + n.size, false, true⟩]

/-- `[p, p + psize)` is to be free, nothing of it filed; `n` follows it. -/
def freeForward (h : Heap) (p psize : Nat) (n : Block) : Option Heap :=
  if n.cinuse then (h.freed p psize n).link p psize
  else if n.addr = h.top then
    let h' := { h.merged p psize n with top := p }
    some (if p = h.dv then h'.setDv 0 0 else h')
  else if n.addr = h.dv then some ((h.merged p psize n).setDv p (h.dvsize + psize))
  else
    let h' := (h.unlink n.addr n.size).merged p psize n
    if p = h.dv then some (h'.setDv p (psize + n.size)) else h'.link p (psize + n.size)

/-- `b` is freed, `n` follows it, `q` is the free block in front of it, if any. -/
def freeBlock (h : Heap) (b n : Block) : Option Block → Option Heap
  | none => h.freeForward b.addr b.size n
  | some q =>
      if q.addr ≠ h.dv then (h.unlink q.addr q.size).freeForward q.addr (b.size + q.size) n
      else if n.cinuse then
        some ((h.freed q.addr (b.size + q.size) n).setDv q.addr (b.size + q.size))
      else h.freeForward q.addr (b.size + q.size) n

def free (h : Heap) (p : Nat) : Option Heap :=
  match h.blockAt p with
  | none => none
  | some b =>
      match h.blockAt b.stop with
      | none => none
      | some n => h.freeBlock b n (if b.pinuse then none else h.blockEnding p)

end Heap

end Unimem
