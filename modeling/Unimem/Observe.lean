import Unimem.Startup

/-!
What the words of a store say, with no heap in sight: the chunks met by walking
the segment from its first chunk, the members met by following a bin's links,
and the bytes the allocator keeps as bookkeeping. A represented store says what
its heap says.
-/

namespace Unimem

open Tiling ByteMemory Memory LinkedRing WordArith MallocState

namespace Store

def headAt (s : Store) (p : Nat) : Nat := s.mem.load (p + 8) 8
def prevFootAt (s : Store) (p : Nat) : Nat := s.mem.load p 8
def sizeAt (s : Store) (p : Nat) : Nat := s.headAt p &&& not64 flagBits
def cinuseAt (s : Store) (p : Nat) : Bool := s.headAt p &&& cinuseBit != 0
def pinuseAt (s : Store) (p : Nat) : Bool := s.headAt p &&& pinuseBit != 0

/-- The chunks of the segment, in steps of the size in head up to top. -/
inductive IsChunk (s : Store) (first : Nat) : Nat → Prop
  | first : s.gm.top ≠ 0 → IsChunk s first first
  | next {p : Nat} : IsChunk s first p → p ≠ s.gm.top →
      IsChunk s first (chunkPlusOffset p (s.sizeAt p))

/-- A chunk other than top, with its size and what its CINUSE bit says. -/
def ChunkIs (s : Store) (first : Nat) (inuse : Bool) (p size : Nat) : Prop :=
  s.IsChunk first p ∧ p ≠ s.gm.top ∧ s.sizeAt p = size ∧ s.cinuseAt p = inuse

abbrev FreeChunk (s : Store) (first p size : Nat) : Prop := s.ChunkIs first false p size
abbrev UsedChunk (s : Store) (first p size : Nat) : Prop := s.ChunkIs first true p size

def InSmallbin (s : Store) (i p : Nat) : Prop :=
  s.gm.smallmap.testBit i = true ∧ Reached (fdAt s.mem) (s.gm.smallbinAt i) p

/-- The chunks of a tree bin: down the children, and along each node's ring. -/
inductive InTreebin (s : Store) (i : Nat) : Nat → Prop
  | root : s.gm.treebins i ≠ 0 → InTreebin s i (s.gm.treebins i)
  | child {p : Nat} (j : Nat) : j < 2 → InTreebin s i p → childAt s.mem p j ≠ 0 →
      InTreebin s i (childAt s.mem p j)
  | same {p : Nat} : InTreebin s i p → InTreebin s i (fdAt s.mem p)

def Binned (s : Store) (p : Nat) : Prop := ∃ i < 32, s.InSmallbin i p ∨ s.InTreebin i p

/-- The bytes the allocator keeps for itself: its object, all heads, the foot of
each free chunk, and the link fields of the chunks in bins. -/
def Bookkeeping (s : Store) (first x : Nat) : Prop :=
  (s.gm.this ≤ x ∧ x < s.gm.this + mallocStateSize) ∨
  (∃ p, s.IsChunk first p ∧ p + 8 ≤ x ∧ x < p + 16) ∨
  (∃ p size, s.FreeChunk first p size ∧ p + size ≤ x ∧ x < p + size + 8) ∨
  (∃ i < 32, ∃ p, s.InSmallbin i p ∧ p + 16 ≤ x ∧ x < p + 32) ∨
  (∃ i < 32, ∃ p, s.InTreebin i p ∧ p + 16 ≤ x ∧ x < p + 60)

end Store

namespace Represents

variable {first stop limit : Nat} {s : Store} {h : Heap} {loose : List Nat}

theorem sizeAt_eq (rep : Represents first stop limit s h loose) {b : Block} (member : b ∈ h.blocks)
    (notTop : b.addr ≠ h.top) : s.sizeAt b.addr = b.size := rep.tags.size_of_head member notTop

theorem cinuseAt_eq (rep : Represents first stop limit s h loose) {b : Block}
    (member : b ∈ h.blocks) : s.cinuseAt b.addr = b.cinuse := by
  have flags := (rep.tags.head_flags member).2
  have mask : cinuseBit = 2 := rfl
  rw [Store.cinuseAt, Store.headAt, mask, and_two, flags]
  cases b.cinuse <;> rfl

theorem pinuseAt_eq (rep : Represents first stop limit s h loose) {b : Block}
    (member : b ∈ h.blocks) : s.pinuseAt b.addr = b.pinuse := by
  have flags := (rep.tags.head_flags member).1
  have mask : pinuseBit = 1 := rfl
  rw [Store.pinuseAt, Store.headAt, mask, Nat.and_one_is_mod, flags]
  cases b.pinuse <;> rfl

theorem top_ne_zero (rep : Represents first stop limit s h loose) : s.gm.top ≠ 0 := by
  obtain ⟨t, inBlocks, here, -⟩ := rep.layout.topBlock
  have := (rep.layout.bounds inBlocks).1
  have := rep.layout.positive
  rw [rep.top]
  omega

/-- The walk's step is the next block. -/
theorem step_eq (rep : Represents first stop limit s h loose) {b : Block} (member : b ∈ h.blocks)
    (notTop : b.addr ≠ h.top) : chunkPlusOffset b.addr (s.sizeAt b.addr) = b.stop := by
  have := rep.layout.bounds member
  have := rep.layout.bound
  simp only [Block.stop] at *
  rw [rep.sizeAt_eq member notTop]
  exact add64_of_lt (by omega)

/-- The walk meets the blocks, and nothing else. -/
theorem chunk_iff (rep : Represents first stop limit s h loose) (p : Nat) :
    s.IsChunk first p ↔ ∃ b ∈ h.blocks, b.addr = p := by
  have layout := rep.layout
  constructor
  · intro chunk
    induction chunk with
    | first =>
        obtain ⟨below, t, shape, -⟩ := layout.last
        have tiles := layout.tiles
        cases blocks : h.blocks with
        | nil => simp [blocks] at shape
        | cons b rest =>
            rw [blocks] at tiles
            exact ⟨b, List.mem_cons_self, tiles.1⟩
    | next _ notTop ih =>
        obtain ⟨b, member, rfl⟩ := ih
        rw [rep.top] at notTop
        obtain ⟨below, n, above, shape, next⟩ := layout.successor member notTop
        rw [rep.step_eq member notTop, ← next]
        exact ⟨n, by simp [shape], rfl⟩
  · rintro ⟨b, member, rfl⟩
    obtain ⟨below, above, shape⟩ := List.append_of_mem member
    clear member
    -- each block is walked to from the last one below it
    induction below using List.reverseRecOn generalizing b above with
    | nil =>
        have tiles := layout.tiles
        rw [shape] at tiles
        rw [tiles.1]
        exact Store.IsChunk.first rep.top_ne_zero
    | append_singleton front c ih =>
        rw [List.append_assoc, List.singleton_append] at shape
        have tiles := layout.tiles
        rw [shape] at tiles
        have next := (tiles_split tiles).2.1
        have inBlocks : c ∈ h.blocks := by simp [shape]
        have notTop := layout.ne_top_of_le inBlocks (n := b) (by simp [shape])
          (Nat.le_of_eq next.symm)
        rw [next]
        show s.IsChunk first c.stop
        rw [← rep.step_eq inBlocks notTop]
        exact Store.IsChunk.next (ih c (b :: above) shape) (by rw [rep.top]; exact notTop)

theorem chunkIs_iff (rep : Represents first stop limit s h loose) (inuse : Bool) (p size : Nat) :
    s.ChunkIs first inuse p size ↔ BlockAt h.top h.blocks p size inuse := by
  rw [Store.ChunkIs, rep.chunk_iff, rep.top]
  constructor
  · rintro ⟨⟨b, member, rfl⟩, notTop, rfl, rfl⟩
    exact ⟨notTop, b, member, rfl, (rep.sizeAt_eq member notTop).symm,
      (rep.cinuseAt_eq member).symm⟩
  · rintro ⟨notTop, b, member, rfl, rfl, rfl⟩
    exact ⟨⟨b, member, rfl⟩, notTop, rep.sizeAt_eq member notTop, rep.cinuseAt_eq member⟩

theorem freeChunk_iff (rep : Represents first stop limit s h loose) (p size : Nat) :
    s.FreeChunk first p size ↔ FreeAt h.top h.blocks p size := rep.chunkIs_iff false p size

theorem usedChunk_iff (rep : Represents first stop limit s h loose) (p size : Nat) :
    s.UsedChunk first p size ↔ h.Used p size := rep.chunkIs_iff true p size

theorem smallbin_iff (rep : Represents first stop limit s h loose) {i : Nat} (bound : i < 32)
    (p : Nat) : s.InSmallbin i p ↔ p ∈ h.small i := by
  rw [Store.InSmallbin, rep.small.marked i bound]
  constructor
  · rintro ⟨nonempty, reached⟩
    exact (ring_reached (rep.small.ring_nodup rep.layout rep.placed bound)
      (rep.small.ring i nonempty)).mp reached
  · intro member
    have nonempty := List.ne_nil_of_mem member
    exact ⟨nonempty, (ring_reached (rep.small.ring_nodup rep.layout rep.placed bound)
      (rep.small.ring i nonempty)).mpr member⟩

theorem treebin_iff (rep : Represents first stop limit s h loose) {i : Nat} (bound : i < 32)
    (p : Nat) : s.InTreebin i p ↔ p ∈ (h.tree i).nodes := by
  have bins := rep.tree
  have root := bins.root i bound
  have ring := bins.bin i
  have nonzero : ∀ q ∈ (h.tree i).nodes, q ≠ 0 := by
    intro q member
    have := (ring.member q member).geometry rep.layout
    have := rep.layout.positive
    omega
  constructor
  · intro inside
    -- on how the chunk is reached; the children of every node are null
    induction inside with
    | root present =>
        rw [root] at present ⊢
        cases shape : (h.tree i).nodes with
        | nil => simp [shape] at present
        | cons r rest => exact List.mem_cons_self
    | child j few _ present ih =>
        have fields := ring.leaf _ ih
        have none : j = 0 ∨ j = 1 := by omega
        rcases none with rfl | rfl
        · exact absurd fields.1 present
        · exact absurd fields.2.1 present
    | same _ ih =>
        obtain ⟨r, rest, shape⟩ := List.exists_cons_of_ne_nil (List.ne_nil_of_mem ih)
        rw [shape] at ih ⊢
        have follows := chain_follow (ring.ring r rest shape) _ ih
        simpa [or_comm] using follows
  · intro member
    obtain ⟨r, rest, shape⟩ := List.exists_cons_of_ne_nil (List.ne_nil_of_mem member)
    have nodup := ring.nodup
    have loop := ring.ring r rest shape
    rw [shape, List.headD_cons] at root
    have first : s.InTreebin i r := by
      have start := Store.InTreebin.root (s := s) (i := i)
        (by rw [root]; exact nonzero r (by simp [shape]))
      rwa [root] at start
    rw [shape] at member nodup
    rcases List.mem_cons.mp member with rfl | later
    · exact first
    · have reached := (ring_reached nodup loop).mpr later
      -- round the ring from the root
      induction reached with
      | first _ => exact Store.InTreebin.same first
      | later before _ ih =>
          have inRest := (ring_reached nodup loop).mp before
          exact Store.InTreebin.same (ih (List.mem_cons_of_mem _ inRest) inRest)

theorem binned_words (rep : Represents first stop limit s h loose) (p : Nat) :
    s.Binned p ↔ h.Binned p := by
  constructor
  · rintro ⟨i, bound, inSmall | inTree⟩
    · exact ⟨i, Or.inl ((rep.smallbin_iff bound p).mp inSmall)⟩
    · exact ⟨i, Or.inr ((rep.treebin_iff bound p).mp inTree)⟩
  · rintro ⟨i, inSmall | inTree⟩
    · have bound := (rep.small.member i p inSmall).1
      exact ⟨i, bound, Or.inl ((rep.smallbin_iff bound p).mpr inSmall)⟩
    · have bound := rep.tree.index_lt inTree
      exact ⟨i, bound, Or.inr ((rep.treebin_iff bound p).mpr inTree)⟩

/-- The bookkeeping bytes, by the heap. -/
theorem bookkeeping_iff (rep : Represents first stop limit s h loose) (x : Nat) :
    s.Bookkeeping first x ↔
      (s.gm.this ≤ x ∧ x < s.gm.this + mallocStateSize) ∨
      (∃ b ∈ h.blocks, b.addr + 8 ≤ x ∧ x < b.addr + 16) ∨
      (∃ p size, FreeAt h.top h.blocks p size ∧ p + size ≤ x ∧ x < p + size + 8) ∨
      (∃ i, ∃ p ∈ h.small i, p + 16 ≤ x ∧ x < p + 32) ∨
      (∃ i, ∃ p ∈ (h.tree i).nodes, p + 16 ≤ x ∧ x < p + 60) := by
  have heads : (∃ p, s.IsChunk first p ∧ p + 8 ≤ x ∧ x < p + 16) ↔
      ∃ b ∈ h.blocks, b.addr + 8 ≤ x ∧ x < b.addr + 16 := by
    simp only [rep.chunk_iff]
    constructor
    · rintro ⟨p, ⟨b, member, rfl⟩, inside⟩
      exact ⟨b, member, inside⟩
    · rintro ⟨b, member, inside⟩
      exact ⟨b.addr, ⟨b, member, rfl⟩, inside⟩
  have small : (∃ i < 32, ∃ p, s.InSmallbin i p ∧ p + 16 ≤ x ∧ x < p + 32) ↔
      ∃ i, ∃ p ∈ h.small i, p + 16 ≤ x ∧ x < p + 32 := by
    constructor
    · rintro ⟨i, bound, p, inBin, inside⟩
      exact ⟨i, p, (rep.smallbin_iff bound p).mp inBin, inside⟩
    · rintro ⟨i, p, inBin, inside⟩
      have bound := (rep.small.member i p inBin).1
      exact ⟨i, bound, p, (rep.smallbin_iff bound p).mpr inBin, inside⟩
  have tree : (∃ i < 32, ∃ p, s.InTreebin i p ∧ p + 16 ≤ x ∧ x < p + 60) ↔
      ∃ i, ∃ p ∈ (h.tree i).nodes, p + 16 ≤ x ∧ x < p + 60 := by
    constructor
    · rintro ⟨i, bound, p, inBin, inside⟩
      exact ⟨i, p, (rep.treebin_iff bound p).mp inBin, inside⟩
    · rintro ⟨i, p, inBin, inside⟩
      have bound := rep.tree.index_lt inBin
      exact ⟨i, bound, p, (rep.treebin_iff bound p).mpr inBin, inside⟩
  have free : (∃ p size, s.FreeChunk first p size ∧ p + size ≤ x ∧ x < p + size + 8) ↔
      ∃ p size, FreeAt h.top h.blocks p size ∧ p + size ≤ x ∧ x < p + size + 8 :=
    exists_congr fun p => exists_congr fun size => and_congr_left fun _ => rep.freeChunk_iff p size
  rw [Store.Bookkeeping, heads, small, tree, free]

/-- Only the bookkeeping bytes matter, and which bytes are mapped. -/
theorem carry (rep : Represents first stop limit s h loose) {limit' : Nat} {m' : Memory}
    (same : ∀ x, s.Bookkeeping first x → m'.byte x = s.mem.byte x)
    (reach : ∀ t ∈ h.blocks, t.addr = h.top → ∀ k, 0 < k → k % 16 = t.size % 16 →
      stop + 16 ≤ limit' + k)
    (segment : ∀ x, first ≤ x → x < limit' → m'.mapped x = true)
    (object : ∀ x, HeaderBytes s.gm x → m'.mapped x = true) :
    Represents first stop limit' { s with mem := m' } h loose := by
  -- every word that is read lies in the bookkeeping
  have kept : ∀ a n, (∀ x, a ≤ x → x < a + n → s.Bookkeeping first x) →
      m'.load a n = s.mem.load a n :=
    fun a n inside => load_congr _ _ a n fun x lower upper => same x (inside x lower upper)
  have placed := rep.placed
  have header : ∀ i < 32, fdAt m' (s.gm.smallbinAt i) = fdAt s.mem (s.gm.smallbinAt i) ∧
      bkAt m' (s.gm.smallbinAt i) = bkAt s.mem (s.gm.smallbinAt i) := by
    intro i bound
    have place := header_geometry placed bound
    have size : mallocStateSize = 904 := rfl
    constructor
    · exact kept _ _ fun x lower upper => Or.inl ⟨by omega, by omega⟩
    · exact kept _ _ fun x lower upper => Or.inl ⟨by omega, by omega⟩
  have small : ∀ i, ∀ p ∈ h.small i, fdAt m' p = fdAt s.mem p ∧ bkAt m' p = bkAt s.mem p := by
    intro i p member
    constructor
    · exact kept _ _ fun x lower upper => (rep.bookkeeping_iff x).mpr
        (Or.inr (Or.inr (Or.inr (Or.inl ⟨i, p, member, by omega, by omega⟩))))
    · exact kept _ _ fun x lower upper => (rep.bookkeeping_iff x).mpr
        (Or.inr (Or.inr (Or.inr (Or.inl ⟨i, p, member, by omega, by omega⟩))))
  have links : ∀ i < 32, ∀ z ∈ s.gm.smallbinAt i :: h.small i,
      fdAt m' z = fdAt s.mem z ∧ bkAt m' z = bkAt s.mem z := by
    intro i bound z member
    rcases List.mem_cons.mp member with rfl | inBin
    · exact header i bound
    · exact small i z inBin
  refine
    { tags := ⟨rep.layout, reach, segment, fun b member => ?_, fun b c adjacent free => ?_⟩
      placed := ⟨placed.aligned, placed.bound, fun x lower upper => object x ⟨lower, upper⟩,
        placed.apart, placed.leastPos, placed.leastLe⟩
      small := ⟨rep.small.bits, rep.small.marked, rep.small.member, rep.small.nodup,
        fun i nonempty => ?_, fun i bound empty => ?_⟩
      tree := ⟨rep.tree.bits, rep.tree.marked, rep.tree.root, fun i => (rep.tree.bin i).agrees ?_⟩
      top := rep.top
      topsize := rep.topsize
      dv := rep.dv
      dvsize := rep.dvsize
      filed := rep.filed }
  · rw [kept _ _ fun x lower upper => (rep.bookkeeping_iff x).mpr
      (Or.inr (Or.inl ⟨b, member, by omega, by omega⟩))]
    exact rep.tags.head b member
  · obtain ⟨inB, inC⟩ := adjacent_mem adjacent
    have next := adjacent_stop rep.layout.tiles adjacent
    have notTop := rep.layout.ne_top_of_le inB inC (Nat.le_of_eq next)
    rw [kept _ _ fun x lower upper => (rep.bookkeeping_iff x).mpr (Or.inr (Or.inr (Or.inl
      ⟨b.addr, b.size, ⟨notTop, b, inB, rfl, rfl, free⟩, by omega, by omega⟩)))]
    exact rep.tags.foot b c adjacent free
  · obtain ⟨p, member⟩ := List.exists_mem_of_ne_nil _ nonempty
    have bound := (rep.small.member i p member).1
    exact ring_congr (rep.small.ring i nonempty) (fun z inside => (links i bound z inside).1)
      fun z inside => (links i bound z inside).2
  · have same := links i bound _ List.mem_cons_self
    exact ⟨same.1.trans (rep.small.idle i bound empty).1,
      same.2.trans (rep.small.idle i bound empty).2⟩
  · intro p member a n lower upper
    exact kept a n fun x low high => (rep.bookkeeping_iff x).mpr
      (Or.inr (Or.inr (Or.inr (Or.inr ⟨i, p, member, by omega, by omega⟩))))

/-- A client's store outside the bookkeeping goes unnoticed. -/
theorem poke (rep : Represents first stop limit s h loose) {x : Nat}
    (outside : ¬ s.Bookkeeping first x) (v : UInt8) :
    Represents first stop limit { s with mem := s.mem.setByte x v } h loose := by
  refine rep.carry (fun y inside => ?_) rep.tags.reach rep.tags.mapped
    fun y inside => rep.placed.mapped y inside.1 inside.2
  have differ : y ≠ x := fun equal => outside (equal ▸ inside)
  simp [Memory.setByte, differ]

/-- How often the underlying allocator was called does not matter. -/
theorem recount (rep : Represents first stop limit s h loose) (calls : Nat) :
    Represents first stop limit { s with underlyingCalls := calls } h loose :=
  ⟨rep.tags, rep.placed, rep.small, rep.tree, rep.top, rep.topsize, rep.dv, rep.dvsize, rep.filed⟩

end Represents

end Unimem
