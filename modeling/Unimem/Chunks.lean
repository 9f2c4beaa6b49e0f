import Unimem.Run

/-!
What the segment's chunks look like in every world a run reaches: the boundary
tags, and where the live allocations lie.
-/

namespace Unimem

open Tiling ByteMemory Memory WordArith MallocState

/-- The chunk behind `p`. -/
def Store.nextOf (s : Store) (p : Nat) : Nat := chunkPlusOffset p (s.sizeAt p)

/-- The boundary tags of a world: the walk tiles the segment and the flags and feet
say of each chunk what its neighbours need to know. -/
structure BoundaryTags (setup : Setup) (w : World) : Prop where
  tiled : ∃ chunks : List (Nat × Nat), Tiles Prod.fst Prod.snd setup.first chunks setup.stop ∧
    chunks.getLast? = some (w.store.gm.top, w.store.gm.topsize) ∧
    (∀ p, w.store.IsChunk setup.first p ↔ ∃ size, (p, size) ∈ chunks) ∧
    ∀ p size, (p, size) ∈ chunks → p ≠ w.store.gm.top → w.store.sizeAt p = size
  topEnd : w.store.gm.top + w.store.gm.topsize = setup.stop
  topPositive : 0 < w.store.gm.topsize
  sized : ∀ p, w.store.IsChunk setup.first p → p ≠ w.store.gm.top →
    w.store.sizeAt p % 16 = 0 ∧ minChunkSize ≤ w.store.sizeAt p
  live : ∀ mem bytes, (mem, bytes) ∈ w.live →
    w.store.IsChunk setup.first (mem2chunk mem) ∧ w.store.cinuseAt (mem2chunk mem) = true
  inuse : ∀ p, w.store.IsChunk setup.first p → w.store.cinuseAt p = true →
    ∃ bytes, (chunk2mem p, bytes) ∈ w.live
  pinuseFirst : w.store.pinuseAt setup.first = true
  pinuse : ∀ p, w.store.IsChunk setup.first p → p ≠ w.store.gm.top →
    w.store.pinuseAt (w.store.nextOf p) = w.store.cinuseAt p
  foot : ∀ p size, w.store.FreeChunk setup.first p size → w.store.prevFootAt (p + size) = size
  coalesced : ∀ p, w.store.IsChunk setup.first p → p ≠ w.store.gm.top →
    w.store.cinuseAt p = false → w.store.nextOf p ≠ w.store.gm.top ∧
      w.store.cinuseAt (w.store.nextOf p) = true

section Tags

variable {setup : Setup} {w : World} {h : Heap}

/-- A chunk of the walk as a block, with the block behind it. -/
theorem Runs.chunk (runs : Runs setup w h) {p : Nat} (chunk : w.store.IsChunk setup.first p)
    (notTop : p ≠ w.store.gm.top) :
    ∃ below b n above, h.blocks = below ++ b :: n :: above ∧ b.addr = p ∧
      n.addr = w.store.nextOf p ∧ w.store.sizeAt p = b.size ∧ w.store.cinuseAt p = b.cinuse := by
  have rep := runs.rep
  rw [rep.top] at notTop
  obtain ⟨b, member, rfl⟩ := (rep.chunk_iff p).mp chunk
  obtain ⟨below, n, above, shape, next⟩ := rep.layout.successor member notTop
  exact ⟨below, b, n, above, shape, rfl, next.trans (rep.step_eq member notTop).symm,
    rep.sizeAt_eq member notTop, rep.cinuseAt_eq member⟩

theorem adjacent_pair {below above : List Block} {b n : Block} :
    Adjacent (below ++ b :: n :: above) b n := by
  rw [adjacent_append]
  exact Or.inr (Or.inr (Or.inl ⟨rfl, rfl⟩))

/-- A live pointer is the payload of a chunk in use. -/
theorem Runs.pointer (runs : Runs setup w h) {mem bytes : Nat} (member : (mem, bytes) ∈ w.live) :
    ∃ a k, mem = a + 32 ∧ mem2chunk mem = a ∧ h.Used a k ∧ setup.first ≤ a ∧ a % 16 = 0 ∧
      a + k ≤ h.top ∧ h.top ≤ setup.stop ∧ paddedRequest bytes ≤ k ∧
      k < paddedRequest bytes + 32 := by
  obtain ⟨a, k, rfl, used, least, most⟩ := runs.tracked.live mem bytes member
  have layout := runs.rep.layout
  have bound := layout.bound
  obtain ⟨notTop, b, inBlocks, rfl, rfl, -⟩ := id used
  have inside := layout.bounds inBlocks
  have below := layout.stop_le_top inBlocks notTop
  have large := (layout.sized b inBlocks notTop).1
  obtain ⟨t, inTop, here, finish⟩ := layout.topBlock
  have := (layout.bounds inTop).2
  have distance : twoSizeTSizes = 32 := rfl
  simp only [Block.stop] at *
  refine ⟨b.addr, b.size, rfl, ?_, used, inside.1, layout.aligned_of_mem inBlocks, below, by omega,
    least, most⟩
  rw [mem2chunk, distance, sub64_of_le (by omega) (by omega)]
  omega

theorem Runs.boundaryTags (runs : Runs setup w h) (topFree : TopFree setup.stop) :
    BoundaryTags setup w := by
  have rep := runs.rep
  have layout := rep.layout
  have bound := layout.bound
  obtain ⟨below, t, shape, atTop⟩ := layout.last
  have inTop : t ∈ h.blocks := by simp [shape]
  have whole := rep.topsize
  -- top reads its flag from the word at the segment's end
  have topUnused : t.cinuse = false := by
    rw [layout.topRead t inTop atTop, topFree]
    rfl
  have topsize : t.size = w.store.gm.topsize := by
    have tiles := layout.tiles
    rw [shape] at tiles
    have finish : t.addr + t.size = setup.stop := (tiles_split tiles).2
    omega
  refine
    { tiled := ⟨h.blocks.map fun b => (b.addr, b.size), ?_, ?_, fun p => ?_, ?_⟩
      topEnd := by rw [rep.top]; exact whole
      topPositive := by rw [← topsize]; exact layout.nonempty t inTop
      sized := fun p chunk notTop => ?_
      live := fun mem bytes member => ?_
      inuse := fun p chunk used => ?_
      pinuseFirst := ?_
      pinuse := fun p chunk notTop => ?_
      foot := fun p size free => ?_
      coalesced := fun p chunk notTop unused => ?_ }
  · exact tiles_map.mpr layout.tiles
  · simp [shape, rep.top, atTop, topsize]
  · rw [rep.chunk_iff]
    simp
  · rintro p size member notTop
    obtain ⟨b, inBlocks, same⟩ := List.mem_map.mp member
    obtain ⟨rfl, rfl⟩ := Prod.mk.inj same
    rw [rep.top] at notTop
    exact rep.sizeAt_eq inBlocks notTop
  · obtain ⟨below, b, n, above, shape, rfl, -, size, -⟩ := runs.chunk chunk notTop
    have sized := layout.sized b (by simp [shape]) (by rwa [rep.top] at notTop)
    have least : minChunkSize = 32 := by decide
    rw [size, least]
    exact sized.symm
  · obtain ⟨a, k, -, back, used, -⟩ := runs.pointer member
    rw [back]
    obtain ⟨chunk, -, -, inuse⟩ := (rep.usedChunk_iff a k).mpr used
    exact ⟨chunk, inuse⟩
  · obtain ⟨b, inBlocks, rfl⟩ := (rep.chunk_iff p).mp chunk
    rw [rep.cinuseAt_eq inBlocks] at used
    have notTop : b.addr ≠ h.top := by
      intro isTop
      have same := layout.addr_inj inBlocks inTop (isTop.trans atTop.symm)
      simp [same, topUnused] at used
    -- a used block below top was handed out, so a pointer to it is live
    obtain ⟨bytes, member⟩ := runs.tracked.used b.addr b.size ⟨notTop, b, inBlocks, rfl, rfl, used⟩
    have inside := layout.stop_le_top inBlocks notTop
    have large := (layout.sized b inBlocks notTop).1
    have distance : twoSizeTSizes = 32 := rfl
    refine ⟨bytes, ?_⟩
    simp only [Block.stop] at inside
    rw [chunk2mem, distance, add64_of_lt (by omega)]
    exact member
  · have tiles := layout.tiles
    have flag := layout.pinuseFirst
    cases blocks : h.blocks with
    | nil => simp [blocks] at shape
    | cons b rest =>
        rw [blocks] at tiles flag
        rw [← tiles.1, rep.pinuseAt_eq (by simp [blocks])]
        exact flag b rfl
  · obtain ⟨below, b, n, above, shape, rfl, next, -, cinuse⟩ := runs.chunk chunk notTop
    have pair := layout.coalesced topFree b n (shape ▸ adjacent_pair)
    rw [← next, cinuse, rep.pinuseAt_eq (by simp [shape]), pair.1]
  -- the foot of a free block is read through its successor
  · obtain ⟨notTop, b, inBlocks, rfl, rfl, unused⟩ := (rep.freeChunk_iff p size).mp free
    obtain ⟨below, n, above, shape, next⟩ := layout.successor inBlocks notTop
    have foot := rep.tags.foot b n (shape ▸ adjacent_pair) unused
    rwa [next] at foot
  · obtain ⟨below, b, n, above, shape, rfl, next, -, cinuse⟩ := runs.chunk chunk notTop
    have pair := layout.coalesced topFree b n (shape ▸ adjacent_pair)
    have inN : n ∈ h.blocks := by simp [shape]
    rw [cinuse] at unused
    have usedN : n.cinuse = true := by simpa [unused] using pair.2
    rw [← next, rep.cinuseAt_eq inN, rep.top]
    refine ⟨fun isTop => ?_, usedN⟩
    have same := layout.addr_inj inN inTop (isTop.trans atTop.symm)
    simp [same, topUnused] at usedN

/-- After every run with an Alloc, the boundary tags are exact. -/
theorem reached_boundaryTags (zeroed : Zeroed setup.raw) (regular : setup.Regular)
    {events : List Event} (run : setup.Reaches events w) {bytes mem : Nat}
    (allocated : Event.call (.alloc bytes) mem ∈ events) : BoundaryTags setup w := by
  obtain ⟨h, runs⟩ := run.regular zeroed regular.aligned allocated
  exact runs.boundaryTags regular.aligned.bounds.2.2

/-- Two allocations, the first of them freed again. -/
theorem reached_boundaryTags_sample : ∃ w : World, w.live = [(4160, 40)] ∧
    BoundaryTags (Setup.sample 1024 (by decide)) w := by
  have replayed : ((Heap.init 4096 (4096 + 1024 - 8)).replay []
      [.alloc 24, .alloc 40, .free 4128]).map Prod.snd = some [(4160, 40)] := by decide
  obtain ⟨events, w, h, run, -, live, -, happened⟩ :=
    Setup.sample_replays (by decide) (by decide) (by decide) _ replayed
  obtain ⟨mem, allocated⟩ := Event.of_asked happened (show Call.alloc 24 ∈ _ by simp)
  exact ⟨w, live, reached_boundaryTags (Setup.sample_zeroed 1024 (by decide))
    (Setup.sample_regular (by decide) (by decide) (by decide)) run allocated⟩

end Tags

/-! ## Where live allocations lie -/

section Ranges

variable {setup : Setup} {w : World} {h : Heap}

theorem overhead (bytes : Nat) :
    bytes + 8 ≤ paddedRequest bytes ∨ paddedRequest bytes = 2 ^ 64 - 1 := by
  by_cases few : bytes ≤ maxSmallRequest
  · have minimum : minRequest = 23 := rfl
    have least : minChunkSize = 32 := by decide
    left
    rw [paddedRequest, if_pos few, minimum, least]
    rw [maxSmallRequest_eq] at few
    rw [padRequest_eq (by omega)]
    split <;> omega
  · by_cases many : bytes ≥ maxRequest
    · exact Or.inr (paddedRequest_huge many)
    · exact Or.inl (paddedRequest_large few many).2.2.1

/-- The payload of a live allocation starts 24 bytes behind where its chunk's bytes
start, and ends at most 24 bytes behind where they end. -/
theorem Runs.payload (runs : Runs setup w h) {mem bytes : Nat} (member : (mem, bytes) ∈ w.live) :
    ∃ a k, mem = a + 32 ∧ h.Used a k ∧ bytes + 8 ≤ k ∧ a % 16 = 0 := by
  obtain ⟨a, k, rfl, -, used, -, aligned, inside, upper, least, -⟩ := runs.pointer member
  have bound := runs.rep.layout.bound
  have := overhead bytes
  exact ⟨a, k, rfl, used, by omega, aligned⟩

theorem Runs.apart (runs : Runs setup w h) {mem bytes mem' bytes' : Nat}
    (one : (mem, bytes) ∈ w.live) (two : (mem', bytes') ∈ w.live) (differ : mem ≠ mem') :
    mem + bytes ≤ mem' ∨ mem' + bytes' ≤ mem := by
  obtain ⟨a, k, rfl, ⟨-, b, inBlocks, rfl, rfl, -⟩, fits, -⟩ := runs.payload one
  obtain ⟨a', k', rfl, ⟨-, c, inBlocks', rfl, rfl, -⟩, fits', -⟩ := runs.payload two
  rcases runs.rep.layout.ordered inBlocks inBlocks' with rfl | before | after
  · exact absurd rfl differ
  · simp only [Block.stop] at before
    omega
  · simp only [Block.stop] at after
    omega

/-- No byte is in both requested ranges. -/
def RangesApart (one two : Nat × Nat) : Prop :=
  ∀ x, one.1 ≤ x → x < one.1 + one.2 → two.1 ≤ x → ¬ x < two.1 + two.2

/-- Live pointers are aligned and different, and no two requested ranges meet. -/
theorem reached_live_apart (zeroed : Zeroed setup.raw) (regular : setup.Regular)
    {events : List Event} (run : setup.Reaches events w) :
    (∀ entry ∈ w.live, entry.1 % 16 = 0) ∧
      w.live.Pairwise fun one two => one.1 ≠ two.1 ∧ RangesApart one two := by
  rcases run.either zeroed regular.aligned with fresh | ⟨h, runs⟩
  · rw [fresh.none]
    exact ⟨fun entry member => (List.not_mem_nil member).elim, List.Pairwise.nil⟩
  · constructor
    · intro entry member
      obtain ⟨a, k, at_, -, -, aligned⟩ := runs.payload
        (show (entry.1, entry.2) ∈ w.live from member)
      omega
    · have distinct := List.pairwise_map.mp runs.tracked.nodup
      refine distinct.imp_of_mem fun {one two} inOne inTwo differ => ⟨differ, ?_⟩
      intro x lower upper lower' upper'
      have := runs.apart (show (one.1, one.2) ∈ w.live from inOne)
        (show (two.1, two.2) ∈ w.live from inTwo) differ
      omega

/-- Three live allocations, one of no bytes. -/
theorem reached_live_apart_sample : ∃ w : World, w.live = [(4160, 0), (4192, 300), (4128, 24)] ∧
    w.live.Pairwise fun one two => one.1 ≠ two.1 ∧ RangesApart one two := by
  have replayed : ((Heap.init 4096 (4096 + 1024 - 8)).replay []
      [.alloc 24, .alloc 8, .alloc 300, .free 4160, .alloc 0]).map Prod.snd =
        some [(4160, 0), (4192, 300), (4128, 24)] := by decide
  obtain ⟨events, w, h, run, -, live, -, -⟩ :=
    Setup.sample_replays (by decide) (by decide) (by decide) _ replayed
  exact ⟨w, live, (reached_live_apart (Setup.sample_zeroed 1024 (by decide))
    (Setup.sample_regular (by decide) (by decide) (by decide)) run).2⟩

end Ranges

end Unimem
