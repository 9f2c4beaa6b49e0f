import Unimem.BuddyClients

/-!
The pool in the states reached. It is determined by what is handed out and what
is live; where nothing is live it holds the chunks of the system whole. The
two totals always add up to the chunks that the system has given.
-/

namespace Buddy

open Tiling Coalescing OrderedSets WordArith Transitions

section Shapes

variable {region : Region}

/-- A region that is sparse and has no live part is one free part. -/
theorem Region.Laid.single (laid : region.Laid) (sparse : Sparse Part.live region.parts)
    (idle : ∀ part ∈ region.parts, part.live = false) :
    region.parts = [⟨region.base, region.size, false⟩] := by
  have tiles := laid.tiles
  have wide := laid.wide
  unfold sizeofDesc at wide
  cases shape : region.parts with
  | nil =>
      rw [shape] at tiles
      have closed : region.base = region.base + region.size := tiles
      omega
  | cons first rest =>
      rw [shape] at tiles sparse idle
      cases rest with
      | cons second later =>
          have used := sparse first second (Or.inl ⟨rfl, rfl⟩)
          rw [idle first (by simp), idle second (by simp)] at used
          rcases used with live | live <;> cases live
      | nil =>
          obtain ⟨starts, ends⟩ := tiles
          have stops : region.base + first.total = region.base + region.size := ends
          have free := idle first List.mem_cons_self
          obtain ⟨start, total, live⟩ := first
          simp only at starts stops free
          rw [starts, free, Nat.add_left_cancel stops]

/-- Regions of a heap that share an address are the same. -/
theorem Heap.Laid.region_unique {h : Heap} {other : Region} {x : Nat} (laid : h.Laid)
    (member : region ∈ h.regions) (member' : other ∈ h.regions) (within : region.Within x)
    (within' : other.Within x) : region = other := by
  by_contra different
  obtain ⟨left, right, regions⟩ := List.append_of_mem member
  have others : other ∈ left ++ right := by
    rw [regions, List.mem_append, List.mem_cons] at member'
    rcases member' with inLeft | rfl | inRight
    · exact List.mem_append_left _ inLeft
    · exact absurd rfl different
    · exact List.mem_append_right _ inRight
  have apart := laid.region_apart regions others
  unfold Region.Within at within within'
  unfold Region.Separate at apart
  omega

end Shapes

variable [StdHash] {setup setup' : Setup} {w w' : World} {h h' : Heap} {events events' : List Event}
  {event : Event} {p total : Nat}

/-- A client's pointer with the size that its descriptor gives for the whole block. -/
def World.Block (w : World) (p total : Nat) : Prop :=
  p ∈ w.live.map Prod.fst ∧
    onCache (MemoryBlock.totalSize (p - sizeofDesc)) w.allocator = .ok total w.allocator

theorem Tracks.block_iff (tracks : Tracks w h) : w.Block p total ↔
    ∃ part ∈ h.liveParts, part.start + sizeofDesc = p ∧ part.total = total := by
  have read : ∀ part ∈ h.parts, onCache (MemoryBlock.totalSize part.start) w.allocator =
      .ok part.total w.allocator := by
    intro part member
    obtain ⟨region, inHeap, inside⟩ := Heap.mem_parts.mp member
    obtain ⟨below, above, shape⟩ := List.append_of_mem inside
    exact Stores.read_totalSize (tracks.represents.threaded region inHeap) shape
  constructor
  · rintro ⟨member, said⟩
    obtain ⟨part, inLive, rfl⟩ := List.mem_map.mp (tracks.pointers.mem_iff.mp member)
    rw [Nat.add_sub_cancel, read part (Heap.mem_liveParts.mp inLive).1] at said
    exact ⟨part, inLive, rfl, (EStateM.Result.ok.inj said).1⟩
  · rintro ⟨part, inLive, rfl, rfl⟩
    refine ⟨tracks.pointers.mem_iff.mpr (List.mem_map_of_mem inLive), ?_⟩
    rw [Nat.add_sub_cancel, read part (Heap.mem_liveParts.mp inLive).1]

/-- What is live in a region is so in the region of another heap at the same addresses. -/
theorem Tracks.taken (tracks : Tracks w h) (tracks' : Tracks w' h')
    (blocks : ∀ p total, w.Block p total → w'.Block p total) {region region' : Region}
    (member : region ∈ h.regions) (member' : region' ∈ h'.regions)
    (same : region.grant = region'.grant) {a n : Nat}
    (taken : Taken Part.start Part.total Part.live region.parts a n) :
    Taken Part.start Part.total Part.live region'.parts a n := by
  obtain ⟨part, inside, rfl, rfl, live⟩ := taken
  have laid := tracks.represents.wellFormed.toLaid
  have laid' := tracks'.represents.wellFormed.toLaid
  have inParts : part ∈ h.parts := Heap.mem_parts.mpr ⟨region, member, inside⟩
  have block := tracks.block_iff.mpr ⟨part, Heap.mem_liveParts.mpr ⟨inParts, live⟩, rfl, rfl⟩
  obtain ⟨other, inLive, start, total⟩ := tracks'.block_iff.mp (blocks _ _ block)
  obtain ⟨inParts', live'⟩ := Heap.mem_liveParts.mp inLive
  obtain ⟨found, inHeap, inside'⟩ := Heap.mem_parts.mp inParts'
  have here := (laid.laid region member).within_start inside
  have there := (laid'.laid found inHeap).within_start inside'
  have started : other.start = part.start := Nat.add_right_cancel start
  have bounds : region'.Within other.start := by
    obtain ⟨base, size, -⟩ := Grant.mk.inj same
    unfold Region.Within Region.stop at here ⊢
    rw [started, ← base, ← size]
    exact here
  obtain rfl := laid'.region_unique inHeap member' there bounds
  exact ⟨other, inside', started, total, live'⟩

theorem Tracks.pool_subset (tracks : Tracks w h) (tracks' : Tracks w' h')
    (grants : ∀ grant, grant ∈ w.allocator.systemAllocator.outstanding ↔
      grant ∈ w'.allocator.systemAllocator.outstanding)
    (blocks : ∀ p total, w.Block p total ↔ w'.Block p total) {item : IndexSizeAddress}
    (inPool : item ∈ w.allocator.pool) : item ∈ w'.allocator.pool := by
  have laid := tracks.represents.wellFormed
  have laid' := tracks'.represents.wellFormed
  rw [tracks.represents.pool] at inPool
  obtain ⟨region, member, part, inside, free, rfl⟩ := mem_poolOf.mp inPool
  have granted : region.grant ∈ w.allocator.systemAllocator.outstanding := by
    rw [tracks.represents.grants]
    exact List.mem_map_of_mem member
  have granted' := (grants region.grant).mp granted
  rw [tracks'.represents.grants] at granted'
  obtain ⟨region', member', same⟩ := List.mem_map.mp granted'
  obtain ⟨base, size, index⟩ := Grant.mk.inj same
  have here := laid.laid region member
  have there := laid'.laid region' member'
  have tiles' := there.tiles
  unfold Region.stop at tiles'
  rw [base, size] at tiles'
  have positive := fun {region : Region} (laid : region.Laid) (part : Part)
      (inside : part ∈ region.parts) => Nat.lt_of_lt_of_le (show 0 < sizeofDesc by decide)
    (laid.room part inside)
  have shapes := tiles_determined here.tiles tiles' (positive here) (positive there)
    (laid.sparse region member) (laid'.sparse region' member') fun a n =>
      ⟨tracks.taken tracks' (fun p total => (blocks p total).mp) member member' same.symm,
        tracks'.taken tracks (fun p total => (blocks p total).mpr) member' member same⟩
  have listed : (part.start, part.total, part.live) ∈
      region.parts.map fun part => (part.start, part.total, part.live) :=
    List.mem_map_of_mem inside
  rw [shapes] at listed
  obtain ⟨other, inside', equal⟩ := List.mem_map.mp listed
  obtain ⟨start, total, live⟩ := Prod.mk.inj equal |>.imp_right Prod.mk.inj
  rw [tracks'.represents.pool]
  refine mem_poolOf.mpr ⟨region', member', other, inside', live.trans free, ?_⟩
  unfold Part.entry
  rw [index, start, total]

theorem Replay.Reaches.block_iff {state : Replay} (reaches : state.Reaches setup w)
    (p total : Nat) : w.Block p total ↔
      ∃ part ∈ state.heap.liveParts, part.start + sizeofDesc = p ∧ part.total = total :=
  reaches.runs.block_iff

/-- The free entries are determined by what the system has handed out and which blocks
are live, however requests that do not wrap came there. -/
theorem reached_pool_determined (positive : setup.minChunkSize ≠ 0)
    (positive' : setup'.minChunkSize ≠ 0) (run : setup.Reaches events w)
    (run' : setup'.Reaches events' w')
    (grants : ∀ grant, grant ∈ w.allocator.systemAllocator.outstanding ↔
      grant ∈ w'.allocator.systemAllocator.outstanding)
    (blocks : ∀ p total, w.Block p total ↔ w'.Block p total) :
    w.allocator.pool = w'.allocator.pool := by
  obtain ⟨h, runs⟩ := reached_runs positive run
  obtain ⟨h', runs'⟩ := reached_runs positive' run'
  ext item
  exact ⟨runs.pool_subset runs'.toTracks grants blocks,
    runs'.pool_subset runs.toTracks (fun grant => (grants grant).symm) fun p total =>
      (blocks p total).symm⟩

omit [StdHash] in
/-- Two allocators with one block of the same size live, which came there differently. -/
theorem reached_pool_determined_sample : ∃ w w' : World,
    @Setup.Reaches plainHash .sample [.call (.alloc 100) 4160, .call (.alloc 200) 4336,
      .call (.free 4336) 0] w ∧
    @Setup.Reaches plainHash { Setup.sample with useGpu := true } [.call (.alloc 300) 4160,
      .call (.free 4160) 0, .call (.alloc 100) 4160] w' ∧
    w.allocator.pool = w'.allocator.pool := by
  obtain ⟨w, run, -, reaches⟩ := @Setup.plays .sample [.alloc 100, .alloc 200, .free 4336]
    [.call (.alloc 100) 4160, .call (.alloc 200) 4336, .call (.free 4336) 0] [(4160, 100)]
    (by decide) (by decide +kernel)
  obtain ⟨w', run', -, reaches'⟩ := @Setup.plays { Setup.sample with useGpu := true }
    [.alloc 300, .free 4160, .alloc 100] [.call (.alloc 300) 4160, .call (.free 4160) 0,
      .call (.alloc 100) 4160] [(4160, 100)] (by decide) (by decide +kernel)
  have grants := @Replay.Reaches.grants plainHash _ _ _ reaches
  have grants' := @Replay.Reaches.grants plainHash _ _ _ reaches'
  have same : w.allocator.systemAllocator.outstanding =
      w'.allocator.systemAllocator.outstanding := by
    rw [grants, grants']
    decide +kernel
  have blocks := @Replay.Reaches.block_iff plainHash _ _ _ reaches
  have blocks' := @Replay.Reaches.block_iff plainHash _ _ _ reaches'
  have live : (Setup.sample.played [.alloc 100, .alloc 200, .free 4336]).heap.liveParts =
      (Setup.played { Setup.sample with useGpu := true }
        [.alloc 300, .free 4160, .alloc 100]).heap.liveParts := by decide +kernel
  exact ⟨w, w', run, run', @reached_pool_determined plainHash _ _ _ _ _ _ (by decide) (by decide)
    run run' (fun _ => by rw [same]) fun p total => by rw [blocks, blocks', live]⟩

/-- Nothing is live: the pool is the system's chunks, each in one piece. -/
structure Idle (w : World) : Prop where
  pool : ∀ item, item ∈ w.allocator.pool ↔
    ⟨item.address, item.size, item.index⟩ ∈ w.allocator.systemAllocator.outstanding
  whole : ∀ grant ∈ w.allocator.systemAllocator.outstanding,
    grant.size = w.allocator.maxChunkSize

theorem Tracks.idle (tracks : Tracks w h) (none : w.live = []) : Idle w := by
  have represents := tracks.represents
  have wellFormed := represents.wellFormed
  have pointers := tracks.pointers
  rw [none] at pointers
  have noLive : h.liveParts = [] := List.map_eq_nil_iff.mp pointers.symm.eq_nil
  have idle : ∀ region ∈ h.regions, ∀ part ∈ region.parts, part.live = false := by
    intro region member part inside
    by_contra live
    have inLive : part ∈ h.liveParts := Heap.mem_liveParts.mpr
      ⟨Heap.mem_parts.mpr ⟨region, member, inside⟩, by simpa using live⟩
    rw [noLive] at inLive
    cases inLive
  have single := fun region member => (wellFormed.laid region member).single
    (wellFormed.sparse region member) (idle region member)
  refine ⟨fun item => ?_, fun grant member => ?_⟩
  · rw [represents.pool, represents.grants]
    constructor
    · intro inPool
      obtain ⟨region, member, part, inside, -, rfl⟩ := mem_poolOf.mp inPool
      rw [single region member] at inside
      obtain rfl := List.mem_singleton.mp inside
      exact List.mem_map.mpr ⟨region, member, rfl⟩
    · intro granted
      obtain ⟨region, member, same⟩ := List.mem_map.mp granted
      obtain ⟨base, size, index⟩ := Grant.mk.inj same
      refine mem_poolOf.mpr ⟨region, member, ⟨region.base, region.size, false⟩,
        by simp [single region member], rfl, ?_⟩
      exact IndexSizeAddress.ext index size base
  · rw [represents.grants] at member
    obtain ⟨region, inHeap, rfl⟩ := List.mem_map.mp member
    have sized := wellFormed.sized region inHeap
    cases huge : region.huge with
    | false =>
        rw [huge, if_neg Bool.false_ne_true] at sized
        exact sized
    | true =>
        have whole := (wellFormed.laid region inHeap).whole huge
        rw [single region inHeap] at whole
        simp at whole

/-- Once every block is freed, in a run of requests that do not wrap, the pool holds whole
chunks only, and the system has its huge chunks back. -/
theorem reached_idle (positive : setup.minChunkSize ≠ 0) (run : setup.Reaches events w)
    (none : w.live = []) : Idle w := by
  obtain ⟨h, runs⟩ := reached_runs positive run
  exact runs.idle none

omit [StdHash] in
/-- Two blocks of one chunk and a huge one, freed in another order. -/
theorem reached_idle_sample : ∃ w,
    @Setup.Reaches plainHash .sample [.call (.alloc 100) 4160, .call (.alloc 200) 4336,
      .call (.alloc 2000) 6208, .call (.free 4336) 0, .call (.free 6208) 0,
      .call (.free 4160) 0] w ∧ Idle w := by
  obtain ⟨w, run, live, -⟩ := @Setup.plays .sample
    [.alloc 100, .alloc 200, .alloc 2000, .free 4336, .free 6208, .free 4160]
    [.call (.alloc 100) 4160, .call (.alloc 200) 4336, .call (.alloc 2000) 6208,
      .call (.free 4336) 0, .call (.free 6208) 0, .call (.free 4160) 0] [] (by decide)
    (by decide +kernel)
  exact ⟨w, run, @reached_idle plainHash _ _ _ (by decide) run live⟩

/-- The chunks that the pool gets its parts from. -/
def Heap.arenas (h : Heap) : Nat := (h.regions.filter fun region => !region.huge).length

/-- Used and free bytes are together the bytes of the chunks, up to wrapping. -/
def Heap.Balanced (max : Nat) (h : Heap) : Prop :=
  (h.totalUsed + h.totalFree) % 2 ^ 64 = max * h.arenas % 2 ^ 64

namespace Heap

variable {max wanted : Nat} {reply : Nat × Nat}

omit [StdHash]

theorem arenas_onParts {change : List Part → List Part} {used idle : Nat} :
    arenas ⟨h.onParts change, used, idle⟩ = h.arenas := by
  simp only [arenas, onParts, List.filter_map, List.length_map, Function.comp_def]

theorem arenas_adopt {base size index : Nat} {huge : Bool} :
    (h.adopt (Region.fresh base size index huge)).arenas =
      h.arenas + if huge then 0 else 1 := by
  cases huge <;> rfl

theorem Balanced.carve {start : Nat} (balanced : h.Balanced max) :
    (h.carve start wanted).Balanced max := by
  unfold Balanced at balanced ⊢
  rw [Heap.carve, arenas_onParts, ← balanced]
  change (add64 _ _ + sub64 _ _) % _ = _
  unfold add64 sub64
  omega

theorem Balanced.release {start : Nat} (balanced : h.Balanced max) :
    (h.release start).Balanced max := by
  unfold Balanced at balanced ⊢
  rw [Heap.release, arenas_onParts, ← balanced]
  change (sub64 _ _ + add64 _ _) % _ = _
  unfold add64 sub64
  omega

theorem Balanced.refill (balanced : h.Balanced max) : (h.refill reply max).Balanced max := by
  unfold Balanced at balanced ⊢
  have grown : (h.refill reply max).arenas = h.arenas + 1 := arenas_adopt
  rw [grown, Nat.mul_succ]
  change (h.totalUsed + add64 h.totalFree max) % _ = _
  generalize max * h.arenas = given at balanced ⊢
  unfold add64
  omega

theorem Balanced.alloc (balanced : h.Balanced max) :
    (h.alloc max wanted reply).2.Balanced max := by
  unfold Heap.alloc
  split
  · split
    · exact balanced
    · have grown := @arenas_adopt h reply.1 wanted reply.2 true
      unfold Balanced at balanced ⊢
      rw [grown]
      exact balanced
  · split
    · exact balanced.carve
    · split
      · exact balanced
      · exact balanced.refill.carve

/-- A huge chunk that goes back was never counted. -/
theorem Balanced.free {part : Part} (balanced : h.Balanced max) (wellFormed : h.WellFormed max)
    (member : part ∈ h.liveParts) : (h.free (part.start + sizeofDesc)).Balanced max := by
  obtain ⟨inParts, live⟩ := mem_liveParts.mp member
  obtain ⟨region, inHeap, inside⟩ := mem_parts.mp inParts
  obtain ⟨left, right, below, above, place⟩ := exists_place inHeap inside
  have laid := wellFormed.toLaid
  rw [Heap.free, Nat.add_sub_cancel, place.isHuge laid]
  cases huge : region.huge with
  | false => exact balanced.release
  | true =>
      have whole := (laid.laid region inHeap).whole huge
      have started : part.start = region.base := by
        rw [whole] at inside
        rw [List.mem_singleton.mp inside]
      rw [if_pos rfl, started]
      have kept : (h.dismiss region.base).arenas = h.arenas := by
        unfold arenas
        rw [dismiss_regions laid place.regions, place.regions, List.filter_append,
          List.filter_append, List.filter_cons_of_neg (by simp [huge])]
      unfold Balanced at balanced ⊢
      rw [kept]
      exact balanced

end Heap

theorem Runs.balanced_step (runs : Runs setup w h) {calls calls' : Nat} {h' : Heap}
    (step : setup.HeapStep (h, calls) event (h', calls'))
    (balanced : h.Balanced setup.maxChunkSize) : h'.Balanced setup.maxChunkSize := by
  cases step with
  | alloc _ _ => exact balanced.alloc
  | free member => exact balanced.free (runs.max ▸ runs.represents.wellFormed) member
  | poke => exact balanced

/-- In every state that requests which do not wrap reach, `total_used_` and `total_free_` add
up to the chunks that the system has given for the pool; huge chunks, which alone are larger,
are not counted. -/
theorem reached_balanced (positive : setup.minChunkSize ≠ 0) (run : setup.Reaches events w) :
    (w.allocator.totalUsed + w.allocator.totalFree) % 2 ^ 64 =
      setup.maxChunkSize * (w.allocator.systemAllocator.outstanding.filter fun grant =>
        grant.size = setup.maxChunkSize).length % 2 ^ 64 := by
  obtain ⟨h, runs, balanced⟩ := run.invariant
    (fun state => ∃ h, Runs setup state h ∧ h.Balanced setup.maxChunkSize)
    ⟨Heap.empty, setup.start_runs, by simp [Heap.Balanced, Heap.arenas, Heap.empty]⟩
    fun state event after earlier step => by
      obtain ⟨h, runs, balanced⟩ := earlier
      obtain ⟨h', heapStep, runs'⟩ := runs.step positive step
      exact ⟨h', runs', runs.balanced_step heapStep balanced⟩
  have represents := runs.represents
  have counted : h.arenas = (w.allocator.systemAllocator.outstanding.filter fun grant =>
      grant.size = setup.maxChunkSize).length := by
    rw [represents.grants, List.filter_map, List.length_map, Heap.arenas]
    refine congrArg List.length (List.filter_congr fun region member => ?_)
    have sized := represents.wellFormed.sized region member
    rw [runs.max] at sized
    change (!region.huge) = decide (region.size = _)
    cases huge : region.huge with
    | false =>
        rw [huge, if_neg Bool.false_ne_true] at sized
        simp [sized]
    | true =>
        rw [huge, if_pos rfl] at sized
        simpa using Nat.ne_of_gt sized
  rw [represents.used, represents.idle, ← counted]
  exact balanced

omit [StdHash] in
theorem reached_balanced_sample : ∃ w,
    @Setup.Reaches plainHash .sample [.call (.alloc 100) 4160, .call (.alloc 200) 4336,
      .call (.free 4160) 0, .call (.alloc 2000) 6208] w ∧
      (w.allocator.totalUsed + w.allocator.totalFree) % 2 ^ 64 =
        1024 * (w.allocator.systemAllocator.outstanding.filter fun grant =>
          grant.size = 1024).length % 2 ^ 64 := by
  obtain ⟨w, run, -⟩ := Setup.sample_run
  exact ⟨w, run, @reached_balanced plainHash _ _ _ (by decide) run⟩

end Buddy
