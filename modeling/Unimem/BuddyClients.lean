import Unimem.BuddyReplies

/-!
What clients can rely on. The blocks they hold lie in what the system handed
out, apart from one another and from the free entries of the pool, and their
bytes change by their own stores only.
-/

namespace Buddy

open Tiling OrderedSets WordArith ByteMemory Transitions

theorem tiles_separate {low high : Nat} {parts : List Part}
    (tiles : Tiles Part.start Part.total low parts high) : parts.Pairwise Part.Separate := by
  induction parts generalizing low with
  | nil => exact List.Pairwise.nil
  | cons part rest ih =>
      obtain ⟨here, later⟩ := tiles
      refine List.pairwise_cons.mpr ⟨fun other member => Or.inl ?_, ih later⟩
      have bounds := (tiles_bounds later member).1
      unfold Part.stop
      omega

namespace Heap

variable {h : Heap} {part other : Part}

theorem Laid.parts_pairwise (laid : h.Laid) : h.parts.Pairwise Part.Separate := by
  refine List.pairwise_flatMap.mpr ⟨fun region member => ?_, ?_⟩
  · exact tiles_separate (laid.laid region member).tiles
  · refine laid.apart.imp_of_mem fun inHeap inHeap' apart part inside other inside' => ?_
    exact (laid.laid _ inHeap).parts_separate (laid.laid _ inHeap') apart inside inside'

theorem Place.in_parts {left right : List Region} {region : Region} {below above : List Part}
    (place : h.Place left region right below part above) : part ∈ h.parts :=
  mem_parts.mpr ⟨region, place.mem_region, place.mem_part⟩

theorem Laid.room (laid : h.Laid) (member : part ∈ h.parts) : sizeofDesc ≤ part.total := by
  obtain ⟨region, inHeap, inside⟩ := mem_parts.mp member
  exact (laid.laid region inHeap).room part inside

/-- No two live parts have the same payload pointer. -/
theorem Laid.pointers_nodup (laid : h.Laid) :
    (h.liveParts.map fun part => part.start + sizeofDesc).Nodup := by
  refine List.pairwise_map.mpr ?_
  refine List.Pairwise.imp_of_mem (fun member member' separate same => ?_)
    (laid.parts_pairwise.sublist List.filter_sublist)
  have wide := laid.room (mem_liveParts.mp member).1
  have wide' := laid.room (mem_liveParts.mp member').1
  unfold Part.Separate Part.stop at separate
  unfold sizeofDesc at wide wide' same
  omega

end Heap

variable [StdHash] {setup : Setup} {w w' : World} {h : Heap} {before events : List Event}
  {call : Call} {event : Event} {value p bytes x : Nat}

/-- How the blocks of clients lie; in front of each is its descriptor. -/
structure BlocksApart (w : World) : Prop where
  pairwise : w.live.Pairwise fun client other =>
    client.1 + client.2 + sizeofDesc ≤ other.1 ∨ other.1 + other.2 + sizeofDesc ≤ client.1
  granted : ∀ client ∈ w.live, ∃ grant ∈ w.allocator.systemAllocator.outstanding,
    grant.address + sizeofDesc ≤ client.1 ∧
      client.1 + client.2 ≤ grant.address + grant.size
  idle : ∀ client ∈ w.live, ∀ item ∈ w.allocator.pool,
    client.1 + client.2 ≤ item.address ∨ item.address + item.size + sizeofDesc ≤ client.1
  sized : ∀ client ∈ w.live, ∃ total,
    onCache (MemoryBlock.totalSize (client.1 - sizeofDesc)) w.allocator = .ok total w.allocator ∧
      client.2 + sizeofDesc ≤ total ∧ total ≤ w.allocator.wanted client.2 + sizeofDesc

/-- The block of a client, as a part of the heap. -/
theorem Tracks.block (tracks : Tracks w h) (member : (p, bytes) ∈ w.live) :
    ∃ left region right below part above, h.Place left region right below part above ∧
      part.live = true ∧ part.start + sizeofDesc = p ∧ bytes + sizeofDesc ≤ part.total ∧
      part.total ≤ w.allocator.wanted bytes + sizeofDesc := by
  obtain ⟨part, inLive, start⟩ := tracks.exists_live member
  obtain ⟨inParts, live⟩ := Heap.mem_liveParts.mp inLive
  obtain ⟨region, inHeap, inside⟩ := Heap.mem_parts.mp inParts
  obtain ⟨left, right, below, above, place⟩ := Heap.exists_place inHeap inside
  obtain ⟨room, most⟩ := tracks.sizes _ member part inLive start
  exact ⟨left, region, right, below, part, above, place, live, start, room, most⟩

theorem Tracks.blocksApart (tracks : Tracks w h) : BlocksApart w := by
  have represents := tracks.represents
  have laid := represents.wellFormed.toLaid
  refine ⟨?_, fun client member => ?_, fun client member item inPool => ?_,
    fun client member => ?_⟩
  · have pointers := tracks.pointers.nodup_iff.mpr laid.pointers_nodup
    refine List.Pairwise.imp_of_mem (fun member member' different => ?_)
      (List.pairwise_map.mp pointers)
    obtain ⟨_, _, _, _, part, _, place, -, start, room, -⟩ := tracks.block member
    obtain ⟨_, _, _, _, part', _, place', -, start', room', -⟩ := tracks.block member'
    have separate := (laid.parts_apart place.in_parts place'.in_parts).resolve_left
      fun same => different (by rw [← start, ← start', same])
    unfold Part.Separate Part.stop at separate
    omega
  · obtain ⟨_, region, _, _, part, _, place, -, start, room, -⟩ := tracks.block member
    have bounds := (laid.laid region place.mem_region).bounds place.mem_part
    refine ⟨region.grant, ?_, ?_⟩
    · rw [represents.grants]
      exact List.mem_map_of_mem place.mem_region
    · change region.base + _ ≤ _ ∧ _ ≤ region.base + region.size
      unfold Part.stop Region.stop at bounds
      omega
  · obtain ⟨_, region, _, _, part, _, place, live, start, room, -⟩ := tracks.block member
    obtain ⟨_, region', _, _, other, _, place', free, rfl⟩ := represents.exists_part inPool
    have separate := (laid.parts_apart place.in_parts place'.in_parts).resolve_left fun same => by
      rw [same, free] at live
      cases live
    change _ ≤ other.start ∨ other.start + other.total + _ ≤ _
    unfold Part.Separate Part.stop at separate
    omega
  · obtain ⟨_, region, _, _, part, _, place, live, start, room, most⟩ := tracks.block member
    have threaded := represents.threaded region place.mem_region
    have read := @Stores.read_totalSize _ w.allocator region _ _ part threaded place.parts
    have here : client.1 - sizeofDesc = part.start := by omega
    exact ⟨part.total, by rw [here, read], room, most⟩

/-- In every state that requests which do not wrap reach, live blocks and their descriptors
overlap nothing. -/
theorem reached_blocksApart (positive : setup.minChunkSize ≠ 0)
    (run : setup.Reaches events w) : BlocksApart w := by
  obtain ⟨h, runs⟩ := reached_runs positive run
  exact runs.blocksApart

omit [StdHash] in
theorem reached_blocksApart_sample : ∃ w,
    @Setup.Reaches plainHash .sample [.call (.alloc 100) 4160, .call (.alloc 200) 4336,
      .call (.alloc 10) 4608, .call (.free 4336) 0] w ∧
    w.live = [(4608, 10), (4160, 100)] ∧ @BlocksApart plainHash w := by
  obtain ⟨w, run, live, -⟩ := @Setup.plays .sample [.alloc 100, .alloc 200, .alloc 10, .free 4336]
    [.call (.alloc 100) 4160, .call (.alloc 200) 4336, .call (.alloc 10) 4608,
      .call (.free 4336) 0] [(4608, 10), (4160, 100)] (by decide) (by decide +kernel)
  exact ⟨w, run, live, @reached_blocksApart plainHash _ _ _ (by decide) run⟩

theorem Runs.called (runs : Runs setup w h) (positive : setup.minChunkSize ≠ 0)
    {s' : BuddyAllocator} (permitted : w.permits call)
    (ran : call.run w.allocator = .ok value s') :
    ∃ h', Runs setup (w.after call value s') h' ∧ Frame w.allocator h h' s' := by
  obtain ⟨s₁, ran₁, tracks, frame⟩ := runs.toTracks.call_run (runs.min ▸ positive) permitted
  obtain ⟨rfl, rfl⟩ := EStateM.Result.ok.inj (ran.symm.trans ran₁)
  exact ⟨_, runs.after tracks frame, frame⟩

/-- What a client last stored at an address. -/
def lastPoke (x : Nat) : List Event → Option UInt8
  | [] => none
  | .poke y v :: later => (lastPoke x later).or (if y = x then some v else none)
  | .call _ _ :: later => lastPoke x later

omit [StdHash] in
theorem lastPoke_call (call : Call) (value : Nat) :
    lastPoke x (events ++ [.call call value]) = lastPoke x events := by
  induction events with
  | nil => rfl
  | cons event later ih => cases event <;> simp [lastPoke, ih]

omit [StdHash] in
theorem lastPoke_poke (y : Nat) (v : UInt8) : lastPoke x (events ++ [.poke y v]) =
    if y = x then some v else lastPoke x events := by
  induction events with
  | nil => simp [lastPoke]
  | cons event later ih =>
      cases event with
      | call other value => simpa [lastPoke] using ih
      | poke z u =>
          simp only [List.cons_append, lastPoke, ih]
          split <;> rfl

def World.byteAt (w : World) (x : Nat) : UInt8 := w.allocator.cache.mem.byte x

omit [StdHash] in
theorem World.byteAt_poke {y : Nat} {v : UInt8} :
    (w.poke y v).byteAt x = if y = x then v else w.byteAt x := by
  simp only [World.byteAt, World.poke, Memory.setByte]
  exact if_congr eq_comm rfl rfl

omit [StdHash] in
theorem World.byteAt_after {s' : BuddyAllocator} :
    (w.after call value s').byteAt x = s'.cache.mem.byte x := by cases call <;> rfl

omit [StdHash] in
/-- A block stays with its client through every event but its own `Free`. -/
theorem World.live_after {s' : BuddyAllocator} (member : (p, bytes) ∈ w.live)
    (kept : call ≠ .free p) : (p, bytes) ∈ (w.after call value s').live := by
  cases call with
  | alloc other =>
      change _ ∈ ite _ _ _
      split
      · exact member
      · exact List.mem_cons_of_mem _ member
  | free q =>
      have different : p ≠ q := fun same => kept (same ▸ rfl)
      exact List.mem_filter.mpr ⟨member, by simpa using different⟩

/-- While a client holds a block, each of its bytes is what was last stored there, through
all requests that do not wrap. -/
theorem reached_bytesKept (positive : setup.minChunkSize ≠ 0) (reached : setup.Reaches before w)
    (run : Run Step w events w') (member : (p, bytes) ∈ w.live)
    (kept : ∀ value, Event.call (.free p) value ∉ events) (low : p ≤ x) (high : x < p + bytes) :
    (p, bytes) ∈ w'.live ∧ w'.byteAt x = (lastPoke x events).getD (w.byteAt x) := by
  obtain ⟨h, runs⟩ := reached_runs positive reached
  have invariant := run.induct (fun labels state =>
    (∀ value, Event.call (.free p) value ∉ labels) → ∃ h, Runs setup state h ∧
      (p, bytes) ∈ state.live ∧ state.byteAt x = (lastPoke x labels).getD (w.byteAt x))
    (fun _ => ⟨h, runs, member, rfl⟩) ?_ kept
  · obtain ⟨_, _, held, same⟩ := invariant
    exact ⟨held, same⟩
  · intro labels state label after earlier step absent
    obtain ⟨h, runs, held, same⟩ :=
      earlier fun value inLabels => absent value (List.mem_append_left _ inLabels)
    cases step with
    | @call call value s' permitted ran =>
        obtain ⟨h', runs', frame⟩ := runs.called positive permitted ran
        have other : call ≠ .free p := by
          rintro rfl
          exact absent value (List.mem_append_right _ List.mem_cons_self)
        refine ⟨h', runs', World.live_after held other, ?_⟩
        have payload := runs.toTracks.payload ⟨_, held, low, high⟩
        rw [World.byteAt_after, frame.bytes x (Or.inl payload), lastPoke_call]
        exact same
    | @poke y v writable =>
        refine ⟨h, runs.poke v writable, held, ?_⟩
        rw [World.byteAt_poke, lastPoke_poke]
        split
        · rfl
        · exact same

omit [StdHash] in
/-- A client stores into its block; then another one's block is freed and taken again. -/
theorem reached_bytesKept_sample : ∃ w w',
    @Setup.Reaches plainHash .sample [.call (.alloc 100) 4160, .call (.alloc 200) 4336] w ∧
      @Run _ _ (@Step plainHash) w
        [.poke 4170 7, .call (.free 4336) 0, .call (.alloc 50) 4336] w' ∧
      w'.byteAt 4170 = 7 := by
  obtain ⟨w, run, live, reaches⟩ := @Setup.plays .sample [.alloc 100, .alloc 200]
    [.call (.alloc 100) 4160, .call (.alloc 200) 4336] [(4336, 200), (4160, 100)] (by decide)
    (by decide +kernel)
  have held : (4160, 100) ∈ w.live := by simp [live]
  have writable : w.Writable 4170 := Or.inr (Or.inl ⟨_, held, by decide, by decide⟩)
  have stored := @Step.poke plainHash w 4170 7 writable
  obtain ⟨w₂, freed, reaches₂⟩ := @Replay.Reaches.next plainHash _ _ (.free 4336)
    (.call (.free 4336) 0) _ (@Replay.Reaches.poke plainHash _ _ _ reaches 4170 7 writable)
    (by decide) (by decide +kernel)
  obtain ⟨w₃, taken, -⟩ := @Replay.Reaches.next plainHash _ _ (.alloc 50)
    (.call (.alloc 50) 4336) _ reaches₂ (by decide) (by decide +kernel)
  have later := (((@Run.nil _ _ (@Step plainHash) w).snoc stored).snoc freed).snoc taken
  have kept := @reached_bytesKept plainHash _ _ _ _ _ 4160 100 4170 (by decide) run later
    held (by simp) (by decide) (by decide)
  exact ⟨w, w₃, run, later, kept.2⟩

omit [StdHash] in
/-- Up to the slack of a block that is not split, only a sum that wraps leaves too little room. -/
theorem room_iff {min total : Nat} (positive : min ≠ 0) (half : min ≤ 2 ^ 63)
    (large : align (add64 bytes sizeofDesc) min ≤ total)
    (most : total ≤ align (add64 bytes sizeofDesc) min + sizeofDesc) :
    bytes + sizeofDesc ≤ total ↔ bytes + sizeofDesc ≤ align (add64 bytes sizeofDesc) min := by
  obtain ⟨wanted, made⟩ : ∃ wanted, align (add64 bytes sizeofDesc) min = wanted := ⟨_, rfl⟩
  rw [made] at large most ⊢
  have below : add64 bytes sizeofDesc % min < min := Nat.mod_lt _ (Nat.pos_of_ne_zero positive)
  unfold align at made
  generalize add64 bytes sizeofDesc % min = remaining at made below
  simp only at made
  unfold add64 at made
  unfold sizeofDesc at *
  split at made <;> omega

/-- In every state reached a block has room for the request and its descriptor exactly
where rounding the size does not wrap; `Alloc` does not check that. The request itself may
wrap, as long as the rounded size is at least a descriptor. -/
theorem reached_room_iff (positive : setup.minChunkSize ≠ 0) (half : setup.minChunkSize ≤ 2 ^ 63)
    (run : setup.Reaches events w) (least : sizeofDesc ≤ w.allocator.wanted bytes)
    (supplied : w.allocator.Supplied bytes) :
    ∃ value s', alloc bytes w.allocator = .ok value s' ∧ (value ≠ 0 → ∃ total,
      onCache (MemoryBlock.totalSize (value - sizeofDesc)) s' = .ok total s' ∧
        (bytes + sizeofDesc ≤ total ↔ w.allocator.Covers bytes)) := by
  obtain ⟨h, runs⟩ := reached_runs positive run
  have represents := runs.represents
  rw [← runs.min] at positive half
  have rounded : align (add64 bytes sizeofDesc) w.allocator.minChunkSize =
    w.allocator.wanted bytes := rfl
  obtain ⟨s', ran, represents', -⟩ :=
    represents.alloc_run positive rounded least (represents.honest supplied)
  refine ⟨_, s', ran, fun there => ?_⟩
  rcases Heap.liveParts_alloc represents.wellFormed least (represents.fresh supplied) with
    ⟨null, -⟩ | ⟨new, value, -, large, most, parts⟩
  · exact absurd null there
  · have inLive := parts.mem_iff.mpr List.mem_cons_self
    obtain ⟨region, inHeap, inside⟩ := Heap.mem_parts.mp (Heap.mem_liveParts.mp inLive).1
    obtain ⟨below, above, shape⟩ := List.append_of_mem inside
    refine ⟨new.total, ?_, room_iff positive half large most⟩
    rw [value, Nat.add_sub_cancel]
    exact Stores.read_totalSize (represents'.threaded region inHeap) shape

omit [StdHash] in
/-- `Alloc` of the largest size there is returns a block too small for it. -/
theorem reached_room_iff_sample : ∃ s' total,
    @alloc plainHash (2 ^ 64 - 1) Setup.sample.start.allocator = .ok 4160 s' ∧
      onCache (@MemoryBlock.totalSize plainHash 4096) s' = .ok total s' ∧
      ¬ 2 ^ 64 - 1 + sizeofDesc ≤ total := by
  have asked : Heap.request Setup.sample.start.allocator.maxChunkSize
      (Setup.sample.start.allocator.wanted (2 ^ 64 - 1)) = 1024 := by decide
  have supplied : Setup.sample.start.allocator.Supplied (2 ^ 64 - 1) := fun _ => by
    rw [asked]
    refine ⟨4096, 0, rfl, fun _ => ⟨by decide, by decide, fun grant member => ?_⟩⟩
    cases member
  have runs := @Setup.start_runs plainHash .sample
  have represents := @Tracks.represents plainHash _ _ (@Runs.toTracks plainHash _ _ _ runs)
  have first : (Heap.empty.alloc Setup.sample.start.allocator.maxChunkSize
      (Setup.sample.start.allocator.wanted (2 ^ 64 - 1))
      (Setup.sample.start.allocator.reply (Setup.sample.start.allocator.wanted (2 ^ 64 - 1)))).1 =
      4160 := by decide +kernel
  obtain ⟨s₁, served⟩ : ∃ s₁,
      @alloc plainHash (2 ^ 64 - 1) Setup.sample.start.allocator = .ok 4160 s₁ := by
    obtain ⟨s₁, served, -⟩ := @Represents.alloc_run plainHash _ _ _ _ represents (by decide) rfl
      (by decide) (@Represents.honest plainHash _ _ _ represents supplied)
    exact ⟨s₁, served.trans (congrArg (EStateM.Result.ok · s₁) first)⟩
  obtain ⟨value, s', ran, block⟩ := @reached_room_iff plainHash .sample _ _ (2 ^ 64 - 1)
    (by decide) (by decide) Run.nil (by decide) supplied
  obtain ⟨rfl, rfl⟩ := EStateM.Result.ok.inj (served.symm.trans ran)
  obtain ⟨total, read, room⟩ := block (by decide)
  refine ⟨s₁, total, served, read, fun roomy => ?_⟩
  have covers := room.mp roomy
  unfold BuddyAllocator.Covers at covers
  exact absurd covers (by decide)

end Buddy
