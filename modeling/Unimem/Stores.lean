import Unimem.Threads

/-!
A state of the allocator stores a heap: the cache threads every region, the
pool has an entry for every free part and the system has handed out exactly the
regions. Cutting a request from a free part and freeing a part keep that.
-/

namespace Buddy

open Tiling Coalescing OrderedSets WordArith LinkedRow MetadataCache ByteMemory

section OnCache

variable {α β : Type} {action : MetadataCache.Action α} {s : BuddyAllocator} {c : MetadataCache}
  {value : α} {rest : α → Prog β}

theorem onCache_ok (ran : action s.cache = .ok value c) :
    onCache action s = .ok value { s with cache := c } := by
  rw [onCache, ran]

theorem bind_onCache (ran : action s.cache = .ok value c) :
    (onCache action >>= rest) s = rest value { s with cache := c } :=
  bind_ok (onCache_ok ran)

/-- Reading the cache changes nothing. -/
theorem bind_read (ran : action s.cache = .ok value s.cache) :
    (onCache action >>= rest) s = rest value s := bind_onCache ran

end OnCache

theorem bind_poolErase {β : Type} {item : IndexSizeAddress} {rest : Unit → Prog β}
    {s : BuddyAllocator} : (poolErase item >>= rest) s =
      rest () { s with pool := s.pool.erase item } := rfl

/-- All bytes of the region can be written, or need not be. -/
def MetadataCache.Reaches (c : MetadataCache) (region : Region) : Prop :=
  c.usesGpu = true ∨ ∀ x, region.Within x → c.mem.mapped x = true

variable [StdHash]

structure Stores (s : BuddyAllocator) (h : Heap) : Prop where
  wellFormed : h.WellFormed s.maxChunkSize
  threaded : ∀ region ∈ h.regions, Threaded s.cache region
  reaches : ∀ region ∈ h.regions, s.cache.Reaches region
  pool : s.pool = h.pool
  grants : s.systemAllocator.outstanding = h.regions.map Region.grant
  gpu : s.cache.usesGpu = s.systemAllocator.useGpu

omit [StdHash] in
theorem MetadataCache.Reaches.writable {c : MetadataCache} {region : Region}
    (reaches : c.Reaches region) {block : Nat} (low : region.base ≤ block)
    (high : block + sizeofDesc ≤ region.stop) : c.Writable block := by
  rcases reaches with gpu | mapped
  · exact Or.inl gpu
  · refine Or.inr ((Memory.accessible_iff _ _ _).mpr fun x lower upper => mapped x ⟨?_, ?_⟩)
    · omega
    · omega

omit [StdHash] in
theorem MetadataCache.Reaches.keep {c c' : MetadataCache} {region : Region} {W : Nat → Prop}
    (reaches : c.Reaches region) (keeps : Keeps W c c') : c'.Reaches region := by
  unfold Reaches
  rwa [keeps.usesGpu, keeps.agrees.mapped]

namespace Stores

variable {s : BuddyAllocator} {h h' : Heap} {left right : List Region} {region region' : Region}
  {below above : List Part} {part : Part} {wanted : Nat} {c : MetadataCache} {W : Nat → Prop}

/-- Descriptors of the other regions are out of reach of what is written in one. -/
theorem keep_threaded (stores : Stores s h)
    (place : h.Place left region right below part above) (keeps : Keeps W s.cache c)
    (inside : ∀ x, W x → region.Within x) {other : Region} (member : other ∈ left ++ right) :
    Threaded c other := by
  have laid := stores.wellFormed.toLaid
  have inHeap := place.mem_other member
  refine Threading.keep (stores.threaded other inHeap) keeps fun next within x atNext written => ?_
  have bounds := (laid.laid other inHeap).bounds within
  have wide := (laid.laid other inHeap).room next within
  have apart := place.region_apart laid member
  have here := inside x written
  unfold Region.Within at here
  unfold Region.Separate at apart
  unfold Part.stop at bounds
  unfold Window at atNext
  omega

/-- One region exchanged, with its descriptors written. -/
theorem exchange (stores : Stores s h) (place : h.Place left region right below part above)
    (keeps : Keeps W s.cache c) (inside : ∀ x, W x → region.Within x)
    (threaded : Threaded c region') (grant : region'.grant = region.grant)
    (regions' : h'.regions = left ++ region' :: right) :
    (∀ other ∈ h'.regions, Threaded c other) ∧ (∀ other ∈ h'.regions, c.Reaches other) ∧
      h'.regions.map Region.grant = h.regions.map Region.grant := by
  obtain ⟨base, size, -⟩ : region'.base = region.base ∧ region'.size = region.size ∧
      region'.index = region.index := by simpa [Region.grant] using grant
  have reached : c.Reaches region' := by
    have reaches := (stores.reaches region place.mem_region).keep keeps
    unfold Reaches Region.Within Region.stop at reaches ⊢
    rwa [base, size]
  refine ⟨fun other member => ?_, fun other member => ?_, ?_⟩
  · rw [regions', List.mem_append, List.mem_cons] at member
    rcases member with inLeft | rfl | inRight
    · exact stores.keep_threaded place keeps inside (List.mem_append_left _ inLeft)
    · exact threaded
    · exact stores.keep_threaded place keeps inside (List.mem_append_right _ inRight)
  · rw [regions', List.mem_append, List.mem_cons] at member
    rcases member with inLeft | rfl | inRight
    · exact (stores.reaches other
        (place.mem_other (List.mem_append_left _ inLeft))).keep keeps
    · exact reached
    · exact (stores.reaches other
        (place.mem_other (List.mem_append_right _ inRight))).keep keeps
  · rw [regions', place.regions, List.map_append, List.map_cons, List.map_append, List.map_cons,
      grant]

/-- Where the descriptors of a region and one more in a free part of it are written. -/
def Writes (region : Region) (part : Part) (x : Nat) : Prop :=
  region.Headers x ∨ part.live = false ∧ part.start ≤ x ∧ x < part.stop

omit [StdHash] in
theorem writes_within (laid : region.Laid) (member : part ∈ region.parts) :
    ∀ x, Writes region part x → region.Within x := by
  rintro x (⟨next, inside, atNext⟩ | ⟨-, low, high⟩)
  · have bounds := laid.bounds inside
    have wide := laid.room next inside
    unfold Part.stop at bounds
    unfold Window at atNext
    exact ⟨by omega, by omega⟩
  · have bounds := laid.bounds member
    exact ⟨by omega, by omega⟩

section Reads

variable (threaded : Threaded s.cache region) (shape : region.parts = below ++ part :: above)
include threaded shape

theorem read_type : onCache (MemoryBlock.type part.start) s = .ok (region.typeOf part) s :=
  onCache_ok (MemoryBlock.type_run (threaded.holds shape))

theorem read_index : onCache (MemoryBlock.index part.start) s = .ok region.index s :=
  onCache_ok (MemoryBlock.index_run (threaded.holds shape))

theorem read_totalSize : onCache (MemoryBlock.totalSize part.start) s = .ok part.total s :=
  onCache_ok (MemoryBlock.totalSize_run (threaded.holds shape))

theorem read_rightBuddy : onCache (MemoryBlock.rightBuddy part.start) s =
    .ok (firstOr Part.start above 0) s :=
  onCache_ok (MemoryBlock.rightBuddy_run (threaded.holds shape))

theorem read_leftBuddy : onCache (MemoryBlock.leftBuddy part.start) s =
    .ok (lastOr Part.start 0 below) s :=
  onCache_ok (MemoryBlock.leftBuddy_run (threaded.holds shape))

theorem read_hasRightBuddy : onCache (MemoryBlock.hasRightBuddy part.start) s =
    .ok (firstOr Part.start above 0 != 0) s :=
  onCache_ok (MemoryBlock.hasRightBuddy_run (threaded.holds shape))

theorem read_hasLeftBuddy : onCache (MemoryBlock.hasLeftBuddy part.start) s =
    .ok (lastOr Part.start 0 below != 0) s :=
  onCache_ok (MemoryBlock.hasLeftBuddy_run (threaded.holds shape))

end Reads

/-- What follows a block is in use, or nothing does: the pool stays. -/
theorem insertRest_none (threaded : Threaded s.cache region)
    (shape : region.parts = below ++ part :: above) (positive : ∀ next ∈ above, next.start ≠ 0)
    (inUse : ∀ next, above.head? = some next → next.live = true) :
    insertRest part.start s = .ok () s := by
  unfold insertRest
  rw [bind_ok (read_hasRightBuddy threaded shape)]
  cases above with
  | nil => rfl
  | cons next rest =>
      have shape' : region.parts = (below ++ [part]) ++ next :: rest := by simp [shape]
      have kind : region.typeOf next ≠ .freeChunk := by
        have live := inUse next rfl
        simp only [Region.typeOf, live]
        split <;> simp
      have there : (next.start != 0) = true := by simpa using positive next List.mem_cons_self
      rw [firstOr_cons, if_pos there, bind_ok (read_rightBuddy threaded shape), firstOr_cons,
        bind_ok (read_type threaded shape'), if_neg kind]
      rfl

theorem insertRest_some {next : Part} (threaded : Threaded s.cache region)
    (shape : region.parts = below ++ part :: next :: above) (positive : next.start ≠ 0)
    (free : next.live = false) (ordinary : region.huge = false) :
    insertRest part.start s =
      .ok () { s with pool := insert (next.entry region.index) s.pool } := by
  have shape' : region.parts = (below ++ [part]) ++ next :: above := by simp [shape]
  have kind : region.typeOf next = .freeChunk := by simp [Region.typeOf, ordinary, free]
  have there : (next.start != 0) = true := by simpa using positive
  unfold insertRest
  rw [bind_ok (read_hasRightBuddy threaded shape), firstOr_cons, if_pos there,
    bind_ok (read_rightBuddy threaded shape), firstOr_cons, bind_ok (read_type threaded shape'),
    if_pos kind, bind_ok (read_index threaded shape'), bind_ok (read_totalSize threaded shape')]
  rfl

omit [StdHash] in
theorem laid_halves (laid : region.Laid) (shape : region.parts = below ++ part :: above)
    (ordinary : region.huge = false) (covers : wanted ≤ part.total) (least : sizeofDesc ≤ wanted)
    (rest : sizeofDesc ≤ part.total - wanted) :
    Region.Laid { region with parts := below ++ ([⟨part.start, wanted, false⟩,
      ⟨part.start + wanted, part.total - wanted, false⟩] ++ above) } := by
  have replaced := laid.replace [⟨part.start, wanted, false⟩,
    ⟨part.start + wanted, part.total - wanted, false⟩]
    (show region.parts = below ++ [part] ++ above by simp [shape]) ordinary
    (fun low high tiles => Part.tiles_halves covers tiles) fun piece inPieces => by
      rcases List.mem_pair.mp inPieces with rfl | rfl
      · exact least
      · exact rest
  rwa [List.append_assoc] at replaced

omit [StdHash] in
/-- Cutting a part in two adds one descriptor. -/
theorem headers_halves {x : Nat} (shape : region.parts = below ++ part :: above)
    (inside : Region.Headers { region with parts := below ++ ([⟨part.start, wanted, false⟩,
      ⟨part.start + wanted, part.total - wanted, false⟩] ++ above) } x) :
    region.Headers x ∨ Window (part.start + wanted) x := by
  obtain ⟨piece, inPieces, atPiece⟩ := inside
  simp only [List.mem_append, List.mem_cons] at inPieces
  rcases inPieces with inBelow | (rfl | rfl | empty) | inAbove
  · exact Or.inl ⟨piece, by simp [shape, inBelow], atPiece⟩
  · exact Or.inl ⟨part, by simp [shape], atPiece⟩
  · exact Or.inr atPiece
  · cases empty
  · exact Or.inl ⟨piece, by simp [shape, inAbove], atPiece⟩

/-- A request is cut from the front of a free part, whose entry leaves the pool. -/
theorem splitToAlloc_cut (threaded : Threaded s.cache region) (laid : region.Laid)
    (shape : region.parts = below ++ part :: above) (reaches : s.cache.Reaches region)
    (ordinary : region.huge = false) (free : part.live = false)
    (inUse : ∀ next, above.head? = some next → next.live = true)
    (least : sizeofDesc ≤ wanted) (covers : wanted ≤ part.total) :
    ∃ c, splitToAlloc (part.entry region.index) wanted s = .ok part.start { s with
        pool := s.pool.erase (part.entry region.index) ∪
          (freeEntries region.index (part.cut wanted)).toFinset
        cache := c } ∧
      Threaded c { region with parts := below ++ part.cut wanted ++ above } ∧
      Keeps (Writes region part) s.cache c := by
  have member : part ∈ region.parts := by simp [shape]
  have bounds := laid.bounds member
  have start_lt := laid.start_lt member
  unfold Part.stop at bounds
  simp only [splitToAlloc, Part.entry_address]
  rw [bind_poolErase]
  generalize erased : ({ s with pool := s.pool.erase (part.entry region.index) } :
    BuddyAllocator) = s₁
  have cache : s.cache = s₁.cache := by rw [← erased]
  rw [cache] at threaded reaches ⊢
  by_cases narrow : part.total - wanted ≤ sizeofDesc
  · have bails := MemoryBlock.split_bails (threaded.holds shape) covers (laid.fits_desc shape)
      narrow
    obtain ⟨c, ran, threaded', keeps⟩ := threaded.setType laid shape ordinary true
    rw [if_pos rfl] at ran
    have pieces : part.cut wanted = [part.marked true] := by rw [Part.cut, if_pos narrow]
    have positive : ∀ next ∈ above, next.start ≠ 0 := fun next inAbove =>
      Nat.ne_of_gt (laid.start_lt (by simp [shape, inAbove])).1
    have rested : insertRest part.start { s₁ with cache := c } = .ok () { s₁ with cache := c } :=
      @insertRest_none _ { s₁ with cache := c } _ _ _ (part.marked true) threaded' rfl positive
        inUse
    rw [pieces, List.append_assoc, List.singleton_append]
    refine ⟨c, ?_, threaded', keeps.mono fun x => Or.inl⟩
    rw [bind_read bails, bind_onCache ran, bind_ok rested, ← erased]
    simp only [freeEntries, Part.marked, List.filter_cons, Bool.not_true, Bool.false_eq_true,
      if_false, List.filter_nil, List.map_nil, List.toFinset_nil, Finset.union_empty]
    rfl
  · have writable : s₁.cache.Writable (part.start + wanted) :=
      reaches.writable (by omega) (by omega)
    obtain ⟨c₁, ran₁, threaded₁, keeps₁⟩ := threaded.split laid shape least (by omega) writable
      ordinary free
    have pieces : part.cut wanted = [⟨part.start, wanted, true⟩,
        ⟨part.start + wanted, part.total - wanted, false⟩] := by rw [Part.cut, if_neg narrow]
    have laid₁ := laid_halves laid shape ordinary covers least
      (Nat.le_of_lt (Nat.lt_of_not_le narrow))
    obtain ⟨c₂, ran₂, threaded₂, keeps₂⟩ := threaded₁.setType laid₁ rfl ordinary true
    rw [if_pos rfl] at ran₂
    have rested : insertRest part.start { s₁ with cache := c₂ } = .ok () { s₁ with
        pool := insert ⟨region.index, part.total - wanted, part.start + wanted⟩ s₁.pool
        cache := c₂ } :=
      insertRest_some (s := { s₁ with cache := c₂ }) threaded₂ rfl (by simp; omega) rfl ordinary
    rw [pieces]
    refine ⟨c₂, ?_, ?_, ?_⟩
    · rw [bind_onCache ran₁, bind_ok (onCache_ok ran₂), bind_ok rested, ← erased]
      simp only [freeEntries, List.filter_cons, Bool.not_true, Bool.false_eq_true, if_false,
        Bool.not_false, if_true, List.filter_nil, List.map_cons, List.map_nil,
        List.toFinset_cons, List.toFinset_nil, insert_empty_eq, Finset.union_comm _ {_},
        ← Finset.insert_eq]
      rfl
    · rw [List.append_assoc]
      exact threaded₂
    · have atRight : ∀ x, Window (part.start + wanted) x → Writes region part x := by
        intro x inside
        unfold Window at inside
        refine Or.inr ⟨free, by omega, ?_⟩
        unfold Part.stop
        omega
      exact (keeps₁.mono fun x written => written.elim Or.inl (atRight x)).trans
        (keeps₂.mono fun x inside => (headers_halves shape inside).elim Or.inl (atRight x))

omit [StdHash] in
theorem entry_absent (stores : h.Laid) (place : h.Place left region right below part above) :
    part.entry region.index ∉ poolOf (left ++ right) := fun member =>
  place.address_ne stores member
    ((stores.laid region place.mem_region).within_start place.mem_part)

omit [StdHash] in
theorem pool_carve (laid : h.Laid) (place : h.Place left region right below part above)
    (free : part.live = false) : h.pool.erase (part.entry region.index) ∪
      (freeEntries region.index (part.cut wanted)).toFinset =
        (h.carve part.start wanted).pool := by
  have erased : h.pool.erase (part.entry region.index) = poolOf (left ++ right) ∪
      (freeEntries region.index (below ++ above)).toFinset := by
    rw [Heap.pool, place.regions, poolOf_place, place.parts]
    exact erase_entry free (entry_absent laid place) (place.start_ne_below laid)
      (place.start_ne_above laid)
  rw [erased, Heap.pool, place.carve_regions laid, poolOf_place]
  ext item
  simp only [freeEntries_append, List.toFinset_append, Finset.mem_union]
  tauto

/-- A request is cut from the front of a free part. -/
theorem splitToAlloc_run (stores : Stores s h)
    (place : h.Place left region right below part above) (free : part.live = false)
    (least : sizeofDesc ≤ wanted) (covers : wanted ≤ part.total) :
    ∃ c, splitToAlloc (part.entry region.index) wanted s = .ok part.start
        { s with pool := (h.carve part.start wanted).pool, cache := c } ∧
      Threaded c { region with parts := below ++ part.cut wanted ++ above } ∧
      Keeps (Writes region part) s.cache c := by
  have laid := stores.wellFormed.toLaid
  obtain ⟨c, ran, threaded, keeps⟩ := splitToAlloc_cut
    (stores.threaded region place.mem_region) (laid.laid region place.mem_region) place.parts
    (stores.reaches region place.mem_region) (place.ordinary laid free) free
    (place.live_above (stores.wellFormed.sparse region place.mem_region) free) least covers
  rw [stores.pool, pool_carve laid place free] at ran
  exact ⟨c, ran, threaded, keeps⟩

section Merging

variable {rest : Finset IndexSizeAddress} {parts : List Part}

/-- A free block lies in a free part now; where that starts below it, it is invalid. -/
def Absorbed (c : MetadataCache) (parts : List Part) (old : Part) : Prop :=
  ∃ part ∈ parts, part.live = false ∧ old.stop ≤ part.stop ∧ (part.start = old.start ∨
    part.start + sizeofDesc ≤ old.start ∧ c.Holds old.start (Desc.new .invalidChunk 0 0 0 0 0))

/-- A region whose parts are merged to those given, at no new addresses. -/
structure Merged (c₀ : MetadataCache) (region : Region) (parts : List Part)
    (c : MetadataCache) : Prop where
  threaded : Threaded c { region with parts := parts }
  laid : Region.Laid { region with parts := parts }
  headers : ∀ x, Region.Headers { region with parts := parts } x → region.Headers x
  absorbed : ∀ old ∈ region.parts, old.live = false → Absorbed c parts old
  keeps : Keeps region.Headers c₀ c

theorem merged_refl (threaded : Threaded s.cache region) (laid : region.Laid)
    (shape : region.parts = parts) : Merged s.cache region parts s.cache := by
  subst shape
  exact ⟨threaded, laid, fun _ inside => inside, fun old member free =>
    ⟨old, member, free, Nat.le_refl _, Or.inl rfl⟩, Keeps.refl _⟩

theorem merge_merged {next : Part} (threaded : Threaded s.cache region) (laid : region.Laid)
    (shape : region.parts = below ++ part :: next :: above) (ordinary : region.huge = false)
    (free : part.live = false) (freeNext : next.live = false) :
    ∃ c, MemoryBlock.merge part.start next.start s.cache = .ok () c ∧
      Merged s.cache region (below ++ part.join next :: above) c := by
  obtain ⟨c, ran, threaded', invalid, keeps⟩ :=
    threaded.merge laid shape ordinary free freeNext
  have adjacent : part.start + part.total = next.start := adjacent_stop laid.tiles
    (adjacent_iff.mpr ⟨below, above, shape⟩)
  refine ⟨c, ran, threaded', ?_, ?_, fun old member isFree => ?_, keeps⟩
  · have laid' := laid.replace [part.join next]
      (show region.parts = below ++ [part, next] ++ above by simp [shape]) ordinary
      (fun low high tiles => ?_) (fun other member => ?_)
    · simpa using laid'
    · obtain ⟨here, -, ends⟩ := tiles
      refine ⟨here, ?_⟩
      change low + (part.total + next.total) = high
      rw [← Nat.add_assoc]
      exact ends
    · obtain rfl := List.mem_singleton.mp member
      exact Nat.le_trans (laid.room part (by simp [shape])) (Nat.le_add_right _ _)
  · rintro x ⟨other, member, inside⟩
    simp only [List.mem_append, List.mem_cons] at member
    rcases member with inBelow | rfl | inAbove
    · exact ⟨other, by simp [shape, inBelow], inside⟩
    · exact ⟨part, by simp [shape], inside⟩
    · exact ⟨other, by simp [shape, inAbove], inside⟩
  · have wide := laid.room part (by simp [shape])
    simp only [shape, List.mem_append, List.mem_cons] at member
    rcases member with inBelow | rfl | rfl | inAbove
    · exact ⟨old, by simp [inBelow], isFree, Nat.le_refl _, Or.inl rfl⟩
    · refine ⟨old.join next, by simp, isFree, ?_, Or.inl rfl⟩
      change old.start + old.total ≤ old.start + (old.total + next.total)
      omega
    · refine ⟨part.join old, by simp, free, ?_, Or.inr ⟨?_, invalid⟩⟩
      · change old.start + old.total ≤ part.start + (part.total + old.total)
        omega
      · change part.start + sizeofDesc ≤ old.start
        omega
    · exact ⟨old, by simp [inAbove], isFree, Nat.le_refl _, Or.inl rfl⟩

/-- The part that has become free takes in a free right neighbour. -/
theorem mergeRight_run (threaded : Threaded s.cache region) (laid : region.Laid)
    (shape : region.parts = below ++ part :: above) (ordinary : region.huge = false)
    (free : part.live = false)
    (pool : s.pool = rest ∪ (freeEntries region.index (below ++ above)).toFinset)
    (absent : ∀ item ∈ rest, ¬ region.Within item.address) :
    ∃ c part' above', mergeRight part.start s = .ok () { s with
        pool := rest ∪ (freeEntries region.index (below ++ above')).toFinset
        cache := c } ∧
      push Part.live Part.join part above = part' :: above' ∧ part'.start = part.start ∧
      part'.live = false ∧ Merged s.cache region (below ++ part' :: above') c := by
  cases above with
  | nil =>
      refine ⟨s.cache, part, [], ?_, rfl, rfl, free, merged_refl threaded laid shape⟩
      rw [mergeRight, bind_ok (read_hasRightBuddy threaded shape), ← pool]
      rfl
  | cons next tail =>
      have shapeNext : region.parts = (below ++ [part]) ++ next :: tail := by simp [shape]
      have memberNext : next ∈ region.parts := by simp [shape]
      have there := start_there laid memberNext
      cases inUse : next.live with
      | true =>
          refine ⟨s.cache, part, next :: tail, ?_, push_before_used inUse, rfl, free,
            merged_refl threaded laid shape⟩
          rw [mergeRight, bind_ok (read_hasRightBuddy threaded shape), firstOr_cons, if_pos there,
            bind_ok (read_rightBuddy threaded shape), firstOr_cons,
            bind_ok (read_type threaded shapeNext), if_neg (by simp [typeOf_live ordinary inUse]), ← pool]
          rfl
      | false =>
          obtain ⟨c, ran, merged⟩ := merge_merged threaded laid shape ordinary free inUse
          have distinct := laid.start_ne shapeNext
          have erased : s.pool.erase (next.entry region.index) =
              rest ∪ (freeEntries region.index (below ++ tail)).toFinset := by
            rw [pool]
            exact erase_entry inUse
              (fun member => absent _ member (laid.within_start memberNext))
              (fun other member => distinct.1 other (by simp [member])) distinct.2
          refine ⟨c, part.join next, tail, ?_, push_free free inUse, rfl, free, merged⟩
          rw [mergeRight, bind_ok (read_hasRightBuddy threaded shape), firstOr_cons,
            if_pos there, bind_ok (read_rightBuddy threaded shape), firstOr_cons,
            bind_ok (read_type threaded shapeNext), if_pos (typeOf_free ordinary inUse),
            bind_ok (read_index threaded shapeNext),
            bind_ok (read_totalSize threaded shapeNext)]
          change (poolErase (next.entry region.index) >>= _) s = _
          rw [bind_poolErase, erased]
          exact onCache_ok ran

/-- The part that has become free is taken in by a free left neighbour. -/
theorem mergeLeft_run (threaded : Threaded s.cache region) (laid : region.Laid)
    (shape : region.parts = below ++ part :: above) (ordinary : region.huge = false)
    (free : part.live = false) (lower : Sparse Part.live below)
    (upper : Sparse Part.live (part :: above))
    (pool : s.pool = rest ∪ (freeEntries region.index (below ++ above)).toFinset)
    (absent : ∀ item ∈ rest, ¬ region.Within item.address) :
    ∃ c below' part', mergeLeft part.start s = .ok part'.start { s with
        pool := rest ∪ (freeEntries region.index (below' ++ above)).toFinset
        cache := c } ∧
      below.foldr (push Part.live Part.join) (part :: above) = below' ++ part' :: above ∧
      part'.live = false ∧ Merged s.cache region (below' ++ part' :: above) c := by
  rcases List.eq_nil_or_concat below with rfl | ⟨farther, last, rfl⟩
  · refine ⟨s.cache, [], part, ?_, rfl, free, merged_refl threaded laid shape⟩
    rw [mergeLeft, bind_ok (read_hasLeftBuddy threaded shape), ← pool]
    rfl
  · rw [List.concat_eq_append] at *
    have shapeLast : region.parts = farther ++ last :: part :: above := by simp [shape]
    have memberLast : last ∈ region.parts := by simp [shape]
    have there := start_there laid memberLast
    cases inUse : last.live with
    | true =>
        refine ⟨s.cache, farther ++ [last], part, ?_, foldr_push_used lower ?_ upper, free,
          merged_refl threaded laid shape⟩
        · rw [mergeLeft, bind_ok (read_hasLeftBuddy threaded shape), lastOr_concat, if_pos there,
            bind_ok (read_leftBuddy threaded shape), lastOr_concat,
            bind_ok (read_type threaded shapeLast), if_neg (by simp [typeOf_live ordinary inUse]), ← pool]
          rfl
        · intro b atEnd
          obtain rfl : last = b := by simpa using atEnd
          exact inUse
    | false =>
        obtain ⟨c, ran, merged⟩ := merge_merged threaded laid shapeLast ordinary inUse free
        have distinct := laid.start_ne shapeLast
        have erased : s.pool.erase (last.entry region.index) =
            rest ∪ (freeEntries region.index (farther ++ above)).toFinset := by
          rw [pool, List.append_assoc]
          exact erase_entry inUse
            (fun member => absent _ member (laid.within_start memberLast)) distinct.1
            (fun other member => distinct.2 other (List.mem_cons_of_mem _ member))
        refine ⟨c, farther, last.join part, ?_, foldr_push_free lower inUse free upper, inUse,
          merged⟩
        rw [mergeLeft, bind_ok (read_hasLeftBuddy threaded shape), lastOr_concat, if_pos there,
          bind_ok (read_leftBuddy threaded shape), lastOr_concat,
          bind_ok (read_type threaded shapeLast), if_pos (typeOf_free ordinary inUse),
          bind_ok (read_index threaded shapeLast), bind_ok (read_totalSize threaded shapeLast)]
        change (poolErase (last.entry region.index) >>= _) s = _
        rw [bind_poolErase, erased]
        exact bind_ok (onCache_ok ran)

/-- What was absorbed once stays so when its region is merged on. -/
theorem Absorbed.trans {c' : MetadataCache} {parts' : List Part} {old : Part}
    (absorbed : Absorbed c parts old) (wide : sizeofDesc ≤ old.total)
    (merged : Merged c { region with parts := parts } parts' c')
    (laid : Region.Laid { region with parts := parts }) : Absorbed c' parts' old := by
  obtain ⟨middle, inMiddle, free, within, place⟩ := absorbed
  obtain ⟨new, inNew, freeNew, within', place'⟩ := merged.absorbed middle inMiddle free
  refine ⟨new, inNew, freeNew, Nat.le_trans within within', ?_⟩
  rcases place with same | ⟨behind, invalid⟩
  · rw [← same]
    exact place'
  · have onward : new.start ≤ middle.start := by
      rcases place' with same' | ⟨behind', -⟩ <;> omega
    refine Or.inr ⟨by omega, merged.keeps.holds invalid fun x inside header => ?_⟩
    -- the old block lies behind the descriptor of the part that it is in
    obtain ⟨other, inParts, atOther⟩ := header
    obtain ⟨below, above, shape⟩ := List.append_of_mem inMiddle
    have separate := Region.Laid.separate laid shape
    have otherWide := laid.room other inParts
    change parts = _ at shape
    change other ∈ parts at inParts
    rw [shape, List.mem_append, List.mem_cons] at inParts
    unfold Window at inside atOther
    unfold Part.stop at separate within
    rcases inParts with inBelow | rfl | inAbove
    · have := separate.1 other inBelow
      omega
    · omega
    · have := separate.2 other inAbove
      omega

end Merging

end Stores

end Buddy
