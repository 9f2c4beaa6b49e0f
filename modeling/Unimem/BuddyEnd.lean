import Unimem.BuddyPool

/-!
The destructor. It gives every entry of the pool back to the system as if it
were a whole chunk. That succeeds where each entry lies at the beginning of one,
also where the rest of the chunk is live; chunks without a free entry are kept.
-/

namespace Buddy

open Tiling OrderedSets WordArith MetadataCache

/-- Every free entry lies where something begins that the system has handed out. -/
def BuddyAllocator.Starts (s : BuddyAllocator) : Prop :=
  ∀ item ∈ s.pool, ∃ grant ∈ s.systemAllocator.outstanding, grant.address = item.address

/-- What the system has handed out, less what a free entry lies at. -/
def BuddyAllocator.retained (s : BuddyAllocator) : List Grant :=
  s.systemAllocator.outstanding.filter fun grant => ∀ item ∈ s.pool, item.address ≠ grant.address

section Inversion

variable {α : Type} {s s' : BuddyAllocator} {value : α}

theorem onCache_inv {action : MetadataCache.Action α} (ran : onCache action s = .ok value s') :
    ∃ c, s' = { s with cache := c } := by
  unfold onCache at ran
  split at ran
  · obtain ⟨-, rfl⟩ := EStateM.Result.ok.inj ran
    exact ⟨_, rfl⟩
  · cases ran

theorem SystemAllocator.free_inv {p size index : Nat}
    (ran : SystemAllocator.free p size index s = .ok () s') :
    ⟨p, size, index⟩ ∈ s.systemAllocator.outstanding ∧ s'.pool = s.pool ∧
      s'.systemAllocator.outstanding = s.systemAllocator.outstanding.erase ⟨p, size, index⟩ := by
  rw [SystemAllocator.free, bind_get] at ran
  split at ran
  · obtain ⟨-, rfl⟩ := EStateM.Result.ok.inj ran
    exact ⟨‹_›, rfl, rfl⟩
  · cases ran

variable [StdHash]

/-- What is given back was handed out at that address. -/
theorem giveBack_inv {item : IndexSizeAddress} (ran : giveBack item s = .ok () s') :
    (∃ grant ∈ s.systemAllocator.outstanding, grant.address = item.address) ∧
      s'.pool = s.pool.erase item ∧
      ∀ grant ∈ s'.systemAllocator.outstanding, grant ∈ s.systemAllocator.outstanding := by
  rw [giveBack, bind_get] at ran
  obtain ⟨index, s₁, read, ran⟩ := Fuelled.bind_returns ran
  obtain ⟨⟨⟩, s₂, freed, ran⟩ := Fuelled.bind_returns ran
  obtain ⟨⟨⟩, s₃, forgot, ran⟩ := Fuelled.bind_returns ran
  obtain ⟨c, rfl⟩ := onCache_inv read
  obtain ⟨member, pool, outstanding⟩ := SystemAllocator.free_inv freed
  obtain ⟨c', rfl⟩ := onCache_inv forgot
  obtain ⟨-, rfl⟩ := EStateM.Result.ok.inj ran
  refine ⟨⟨_, member, rfl⟩, ?_, fun grant kept => ?_⟩
  · exact congrArg (Finset.erase · item) pool
  · have inRest : grant ∈ s₂.systemAllocator.outstanding := kept
    rw [outstanding] at inRest
    exact List.mem_of_mem_erase inRest

theorem destructorFrom_inv {fuel : Nat} (ran : destructorFrom fuel s = .ok () s') : s.Starts := by
  induction fuel generalizing s with
  | zero => cases ran
  | succ fuel ih =>
      rw [destructorFrom, bind_get] at ran
      cases found : first s.pool with
      | none =>
          intro item member
          rw [first_eq_none.mp found] at member
          cases member
      | some item =>
          rw [found] at ran
          obtain ⟨⟨⟩, s₁, gave, ran⟩ := Fuelled.bind_returns ran
          obtain ⟨start, pool, kept⟩ := giveBack_inv gave
          have later := ih ran
          intro other member
          by_cases same : other = item
          · rw [same]
            exact start
          · have inRest : other ∈ s₁.pool := by
              rw [pool]
              exact Finset.mem_erase.mpr ⟨same, member⟩
            obtain ⟨grant, granted, here⟩ := later other inRest
            exact ⟨grant, kept grant granted, here⟩

end Inversion

namespace Stores

variable [StdHash] {s : BuddyAllocator} {h : Heap} {left right : List Region} {region : Region}
  {below above : List Part} {part : Part}

omit [StdHash] in
theorem start_of_first (laid : h.Laid) (place : h.Place left region right [] part above) :
    part.start = region.base := by
  have tiles := (laid.laid region place.mem_region).tiles
  rw [place.parts] at tiles
  exact tiles.1

/-- A free part of a chunk that has no other is given back with the chunk. -/
theorem giveBack_run (stores : Stores s h) (place : h.Place left region right [] part above)
    (free : part.live = false) (alone : ∀ other ∈ above, other.live = true) :
    ∃ c s', giveBack (part.entry region.index) s = .ok () s' ∧ s' = { s with
        pool := s.pool.erase (part.entry region.index)
        systemAllocator := { s.systemAllocator with
          outstanding := (left ++ right).map Region.grant }
        cache := c } ∧
      c.mem.byte = s.cache.mem.byte ∧ Stores s' (h.dismiss region.base) := by
  have laid := stores.wellFormed.toLaid
  have started := start_of_first laid place
  have whole : region.size = s.maxChunkSize := by
    have sized := stores.wellFormed.sized region place.mem_region
    rwa [place.ordinary laid free, if_neg Bool.false_ne_true] at sized
  have noneFree : freeEntries region.index above = [] := by
    unfold freeEntries
    rw [List.filter_eq_nil_iff.mpr fun other member => by simp [alone other member], List.map_nil]
  have pool : s.pool.erase (part.entry region.index) = poolOf (left ++ right) := by
    rw [stores.pool, Heap.pool, place.regions, poolOf_place, place.parts,
      erase_entry free (entry_absent laid place) (place.start_ne_below laid)
        (place.start_ne_above laid), List.nil_append, noneFree]
    simp
  obtain ⟨c, c', ran, forgets, gpu, bytes, kept⟩ := stores.handBack_run place.regions
  rw [whole] at ran
  refine ⟨c', _, ?_, rfl, bytes, stores.dismiss_stores place.regions rfl kept pool rfl
    (gpu.trans stores.gpu)⟩
  have read := @read_index _ s region [] above part (stores.threaded region place.mem_region)
    place.parts
  rw [giveBack, bind_get]
  simp only [Part.entry_address]
  rw [bind_ok read, started, bind_ok ran, bind_ok (onCache_ok forgets)]
  rfl

/-- The free entry is the only one of its chunk, and the first part of it. -/
theorem at_start (stores : Stores s h) (starts : s.Starts)
    (place : h.Place left region right below part above) (free : part.live = false) :
    below = [] ∧ ∀ other ∈ above, other.live = true := by
  have laid := stores.wellFormed.toLaid
  have here := laid.laid region place.mem_region
  have at_base : ∀ next ∈ region.parts, next.live = false → next.start = region.base := by
    intro next inside idle
    have inPool : next.entry region.index ∈ s.pool := by
      rw [stores.pool]
      exact mem_poolOf.mpr ⟨region, place.mem_region, next, inside, idle, rfl⟩
    obtain ⟨grant, granted, same⟩ := starts _ inPool
    rw [stores.grants] at granted
    obtain ⟨other, inHeap, rfl⟩ := List.mem_map.mp granted
    have base : other.base = next.start := same
    have wide := (laid.laid other inHeap).wide
    unfold sizeofDesc at wide
    have within : other.Within next.start := ⟨Nat.le_of_eq base, by unfold Region.stop; omega⟩
    rw [laid.region_unique place.mem_region inHeap (here.within_start inside) within, base]
  have starting := at_base part place.mem_part free
  constructor
  · cases shape : below with
    | nil => rfl
    | cons first rest =>
        have member : first ∈ below := by simp [shape]
        have lower := (here.separate place.parts).1 first member
        have inside : first ∈ region.parts := by simp [place.parts, member]
        have bounds := here.bounds inside
        have wide := here.room first inside
        unfold Part.stop at lower
        unfold sizeofDesc at wide
        omega
  · intro other member
    by_contra idle
    have inside : other ∈ region.parts := by simp [place.parts, member]
    have same := at_base other inside (by simpa using idle)
    exact place.start_ne_above laid other member (same.trans starting.symm)

omit [StdHash] in
/-- Where a chunk begins lies one entry at most. -/
theorem entry_unique {item : IndexSizeAddress} (laid : h.Laid)
    (place : h.Place left region right [] part above) (member : item ∈ h.pool)
    (here : item.address = region.base) : item = part.entry region.index := by
  obtain ⟨other, inHeap, next, inside, -, rfl⟩ := mem_poolOf.mp member
  have started := start_of_first laid place
  have inParts := Heap.mem_parts.mpr ⟨other, inHeap, inside⟩
  have same := laid.part_unique inParts place.in_parts (here.trans started.symm)
  have within : region.Within next.start :=
    same ▸ (laid.laid _ place.mem_region).within_start place.mem_part
  have unique := laid.region_unique inHeap place.mem_region
    ((laid.laid _ inHeap).within_start inside) within
  rw [unique, same]

/-- One round leaves what the rounds to come have to do. -/
theorem starts_step (stores : Stores s h) (starts : s.Starts)
    (place : h.Place left region right [] part above)
    {s' : BuddyAllocator} (pool : s'.pool = s.pool.erase (part.entry region.index))
    (grants : s'.systemAllocator.outstanding = (left ++ right).map Region.grant) :
    s'.Starts := by
  intro item member
  rw [pool] at member
  obtain ⟨different, old⟩ := Finset.mem_erase.mp member
  obtain ⟨grant, granted, same⟩ := starts item old
  rw [stores.grants, place.regions] at granted
  obtain ⟨other, inHeap, rfl⟩ := List.mem_map.mp granted
  refine ⟨other.grant, ?_, same⟩
  rw [grants]
  refine List.mem_map_of_mem ?_
  rw [List.mem_append, List.mem_cons] at inHeap
  rcases inHeap with inLeft | rfl | inRight
  · exact List.mem_append_left _ inLeft
  · have base : item.address = other.base := same.symm
    exact absurd (entry_unique stores.wellFormed.toLaid place (stores.pool ▸ old) base) different
  · exact List.mem_append_right _ inRight

theorem retained_step (stores : Stores s h)
    (place : h.Place left region right [] part above) (free : part.live = false)
    {s' : BuddyAllocator} (pool : s'.pool = s.pool.erase (part.entry region.index))
    (grants : s'.systemAllocator.outstanding = (left ++ right).map Region.grant) :
    s'.retained = s.retained := by
  have laid := stores.wellFormed.toLaid
  have started := start_of_first laid place
  have inPool : part.entry region.index ∈ s.pool := by
    rw [stores.pool]
    exact mem_poolOf.mpr ⟨region, place.mem_region, part, place.mem_part, free, rfl⟩
  unfold BuddyAllocator.retained
  have others : ∀ grant ∈ (left ++ right).map Region.grant,
      decide (∀ item ∈ s'.pool, item.address ≠ grant.address) =
        decide (∀ item ∈ s.pool, item.address ≠ grant.address) := by
    intro grant granted
    obtain ⟨other, member, rfl⟩ := List.mem_map.mp granted
    have apart := laid.base_ne place.regions member
    refine decide_eq_decide.mpr ⟨fun rest item inOld => ?_, fun all item inRest => ?_⟩
    · by_cases same : item = part.entry region.index
      · rw [same]
        exact fun here => apart (here.symm.trans started)
      · exact rest item (by rw [pool]; exact Finset.mem_erase.mpr ⟨same, inOld⟩)
    · rw [pool] at inRest
      exact all item (Finset.mem_of_mem_erase inRest)
  have given : ¬ decide (∀ item ∈ s.pool, item.address ≠ region.grant.address) = true := by
    intro all
    exact of_decide_eq_true all _ inPool started
  have dropped : (region.grant :: right.map Region.grant).filter
        (fun grant => ∀ item ∈ s.pool, item.address ≠ grant.address) =
      (right.map Region.grant).filter
        fun grant => ∀ item ∈ s.pool, item.address ≠ grant.address :=
    List.filter_cons_of_neg given
  rw [grants, List.filter_congr others, stores.grants, place.regions, List.map_append,
    List.map_append, List.map_cons, List.filter_append, List.filter_append, dropped]

theorem destructorFrom_run {fuel : Nat} (stores : Stores s h) (starts : s.Starts)
    (enough : s.pool.card < fuel) : ∃ s', destructorFrom fuel s = .ok () s' ∧ s'.pool = ∅ ∧
      s'.systemAllocator.outstanding = s.retained := by
  induction fuel generalizing s h with
  | zero => exact absurd enough (Nat.not_lt_zero _)
  | succ fuel ih =>
      rw [destructorFrom, bind_get]
      cases found : first s.pool with
      | none =>
          have empty := first_eq_none.mp found
          refine ⟨s, rfl, empty, ?_⟩
          unfold BuddyAllocator.retained
          rw [empty]
          simp
      | some item =>
          have member := (first_eq_some.mp found).1
          have inPool : item ∈ h.pool := stores.pool ▸ member
          obtain ⟨region, inHeap, part, inside, free, rfl⟩ := mem_poolOf.mp inPool
          obtain ⟨left, right, below, above, place⟩ := Heap.exists_place inHeap inside
          obtain ⟨rfl, alone⟩ := stores.at_start starts place free
          obtain ⟨c, s₁, ran, left₁, -, stores₁⟩ := stores.giveBack_run place free alone
          have pool : s₁.pool = s.pool.erase (part.entry region.index) := by rw [left₁]
          have starts₁ := stores.starts_step starts place pool (by rw [left₁])
          have retained := stores.retained_step place free pool (by rw [left₁])
          have fewer := Finset.card_erase_add_one member
          obtain ⟨s', ran', empty, kept⟩ := ih stores₁ starts₁ (by rw [pool]; omega)
          refine ⟨s', ?_, empty, kept.trans retained⟩
          simp only
          rw [bind_ok ran]
          exact ran'

end Stores

variable [StdHash] {setup : Setup} {w : World} {events : List Event}

/-- What the destructor does to a world. -/
structure Destroys (w : World) : Prop where
  returns_iff : (∃ s', destructor w.allocator = .ok () s') ↔ w.allocator.Starts
  keeps : ∀ s', destructor w.allocator = .ok () s' →
    s'.pool = ∅ ∧ s'.systemAllocator.outstanding = w.allocator.retained
  idle : w.live = [] →
    ∃ s', destructor w.allocator = .ok () s' ∧ s'.systemAllocator.outstanding = []

/-- In a state that requests which do not wrap reach, the destructor returns exactly where
every free entry lies at the beginning of a chunk, and then keeps the memory without one. -/
theorem reached_destroys (positive : setup.minChunkSize ≠ 0) (run : setup.Reaches events w) :
    Destroys w := by
  obtain ⟨h, runs⟩ := reached_runs positive run
  have stores := runs.represents.toStores
  have returns := fun starts : w.allocator.Starts =>
    stores.destructorFrom_run starts (Nat.lt_succ_self _)
  refine ⟨⟨?_, fun starts => ?_⟩, fun s' ran => ?_, fun none => ?_⟩
  · rintro ⟨s', ran⟩
    exact destructorFrom_inv ran
  · obtain ⟨s', ran, -⟩ := returns starts
    exact ⟨s', ran⟩
  · obtain ⟨s₁, ran₁, empty, kept⟩ := returns (destructorFrom_inv ran)
    obtain ⟨-, rfl⟩ := EStateM.Result.ok.inj (ran.symm.trans ran₁)
    exact ⟨empty, kept⟩
  · obtain ⟨pool, -⟩ := runs.idle none
    obtain ⟨s', ran, -, kept⟩ := returns fun item member => ⟨_, (pool item).mp member, rfl⟩
    refine ⟨s', ran, kept.trans ?_⟩
    refine List.filter_eq_nil_iff.mpr fun grant granted all => ?_
    have inPool := (pool ⟨grant.index, grant.size, grant.address⟩).mpr granted
    exact of_decide_eq_true all _ inPool rfl

omit [StdHash] in
/-- A chunk whose first block is free goes back, though its second block is live. -/
theorem reached_destroys_sample : ∃ w s',
    @Setup.Reaches plainHash .sample [.call (.alloc 100) 4160, .call (.alloc 780) 4336,
      .call (.free 4160) 0] w ∧
    w.live = [(4336, 780)] ∧ @destructor plainHash w.allocator = .ok () s' ∧
      s'.systemAllocator.outstanding = [] := by
  obtain ⟨w, run, live, reaches⟩ := @Setup.plays .sample [.alloc 100, .alloc 780, .free 4160]
    [.call (.alloc 100) 4160, .call (.alloc 780) 4336, .call (.free 4160) 0] [(4336, 780)]
    (by decide) (by decide +kernel)
  have destroys := @reached_destroys plainHash _ _ _ (by decide) run
  have pool : w.allocator.pool = {⟨0, 176, 4096⟩} :=
    (@Replay.Reaches.pool plainHash _ _ _ reaches).trans (by decide +kernel)
  have grants : w.allocator.systemAllocator.outstanding = [⟨4096, 1024, 0⟩] :=
    (@Replay.Reaches.grants plainHash _ _ _ reaches).trans (by decide +kernel)
  have starts : w.allocator.Starts := by
    intro item member
    rw [pool, Finset.mem_singleton] at member
    exact ⟨⟨4096, 1024, 0⟩, by simp [grants], by rw [member]⟩
  obtain ⟨s', ran⟩ := (@Destroys.returns_iff plainHash _ destroys).mpr starts
  obtain ⟨-, kept⟩ := @Destroys.keeps plainHash _ destroys s' ran
  refine ⟨w, s', run, live, ran, kept.trans ?_⟩
  rw [BuddyAllocator.retained, pool, grants]
  decide +kernel

end Buddy
