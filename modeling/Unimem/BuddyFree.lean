import Unimem.ExistChunk
import Unimem.Stores

/-!
`Free` on a stored heap. A huge region goes back to the system, any other part
is released: marked free and coalesced with its free neighbours. The regions
that are not concerned stay as they are, and so do all bytes but descriptors.
-/

namespace Buddy

open Tiling Coalescing OrderedSets WordArith LinkedRow MetadataCache ByteMemory

theorem bind_modify {β : Type} {change : BuddyAllocator → BuddyAllocator} {rest : Unit → Prog β}
    {s : BuddyAllocator} : ((modify change : Prog Unit) >>= rest) s = rest () (change s) := rfl

theorem MemoryBlock.metadata_data {block : Nat} (fits : block + sizeofDesc < 2 ^ 64) :
    metadata (block + sizeofDesc) = block := by
  rw [metadata, sub64_of_le (Nat.le_add_left _ _) fits, Nat.add_sub_cancel]

variable [StdHash]

namespace Stores

variable {s : BuddyAllocator} {h : Heap} {left right : List Region} {region : Region}
  {below above : List Part} {part : Part}

omit [StdHash] in
theorem payload_lt (laid : region.Laid) (member : part ∈ region.parts) :
    part.start + sizeofDesc < 2 ^ 64 := by
  have stop := (laid.start_lt member).2.1
  have wide := laid.room part member
  unfold Part.stop at stop
  omega

/-- A free part that the pool lacks is merged with its neighbours and enters the pool. -/
theorem mergeAndDump_run {rest : Finset IndexSizeAddress} (threaded : Threaded s.cache region)
    (laid : region.Laid) (shape : region.parts = below ++ part :: above)
    (ordinary : region.huge = false) (free : part.live = false)
    (lower : Sparse Part.live below) (upper : Sparse Part.live above)
    (pool : s.pool = rest ∪ (freeEntries region.index (below ++ above)).toFinset)
    (absent : ∀ item ∈ rest, ¬ region.Within item.address) :
    ∃ c parts', mergeAndDump part.start s = .ok () { s with
        pool := rest ∪ (freeEntries region.index parts').toFinset
        cache := c } ∧
      coalesce Part.live Part.join (below ++ part :: above) = parts' ∧
      Threaded c { region with parts := parts' } ∧ Keeps region.Headers s.cache c ∧
      ∀ old ∈ region.parts, old.live = false → Absorbed c parts' old := by
  obtain ⟨c₁, part₁, above₁, ran₁, pushed, same, free₁, merged₁⟩ :=
    mergeRight_run threaded laid shape ordinary free pool absent
  have upper₁ : Sparse Part.live (part₁ :: above₁) := by
    rw [← pushed]
    exact sparse_push upper
  obtain ⟨c₂, below₂, part₂, ran₂, folded, free₂, merged₂⟩ := @mergeLeft_run _ { s with
    pool := rest ∪ (freeEntries region.index (below ++ above₁)).toFinset, cache := c₁ } _ _ _ _ _
    merged₁.threaded merged₁.laid rfl ordinary free₁ lower upper₁ rfl absent
  have whole : coalesce Part.live Part.join (below ++ part :: above) =
      below₂ ++ part₂ :: above₁ := by
    rw [coalesce_freed upper, pushed, folded]
  refine ⟨c₂, below₂ ++ part₂ :: above₁, ?_, whole, merged₂.threaded,
    merged₁.keeps.trans (merged₂.keeps.mono merged₁.headers), fun old member isFree =>
      (merged₁.absorbed old member isFree).trans (laid.room old member) merged₂ merged₁.laid⟩
  rw [same] at ran₂
  rw [mergeAndDump, bind_ok ran₁, bind_ok ran₂,
    bind_ok (@read_index _ { s with
      pool := rest ∪ (freeEntries region.index (below₂ ++ above₁)).toFinset, cache := c₂ } _ _ _ _
      merged₂.threaded rfl),
    bind_ok (@read_totalSize _ { s with
      pool := rest ∪ (freeEntries region.index (below₂ ++ above₁)).toFinset, cache := c₂ } _ _ _ _
      merged₂.threaded rfl)]
  have inserted := @insert_entry region.index below₂ above₁ part₂ rest free₂
  rw [← inserted]
  rfl

theorem release_run (stores : Stores s h)
    (place : h.Place left region right below part above) (live : part.live = true)
    (ordinary : region.huge = false) :
    ∃ c parts', free (part.start + sizeofDesc) s = .ok () { s with
        totalUsed := sub64 s.totalUsed part.total
        totalFree := add64 s.totalFree part.total
        pool := (h.release part.start).pool
        cache := c } ∧
      (h.release part.start).regions = left ++ { region with parts := parts' } :: right ∧
      Threaded c { region with parts := parts' } ∧ Keeps region.Headers s.cache c ∧
      ∀ old ∈ region.parts, old.live = false ∨ old.start = part.start →
        Absorbed c parts' old := by
  have laid := stores.wellFormed.toLaid.laid region place.mem_region
  have threaded := stores.threaded region place.mem_region
  have sparse := stores.wellFormed.sparse region place.mem_region
  rw [place.parts] at sparse
  obtain ⟨lower, upper⟩ := sparse_split sparse
  -- the block is marked free
  have kind := typeOf_live ordinary live
  have marks := MemoryBlock.markAsFree_eq (threaded.holds place.parts)
    ⟨by simp [Region.desc, kind], by simp [Region.desc, kind]⟩
  obtain ⟨c₁, ran₁, threaded₁, keeps₁⟩ := threaded.setType laid place.parts ordinary false
  rw [if_neg Bool.false_ne_true, ← marks] at ran₁
  have laid₁ : Region.Laid { region with parts := below ++ part.marked false :: above } := by
    have replaced := laid.replace [part.marked false]
      (show region.parts = below ++ [part] ++ above by simp [place.parts]) ordinary
      (fun low high tiles => tiles) (fun other member => by
        obtain rfl := List.mem_singleton.mp member
        exact laid.room part place.mem_part)
    simpa using replaced
  have pool : s.pool = poolOf (left ++ right) ∪
      (freeEntries region.index (below ++ above)).toFinset := by
    rw [stores.pool, Heap.pool, place.regions, poolOf_place, place.parts, freeEntries_live live]
  obtain ⟨c, parts', ran, whole, threaded', keeps, absorbed⟩ := @mergeAndDump_run _ { s with
    totalUsed := sub64 s.totalUsed part.total, totalFree := add64 s.totalFree part.total
    cache := c₁ } _ _ _ _ _ threaded₁ laid₁ rfl ordinary rfl lower upper pool
    fun item member => place.address_ne stores.wellFormed.toLaid member
  have regions := place.release_regions stores.wellFormed
  rw [whole] at regions
  have headers : ∀ x, Region.Headers { region with parts := below ++ part.marked false :: above } x →
      region.Headers x := by
    rintro x ⟨other, member, inside⟩
    simp only [List.mem_append, List.mem_cons] at member
    rcases member with inBelow | rfl | inAbove
    · exact ⟨other, by simp [place.parts, inBelow], inside⟩
    · exact ⟨part, place.mem_part, inside⟩
    · exact ⟨other, by simp [place.parts, inAbove], inside⟩
  refine ⟨c, parts', ?_, regions, threaded', keeps₁.trans (keeps.mono headers), ?_⟩
  · have notHuge : region.typeOf part ≠ .hugeChunk := by simp [kind]
    simp only [free, MemoryBlock.metadata_data (payload_lt laid place.mem_part)]
    have total : ∀ used, onCache (MemoryBlock.totalSize part.start)
        { s with totalUsed := used, cache := c₁ } =
          .ok part.total { s with totalUsed := used, cache := c₁ } := fun used =>
      @read_totalSize _ { s with totalUsed := used, cache := c₁ } _ _ _ (part.marked false)
        threaded₁ rfl
    rw [bind_ok (read_type threaded place.parts), if_neg notHuge, bind_onCache ran₁,
      bind_ok (total s.totalUsed), bind_modify, bind_ok (total (sub64 s.totalUsed part.total)),
      bind_modify, Heap.pool, regions, poolOf_place]
    exact ran
  · intro old member idle
    rw [place.parts, List.mem_append, List.mem_cons] at member
    by_cases same : old = part
    · subst same
      exact absorbed (old.marked false) (by simp) rfl
    · rcases idle with isFree | atPart
      · refine absorbed old ?_ isFree
        simp only [List.mem_append, List.mem_cons]
        tauto
      · have distinct := laid.start_ne place.parts
        rcases member with inBelow | rfl | inAbove
        · exact absurd atPart (distinct.1 old inBelow)
        · exact absurd rfl same
        · exact absurd atPart (distinct.2 old inAbove)

omit [StdHash] in
/-- Mapping or unmapping other bytes leaves a descriptor as it was shown. -/
theorem desc_remap {c : MetadataCache} {block base size : Nat} {mapped : Nat → Bool}
    (outside : ∀ x, Window block x → x < base ∨ base + size ≤ x) :
    MetadataCache.desc { c with mem := remap c.mem base size mapped } block = c.desc block := by
  have access : (remap c.mem base size mapped).accessible block sizeofDesc =
      c.mem.accessible block sizeofDesc := by
    rw [Bool.eq_iff_iff, Memory.accessible_iff, Memory.accessible_iff]
    refine forall_congr' fun x => imp_congr_right fun low => imp_congr_right fun high => ?_
    have elsewhere := outside x ⟨low, high⟩
    have notInside : ¬ (base ≤ x ∧ x < base + size) := by omega
    simp [remap, notInside]
  simp only [MetadataCache.desc, access]
  rfl

section Remapping

variable {c c' : MetadataCache} {other : Region} {base size : Nat}

omit [StdHash] in
theorem window_outside (laid : other.Laid) (apart : other.stop ≤ base ∨ base + size ≤ other.base)
    (member : part ∈ other.parts) : ∀ x, Window part.start x → x < base ∨ base + size ≤ x := by
  intro x atPart
  have bounds := laid.bounds member
  have least := laid.room part member
  unfold Part.stop at bounds
  unfold Window at atPart
  omega

/-- A region keeps its descriptors where memory elsewhere is mapped and a descriptor is changed. -/
theorem remap_region (gpu : Bool) (mapped : Nat → Bool) (threaded : Threaded c other)
    (reaches : c.Reaches other) (laid : other.Laid)
    (apart : other.stop ≤ base ∨ base + size ≤ other.base) (wide : sizeofDesc ≤ size)
    (keeps : Keeps (Window base)
      { c with mem := if gpu then c.mem else remap c.mem base size mapped } c') :
    Threaded c' other ∧ c'.Reaches other := by
  have outside := fun {part} member => @window_outside part other base size laid apart member
  constructor
  · have kept : Threaded
        { c with mem := if gpu then c.mem else remap c.mem base size mapped } other := by
      refine threaded.imp fun part inside _ _ held => ?_
      split
      · exact held
      · exact (desc_remap (outside inside)).trans held
    refine Threading.keep kept keeps fun part inside x atPart atBase => ?_
    have elsewhere := outside inside x atPart
    unfold Window at atBase
    omega
  · have kept : Reaches
        { c with mem := if gpu then c.mem else remap c.mem base size mapped } other := by
      refine reaches.imp_right fun still x within => ?_
      have notInside : ¬ (base ≤ x ∧ x < base + size) := by
        unfold Region.Within at within
        omega
      simp only
      split
      · exact still x within
      · simp only [remap, if_neg notInside]
        exact still x within
    exact kept.keep keeps

end Remapping

/-- A whole region goes back to the system; its descriptor is forgotten. -/
theorem handBack_run (stores : Stores s h) (regions : h.regions = left ++ region :: right) :
    ∃ c c', SystemAllocator.free region.base region.size region.index s = .ok () { s with
        systemAllocator := { s.systemAllocator with
          outstanding := (left ++ right).map Region.grant }
        cache := c } ∧
      invalidate region.base c = .ok () c' ∧ c'.usesGpu = s.cache.usesGpu ∧
      c'.mem.byte = s.cache.mem.byte ∧
      ∀ other ∈ left ++ right, Threaded c' other ∧ c'.Reaches other := by
  have laid := stores.wellFormed.toLaid
  have member : ⟨region.base, region.size, region.index⟩ ∈ s.systemAllocator.outstanding := by
    rw [stores.grants, regions]
    exact List.mem_map.mpr ⟨region, by simp, rfl⟩
  have rest : s.systemAllocator.outstanding.erase ⟨region.base, region.size, region.index⟩ =
      (left ++ right).map Region.grant := by
    rw [stores.grants]
    exact Heap.erase_grant laid regions
  obtain ⟨c', forgets, mem, keeps⟩ := invalidate_run { s.cache with
    mem := if s.systemAllocator.useGpu then s.cache.mem
      else remap s.cache.mem region.base region.size
        (s.systemAllocator.keeps s.systemAllocator.calls) } region.base
  refine ⟨_, c', ?_, forgets, keeps.usesGpu, ?_, fun other inOthers => ?_⟩
  · rw [SystemAllocator.free, bind_get, if_pos member, ← rest]
    rfl
  · rw [mem]
    split <;> rfl
  · have inHeap := Heap.mem_of_split regions inOthers
    exact remap_region _ _ (stores.threaded other inHeap) (stores.reaches other inHeap)
      (laid.laid other inHeap) (laid.region_apart regions inOthers)
      (laid.laid region (by simp [regions])).wide keeps

/-- A heap without one of its regions is stored once the pool has none of its parts. -/
theorem dismiss_stores {s' : BuddyAllocator} (stores : Stores s h)
    (regions : h.regions = left ++ region :: right)
    (max : s'.maxChunkSize = s.maxChunkSize)
    (kept : ∀ other ∈ left ++ right, Threaded s'.cache other ∧ s'.cache.Reaches other)
    (pool : s'.pool = poolOf (left ++ right))
    (grants : s'.systemAllocator.outstanding = (left ++ right).map Region.grant)
    (gpu : s'.cache.usesGpu = s'.systemAllocator.useGpu) :
    Stores s' (h.dismiss region.base) := by
  have regions' := Heap.dismiss_regions stores.wellFormed.toLaid regions
  refine ⟨?_, ?_, ?_, ?_, ?_, gpu⟩
  · rw [max]
    exact Heap.dismiss_wellFormed stores.wellFormed regions
  · rw [regions']
    exact fun other member => (kept other member).1
  · rw [regions']
    exact fun other member => (kept other member).2
  · rw [pool, Heap.pool, regions']
  · rw [grants, regions']

end Stores

end Buddy
