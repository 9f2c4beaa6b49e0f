import Unimem.BuddyAlloc

/-!
The calls of the buddy allocator as functions of the heap: from a state that
represents a heap, `Alloc` and `Free` return what the heap says and leave a
state that represents the changed heap.
-/

namespace Buddy

open Tiling Coalescing OrderedSets WordArith LinkedRow MetadataCache ByteMemory

/-- What the system answers, should the call ask. -/
def BuddyAllocator.reply (s : BuddyAllocator) (wanted : Nat) : Nat × Nat :=
  (s.systemAllocator.answer s.systemAllocator.calls
    (Heap.request s.maxChunkSize wanted)).getD (0, 0)

/-- A call that asks the system gets an answer, and one that overlaps nothing. -/
def BuddyAllocator.Honest (s : BuddyAllocator) (h : Heap) (wanted : Nat) : Prop :=
  h.Asks s.maxChunkSize wanted → ∃ reply,
    s.systemAllocator.answer s.systemAllocator.calls (Heap.request s.maxChunkSize wanted) =
      some reply ∧ (reply.1 ≠ 0 → h.Fresh reply (Heap.request s.maxChunkSize wanted))

variable [StdHash]

variable {s s₁ s' : BuddyAllocator} {h h₁ h' : Heap} {n wanted : Nat}

omit [StdHash] in
theorem Frame.trans (first : Frame s h h₁ s₁) (second : Frame s₁ h₁ h' s')
    (payload : ∀ x, h.Payload x → h₁.Payload x) (owned : ∀ x, h₁.Owned x → h'.Owned x) :
    Frame s h h' s' where
  min := second.min.trans first.min
  max := second.max.trans first.max
  gpu := second.gpu.trans first.gpu
  answer := second.answer.trans first.answer
  device := fun gpu => (second.device (first.gpu.trans gpu)).trans (first.device gpu)
  bytes := fun x spared => by
    have notOwned : ¬ h'.Owned x → ¬ h₁.Owned x := fun outside inside => outside (owned x inside)
    rw [second.bytes x (by have := payload x; tauto), first.bytes x (by tauto)]

/-- `Alloc` behind the rounding of the size. -/
theorem alloc_enters (positive : s.minChunkSize ≠ 0)
    (rounded : align (add64 n sizeofDesc) s.minChunkSize = wanted) :
    alloc n s = (if wanted > s.maxChunkSize then systemAlloc wanted else do
      match ← findExistChunk wanted with
      | some it => serve it wanted
      | none =>
          match ← refillPool with
          | none => return 0
          | some it => serve it wanted) s := by
  subst rounded
  exact congrFun (if_neg positive) s

namespace Represents

/-- An entry of the pool is a free part. -/
theorem exists_part (represents : Represents s h) {item : IndexSizeAddress}
    (member : item ∈ s.pool) : ∃ left region right below part above,
      h.Place left region right below part above ∧ part.live = false ∧
        part.entry region.index = item := by
  rw [represents.pool] at member
  obtain ⟨region, inHeap, part, inside, free, entry⟩ := mem_poolOf.mp member
  obtain ⟨left, right, below, above, place⟩ := Heap.exists_place inHeap inside
  exact ⟨left, region, right, below, part, above, place, free, entry⟩

theorem alloc_run (represents : Represents s h) (positive : s.minChunkSize ≠ 0)
    (rounded : align (add64 n sizeofDesc) s.minChunkSize = wanted) (least : sizeofDesc ≤ wanted)
    (honest : s.Honest h wanted) :
    ∃ s', alloc n s = .ok (h.alloc s.maxChunkSize wanted (s.reply wanted)).1 s' ∧
      Represents s' (h.alloc s.maxChunkSize wanted (s.reply wanted)).2 ∧
      Frame s h (h.alloc s.maxChunkSize wanted (s.reply wanted)).2 s' ∧
      (h.Asks s.maxChunkSize wanted →
        s'.systemAllocator.calls = s.systemAllocator.calls + 1) ∧
      (¬ h.Asks s.maxChunkSize wanted → s'.systemAllocator = s.systemAllocator) := by
  rw [alloc_enters positive rounded]
  by_cases huge : wanted > s.maxChunkSize
  · -- a huge request goes to the system
    obtain ⟨reply, answered, fresh⟩ := honest (Or.inl huge)
    have replied : s.reply wanted = reply := by rw [BuddyAllocator.reply, answered]; rfl
    rw [Heap.request, if_pos huge] at answered fresh
    rw [if_pos huge, replied]
    obtain ⟨s', ran, represents', frame, calls⟩ :=
      represents.systemAlloc_run least huge answered fresh
    exact ⟨s', ran, represents', frame, fun _ => calls, fun other =>
      absurd (Or.inl huge) other⟩
  · rw [if_neg huge, bind_ok (findExistChunk_run s wanted)]
    have pool : fitting h.pool wanted = fitting s.pool wanted := by rw [represents.pool]
    have fits : h.fit wanted = first (fitting s.pool wanted) := by rw [← pool]; rfl
    rw [Heap.alloc, if_neg huge, fits]
    cases found : first (fitting s.pool wanted) with
    | some item =>
        -- the request is cut from a part of the pool
        obtain ⟨member, covers⟩ := mem_fitting.mp (first_eq_some.mp found).1
        obtain ⟨left, region, right, below, part, above, place, free, entry⟩ :=
          represents.exists_part member
        subst entry
        obtain ⟨s', ran, represents', frame, system⟩ :=
          represents.serve_run place free least covers
        refine ⟨s', ran, represents', frame, fun asks => ?_, fun _ => system⟩
        rcases asks with larger | empty
        · exact absurd larger huge
        · rw [pool] at empty
          rw [first_eq_none.mpr empty] at found
          cases found
    | none =>
        have empty : fitting h.pool wanted = ∅ := by rw [pool, first_eq_none.mp found]
        obtain ⟨reply, answered, fresh⟩ := honest (Or.inr empty)
        have replied : s.reply wanted = reply := by rw [BuddyAllocator.reply, answered]; rfl
        rw [Heap.request, if_neg huge] at answered fresh
        rw [replied]
        have wide : sizeofDesc ≤ s.maxChunkSize := by omega
        by_cases null : reply.1 = 0
        · obtain ⟨s', ran, represents', frame, calls⟩ :=
            represents.alloc_refused null answered
          refine ⟨s', ?_, by rwa [if_pos null], by rwa [if_pos null], fun _ => calls,
            fun other => absurd (Or.inr empty) other⟩
          simp only [null, if_true]
          rw [bind_ok ran]
          rfl
        · obtain ⟨s₁, ran, represents₁, frame₁, calls⟩ :=
            represents.refillPool_run wide answered null (fresh null)
          have place : (h.refill reply s.maxChunkSize).Place []
              (Region.fresh reply.1 s.maxChunkSize reply.2 false) h.regions []
              ⟨reply.1, s.maxChunkSize, false⟩ [] := ⟨rfl, rfl⟩
          obtain ⟨s', ran', represents', frame, system⟩ :=
            represents₁.serve_run place rfl least (Nat.le_of_not_lt huge)
          rw [if_neg null]
          refine ⟨s', ?_, represents', frame₁.trans frame ?_ ?_, fun _ => ?_,
            fun other => absurd (Or.inr empty) other⟩
          · simp only
            rw [bind_ok ran]
            exact ran'
          · exact fun x payload => Heap.payload_adopt payload
          · exact fun x => Heap.owned_onParts.mpr
          · rw [system, calls]

section Freeing

variable {left right : List Region} {region : Region} {below above : List Part} {part : Part}

/-- A live part of a chunk of the pool is released. -/
theorem free_ordinary (represents : Represents s h)
    (place : h.Place left region right below part above) (live : part.live = true)
    (ordinary : region.huge = false) :
    ∃ s', free (part.start + sizeofDesc) s = .ok () s' ∧
      Represents s' (h.release part.start) ∧ Frame s h (h.release part.start) s' ∧
      s'.systemAllocator.calls = s.systemAllocator.calls := by
  have laid := represents.wellFormed.toLaid
  have hereLaid := laid.laid region place.mem_region
  obtain ⟨c, parts', ran, regions, threaded, keeps, -⟩ :=
    represents.toStores.release_run place live ordinary
  have total := laid.totalAt (Heap.mem_parts.mpr ⟨region, place.mem_region, place.mem_part⟩)
  have within : ∀ x, region.Headers x → region.Within x := fun x header =>
    Stores.writes_within hereLaid place.mem_part x (Or.inl header)
  obtain ⟨threaded', reaches', grants'⟩ :=
    represents.toStores.exchange place keeps within threaded rfl regions
  refine ⟨{ s with
    totalUsed := sub64 s.totalUsed part.total
    totalFree := add64 s.totalFree part.total
    pool := (h.release part.start).pool
    cache := c }, ran, ⟨⟨place.release_wellFormed represents.wellFormed ordinary, threaded',
    reaches', rfl, represents.grants.trans grants'.symm,
    keeps.usesGpu.trans represents.gpu⟩, ?_, ?_, ?_⟩, ⟨rfl, rfl, keeps.usesGpu, rfl,
    fun device => congrArg _ (keeps.device device), fun x spared => ?_⟩, rfl⟩
  · change sub64 s.totalUsed part.total = sub64 h.totalUsed (h.totalAt part.start)
    rw [represents.used, total]
  · change add64 s.totalFree part.total = add64 h.totalFree (h.totalAt part.start)
    rw [represents.idle, total]
  · change s.fallbackAllocCount = if c.usesGpu = true then _ else 0
    rw [keeps.usesGpu]
    exact represents.fallbacks.trans (by rw [Heap.release, Heap.fallbacks_onParts])
  · refine keeps.agrees.byte x fun header => ?_
    rcases spared with payload | ⟨notOwned, -⟩
    · exact Heap.payload_spared laid place.mem_region place.mem_part payload (Or.inl header)
    · exact notOwned ⟨region, place.mem_region, within x header⟩

/-- A huge chunk goes back to the system. -/
theorem free_huge (represents : Represents s h) (regions : h.regions = left ++ region :: right)
    (huge : region.huge = true) :
    ∃ s', free (region.base + sizeofDesc) s = .ok () s' ∧
      Represents s' (h.dismiss region.base) ∧ Frame s h (h.dismiss region.base) s' ∧
      s'.systemAllocator.calls = s.systemAllocator.calls := by
  have laid := represents.wellFormed.toLaid
  have inHeap : region ∈ h.regions := by simp [regions]
  have whole := (laid.laid region inHeap).whole huge
  have inside : ⟨region.base, region.size, true⟩ ∈ region.parts := by simp [whole]
  have threaded := represents.threaded region inHeap
  obtain ⟨c, c', ran, forgets, gpu, bytes, kept⟩ := represents.toStores.handBack_run regions
  refine ⟨{ s with
    systemAllocator := { s.systemAllocator with
      outstanding := (left ++ right).map Region.grant }
    cache := c' }, ?_, ⟨represents.toStores.dismiss_stores regions rfl kept ?_ rfl
      (gpu.trans represents.gpu), represents.used, represents.idle, ?_⟩,
    ⟨rfl, rfl, gpu, rfl, fun _ => bytes, fun x _ => congrFun bytes x⟩, rfl⟩
  · have kind : region.typeOf ⟨region.base, region.size, true⟩ = .hugeChunk := by
      simp [Region.typeOf, huge]
    have read := @Stores.read_type _ s region [] [] _ threaded whole
    have total := @Stores.read_totalSize _ s region [] [] _ threaded whole
    have index := @Stores.read_index _ s region [] [] _ threaded whole
    simp only [free, MemoryBlock.metadata_data
      (Stores.payload_lt (laid.laid region inHeap) inside)]
    rw [bind_ok read, if_pos kind, bind_ok total, bind_ok index, bind_ok ran]
    exact onCache_ok forgets
  · change s.pool = poolOf (left ++ right)
    rw [represents.pool, Heap.pool, regions, poolOf_place, whole]
    simp [freeEntries]
  · change s.fallbackAllocCount = if c'.usesGpu = true then _ else 0
    have count := Heap.fallbacks_dismiss laid regions
    rw [huge] at count
    rw [gpu, represents.fallbacks, count]
    rfl

/-- A live part is freed by the address of its payload. -/
theorem free_run (represents : Represents s h) (member : part ∈ h.parts)
    (live : part.live = true) :
    ∃ s', free (part.start + sizeofDesc) s = .ok () s' ∧
      Represents s' (h.free (part.start + sizeofDesc)) ∧
      Frame s h (h.free (part.start + sizeofDesc)) s' ∧
      s'.systemAllocator.calls = s.systemAllocator.calls := by
  obtain ⟨region, inHeap, inside⟩ := Heap.mem_parts.mp member
  obtain ⟨left, right, below, above, place⟩ := Heap.exists_place inHeap inside
  have laid := represents.wellFormed.toLaid
  rw [Heap.free, Nat.add_sub_cancel, place.isHuge laid]
  cases ordinary : region.huge with
  | false =>
      rw [if_neg Bool.false_ne_true]
      exact represents.free_ordinary place live ordinary
  | true =>
      rw [(laid.laid region inHeap).whole ordinary] at inside
      rw [if_pos rfl, List.mem_singleton.mp inside]
      exact represents.free_huge place.regions ordinary

end Freeing

end Represents

end Buddy
