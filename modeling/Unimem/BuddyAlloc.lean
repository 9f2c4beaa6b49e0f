import Unimem.BuddyFree

/-!
`Alloc` on a stored heap, and the heap as a representation of the whole state.
A request is cut from the first entry of the pool that is large enough; where
there is none, the system is asked for a chunk. What the system answers is
taken to be fresh.
-/

namespace Buddy

open Tiling Coalescing OrderedSets WordArith LinkedRow MetadataCache ByteMemory

namespace Heap

/-- The bytes that clients hold. -/
def Payload (h : Heap) (x : Nat) : Prop :=
  ∃ part ∈ h.parts, part.live = true ∧ part.Payload x

def Owned (h : Heap) (x : Nat) : Prop := ∃ region ∈ h.regions, region.Within x

def fallbacks (h : Heap) : Nat :=
  (h.regions.filter fun region => !region.huge && region.index == 1).length

/-- The size that the system is asked for, where it is asked. -/
def request (max wanted : Nat) : Nat := if wanted > max then wanted else max

def Asks (h : Heap) (max wanted : Nat) : Prop := wanted > max ∨ fitting h.pool wanted = ∅

instance (h : Heap) (max wanted : Nat) : Decidable (h.Asks max wanted) :=
  inferInstanceAs (Decidable (_ ∨ _))

/-- Memory that overlaps no region, and ends before the address space does. -/
structure Fresh (h : Heap) (reply : Nat × Nat) (size : Nat) : Prop where
  stop : reply.1 + size < 2 ^ 64
  index : reply.2 < 2 ^ 64
  apart : ∀ region ∈ h.regions, reply.1 + size ≤ region.base ∨ region.stop ≤ reply.1

end Heap

variable [StdHash]

structure Represents (s : BuddyAllocator) (h : Heap) : Prop extends Stores s h where
  used : s.totalUsed = h.totalUsed
  idle : s.totalFree = h.totalFree
  fallbacks : s.fallbackAllocCount = if s.cache.usesGpu then h.fallbacks % 2 ^ 64 else 0

/-- What a call leaves alone. -/
structure Frame (s : BuddyAllocator) (h h' : Heap) (s' : BuddyAllocator) : Prop where
  min : s'.minChunkSize = s.minChunkSize
  max : s'.maxChunkSize = s.maxChunkSize
  gpu : s'.cache.usesGpu = s.cache.usesGpu
  answer : s'.systemAllocator.answer = s.systemAllocator.answer
  device : s.cache.usesGpu = true → s'.cache.mem.byte = s.cache.mem.byte
  bytes : ∀ x, h.Payload x ∨ ¬ h.Owned x ∧ ¬ h'.Owned x →
    s'.cache.mem.byte x = s.cache.mem.byte x

namespace Stores

variable {s : BuddyAllocator} {h : Heap} {request p index : Nat}

/-- The system hands out a region, whose descriptor is written. -/
theorem adopt_run (stores : Stores s h) (huge : Bool)
    (answered : s.systemAllocator.answer s.systemAllocator.calls request = some (p, index))
    (there : p ≠ 0) (fresh : h.Fresh (p, index) request) (wide : sizeofDesc ≤ request) :
    ∃ c₁ c, SystemAllocator.alloc request s = .ok (p, index) { s with
        systemAllocator := { s.systemAllocator with
          calls := s.systemAllocator.calls + 1
          outstanding := ⟨p, request, index⟩ :: s.systemAllocator.outstanding }
        cache := c₁ } ∧
      MemoryBlock.init p (if huge then .hugeChunk else .freeChunk) index request 0 0 c₁ =
        .ok () c ∧ c.usesGpu = s.cache.usesGpu ∧
      (s.cache.usesGpu = true → c.mem.byte = s.cache.mem.byte) ∧
      (∀ x, ¬ (p ≤ x ∧ x < p + request) → c.mem.byte x = s.cache.mem.byte x) ∧
      ∀ other ∈ (h.adopt (Region.fresh p request index huge)).regions,
        Threaded c other ∧ c.Reaches other := by
  obtain ⟨stop, indexFits, apart⟩ := fresh
  simp only at stop indexFits apart
  generalize mapped : ({ s.cache with
    mem := if s.systemAllocator.useGpu then s.cache.mem
      else remap s.cache.mem p request fun _ => true } :
    MetadataCache) = c₁
  have gpu : c₁.usesGpu = s.cache.usesGpu := by rw [← mapped]
  have bytes : c₁.mem.byte = s.cache.mem.byte := by
    rw [← mapped]
    simp only
    split <;> rfl
  have reaches : c₁.Reaches (Region.fresh p request index huge) := by
    by_cases device : s.cache.usesGpu = true
    · exact Or.inl (gpu.trans device)
    · refine Or.inr fun x within => ?_
      rw [← mapped]
      have host : s.systemAllocator.useGpu = false := by
        rw [← stores.gpu]
        simpa using device
      have inside : p ≤ x ∧ x < p + request := within
      simp [host, remap, inside]
  obtain ⟨c, ran, held, keeps⟩ := @MemoryBlock.init_run _ c₁ p
    (if huge then .hugeChunk else .freeChunk) index request
    (reaches.writable (Nat.le_refl p) (Nat.add_le_add_left wide p)) wide indexFits (by omega)
  refine ⟨c₁, c, ?_, ran, keeps.usesGpu.trans gpu, fun device => ?_, fun x outside => ?_, ?_⟩
  · rw [SystemAllocator.alloc, bind_get]
    simp only [answered, there, if_false]
    rw [← mapped]
    rfl
  · rw [keeps.device (gpu.trans device), bytes]
  · have elsewhere : ¬ Window p x := by
      unfold Window
      omega
    rw [keeps.agrees.byte x elsewhere, bytes]
  · intro other member
    rcases List.mem_cons.mp member with rfl | old
    · refine ⟨⟨?_, trivial⟩, reaches.keep keeps⟩
      have kind : (Region.fresh p request index huge).typeOf ⟨p, request, huge⟩ =
          if huge then .hugeChunk else .freeChunk := by
        cases huge <;> rfl
      change c.Holds p (Desc.new ((Region.fresh p request index huge).typeOf _) _ _ _ _ _)
      rw [kind]
      exact held
    · rw [← mapped] at keeps
      exact remap_region _ _ (stores.threaded other old) (stores.reaches other old)
        (stores.wellFormed.laid other old) (Or.symm (apart other old)) wide keeps

theorem countFallback_run {region : Region} (threaded : Threaded s.cache region)
    (shape : region.parts = [⟨p, request, false⟩]) :
    countFallback p s = .ok () { s with
      fallbackAllocCount := if s.systemAllocator.useGpu && region.index == 1
        then add64 s.fallbackAllocCount 1 else s.fallbackAllocCount } := by
  rw [countFallback, bind_get]
  cases s.systemAllocator.useGpu with
  | false => rfl
  | true =>
      have read := @read_index _ s region [] [] ⟨p, request, false⟩ threaded shape
      rw [if_pos rfl, bind_ok read]
      by_cases one : region.index = 1
      · rw [if_pos one, Bool.true_and, if_pos (by simpa using one)]
        rfl
      · rw [if_neg one, Bool.true_and, if_neg (by simpa using one)]
        rfl

end Stores

omit [StdHash] in
theorem MemoryBlock.data_eq {block size : Nat} (wide : sizeofDesc ≤ size)
    (stop : block + size < 2 ^ 64) : data block = block + sizeofDesc :=
  add64_of_lt (by omega)

namespace Heap

variable {h : Heap} {max wanted : Nat} {reply : Nat × Nat}

omit [StdHash] in
theorem Fresh.laid {huge : Bool} (fresh : h.Fresh reply wanted) (there : reply.1 ≠ 0)
    (wide : sizeofDesc ≤ wanted) : (Region.fresh reply.1 wanted reply.2 huge).Laid :=
  Region.Laid.fresh (Nat.pos_of_ne_zero there) fresh.stop fresh.index wide

omit [StdHash] in
theorem Fresh.adopt_wellFormed {huge : Bool} (fresh : h.Fresh reply wanted)
    (wellFormed : h.WellFormed max) (there : reply.1 ≠ 0) (wide : sizeofDesc ≤ wanted)
    (sized : if huge then max < wanted else wanted = max) :
    (h.adopt (Region.fresh reply.1 wanted reply.2 huge)).WellFormed max :=
  Heap.adopt_wellFormed wellFormed (fresh.laid there wide) (fun _ _ pair => pair.elim) sized
    fresh.apart

omit [StdHash] in
theorem pool_adopt {base size index : Nat} {huge : Bool} :
    (h.adopt (Region.fresh base size index huge)).pool =
      if huge then h.pool else insert ⟨index, size, base⟩ h.pool := by
  cases huge <;> simp [pool, poolOf, adopt, Region.entries, freeEntries, Region.fresh, Part.entry]

omit [StdHash] in
theorem fallbacks_adopt {base size index : Nat} {huge : Bool} :
    (h.adopt (Region.fresh base size index huge)).fallbacks =
      if !huge && index == 1 then h.fallbacks + 1 else h.fallbacks := by
  unfold fallbacks adopt
  rw [List.filter_cons]
  change (if (!huge && index == 1) = true then _ else _ : List Region).length = _
  split <;> rfl

omit [StdHash] in
theorem fallbacks_onParts {change : List Part → List Part} {used idle : Nat} :
    fallbacks ⟨h.onParts change, used, idle⟩ = h.fallbacks := by
  simp only [fallbacks, onParts, List.filter_map, List.length_map, Function.comp_def]

omit [StdHash] in
theorem fallbacks_carve {start : Nat} : (h.carve start wanted).fallbacks = h.fallbacks :=
  fallbacks_onParts

omit [StdHash] in
theorem fallbacks_dismiss {left right : List Region} {region : Region} (laid : h.Laid)
    (regions : h.regions = left ++ region :: right) : h.fallbacks =
      (h.dismiss region.base).fallbacks + if !region.huge && region.index == 1 then 1 else 0 := by
  unfold fallbacks
  rw [dismiss_regions laid regions, regions, List.filter_append, List.filter_append,
    List.filter_cons]
  split
  · simp only [List.length_append, List.length_cons]
    omega
  · simp only [List.length_append, Nat.add_zero]

omit [StdHash] in
theorem owned_onParts {change : List Part → List Part} {used idle x : Nat} :
    Owned ⟨h.onParts change, used, idle⟩ x ↔ h.Owned x := by
  simp only [Owned, onParts, List.mem_map]
  constructor
  · rintro ⟨_, ⟨region, inHeap, rfl⟩, within⟩
    exact ⟨region, inHeap, within⟩
  · rintro ⟨region, inHeap, within⟩
    exact ⟨_, ⟨region, inHeap, rfl⟩, within⟩

omit [StdHash] in
theorem payload_adopt {region : Region} {x : Nat} (payload : h.Payload x) :
    (h.adopt region).Payload x := by
  obtain ⟨part, member, live, inside⟩ := payload
  exact ⟨part, List.mem_append_right _ member, live, inside⟩

omit [StdHash] in
/-- The bytes that clients hold are neither in a descriptor nor in a free part. -/
theorem payload_spared {region : Region} {part : Part} (laid : h.Laid)
    (inHeap : region ∈ h.regions) (inside : part ∈ region.parts) {x : Nat}
    (payload : h.Payload x) : ¬ Stores.Writes region part x := by
  obtain ⟨live, member, inUse, low, high⟩ := payload
  have apart := fun {other} (inside : other ∈ region.parts) =>
    laid.parts_apart member (mem_parts.mpr ⟨region, inHeap, inside⟩)
  unfold Part.Separate at apart
  rintro (⟨other, inRegion, atOther⟩ | ⟨free, lower, upper⟩)
  · have wide := (laid.laid region inHeap).room other inRegion
    unfold Window at atOther
    rcases apart inRegion with rfl | separate
    · omega
    · unfold Part.stop at separate high
      omega
  · rcases apart inside with rfl | separate
    · rw [inUse] at free
      cases free
    · omega

omit [StdHash] in
theorem payload_owned (laid : h.Laid) {x : Nat} (payload : h.Payload x) : h.Owned x := by
  obtain ⟨part, member, -, low, high⟩ := payload
  obtain ⟨region, inHeap, inside⟩ := mem_parts.mp member
  have bounds := (laid.laid region inHeap).bounds inside
  exact ⟨region, inHeap, by omega, by omega⟩

omit [StdHash] in
/-- Bytes of the regions there are do not lie in a fresh one. -/
theorem Fresh.not_owned (fresh : h.Fresh reply wanted) {x : Nat} (owned : h.Owned x) :
    ¬ (reply.1 ≤ x ∧ x < reply.1 + wanted) := by
  obtain ⟨region, inHeap, low, high⟩ := owned
  have apart := fresh.apart region inHeap
  omega

end Heap

namespace Represents

variable {s : BuddyAllocator} {h : Heap} {wanted : Nat} {reply : Nat × Nat}

/-- The system has no memory: only its calls are counted. -/
theorem refused (represents : Represents s h) (calls : Nat) :
    Represents { s with systemAllocator := { s.systemAllocator with calls := calls } } h ∧
      Frame s h h { s with systemAllocator := { s.systemAllocator with calls := calls } } :=
  ⟨⟨⟨represents.wellFormed, represents.threaded, represents.reaches, represents.pool,
      represents.grants, represents.gpu⟩, represents.used, represents.idle,
      represents.fallbacks⟩, rfl, rfl, rfl, rfl, fun _ => rfl, fun _ _ => rfl⟩

omit [StdHash] in
theorem alloc_null (null : reply.1 = 0)
    (answered : s.systemAllocator.answer s.systemAllocator.calls wanted = some reply) :
    SystemAllocator.alloc wanted s = .ok reply { s with
      systemAllocator := { s.systemAllocator with calls := s.systemAllocator.calls + 1 } } := by
  obtain ⟨p, index⟩ := reply
  simp only at null
  subst null
  rw [SystemAllocator.alloc, bind_get]
  simp only [answered, if_true]
  rfl

theorem systemAlloc_run (represents : Represents s h) (wide : sizeofDesc ≤ wanted)
    (larger : s.maxChunkSize < wanted)
    (answered : s.systemAllocator.answer s.systemAllocator.calls wanted = some reply)
    (fresh : reply.1 ≠ 0 → h.Fresh reply wanted) :
    ∃ s', systemAlloc wanted s = .ok (h.alloc s.maxChunkSize wanted reply).1 s' ∧
      Represents s' (h.alloc s.maxChunkSize wanted reply).2 ∧
      Frame s h (h.alloc s.maxChunkSize wanted reply).2 s' ∧
      s'.systemAllocator.calls = s.systemAllocator.calls + 1 := by
  rw [Heap.alloc, if_pos larger]
  by_cases null : reply.1 = 0
  · rw [if_pos null]
    obtain ⟨represents', frame⟩ := represents.refused (s.systemAllocator.calls + 1)
    refine ⟨_, ?_, represents', frame, rfl⟩
    rw [systemAlloc, bind_ok (alloc_null null answered)]
    simp only [null, if_true]
    rfl
  · rw [if_neg null]
    have isFresh := fresh null
    obtain ⟨c₁, c, ran, init, gpu, device, bytes, kept⟩ := @Stores.adopt_run _ s h wanted reply.1
      reply.2 represents.toStores true answered null isFresh wide
    refine ⟨{ s with
      systemAllocator := { s.systemAllocator with
        calls := s.systemAllocator.calls + 1
        outstanding := ⟨reply.1, wanted, reply.2⟩ :: s.systemAllocator.outstanding }
      cache := c }, ?_, ⟨⟨?_, fun other member => (kept other member).1,
        fun other member => (kept other member).2, ?_, ?_, ?_⟩, represents.used, represents.idle,
        ?_⟩, ⟨rfl, rfl, gpu, rfl, device, ?_⟩, rfl⟩
    · rw [systemAlloc, bind_ok ran]
      simp only [null, if_false]
      rw [bind_onCache init, ← MemoryBlock.data_eq wide isFresh.stop]
      rfl
    · exact isFresh.adopt_wellFormed represents.wellFormed null wide (by simpa using larger)
    · rw [Heap.pool_adopt]
      exact represents.pool
    · change _ :: s.systemAllocator.outstanding = _ :: h.regions.map Region.grant
      rw [represents.grants]
      rfl
    · exact gpu.trans represents.gpu
    · rw [gpu, Heap.fallbacks_adopt]
      exact represents.fallbacks
    · rintro x (payload | ⟨-, notOwned⟩)
      · exact bytes x (isFresh.not_owned
          (Heap.payload_owned represents.wellFormed.toLaid payload))
      · exact bytes x fun inside => notOwned ⟨_, List.mem_cons_self, inside⟩

/-- A chunk from the system enters the pool. -/
theorem refillPool_run (represents : Represents s h) (wide : sizeofDesc ≤ s.maxChunkSize)
    (answered : s.systemAllocator.answer s.systemAllocator.calls s.maxChunkSize = some reply)
    (there : reply.1 ≠ 0) (fresh : h.Fresh reply s.maxChunkSize) :
    ∃ s', refillPool s = .ok (some ⟨reply.2, s.maxChunkSize, reply.1⟩) s' ∧
      Represents s' (h.refill reply s.maxChunkSize) ∧
      Frame s h (h.refill reply s.maxChunkSize) s' ∧
      s'.systemAllocator.calls = s.systemAllocator.calls + 1 := by
  obtain ⟨c₁, c, ran, init, gpu, device, bytes, kept⟩ := @Stores.adopt_run _ s h s.maxChunkSize
    reply.1 reply.2 represents.toStores false answered there fresh wide
  have threaded := (kept _ List.mem_cons_self).1
  have counted := @Stores.countFallback_run _ { s with
      systemAllocator := { s.systemAllocator with
        calls := s.systemAllocator.calls + 1
        outstanding := ⟨reply.1, s.maxChunkSize, reply.2⟩ :: s.systemAllocator.outstanding }
      cache := c } s.maxChunkSize reply.1 _ threaded rfl
  refine ⟨{ s with
    totalFree := add64 s.totalFree s.maxChunkSize
    pool := insert ⟨reply.2, s.maxChunkSize, reply.1⟩ s.pool
    fallbackAllocCount := if s.systemAllocator.useGpu && reply.2 == 1
        then add64 s.fallbackAllocCount 1 else s.fallbackAllocCount
    systemAllocator := { s.systemAllocator with
      calls := s.systemAllocator.calls + 1
      outstanding := ⟨reply.1, s.maxChunkSize, reply.2⟩ :: s.systemAllocator.outstanding }
    cache := c }, ?_, ⟨⟨?_, fun other member => (kept other member).1,
      fun other member => (kept other member).2, ?_, ?_, ?_⟩, represents.used, ?_,
      ?_⟩, ⟨rfl, rfl, gpu, rfl, device, ?_⟩, rfl⟩
  · rw [refillPool, bind_get, bind_ok ran]
    simp only [there, if_false]
    rw [bind_onCache init, bind_ok counted]
    rfl
  · exact (fresh.adopt_wellFormed represents.wellFormed there wide (by simp)).of_regions rfl
  · change insert _ s.pool = (h.adopt _).pool
    rw [Heap.pool_adopt, represents.pool]
    rfl
  · change _ :: s.systemAllocator.outstanding = _ :: h.regions.map Region.grant
    rw [represents.grants]
    rfl
  · exact gpu.trans represents.gpu
  · change add64 s.totalFree _ = add64 h.totalFree _
    rw [represents.idle]
  · change (if (s.systemAllocator.useGpu && reply.2 == 1) = true then
        add64 s.fallbackAllocCount 1 else s.fallbackAllocCount) =
      if c.usesGpu = true then (h.adopt _).fallbacks % 2 ^ 64 else 0
    rw [gpu, Heap.fallbacks_adopt, represents.fallbacks, represents.gpu]
    cases s.systemAllocator.useGpu with
    | false => rfl
    | true =>
        rw [Bool.true_and, Bool.not_false, Bool.true_and, if_pos rfl, if_pos rfl]
        unfold add64
        split <;> omega
  · rintro x (payload | ⟨-, notOwned⟩)
    · exact bytes x (fresh.not_owned
        (Heap.payload_owned represents.wellFormed.toLaid payload))
    · exact bytes x fun inside => notOwned ⟨_, List.mem_cons_self, inside⟩

theorem alloc_refused (represents : Represents s h) (null : reply.1 = 0)
    (answered : s.systemAllocator.answer s.systemAllocator.calls s.maxChunkSize = some reply) :
    ∃ s', refillPool s = .ok none s' ∧ Represents s' h ∧ Frame s h h s' ∧
      s'.systemAllocator.calls = s.systemAllocator.calls + 1 := by
  obtain ⟨represents', frame⟩ := represents.refused (s.systemAllocator.calls + 1)
  refine ⟨_, ?_, represents', frame, rfl⟩
  rw [refillPool, bind_get, bind_ok (alloc_null null answered)]
  simp only [null, if_true]
  rfl

/-- A request is served from a free part of the pool. -/
theorem serve_run {left right : List Region} {region : Region} {below above : List Part}
    {part : Part} (represents : Represents s h)
    (place : h.Place left region right below part above) (free : part.live = false)
    (least : sizeofDesc ≤ wanted) (covers : wanted ≤ part.total) :
    ∃ s', serve (part.entry region.index) wanted s = .ok (part.start + sizeofDesc) s' ∧
      Represents s' (h.carve part.start wanted) ∧
      Frame s h (h.carve part.start wanted) s' ∧ s'.systemAllocator = s.systemAllocator := by
  have stores : Stores { s with
      totalUsed := add64 s.totalUsed wanted, totalFree := sub64 s.totalFree wanted } h :=
    ⟨represents.wellFormed, represents.threaded, represents.reaches, represents.pool,
      represents.grants, represents.gpu⟩
  have laid := represents.wellFormed.toLaid
  have regions : (h.carve part.start wanted).regions = _ := place.carve_regions laid
  obtain ⟨c, ran, threaded, keeps⟩ := stores.splitToAlloc_run place free least covers
  have within := Stores.writes_within (laid.laid region place.mem_region) place.mem_part
  obtain ⟨threaded', reaches', grants'⟩ := stores.exchange place keeps within threaded rfl regions
  have started : MemoryBlock.data part.start = part.start + sizeofDesc :=
    add64_of_lt (Stores.payload_lt (laid.laid region place.mem_region) place.mem_part)
  refine ⟨{ s with
    totalUsed := add64 s.totalUsed wanted
    totalFree := sub64 s.totalFree wanted
    pool := (h.carve part.start wanted).pool
    cache := c }, ?_, ⟨⟨place.carve_wellFormed represents.wellFormed free least covers, threaded',
    reaches', rfl, ?_, ?_⟩, ?_, ?_, ?_⟩, ⟨rfl, rfl, keeps.usesGpu, rfl, fun device => ?_,
    fun x spared => ?_⟩, rfl⟩
  · rw [serve, bind_modify, bind_ok ran, started]
    rfl
  · exact represents.grants.trans grants'.symm
  · exact keeps.usesGpu.trans represents.gpu
  · change add64 s.totalUsed wanted = add64 h.totalUsed wanted
    rw [represents.used]
  · change sub64 s.totalFree wanted = sub64 h.totalFree wanted
    rw [represents.idle]
  · change s.fallbackAllocCount = if c.usesGpu = true then _ else 0
    rw [keeps.usesGpu, Heap.fallbacks_carve]
    exact represents.fallbacks
  · exact congrArg _ (keeps.device device)
  · refine keeps.agrees.byte x fun written => ?_
    rcases spared with payload | ⟨notOwned, -⟩
    · exact Heap.payload_spared laid place.mem_region place.mem_part payload written
    · exact notOwned ⟨region, place.mem_region, within x written⟩

end Represents

end Buddy
