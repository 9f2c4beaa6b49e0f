import Unimem.BuddyEnd

/-!
Idle chunks given back before the end. Both loops take entries from the end of
the pool as long as these are whole chunks. `Free` does not call them here: its
calls are commented out.
-/

namespace Buddy

open Tiling OrderedSets WordArith MetadataCache

/-- Chunks from the end of the pool are back at the system, and nothing else happened. -/
structure Cleaned (s s' : BuddyAllocator) : Prop where
  max : s'.maxChunkSize = s.maxChunkSize
  pool : s'.pool ⊆ s.pool
  whole : ∀ item ∈ s.pool \ s'.pool, item.size = s.maxChunkSize ∧ ∀ kept ∈ s'.pool, kept < item
  outstanding : s'.systemAllocator.outstanding = s.systemAllocator.outstanding.filter
    fun grant => ∀ item ∈ s.pool \ s'.pool, item.address ≠ grant.address
  used : s'.totalUsed = s.totalUsed
  free : (s'.totalFree + (s.pool \ s'.pool).card * s.maxChunkSize) % 2 ^ 64 = s.totalFree % 2 ^ 64
  bytes : s'.cache.mem.byte = s.cache.mem.byte
  idle : s'.pool = s.pool → s' = s

namespace Cleaned

variable {s s₁ s' : BuddyAllocator}

theorem refl : Cleaned s s :=
  ⟨rfl, Finset.Subset.refl _, by simp, by simp, rfl, by simp, rfl, fun _ => rfl⟩

theorem trans (cleaned : Cleaned s s₁) (later : Cleaned s₁ s') : Cleaned s s' := by
  have split : s.pool \ s'.pool = (s.pool \ s₁.pool) ∪ (s₁.pool \ s'.pool) := by
    ext item
    have inside := @cleaned.pool item
    have inside' := @later.pool item
    simp only [Finset.mem_union, Finset.mem_sdiff]
    tauto
  refine ⟨later.max.trans cleaned.max, later.pool.trans cleaned.pool, fun item gone => ?_, ?_,
    later.used.trans cleaned.used, ?_, later.bytes.trans cleaned.bytes, fun same => ?_⟩
  · rw [split, Finset.mem_union] at gone
    rcases gone with before | after
    · obtain ⟨size, above⟩ := cleaned.whole item before
      exact ⟨size, fun kept member => above kept (later.pool member)⟩
    · rw [← cleaned.max]
      exact later.whole item after
  · rw [later.outstanding, cleaned.outstanding, List.filter_filter, split]
    refine List.filter_congr fun grant _ => ?_
    rw [Bool.eq_iff_iff, Bool.and_eq_true, decide_eq_true_iff, decide_eq_true_iff,
      decide_eq_true_iff]
    simp only [Finset.mem_union]
    exact ⟨fun both item gone => gone.elim (both.2 item) (both.1 item),
      fun all => ⟨fun item gone => all item (Or.inr gone), fun item gone => all item (Or.inl gone)⟩⟩
  · have disjoint : Disjoint (s.pool \ s₁.pool) (s₁.pool \ s'.pool) :=
      Finset.disjoint_left.mpr fun item before after =>
        (Finset.mem_sdiff.mp before).2 (Finset.mem_sdiff.mp after).1
    have first := cleaned.free
    have second := later.free
    rw [cleaned.max] at second
    rw [split, Finset.card_union_of_disjoint disjoint, Nat.add_mul]
    omega
  · have first := Finset.Subset.antisymm cleaned.pool (same ▸ later.pool)
    rw [later.idle (same.trans first.symm), cleaned.idle first]

end Cleaned

namespace Stores

variable [StdHash] {s : BuddyAllocator} {h : Heap} {left right : List Region} {region : Region}
  {below above : List Part} {part : Part} {item : IndexSizeAddress}

omit [StdHash] in
/-- A free part as large as a chunk is the chunk. -/
theorem whole_chunk {max : Nat} (wellFormed : h.WellFormed max)
    (place : h.Place left region right below part above) (free : part.live = false)
    (large : max ≤ part.total) : part.total = max ∧ below = [] ∧ above = [] := by
  have laid := wellFormed.toLaid.laid region place.mem_region
  have sized := wellFormed.sized region place.mem_region
  rw [place.ordinary wellFormed.toLaid free, if_neg Bool.false_ne_true] at sized
  have here := laid.bounds place.mem_part
  obtain ⟨lower, upper⟩ := laid.separate place.parts
  unfold Part.stop Region.stop at here
  refine ⟨by omega, List.eq_nil_iff_forall_not_mem.mpr fun other member => ?_,
    List.eq_nil_iff_forall_not_mem.mpr fun other member => ?_⟩
  · have inside : other ∈ region.parts := by simp [place.parts, member]
    have bounds := laid.bounds inside
    have least := laid.room other inside
    have under := lower other member
    unfold Part.stop at bounds under
    unfold sizeofDesc at least
    omega
  · have inside : other ∈ region.parts := by simp [place.parts, member]
    have bounds := laid.bounds inside
    have least := laid.room other inside
    have beyond := upper other member
    unfold Part.stop at bounds beyond
    unfold Region.stop at bounds
    unfold sizeofDesc at least
    omega

omit [StdHash] in
theorem liveParts_without (laid : h.Laid) (place : h.Place left region right [] part [])
    (free : part.live = false) : (h.dismiss region.base).liveParts = h.liveParts := by
  unfold Heap.liveParts Heap.parts
  rw [Heap.dismiss_regions laid place.regions, place.regions]
  simp [place.parts, free]

/-- Totals and counts are no part of what is stored. -/
theorem recount {totalFree count : Nat} (stores : Stores s h) :
    Stores { s with totalFree := totalFree, fallbackAllocCount := count } h :=
  ⟨stores.wellFormed, stores.threaded, stores.reaches, stores.pool, stores.grants, stores.gpu⟩

theorem read_entry (stores : Stores s h) (member : item ∈ s.pool) :
    onCache (MemoryBlock.index item.address) s = .ok item.index s := by
  rw [stores.pool] at member
  obtain ⟨region, inHeap, part, inside, -, rfl⟩ := mem_poolOf.mp member
  obtain ⟨below, above, shape⟩ := List.append_of_mem inside
  exact read_index (stores.threaded region inHeap) shape

/-- The last entry of the pool goes back if it is as large as a chunk. -/
theorem giveBack_last (stores : Stores s h) (found : last s.pool = some item)
    (large : s.maxChunkSize ≤ item.size) : ∃ s₁ h₁, giveBack item s = .ok () s₁ ∧
      Stores s₁ h₁ ∧ h₁.liveParts = h.liveParts ∧ s₁.pool = s.pool.erase item ∧
      ∀ count, Cleaned s { s₁ with
        totalFree := sub64 s₁.totalFree s₁.maxChunkSize
        fallbackAllocCount := count } := by
  obtain ⟨member, greatest⟩ := last_eq_some.mp found
  have inPool : item ∈ h.pool := stores.pool ▸ member
  obtain ⟨region, inHeap, part, inside, free, rfl⟩ := mem_poolOf.mp inPool
  obtain ⟨left, right, below, above, place⟩ := Heap.exists_place inHeap inside
  obtain ⟨size, rfl, rfl⟩ := whole_chunk stores.wellFormed place free large
  have laid := stores.wellFormed.toLaid
  obtain ⟨c, s₁, ran, rfl, bytes, stores₁⟩ := stores.giveBack_run place free (by simp)
  have started := start_of_first laid place
  have gone : s.pool \ s.pool.erase (part.entry region.index) = {part.entry region.index} :=
    Finset.sdiff_erase_self member
  refine ⟨_, _, ran, stores₁, liveParts_without laid place free, rfl, fun count =>
    ⟨rfl, Finset.erase_subset _ _, fun item left => ?_, ?_, rfl, ?_, bytes, fun same => ?_⟩⟩
  · rw [gone, Finset.mem_singleton] at left
    subst left
    refine ⟨size, fun kept other => ?_⟩
    obtain ⟨different, old⟩ := Finset.mem_erase.mp other
    exact lt_of_le_of_ne (greatest old) different
  · rw [gone, stores.grants, List.filter_map, ← Heap.dismiss_regions laid place.regions]
    refine congrArg (List.map Region.grant) (List.filter_congr fun other _ => ?_)
    refine decide_eq_decide.mpr ?_
    simp only [Finset.mem_singleton, forall_eq, Part.entry_address, started]
    exact ne_comm
  · rw [gone, Finset.card_singleton, Nat.one_mul]
    change (sub64 s.totalFree s.maxChunkSize + s.maxChunkSize) % _ = _
    unfold sub64
    omega
  · have absent : part.entry region.index ∉ s.pool := Finset.erase_eq_self.mp same
    exact absurd member absent

end Stores

variable [StdHash]

/-- What a loop that takes `wanted` entries from the end of the pool leaves of a heap. -/
structure Tidied (wanted : BuddyAllocator → IndexSizeAddress → Prop) (s : BuddyAllocator)
    (h : Heap) (s' : BuddyAllocator) (h' : Heap) : Prop where
  stores : Stores s' h'
  live : h'.liveParts = h.liveParts
  cleaned : Cleaned s s'
  done : ∀ item, last s'.pool = some item → s'.maxChunkSize ≤ item.size → ¬ wanted s' item

section Loops

variable {s s₁ s' : BuddyAllocator} {h h₁ h' : Heap} {fuel : Nat}

theorem Tidied.after {wanted : BuddyAllocator → IndexSizeAddress → Prop}
    (tidied : Tidied wanted s₁ h₁ s' h') (live : h₁.liveParts = h.liveParts)
    (cleaned : Cleaned s s₁) : Tidied wanted s h s' h' :=
  ⟨tidied.stores, tidied.live.trans live, cleaned.trans tidied.cleaned, tidied.done⟩

theorem Tidied.stay {wanted : BuddyAllocator → IndexSizeAddress → Prop} (stores : Stores s h)
    (done : ∀ item, last s.pool = some item → s.maxChunkSize ≤ item.size → ¬ wanted s item) :
    Tidied wanted s h s h := ⟨stores, rfl, .refl, done⟩

theorem Tidied.stay_at {wanted : BuddyAllocator → IndexSizeAddress → Prop}
    {item : IndexSizeAddress} (stores : Stores s h) (found : last s.pool = some item)
    (unwanted : s.maxChunkSize ≤ item.size → ¬ wanted s item) : Tidied wanted s h s h := by
  refine .stay stores fun other same => ?_
  obtain rfl := Option.some.inj (found.symm.trans same)
  exact unwanted

theorem cleanIdleNormalFrom_run (stores : Stores s h) (enough : s.pool.card < fuel) :
    ∃ s' h', cleanIdleNormalFrom fuel s = .ok () s' ∧
      Tidied (fun s _ => shallFreeAlloc s = true) s h s' h' := by
  induction fuel generalizing s h with
  | zero => exact absurd enough (Nat.not_lt_zero _)
  | succ fuel ih =>
      rw [cleanIdleNormalFrom, bind_get]
      cases found : last s.pool with
      | none => exact ⟨s, h, rfl, .stay stores (by simp [found])⟩
      | some item =>
          simp only
          by_cases small : item.size < s.maxChunkSize
          · rw [if_pos small]
            refine ⟨s, h, rfl, .stay_at stores found fun large => ?_⟩
            exact absurd small (Nat.not_lt.mpr large)
          · rw [if_neg small]
            obtain ⟨s₁, h₁, ran, stores₁, live, pool, cleaned⟩ :=
              stores.giveBack_last found (Nat.le_of_not_lt small)
            have next := cleaned s₁.fallbackAllocCount
            have fewer := Finset.card_erase_add_one (last_eq_some.mp found).1
            rw [bind_ok ran, bind_modify, bind_get]
            split
            case isTrue more =>
              obtain ⟨s', h', ran', tidied⟩ := ih stores₁.recount (by simp only [pool]; omega)
              exact ⟨s', h', ran', tidied.after live next⟩
            case isFalse enough =>
              exact ⟨_, h₁, rfl, stores₁.recount, live, next, fun _ _ _ => enough⟩

theorem cleanIdleFallBackFrom_run (stores : Stores s h) (enough : s.pool.card < fuel) :
    ∃ s' h', cleanIdleFallBackFrom fuel s = .ok () s' ∧ Tidied (fun s item =>
      s.fallbackAllocCount ≠ 0 ∧ s.systemAllocator.useGpu = true ∧ item.index ≠ 0) s h s' h' := by
  induction fuel generalizing s h with
  | zero => exact absurd enough (Nat.not_lt_zero _)
  | succ fuel ih =>
      rw [cleanIdleFallBackFrom, bind_get]
      cases found : last s.pool with
      | none => exact ⟨s, h, rfl, .stay stores (by simp [found])⟩
      | some item =>
          simp only
          by_cases small : item.size < s.maxChunkSize
          · rw [if_pos small]
            refine ⟨s, h, rfl, .stay_at stores found fun large => ?_⟩
            exact absurd small (Nat.not_lt.mpr large)
          rw [if_neg small]
          by_cases cpu : s.systemAllocator.useGpu = false
          · rw [if_pos cpu]
            refine ⟨s, h, rfl, .stay_at stores found fun large wanted => ?_⟩
            rw [cpu] at wanted
            exact absurd wanted.2.1 Bool.false_ne_true
          rw [if_neg cpu, bind_ok (stores.read_entry (last_eq_some.mp found).1)]
          by_cases base : item.index = 0
          · rw [if_pos base]
            exact ⟨s, h, rfl, .stay_at stores found fun _ wanted => wanted.2.2 base⟩
          rw [if_neg base]
          obtain ⟨s₁, h₁, ran, stores₁, live, pool, cleaned⟩ :=
            stores.giveBack_last found (Nat.le_of_not_lt small)
          have next := cleaned (sub64 s₁.fallbackAllocCount 1)
          have fewer := Finset.card_erase_add_one (last_eq_some.mp found).1
          rw [bind_ok ran, bind_modify, bind_get]
          split
          case isTrue none =>
            exact ⟨_, h₁, rfl, stores₁.recount, live, next, fun _ _ _ wanted => wanted.1 none⟩
          case isFalse more =>
            obtain ⟨s', h', ran', tidied⟩ := ih stores₁.recount (by simp only [pool]; omega)
            exact ⟨s', h', ran', tidied.after live next⟩

theorem cleanIdleNormalAlloc_run (stores : Stores s h) :
    ∃ s' h', cleanIdleNormalAlloc s = .ok () s' ∧
      Tidied (fun s _ => shallFreeAlloc s = true) s h s' h' := by
  rw [cleanIdleNormalAlloc, bind_get]
  split
  case isTrue => exact cleanIdleNormalFrom_run stores (Nat.lt_succ_self _)
  case isFalse enough => exact ⟨s, h, rfl, .stay stores fun _ _ _ => enough⟩

theorem cleanIdleFallBackAlloc_run (stores : Stores s h) :
    ∃ s' h', cleanIdleFallBackAlloc s = .ok () s' ∧ Tidied (fun s item =>
      s.fallbackAllocCount ≠ 0 ∧ s.systemAllocator.useGpu = true ∧ item.index ≠ 0) s h s' h' := by
  rw [cleanIdleFallBackAlloc, bind_get]
  split
  case isTrue none => exact ⟨s, h, rfl, .stay stores fun _ _ _ wanted => wanted.1 none⟩
  case isFalse => exact cleanIdleFallBackFrom_run stores (Nat.lt_succ_self _)

end Loops

/-- A call that gives idle chunks back returns, and takes from no client; it stops where the
last entry of the pool is smaller than a chunk or not wanted. -/
def Cleans (w : World) (clean : Prog Unit)
    (wanted : BuddyAllocator → IndexSizeAddress → Prop) : Prop :=
  ∃ s', clean w.allocator = .ok () s' ∧ Cleaned w.allocator s' ∧
    (∀ item, last s'.pool = some item → s'.maxChunkSize ≤ item.size → ¬ wanted s' item) ∧
    ∀ client ∈ w.live, ∃ total,
      onCache (MemoryBlock.totalSize (client.1 - sizeofDesc)) w.allocator =
        .ok total w.allocator ∧
      onCache (MemoryBlock.totalSize (client.1 - sizeofDesc)) s' = .ok total s'

variable {setup : Setup} {w : World} {h : Heap} {events : List Event}

theorem Runs.cleans (runs : Runs setup w h) {clean : Prog Unit} {s' : BuddyAllocator} {h' : Heap}
    {wanted : BuddyAllocator → IndexSizeAddress → Prop} (ran : clean w.allocator = .ok () s')
    (tidied : Tidied wanted w.allocator h s' h') : Cleans w clean wanted := by
  refine ⟨s', ran, tidied.cleaned, tidied.done, fun client member => ?_⟩
  obtain ⟨part, inLive, start⟩ := runs.toTracks.exists_live member
  have read := fun {s : BuddyAllocator} {h : Heap} (stores : Stores s h)
      (inParts : part ∈ h.parts) => show
      onCache (MemoryBlock.totalSize part.start) s = .ok part.total s by
    obtain ⟨region, inHeap, inside⟩ := Heap.mem_parts.mp inParts
    obtain ⟨below, above, shape⟩ := List.append_of_mem inside
    exact Stores.read_totalSize (stores.threaded region inHeap) shape
  rw [← start, Nat.add_sub_cancel]
  refine ⟨part.total, read runs.represents.toStores (Heap.mem_liveParts.mp inLive).1, ?_⟩
  rw [← tidied.live] at inLive
  exact read tidied.stores (Heap.mem_liveParts.mp inLive).1

/-- In every state that requests which do not wrap reach, idle chunks can be given back. -/
theorem reached_cleans (positive : setup.minChunkSize ≠ 0) (run : setup.Reaches events w) :
    Cleans w cleanIdleNormalAlloc (fun s _ => shallFreeAlloc s = true) ∧
      Cleans w cleanIdleFallBackAlloc fun s item =>
        s.fallbackAllocCount ≠ 0 ∧ s.systemAllocator.useGpu = true ∧ item.index ≠ 0 := by
  obtain ⟨h, runs⟩ := reached_runs positive run
  obtain ⟨_, _, normal, tidied⟩ := cleanIdleNormalAlloc_run runs.represents.toStores
  obtain ⟨_, _, fallback, tidied'⟩ := cleanIdleFallBackAlloc_run runs.represents.toStores
  exact ⟨runs.cleans normal tidied, runs.cleans fallback tidied'⟩

omit [StdHash] in
/-- A GPU's allocator whose only chunk came by the fallback: both calls give it back. -/
theorem reached_cleans_sample : ∃ w s' s'', @Setup.Reaches plainHash
    { Setup.sample with useGpu := true, answer := fun call _ => some (4096 + 2048 * call, 1) }
    [.call (.alloc 100) 4160, .call (.free 4160) 0] w ∧
    w.allocator.pool = {⟨1, 1024, 4096⟩} ∧
      @cleanIdleNormalAlloc plainHash w.allocator = .ok () s' ∧ s'.pool = ∅ ∧
      @cleanIdleFallBackAlloc plainHash w.allocator = .ok () s'' ∧ s''.pool = ∅ := by
  obtain ⟨w, run, -, reaches⟩ := @Setup.plays
    { Setup.sample with useGpu := true, answer := fun call _ => some (4096 + 2048 * call, 1) }
    [.alloc 100, .free 4160] [.call (.alloc 100) 4160, .call (.free 4160) 0] [] (by decide)
    (by decide +kernel)
  have pool : w.allocator.pool = {⟨1, 1024, 4096⟩} :=
    (@Replay.Reaches.pool plainHash _ _ _ reaches).trans (by decide +kernel)
  have found : last w.allocator.pool = some ⟨1, 1024, 4096⟩ := by
    rw [pool]
    decide +kernel
  have count : w.allocator.fallbackAllocCount = 1 :=
    (@Replay.Reaches.fallbacks plainHash _ _ _ reaches).trans (by decide +kernel)
  have max := @Runs.max plainHash _ _ _ (@Replay.Reaches.runs plainHash _ _ _ reaches)
  -- a chunk that stays is wanted, so it does not stay
  have gone : ∀ (wanted : BuddyAllocator → IndexSizeAddress → Prop) {s' : BuddyAllocator},
      Cleaned w.allocator s' →
      (∀ item, last s'.pool = some item → s'.maxChunkSize ≤ item.size → ¬ wanted s' item) →
      wanted w.allocator ⟨1, 1024, 4096⟩ → s'.pool = ∅ := by
    intro wanted s' cleaned done still
    rcases Finset.subset_singleton_iff.mp (pool ▸ cleaned.pool) with empty | same
    · exact empty
    · obtain rfl := cleaned.idle (same.trans pool.symm)
      exact absurd still (done _ found (Nat.le_of_eq max))
  obtain ⟨⟨s', normal, cleaned, done, -⟩, s'', fallback, cleaned', done', -⟩ :=
    @reached_cleans plainHash _ _ _ (by decide) run
  refine ⟨w, s', s'', run, pool, normal, gone (fun s _ => shallFreeAlloc s = true) cleaned done ?_,
    fallback, gone (fun s item => s.fallbackAllocCount ≠ 0 ∧ s.systemAllocator.useGpu = true ∧
      item.index ≠ 0) cleaned' done' ⟨?_, ?_, by decide⟩⟩
  · rw [shallFreeAlloc, count]
    rfl
  · rw [count]
    decide
  · exact @Replay.Reaches.useGpu plainHash _ _ _ reaches

end Buddy
