import Unimem.BuddyClients

/-!
A second `Free` of one pointer. For a block of the pool the first leaves a
descriptor that says free or invalid, so that the second fails an assertion
before it changes anything. The descriptor of a huge block goes away with the
block; nothing stops a second `Free` there.
-/

namespace Buddy

open Tiling OrderedSets WordArith MetadataCache ByteMemory

variable [StdHash] {setup : Setup} {w w' : World} {s s' : BuddyAllocator} {h : Heap}
  {events : List Event} {left right : List Region} {region : Region} {below above : List Part}
  {part : Part} {p start : Nat} {desc : Desc}

/-- A block that is free or invalid already is not freed. -/
theorem free_stale (fits : start + sizeofDesc < 2 ^ 64) (holds : s.cache.Holds start desc)
    (idle : desc.type = .freeChunk ∨ desc.type = .invalidChunk) :
    free (start + sizeofDesc) s = .error .assertion s := by
  have ordinary : desc.type ≠ .hugeChunk := by
    rcases idle with free | invalid
    · simp [free]
    · simp [invalid]
  have fails : onCache (MemoryBlock.markAsFree start) s = .error .assertion s := by
    rw [onCache, MemoryBlock.markAsFree_fails holds idle]
  simp only [free, MemoryBlock.metadata_data fits]
  rw [bind_ok (onCache_ok (MemoryBlock.type_run holds)), if_neg ordinary, Fuelled.bind_run, fails]

theorem Represents.freed_again (represents : Represents s h)
    (place : h.Place left region right below part above) (live : part.live = true)
    (ordinary : region.huge = false) (freed : free (part.start + sizeofDesc) s = .ok () s') :
    free (part.start + sizeofDesc) s' = .error .assertion s' := by
  have laid := represents.wellFormed.toLaid.laid region place.mem_region
  have fits := Stores.payload_lt laid place.mem_part
  obtain ⟨c, parts', ran, -, threaded', -, absorbed⟩ :=
    represents.toStores.release_run place live ordinary
  obtain ⟨-, rfl⟩ := EStateM.Result.ok.inj (freed.symm.trans ran)
  obtain ⟨new, inNew, idle, -, started | ⟨-, invalid⟩⟩ :=
    absorbed part place.mem_part (Or.inr rfl)
  · obtain ⟨below', above', shape⟩ := List.append_of_mem inNew
    have holds := threaded'.holds shape
    rw [started] at holds
    exact free_stale fits holds (Or.inl (typeOf_free ordinary idle))
  · exact free_stale fits invalid (Or.inr rfl)

theorem Replay.Reaches.read_type {state : Replay} (reaches : state.Reaches setup w)
    (region : Region) (part : Part) (inHeap : region ∈ state.heap.regions)
    (inside : part ∈ region.parts) :
    onCache (MemoryBlock.type part.start) w.allocator = .ok (region.typeOf part) w.allocator := by
  obtain ⟨below, above, shape⟩ := List.append_of_mem inside
  exact Stores.read_type (reaches.runs.represents.threaded region inHeap) shape

/-- In every state that requests which do not wrap reach, a `Free` of a block of the pool
that follows a `Free` of the same pointer fails an assertion, and leaves the allocator as
it is. Of a huge block nothing is said: its descriptor went back with its memory. -/
theorem reached_freed_again (positive : setup.minChunkSize ≠ 0) (run : setup.Reaches events w)
    (arena : onCache (MemoryBlock.type (p - sizeofDesc)) w.allocator =
      .ok .arenaChunk w.allocator)
    (step : Step w (.call (.free p) 0) w') :
    free p w'.allocator = .error .assertion w'.allocator := by
  obtain ⟨h, runs⟩ := reached_runs positive run
  cases step with
  | @call _ _ s' permitted ran =>
      obtain ⟨bytes, member⟩ := id permitted
      obtain ⟨left, region, right, below, part, above, place, live, rfl, -⟩ := runs.block member
      obtain ⟨⟨⟩, s₁, freed, done⟩ := Fuelled.bind_returns ran
      obtain ⟨-, rfl⟩ := EStateM.Result.ok.inj done
      have threaded := runs.represents.threaded region place.mem_region
      have read := @Stores.read_type _ w.allocator region _ _ part threaded place.parts
      rw [Nat.add_sub_cancel, read] at arena
      have kind := (EStateM.Result.ok.inj arena).1
      have ordinary : region.huge = false := by
        rw [← Bool.not_eq_true]
        intro huge
        simp [Region.typeOf, huge] at kind
      exact runs.represents.freed_again place live ordinary freed

omit [StdHash] in
/-- The first `Free` merges the block with the one before it. -/
theorem reached_freed_again_sample : ∃ w w',
    @Setup.Reaches plainHash .sample [.call (.alloc 100) 4160, .call (.alloc 200) 4336,
      .call (.free 4160) 0] w ∧
    @Step plainHash w (.call (.free 4336) 0) w' ∧
      @free plainHash 4336 w'.allocator = .error .assertion w'.allocator := by
  obtain ⟨w, run, -, reaches⟩ := @Setup.plays .sample [.alloc 100, .alloc 200, .free 4160]
    [.call (.alloc 100) 4160, .call (.alloc 200) 4336, .call (.free 4160) 0] [(4336, 200)]
    (by decide) (by decide +kernel)
  obtain ⟨w', step, -⟩ := @Replay.Reaches.next plainHash _ _ (.free 4336)
    (.call (.free 4336) 0) _ reaches (by decide) (by decide +kernel)
  have regions : (Setup.sample.played [.alloc 100, .alloc 200, .free 4160]).heap.regions =
      [⟨4096, 1024, 0, false, [⟨4096, 176, false⟩, ⟨4272, 272, true⟩, ⟨4544, 576, false⟩]⟩] := by
    decide +kernel
  have arena := @Replay.Reaches.read_type plainHash _ _ _ reaches
    ⟨4096, 1024, 0, false, [⟨4096, 176, false⟩, ⟨4272, 272, true⟩, ⟨4544, 576, false⟩]⟩
    ⟨4272, 272, true⟩ (by simp [regions]) (by simp)
  exact ⟨w, w', run, step, @reached_freed_again plainHash _ _ _ _ _ (by decide) run arena step⟩

end Buddy
