import Unimem.BuddyRun

/-!
What the calls of clients are answered. A permitted call returns; `Alloc` cuts
the block from the first entry of the pool that is large enough, and asks the
system only where there is none. A system that fails leaves all as it was.
-/

namespace Buddy

open OrderedSets WordArith Transitions

namespace Heap

variable {h : Heap} {max wanted : Nat} {reply : Nat × Nat}

theorem alloc_unasked (unasked : ¬ h.Asks max wanted) :
    ∃ item, IsLeast (fitting h.pool wanted : Set IndexSizeAddress) item ∧
      h.alloc max wanted reply = (item.address + sizeofDesc, h.carve item.address wanted) := by
  obtain ⟨small, some_fit⟩ := not_or.mp unasked
  cases found : h.fit wanted with
  | none => exact absurd (first_eq_none.mp found) some_fit
  | some item =>
      refine ⟨item, first_eq_some.mp found, ?_⟩
      rw [alloc, if_neg small, found]

theorem alloc_null (asks : h.Asks max wanted) (null : reply.1 = 0) :
    h.alloc max wanted reply = (0, h) := by
  unfold alloc
  split
  · rfl
  · have none_fits : h.fit wanted = none := first_eq_none.mpr (asks.resolve_left ‹_›)
    rw [none_fits]

theorem grants_onParts {change : List Part → List Part} :
    (h.onParts change).map Region.grant = h.regions.map Region.grant := by
  simp only [onParts, List.map_map]
  rfl

theorem alloc_asked (asks : h.Asks max wanted) (there : reply.1 ≠ 0) :
    (h.alloc max wanted reply).1 = reply.1 + sizeofDesc ∧
      (h.alloc max wanted reply).2.regions.map Region.grant =
        ⟨reply.1, request max wanted, reply.2⟩ :: h.regions.map Region.grant := by
  unfold alloc request
  split
  · exact ⟨rfl, rfl⟩
  · have none_fits : h.fit wanted = none := first_eq_none.mpr (asks.resolve_left ‹_›)
    rw [none_fits]
    exact ⟨rfl, grants_onParts⟩

end Heap

variable [StdHash] {setup : Setup} {w : World} {events : List Event} {call : Call} {bytes : Nat}

/-- How the next `Alloc` ends: it is served from the pool, by the system or not at all. -/
structure PoolFit (w : World) (bytes : Nat) : Prop where
  pool : ¬ w.allocator.Asks bytes → ∃ item s',
    IsLeast (fitting w.allocator.pool (w.allocator.wanted bytes) : Set IndexSizeAddress) item ∧
    alloc bytes w.allocator = .ok (item.address + sizeofDesc) s' ∧
    s'.systemAllocator.calls = w.allocator.systemAllocator.calls ∧
    s'.systemAllocator.outstanding = w.allocator.systemAllocator.outstanding
  system : w.allocator.Asks bytes → (w.allocator.reply (w.allocator.wanted bytes)).1 ≠ 0 →
    ∃ s', alloc bytes w.allocator =
        .ok ((w.allocator.reply (w.allocator.wanted bytes)).1 + sizeofDesc) s' ∧
      s'.systemAllocator.calls = w.allocator.systemAllocator.calls + 1 ∧
      s'.systemAllocator.outstanding = ⟨(w.allocator.reply (w.allocator.wanted bytes)).1,
        Heap.request w.allocator.maxChunkSize (w.allocator.wanted bytes),
        (w.allocator.reply (w.allocator.wanted bytes)).2⟩ ::
          w.allocator.systemAllocator.outstanding
  refused : w.allocator.Asks bytes → (w.allocator.reply (w.allocator.wanted bytes)).1 = 0 →
    ∃ s', alloc bytes w.allocator = .ok 0 s' ∧
      s'.systemAllocator.calls = w.allocator.systemAllocator.calls + 1 ∧
      s'.systemAllocator.outstanding = w.allocator.systemAllocator.outstanding ∧
      s'.pool = w.allocator.pool

theorem Runs.poolFit {h : Heap} (runs : Runs setup w h) (positive : setup.minChunkSize ≠ 0)
    (permitted : w.permits (.alloc bytes)) : PoolFit w bytes := by
  have asks := @Represents.asks_iff _ _ _ bytes runs.represents
  obtain ⟨s', ran, tracks, -, calls⟩ :=
    runs.toTracks.alloc_run (runs.min ▸ positive) permitted
  have grants : s'.systemAllocator.outstanding = _ := tracks.represents.grants
  have pool : s'.pool = _ := tracks.represents.pool
  simp only [Heap.after] at ran grants pool
  refine ⟨fun unasked => ?_, fun asked there => ?_, fun asked null => ?_⟩
  · obtain ⟨item, least, made⟩ := Heap.alloc_unasked (mt asks.mp unasked)
    rw [made] at ran grants
    refine ⟨item, s', runs.represents.pool ▸ least, ran, ?_, ?_⟩
    · rw [calls, if_neg unasked, Nat.add_zero]
    · rw [grants, runs.represents.grants]
      exact Heap.grants_onParts
  · obtain ⟨value, grown⟩ := Heap.alloc_asked (asks.mpr asked) there
    rw [value] at ran
    refine ⟨s', ran, ?_, ?_⟩
    · rw [calls, if_pos asked]
    · rw [grants, grown, runs.represents.grants]
  · rw [Heap.alloc_null (asks.mpr asked) null] at ran grants pool
    refine ⟨s', ran, ?_, ?_, ?_⟩
    · rw [calls, if_pos asked]
    · rw [grants, runs.represents.grants]
    · rw [pool, runs.represents.pool]

/-- In every state reached, `Alloc` is best fit by index, size and address, for a request
that rounding its size does not wrap. -/
theorem reached_poolFit (positive : setup.minChunkSize ≠ 0) (run : setup.Reaches events w)
    (permitted : w.permits (.alloc bytes)) : PoolFit w bytes := by
  obtain ⟨h, runs⟩ := reached_runs positive run
  exact runs.poolFit positive permitted

omit [StdHash] in
/-- Three entries are large enough; the one taken lies between the other two. -/
theorem reached_poolFit_sample : ∃ w s', @Setup.Reaches plainHash .sample
    [.call (.alloc 200) 4160, .call (.alloc 10) 4432, .call (.alloc 100) 4512,
      .call (.alloc 10) 4688, .call (.free 4160) 0, .call (.free 4512) 0] w ∧
    w.allocator.pool = {⟨0, 272, 4096⟩, ⟨0, 176, 4448⟩, ⟨0, 416, 4704⟩} ∧
      @alloc plainHash 100 w.allocator = .ok 4512 s' := by
  obtain ⟨w, run, -, reaches⟩ := @Setup.plays .sample [.alloc 200, .alloc 10, .alloc 100,
    .alloc 10, .free 4160, .free 4512]
    [.call (.alloc 200) 4160, .call (.alloc 10) 4432, .call (.alloc 100) 4512,
      .call (.alloc 10) 4688, .call (.free 4160) 0, .call (.free 4512) 0]
    [(4688, 10), (4432, 10)] (by decide) (by decide +kernel)
  have runs := @Replay.Reaches.runs plainHash _ _ _ reaches
  have permitted := @Replay.Reaches.permits plainHash _ _ (.alloc 100) _ reaches
    (by decide +kernel)
  have pool : w.allocator.pool = {⟨0, 272, 4096⟩, ⟨0, 176, 4448⟩, ⟨0, 416, 4704⟩} :=
    (@Replay.Reaches.pool plainHash _ _ _ reaches).trans (by decide +kernel)
  have wanted : w.allocator.wanted 100 = 176 := @Replay.Reaches.wanted plainHash _ _ _ reaches 100
  have found : first (fitting w.allocator.pool 176) = some ⟨0, 176, 4448⟩ := by
    rw [pool]
    decide +kernel
  have unasked : ¬ w.allocator.Asks 100 := by
    unfold BuddyAllocator.Asks
    rw [wanted, @Runs.max plainHash _ _ _ runs, not_or]
    refine ⟨by decide, fun none => ?_⟩
    rw [first_eq_none.mpr none] at found
    cases found
  obtain ⟨item, s', least, ran, -⟩ := @PoolFit.pool plainHash _ _
    (@reached_poolFit plainHash _ _ _ _ (by decide) run permitted) unasked
  rw [wanted] at least
  rw [least.unique (first_eq_some.mp found)] at ran
  exact ⟨w, s', run, pool, ran⟩

/-- Where the system's own call fails, so does `Alloc`, before it has changed anything. -/
theorem alloc_fails {s : BuddyAllocator} (positive : s.minChunkSize ≠ 0) (asks : s.Asks bytes)
    (fails : s.systemAllocator.answer s.systemAllocator.calls
      (Heap.request s.maxChunkSize (s.wanted bytes)) = none) :
    alloc bytes s = .error .assertion s := by
  have stops : ∀ size, s.systemAllocator.answer s.systemAllocator.calls size = none →
      ∀ {α : Type} (rest : Nat × Nat → Prog α),
        (SystemAllocator.alloc size >>= rest) s = .error .assertion s := by
    intro size none α rest
    have stopped : SystemAllocator.alloc size s = .error .assertion s := by
      rw [SystemAllocator.alloc, bind_get]
      simp only [none]
      rfl
    rw [Fuelled.bind_run, stopped]
  have rounded : align (add64 bytes sizeofDesc) s.minChunkSize = s.wanted bytes := rfl
  rw [alloc_enters positive rounded]
  unfold Heap.request at fails
  by_cases huge : s.wanted bytes > s.maxChunkSize
  · rw [if_pos huge] at fails ⊢
    exact stops _ fails _
  · rw [if_neg huge] at fails ⊢
    have none_fits := first_eq_none.mpr (asks.resolve_left huge)
    rw [bind_ok (findExistChunk_run s (s.wanted bytes)), none_fits]
    have stopped : refillPool s = .error .assertion s := by
      rw [refillPool, bind_get]
      exact stops _ fails _
    simp only
    rw [Fuelled.bind_run, stopped]

/-- What can come of a call in a state. -/
structure Returns (w : World) : Prop where
  permitted : ∀ call, w.permits call → ∃ value s', call.run w.allocator = .ok value s'
  null_iff : ∀ bytes value s', w.permits (.alloc bytes) →
    alloc bytes w.allocator = .ok value s' →
      (value = 0 ↔ w.allocator.Asks bytes ∧ (w.allocator.reply (w.allocator.wanted bytes)).1 = 0)
  failed : ∀ bytes, w.allocator.Asks bytes →
    w.allocator.systemAllocator.answer w.allocator.systemAllocator.calls
      (Heap.request w.allocator.maxChunkSize (w.allocator.wanted bytes)) = none →
    alloc bytes w.allocator = .error .assertion w.allocator

/-- No assertion fails, no guard is found broken, no access faults and no search goes
on for ever in any call that clients are allowed; only the system can make `Alloc` return
null or stop it. -/
theorem reached_returns (positive : setup.minChunkSize ≠ 0) (run : setup.Reaches events w) :
    Returns w := by
  obtain ⟨h, runs⟩ := reached_runs positive run
  have nonzero : w.allocator.minChunkSize ≠ 0 := runs.min ▸ positive
  refine ⟨fun call permitted => ?_, fun bytes value s' permitted ran => ?_,
    fun bytes asks fails => alloc_fails nonzero asks fails⟩
  · obtain ⟨s', ran, -⟩ := runs.toTracks.call_run nonzero permitted
    exact ⟨_, s', ran⟩
  · have fit := runs.poolFit positive permitted
    have returned := fun {other : Nat} {s₁ : BuddyAllocator}
        (ran₁ : alloc bytes w.allocator = .ok other s₁) =>
      (EStateM.Result.ok.inj (ran.symm.trans ran₁)).1
    constructor
    · intro null
      by_contra served
      rcases not_and_or.mp served with unasked | there
      · obtain ⟨item, s₁, -, ran₁, -⟩ := fit.pool unasked
        exact absurd ((returned ran₁).symm.trans null) (Nat.succ_ne_zero _)
      · by_cases asked : w.allocator.Asks bytes
        · obtain ⟨s₁, ran₁, -⟩ := fit.system asked there
          exact absurd ((returned ran₁).symm.trans null) (Nat.succ_ne_zero _)
        · obtain ⟨item, s₁, -, ran₁, -⟩ := fit.pool asked
          exact absurd ((returned ran₁).symm.trans null) (Nat.succ_ne_zero _)
    · rintro ⟨asked, null⟩
      obtain ⟨s₁, ran₁, -⟩ := fit.refused asked null
      exact returned ran₁

omit [StdHash] in
theorem reached_returns_sample : ∃ w,
    @Setup.Reaches plainHash .sample [.call (.alloc 100) 4160, .call (.alloc 200) 4336,
      .call (.free 4160) 0, .call (.alloc 2000) 6208] w ∧ @Returns plainHash w := by
  obtain ⟨w, run, -⟩ := Setup.sample_run
  exact ⟨w, run, @reached_returns plainHash _ _ _ (by decide) run⟩

end Buddy
