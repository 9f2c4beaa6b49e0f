import Unimem.BuddyPool

/-!
Where the descriptors are kept makes no difference. An allocator that keeps
them in its blocks and one that keeps them in the map of a GPU's cache, with
any hash functions and over any memory, return the same pointers to the same
calls and have the same pool.
-/

namespace Buddy

open Tiling OrderedSets WordArith Transitions

/-- Two allocators of the same sizes, over systems that answer alike. -/
structure Setup.Alike (setup setup' : Setup) : Prop where
  answer : setup'.answer = setup.answer
  min : setup'.minChunkSize = setup.minChunkSize
  max : setup'.maxChunkSize = setup.maxChunkSize

def Event.isCall : Event → Bool
  | .call _ _ => true
  | .poke _ _ => false

/-- What a heap says of a world apart from the descriptors. -/
structure Shows (setup : Setup) (w : World) (h : Heap) : Prop where
  pool : w.allocator.pool = h.pool
  grants : w.allocator.systemAllocator.outstanding = h.regions.map Region.grant
  used : w.allocator.totalUsed = h.totalUsed
  idle : w.allocator.totalFree = h.totalFree
  min : w.allocator.minChunkSize = setup.minChunkSize
  max : w.allocator.maxChunkSize = setup.maxChunkSize
  answer : w.allocator.systemAllocator.answer = setup.answer

theorem Runs.shows [StdHash] {setup : Setup} {w : World} {h : Heap} (runs : Runs setup w h) :
    Shows setup w h :=
  ⟨runs.represents.pool, runs.represents.grants, runs.represents.used, runs.represents.idle,
    runs.min, runs.max, runs.answer⟩

variable {hash hash' : StdHash} {setup setup' : Setup} {w w' : World} {h : Heap}
  {events : List Event} {asked : Call} {bytes : Nat}

/-- Two worlds that represent one heap. -/
structure Twins (hash hash' : StdHash) (setup setup' : Setup) (w w' : World) (h : Heap) :
    Prop where
  this : @Runs hash setup w h
  other : @Runs hash' setup' w' h
  live : w'.live = w.live
  calls : w'.allocator.systemAllocator.calls = w.allocator.systemAllocator.calls

namespace Twins

variable (twins : Twins hash hash' setup setup' w w' h) (alike : setup.Alike setup')
include twins

theorem shows : Shows setup w h := @Runs.shows hash _ _ _ twins.this

theorem shows' : Shows setup' w' h := @Runs.shows hash' _ _ _ twins.other

theorem pool : w'.allocator.pool = w.allocator.pool :=
  twins.shows'.pool.trans twins.shows.pool.symm

theorem outstanding : w'.allocator.systemAllocator.outstanding =
    w.allocator.systemAllocator.outstanding :=
  twins.shows'.grants.trans twins.shows.grants.symm

include alike

theorem max : w'.allocator.maxChunkSize = w.allocator.maxChunkSize := by
  rw [twins.shows'.max, alike.max, twins.shows.max]

theorem answer : w'.allocator.systemAllocator.answer = w.allocator.systemAllocator.answer := by
  rw [twins.shows'.answer, alike.answer, twins.shows.answer]

theorem wanted : w'.allocator.wanted bytes = w.allocator.wanted bytes := by
  rw [BuddyAllocator.wanted, twins.shows'.min, alike.min, ← twins.shows.min]
  rfl

theorem asks_iff : w'.allocator.Asks bytes ↔ w.allocator.Asks bytes := by
  unfold BuddyAllocator.Asks
  rw [twins.wanted alike, twins.max alike, twins.pool]

theorem permits (permitted : w.permits asked) : w'.permits asked := by
  cases asked with
  | free p =>
      change ∃ bytes, (p, bytes) ∈ w'.live
      rw [twins.live]
      exact permitted
  | alloc bytes =>
      obtain ⟨covers, supplied⟩ := permitted
      refine ⟨?_, fun asks => ?_⟩
      · unfold BuddyAllocator.Covers at covers ⊢
        rwa [twins.wanted alike]
      · have provides := supplied ((twins.asks_iff alike).mp asks)
        unfold SystemAllocator.Provides at provides ⊢
        rwa [twins.wanted alike, twins.max alike, twins.answer alike, twins.calls,
          twins.outstanding]

theorem after_eq (asked : Call) : h.after w'.allocator asked = h.after w.allocator asked := by
  cases asked with
  | free p => rfl
  | alloc bytes =>
      unfold Heap.after BuddyAllocator.reply
      simp only [twins.wanted alike, twins.max alike, twins.answer alike, twins.calls]

/-- A call is answered alike, and leaves twins. -/
theorem answers (positive : setup.minChunkSize ≠ 0) {value : Nat} {s' : BuddyAllocator}
    (permitted : w.permits asked) (ran : @Call.run hash asked w.allocator = .ok value s') :
    ∃ s₂, @Call.run hash' asked w'.allocator = .ok value s₂ ∧
      ∃ h', Twins hash hash' setup setup' (w.after asked value s') (w'.after asked value s₂) h' := by
  have nonzero : w.allocator.minChunkSize ≠ 0 := twins.shows.min ▸ positive
  have nonzero' : w'.allocator.minChunkSize ≠ 0 := by
    rw [twins.shows'.min, alike.min]
    exact positive
  have same := twins.after_eq alike asked
  have live : ∀ value s₁ s₂, (w'.after asked value s₂).live = (w.after asked value s₁).live := by
    intro value s₁ s₂
    cases asked <;> simp only [World.after, twins.live]
  have state : ∀ (w : World) value s', (w.after asked value s').allocator = s' := by
    intro w value s'
    cases asked <;> rfl
  have tracks := @Runs.toTracks hash _ _ _ twins.this
  have tracks' := @Runs.toTracks hash' _ _ _ twins.other
  obtain ⟨s₁, ran₁, tracks₁, frame₁, calls₁⟩ :=
    @Tracks.asked_run hash _ _ _ tracks nonzero permitted
  obtain ⟨s₂, ran₂, tracks₂, frame₂, calls₂⟩ :=
    @Tracks.asked_run hash' _ _ _ tracks' nonzero' (twins.permits alike permitted)
  obtain ⟨rfl, rfl⟩ := EStateM.Result.ok.inj (ran.symm.trans ran₁)
  rw [same] at ran₂ tracks₂ frame₂
  refine ⟨s₂, ran₂, _, ⟨@Runs.after hash _ _ _ _ _ _ twins.this _ tracks₁ frame₁,
    @Runs.after hash' _ _ _ _ _ _ twins.other _ tracks₂ frame₂, live _ _ _, ?_⟩⟩
  rw [state, state, calls₁, calls₂, twins.calls]
  congr 1
  cases asked with
  | free p => rfl
  | alloc bytes => exact if_congr (twins.asks_iff alike) rfl rfl

end Twins

def Related (hash hash' : StdHash) (setup setup' : Setup) (w w' : World) : Prop :=
  ∃ h, Twins hash hash' setup setup' w w' h

/-- Every run of one allocator, of requests that do not wrap, is but for the clients' stores
a run of the other: the same calls return the same pointers. -/
theorem reached_twins (hash hash' : StdHash) (alike : setup.Alike setup')
    (positive : setup.minChunkSize ≠ 0) (run : @Setup.Reaches hash setup events w) :
    ∃ w', @Setup.Reaches hash' setup' (events.filter Event.isCall) w' ∧ w'.live = w.live ∧
      w'.allocator.pool = w.allocator.pool ∧
      w'.allocator.systemAllocator.outstanding = w.allocator.systemAllocator.outstanding ∧
      w'.allocator.totalUsed = w.allocator.totalUsed ∧
      w'.allocator.totalFree = w.allocator.totalFree := by
  have initial : Related hash hash' setup setup' setup.start setup'.start :=
    ⟨Heap.empty, @Setup.start_runs hash setup, @Setup.start_runs hash' setup', rfl, rfl⟩
  obtain ⟨w', run', h, twins⟩ := run.muted Event.isCall initial
    (fun state state' event after related step loud => by
      obtain ⟨h, twins⟩ := related
      cases step with
      | @call call value s' permitted ran =>
          obtain ⟨s₂, ran₂, h', twins'⟩ := twins.answers alike positive permitted ran
          exact ⟨_, @Step.call hash' _ _ _ _ (twins.permits alike permitted) ran₂, h', twins'⟩
      | poke v writable => cases loud)
    (fun state state' event after related step silent => by
      obtain ⟨h, this, other, live, calls⟩ := related
      cases step with
      | call permitted ran => cases silent
      | @poke x v writable => exact ⟨h, @Runs.poke hash _ _ _ _ v this writable, other, live, calls⟩)
  exact ⟨w', run', twins.live, twins.pool, twins.outstanding,
    twins.shows'.used.trans twins.shows.used.symm, twins.shows'.idle.trans twins.shows.idle.symm⟩

/-- The GPU's allocator on the CPU's run. -/
theorem reached_twins_sample : ∃ w', @Setup.Reaches ⟨fun _ => 0, fun _ => 0⟩
    { Setup.sample with useGpu := true }
    ([.call (.alloc 100) 4160, .call (.alloc 200) 4336, .call (.free 4160) 0,
      .call (.alloc 2000) 6208] : List Event) w' ∧ w'.live = [(6208, 2000), (4336, 200)] := by
  obtain ⟨w, run, held⟩ := Setup.sample_run
  obtain ⟨w', run', live, -⟩ := @reached_twins Setup.sample { Setup.sample with useGpu := true }
    _ _ plainHash ⟨fun _ => 0, fun _ => 0⟩ ⟨rfl, rfl, rfl⟩ (by decide) run
  exact ⟨w', run', live.trans held⟩

end Buddy
