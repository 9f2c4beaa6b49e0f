import Unimem.Chunks

/-!
chunk.h has its own steps from chunk to chunk, which count in chunks where the
allocator counts in bytes. They agree with the allocator's steps only where
there is no step to take: on a segment that is all top.
-/

namespace Unimem

open ByteMemory Memory WordArith MallocState Transitions

namespace Chunk

/-- The chunks met by so many steps of next_chunk. -/
def nextChunks : Nat → Nat → Prog (List Nat)
  | 0, p => return [p]
  | steps + 1, p => do return p :: (← nextChunks steps (← nextChunk p))

end Chunk

/-- next_chunk and prev_chunk are the steps Alloc and Free take. -/
structure Store.WalksAgree (s : Store) (first : Nat) : Prop where
  next : ∀ p, s.IsChunk first p → p ≠ s.gm.top →
    Chunk.nextChunk p s = .ok (chunkPlusOffset p (s.sizeAt p)) s
  prev : ∀ q size, s.FreeChunk first q size →
    Chunk.prevChunk (q + size) s =
        .ok (chunkMinusOffset (q + size) (s.prevFootAt (q + size))) s ∧
      Chunk.nextChunk q s = .ok (q + size) s ∧ Chunk.prevChunk (q + size) s = .ok q s
  visits : s.gm.top ≠ 0 → ∃ steps chunks, Chunk.nextChunks steps first s = .ok chunks s ∧
    chunks.Nodup ∧ (∀ p, p ∈ chunks ↔ s.IsChunk first p) ∧ chunks.getLast? = some s.gm.top
  pinuse : ∀ p, s.IsChunk first p → p ≠ s.gm.top →
    Chunk.nextPinuse p s = Chunk.pinuse (chunkPlusOffset p (s.sizeAt p)) s

section Agree

variable {s : Store} {first p size : Nat}

/-- 31 is odd, so no size below 2^64 is a multiple of 2^64 too many by it. -/
theorem add64_scaled_ne (some : size ≠ 0) (fits : size < 2 ^ 64) :
    add64 p (32 * size) ≠ add64 p size := by
  intro same
  unfold add64 at same
  generalize word : 2 ^ 64 = M at same fits
  have congruent : p + size ≡ p + 32 * size [MOD M] := same.symm
  have cancelled : size ≡ 32 * size [MOD M] := Nat.ModEq.add_left_cancel' p congruent
  have divides : M ∣ 31 * size := by
    have difference := (Nat.modEq_iff_dvd' (by omega)).mp cancelled
    have factor : 32 * size - size = 31 * size := by omega
    rwa [factor] at difference
  have coprime : Nat.Coprime M 31 := by
    rw [← word]
    exact Nat.Coprime.pow_left 64 (by decide)
  have whole := Nat.le_of_dvd (Nat.pos_of_ne_zero some) (coprime.dvd_of_dvd_mul_left divides)
  omega

/-- A step of 32 bytes for each byte of the size misses the next chunk. -/
theorem nextChunk_astray (some : s.sizeAt p ≠ 0) :
    Chunk.nextChunk p s ≠ .ok (chunkPlusOffset p (s.sizeAt p)) s := by
  intro reached
  have fits : s.sizeAt p < 2 ^ 64 :=
    Nat.lt_of_le_of_lt Nat.and_le_left (s.mem.load_lt (p + 8) 8)
  by_cases mapped : s.mem.accessible (p + 8) 8 = true
  · have ran : Chunk.nextChunk p s = .ok (add64 p (32 * s.sizeAt p)) s := by
      simp only [Chunk.nextChunk, Chunk.head, load64, Fuelled.bind_run, run_loadN mapped, run_pure]
      rfl
    rw [ran] at reached
    exact add64_scaled_ne some fits (EStateM.Result.ok.inj reached).1
  · simp [Chunk.nextChunk, Chunk.head, load64, loadN, mapped] at reached

/-- The two ways of walking agree exactly where top is the only chunk. -/
theorem walksAgree_iff (sized : ∀ p, s.IsChunk first p → p ≠ s.gm.top → s.sizeAt p ≠ 0) :
    s.WalksAgree first ↔ ∀ p, s.IsChunk first p → p = s.gm.top := by
  constructor
  · intro agree p chunk
    by_contra notTop
    exact nextChunk_astray (sized p chunk notTop) (agree.next p chunk notTop)
  · intro alone
    refine ⟨fun p chunk notTop => absurd (alone p chunk) notTop,
      fun q size free => absurd (alone q free.1) free.2.1, fun present => ?_,
      fun p chunk notTop => absurd (alone p chunk) notTop⟩
    have atTop : first = s.gm.top := alone first (Store.IsChunk.first present)
    refine ⟨0, [first], rfl, List.nodup_singleton first, fun p => ?_, by rw [atTop]; rfl⟩
    rw [List.mem_singleton]
    constructor
    · rintro rfl
      exact Store.IsChunk.first present
    · intro chunk
      rw [alone p chunk, atTop]

end Agree

section Reached

variable {setup : Setup} {w : World} {h : Heap}

theorem Runs.sized (runs : Runs setup w h) {p : Nat} (chunk : w.store.IsChunk setup.first p)
    (notTop : p ≠ w.store.gm.top) : w.store.sizeAt p ≠ 0 := by
  obtain ⟨below, b, n, above, shape, rfl, -, size, -⟩ := runs.chunk chunk notTop
  rw [runs.rep.top] at notTop
  have large := (runs.rep.layout.sized b (by simp [shape]) notTop).1
  omega

theorem Fresh.no_chunk (fresh : Fresh setup w) (top : setup.raw.top = 0) (p : Nat) :
    ¬ w.store.IsChunk setup.first p := by
  intro chunk
  induction chunk with
  | first present => exact present (by rw [fresh.gm, top])
  | next _ _ ih => exact ih

/-- Without calls of InitOrExpand from outside, a world is fresh or represents a heap. -/
theorem Setup.Reaches.called {events : List Event} (run : setup.Reaches events w)
    (holds : setup.Holds) (clean : Clean setup.raw)
    (calls : ∀ value, Event.call .expand value ∉ events) :
    Fresh setup w ∨ ∃ h, Runs setup w h := by
  have both : Phase setup w ∧ ((∀ value, Event.call .expand value ∉ events) →
      Fresh setup w ∨ ∃ h, Runs setup w h) := by
    refine run.induct (fun events w => Phase setup w ∧
      ((∀ value, Event.call .expand value ∉ events) → Fresh setup w ∨ ∃ h, Runs setup w h))
      ⟨Phase.fresh setup.start_fresh, fun _ => Or.inl setup.start_fresh⟩ ?_
    rintro events w event after ⟨phase, earlier⟩ step
    have phase' := phase.step holds clean (fun _ outside _ => outside) step
    refine ⟨phase', fun calls => ?_⟩
    rcases earlier fun value member => calls value (List.mem_append_left _ member) with
      fresh | running
    · cases phase' with
      | fresh fresh' => exact Or.inl fresh'
      | running h runs => exact Or.inr ⟨h, runs⟩
      | narrow small narrow none =>
          -- a narrow world comes from InitOrExpand alone
          cases step with
          | @call call value s' permitted returned =>
              cases call with
              | alloc bytes => cases none
              | free mem => simp [World.permits, fresh.none] at permitted
              | expand => exact absurd (by simp) (calls value)
          | poke v outside =>
              exact absurd ((congrArg MallocState.top fresh.gm).trans clean.top) narrow.present
    · exact Or.inr (Phase.running_stays running step)
  exact both.2 calls

theorem reached_walksAgree (zeroed : Zeroed setup.raw) (holds : setup.Holds)
    {events : List Event} (run : setup.Reaches events w)
    (calls : ∀ value, Event.call .expand value ∉ events) :
    w.store.WalksAgree setup.first ↔
      ∀ p, w.store.IsChunk setup.first p → p = w.store.gm.top := by
  apply walksAgree_iff
  intro p chunk notTop
  rcases run.called holds zeroed.toClean calls with fresh | ⟨h, runs⟩
  · exact absurd chunk (fresh.no_chunk zeroed.top p)
  · exact runs.sized chunk notTop

/-- One allocation, freed again: the segment is all top and the walks agree. -/
theorem reached_walksAgree_sample : ∃ w : World, w.live = [] ∧ w.store.gm.top = 4096 ∧
    w.store.WalksAgree (Setup.sample 1024 (by decide)).first := by
  have replayed : ((Heap.init 4096 (4096 + 1024 - 8)).replay [] [.alloc 24, .free 4128]).map
      Prod.snd = some [] := by decide
  obtain ⟨events, w, h, run, runs, live, found, happened⟩ :=
    Setup.sample_replays (by decide) (by decide) (by decide) _ replayed
  have single : h.blocks.map Block.addr = [4096] ∧ h.top = 4096 := by
    have all : ((Heap.init 4096 (4096 + 1024 - 8)).replay [] [.alloc 24, .free 4128]).map
        (fun found => (found.1.blocks.map Block.addr, found.1.top)) = some ([4096], 4096) := by
      decide
    rw [found] at all
    exact Prod.mk.inj (Option.some.inj all)
  have regular : (Setup.sample 1024 (by decide)).Regular :=
    Setup.sample_regular (by decide) (by decide) (by decide)
  have calls : ∀ value, Event.call .expand value ∉ events := by
    intro value member
    have asked : some Call.expand ∈ events.map Event.asked := List.mem_map_of_mem member
    rw [happened] at asked
    simp at asked
  have top : w.store.gm.top = 4096 := runs.rep.top.trans single.2
  refine ⟨w, live, top, (reached_walksAgree (Setup.sample_zeroed 1024 (by decide))
    regular.aligned.bounds.1 run calls).mpr fun p chunk => ?_⟩
  obtain ⟨b, member, rfl⟩ := (runs.rep.chunk_iff p).mp chunk
  have here : b.addr ∈ h.blocks.map Block.addr := List.mem_map_of_mem member
  rw [single.1, List.mem_singleton] at here
  rw [here, top]

/-- After one Alloc of 24 bytes next_chunk steps from 4096 over 32 chunks. -/
theorem next_chunk_misses : ∃ events, ∃ w : World,
    (Setup.sample 1024 (by decide)).Reaches events w ∧
    (∀ value, Event.call .expand value ∉ events) ∧ w.live = [(4128, 24)] ∧
    w.store.IsChunk (Setup.sample 1024 (by decide)).first 4096 ∧ w.store.gm.top = 4128 ∧
    Chunk.nextChunk 4096 w.store = .ok 5120 w.store ∧
    chunkPlusOffset 4096 (w.store.sizeAt 4096) = 4128 ∧
    ¬ w.store.WalksAgree (Setup.sample 1024 (by decide)).first := by
  have replayed : ((Heap.init 4096 (4096 + 1024 - 8)).replay [] [.alloc 24]).map
      Prod.snd = some [(4128, 24)] := by decide
  obtain ⟨events, w, h, run, runs, live, found, happened⟩ :=
    Setup.sample_replays (by decide) (by decide) (by decide) _ replayed
  have two : h.blocks.map (fun b => (b.addr, b.size)) = [(4096, 32), (4128, 984)] ∧
      h.top = 4128 := by
    have all : ((Heap.init 4096 (4096 + 1024 - 8)).replay [] [.alloc 24]).map
        (fun found => (found.1.blocks.map fun b => (b.addr, b.size), found.1.top)) =
          some ([(4096, 32), (4128, 984)], 4128) := by
      decide
    rw [found] at all
    exact Prod.mk.inj (Option.some.inj all)
  have rep := runs.rep
  obtain ⟨b, member, same⟩ : ∃ b ∈ h.blocks, (b.addr, b.size) = (4096, 32) := by
    apply List.mem_map.mp
    rw [two.1]
    exact List.mem_cons_self
  obtain ⟨here, sized⟩ := Prod.mk.inj same
  have notTop : b.addr ≠ h.top := by rw [here, two.2]; decide
  have size : w.store.sizeAt 4096 = 32 := by rw [← here, rep.sizeAt_eq member notTop, sized]
  have stepped : Chunk.nextChunk 4096 w.store = .ok 5120 w.store := by
    have head := rep.tags.head_run member
    rw [here] at head
    simp only [Chunk.nextChunk, Fuelled.bind_run, head, run_pure]
    exact congrArg (fun n => EStateM.Result.ok (add64 4096 (mchunkSize * n)) w.store) size
  have chunk : w.store.IsChunk (Setup.sample 1024 (by decide)).first 4096 :=
    (rep.chunk_iff 4096).mpr ⟨b, member, here⟩
  have top : w.store.gm.top = 4128 := rep.top.trans two.2
  refine ⟨events, w, run, fun value inside => ?_, live, chunk, top, stepped, by rw [size]; rfl,
    fun agree => ?_⟩
  · have asked : some Call.expand ∈ events.map Event.asked := List.mem_map_of_mem inside
    rw [happened] at asked
    simp at asked
  · have next := agree.next 4096 chunk (by rw [top]; decide)
    exact nextChunk_astray (by rw [size]; decide) next

end Reached

end Unimem
