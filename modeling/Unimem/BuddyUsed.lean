import Unimem.BuddyClients

/-!
What `Used` says. `Alloc` counts the rounded size of a request, `Free` the total
size of the block, which also has the slack of a block that was not split. Where
chunks are cut at multiples of more than a descriptor there is no slack, and the
count is what the clients hold.
-/

namespace Buddy

open Tiling Coalescing OrderedSets WordArith Transitions

/-- What a live part counts for; a part of its own chunk is not counted. -/
def Part.counted (max : Nat) (part : Part) : Nat := if part.total ≤ max then part.total else 0

namespace Heap

variable {h : Heap} {min max wanted start p : Nat} {reply : Nat × Nat} {part : Part}

/-- All parts are cut at multiples of the minimal size. -/
def Grained (min : Nat) (h : Heap) : Prop := ∀ part ∈ h.parts, min ∣ part.total

theorem Grained.onParts {change : List Part → List Part} {used idle : Nat}
    (grained : h.Grained min)
    (kept : ∀ parts : List Part, (∀ part ∈ parts, min ∣ part.total) →
      ∀ part ∈ change parts, min ∣ part.total) : Grained min ⟨h.onParts change, used, idle⟩ := by
  intro part member
  obtain ⟨region, inRegions, inside⟩ := mem_parts.mp member
  obtain ⟨old, inOld, rfl⟩ := List.mem_map.mp inRegions
  exact kept old.parts (fun next there => grained next (mem_parts.mpr ⟨old, inOld, there⟩))
    part inside

theorem Grained.carve (grained : h.Grained min) (cut : min ∣ wanted) :
    (h.carve start wanted).Grained min := by
  refine grained.onParts fun parts all part member => ?_
  obtain ⟨old, inOld, inside⟩ := List.mem_flatMap.mp member
  have divides := all old inOld
  split at inside
  · unfold Part.cut at inside
    split at inside
    · rw [List.mem_singleton.mp inside]
      exact divides
    · rcases List.mem_cons.mp inside with rfl | rest
      · exact cut
      · rw [List.mem_singleton.mp rest]
        exact Nat.dvd_sub divides cut
  · rw [List.mem_singleton.mp inside]
    exact divides

theorem Grained.release (grained : h.Grained min) : (h.release start).Grained min := by
  refine grained.onParts fun parts all => all_coalesce (fun b c => Nat.dvd_add) fun part member => ?_
  obtain ⟨old, inOld, rfl⟩ := List.mem_map.mp member
  split
  · exact all old inOld
  · exact all old inOld

theorem Grained.adopt {base size index : Nat} {huge : Bool} (grained : h.Grained min)
    (cut : min ∣ size) : (h.adopt (Region.fresh base size index huge)).Grained min := by
  intro part member
  rcases List.mem_cons.mp member with rfl | old
  · exact cut
  · exact grained part old

theorem Grained.alloc (grained : h.Grained min) (chunks : min ∣ max) (cut : min ∣ wanted) :
    (h.alloc max wanted reply).2.Grained min := by
  unfold Heap.alloc
  split
  · split
    · exact grained
    · exact grained.adopt cut
  · split
    · exact grained.carve cut
    · split
      · exact grained
      · have refilled : (h.refill reply max).Grained min := grained.adopt chunks
        exact refilled.carve cut

theorem Grained.free (grained : h.Grained min) : (h.free p).Grained min := by
  unfold Heap.free
  split
  · intro part member
    obtain ⟨region, kept, inside⟩ := mem_parts.mp member
    exact grained part (mem_parts.mpr ⟨region, (List.mem_filter.mp kept).1, inside⟩)
  · exact grained.release

theorem totalUsed_alloc (there : (h.alloc max wanted reply).1 ≠ 0) :
    (h.alloc max wanted reply).2.totalUsed =
      if wanted > max then h.totalUsed else add64 h.totalUsed wanted := by
  unfold Heap.alloc at there ⊢
  split
  case isTrue large =>
    rw [if_pos large] at there
    split
    case isTrue null => exact absurd (by rw [if_pos null]) there
    case isFalse => rfl
  case isFalse small =>
    rw [if_neg small] at there
    split
    case h_1 => rfl
    case h_2 none =>
      split
      case isTrue null => exact absurd (by simp [none, null]) there
      case isFalse => rfl

/-- The parts are multiples of the minimal size, and the live ones are counted. -/
structure Counted (min max : Nat) (h : Heap) : Prop where
  grained : h.Grained min
  used : h.totalUsed % 2 ^ 64 = (h.liveParts.map (Part.counted max)).sum % 2 ^ 64

/-- Of two multiples of more than a descriptor one is not slightly larger. -/
theorem exact_of_grained {total : Nat} (wide : sizeofDesc < min) (divides : min ∣ total)
    (cut : min ∣ wanted) (large : wanted ≤ total) (most : total ≤ wanted + sizeofDesc) :
    total = wanted := by
  have rest := Nat.eq_zero_of_dvd_of_lt (Nat.dvd_sub divides cut) (by omega)
  omega

theorem Counted.alloc (counted : h.Counted min max) (wide : sizeofDesc < min)
    (chunks : min ∣ max) (cut : min ∣ wanted) (wellFormed : h.WellFormed max)
    (least : sizeofDesc ≤ wanted)
    (fresh : h.Asks max wanted → reply.1 ≠ 0 → h.Fresh reply (request max wanted)) :
    (h.alloc max wanted reply).2.Counted min max := by
  have grained := @Grained.alloc _ _ _ _ reply counted.grained chunks cut
  refine ⟨grained, ?_⟩
  rcases liveParts_alloc wellFormed least fresh with ⟨-, same⟩ | ⟨new, value, -, large, most, parts⟩
  · rw [same]
    exact counted.used
  · have inLive := parts.mem_iff.mpr List.mem_cons_self
    have size := exact_of_grained wide (grained new (mem_liveParts.mp inLive).1) cut large most
    have used := counted.used
    rw [totalUsed_alloc (by rw [value]; unfold sizeofDesc; omega), (parts.map _).sum_eq,
      List.map_cons, List.sum_cons]
    generalize (h.liveParts.map (Part.counted max)).sum = sum at used ⊢
    unfold Part.counted
    rw [size]
    unfold add64
    split <;> split <;> omega

/-- A live part and the others. -/
theorem liveParts_perm (laid : h.Laid) (member : part ∈ h.liveParts) :
    h.liveParts.Perm (part :: h.liveParts.filter fun other => other.start ≠ part.start) := by
  obtain ⟨below, above, shape⟩ := List.append_of_mem member
  have distinct := laid.pointers_nodup
  rw [shape, List.map_append, List.map_cons, List.nodup_middle, List.nodup_cons,
    ← List.map_append] at distinct
  have others : (below ++ above).filter (fun other => other.start ≠ part.start) =
      below ++ above := by
    refine List.filter_eq_self.mpr fun other inOthers => ?_
    have apart : other.start ≠ part.start := fun same =>
      distinct.1 (List.mem_map.mpr ⟨other, inOthers, by rw [same]⟩)
    simpa using apart
  rw [List.filter_append] at others
  rw [shape, List.filter_append, List.filter_cons_of_neg (by simp), others]
  exact List.perm_middle

theorem Counted.free (counted : h.Counted min max) (wellFormed : h.WellFormed max)
    (member : part ∈ h.liveParts) : (h.free (part.start + sizeofDesc)).Counted min max := by
  refine ⟨counted.grained.free, ?_⟩
  have laid := wellFormed.toLaid
  have used := counted.used
  rw [((liveParts_perm laid member).map _).sum_eq, List.map_cons, List.sum_cons] at used
  rw [liveParts_free wellFormed member]
  generalize ((h.liveParts.filter fun other => other.start ≠ part.start).map
    (Part.counted max)).sum = sum at used ⊢
  obtain ⟨inParts, -⟩ := mem_liveParts.mp member
  obtain ⟨region, inHeap, inside⟩ := mem_parts.mp inParts
  obtain ⟨left, right, below, above, place⟩ := exists_place inHeap inside
  have sized := wellFormed.sized region inHeap
  have bounds := (laid.laid region inHeap).bounds inside
  rw [Heap.free, Nat.add_sub_cancel, place.isHuge laid]
  unfold Part.stop Region.stop at bounds
  cases huge : region.huge with
  | false =>
      rw [huge, if_neg Bool.false_ne_true] at sized
      have whole : part.counted max = part.total := if_pos (by omega)
      rw [if_neg Bool.false_ne_true]
      change sub64 h.totalUsed (h.totalAt part.start) % _ = _
      rw [laid.totalAt inParts]
      rw [whole] at used
      unfold sub64
      omega
  | true =>
      rw [huge, if_pos rfl] at sized
      have whole := (laid.laid region inHeap).whole huge
      rw [whole] at inside
      rw [List.mem_singleton.mp inside, Part.counted, if_neg (Nat.not_le.mpr sized),
        Nat.zero_add] at used
      rw [if_pos rfl]
      exact used

end Heap

section Rounding

variable {n min total : Nat}

theorem align_least (positive : min ≠ 0) (divides : min ∣ total) (room : n ≤ total)
    (small : total < 2 ^ 64) : min ∣ align n min ∧ align n min ≤ total := by
  obtain ⟨k, rfl⟩ := divides
  have whole := Nat.div_add_mod n min
  have below := Nat.mod_lt n (Nat.pos_of_ne_zero positive)
  unfold align
  simp only
  split
  case isTrue exact => exact ⟨Nat.dvd_of_mod_eq_zero exact, room⟩
  case isFalse rest =>
    have next : n / min + 1 ≤ k := by
      by_contra beyond
      have lower := Nat.mul_le_mul_left min (show k ≤ n / min by omega)
      omega
    have upper := Nat.mul_le_mul_left min next
    have same : n + (min - n % min) = min * (n / min + 1) := by
      rw [Nat.mul_succ]
      omega
    rw [add64_of_lt (by omega), same]
    exact ⟨Nat.dvd_mul_right _ _, upper⟩

/-- A rounded size that did not wrap is a multiple. -/
theorem align_grained (positive : min ≠ 0) (word : min < 2 ^ 64) (covers : n ≤ align n min) :
    min ∣ align n min := by
  have whole := Nat.div_add_mod n min
  have below := Nat.mod_lt n (Nat.pos_of_ne_zero positive)
  unfold align at covers ⊢
  simp only at covers ⊢
  split
  case isTrue exact => exact Nat.dvd_of_mod_eq_zero exact
  case isFalse rest =>
    rw [if_neg rest] at covers
    have fits : n + (min - n % min) < 2 ^ 64 := by
      unfold add64 at covers
      omega
    refine ⟨n / min + 1, ?_⟩
    rw [add64_of_lt fits, Nat.mul_succ]
    omega

end Rounding

variable [StdHash] {setup : Setup} {w w' : World} {h : Heap} {event : Event} {events : List Event}

theorem Runs.counted_step (runs : Runs setup w h) (positive : setup.minChunkSize ≠ 0)
    (word : setup.minChunkSize < 2 ^ 64) (wide : sizeofDesc < setup.minChunkSize)
    (chunks : setup.minChunkSize ∣ setup.maxChunkSize)
    (counted : h.Counted setup.minChunkSize setup.maxChunkSize) (step : Step w event w') :
    ∃ h', Runs setup w' h' ∧ h'.Counted setup.minChunkSize setup.maxChunkSize := by
  cases step with
  | @call call value s' permitted ran =>
      have wellFormed := runs.represents.wellFormed
      obtain ⟨s₁, ran₁, tracks, frame⟩ :=
        runs.toTracks.call_run (runs.min ▸ positive) permitted
      obtain ⟨rfl, rfl⟩ := EStateM.Result.ok.inj (ran.symm.trans ran₁)
      refine ⟨_, runs.after tracks frame, ?_⟩
      rw [← runs.min] at positive word wide
      rw [← runs.min, ← runs.max] at chunks counted ⊢
      cases call with
      | alloc bytes =>
          obtain ⟨covers, supplied⟩ := permitted
          have least : add64 bytes sizeofDesc ≤ w.allocator.wanted bytes :=
            Nat.le_trans (Nat.mod_le _ _) covers
          exact counted.alloc wide chunks (align_grained positive word least) wellFormed
            covers.least (runs.represents.fresh supplied)
      | free p =>
          obtain ⟨bytes, member⟩ := permitted
          obtain ⟨part, inLive, rfl⟩ := runs.toTracks.exists_live member
          exact counted.free wellFormed inLive
  | poke v writable => exact ⟨h, runs.poke v writable, counted⟩

/-- Where there is no slack, a block is as large as its rounded request. -/
theorem Runs.block_exact (runs : Runs setup w h) (positive : setup.minChunkSize ≠ 0)
    (wide : sizeofDesc < setup.minChunkSize) (grained : h.Grained setup.minChunkSize)
    {p bytes : Nat} (member : (p, bytes) ∈ w.live) :
    h.totalAt (p - sizeofDesc) = w.allocator.wanted bytes := by
  have laid := runs.represents.wellFormed.toLaid
  obtain ⟨_, region, _, _, part, _, place, -, rfl, room, most⟩ := runs.toTracks.block member
  have inHeap := laid.laid region place.mem_region
  have small := (inHeap.start_lt place.mem_part).2.1
  have divides := grained part place.in_parts
  rw [Nat.add_sub_cancel, laid.totalAt place.in_parts]
  rw [← runs.min] at positive wide divides
  unfold Part.stop at small
  have exact := add64_of_lt (show bytes + sizeofDesc < 2 ^ 64 by omega)
  obtain ⟨cut, large⟩ := align_least positive divides room (by omega)
  rw [← exact] at cut large
  exact Heap.exact_of_grained wide divides cut large most

/-- In every state that requests which do not wrap reach, `Used` is what the clients hold,
each request with its descriptor and rounded up, where chunks are cut at multiples of more
than a descriptor. -/
theorem reached_used (positive : setup.minChunkSize ≠ 0) (word : setup.minChunkSize < 2 ^ 64)
    (wide : sizeofDesc < setup.minChunkSize) (chunks : setup.minChunkSize ∣ setup.maxChunkSize)
    (run : setup.Reaches events w) : w.allocator.totalUsed % 2 ^ 64 =
      (w.live.map fun client =>
        if setup.start.allocator.wanted client.2 ≤ setup.maxChunkSize then
          setup.start.allocator.wanted client.2
        else 0).sum % 2 ^ 64 := by
  obtain ⟨h, runs, grained, used⟩ := run.invariant
    (fun state => ∃ h, Runs setup state h ∧ h.Counted setup.minChunkSize setup.maxChunkSize)
    ⟨Heap.empty, setup.start_runs, ⟨fun _ member => (List.not_mem_nil member).elim, rfl⟩⟩
    fun state event after earlier step => by
      obtain ⟨h, runs, counted⟩ := earlier
      exact runs.counted_step positive word wide chunks counted step
  have laid := runs.represents.wellFormed.toLaid
  -- both sums go over the pointers, in another order
  obtain ⟨count, counts⟩ : ∃ count : Nat → Nat, ∀ p, count p =
    if h.totalAt (p - sizeofDesc) ≤ setup.maxChunkSize then h.totalAt (p - sizeofDesc) else 0 :=
    ⟨_, fun _ => rfl⟩
  have clients : (w.live.map Prod.fst).map count = w.live.map fun client =>
      if setup.start.allocator.wanted client.2 ≤ setup.maxChunkSize then
        setup.start.allocator.wanted client.2
      else 0 := by
    rw [List.map_map]
    refine List.map_congr_left fun client member => ?_
    have rounds := Tracks.wanted_congr (show _ = setup.start.allocator.minChunkSize from runs.min)
      client.2
    rw [Function.comp_apply, counts, runs.block_exact positive wide grained member, rounds]
  have parts : (h.liveParts.map fun part => part.start + sizeofDesc).map count =
      h.liveParts.map (Part.counted setup.maxChunkSize) := by
    rw [List.map_map]
    refine List.map_congr_left fun part member => ?_
    rw [Function.comp_apply, counts, Nat.add_sub_cancel,
      laid.totalAt (Heap.mem_liveParts.mp member).1]
    rfl
  rw [runs.represents.used, used, ← clients, ← parts, (runs.pointers.map count).sum_eq]

omit [StdHash] in
/-- Requests for 100 and 200 bytes count 256 and 384 where the minimal size is 128. -/
theorem reached_used_sample : ∃ w, @Setup.Reaches plainHash
    { Setup.sample with minChunkSize := 128 }
    [.call (.alloc 100) 4160, .call (.alloc 200) 4416, .call (.alloc 10) 4800,
      .call (.free 4800) 0] w ∧
    w.allocator.totalUsed % 2 ^ 64 = 640 := by
  obtain ⟨w, run, live, -⟩ := @Setup.plays { Setup.sample with minChunkSize := 128 }
    [.alloc 100, .alloc 200, .alloc 10, .free 4800] [.call (.alloc 100) 4160,
      .call (.alloc 200) 4416, .call (.alloc 10) 4800, .call (.free 4800) 0]
    [(4416, 200), (4160, 100)] (by decide) (by decide +kernel)
  have used := @reached_used plainHash _ _ _ (by decide) (by decide) (by decide) (by decide) run
  rw [live] at used
  exact ⟨w, run, used⟩

end Buddy
