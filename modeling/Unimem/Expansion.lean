import Unimem.Selection
import Unimem.Throwing

/-!
What InitOrExpand adds. The first one makes its block top; each further one only
asks the underlying allocator for a block and drops it. Alloc retries after it
without end where no free chunk is large enough.
-/

namespace Unimem

open ByteMemory Memory MallocState Transitions

/-- Some free chunk is large enough, in the place the entry of Alloc looks at. -/
def Store.Supplies (s : Store) (first bytes : Nat) : Prop :=
  paddedRequest bytes ≤ s.gm.dvsize ∨ paddedRequest bytes < s.gm.topsize ∨
    (bytes ≤ maxSmallRequest ∧
      ∃ p size, (s.freeSpace first).binned p size ∧ paddedRequest bytes ≤ size) ∨
    (maxSmallRequest < bytes ∧ bytes < maxRequest ∧ ∃ j, s.LargeBin (paddedRequest bytes) j)

/-- As `Supplies`; before the first InitOrExpand, the block is to be large enough and
the word behind it writable. -/
def Setup.Supplies (setup : Setup) (s : Store) (bytes : Nat) : Prop :=
  if s.gm.top = 0 then
    paddedRequest bytes < setup.stop - setup.first ∧
      s.mem.accessible (setup.tbase + setup.increasingSize) 8 = true
  else s.Supplies setup.first bytes

/-- The call comes to an end: it returns, or it throws. -/
def Call.Settles (call : Call) (s : Store) : Prop :=
  (∃ value s', call.Returns s value s') ∨ ∃ s', call.Throws s s'

section Entry

variable {first stop limit bytes nb : Nat} {s : Store} {h : Heap}

theorem pickRest_expand : h.pickRest nb = .expand ↔ h.dvsize < nb ∧ h.topsize ≤ nb := by
  rcases pickRest_cases h nb with ⟨fits, pick⟩ | ⟨-, fits, pick⟩ | ⟨small, full, pick⟩
  · simp only [pick, reduceCtorEq, false_iff]
    omega
  · simp only [pick, reduceCtorEq, false_iff]
    omega
  · exact iff_of_true pick ⟨small, full⟩

namespace Represents

theorem rest_expand (rep : Represents first stop limit s h []) :
    h.pickRest nb = .expand ↔ s.gm.dvsize < nb ∧ s.gm.topsize ≤ nb := by
  rw [pickRest_expand, rep.dvsize, rep.topsize_eq]

theorem small_expand (rep : Represents first stop limit s h []) (few : bytes ≤ maxSmallRequest) :
    h.pickSmall (paddedRequest bytes) = .expand ↔
      (s.freeSpace first).Exhausted (paddedRequest bytes) := by
  obtain ⟨least, most, multiple, -⟩ := paddedRequest_small few
  generalize paddedRequest bytes = nb at least most multiple
  have rest : h.pickRest nb = .expand ↔ s.gm.dvsize < nb ∧ s.gm.topsize ≤ nb := rep.rest_expand
  unfold Heap.pickSmall
  constructor
  · intro expands
    split at expands
    · cases expands
    · rename_i own
      split at expands
      · cases expands
      · split at expands
        · cases expands
        · rename_i noSmall
          split at expands
          · cases expands
          · rename_i noTree
            exact ⟨rep.noneFits_of_empty own noSmall noTree, rest.mp expands⟩
  · rintro ⟨none, small, full⟩
    -- each test that would serve contradicts that nothing fits
    have below : ∀ {q size}, (s.freeSpace first).binned q size → ¬ nb ≤ size := fun binned =>
      Nat.not_le_of_lt (none _ _ binned)
    have dvsize : s.gm.dvsize < nb := small
    rw [rep.dvsize] at dvsize
    split
    · rename_i p tail shape
      have member : p ∈ h.small (nb / 8) := by simp [shape]
      exact absurd (show nb ≤ 8 * (nb / 8) by omega)
        (below (rep.binned_cases.mpr (Or.inl ⟨nb / 8, by omega, member, rfl⟩)))
    · rw [if_neg (Nat.not_le_of_lt dvsize)]
      split
      · rename_i i next
        obtain ⟨later, bound, nonempty, -⟩ := nextSmall_some next
        obtain ⟨q, member⟩ := List.exists_mem_of_ne_nil _ nonempty
        exact absurd (show nb ≤ 8 * i by omega)
          (below (rep.binned_cases.mpr (Or.inl ⟨i, bound, member, rfl⟩)))
      · split
        · rename_i i next
          obtain ⟨bound, -, nonempty, -⟩ := nextTree_some next
          obtain ⟨q, member⟩ := List.exists_mem_of_ne_nil _ nonempty
          have large := (rep.tree_sized member).1
          exact absurd (show nb ≤ (h.tree i).size by omega)
            (below (rep.binned_cases.mpr (Or.inr ⟨i, bound, member, rfl⟩)))
        · exact rest.mpr ⟨small, full⟩

theorem large_expand (rep : Represents first stop limit s h []) :
    h.pickLarge nb = .expand ↔
      (∀ j, ¬ s.LargeBin nb j) ∧ s.gm.dvsize < nb ∧ s.gm.topsize ≤ nb := by
  have rest : h.pickRest nb = .expand ↔ s.gm.dvsize < nb ∧ s.gm.topsize ≤ nb := rep.rest_expand
  simp only [rep.largeBin_iff]
  unfold Heap.pickLarge
  cases fit : h.largeFit nb with
  | none => simpa using rest
  | some i =>
      have never : ¬ ∀ j, ¬ some i = some j := fun none => none i rfl
      simp only [never, false_and, iff_false]
      split
      · simp [Heap.pickTree]
      · rw [rest, ← rep.dvsize] at *
        omega

/-- An entry of Alloc falls through exactly where no chunk it looks at is large enough. -/
theorem alloc_expand (rep : Represents first stop limit s h []) :
    h.alloc bytes = .expand ↔ ¬ s.Supplies first bytes := by
  have pick : h.alloc bytes = .expand ↔ h.pick bytes = .expand := by
    constructor
    · exact serve_expand
    · intro same
      rw [Heap.alloc, same]
      rfl
  rw [pick, Heap.pick]
  unfold Store.Supplies
  simp only [not_or, Nat.not_le, Nat.not_lt]
  by_cases few : bytes ≤ maxSmallRequest
  · have many : ¬ maxSmallRequest < bytes := Nat.not_lt_of_le few
    rw [if_pos few, rep.small_expand few, FreeSpace.Exhausted, FreeSpace.NoneFits]
    simp only [few, true_and, many, false_and, not_false_eq_true, and_true, not_exists, not_and,
      Nat.not_le]
    constructor
    · rintro ⟨none, small, full⟩
      exact ⟨small, full, none⟩
    · rintro ⟨small, full, none⟩
      exact ⟨none, small, full⟩
  · have many : maxSmallRequest < bytes := Nat.lt_of_not_le few
    rw [if_neg few]
    simp only [few, false_and, not_false_eq_true, true_and, many]
    by_cases huge : bytes ≥ maxRequest
    · have proper : ¬ bytes < maxRequest := Nat.not_lt_of_le huge
      rw [if_pos huge, rep.rest_expand]
      simp [proper]
    · have proper : bytes < maxRequest := Nat.lt_of_not_le huge
      rw [if_neg huge, rep.large_expand]
      simp only [proper, true_and, not_exists]
      tauto

end Represents

end Entry

section Settling

variable {setup : Setup} {w : World} {bytes : Nat} {s : Store} {h : Heap}

theorem Call.Diverges.unsettled {call : Call} (diverges : call.Diverges s) : ¬ call.Settles s := by
  obtain ⟨never, neverThrows, -⟩ := diverges.only
  rintro (⟨value, s', returned⟩ | ⟨s', threw⟩)
  · exact never value s' returned
  · exact neverThrows s' threw

theorem Runs.settles_iff (runs : Runs setup w h) :
    (Call.alloc bytes).Settles w.store ↔ w.store.Supplies setup.first bytes := by
  have permitted : w.permits (.alloc bytes) := trivial
  have ends := runs.ends permitted
  have expands : h.alloc bytes = .expand ↔ _ := runs.rep.alloc_expand
  rw [Heap.answer] at ends
  cases reply : h.alloc bytes with
  | served value h' =>
      rw [reply] at ends expands
      exact iff_of_true (Or.inl ⟨value, ends⟩) (by simpa using expands)
  | corrupted =>
      rw [reply] at ends expands
      exact iff_of_true (Or.inr ends) (by simpa using expands)
  | expand =>
      rw [reply] at ends
      exact iff_of_false (Call.Diverges.unsettled ends) (expands.mp reply)

/-- With nothing filed only top serves. -/
theorem Unfiled.supplies_iff (unfiled : Unfiled s.gm) (first bytes : Nat) :
    s.Supplies first bytes ↔ paddedRequest bytes < s.gm.topsize := by
  have proper := paddedRequest_proper bytes
  have dvsize := unfiled.dvsize
  constructor
  · rintro (fits | fits | ⟨-, p, size, ⟨-, i, bound, inSmall | inTree⟩, -⟩ | ⟨-, -, j, bin⟩)
    · omega
    · exact fits
    · exact absurd inSmall (unfiled.no_smallbin i)
    · exact absurd inTree (unfiled.no_treebin bound)
    · exact absurd (unfiled.treebins j bin.1) bin.2.1
  · exact fun fits => Or.inr (Or.inl fits)

/-- The first Alloc comes to an end where the one after its InitOrExpand does. -/
theorem alloc_settles_after {s₁ : Store} (clean : Clean s.gm)
    (opened : initOrExpand s = .ok () s₁) :
    (Call.alloc bytes).Settles s ↔ (Call.alloc bytes).Settles s₁ := by
  have later : ∀ fuel, (Call.alloc bytes).run (fuel + 1) s = (Call.alloc bytes).run fuel s₁ :=
    alloc_after clean opened
  constructor
  · rintro (⟨value, s', _ | fuel, ran⟩ | ⟨s', _ | fuel, ran⟩)
    · cases ran
    · exact Or.inl ⟨value, s', fuel, later fuel ▸ ran⟩
    · cases ran
    · exact Or.inr ⟨s', fuel, later fuel ▸ ran⟩
  · rintro (⟨value, s', fuel, ran⟩ | ⟨s', fuel, ran⟩)
    · exact Or.inl ⟨value, s', fuel + 1, (later fuel).trans ran⟩
    · exact Or.inr ⟨s', fuel + 1, (later fuel).trans ran⟩

theorem Fresh.settles_iff (fresh : Fresh setup w) (holds : setup.Holds) (clean : Clean setup.raw) :
    (Call.alloc bytes).Settles w.store ↔
      paddedRequest bytes < setup.stop - setup.first ∧
        w.store.mem.accessible (setup.tbase + setup.increasingSize) 8 = true := by
  have site := fresh.site holds clean.top
  have same : Clean w.store.gm := fresh.gm ▸ clean
  have proper := paddedRequest_proper bytes
  by_cases spill : w.store.mem.accessible (setup.tbase + setup.increasingSize) 8 = true
  · obtain ⟨m', opened, -, -⟩ := initOrExpand_fresh site spill
    rw [alloc_settles_after same opened]
    obtain ⟨-, ⟨-, rep⟩ | ⟨small, narrow⟩⟩ := fresh.opened holds clean opened
    · have runs : Runs setup ⟨_, []⟩ _ := ⟨rep, tracked_init _ _⟩
      rw [runs.settles_iff, Unfiled.supplies_iff]
      · simp [spill, initGm]
      · exact ⟨same.smallmap, same.treemap, same.treebins, same.dv, same.dvsize⟩
    · refine iff_of_false (narrow.alloc_diverges bytes).unsettled ?_
      rintro ⟨fits, -⟩
      omega
  · refine iff_of_false ?_ fun both => spill both.2
    obtain ⟨s', faulted⟩ := initOrExpand_fault site spill
    rintro (⟨value, s'', returned⟩ | ⟨s'', _ | fuel, ran⟩)
    · obtain ⟨s₁, opened, -⟩ := alloc_opens same returned
      rw [faulted] at opened
      cases opened
    · cases ran
    · rw [alloc_clean same, Fuelled.bind_run, faulted] at ran
      cases ran

/-- Over a block that holds the gap and the foot, Alloc comes to an end exactly where some free
chunk, or the first block, is large enough. -/
theorem reached_alloc_settles (zeroed : Zeroed setup.raw) (holds : setup.Holds)
    {events : List Event} (run : setup.Reaches events w) (bytes : Nat) :
    (Call.alloc bytes).Settles w.store ↔ setup.Supplies w.store bytes := by
  have phase := run.phase holds zeroed.toClean
  rw [Setup.Supplies]
  cases phase with
  | fresh fresh =>
      have top : w.store.gm.top = 0 := by rw [fresh.gm, zeroed.top]
      rw [if_pos top]
      exact fresh.settles_iff holds zeroed.toClean
  | narrow _ narrow none =>
      have proper := paddedRequest_proper bytes
      have few := narrow.few
      rw [if_neg narrow.present, narrow.supplies_iff]
      exact iff_of_false (narrow.alloc_diverges bytes).unsettled (by omega)
  | running h runs =>
      rw [if_neg runs.rep.top_ne_zero]
      exact runs.settles_iff

/-- A request larger than the block: Alloc and InitOrExpand call each other for ever. -/
theorem reached_alloc_unsettled : ∃ events w, (Setup.sample 1024 (by decide)).Reaches events w ∧
    events.map Event.asked = [Call.alloc 24].map some ∧
      (Call.alloc 2000).Diverges w.store ∧ ¬ (Call.alloc 2000).Settles w.store := by
  have asked : ((Heap.init 4096 (4096 + 1024 - 8)).replay [] [.alloc 24]).map
      (fun found => (found.2, (found.1.answer (.alloc 2000)).ending)) =
        some ([(4128, 24)], .diverges) := by decide
  obtain ⟨events, w, h, run, -, -, diverges, -, happened⟩ :=
    Setup.sample_asks (by decide) (by decide) (by decide) _ _ asked fun _ => trivial
  exact ⟨events, w, run, happened, diverges, Call.Diverges.unsettled diverges⟩

/-- What is left of that block is enough for a smaller one. -/
theorem reached_alloc_settles_sample : ∃ w : World, w.live = [(4128, 24)] ∧
    ((Call.alloc 900).Settles w.store ↔ (Setup.sample 1024 (by decide)).Supplies w.store 900) := by
  have replayed : ((Heap.init 4096 (4096 + 1024 - 8)).replay [] [.alloc 24]).map Prod.snd =
      some [(4128, 24)] := by decide
  obtain ⟨events, w, h, run, -, live, -⟩ :=
    Setup.sample_replays (by decide) (by decide) (by decide) _ replayed
  have aligned := (Setup.sample_regular (by decide : 1024 ≤ 2 ^ 32) (by decide) (by decide)).aligned
  exact ⟨w, live,
    reached_alloc_settles (Setup.sample_zeroed 1024 (by decide)) aligned.bounds.1 run 900⟩

end Settling

/-! ## What an expansion adds -/

/-- The bytes of the free chunks in bins, of dv and of top. -/
def Store.Capacity (s : Store) (first total : Nat) : Prop :=
  ∃ chunks : Finset (Nat × Nat),
    (∀ p size, (p, size) ∈ chunks ↔ s.FreeChunk first p size ∧ (s.Binned p ∨ p = s.gm.dv)) ∧
      total = chunks.sum Prod.snd + s.gm.topsize

/-- A block of `tsize` bytes has been added to what `s` holds. -/
structure Expanded (s : Store) (first tsize : Nat) (s' : Store) : Prop where
  preserved : ∀ inuse p size, s.ChunkIs first inuse p size → s'.ChunkIs first inuse p size
  grows : ∀ before, s.Capacity first before →
    ∃ after, s'.Capacity first after ∧ before + (tsize - topFootSize) ≤ after
  serves : ∀ bytes, paddedRequest bytes < tsize - topFootSize →
    ∃ fuel mem s'', tryAlloc fuel bytes s' = .ok (some mem) s''

/-- The bytes of the free blocks. -/
def Heap.freeBytes (h : Heap) : Nat :=
  ((h.blocks.filter fun b => !b.cinuse && b.addr != h.top).map
    fun b => (b.addr, b.size)).toFinset.sum Prod.snd + h.topsize

section Adding

variable {setup : Setup} {w : World} {first stop limit bytes : Nat} {s s' : Store} {h : Heap}

theorem Represents.capacity_iff (rep : Represents first stop limit s h []) (total : Nat) :
    s.Capacity first total ↔ total = h.freeBytes := by
  have inside : ∀ p size, s.FreeChunk first p size ∧ (s.Binned p ∨ p = s.gm.dv) ↔
      (p, size) ∈ ((h.blocks.filter fun b => !b.cinuse && b.addr != h.top).map
        fun b => (b.addr, b.size)).toFinset := by
    intro p size
    rw [rep.freeChunk_iff, rep.binned_words, rep.dv]
    simp only [List.mem_toFinset, List.mem_map, List.mem_filter, Bool.and_eq_true,
      Bool.not_eq_eq_eq_not, Bool.not_true, bne_iff_ne, Prod.mk.injEq]
    constructor
    · rintro ⟨⟨notTop, b, member, rfl, rfl, unused⟩, -⟩
      exact ⟨b, ⟨member, unused, notTop⟩, rfl, rfl⟩
    · rintro ⟨b, ⟨member, unused, notTop⟩, rfl, rfl⟩
      have free : FreeAt h.top h.blocks b.addr b.size := ⟨notTop, b, member, rfl, rfl, unused⟩
      rcases rep.filed.cover _ _ free with isDv | binned | loose
      · exact ⟨free, Or.inr isDv⟩
      · exact ⟨free, Or.inl binned⟩
      · cases loose
  constructor
  · rintro ⟨chunks, members, rfl⟩
    rw [Heap.freeBytes, rep.topsize_eq]
    refine congrArg (fun set => Finset.sum set Prod.snd + h.topsize) (Finset.ext ?_)
    rintro ⟨p, size⟩
    rw [members, inside]
  · rintro rfl
    exact ⟨_, fun p size => (inside p size).symm, by rw [Heap.freeBytes, rep.topsize_eq]⟩

/-- The first InitOrExpand adds its block, less the foot. -/
theorem Fresh.expanded (fresh : Fresh setup w) (zeroed : Zeroed setup.raw) (aligned : setup.Aligned)
    (opened : initOrExpand w.store = .ok () s) :
    Expanded w.store setup.first setup.increasingSize s := by
  obtain ⟨holds, wide, -⟩ := aligned.bounds
  have top : w.store.gm.top = 0 := by rw [fresh.gm, zeroed.top]
  have some := aligned.some
  have finish : setup.stop = setup.first + (setup.increasingSize - topFootSize) := by
    have foot : topFootSize = 8 := rfl
    rw [aligned.first_eq, Setup.stop, foot]
    have := aligned.size
    omega
  obtain ⟨-, ⟨-, rep⟩ | ⟨small, -⟩⟩ := fresh.opened holds zeroed.toClean opened
  · have topsize : setup.first + (Heap.init setup.first setup.stop).topsize = setup.stop :=
      rep.layout.topsize_eq rfl rfl
    refine ⟨fun inuse p size chunk => absurd chunk.1 (no_chunk top), fun before capacity => ?_,
      fun bytes fits => ?_⟩
    · obtain ⟨chunks, members, rfl⟩ := capacity
      have none : chunks = ∅ := by
        refine Finset.eq_empty_of_forall_notMem ?_
        rintro ⟨p, size⟩ member
        exact no_chunk top ((members p size).mp member).1.1
      refine ⟨_, (rep.capacity_iff _).mpr rfl, ?_⟩
      rw [none, fresh.gm, zeroed.topsizeZero, Heap.freeBytes]
      simp only [Finset.sum_empty]
      omega
    · have refines := rep.tryAlloc_refines bytes 0
      have supplies : s.Supplies setup.first bytes := by
        refine Or.inr (Or.inl ?_)
        rw [rep.topsize_eq]
        omega
      cases reply : (Heap.init setup.first setup.stop).alloc bytes with
      | served mem h' =>
          rw [reply] at refines
          obtain ⟨p, k, -, -, -, s'', ran, -⟩ := refines
          exact ⟨2, mem, s'', ran⟩
      | corrupted =>
          obtain ⟨-, -, j, fit, -⟩ := rep.alloc_refused.mp reply
          exact absurd rfl (largeFit_some fit).2
      | expand => exact absurd supplies (rep.alloc_expand.mp reply)
  · rw [Setup.Wide] at wide
    omega

/-- Every later one adds nothing. -/
theorem Runs.not_expanded (runs : Runs setup w h) {tsize : Nat} (large : topFootSize < tsize)
    (opened : initOrExpand w.store = .ok () s) : ¬ Expanded w.store setup.first tsize s := by
  intro expanded
  rw [initOrExpand_again runs.rep.top_ne_zero] at opened
  obtain ⟨-, rfl⟩ := EStateM.Result.ok.inj opened
  obtain ⟨after, capacity, more⟩ := expanded.grows _ ((runs.rep.capacity_iff _).mpr rfl)
  have same := ((runs.rep.recount _).capacity_iff _).mp capacity
  omega

/-- InitOrExpand adds a block exactly where it is the first to do so, and the word
behind the block is writable. -/
theorem reached_expanded (zeroed : Zeroed setup.raw) (regular : setup.Regular)
    {events : List Event} (run : setup.Reaches events w) :
    (∃ s', Call.expand.Returns w.store 0 s' ∧
      Expanded w.store setup.first setup.increasingSize s') ↔
    w.store.gm.top = 0 ∧
      w.store.mem.accessible (setup.tbase + setup.increasingSize) 8 = true := by
  have aligned := regular.aligned
  have foot : topFootSize = 8 := rfl
  have large : topFootSize < setup.increasingSize := by
    have := regular.least
    omega
  rcases run.either zeroed aligned with fresh | ⟨h, runs⟩
  · have site := fresh.site aligned.bounds.1 zeroed.top
    constructor
    · rintro ⟨s', returned, -⟩
      refine ⟨by rw [fresh.gm, zeroed.top], ?_⟩
      by_contra spill
      obtain ⟨s'', faulted⟩ := initOrExpand_fault site spill
      rw [(expand_returns returned).1] at faulted
      cases faulted
    · rintro ⟨-, spill⟩
      obtain ⟨m', opened, -, -⟩ := initOrExpand_fresh site spill
      exact ⟨_, expand_opens opened, fresh.expanded zeroed aligned opened⟩
  · constructor
    · rintro ⟨s', returned, expanded⟩
      exact absurd expanded (runs.not_expanded large (expand_returns returned).1)
    · rintro ⟨top, -⟩
      exact absurd top runs.rep.top_ne_zero

/-- A second InitOrExpand, after one Alloc, gets a fresh block and drops it. -/
theorem reached_not_expanded : ∃ events w, (Setup.sample 1024 (by decide)).Reaches events w ∧
    events.map Event.asked = [Call.alloc 24].map some ∧
      ∃ s', Call.expand.Returns w.store 0 s' ∧ ¬ Expanded w.store 4096 1024 s' := by
  have replayed : ((Heap.init 4096 (4096 + 1024 - 8)).replay [] [.alloc 24]).map Prod.snd =
      some [(4128, 24)] := by decide
  obtain ⟨events, w, h, run, runs, live, -, happened⟩ :=
    Setup.sample_replays (by decide) (by decide) (by decide) _ replayed
  have aligned := (Setup.sample_regular (by decide : 1024 ≤ 2 ^ 32) (by decide) (by decide)).aligned
  have first : (Setup.sample 1024 (by decide)).first = 4096 := aligned.first_eq
  have again := initOrExpand_again runs.rep.top_ne_zero
  have never := runs.not_expanded (show topFootSize < 1024 by decide) again
  rw [first] at never
  exact ⟨events, w, run, happened, _, expand_opens again, never⟩

/-- At the start both sides hold. -/
theorem reached_expanded_sample :
    ∃ s', Call.expand.Returns (Setup.sample 1024 (by decide)).start.store 0 s' ∧
      Expanded (Setup.sample 1024 (by decide)).start.store
        (Setup.sample 1024 (by decide)).first 1024 s' :=
  (reached_expanded (Setup.sample_zeroed 1024 (by decide))
    (Setup.sample_regular (by decide) (by decide) (by decide)) Run.nil).mpr ⟨rfl, rfl⟩

end Adding

end Unimem
