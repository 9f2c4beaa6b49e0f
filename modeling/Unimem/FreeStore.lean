import Unimem.Chunks

/-!
The free store of every world a run reaches: each free chunk is filed once, in
the bin of its size, and the bitmaps name the bins that have members. What is
free, and what is top, depends on the live chunks only.
-/

namespace Unimem

open Tiling LinkedRing ByteMemory Memory MallocState

/-- The index of the free chunks is exact. -/
structure FreeStore (s : Store) (first : Nat) : Prop where
  filed : ∀ p, s.IsChunk first p → p = s.gm.top ∨ s.cinuseAt p = false →
    (p = s.gm.top ∧ p ≠ s.gm.dv ∧ ¬ s.Binned p) ∨ (p ≠ s.gm.top ∧ p = s.gm.dv ∧ ¬ s.Binned p) ∨
      (p ≠ s.gm.top ∧ p ≠ s.gm.dv ∧ s.Binned p)
  binned : ∀ p, s.Binned p → ∃ size, s.FreeChunk first p size ∧
    (∀ i < 32, s.InSmallbin i p ↔ size < 256 ∧ i = size / 8) ∧
      ∀ i < 32, s.InTreebin i p ↔ 256 ≤ size ∧ i = computeTreeIndex size
  smallmap : ∀ i < 32, s.gm.smallmap.testBit i = true ↔ ∃ p, s.InSmallbin i p
  unmarked : ∀ p size, s.FreeChunk first p size → p ≠ s.gm.dv → size < 256 →
    s.gm.smallmap.testBit (size / 8) = true
  treemap : ∀ i < 32, s.gm.treemap.testBit i = true ↔ ∃ p, s.InTreebin i p
  ring : ∀ i < 32, s.gm.smallmap.testBit i = true → ∃ members, members ≠ [] ∧
    (s.gm.smallbinAt i :: members).Nodup ∧
      Ring (fdAt s.mem) (bkAt s.mem) (s.gm.smallbinAt i) members ∧
        ∀ p, p ∈ members ↔ s.InSmallbin i p
  dvNone : s.gm.dv = 0 ↔ s.gm.dvsize = 0
  dv : s.gm.dv ≠ 0 → s.FreeChunk first s.gm.dv s.gm.dvsize ∧ ¬ s.Binned s.gm.dv

section Unopened

variable {s : Store} {first p : Nat}

theorem no_chunk (top : s.gm.top = 0) : ¬ s.IsChunk first p := by
  intro chunk
  induction chunk with
  | first some => exact some top
  | next _ _ ih => exact ih

theorem Unfiled.no_smallbin (unfiled : Unfiled s.gm) (i : Nat) : ¬ s.InSmallbin i p := by
  rintro ⟨marked, -⟩
  rw [unfiled.smallmap, Nat.zero_testBit] at marked
  cases marked

theorem Unfiled.no_treebin (unfiled : Unfiled s.gm) {i : Nat} (bound : i < 32) :
    ¬ s.InTreebin i p := by
  intro inside
  induction inside with
  | root some => exact some (unfiled.treebins i bound)
  | child _ _ _ _ ih => exact ih
  | same _ ih => exact ih

theorem Unfiled.freeStore (unfiled : Unfiled s.gm) (top : s.gm.top = 0) : FreeStore s first where
  filed _ chunk := absurd chunk (no_chunk top)
  binned := by
    rintro p ⟨i, bound, inSmall | inTree⟩
    · exact absurd inSmall (unfiled.no_smallbin i)
    · exact absurd inTree (unfiled.no_treebin bound)
  smallmap i _ := by
    rw [unfiled.smallmap, Nat.zero_testBit]
    exact ⟨fun never => (Bool.false_ne_true never).elim,
      fun ⟨_, inside⟩ => absurd inside (unfiled.no_smallbin i)⟩
  unmarked _ _ free := absurd free.1 (no_chunk top)
  treemap i bound := by
    rw [unfiled.treemap, Nat.zero_testBit]
    exact ⟨fun never => (Bool.false_ne_true never).elim,
      fun ⟨_, inside⟩ => absurd inside (unfiled.no_treebin bound)⟩
  ring i _ marked := by
    rw [unfiled.smallmap, Nat.zero_testBit] at marked
    cases marked
  dvNone := by rw [unfiled.dv, unfiled.dvsize]
  dv some := absurd unfiled.dv some

end Unopened

namespace Represents

variable {first stop limit p size : Nat} {s : Store} {h : Heap}

/-- A binned block is in the bin of its size and in no other. -/
theorem binned_place (rep : Represents first stop limit s h []) (binned : s.Binned p) :
    ∃ size, FreeAt h.top h.blocks p size ∧
      (∀ i < 32, s.InSmallbin i p ↔ size < 256 ∧ i = size / 8) ∧
        ∀ i < 32, s.InTreebin i p ↔ 256 ≤ size ∧ i = computeTreeIndex size := by
  have small : ∀ i, p ∈ h.small i → FreeAt h.top h.blocks p (8 * i) ∧ i < 32 := fun i member =>
    (rep.small.member i p member).symm
  have tree : ∀ i, p ∈ (h.tree i).nodes → FreeAt h.top h.blocks p (h.tree i).size ∧
      256 ≤ (h.tree i).size ∧ computeTreeIndex (h.tree i).size = i := fun i member =>
    ⟨(rep.tree.bin i).member p member, (rep.tree.bin i).sized (List.ne_nil_of_mem member)⟩
  have unique : ∀ {size other}, FreeAt h.top h.blocks p size → FreeAt h.top h.blocks p other →
      size = other := FreeAt.unique rep.layout
  obtain ⟨i, inSmall | inTree⟩ := (rep.binned_words p).mp binned
  · obtain ⟨free, bound⟩ := small i inSmall
    refine ⟨8 * i, free, fun j inRange => ?_, fun j inRange => ?_⟩
    · rw [rep.smallbin_iff inRange]
      constructor
      · intro inBin
        have := unique free (small j inBin).1
        omega
      · rintro ⟨-, rfl⟩
        rwa [show 8 * i / 8 = i by omega]
    · rw [rep.treebin_iff inRange]
      constructor
      · intro inBin
        obtain ⟨free', large, -⟩ := tree j inBin
        have := unique free free'
        omega
      · rintro ⟨large, -⟩
        omega
  · obtain ⟨free, large, index⟩ := tree i inTree
    refine ⟨(h.tree i).size, free, fun j inRange => ?_, fun j inRange => ?_⟩
    · rw [rep.smallbin_iff inRange]
      constructor
      · intro inBin
        have := unique free (small j inBin).1
        omega
      · rintro ⟨few, -⟩
        omega
    · rw [rep.treebin_iff inRange]
      constructor
      · intro inBin
        obtain ⟨free', large', index'⟩ := tree j inBin
        refine ⟨large, ?_⟩
        rw [unique free free', index']
      · rintro ⟨-, rfl⟩
        rwa [index]

/-- The bins hold the free blocks other than dv, each in the bin of its size. -/
theorem bins_free (rep : Represents first stop limit s h []) {i : Nat} (bound : i < 32) :
    (s.InSmallbin i p ↔
      ∃ size, FreeAt h.top h.blocks p size ∧ p ≠ h.dv ∧ size < 256 ∧ i = size / 8) ∧
      (s.InTreebin i p ↔
        ∃ size, FreeAt h.top h.blocks p size ∧ p ≠ h.dv ∧ 256 ≤ size ∧
          i = computeTreeIndex size) := by
  have notDv : s.Binned p → p ≠ h.dv := by
    rintro binned rfl
    exact rep.filed.dvOut.1 ((rep.binned_words _).mp binned)
  have filed : ∀ {size}, FreeAt h.top h.blocks p size → p ≠ h.dv → s.Binned p := by
    intro size free away
    rcases rep.filed.cover p size free with isDv | binned | loose
    · exact absurd isDv away
    · exact (rep.binned_words p).mpr binned
    · cases loose
  constructor
  · constructor
    · intro inside
      have binned : s.Binned p := ⟨i, bound, Or.inl inside⟩
      obtain ⟨size, free, small, -⟩ := rep.binned_place binned
      exact ⟨size, free, notDv binned, (small i bound).mp inside⟩
    · rintro ⟨size, free, away, place⟩
      obtain ⟨size', free', small, -⟩ := rep.binned_place (filed free away)
      obtain rfl := FreeAt.unique rep.layout free free'
      exact (small i bound).mpr place
  · constructor
    · intro inside
      have binned : s.Binned p := ⟨i, bound, Or.inr inside⟩
      obtain ⟨size, free, -, tree⟩ := rep.binned_place binned
      exact ⟨size, free, notDv binned, (tree i bound).mp inside⟩
    · rintro ⟨size, free, away, place⟩
      obtain ⟨size', free', -, tree⟩ := rep.binned_place (filed free away)
      obtain rfl := FreeAt.unique rep.layout free free'
      exact (tree i bound).mpr place

theorem freeStore (rep : Represents first stop limit s h []) : FreeStore s first := by
  have layout := rep.layout
  have filed := rep.filed
  have dvBinned : ¬ s.Binned s.gm.dv := by
    rw [rep.dv, rep.binned_words]
    exact filed.dvOut.1
  refine
    { filed := fun p chunk free => ?_
      binned := fun p binned => ?_
      smallmap := fun i bound => ?_
      unmarked := fun p size free notDv few => ?_
      treemap := fun i bound => ?_
      ring := fun i bound marked => ?_
      dvNone := by rw [rep.dv, rep.dvsize]; exact filed.dvNone
      dv := fun some => ?_ }
  -- a free chunk is top, dv or binned, one of the three only
  · have positive : p ≠ 0 := by
      obtain ⟨b, member, rfl⟩ := (rep.chunk_iff p).mp chunk
      have := (layout.bounds member).1
      have := layout.positive
      omega
    have dvTop : p = s.gm.dv → p ≠ s.gm.top := by
      rintro isDv isTop
      rw [rep.dv] at isDv
      rw [rep.top] at isTop
      exact (filed.dvFree (isDv ▸ positive)).1 (isDv.symm.trans isTop)
    have binnedTop : s.Binned p → p ≠ s.gm.top := by
      intro binned
      obtain ⟨size, free, -⟩ := rep.binned_place binned
      rw [rep.top]
      exact free.1
    by_cases isTop : p = s.gm.top
    · exact Or.inl ⟨isTop, fun isDv => dvTop isDv isTop, fun binned => binnedTop binned isTop⟩
    · by_cases isDv : p = s.gm.dv
      · exact Or.inr (Or.inl ⟨isTop, isDv, isDv ▸ dvBinned⟩)
      · have unused : s.FreeChunk first p (s.sizeAt p) :=
          ⟨chunk, isTop, rfl, free.resolve_left isTop⟩
        rcases filed.cover p _ ((rep.freeChunk_iff p _).mp unused) with same | binned | loose
        · exact absurd (same.trans rep.dv.symm) isDv
        · exact Or.inr (Or.inr ⟨isTop, isDv, (rep.binned_words p).mpr binned⟩)
        · cases loose
  · obtain ⟨size, free, places⟩ := rep.binned_place binned
    exact ⟨size, (rep.freeChunk_iff p size).mpr free, places⟩
  · rw [rep.small.marked i bound]
    simp only [rep.smallbin_iff bound]
    exact ⟨List.exists_mem_of_ne_nil _, fun ⟨_, member⟩ => List.ne_nil_of_mem member⟩
  · have freeAt := (rep.freeChunk_iff p size).mp free
    rcases filed.cover p size freeAt with same | binned | loose
    · exact absurd (same.trans rep.dv.symm) notDv
    · obtain ⟨size', free', small, -⟩ := rep.binned_place ((rep.binned_words p).mpr binned)
      rw [FreeAt.unique layout freeAt free'] at few ⊢
      exact ((small _ (by omega)).mpr ⟨few, rfl⟩).1
    · cases loose
  · rw [rep.tree.marked i bound]
    simp only [rep.treebin_iff bound]
    exact ⟨List.exists_mem_of_ne_nil _, fun ⟨_, member⟩ => List.ne_nil_of_mem member⟩
  · have nonempty := (rep.small.marked i bound).mp marked
    exact ⟨h.small i, nonempty, rep.small.ring_nodup layout rep.placed bound,
      rep.small.ring i nonempty, fun p => (rep.smallbin_iff bound p).symm⟩
  · refine ⟨?_, dvBinned⟩
    rw [rep.dv] at some
    rw [rep.dv, rep.dvsize, rep.freeChunk_iff]
    exact filed.dvFree some

end Represents

section Reached

variable {setup : Setup} {w : World}

/-- After every run, the index of the free chunks is exact. -/
theorem reached_freeStore (zeroed : Zeroed setup.raw) (regular : setup.Regular)
    {events : List Event} (run : setup.Reaches events w) : FreeStore w.store setup.first := by
  rcases run.either zeroed regular.aligned with fresh | ⟨h, runs⟩
  · have clean := fresh.gm.symm ▸ zeroed.toClean
    exact clean.toUnfiled.freeStore clean.top
  · exact runs.rep.freeStore

/-- A small and a large chunk in their bins, and a dv in front of them. -/
theorem reached_freeStore_sample : ∃ w : World,
    w.live = [(4192, 40), (4656, 8), (4304, 8), (4160, 8)] ∧ FreeStore w.store 4096 := by
  have replayed : ((Heap.init 4096 (4096 + 1024 - 8)).replay []
      [.alloc 24, .alloc 8, .alloc 100, .alloc 8, .alloc 300, .alloc 8, .free 4128, .free 4192,
        .free 4336, .alloc 40]).map Prod.snd =
      some [(4192, 40), (4656, 8), (4304, 8), (4160, 8)] := by decide
  obtain ⟨events, w, h, run, -, live, -, -⟩ :=
    Setup.sample_replays (by decide) (by decide) (by decide) _ replayed
  have regular := Setup.sample_regular (by decide : 1024 ≤ 2 ^ 32) (by decide) (by decide)
  have first : (Setup.sample 1024 (by decide)).first = 4096 := regular.aligned.first_eq
  refine ⟨w, live, ?_⟩
  rw [← first]
  exact reached_freeStore (Setup.sample_zeroed 1024 (by decide)) regular run

end Reached

/-! ## What is live decides what is free -/

/-- A live allocation's chunk and its size. -/
def World.LiveChunk (w : World) (p size : Nat) : Prop :=
  ∃ mem bytes, (mem, bytes) ∈ w.live ∧ mem2chunk mem = p ∧ w.store.sizeAt p = size

/-- Nothing is filed, and top is the whole segment as init_top set it. -/
structure Whole (setup : Setup) (s : Store) : Prop where
  dv : s.gm.dv = 0
  dvsize : s.gm.dvsize = 0
  smallmap : s.gm.smallmap = 0
  treemap : s.gm.treemap = 0
  top : s.gm.top = setup.first
  topsize : s.gm.topsize = setup.increasingSize - topFootSize

section Determined

variable {setup setup' : Setup} {w w' : World} {h h' : Heap} {first stop top top' a n : Nat}
  {blocks blocks' : List Block}

theorem Runs.liveChunk_iff (runs : Runs setup w h) : w.LiveChunk a n ↔ h.Used a n := by
  constructor
  · rintro ⟨mem, bytes, member, rfl, rfl⟩
    obtain ⟨b, k, -, back, used, -⟩ := runs.pointer member
    obtain ⟨-, -, size, -⟩ := (runs.rep.usedChunk_iff b k).mpr used
    rw [back, size]
    exact used
  · intro used
    obtain ⟨bytes, member⟩ := runs.tracked.used a n used
    obtain ⟨b, k, same, back, -⟩ := runs.pointer member
    obtain rfl : a = b := by omega
    obtain ⟨-, -, size, -⟩ := (runs.rep.usedChunk_iff a n).mpr used
    exact ⟨a + 32, bytes, member, back, size⟩

namespace Layout

theorem top_unused (layout : Layout first stop top blocks) (topFree : TopFree stop) {t : Block}
    (member : t ∈ blocks) (atTop : t.addr = top) : t.cinuse = false := by
  rw [layout.topRead t member atTop, topFree]
  rfl

theorem sparse (layout : Layout first stop top blocks) (topFree : TopFree stop) :
    Sparse Block.cinuse blocks := fun b c adjacent => (layout.coalesced topFree b c adjacent).2

theorem taken_iff (layout : Layout first stop top blocks) (topFree : TopFree stop) :
    Taken Block.addr Block.size Block.cinuse blocks a n ↔ BlockAt top blocks a n true := by
  constructor
  · rintro ⟨b, member, rfl, rfl, used⟩
    refine ⟨fun atTop => ?_, b, member, rfl, rfl, used⟩
    rw [layout.top_unused topFree member atTop] at used
    cases used
  · rintro ⟨-, b, member, here, size, used⟩
    exact ⟨b, member, here, size, used⟩

/-- The used blocks of a coalesced layout determine the others. -/
theorem determined (layout : Layout first stop top blocks)
    (layout' : Layout first stop top' blocks')
    (topFree : TopFree stop)
    (same : ∀ a n, BlockAt top blocks a n true ↔ BlockAt top' blocks' a n true) :
    top = top' ∧ ∀ a n, FreeAt top blocks a n ↔ FreeAt top' blocks' a n := by
  have shape := tiles_determined layout.tiles layout'.tiles layout.nonempty layout'.nonempty
    (layout.sparse topFree) (layout'.sparse topFree)
    (fun a n => by rw [layout.taken_iff topFree, layout'.taken_iff topFree]; exact same a n)
  have tops : top = top' := by
    obtain ⟨below, t, rfl, atTop⟩ := layout.last
    obtain ⟨below', t', rfl, atTop'⟩ := layout'.last
    have ends := congrArg List.getLast? shape
    simp only [List.map_append, List.map_cons, List.map_nil, List.getLast?_concat,
      Option.some.injEq, Prod.mk.injEq] at ends
    rw [← atTop, ← atTop']
    exact ends.1
  subst tops
  have moved : ∀ {one two : List Block}, one.map (fun b => (b.addr, b.size, b.cinuse)) =
      two.map (fun b => (b.addr, b.size, b.cinuse)) → ∀ a n, FreeAt top one a n →
        FreeAt top two a n := by
    rintro one two alike a n ⟨notTop, b, member, rfl, rfl, unused⟩
    have inMap : (b.addr, b.size, b.cinuse) ∈ two.map fun b => (b.addr, b.size, b.cinuse) :=
      alike ▸ List.mem_map_of_mem member
    obtain ⟨c, inTwo, same⟩ := List.mem_map.mp inMap
    simp only [Prod.mk.injEq] at same
    exact ⟨notTop, c, inTwo, same.1, same.2.1, same.2.2.trans unused⟩
  exact ⟨rfl, fun a n => ⟨moved shape a n, moved shape.symm a n⟩⟩

/-- With nothing used, top is all there is. -/
theorem emptied (layout : Layout first stop top blocks) (topFree : TopFree stop)
    (none : ∀ a n, ¬ BlockAt top blocks a n true) :
    top = first ∧ ∀ a n, ¬ FreeAt top blocks a n := by
  obtain ⟨below, t, rfl, atTop⟩ := layout.last
  rcases List.eq_nil_or_concat below with rfl | ⟨most, b, rfl⟩
  · have start : t.addr = first := layout.tiles.1
    refine ⟨by omega, ?_⟩
    rintro a n ⟨notTop, c, member, rfl, -⟩
    rw [List.nil_append, List.mem_singleton] at member
    exact notTop (by rw [member, atTop])
  · rw [List.concat_eq_append] at layout none
    have pair : Adjacent (most ++ [b] ++ [t]) b t := by
      rw [List.append_assoc]
      exact adjacent_iff.mpr ⟨most, [], rfl⟩
    have unused := layout.top_unused topFree (by simp) atTop
    have used := ((layout.coalesced topFree b t pair).2).resolve_right (by simp [unused])
    have next := adjacent_stop layout.tiles pair
    have notTop := layout.ne_top_of_le (b := b) (n := t) (by simp) (by simp) (by omega)
    exact absurd ⟨notTop, b, by simp, rfl, rfl, used⟩ (none b.addr b.size)

end Layout

theorem Runs.whole (runs : Runs setup w h) (aligned : setup.Aligned) (none : w.live = []) :
    Whole setup w.store := by
  have rep := runs.rep
  obtain ⟨holds, -, topFree⟩ := aligned.bounds
  have unused : ∀ a n, ¬ h.Used a n := by
    intro a n used
    obtain ⟨bytes, member⟩ := runs.tracked.used a n used
    rw [none] at member
    cases member
  obtain ⟨atFirst, noFree⟩ := rep.layout.emptied topFree unused
  have dv : h.dv = 0 := by
    by_contra some
    exact noFree _ _ (rep.filed.dvFree some)
  have noSmall : ∀ i, h.small i = [] := fun i =>
    List.eq_nil_iff_forall_not_mem.mpr fun p member => noFree _ _ (rep.small.member i p member).2
  have noTree : ∀ i, (h.tree i).nodes = [] := fun i =>
    List.eq_nil_iff_forall_not_mem.mpr fun p member => noFree _ _ ((rep.tree.bin i).member p member)
  have cleared : ∀ {bits : Nat}, bits < 2 ^ 32 → (∀ i < 32, ¬ bits.testBit i = true) →
      bits = 0 := by
    intro bits bound clear
    refine Nat.eq_of_testBit_eq fun i => ?_
    rw [Nat.zero_testBit]
    by_cases inside : i < 32
    · simpa using clear i inside
    · have wide : 2 ^ 32 ≤ 2 ^ i := Nat.pow_le_pow_right (by decide) (Nat.le_of_not_lt inside)
      exact Nat.testBit_lt_two_pow (by omega)
  have topsize := rep.topsize
  have foot : topFootSize = 8 := rfl
  have finish : setup.stop = setup.tbase + setup.increasingSize - topFootSize := rfl
  have start := aligned.first_eq
  have some := aligned.some
  have multiple := aligned.size
  refine ⟨rep.dv.trans dv, rep.dvsize.trans (rep.filed.dvNone.mp dv), ?_, ?_,
    rep.top.trans atFirst, by omega⟩
  · exact cleared rep.small.bits fun i bound marked =>
      (rep.small.marked i bound).mp marked (noSmall i)
  · exact cleared rep.tree.bits fun i bound marked =>
      (rep.tree.marked i bound).mp marked (noTree i)

/-- The free space is determined by what is live, whatever the histories were. -/
theorem reached_free_space (zeroed : Zeroed setup.raw) (zeroed' : Zeroed setup'.raw)
    (regular : setup.Regular) (regular' : setup'.Regular) (base : setup'.tbase = setup.tbase)
    (size : setup'.increasingSize = setup.increasingSize) {events events' : List Event}
    (run : setup.Reaches events w) (run' : setup'.Reaches events' w') {bytes bytes' mem mem' : Nat}
    (allocated : Event.call (.alloc bytes) mem ∈ events)
    (allocated' : Event.call (.alloc bytes') mem' ∈ events') :
    ((∀ p n, w.LiveChunk p n ↔ w'.LiveChunk p n) →
      w.store.gm.top = w'.store.gm.top ∧ w.store.gm.topsize = w'.store.gm.topsize ∧
        ∀ p n, w.store.FreeChunk setup.first p n ↔ w'.store.FreeChunk setup'.first p n) ∧
      (w.live = [] → Whole setup w.store) := by
  obtain ⟨h, runs⟩ := run.regular zeroed regular.aligned allocated
  obtain ⟨h', runs'⟩ := run'.regular zeroed' regular'.aligned allocated'
  refine ⟨fun same => ?_, runs.whole regular.aligned⟩
  have firsts : setup'.first = setup.first := by
    rw [regular.aligned.first_eq, regular'.aligned.first_eq, base]
  have stops : setup'.stop = setup.stop := by rw [Setup.stop, Setup.stop, base, size]
  have layout' := runs'.rep.layout
  rw [firsts, stops] at layout'
  obtain ⟨tops, free⟩ := runs.rep.layout.determined layout' regular.aligned.bounds.2.2
    fun a n => (runs.liveChunk_iff.symm.trans (same a n)).trans runs'.liveChunk_iff
  have one := runs.rep.topsize
  have two := runs'.rep.topsize
  refine ⟨by rw [runs.rep.top, runs'.rep.top, tops], by omega, fun p n => ?_⟩
  rw [runs.rep.freeChunk_iff, runs'.rep.freeChunk_iff]
  exact free p n

/-- Two allocations freed in either order. -/
theorem reached_free_space_sample : ∃ w w' : World, w.live = [] ∧ w'.live = [] ∧
    w.store.gm.top = w'.store.gm.top ∧ Whole (Setup.sample 1024 (by decide)) w.store := by
  have replayed : ((Heap.init 4096 (4096 + 1024 - 8)).replay []
      [.alloc 24, .alloc 300, .free 4128, .free 4160]).map Prod.snd = some [] := by decide
  have replayed' : ((Heap.init 4096 (4096 + 1024 - 8)).replay []
      [.alloc 24, .alloc 300, .free 4160, .free 4128]).map Prod.snd = some [] := by decide
  have fits : 1024 ≤ 2 ^ 32 := by decide
  obtain ⟨events, w, h, run, -, live, -, happened⟩ :=
    Setup.sample_replays fits (by decide) (by decide) _ replayed
  obtain ⟨events', w', h', run', -, live', -, happened'⟩ :=
    Setup.sample_replays fits (by decide) (by decide) _ replayed'
  obtain ⟨mem, allocated⟩ := Event.of_asked happened (show Call.alloc 24 ∈ _ by simp)
  obtain ⟨mem', allocated'⟩ := Event.of_asked happened' (show Call.alloc 24 ∈ _ by simp)
  have zeroed := Setup.sample_zeroed 1024 fits
  have regular := Setup.sample_regular fits (by decide) (by decide)
  obtain ⟨same, whole⟩ :=
    reached_free_space zeroed zeroed regular regular rfl rfl run run' allocated allocated'
  have nothing : ∀ p n, w.LiveChunk p n ↔ w'.LiveChunk p n := by
    simp [World.LiveChunk, live, live']
  exact ⟨w, w', live, live', (same nothing).1, whole live⟩

end Determined

end Unimem
