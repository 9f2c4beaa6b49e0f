import Unimem.Effects

/-!
Which blocks make a sound top. InitOrExpand takes whatever size and alignment it
is given: topsize keeps their residue, and head has its low bits for flags. A
block is sound where it holds the gap, a head and the foot, and ends on a
multiple of 8.
-/

namespace Unimem

open ByteMemory Memory WordArith MallocState Transitions

/-- Nothing has wrapped, top's head says what topsize says, and chunks freed in
front of top go into it. -/
structure TopSound (setup : Setup) (w : World) : Prop where
  unwrapped : topFootSize ≤ setup.increasingSize ∧
    alignOffset (chunk2mem setup.tbase) ≤ setup.increasingSize - topFootSize
  bound : w.store.gm.top + w.store.gm.topsize ≤ setup.tbase + setup.increasingSize - topFootSize
  size : w.store.sizeAt w.store.gm.top = w.store.gm.topsize
  unused : w.store.cinuseAt w.store.gm.top = false
  pinuse : w.store.pinuseAt w.store.gm.top = true
  shrinks : ∀ bytes mem s', (Call.alloc bytes).Returns w.store mem s' →
    s'.gm.topsize ≤ w.store.gm.topsize
  merges : ∀ mem ∈ w.live.map Prod.fst, w.store.nextOf (mem2chunk mem) = w.store.gm.top →
    ∀ s', (Call.free mem).Returns w.store 0 s' →
      s'.gm.top = w.store.extentStart (mem2chunk mem) ∧
        s'.gm.top + s'.gm.topsize = w.store.gm.top + w.store.gm.topsize

/-- The block holds the gap, a head and the foot, and ends on a multiple of 8. -/
def Setup.Sound (setup : Setup) : Prop :=
  alignOffset (chunk2mem setup.tbase) + 16 ≤ setup.increasingSize ∧
    (setup.tbase + setup.increasingSize) % 8 = 0

section Sound

variable {setup : Setup} {w : World} {h : Heap} {s : Store}

theorem Setup.Sound.bounds (sound : setup.Sound) :
    setup.Holds ∧ setup.Wide ∧ setup.stop % 8 = 0 ∧ TopFree setup.stop := by
  obtain ⟨room, ends⟩ := sound
  have foot : topFootSize = 8 := rfl
  refine ⟨?_, ?_, ?_, ?_⟩
  · rw [Setup.Holds, foot]
    omega
  · rw [Setup.Wide, Setup.first, Setup.stop, foot]
    omega
  · rw [Setup.stop, foot]
    omega
  · rw [TopFree, Setup.stop, foot]
    omega

theorem sizeAt_eight (s : Store) (p : Nat) : s.sizeAt p % 8 = 0 := by
  have fits := s.mem.load_lt (p + 8) 8
  have mask : flagBits = 7 := rfl
  rw [Store.sizeAt, Store.headAt, mask, and_not64_seven _ (by omega)]
  omega

/-- Handing out never enlarges top. -/
theorem Carved.top_le {nb p : Nat} {h' : Heap} (carved : Carved h h' nb p) : h.top ≤ h'.top := by
  cases carved with
  | whole below above b n shape unused at_ notTop fits few blocks top => exact Nat.le_of_eq top.symm
  | part below above b n shape unused at_ notTop fits blocks top => exact Nat.le_of_eq top.symm
  | top below t shape atTop isTop fits blocks top => omega

theorem Runs.topSound (runs : Runs setup w h) (sound : setup.Sound) : TopSound setup w := by
  obtain ⟨holds, wide, ends, topFree⟩ := sound.bounds
  have rep := runs.rep
  have foot : topFootSize = 8 := rfl
  have finish : setup.stop = setup.tbase + setup.increasingSize - topFootSize := rfl
  have topsize := rep.topsize
  obtain ⟨t, member, here, stops⟩ := rep.layout.topBlock
  have head := rep.tags.head t member
  have unused : t.cinuse = false := by
    have read := rep.layout.topRead t member here
    rw [TopFree] at topFree
    simpa [topFree] using read
  have pinuse := rep.layout.pinuseFree t member unused
  have aligned := rep.layout.top_aligned
  simp only [Block.stop] at stops
  refine
    { unwrapped := ?_
      bound := by rw [rep.top]; omega
      size := ?_
      unused := by rw [rep.top, ← here, rep.cinuseAt_eq member, unused]
      pinuse := by rw [rep.top, ← here, rep.pinuseAt_eq member, pinuse]
      shrinks := fun bytes mem s' returned => ?_
      merges := fun mem live next s' returned => ?_ }
  · rw [Setup.Holds] at holds
    omega
  · have word := head.topsize here
    have flag : t.pinuse.toNat = 1 := by rw [pinuse]; rfl
    have mask : flagBits = 7 := rfl
    have fits := w.store.mem.load_lt (t.addr + 8) 8
    rw [rep.top, ← here, Store.sizeAt, Store.headAt, mask, and_not64_seven _ (by omega), word, flag]
    omega
  · obtain ⟨h', answered, runs', -⟩ :=
      runs.returned (show w.permits (.alloc bytes) from trivial) returned
    obtain ⟨p, -, carved⟩ := rep.alloc_carved answered
    have later := carved.top_le
    have topsize' : h'.top + s'.gm.topsize = setup.stop := runs'.rep.topsize
    omega
  · have released := runs.released topFree live returned
    obtain ⟨top, whole, -⟩ := released.top next
    refine ⟨top, whole.trans ?_⟩
    rw [Store.extentEnd, if_pos next]

theorem expand_reaches (opened : initOrExpand setup.start.store = .ok () s) :
    setup.Reaches [.call .expand 0] ⟨s, []⟩ :=
  Run.snoc Run.nil (Step.call trivial (expand_opens opened))

/-- The first InitOrExpand makes a sound top on no other block. -/
theorem Fresh.sound (fresh : Fresh setup w) (clean : Clean setup.raw)
    (opened : initOrExpand w.store = .ok () s) (found : TopSound setup ⟨s, []⟩) : setup.Sound := by
  have foot : topFootSize = 8 := rfl
  have holds : setup.Holds := by
    rw [Setup.Holds]
    have unwrapped := found.unwrapped
    omega
  have site := fresh.site holds clean.top
  obtain ⟨low, -⟩ := site.toRoomy.first_eq
  have fits := site.finish
  have room := site.room
  have start := site.start
  by_cases spill : w.store.mem.accessible (setup.tbase + setup.increasingSize) 8 = true
  · obtain ⟨m', done, -, trailing, -⟩ := initOrExpand_fresh site spill
    rw [opened] at done
    obtain ⟨-, rfl⟩ := EStateM.Result.ok.inj done
    have size : Store.sizeAt _ setup.first = setup.stop - setup.first := found.size
    have eight : (setup.stop - setup.first) % 8 = 0 := by
      rw [← size]
      exact sizeAt_eight _ _
    have wide : setup.first + 8 ≤ setup.stop := by
      -- else top is empty and the trailing head lies over its head
      by_contra narrow
      have same : setup.stop = setup.first := by omega
      have mask : topFootSize &&& not64 flagBits = 8 := by decide
      rw [Store.sizeAt, Store.headAt, ← same, trailing, mask] at size
      omega
    exact ⟨by omega, by omega⟩
  · obtain ⟨s', faulted⟩ := initOrExpand_fault site spill
    rw [opened] at faulted
    cases faulted

/-- Top is sound in every state after the first InitOrExpand, on sound blocks and on no others. -/
theorem reached_topSound (zeroed : Zeroed setup.raw)
    (opened : initOrExpand setup.start.store = .ok () s) :
    (∀ events w, setup.Reaches events w →
      (∃ call value, (∀ mem, call ≠ .free mem) ∧ Event.call call value ∈ events) →
        TopSound setup w) ↔ setup.Sound := by
  constructor
  · intro all
    exact setup.start_fresh.sound zeroed.toClean opened
      (all _ _ (expand_reaches opened) ⟨.expand, 0, by simp, by simp⟩)
  · rintro sound events w run ⟨call, value, opens, happened⟩
    obtain ⟨h, runs⟩ := run.running sound.bounds.1 zeroed.toClean sound.bounds.2.1 opens happened
    exact runs.topSound sound

/-- A size of 1026 leaves its residue in topsize, and head reads it as flags. -/
theorem expand_topUnsound : ∃ w, (Setup.sample 1026 (by decide)).Reaches [.call .expand 0] w ∧
    ¬ TopSound (Setup.sample 1026 (by decide)) w := by
  have clean := (Setup.sample_zeroed 1026 (by decide)).toClean
  have fresh := (Setup.sample 1026 (by decide)).start_fresh
  have holds : (Setup.sample 1026 (by decide)).Holds :=
    show alignOffset (chunk2mem 4096) + topFootSize ≤ 1026 by decide
  obtain ⟨m', opened, -⟩ := initOrExpand_fresh (fresh.site holds clean.top) rfl
  refine ⟨_, expand_reaches opened, fun found => ?_⟩
  have ends := (fresh.sound clean opened found).2
  exact absurd ends (by decide)

theorem reached_topSound_sample :
    (∀ events w, (Setup.sample 1024 (by decide)).Reaches events w →
      (∃ call value, (∀ mem, call ≠ .free mem) ∧ Event.call call value ∈ events) →
        TopSound (Setup.sample 1024 (by decide)) w) ↔ (Setup.sample 1024 (by decide)).Sound := by
  have zeroed := Setup.sample_zeroed 1024 (by decide)
  have holds : (Setup.sample 1024 (by decide)).Holds :=
    show alignOffset (chunk2mem 4096) + topFootSize ≤ 1024 by decide
  obtain ⟨m', opened, -⟩ :=
    initOrExpand_fresh ((Setup.sample 1024 (by decide)).start_fresh.site holds zeroed.top) rfl
  exact reached_topSound zeroed opened

end Sound

end Unimem
