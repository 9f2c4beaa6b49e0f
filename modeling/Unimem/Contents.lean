import Unimem.Twins

/-!
What the memory held before. The block's old contents never matter: every word
that an operation reads has been written. The old contents of the object do,
since the constructor leaves its fields as they are.
-/

namespace Unimem

open ByteMemory Memory LinkedRing MallocState Transitions

/-- All fields of MallocState that its functions use. -/
structure SameState (g g' : MallocState) : Prop extends SameSettings g g' where
  smallmap : g'.smallmap = g.smallmap
  treemap : g'.treemap = g.treemap
  dvsize : g'.dvsize = g.dvsize
  topsize : g'.topsize = g.topsize
  dv : g'.dv = g.dv
  top : g'.top = g.top
  treebins : ∀ i < 32, g'.treebins i = g.treebins i

/-- The words that branches depend on agree: the fields and bin headers of MallocState,
the heads of all chunks, the feet of the free ones, and the links of the binned ones. Of
a parent only whether it is null is ever looked at. -/
structure Alike (first : Nat) (s s' : Store) : Prop where
  state : SameState s.gm s'.gm
  headers : ∀ i < 32, fdAt s'.mem (s.gm.smallbinAt i) = fdAt s.mem (s.gm.smallbinAt i) ∧
    bkAt s'.mem (s.gm.smallbinAt i) = bkAt s.mem (s.gm.smallbinAt i)
  chunk : ∀ p, s'.IsChunk first p ↔ s.IsChunk first p
  head : ∀ p, s.IsChunk first p → s'.headAt p = s.headAt p
  foot : ∀ p size, s.FreeChunk first p size → s'.prevFootAt (p + size) = s.prevFootAt (p + size)
  small : ∀ i < 32, ∀ p, (s'.InSmallbin i p ↔ s.InSmallbin i p) ∧
    (s.InSmallbin i p → fdAt s'.mem p = fdAt s.mem p ∧ bkAt s'.mem p = bkAt s.mem p)
  tree : ∀ i < 32, ∀ p, (s'.InTreebin i p ↔ s.InTreebin i p) ∧
    (s.InTreebin i p → (fdAt s'.mem p = fdAt s.mem p ∧ bkAt s'.mem p = bkAt s.mem p) ∧
      (∀ j < 2, childAt s'.mem p j = childAt s.mem p j) ∧ indexAt s'.mem p = indexAt s.mem p ∧
        (parentAt s'.mem p = 0 ↔ parentAt s.mem p = 0))

theorem map_determined {one two : Nat} (few : one < 2 ^ 32) (few' : two < 2 ^ 32)
    (bits : ∀ i < 32, two.testBit i = true ↔ one.testBit i = true) : two = one := by
  refine Nat.eq_of_testBit_eq fun i => ?_
  by_cases bound : i < 32
  · exact Bool.eq_iff_iff.mpr (bits i bound)
  · have wide : 2 ^ 32 ≤ 2 ^ i := Nat.pow_le_pow_right (by decide) (by omega)
    rw [Nat.testBit_lt_two_pow (Nat.lt_of_lt_of_le few wide),
      Nat.testBit_lt_two_pow (Nat.lt_of_lt_of_le few' wide)]

section Alike

variable {first stop limit limit' : Nat} {s s' : Store} {h : Heap}

/-- The block determines its head. -/
theorem HeadWord.determined {top v w : Nat} {b : Block} (one : HeadWord top b v)
    (two : HeadWord top b w) : w = v := by
  by_cases atTop : b.addr = top
  · exact (two.topsize atTop).trans (one.topsize atTop).symm
  · exact (two.size atTop).trans (one.size atTop).symm

/-- Two stores that represent one heap agree on every word that matters. -/
theorem Represents.alike (rep : Represents first stop limit s h [])
    (rep' : Represents first stop limit' s' h []) (settings : SameSettings s.gm s'.gm) :
    Alike first s s' := by
  have bins : ∀ i, s'.gm.smallbinAt i = s.gm.smallbinAt i := by
    intro i
    rw [smallbinAt, smallbinAt, settings.this]
  have topsize := rep.topsize
  have topsize' := rep'.topsize
  -- both rings thread the same list, so their links agree
  have links : ∀ i < 32, h.small i ≠ [] → ∀ p ∈ s.gm.smallbinAt i :: h.small i,
      fdAt s'.mem p = fdAt s.mem p ∧ bkAt s'.mem p = bkAt s.mem p := by
    intro i bound nonempty
    have ring' := rep'.small.ring i nonempty
    rw [bins] at ring'
    exact ring_links (rep.small.ring i nonempty) ring'
  refine
    { state :=
        { toSameSettings := settings
          smallmap := map_determined rep.small.bits rep'.small.bits fun i bound => by
            rw [rep'.small.marked i bound, rep.small.marked i bound]
          treemap := map_determined rep.tree.bits rep'.tree.bits fun i bound => by
            rw [rep'.tree.marked i bound, rep.tree.marked i bound]
          dvsize := rep'.dvsize.trans rep.dvsize.symm
          topsize := by omega
          dv := rep'.dv.trans rep.dv.symm
          top := rep'.top.trans rep.top.symm
          treebins := fun i bound => (rep'.tree.root i bound).trans (rep.tree.root i bound).symm }
      headers := fun i bound => ?_
      chunk := fun p => (rep'.chunk_iff p).trans (rep.chunk_iff p).symm
      head := fun p inside => ?_
      foot := fun p size free => ?_
      small := fun i bound p => ⟨(rep'.smallbin_iff bound p).trans (rep.smallbin_iff bound p).symm, ?_⟩
      tree := fun i bound p => ⟨(rep'.treebin_iff bound p).trans (rep.treebin_iff bound p).symm, ?_⟩ }
  · by_cases empty : h.small i = []
    · have idle := rep.small.idle i bound empty
      have idle' := rep'.small.idle i bound empty
      rw [bins] at idle'
      exact ⟨idle'.1.trans idle.1.symm, idle'.2.trans idle.2.symm⟩
    · exact links i bound empty _ List.mem_cons_self
  · obtain ⟨b, member, rfl⟩ := (rep.chunk_iff p).mp inside
    exact (rep.tags.head b member).determined (rep'.tags.head b member)
  · obtain ⟨below, b, n, above, shape, rfl, rfl, unused, -⟩ :=
      rep.successor ((rep.freeChunk_iff p size).mp free)
    have pair : Tiling.Adjacent h.blocks b n := by
      rw [shape]
      exact adjacent_pair
    have next := Tiling.adjacent_stop rep.layout.tiles pair
    rw [Store.prevFootAt, Store.prevFootAt, next]
    exact (rep'.tags.foot b n pair unused).trans (rep.tags.foot b n pair unused).symm
  · intro inside
    have member := (rep.smallbin_iff bound p).mp inside
    exact links i bound (List.ne_nil_of_mem member) p (List.mem_cons_of_mem _ member)
  · intro inside
    have member := (rep.treebin_iff bound p).mp inside
    have leaf := (rep.tree.bin i).leaf p member
    have leaf' := (rep'.tree.bin i).leaf p member
    obtain ⟨root, rest, shape⟩ := List.exists_cons_of_ne_nil (List.ne_nil_of_mem member)
    have parent := (rep.tree.bin i).parent root rest shape
    have parent' := (rep'.tree.bin i).parent root rest shape
    rw [shape] at member
    refine ⟨ring_links ((rep.tree.bin i).ring root rest shape)
      ((rep'.tree.bin i).ring root rest shape)
      p member, fun j few => ?_, leaf'.2.2.trans leaf.2.2.symm, ?_⟩
    · have either : j = 0 ∨ j = 1 := by omega
      rcases either with rfl | rfl
      · exact leaf'.1.trans leaf.1.symm
      · exact leaf'.2.1.trans leaf.2.1.symm
    · rcases List.mem_cons.mp member with rfl | later
      · exact iff_of_false parent'.1 parent.1
      · exact iff_of_true (parent'.2 p later) (parent.2 p later)

end Alike

section Runs

variable {setup setup' : Setup} {w w' : World} {events : List Event} {call : Call}

theorem step_unique {writable : World → Nat → Prop} {event : Event} {one two : World}
    (left : Step writable w event one) (right : Step writable w event two) : one = two := by
  cases left with
  | call _ returned =>
      cases right with
      | call _ returned' => rw [(Call.returns_unique returned returned').2]
  | poke v _ =>
      cases right with
      | poke _ _ => rfl

/-- Every run of one setup is a run of the other, and only to paired worlds. -/
theorem Setup.Kin.runs (kin : setup.Kin setup') (holds : setup.Holds) (clean : Clean setup.raw)
    (clean' : Clean setup'.raw) (run : setup.Reaches events w) :
    (∃ w', setup'.Reaches events w') ∧
      ∀ w', setup'.Reaches events w' → Paired setup setup' w w' := by
  have answers : ∀ state state' label after, Paired setup setup' state state' →
      Step setup.Outside state label after →
        ∃ after', Step setup'.Outside state' label after' ∧ Paired setup setup' after after' :=
    fun _ _ _ _ paired step => paired.step kin holds clean clean' step
  obtain ⟨w₁, run₁, paired⟩ := run.lockstep kin.start answers
  refine ⟨⟨w₁, run₁⟩, fun w' run' => ?_⟩
  have unique : ∀ state label left right, Step setup'.Outside state label left →
      Step setup'.Outside state label right → left = right := fun _ _ _ _ => step_unique
  obtain rfl := run'.determined unique run₁
  exact paired

end Runs

/-! ## The block -/

/-- Two setups that differ in the old contents of the block only. -/
structure Setup.SameButBlock (setup setup' : Setup) : Prop where
  raw : setup'.raw = setup.raw
  allocator : setup'.underlyingAllocator = setup.underlyingAllocator
  size : setup'.increasingSize = setup.increasingSize
  mapped : setup'.mem.mapped = setup.mem.mapped
  bytes : ∀ x, ¬ (setup.tbase ≤ x ∧ x < setup.tbase + setup.increasingSize) →
    setup'.mem.byte x = setup.mem.byte x

section Block

variable {setup setup' : Setup} {w w' : World} {events : List Event}

theorem Setup.SameButBlock.kin (same : setup.SameButBlock setup') :
    setup.Kin setup' ∧ SameHeaders setup setup' := by
  refine ⟨⟨by rw [same.raw], same.allocator, same.size, same.mapped⟩, ?_⟩
  rintro x ⟨lower, upper⟩
  have apart := setup.apart
  have start : setup.underlyingAllocator 0 setup.increasingSize = setup.tbase := rfl
  have object : mallocStateSize = 904 := rfl
  rw [start] at apart
  exact same.bytes x (by omega)

/-- Before the first InitOrExpand there is nothing but the object. -/
theorem Fresh.alike {first : Nat} (fresh : Fresh setup w) (fresh' : Fresh setup' w')
    (clean : Clean setup.raw) (raw : setup'.raw = setup.raw)
    (aligned : setup.raw.this + 904 ≤ 2 ^ 64)
    (headers : ∀ x, HeaderBytes setup.raw x → w'.store.mem.byte x = w.store.mem.byte x) :
    Alike first w.store w'.store := by
  have gm : w'.store.gm = w.store.gm := by rw [fresh'.gm, fresh.gm, raw]
  have top : w.store.gm.top = 0 := by rw [fresh.gm, clean.top]
  have unfiled : Unfiled w.store.gm := fresh.gm ▸ clean.toUnfiled
  have top' : w'.store.gm.top = 0 := gm ▸ top
  have unfiled' : Unfiled w'.store.gm := gm ▸ unfiled
  refine
    { state := by
        rw [gm]
        exact ⟨⟨rfl, rfl, rfl, rfl, rfl⟩, rfl, rfl, rfl, rfl, rfl, rfl, fun _ _ => rfl⟩
      headers := fun i bound => ?_
      chunk := fun p => iff_of_false (no_chunk top') (no_chunk top)
      head := fun p inside => absurd inside (no_chunk top)
      foot := fun p size free => absurd free.1 (no_chunk top)
      small := fun i bound p => ⟨iff_of_false (unfiled'.no_smallbin i) (unfiled.no_smallbin i),
        fun inside => absurd inside (unfiled.no_smallbin i)⟩
      tree := fun i bound p => ⟨iff_of_false (unfiled'.no_treebin bound) (unfiled.no_treebin bound),
        fun inside => absurd inside (unfiled.no_treebin bound)⟩ }
  have bin := smallbinAt_eq w.store.gm i
  rw [fresh.gm] at bin ⊢
  have kept : ∀ a, setup.raw.this + 72 ≤ a → a + 8 ≤ setup.raw.this + 600 →
      w'.store.mem.load a 8 = w.store.mem.load a 8 := fun a lower upper =>
    load_congr _ _ a 8 fun x low high => headers x ⟨by omega, by omega⟩
  exact ⟨kept _ (by omega) (by omega), kept _ (by omega) (by omega)⟩

/-- Whatever the block held before, every run goes the same way, through states that
agree on every word that matters, and the next call ends alike. -/
theorem reached_alike (zeroed : Zeroed setup.raw) (regular : setup.Regular)
    (same : setup.SameButBlock setup') (run : setup.Reaches events w) :
    (∃ w', setup'.Reaches events w') ∧ ∀ w', setup'.Reaches events w' →
      Alike setup.first w.store w'.store ∧ w'.live = w.live ∧
        w'.store.underlyingCalls = w.store.underlyingCalls ∧
          ∀ call, w.permits call → call.EndsAlike w.store w'.store := by
  obtain ⟨kin, headers⟩ := same.kin
  have clean := zeroed.toClean
  have clean' : Clean setup'.raw := same.raw ▸ clean
  have aligned := regular.aligned
  obtain ⟨holds, wide, -⟩ := aligned.bounds
  obtain ⟨some, all⟩ := kin.runs holds clean clean' run
  refine ⟨some, fun w' run' => ?_⟩
  have paired := all w' run'
  refine ⟨?_, paired.live, paired.calls, fun call permitted =>
    paired.endsAlike kin holds clean clean' permitted⟩
  cases paired.phase with
  | fresh fresh fresh' bytes =>
      exact fresh.alike fresh' clean same.raw setup.object (bytes headers)
  | narrow small => exact absurd wide (by rw [Setup.Wide]; omega)
  | running h runs runs' =>
      have rep' := runs'.rep
      rw [kin.first, kin.stop] at rep'
      refine runs.rep.alike rep' (paired.settings ?_)
      rw [same.raw]
      exact ⟨rfl, rfl, rfl, rfl, rfl⟩

/-- The sample, its block full of ones. -/
def Setup.soiled (size : Nat) (fits : size ≤ 2 ^ 32) : Setup :=
  { Setup.sample size fits with
    mem := ⟨fun x => if 4096 ≤ x ∧ x < 4096 + size then 255 else 0, fun _ => true⟩
    objectMapped := fun _ _ _ => rfl
    blockMapped := fun _ _ _ => rfl }

theorem Setup.soiled_same (size : Nat) (fits : size ≤ 2 ^ 32) :
    (Setup.sample size fits).SameButBlock (Setup.soiled size fits) := by
  refine ⟨rfl, rfl, rfl, rfl, fun x outside => ?_⟩
  exact if_neg outside

theorem reached_alike_sample : ∃ events w w', (Setup.sample 1024 (by decide)).Reaches events w ∧
    (Setup.soiled 1024 (by decide)).Reaches events w' ∧ w.live = [(4208, 300), (4128, 24)] ∧
      Alike 4096 w.store w'.store := by
  have replayed : ((Heap.init 4096 (4096 + 1024 - 8)).replay []
      [.alloc 24, .alloc 40, .alloc 300, .free 4160]).map Prod.snd =
        some [(4208, 300), (4128, 24)] := by decide
  obtain ⟨events, w, h, run, -, live, -⟩ :=
    Setup.sample_replays (by decide) (by decide) (by decide) _ replayed
  have regular := Setup.sample_regular (by decide : 1024 ≤ 2 ^ 32) (by decide) (by decide)
  have first : (Setup.sample 1024 (by decide)).first = 4096 := regular.aligned.first_eq
  obtain ⟨⟨w', run'⟩, all⟩ := reached_alike (Setup.sample_zeroed 1024 (by decide)) regular
    (Setup.soiled_same 1024 (by decide)) run
  have alike := (all w' run').1
  rw [first] at alike
  exact ⟨events, w, w', run, run', live, alike⟩

end Block

/-! ## The object -/

/-- Construction and the first InitOrExpand leave empty bins and no dv, and every first
Alloc goes there. -/
structure Established (setup : Setup) : Prop where
  opens : ∃ s, initOrExpand setup.start.store = .ok () s ∧ Unfiled s.gm
  uninitialised : isInitialized setup.start.store = .ok false setup.start.store
  falls : ∀ bytes, ∃ fuel s, tryAlloc fuel bytes setup.start.store = .ok none s

section Object

variable {setup setup' : Setup} {w w' : World} {events : List Event} {s s' : Store}

/-- Nothing filed, and top large enough for some request: it is served from there. -/
theorem tryAlloc_top (unfiled : Unfiled s.gm) (some : 32 < s.gm.topsize) (fuel : Nat) :
    tryAlloc fuel 0 s ≠ .ok none s' := by
  have padded : paddedRequest 0 = 32 := by decide
  have small : ¬ 32 ≤ s.gm.dvsize := by
    rw [unfiled.dvsize]
    decide
  have rest : allocFromDvOrTop 32 s ≠ .ok none s' := by
    simp only [allocFromDvOrTop, Fuelled.bind_run, run_readGm, if_neg small, if_pos some]
    cases allocFromTop 32 s <;> simp
  simpa [tryAlloc, padded, unfiled.smallmap, unfiled.treemap, unfiled.dvsize] using rest

/-- Where the first InitOrExpand returns, its fields of the free store are the constructor's. -/
theorem Fresh.unfiled (fresh : Fresh setup w) (holds : setup.Holds) (top : setup.raw.top = 0)
    (opened : initOrExpand w.store = .ok () s) (unfiled : Unfiled s.gm) :
    Unfiled setup.raw ∧ w.store.mem.accessible (setup.tbase + setup.increasingSize) 8 = true := by
  have site := fresh.site holds top
  by_cases spill : w.store.mem.accessible (setup.tbase + setup.increasingSize) 8 = true
  · obtain ⟨m', done, -⟩ := initOrExpand_fresh site spill
    rw [opened] at done
    obtain ⟨-, rfl⟩ := EStateM.Result.ok.inj done
    refine ⟨?_, spill⟩
    rw [← fresh.gm]
    exact ⟨unfiled.smallmap, unfiled.treemap, unfiled.treebins, unfiled.dv, unfiled.dvsize⟩
  · obtain ⟨s', faulted⟩ := initOrExpand_fault site spill
    rw [opened] at faulted
    cases faulted

theorem established_iff (holds : setup.Holds) :
    Established setup ↔ Clean setup.raw ∧
      setup.mem.accessible (setup.tbase + setup.increasingSize) 8 = true := by
  have fresh := setup.start_fresh
  constructor
  · rintro ⟨⟨s, opened, unfiled⟩, uninitialised, falls⟩
    have top : setup.raw.top = 0 := by
      by_contra present
      have reads : isInitialized setup.start.store = .ok true setup.start.store := by
        simp [isInitialized, Setup.start, construct, present]
      rw [reads] at uninitialised
      cases uninitialised
    obtain ⟨unfiled, spill⟩ := fresh.unfiled holds top opened unfiled
    refine ⟨⟨unfiled, top, ?_⟩, spill⟩
    by_contra some
    obtain ⟨fuel, s', fell⟩ := falls 0
    exact tryAlloc_top (s := setup.start.store) unfiled (Nat.lt_of_not_le some) fuel fell
  · rintro ⟨clean, spill⟩
    obtain ⟨m', opened, -⟩ := initOrExpand_fresh (fresh.site holds clean.top) spill
    refine ⟨⟨_, opened, ?_⟩, ?_, fun bytes => ⟨0, _, tryAlloc_clean clean 0 bytes⟩⟩
    · exact ⟨clean.smallmap, clean.treemap, clean.treebins, clean.dv, clean.dvsize⟩
    · simp [isInitialized, Setup.start, construct, clean.top]

/-- Construction establishes an empty heap exactly over an object that reads as one, and
over any two such objects every run goes the same way. -/
theorem reached_established (holds : setup.Holds) :
    (Established setup ↔ Clean setup.raw ∧
      setup.mem.accessible (setup.tbase + setup.increasingSize) 8 = true) ∧
    ∀ setup', setup.Kin setup' → Clean setup.raw → Clean setup'.raw →
      ∀ events w, setup.Reaches events w → (∃ w', setup'.Reaches events w') ∧
        ∀ w', setup'.Reaches events w' → w'.live = w.live ∧
          w'.store.underlyingCalls = w.store.underlyingCalls ∧
            ∀ call, w.permits call → call.EndsAlike w.store w'.store := by
  refine ⟨established_iff holds, fun setup' kin clean clean' events w run => ?_⟩
  obtain ⟨some, all⟩ := kin.runs holds clean clean' run
  refine ⟨some, fun w' run' => ?_⟩
  have paired := all w' run'
  exact ⟨paired.live, paired.calls, fun call permitted =>
    paired.endsAlike kin holds clean clean' permitted⟩

theorem reached_established_sample : Established (Setup.sample 1024 (by decide)) := by
  have regular := Setup.sample_regular (by decide : 1024 ≤ 2 ^ 32) (by decide) (by decide)
  have clean := (Setup.sample_zeroed 1024 (by decide)).toClean
  exact (reached_established regular.aligned.bounds.1).1.mpr ⟨clean, rfl⟩

/-- The sample, over an object with a stale top. -/
def Setup.stale : Setup :=
  { Setup.sample 1024 (by decide) with
    raw := { (Setup.sample 1024 (by decide)).raw with topsize := 4096, top := 8192 } }

/-- The first Alloc returns another pointer there, and never calls InitOrExpand. -/
theorem alloc_stale : (Setup.sample 1024 (by decide)).Kin Setup.stale ∧
    (∃ s, (Call.alloc 24).Returns (Setup.sample 1024 (by decide)).start.store 4128 s ∧
      s.underlyingCalls = 1) ∧
    (∃ s, (Call.alloc 24).Returns Setup.stale.start.store 8224 s ∧ s.underlyingCalls = 0) ∧
      ¬ Established Setup.stale := by
  have zeroed := Setup.sample_zeroed 1024 (by decide)
  have regular := Setup.sample_regular (by decide : 1024 ≤ 2 ^ 32) (by decide) (by decide)
  have fresh := (Setup.sample 1024 (by decide)).start_fresh
  have room : alignOffset (chunk2mem 4096) + topFootSize ≤ 1024 := by decide
  have kin : (Setup.sample 1024 (by decide)).Kin Setup.stale := ⟨rfl, rfl, rfl, rfl⟩
  refine ⟨kin, ?_, ⟨_, ⟨1, rfl⟩, rfl⟩, fun established => ?_⟩
  · obtain ⟨m', opened, -, -, rep⟩ :=
      initOrExpand_fresh (fresh.site regular.aligned.bounds.1 zeroed.top) rfl
    have obeys := (rep (fresh.gm ▸ zeroed.toUnfiled) regular.aligned.bounds.2.1).alloc_obeys 24
    obtain ⟨h', served⟩ : ∃ h', (Heap.init (Setup.sample 1024 (by decide)).first
        (Setup.sample 1024 (by decide)).stop).alloc 24 = .served 4128 h' := ⟨_, rfl⟩
    rw [served] at obeys
    obtain ⟨s', ran, -, kept, -⟩ := obeys
    have again : (Call.alloc 24).run 4 _ = (Call.alloc 24).run 3 _ :=
      alloc_after zeroed.toClean opened 3
    exact ⟨s', ⟨4, again.trans (ran 3 (Nat.le_refl 3))⟩, kept.calls⟩
  · have holds : Setup.stale.Holds := room
    have clean := ((established_iff holds).mp established).1
    cases clean.top

end Object

end Unimem
