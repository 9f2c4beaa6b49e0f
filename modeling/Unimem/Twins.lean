import Unimem.FreeStore

/-!
Two runs side by side. Worlds are paired where one heap says what both hold; what
their memories held before does not enter. Paired worlds end every call alike and
stay paired, whatever clients store outside the bookkeeping of either.
-/

namespace Unimem

open ByteMemory Memory MallocState Transitions

/-- Two setups that differ in what their memories hold, the object's fields included. -/
structure Setup.Kin (setup setup' : Setup) : Prop where
  this : setup'.raw.this = setup.raw.this
  allocator : setup'.underlyingAllocator = setup.underlyingAllocator
  size : setup'.increasingSize = setup.increasingSize
  mapped : setup'.mem.mapped = setup.mem.mapped

/-- The two setups' objects have the same words in their bin headers. -/
def SameHeaders (setup setup' : Setup) : Prop :=
  ∀ x, HeaderBytes setup.raw x → setup'.mem.byte x = setup.mem.byte x

inductive SamePhase (setup setup' : Setup) (w w' : World) : Prop
  | fresh : Fresh setup w → Fresh setup' w' →
      (SameHeaders setup setup' →
        ∀ x, HeaderBytes setup.raw x → w'.store.mem.byte x = w.store.mem.byte x) →
      SamePhase setup setup' w w'
  | narrow : setup.stop < setup.first + 8 → Narrow w.store → Narrow w'.store →
      w.store.gm.top = setup.first → w'.store.gm.top = setup.first → w.live = [] →
      SamePhase setup setup' w w'
  | running (h : Heap) : Runs setup w h → Runs setup' w' h → SamePhase setup setup' w w'

structure Paired (setup setup' : Setup) (w w' : World) : Prop where
  phase : SamePhase setup setup' w w'
  this : w'.store.gm.this = w.store.gm.this
  live : w'.live = w.live
  calls : w'.store.underlyingCalls = w.store.underlyingCalls
  settings : SameSettings setup.raw setup'.raw → SameSettings w.store.gm w'.store.gm

/-- Both calls return the same value, or both throw, or both go on for ever, or both fault. -/
def Call.EndsAlike (call : Call) (s s' : Store) : Prop :=
  (∃ ending, call.EndsAs s ending ∧ call.EndsAs s' ending) ∨
    ((∃ t, call.Faults s t) ∧ ∃ t, call.Faults s' t)

section Bookkeeping

variable {s : Store} {first x : Nat}

/-- With nothing filed only the object and top's head are bookkeeping. -/
theorem Unfiled.bookkeeping_iff (unfiled : Unfiled s.gm) (top : s.gm.top = 0 ∨ s.gm.top = first) :
    s.Bookkeeping first x ↔ (s.gm.this ≤ x ∧ x < s.gm.this + mallocStateSize) ∨
      (s.gm.top ≠ 0 ∧ first + 8 ≤ x ∧ x < first + 16) := by
  have chunk : ∀ p, s.IsChunk first p → p = first ∧ s.gm.top ≠ 0 := by
    intro p inside
    induction inside with
    | first some => exact ⟨rfl, some⟩
    | next _ notTop ih =>
        rcases top with none | atFirst
        · exact absurd none ih.2
        · exact absurd (ih.1.trans atFirst.symm) notTop
  constructor
  · rintro (object | ⟨p, inside, lower, upper⟩ | ⟨p, size, free, lower, upper⟩ |
      ⟨i, bound, p, inSmall, -⟩ | ⟨i, bound, p, inTree, -⟩)
    · exact Or.inl object
    · obtain ⟨rfl, some⟩ := chunk p inside
      exact Or.inr ⟨some, lower, upper⟩
    · obtain ⟨rfl, some⟩ := chunk p free.1
      rcases top with none | atFirst
      · exact absurd none some
      · exact absurd atFirst.symm free.2.1
    · exact absurd inSmall (unfiled.no_smallbin i)
    · exact absurd inTree (unfiled.no_treebin bound)
  · rintro (object | ⟨some, lower, upper⟩)
    · exact Or.inl object
    · exact Or.inr (Or.inl ⟨first, Store.IsChunk.first some, lower, upper⟩)

end Bookkeeping

section Kin

variable {setup setup' : Setup} {w w' : World} {call : Call} {value : Nat} {s s' : Store}

namespace Setup.Kin

theorem symm (kin : setup.Kin setup') : setup'.Kin setup :=
  ⟨kin.this.symm, kin.allocator.symm, kin.size.symm, kin.mapped.symm⟩

theorem tbase (kin : setup.Kin setup') : setup'.tbase = setup.tbase := by
  rw [Setup.tbase, Setup.tbase, kin.allocator, kin.size]

theorem first (kin : setup.Kin setup') : setup'.first = setup.first := by
  rw [Setup.first, Setup.first, kin.tbase]

theorem stop (kin : setup.Kin setup') : setup'.stop = setup.stop := by
  rw [Setup.stop, Setup.stop, kin.tbase, kin.size]

theorem holds (kin : setup.Kin setup') (holds : setup.Holds) : setup'.Holds := by
  rw [Setup.Holds, kin.tbase, kin.size]
  exact holds

end Setup.Kin

theorem Fresh.opens_or_faults (fresh : Fresh setup w) (holds : setup.Holds)
    (clean : Clean setup.raw) :
    (∃ s, initOrExpand w.store = .ok () s) ∨ ∃ s, initOrExpand w.store = .error .fault s := by
  have site := fresh.site holds clean.top
  by_cases spill : w.store.mem.accessible (setup.tbase + setup.increasingSize) 8 = true
  · obtain ⟨m', opened, -⟩ := initOrExpand_fresh site spill
    exact Or.inl ⟨_, opened⟩
  · exact Or.inr (initOrExpand_fault site spill)

/-- Where one world can be initialised, the other can. -/
theorem Setup.Kin.opens (kin : setup.Kin setup') (holds : setup.Holds) (clean : Clean setup.raw)
    (clean' : Clean setup'.raw) (fresh : Fresh setup w) (fresh' : Fresh setup' w')
    (opened : initOrExpand w.store = .ok () s) :
    ∃ s', initOrExpand w'.store = .ok () s' ∧ s.gm.top ≠ 0 ∧
      Paired setup setup' ⟨s, []⟩ ⟨s', []⟩ := by
  have site := fresh.site holds clean.top
  have site' := fresh'.site (kin.holds holds) clean'.top
  by_cases spill : w.store.mem.accessible (setup.tbase + setup.increasingSize) 8 = true
  · have spill' : w'.store.mem.accessible (setup'.tbase + setup'.increasingSize) 8 = true := by
      rw [kin.tbase, kin.size, accessible, fresh'.mapped, kin.mapped, ← fresh.mapped]
      exact spill
    obtain ⟨m, done, -, -, rep⟩ := initOrExpand_fresh site spill
    obtain ⟨m', done', -, -, rep'⟩ := initOrExpand_fresh site' spill'
    rw [opened] at done
    obtain ⟨-, rfl⟩ := EStateM.Result.ok.inj done
    have positive := site.positive
    have start := site.start
    have phase := (fresh.opened holds clean opened).2
    have phase' := (fresh'.opened (kin.holds holds) clean' done').2
    -- the same bounds give the same heap, or the same refusal
    refine ⟨_, done', ?_, ?_, ?_, rfl, ?_, fun same => ?_⟩
    · show setup.first ≠ 0
      omega
    · rcases phase with ⟨wide, runs⟩ | ⟨small, narrow⟩
      · rcases phase' with ⟨-, runs'⟩ | ⟨small, -⟩
        · rw [kin.first, kin.stop] at runs'
          refine SamePhase.running (Heap.init setup.first setup.stop) ⟨runs, tracked_init _ _⟩
            ⟨?_, tracked_init _ _⟩
          rw [kin.first, kin.stop]
          exact runs'
        · rw [kin.first, kin.stop] at small
          omega
      · rcases phase' with ⟨wide, -⟩ | ⟨-, narrow'⟩
        · rw [kin.first, kin.stop] at wide
          omega
        · exact SamePhase.narrow small narrow narrow' rfl kin.first rfl
    · show w'.store.gm.this = w.store.gm.this
      rw [fresh'.gm, fresh.gm, kin.this]
    · show w'.store.underlyingCalls + 1 = w.store.underlyingCalls + 1
      rw [fresh'.calls, fresh.calls]
    · rw [← fresh.gm, ← fresh'.gm] at same
      refine ⟨same.this, ?_, rfl, rfl, rfl⟩
      show (initGm w'.store.gm setup'.tbase setup'.first setup'.stop).leastAddr =
        (initGm w.store.gm setup.tbase setup.first setup.stop).leastAddr
      simp only [initGm, same.leastAddr, kin.tbase]
  · obtain ⟨s'', faulted⟩ := initOrExpand_fault site spill
    rw [opened] at faulted
    cases faulted

theorem alloc_ends_after {bytes : Nat} {ending : Ending} (clean : Clean s.gm)
    (opened : initOrExpand s = .ok () s') (ends : (Call.alloc bytes).EndsAs s' ending) :
    (Call.alloc bytes).EndsAs s ending := by
  have later : ∀ fuel, (Call.alloc bytes).run (fuel + 1) s = (Call.alloc bytes).run fuel s' :=
    alloc_after clean opened
  cases ending with
  | returns value =>
      obtain ⟨t, fuel, ran⟩ := ends
      exact ⟨t, fuel + 1, (later fuel).trans ran⟩
  | throws =>
      obtain ⟨t, fuel, ran⟩ := ends
      exact ⟨t, fuel + 1, (later fuel).trans ran⟩
  | diverges =>
      intro fuel
      cases fuel with
      | zero => exact ⟨s, rfl⟩
      | succ fuel =>
          rw [later]
          exact ends fuel

namespace Paired

theorem permits (paired : Paired setup setup' w w') (permitted : w.permits call) :
    w'.permits call := by
  cases call with
  | alloc bytes => trivial
  | free mem =>
      rw [World.permits, paired.live]
      exact permitted
  | expand => trivial

theorem symm (kin : setup.Kin setup') (paired : Paired setup setup' w w') :
    Paired setup' setup w' w := by
  refine ⟨?_, paired.this.symm, paired.live.symm, paired.calls.symm, fun same => ?_⟩
  · cases paired.phase with
    | fresh fresh fresh' headers =>
        refine SamePhase.fresh fresh' fresh fun same x inside => ?_
        have object : HeaderBytes setup.raw x := by
          rw [HeaderBytes, ← kin.this]
          exact inside
        refine (headers (fun y inObject => (same y ?_).symm) x object).symm
        rw [HeaderBytes, kin.this]
        exact inObject
    | narrow small narrow narrow' top top' none =>
        refine SamePhase.narrow ?_ narrow' narrow ?_ ?_ (paired.live.trans none)
        · rw [kin.first, kin.stop]
          exact small
        · rw [kin.first]
          exact top'
        · rw [kin.first]
          exact top
    | running h runs runs' => exact SamePhase.running h runs' runs
  · have settings := paired.settings
      ⟨same.this.symm, same.leastAddr.symm, same.trimCheck.symm, same.releaseChecks.symm,
        same.magic.symm⟩
    exact ⟨settings.this.symm, settings.leastAddr.symm, settings.trimCheck.symm,
      settings.releaseChecks.symm, settings.magic.symm⟩

/-- A client's store outside the bookkeeping goes unnoticed. -/
theorem poke (paired : Paired setup setup' w w') {x : Nat}
    (outside : setup.Outside w x) (v : UInt8) : Paired setup setup' (w.poke x v) w' := by
  refine ⟨?_, paired.this, paired.live, paired.calls, paired.settings⟩
  cases paired.phase with
  | fresh fresh fresh' headers =>
      refine SamePhase.fresh ⟨fresh.gm, fresh.allocator, fresh.calls, fresh.size, fresh.step,
        fresh.mapped, fresh.none⟩ fresh' fun same y inside => ?_
      have differ : y ≠ x := by
        rintro rfl
        obtain ⟨lower, upper⟩ := inside
        have object : mallocStateSize = 904 := rfl
        refine outside (Or.inl ?_)
        rw [fresh.gm]
        omega
      rw [headers same y inside]
      simp [World.poke, setByte, differ]
  | narrow small narrow narrow' top top' none =>
      exact SamePhase.narrow small ⟨⟨narrow.smallmap, narrow.treemap, narrow.treebins, narrow.dv,
        narrow.dvsize⟩, narrow.present, narrow.few⟩ narrow' top top' none
  | running h runs runs' =>
      exact SamePhase.running h ⟨runs.rep.poke outside v, runs.tracked⟩ runs'

/-- Both keep the same bytes as bookkeeping. -/
theorem outside_iff (kin : setup.Kin setup') (clean : Clean setup.raw) (clean' : Clean setup'.raw)
    (paired : Paired setup setup' w w') (x : Nat) : setup'.Outside w' x ↔ setup.Outside w x := by
  rw [Setup.Outside, Setup.Outside, kin.first]
  refine not_congr ?_
  cases paired.phase with
  | fresh fresh fresh' headers =>
      have top : w.store.gm.top = 0 := by rw [fresh.gm, clean.top]
      have top' : w'.store.gm.top = 0 := by rw [fresh'.gm, clean'.top]
      rw [Unfiled.bookkeeping_iff (fresh.gm ▸ clean.toUnfiled) (Or.inl top),
        Unfiled.bookkeeping_iff (fresh'.gm ▸ clean'.toUnfiled) (Or.inl top'), paired.this, top, top']
  | narrow small narrow narrow' top top' none =>
      rw [narrow.bookkeeping_iff (Or.inr top), narrow'.bookkeeping_iff (Or.inr top'), paired.this,
        top, top']
  | running h runs runs' =>
      have rep' := runs'.rep
      rw [kin.first, kin.stop] at rep'
      rw [runs.rep.bookkeeping_iff, rep'.bookkeeping_iff, paired.this]

/-- What a call returns in an initialised world, it returns in the other. -/
theorem call_initialised (clean : Clean setup.raw)
    (paired : Paired setup setup' w w') (present : w.store.gm.top ≠ 0) (permitted : w.permits call)
    (returned : call.Returns w.store value s') :
    ∃ t, call.Returns w'.store value t ∧
      Paired setup setup' (w.after call value s') (w'.after call value t) := by
  have same : ∀ t, (w'.after call value t).live = (w.after call value s').live := by
    intro t
    cases call <;> simp [World.after, paired.live]
  -- the answer is the heap's, and the two runs share it
  cases paired.phase with
  | fresh fresh =>
      rw [fresh.gm] at present
      exact absurd clean.top present
  | narrow small narrow narrow' top top' none =>
      cases call with
      | alloc bytes => exact absurd returned ((narrow.alloc_diverges bytes).only.1 value s')
      | free mem => simp [World.permits, none] at permitted
      | expand =>
          obtain ⟨ran, rfl⟩ := expand_returns returned
          rw [initOrExpand_again narrow.present] at ran
          obtain ⟨-, rfl⟩ := EStateM.Result.ok.inj ran
          refine ⟨_, expand_opens (initOrExpand_again narrow'.present), ?_, paired.this, paired.live,
            ?_, paired.settings⟩
          · exact SamePhase.narrow small (narrow.recount _) (narrow'.recount _) top top' none
          · exact congrArg (· + 1) paired.calls
  | running h runs runs' =>
      obtain ⟨h', answered, after, kept, -⟩ := runs.returned permitted returned
      have permitted' := paired.permits permitted
      obtain ⟨t, returned', -⟩ := runs'.serves permitted' answered
      obtain ⟨h'', answered', after', kept', -⟩ := runs'.returned permitted' returned'
      rw [answered] at answered'
      obtain ⟨-, rfl⟩ := Heap.Reply.served.inj answered'
      refine ⟨t, returned', SamePhase.running h' after after', ?_, same t, ?_, fun raw => ?_⟩
      · rw [World.after_store, World.after_store, kept'.settings.this, kept.settings.this,
          paired.this]
      · rw [World.after_store, World.after_store, kept'.calls, kept.calls, paired.calls]
      · have settings := paired.settings raw
        have one := kept.settings
        have two := kept'.settings
        rw [World.after_store, World.after_store]
        exact ⟨by rw [two.this, one.this, settings.this],
          by rw [two.leastAddr, one.leastAddr, settings.leastAddr],
          by rw [two.trimCheck, one.trimCheck, settings.trimCheck],
          by rw [two.releaseChecks, one.releaseChecks, settings.releaseChecks],
          by rw [two.magic, one.magic, settings.magic]⟩

theorem returns (kin : setup.Kin setup') (holds : setup.Holds) (clean : Clean setup.raw)
    (clean' : Clean setup'.raw) (paired : Paired setup setup' w w') (permitted : w.permits call)
    (returned : call.Returns w.store value s') :
    ∃ t, call.Returns w'.store value t ∧
      Paired setup setup' (w.after call value s') (w'.after call value t) := by
  by_cases present : w.store.gm.top = 0
  · cases paired.phase with
    | narrow _ narrow => exact absurd present narrow.present
    | running h runs => exact absurd present runs.rep.top_ne_zero
    | fresh fresh fresh' =>
        cases call with
        | alloc bytes =>
            obtain ⟨s₁, opened, later⟩ := alloc_opens (fresh.gm ▸ clean) returned
            obtain ⟨t₁, opened', some, first⟩ := kin.opens holds clean clean' fresh fresh' opened
            obtain ⟨t, ⟨fuel, ran⟩, second⟩ := first.call_initialised clean some
              (show World.permits ⟨s₁, []⟩ (.alloc bytes) from trivial) later
            refine ⟨t, ⟨fuel + 1, (alloc_after (fresh'.gm ▸ clean') opened' fuel).trans ran⟩, ?_⟩
            simpa only [World.after, fresh.none, fresh'.none] using second
        | free mem => simp [World.permits, fresh.none] at permitted
        | expand =>
            obtain ⟨opened, rfl⟩ := expand_returns returned
            obtain ⟨t, opened', -, first⟩ := kin.opens holds clean clean' fresh fresh' opened
            refine ⟨t, expand_opens opened', ?_⟩
            simpa only [World.after, fresh.none, fresh'.none] using first
  · exact paired.call_initialised clean present permitted returned

theorem step (kin : setup.Kin setup') (holds : setup.Holds) (clean : Clean setup.raw)
    (clean' : Clean setup'.raw) {event : Event} {after : World}
    (paired : Paired setup setup' w w') (step : Step setup.Outside w event after) :
    ∃ after', Step setup'.Outside w' event after' ∧ Paired setup setup' after after' := by
  cases step with
  | call permitted returned =>
      obtain ⟨t, returned', after'⟩ := paired.returns kin holds clean clean' permitted returned
      exact ⟨_, Step.call (paired.permits permitted) returned', after'⟩
  | @poke x v outside =>
      have outside' := (paired.outside_iff kin clean clean' x).mpr outside
      exact ⟨_, Step.poke v outside',
        ((paired.poke outside v).symm kin |>.poke outside' v).symm kin.symm⟩

theorem ends_initialised (clean : Clean setup.raw) (paired : Paired setup setup' w w')
    (present : w.store.gm.top ≠ 0) (permitted : w.permits call) :
    ∃ ending, call.EndsAs w.store ending ∧ call.EndsAs w'.store ending := by
  cases paired.phase with
  | fresh fresh =>
      rw [fresh.gm] at present
      exact absurd clean.top present
  | narrow small narrow narrow' top top' none =>
      cases call with
      | alloc bytes => exact ⟨.diverges, narrow.alloc_diverges bytes, narrow'.alloc_diverges bytes⟩
      | free mem => simp [World.permits, none] at permitted
      | expand =>
          exact ⟨.returns 0, ⟨_, expand_opens (initOrExpand_again narrow.present)⟩,
            _, expand_opens (initOrExpand_again narrow'.present)⟩
  | running h runs runs' =>
      exact ⟨_, runs.ends permitted, runs'.ends (paired.permits permitted)⟩

theorem endsAlike (kin : setup.Kin setup') (holds : setup.Holds) (clean : Clean setup.raw)
    (clean' : Clean setup'.raw) (paired : Paired setup setup' w w') (permitted : w.permits call) :
    call.EndsAlike w.store w'.store := by
  by_cases present : w.store.gm.top = 0
  · cases paired.phase with
    | narrow _ narrow => exact absurd present narrow.present
    | running h runs => exact absurd present runs.rep.top_ne_zero
    | fresh fresh fresh' =>
        have same : Clean w.store.gm := fresh.gm ▸ clean
        have same' : Clean w'.store.gm := fresh'.gm ▸ clean'
        rcases fresh.opens_or_faults holds clean with ⟨s, opened⟩ | ⟨s, faulted⟩
        · obtain ⟨t, opened', some, first⟩ := kin.opens holds clean clean' fresh fresh' opened
          left
          cases call with
          | alloc bytes =>
              obtain ⟨ending, ends, ends'⟩ := first.ends_initialised clean some
                (show World.permits ⟨s, []⟩ (.alloc bytes) from trivial)
              exact ⟨ending, alloc_ends_after same opened ends,
                alloc_ends_after same' opened' ends'⟩
          | free mem => simp [World.permits, fresh.none] at permitted
          | expand => exact ⟨.returns 0, ⟨_, expand_opens opened⟩, _, expand_opens opened'⟩
        · have faulted' : ∃ t, initOrExpand w'.store = .error .fault t := by
            rcases fresh'.opens_or_faults (kin.holds holds) clean' with ⟨t, opened'⟩ | faulted'
            · obtain ⟨s', opened, -⟩ :=
                kin.symm.opens (kin.holds holds) clean' clean fresh' fresh opened'
              rw [faulted] at opened
              cases opened
            · exact faulted'
          obtain ⟨t, faulted'⟩ := faulted'
          right
          cases call with
          | alloc bytes =>
              refine ⟨⟨s, 1, ?_⟩, t, 1, ?_⟩
              · rw [alloc_clean same, Fuelled.bind_run, faulted]
              · rw [alloc_clean same', Fuelled.bind_run, faulted']
          | free mem => simp [World.permits, fresh.none] at permitted
          | expand =>
              refine ⟨⟨s, 0, ?_⟩, t, 0, ?_⟩
              · rw [Call.run, Fuelled.bind_run, faulted]
              · rw [Call.run, Fuelled.bind_run, faulted']
  · exact Or.inl (paired.ends_initialised clean present permitted)

end Paired

theorem Setup.Kin.start (kin : setup.Kin setup') : Paired setup setup' setup.start setup'.start :=
  ⟨SamePhase.fresh setup.start_fresh setup'.start_fresh fun same => same, kin.this, rfl, rfl,
    fun same => same⟩

end Kin

end Unimem
