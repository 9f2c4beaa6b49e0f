import Unimem.Calls
import Unimem.Picks
import Unimem.Transitions

/-!
Runs of the allocator over one block of memory: calls that return normally, and
stores of the clients in between. Every world a run reaches is still to be
initialised, or represents a heap whose chunks in use are the live allocations,
or has a segment too small for a single head.
-/

namespace Unimem

open ByteMemory Memory MallocState Transitions

/-- What a UniAllocator is built over: the old contents of its object, the memory,
and an underlying allocator whose first answer is a fresh block of the memory, not
null. The object does not lie within 8 bytes behind the block, where the head that
ends the segment is written. -/
structure Setup where
  raw : MallocState
  mem : Memory
  underlyingAllocator : Nat → Nat → Nat
  increasingSize : Nat
  word : increasingSize < 2 ^ 64
  positive : 0 < underlyingAllocator 0 increasingSize
  bound : underlyingAllocator 0 increasingSize + increasingSize ≤ 2 ^ 64
  aligned : raw.this % 8 = 0
  object : raw.this + mallocStateSize ≤ 2 ^ 64
  objectMapped : ∀ x, raw.this ≤ x → x < raw.this + mallocStateSize → mem.mapped x = true
  blockMapped : ∀ x, underlyingAllocator 0 increasingSize ≤ x →
    x < underlyingAllocator 0 increasingSize + increasingSize → mem.mapped x = true
  apart : raw.this + mallocStateSize ≤ underlyingAllocator 0 increasingSize ∨
    underlyingAllocator 0 increasingSize + increasingSize + 8 ≤ raw.this

/-- All fields zero. -/
structure Zeroed (g : MallocState) : Prop extends Clean g where
  topsizeZero : g.topsize = 0
  leastAddr : g.leastAddr = 0
  trimCheck : g.trimCheck = 0
  releaseChecks : g.releaseChecks = 0
  magic : g.magic = 0

/-- A store, and the live allocations with the sizes they were requested with. -/
structure World where
  store : Store
  live : List (Nat × Nat)

namespace World

def permits (w : World) : Call → Prop
  | .alloc _ => True
  | .free mem => mem ∈ w.live.map Prod.fst
  | .expand => True

def after (w : World) (call : Call) (value : Nat) (s' : Store) : World :=
  match call with
  | .alloc bytes => ⟨s', (value, bytes) :: w.live⟩
  | .free mem => ⟨s', w.live.filter fun entry => entry.1 ≠ mem⟩
  | .expand => ⟨s', w.live⟩

@[simp] theorem after_store (w : World) (call : Call) (value : Nat) (s' : Store) :
    (w.after call value s').store = s' := by cases call <;> rfl

def poke (w : World) (x : Nat) (v : UInt8) : World :=
  { w with store := { w.store with mem := w.store.mem.setByte x v } }

end World

inductive Event where
  | call (call : Call) (value : Nat)
  | poke (x : Nat) (v : UInt8)

def Event.asked : Event → Option Call
  | .call asked _ => some asked
  | .poke _ _ => none

theorem Event.of_asked {events : List Event} {calls : List Call} {call : Call}
    (same : events.map Event.asked = calls.map some) (member : call ∈ calls) :
    ∃ value, Event.call call value ∈ events := by
  have found : some call ∈ events.map Event.asked := by
    rw [same]
    exact List.mem_map_of_mem member
  obtain ⟨event, inside, asked⟩ := List.mem_map.mp found
  cases event with
  | call other value =>
      obtain rfl := Option.some.inj asked
      exact ⟨value, inside⟩
  | poke x v => cases asked

/-- A call that returns, or a client's store to a byte it may write. -/
inductive Step (writable : World → Nat → Prop) : World → Event → World → Prop
  | call {w : World} {call : Call} {value : Nat} {s' : Store} : w.permits call →
      call.Returns w.store value s' → Step writable w (.call call value) (w.after call value s')
  | poke {w : World} {x : Nat} (v : UInt8) : writable w x → Step writable w (.poke x v) (w.poke x v)

namespace Setup

variable (setup : Setup)

def tbase : Nat := setup.underlyingAllocator 0 setup.increasingSize

/-- The first chunk and the end of top, as init_top places them. -/
def first : Nat := setup.tbase + alignOffset (chunk2mem setup.tbase)
def stop : Nat := setup.tbase + setup.increasingSize - topFootSize

/-- The block holds the gap in front of the first chunk and the foot. -/
def Holds : Prop := alignOffset (chunk2mem setup.tbase) + topFootSize ≤ setup.increasingSize

/-- A 16-aligned block whose size is a multiple of 16. -/
structure Aligned : Prop where
  base : setup.tbase % 16 = 0
  size : setup.increasingSize % 16 = 0
  some : 0 < setup.increasingSize

/-- A 16-aligned block of a size multiple of 16 and at least 64. -/
structure Regular : Prop where
  base : setup.tbase % 16 = 0
  size : setup.increasingSize % 16 = 0
  least : 64 ≤ setup.increasingSize

def start : World :=
  ⟨construct setup.underlyingAllocator setup.increasingSize setup.raw setup.mem, []⟩

/-- Clients that do not write over bookkeeping. -/
def Outside (w : World) (x : Nat) : Prop := ¬ w.store.Bookkeeping setup.first x

abbrev Reaches (events : List Event) (w : World) : Prop :=
  Run (Step setup.Outside) setup.start events w

end Setup

/-- Not initialised yet: nothing but client stores has happened. -/
structure Fresh (setup : Setup) (w : World) : Prop where
  gm : w.store.gm = setup.raw
  allocator : w.store.underlyingAllocator = setup.underlyingAllocator
  calls : w.store.underlyingCalls = 0
  size : w.store.increasingSize = setup.increasingSize
  step : w.store.increasingStep = 1
  mapped : w.store.mem.mapped = setup.mem.mapped
  none : w.live = []

/-- Initialised on a segment too small for a chunk head: nothing is ever served. -/
structure Narrow (s : Store) : Prop extends Unfiled s.gm where
  present : s.gm.top ≠ 0
  few : s.gm.topsize < 8

/-- The live allocations are the chunks in use, each large enough for its request. -/
structure Tracked (h : Heap) (live : List (Nat × Nat)) : Prop where
  nodup : (live.map Prod.fst).Nodup
  used : ∀ a k, h.Used a k → ∃ bytes, (a + 32, bytes) ∈ live
  live : ∀ mem bytes, (mem, bytes) ∈ live → ∃ a k, mem = a + 32 ∧ h.Used a k ∧
    paddedRequest bytes ≤ k ∧ k < paddedRequest bytes + 32

structure Runs (setup : Setup) (w : World) (h : Heap) : Prop where
  rep : Represents setup.first setup.stop (setup.stop + 16) w.store h []
  tracked : Tracked h w.live

inductive Phase (setup : Setup) (w : World) : Prop
  | fresh : Fresh setup w → Phase setup w
  | narrow : setup.stop < setup.first + 8 → Narrow w.store → w.live = [] → Phase setup w
  | running (h : Heap) : Runs setup w h → Phase setup w

section Opening

variable {setup : Setup} {w : World} {s s' : Store} {bytes value : Nat}

theorem Fresh.site (fresh : Fresh setup w) (holds : setup.Holds) (top : setup.raw.top = 0) :
    Site setup.tbase setup.increasingSize setup.first setup.stop w.store := by
  have foot : topFootSize = 8 := rfl
  have size : mallocStateSize = 904 := rfl
  have fits := setup.bound
  have object := setup.object
  have apart := setup.apart
  have word := setup.word
  have aligned := alignOffset_eq (chunk2mem setup.tbase)
  unfold Setup.Holds at holds
  rw [foot] at holds
  rw [size] at object apart
  have base : setup.tbase = setup.underlyingAllocator 0 setup.increasingSize := rfl
  refine
    { positive := setup.positive
      bound := setup.bound
      start := rfl
      finish := by rw [Setup.stop, foot, base] at *; omega
      room := by rw [Setup.first, Setup.stop, foot]; omega
      top := by rw [fresh.gm, top]
      size := by rw [fresh.size, fresh.step, Nat.mul_one, Nat.mod_eq_of_lt word]
      base := by rw [fresh.allocator, fresh.calls]; rfl
      aligned := by rw [fresh.gm]; exact setup.aligned
      object := by rw [fresh.gm]; omega
      headers := fun x inside => ?_
      apart := ?_
      block := fun x lower upper => by rw [fresh.mapped]; exact setup.blockMapped x lower upper }
  · obtain ⟨lower, upper⟩ := inside
    rw [fresh.gm] at lower upper
    rw [fresh.mapped]
    exact setup.objectMapped x (by omega) (by omega)
  · rw [fresh.gm, Setup.first, Setup.stop, foot]
    rw [← base] at apart
    omega

/-- The first InitOrExpand, where it returns. -/
theorem Fresh.opened (fresh : Fresh setup w) (holds : setup.Holds) (clean : Clean setup.raw)
    (ran : initOrExpand w.store = .ok () s) :
    s.gm = initGm setup.raw setup.tbase setup.first setup.stop ∧
      ((setup.first + 8 ≤ setup.stop ∧
          Represents setup.first setup.stop (setup.stop + 16) s
            (Heap.init setup.first setup.stop) []) ∨
        (setup.stop < setup.first + 8 ∧ Narrow s)) := by
  have site := fresh.site holds clean.top
  by_cases spill : w.store.mem.accessible (setup.tbase + setup.increasingSize) 8 = true
  · obtain ⟨m', done, -, -, rep⟩ := initOrExpand_fresh site spill
    rw [ran] at done
    obtain ⟨-, rfl⟩ := EStateM.Result.ok.inj done
    rw [fresh.gm] at rep ⊢
    refine ⟨rfl, ?_⟩
    by_cases wide : setup.first + 8 ≤ setup.stop
    · exact Or.inl ⟨wide, rep clean.toUnfiled wide⟩
    · have positive := site.positive
      have start := site.start
      refine Or.inr ⟨by omega, ?_, ?_, ?_⟩
      · exact ⟨clean.smallmap, clean.treemap, clean.treebins, clean.dv, clean.dvsize⟩
      · show setup.first ≠ 0
        omega
      · show setup.stop - setup.first < 8
        omega
  · obtain ⟨s', done⟩ := initOrExpand_fault site spill
    rw [ran] at done
    cases done

/-- Alloc on a clean state is InitOrExpand and Alloc again. -/
theorem alloc_clean (clean : Clean s.gm) (fuel : Nat) :
    (Call.alloc bytes).run (fuel + 1) s =
      (do initOrExpand; (Call.alloc bytes).run fuel : Prog Nat) s := by
  simp only [Call.run, alloc, Fuelled.bind_run, tryAlloc_clean clean fuel bytes]

theorem alloc_after (clean : Clean s.gm) (opened : initOrExpand s = .ok () s') (fuel : Nat) :
    (Call.alloc bytes).run (fuel + 1) s = (Call.alloc bytes).run fuel s' := by
  rw [alloc_clean clean, Fuelled.bind_run, opened]

theorem alloc_opens (clean : Clean s.gm) (returned : (Call.alloc bytes).Returns s value s') :
    ∃ s₁, initOrExpand s = .ok () s₁ ∧ (Call.alloc bytes).Returns s₁ value s' := by
  obtain ⟨fuel, ran⟩ := returned
  cases fuel with
  | zero => cases ran
  | succ fuel =>
      rw [alloc_clean clean, Fuelled.bind_run] at ran
      cases opened : initOrExpand s with
      | ok _ s₁ =>
          rw [opened] at ran
          exact ⟨s₁, rfl, fuel, ran⟩
      | error stop s₁ =>
          rw [opened] at ran
          cases ran

theorem expand_returns {s' : Store} (returned : Call.expand.Returns s value s') :
    initOrExpand s = .ok () s' ∧ value = 0 := by
  obtain ⟨fuel, ran⟩ := returned
  rw [Call.run, Fuelled.bind_run] at ran
  cases opened : initOrExpand s with
  | ok _ s₁ =>
      rw [opened] at ran
      obtain ⟨rfl, rfl⟩ := EStateM.Result.ok.inj ran
      exact ⟨rfl, rfl⟩
  | error stop s₁ =>
      rw [opened] at ran
      cases ran

theorem expand_opens {s' : Store} (opened : initOrExpand s = .ok () s') :
    Call.expand.Returns s 0 s' := by
  refine ⟨0, ?_⟩
  rw [Call.run, Fuelled.bind_run, opened]
  rfl

theorem Narrow.recount (narrow : Narrow s) (calls : Nat) :
    Narrow { s with underlyingCalls := calls } :=
  ⟨⟨narrow.smallmap, narrow.treemap, narrow.treebins, narrow.dv, narrow.dvsize⟩, narrow.present,
    narrow.few⟩

/-- A narrow segment serves nothing, and expanding adds nothing. -/
theorem Narrow.alloc_diverges (narrow : Narrow s) (bytes : Nat) :
    (Call.alloc bytes).Diverges s := by
  refine Unimem.alloc_diverges (P := Narrow) (fun s narrow =>
    ⟨narrow.present, narrow.recount _, 0, ?_⟩)
    narrow
  have few := narrow.few
  exact tryAlloc_unfiled narrow.toUnfiled (by omega) 0 bytes

end Opening

section Tracking

variable {setup : Setup} {w : World} {h h' : Heap} {call : Call} {value : Nat} {s' : Store}

theorem Heap.Used.unique {first stop : Nat} (layout : Layout first stop h.top h.blocks) {a k n : Nat}
    (one : h.Used a k) (two : h.Used a n) : k = n := by
  obtain ⟨-, b, inBlocks, here, rfl, -⟩ := one
  obtain ⟨-, c, inBlocks', there, rfl, -⟩ := two
  rw [layout.addr_inj inBlocks inBlocks' (here.trans there.symm)]

/-- What is handed out was not in use. -/
theorem Carved.unused {first stop nb p k : Nat} (layout : Layout first stop h.top h.blocks)
    (carved : Carved h h' nb p) : ¬ h.Used p k := by
  rintro ⟨notTop, c, member, here, -, used⟩
  cases carved with
  | whole below above b n shape unused at_ =>
      have same := layout.addr_inj member (by simp [shape] : b ∈ h.blocks) (here.trans at_.symm)
      simp [same, unused] at used
  | part below above b n shape unused at_ =>
      have same := layout.addr_inj member (by simp [shape] : b ∈ h.blocks) (here.trans at_.symm)
      simp [same, unused] at used
  | top below t shape atTop isTop => exact notTop isTop

theorem Tracked.obeys {first stop limit : Nat} {s : Store} (tracked : Tracked h w.live)
    (rep : Represents first stop limit s h []) (permitted : w.permits call) :
    Obeys first stop limit s h call (h.answer call) := by
  cases call with
  | alloc bytes => exact rep.alloc_obeys bytes
  | free mem =>
      obtain ⟨⟨_, bytes⟩, member, rfl⟩ := List.mem_map.mp permitted
      obtain ⟨a, k, rfl, used, -⟩ := tracked.live _ _ member
      exact rep.free_obeys used
  | expand => exact rep.expand_obeys

theorem Runs.obeys (runs : Runs setup w h) (permitted : w.permits call) :
    Obeys setup.first setup.stop (setup.stop + 16) w.store h call (h.answer call) :=
  runs.tracked.obeys runs.rep permitted

theorem Tracked.after {first stop limit : Nat} (rep : Represents first stop limit w.store h [])
    (tracked : Tracked h w.live) (permitted : w.permits call)
    (answered : h.answer call = .served value h') (served : Served call h h' value) :
    Tracked h' (w.after call value s').live := by
  cases call with
  | alloc bytes =>
      obtain ⟨p, k, rfl, least, most, used⟩ := served
      obtain ⟨q, same, carved⟩ := rep.alloc_carved answered
      obtain rfl : q = p := by omega
      refine ⟨?_, fun a n usedA => ?_, fun mem other member => ?_⟩
      · show (((q + 32, bytes) :: w.live).map Prod.fst).Nodup
        rw [List.map_cons, List.nodup_cons]
        refine ⟨fun twice => ?_, tracked.nodup⟩
        obtain ⟨⟨mem, other⟩, member, at_⟩ := List.mem_map.mp twice
        obtain ⟨a, n, rfl, usedA, -⟩ := tracked.live mem other member
        obtain rfl : a = q := Nat.add_right_cancel at_
        exact carved.unused rep.layout usedA
      · rcases (used a n).mp usedA with old | ⟨rfl, rfl⟩
        · obtain ⟨other, member⟩ := tracked.used a n old
          exact ⟨other, List.mem_cons_of_mem _ member⟩
        · exact ⟨bytes, List.mem_cons_self⟩
      · rcases List.mem_cons.mp member with isNew | old
        · obtain ⟨rfl, rfl⟩ := Prod.mk.inj isNew
          exact ⟨q, k, rfl, (used q k).mpr (Or.inr ⟨rfl, rfl⟩), least, most⟩
        · obtain ⟨a, n, at_, usedA, bounds⟩ := tracked.live mem other old
          exact ⟨a, n, at_, (used a n).mpr (Or.inl usedA), bounds⟩
  | free mem =>
      have used : ∀ a n, h'.Used a n ↔ h.Used a n ∧ a + 32 ≠ mem := served
      refine ⟨?_, fun a n usedA => ?_, fun other bytes member => ?_⟩
      · exact (tracked.nodup.sublist (List.filter_sublist.map _))
      · obtain ⟨old, differ⟩ := (used a n).mp usedA
        obtain ⟨bytes, member⟩ := tracked.used a n old
        exact ⟨bytes, List.mem_filter.mpr ⟨member, by simpa using differ⟩⟩
      · obtain ⟨old, differ⟩ := List.mem_filter.mp member
        obtain ⟨a, n, rfl, usedA, bounds⟩ := tracked.live other bytes old
        exact ⟨a, n, rfl, (used a n).mpr ⟨usedA, by simpa using differ⟩, bounds⟩
  | expand =>
      obtain rfl : h' = h := served
      exact tracked

/-- A call that returns in a running world did what the heap answers. -/
theorem Runs.returned (runs : Runs setup w h) (permitted : w.permits call)
    (returned : call.Returns w.store value s') :
    ∃ h', h.answer call = .served value h' ∧ Runs setup (w.after call value s') h' ∧
      Kept call h w.store s' ∧ Served call h h' value := by
  have obeys := runs.obeys permitted
  cases answered : h.answer call with
  | served value' h' =>
      rw [answered] at obeys
      obtain ⟨s'', ran, rep', kept, served⟩ := obeys
      have ends := call.outcomes w.store (ran 3 (Nat.le_refl 3)) Call.ok_ends
      obtain ⟨rfl, rfl⟩ := EStateM.Result.ok.inj ((ends.1 value s').mp returned)
      exact ⟨h', rfl, ⟨by rw [World.after_store]; exact rep',
        runs.tracked.after runs.rep permitted answered served⟩, kept, served⟩
  | corrupted =>
      rw [answered] at obeys
      obtain ⟨s'', ran, -⟩ := obeys
      have ends := call.outcomes w.store (ran 3 (Nat.le_refl 3)) (Call.error_ends (by decide))
      cases (ends.1 value s').mp returned
  | expand =>
      rw [answered] at obeys
      exact absurd returned (obeys.only.1 value s')

/-- The calls the heap serves do return. -/
theorem Runs.serves (runs : Runs setup w h) (permitted : w.permits call)
    (answered : h.answer call = .served value h') :
    ∃ s', call.Returns w.store value s' ∧ Runs setup (w.after call value s') h' := by
  have obeys := runs.obeys permitted
  rw [answered] at obeys
  obtain ⟨s', ran, rep', kept, served⟩ := obeys
  exact ⟨s', ⟨3, ran 3 (Nat.le_refl 3)⟩, by rw [World.after_store]; exact rep',
    runs.tracked.after runs.rep permitted answered served⟩

theorem Runs.ends (runs : Runs setup w h) (permitted : w.permits call) :
    call.EndsAs w.store (h.answer call).ending := by
  have obeys := runs.obeys permitted
  cases answered : h.answer call with
  | served value h' =>
      rw [answered] at obeys
      obtain ⟨s', ran, -⟩ := obeys
      exact ⟨s', 3, ran 3 (Nat.le_refl 3)⟩
  | corrupted =>
      rw [answered] at obeys
      obtain ⟨s', ran, -⟩ := obeys
      exact ⟨s', 3, ran 3 (Nat.le_refl 3)⟩
  | expand =>
      rw [answered] at obeys
      exact obeys

theorem tracked_init (first stop : Nat) : Tracked (Heap.init first stop) [] := by
  refine ⟨List.nodup_nil, ?_, fun mem bytes member => by cases member⟩
  rintro a k ⟨notTop, b, member, rfl, -⟩
  rw [Heap.init, List.mem_singleton] at member
  exact absurd (by rw [member]; rfl) notTop

end Tracking

section Phases

variable {setup : Setup} {w w' : World} {event : Event} {writable : World → Nat → Prop}

theorem Phase.step (holds : setup.Holds) (clean : Clean setup.raw) (phase : Phase setup w)
    (outside : ∀ x, writable w x → (∃ h, Runs setup w h) → setup.Outside w x)
    (step : Step writable w event w') : Phase setup w' := by
  cases step with
  | @call call value s' permitted returned =>
      cases phase with
      | running h runs =>
          obtain ⟨h', -, runs', -⟩ := runs.returned permitted returned
          exact Phase.running h' runs'
      | fresh fresh =>
          -- the first InitOrExpand either opens the heap or leaves it too narrow
          have opened : ∀ s, initOrExpand w.store = .ok () s →
              (∃ h, Runs setup ⟨s, []⟩ h) ∨ (setup.stop < setup.first + 8 ∧ Narrow s) := by
            intro s ran
            rcases (fresh.opened holds clean ran).2 with ⟨-, rep⟩ | narrow
            · exact Or.inl ⟨_, rep, tracked_init _ _⟩
            · exact Or.inr narrow
          cases call with
          | alloc bytes =>
              -- an Alloc on the fresh allocator expands and then starts over
              obtain ⟨s, ran, later⟩ := alloc_opens (fresh.gm ▸ clean) returned
              rcases opened s ran with ⟨h, runs⟩ | ⟨-, narrow⟩
              · have permitted : World.permits ⟨s, []⟩ (.alloc bytes) := trivial
                obtain ⟨h', -, runs', -⟩ := runs.returned permitted later
                refine Phase.running h' ⟨runs'.rep, ?_⟩
                have tracked := runs'.tracked
                simpa only [World.after, fresh.none] using tracked
              · exact absurd later ((narrow.alloc_diverges bytes).only.1 value s')
          | free mem => simp [World.permits, fresh.none] at permitted
          | expand =>
              obtain ⟨ran, rfl⟩ := expand_returns returned
              rcases opened s' ran with ⟨h, runs⟩ | ⟨small, narrow⟩
              · refine Phase.running h ⟨runs.rep, ?_⟩
                simpa only [World.after, fresh.none] using runs.tracked
              · exact Phase.narrow small narrow fresh.none
      | narrow small narrow none =>
          cases call with
          | alloc bytes => exact absurd returned ((narrow.alloc_diverges bytes).only.1 value s')
          | free mem => simp [World.permits, none] at permitted
          | expand =>
              obtain ⟨ran, rfl⟩ := expand_returns returned
              -- a second InitOrExpand only counts the underlying call
              rw [initOrExpand_again narrow.present] at ran
              obtain ⟨-, rfl⟩ := EStateM.Result.ok.inj ran
              exact Phase.narrow small (narrow.recount _) none
  | poke v may =>
      cases phase with
      | fresh fresh =>
          exact Phase.fresh ⟨fresh.gm, fresh.allocator, fresh.calls, fresh.size, fresh.step,
            fresh.mapped, fresh.none⟩
      | narrow small narrow none =>
          exact Phase.narrow small ⟨⟨narrow.smallmap, narrow.treemap, narrow.treebins, narrow.dv,
            narrow.dvsize⟩, narrow.present, narrow.few⟩ none
      | running h runs =>
          exact Phase.running h ⟨runs.rep.poke (outside _ may ⟨h, runs⟩) v, runs.tracked⟩

theorem Phase.running_stays (before : ∃ h, Runs setup w h) (step : Step setup.Outside w event w') :
    ∃ h, Runs setup w' h := by
  obtain ⟨h, runs⟩ := before
  cases step with
  | call permitted returned =>
      obtain ⟨h', -, runs', -⟩ := runs.returned permitted returned
      exact ⟨h', runs'⟩
  | poke v outside => exact ⟨h, runs.rep.poke outside v, runs.tracked⟩

theorem Setup.start_fresh (setup : Setup) : Fresh setup setup.start :=
  ⟨rfl, rfl, rfl, rfl, rfl, rfl, rfl⟩

/-- Every world a run reaches is in one of the phases. -/
theorem Setup.Reaches.phase {events : List Event} (run : setup.Reaches events w)
    (holds : setup.Holds) (clean : Clean setup.raw) : Phase setup w :=
  run.invariant _ (Phase.fresh setup.start_fresh) fun _ _ _ phase step =>
    phase.step holds clean (fun _ outside _ => outside) step

/-- A segment that holds a chunk head. -/
def Setup.Wide (setup : Setup) : Prop := setup.first + 8 ≤ setup.stop

theorem Phase.initialised (holds : setup.Holds) (clean : Clean setup.raw) (wide : setup.Wide)
    (phase : Phase setup w) {call : Call} {value : Nat} (opens : ∀ mem, call ≠ .free mem)
    (step : Step setup.Outside w (.call call value) w') : ∃ h, Runs setup w' h := by
  have after := phase.step holds clean (fun _ outside _ => outside) step
  cases after with
  | running h runs => exact ⟨h, runs⟩
  | narrow small => exact absurd wide (by rw [Setup.Wide]; omega)
  | fresh fresh' =>
      -- a fresh world has no live allocation and an unused underlying allocator
      cases step with
      | @call _ _ s' permitted returned =>
          cases call with
          | alloc bytes => simpa [World.after] using fresh'.none
          | free mem => exact absurd rfl (opens mem)
          | expand =>
              have calls : s'.underlyingCalls = 0 := fresh'.calls
              obtain ⟨ran, -⟩ := expand_returns returned
              cases phase with
              | running h runs =>
                  rw [initOrExpand_again runs.rep.top_ne_zero] at ran
                  obtain ⟨-, rfl⟩ := EStateM.Result.ok.inj ran
                  cases calls
              | narrow small => exact absurd wide (by rw [Setup.Wide]; omega)
              | fresh fresh =>
                  have top : s'.gm.top = setup.raw.top := congrArg MallocState.top fresh'.gm
                  have opened := (fresh.opened holds clean ran).1
                  have site := fresh.site holds clean.top
                  have positive := site.positive
                  have start := site.start
                  rw [opened, clean.top] at top
                  have none : setup.first = 0 := top
                  omega

/-- After an Alloc or an InitOrExpand a heap is represented. -/
theorem Setup.Reaches.running {events : List Event} (run : setup.Reaches events w)
    (holds : setup.Holds) (clean : Clean setup.raw) (wide : setup.Wide) {call : Call} {value : Nat}
    (opens : ∀ mem, call ≠ .free mem) (happened : Event.call call value ∈ events) :
    ∃ h, Runs setup w h := by
  have both : Phase setup w ∧ (Event.call call value ∈ events → ∃ h, Runs setup w h) := by
    refine run.induct (fun events w => Phase setup w ∧
      (Event.call call value ∈ events → ∃ h, Runs setup w h))
      ⟨Phase.fresh setup.start_fresh, fun never => by cases never⟩ ?_
    rintro events w event after ⟨phase, earlier⟩ step
    refine ⟨phase.step holds clean (fun _ outside _ => outside) step, fun happened => ?_⟩
    rcases List.mem_append.mp happened with before | now
    · exact (Phase.running_stays (earlier before) step)
    · obtain rfl := List.mem_singleton.mp now
      exact phase.initialised holds clean wide opens step
  exact both.2 happened

end Phases

/-! ## Runs from what the heap answers -/

/-- The heap and the live allocations after some calls, if each is permitted and served. -/
def Heap.replay (h : Heap) (live : List (Nat × Nat)) :
    List Call → Option (Heap × List (Nat × Nat))
  | [] => some (h, live)
  | .alloc bytes :: rest =>
      match h.alloc bytes with
      | .served value h' => h'.replay ((value, bytes) :: live) rest
      | _ => none
  | .free mem :: rest =>
      if mem ∈ live.map Prod.fst then
        match h.free (mem - 32) with
        | some h' => h'.replay (live.filter fun entry => entry.1 ≠ mem) rest
        | none => none
      else none
  | .expand :: rest => h.replay live rest

section Replays

variable {setup : Setup} {w : World} {h h' : Heap} {events : List Event}

theorem Runs.replays (runs : Runs setup w h) (run : setup.Reaches events w) {calls : List Call}
    {live : List (Nat × Nat)} (replayed : h.replay w.live calls = some (h', live)) :
    ∃ later w', setup.Reaches (events ++ later) w' ∧ Runs setup w' h' ∧ w'.live = live ∧
      later.map Event.asked = calls.map some := by
  induction calls generalizing w h events with
  | nil =>
      obtain ⟨rfl, rfl⟩ := Prod.mk.inj (Option.some.inj replayed)
      exact ⟨[], w, by simpa using run, runs, rfl, rfl⟩
  | cons call rest ih =>
      have next : ∀ value h₁, w.permits call → h.answer call = .served value h₁ →
          h₁.replay (w.after call value w.store).live rest = some (h', live) →
          ∃ later w', setup.Reaches (events ++ later) w' ∧ Runs setup w' h' ∧ w'.live = live ∧
            later.map Event.asked = (call :: rest).map some := by
        intro value h₁ permitted answered others
        obtain ⟨s', returned, runs'⟩ := runs.serves permitted answered
        have same : (w.after call value s').live = (w.after call value w.store).live := by
          cases call <;> rfl
        obtain ⟨later, w', run', found, ends, happened⟩ :=
          ih runs' (run.snoc (Step.call permitted returned)) (same ▸ others)
        refine ⟨.call call value :: later, w', by simpa using run', found, ends, ?_⟩
        rw [List.map_cons, List.map_cons, happened, Event.asked]
      cases call with
      | alloc bytes =>
          rw [Heap.replay] at replayed
          split at replayed
          · rename_i value h₁ served
            exact next value h₁ trivial served replayed
          · cases replayed
      | free mem =>
          rw [Heap.replay] at replayed
          split at replayed
          · rename_i inLive
            split at replayed
            · rename_i h₁ freed
              exact next 0 h₁ inLive (by rw [Heap.answer, freed]) replayed
            · cases replayed
          · cases replayed
      | expand => exact next 0 h trivial rfl replayed

/-- InitOrExpand on a fresh world whose block is followed by a writable word. -/
theorem Fresh.opens {w : World} (fresh : Fresh setup w) (holds : setup.Holds)
    (clean : Clean setup.raw) (wide : setup.Wide)
    (spill : w.store.mem.accessible (setup.tbase + setup.increasingSize) 8 = true) :
    ∃ s, initOrExpand w.store = .ok () s ∧ Runs setup ⟨s, []⟩
      (Heap.init setup.first setup.stop) := by
  obtain ⟨m', ran, -, -, rep⟩ := initOrExpand_fresh (fresh.site holds clean.top) spill
  exact ⟨_, ran, rep (fresh.gm ▸ clean.toUnfiled) wide, tracked_init _ _⟩

/-- The first Alloc on such a world. -/
theorem Setup.begins (setup : Setup) (holds : setup.Holds) (clean : Clean setup.raw)
    (wide : setup.Wide)
    (spill : setup.mem.accessible (setup.tbase + setup.increasingSize) 8 = true) {bytes value : Nat}
    (served : (Heap.init setup.first setup.stop).alloc bytes = .served value h') :
    ∃ w, setup.Reaches [.call (.alloc bytes) value] w ∧ Runs setup w h' ∧
      w.live = [(value, bytes)] := by
  obtain ⟨s, opened, runs⟩ := setup.start_fresh.opens holds clean wide spill
  have permitted : World.permits ⟨s, []⟩ (.alloc bytes) := trivial
  obtain ⟨s', ⟨fuel, ran⟩, runs'⟩ := runs.serves permitted served
  have returned : (Call.alloc bytes).Returns setup.start.store value s' :=
    ⟨fuel + 1, (alloc_after clean opened fuel).trans ran⟩
  exact ⟨_, Run.snoc Run.nil (Step.call trivial returned), runs', rfl⟩

/-- A zeroed object at 64 and blocks of `size` bytes from 4096 on, all memory mapped. -/
def Setup.sample (size : Nat) (fits : size ≤ 2 ^ 32) : Setup where
  raw := ⟨64, 0, 0, 0, 0, 0, 0, 0, 0, 0, 0, fun _ => 0⟩
  mem := ⟨fun _ => 0, fun _ => true⟩
  underlyingAllocator := fun calls _ => 4096 + calls * 2 ^ 33
  increasingSize := size
  word := by omega
  positive := by omega
  bound := by omega
  aligned := rfl
  object := by decide
  objectMapped := fun _ _ _ => rfl
  blockMapped := fun _ _ _ => rfl
  apart := Or.inl (by decide)

theorem Setup.sample_zeroed (size : Nat) (fits : size ≤ 2 ^ 32) :
    Zeroed (Setup.sample size fits).raw :=
  ⟨⟨⟨rfl, rfl, fun _ _ => rfl, rfl, rfl⟩, rfl, Nat.zero_le _⟩, rfl, rfl, rfl, rfl, rfl⟩

theorem Setup.sample_regular {size : Nat} (fits : size ≤ 2 ^ 32) (multiple : size % 16 = 0)
    (least : 64 ≤ size) : (Setup.sample size fits).Regular :=
  ⟨show 4096 % 16 = 0 by decide, multiple, least⟩

end Replays

section Regular

variable {setup : Setup}

theorem Setup.Regular.aligned (regular : setup.Regular) : setup.Aligned :=
  ⟨regular.base, regular.size, Nat.lt_of_lt_of_le (by decide) regular.least⟩

namespace Setup.Aligned

theorem first_eq (aligned : setup.Aligned) : setup.first = setup.tbase := by
  have base := aligned.base
  have distance : twoSizeTSizes = 32 := rfl
  have offset := alignOffset_eq (chunk2mem setup.tbase)
  rw [chunk2mem, distance] at offset
  unfold WordArith.add64 at offset
  rw [Setup.first, chunk2mem, distance, WordArith.add64, offset]
  omega

theorem bounds (aligned : setup.Aligned) : setup.Holds ∧ setup.Wide ∧ TopFree setup.stop := by
  have base := aligned.base
  have size := aligned.size
  have some := aligned.some
  have first := aligned.first_eq
  have foot : topFootSize = 8 := rfl
  refine ⟨?_, ?_, ?_⟩
  · rw [Setup.Holds, foot]
    rw [Setup.first] at first
    omega
  · rw [Setup.Wide, first, Setup.stop, foot]
    omega
  · rw [TopFree, Setup.stop, foot]
    omega

end Setup.Aligned

/-- What the heap replays from an all-top segment, the sample does. -/
theorem Setup.sample_replays {size bytes : Nat} (fits : size ≤ 2 ^ 32) (multiple : size % 16 = 0)
    (least : 64 ≤ size) (calls : List Call) {live : List (Nat × Nat)}
    (replayed : ((Heap.init 4096 (4096 + size - 8)).replay [] (.alloc bytes :: calls)).map Prod.snd =
      some live) :
    ∃ events w h, (Setup.sample size fits).Reaches events w ∧ Runs (Setup.sample size fits) w h ∧
      w.live = live ∧
      (Heap.init 4096 (4096 + size - 8)).replay [] (.alloc bytes :: calls) = some (h, live) ∧
      events.map Event.asked = (.alloc bytes :: calls).map some := by
  have aligned := (Setup.sample_regular fits multiple least).aligned
  have first : (Setup.sample size fits).first = 4096 := aligned.first_eq
  have stop : (Setup.sample size fits).stop = 4096 + size - 8 := rfl
  have spill : (Setup.sample size fits).mem.accessible
      ((Setup.sample size fits).tbase + (Setup.sample size fits).increasingSize) 8 = true := rfl
  obtain ⟨⟨h, entries⟩, found, same⟩ := Option.map_eq_some_iff.mp replayed
  obtain rfl : entries = live := same
  have rest := found
  rw [Heap.replay] at rest
  split at rest
  · rename_i value h' served
    rw [← stop, ← first] at served
    obtain ⟨w, run, runs, one⟩ := Setup.begins _ aligned.bounds.1
      (Setup.sample_zeroed size fits).toClean aligned.bounds.2.1 spill served
    obtain ⟨later, w', run', runs', ends, happened⟩ := runs.replays run (by rw [one]; exact rest)
    refine ⟨_, w', h, run', runs', ends, found, ?_⟩
    rw [List.map_append, happened]
    rfl
  · cases rest

/-- How a further call ends there. -/
theorem Setup.sample_asks {size bytes : Nat} (fits : size ≤ 2 ^ 32) (multiple : size % 16 = 0)
    (least : 64 ≤ size) (calls : List Call) (call : Call) {live : List (Nat × Nat)}
    {ending : Ending}
    (asked : ((Heap.init 4096 (4096 + size - 8)).replay [] (.alloc bytes :: calls)).map
      (fun found => (found.2, (found.1.answer call).ending)) = some (live, ending))
    (permitted : ∀ s, World.permits ⟨s, live⟩ call) :
    ∃ events w h, (Setup.sample size fits).Reaches events w ∧ Runs (Setup.sample size fits) w h ∧
      w.live = live ∧ call.EndsAs w.store ending ∧ (h.answer call).ending = ending ∧
      events.map Event.asked = (.alloc bytes :: calls).map some := by
  obtain ⟨⟨h, entries⟩, found, same⟩ := Option.map_eq_some_iff.mp asked
  obtain ⟨rfl, rfl⟩ := Prod.mk.inj same
  obtain ⟨events, w, h', run, runs, rfl, again, happened⟩ :=
    Setup.sample_replays fits multiple least calls (by rw [found]; rfl)
  obtain rfl : h = h' := congrArg Prod.fst (Option.some.inj (found.symm.trans again))
  exact ⟨events, w, h, run, runs, rfl, runs.ends (permitted w.store), rfl, happened⟩

/-- What holds of an aligned setup once Alloc has returned. -/
theorem Setup.Reaches.regular {events : List Event} {w : World} (run : setup.Reaches events w)
    (zeroed : Zeroed setup.raw) (aligned : setup.Aligned) {bytes mem : Nat}
    (happened : Event.call (.alloc bytes) mem ∈ events) : ∃ h, Runs setup w h :=
  run.running aligned.bounds.1 zeroed.toClean aligned.bounds.2.1 (by simp) happened

/-- A wide segment is either still fresh or represents a heap. -/
theorem Setup.Reaches.either {events : List Event} {w : World} (run : setup.Reaches events w)
    (zeroed : Zeroed setup.raw) (aligned : setup.Aligned) :
    Fresh setup w ∨ ∃ h, Runs setup w h := by
  obtain ⟨holds, wide, -⟩ := aligned.bounds
  have phase := run.phase holds zeroed.toClean
  cases phase with
  | fresh fresh => exact Or.inl fresh
  | narrow small => exact absurd wide (by rw [Setup.Wide]; omega)
  | running h runs => exact Or.inr ⟨h, runs⟩

end Regular

end Unimem
