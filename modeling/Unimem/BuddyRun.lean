import Unimem.LiveParts
import Unimem.Transitions

/-!
Runs of the buddy allocator with its clients. Clients allocate, free what they
hold and store where they may. They only make requests whose sum and rounding do
not wrap: `Alloc` does not check that, and a block without room for its request
breaks what follows. The system allocator keeps its contract: when it is asked it
answers, and what it hands out overlaps nothing that it has handed out before. In
every state reached the allocator represents a heap whose live parts are what the
clients hold.
-/

namespace Buddy

open Tiling OrderedSets WordArith LinkedRow MetadataCache ByteMemory Transitions

/-- The answer to a request for `size` bytes, as the contract has it. -/
def SystemAllocator.Provides (system : SystemAllocator) (size : Nat) : Prop :=
  ∃ p index, system.answer system.calls size = some (p, index) ∧
    (p ≠ 0 → p + size < 2 ^ 64 ∧ index < 2 ^ 64 ∧ ∀ grant ∈ system.outstanding,
      p + size ≤ grant.address ∨ grant.address + grant.size ≤ p)

namespace BuddyAllocator

/-- The size that `Alloc` rounds a request to. -/
def wanted (s : BuddyAllocator) (bytes : Nat) : Nat :=
  align (add64 bytes sizeofDesc) s.minChunkSize

/-- The rounded size has room for the request and its descriptor: no sum wraps. -/
def Covers (s : BuddyAllocator) (bytes : Nat) : Prop := bytes + sizeofDesc ≤ s.wanted bytes

/-- `Alloc` has to ask the system. -/
def Asks (s : BuddyAllocator) (bytes : Nat) : Prop :=
  s.wanted bytes > s.maxChunkSize ∨ fitting s.pool (s.wanted bytes) = ∅

instance (s : BuddyAllocator) (bytes : Nat) : Decidable (s.Asks bytes) :=
  inferInstanceAs (Decidable (_ ∨ _))

def Supplied (s : BuddyAllocator) (bytes : Nat) : Prop :=
  s.Asks bytes → s.systemAllocator.Provides (Heap.request s.maxChunkSize (s.wanted bytes))

end BuddyAllocator

inductive Call where
  | alloc (bytes : Nat)
  | free (p : Nat)
  deriving DecidableEq

/-- How often a call asks the system. -/
def Call.asked (s : BuddyAllocator) : Call → Nat
  | .alloc bytes => if s.Asks bytes then 1 else 0
  | .free _ => 0

/-- The allocator, and what its clients hold: pointers with the bytes asked for. -/
structure World where
  allocator : BuddyAllocator
  live : List (Nat × Nat)

namespace World

/-- Requests that rounding does not wrap, and pointers held. -/
def permits (w : World) : Call → Prop
  | .alloc bytes => w.allocator.Covers bytes ∧ w.allocator.Supplied bytes
  | .free p => ∃ bytes, (p, bytes) ∈ w.live

def after (w : World) (call : Call) (value : Nat) (s' : BuddyAllocator) : World :=
  match call with
  | .alloc bytes => ⟨s', if value = 0 then w.live else (value, bytes) :: w.live⟩
  | .free p => ⟨s', w.live.filter fun client => client.1 ≠ p⟩

def Payload (w : World) (x : Nat) : Prop :=
  ∃ client ∈ w.live, client.1 ≤ x ∧ x < client.1 + client.2

def Owned (w : World) (x : Nat) : Prop :=
  ∃ grant ∈ w.allocator.systemAllocator.outstanding,
    grant.address ≤ x ∧ x < grant.address + grant.size

/-- Where clients may store: in what they hold, and in memory that is not the
allocator's. No memory of the program is a GPU allocator's. -/
def Writable (w : World) (x : Nat) : Prop :=
  w.allocator.cache.usesGpu = true ∨ w.Payload x ∨ ¬ w.Owned x

def poke (w : World) (x : Nat) (v : UInt8) : World :=
  { w with allocator := { w.allocator with
    cache := { w.allocator.cache with mem := w.allocator.cache.mem.setByte x v } } }

end World

inductive Event where
  | call (call : Call) (value : Nat)
  | poke (x : Nat) (v : UInt8)
  deriving DecidableEq

structure Setup where
  useGpu : Bool
  answer : Nat → Nat → Option (Nat × Nat)
  keeps : Nat → Nat → Bool
  minChunkSize : Nat
  maxChunkSize : Nat
  mem : Memory

def Setup.start (setup : Setup) : World :=
  ⟨BuddyAllocator.new ⟨setup.useGpu, setup.answer, setup.keeps, 0, []⟩ setup.minChunkSize
    setup.maxChunkSize setup.mem, []⟩

variable [StdHash]

/-- `Free` returns nothing. -/
def Call.run : Call → Prog Nat
  | alloc bytes => Buddy.alloc bytes
  | free p => do Buddy.free p; return 0

/-- A call that returns, or a client's store to a byte it may write. -/
inductive Step : World → Event → World → Prop
  | call {w : World} {call : Call} {value : Nat} {s' : BuddyAllocator} : w.permits call →
      call.run w.allocator = .ok value s' → Step w (.call call value) (w.after call value s')
  | poke {w : World} {x : Nat} (v : UInt8) : w.Writable x → Step w (.poke x v) (w.poke x v)

abbrev Setup.Reaches (setup : Setup) (events : List Event) (w : World) : Prop :=
  Run Step setup.start events w

/-- The live parts of the heap are what the clients hold. -/
structure Tracks (w : World) (h : Heap) : Prop where
  represents : Represents w.allocator h
  pointers : (w.live.map Prod.fst).Perm (h.liveParts.map fun part => part.start + sizeofDesc)
  sizes : ∀ client ∈ w.live, ∀ part ∈ h.liveParts, part.start + sizeofDesc = client.1 →
    client.2 + sizeofDesc ≤ part.total ∧
      part.total ≤ w.allocator.wanted client.2 + sizeofDesc

/-- What a call makes of the heap, and the value it returns. -/
def Heap.after (h : Heap) (s : BuddyAllocator) : Call → Nat × Heap
  | .alloc bytes => h.alloc s.maxChunkSize (s.wanted bytes) (s.reply (s.wanted bytes))
  | .free p => (0, h.free p)

section Contract

variable {s : BuddyAllocator} {h : Heap} {bytes : Nat}

theorem Represents.asks_iff (represents : Represents s h) :
    h.Asks s.maxChunkSize (s.wanted bytes) ↔ s.Asks bytes := by
  unfold Heap.Asks BuddyAllocator.Asks
  rw [represents.pool]

/-- What does not overlap the memory handed out is fresh for the heap. -/
theorem Represents.honest (represents : Represents s h) (supplied : s.Supplied bytes) :
    s.Honest h (s.wanted bytes) := by
  intro asks
  obtain ⟨p, index, answered, contract⟩ := supplied (represents.asks_iff.mp asks)
  refine ⟨(p, index), answered, fun there => ?_⟩
  obtain ⟨stop, indexFits, apart⟩ := contract there
  refine ⟨stop, indexFits, fun region member => apart region.grant ?_⟩
  rw [represents.grants]
  exact List.mem_map_of_mem member

theorem Represents.fresh (represents : Represents s h) (supplied : s.Supplied bytes)
    (asks : h.Asks s.maxChunkSize (s.wanted bytes))
    (there : (s.reply (s.wanted bytes)).1 ≠ 0) :
    h.Fresh (s.reply (s.wanted bytes)) (Heap.request s.maxChunkSize (s.wanted bytes)) := by
  obtain ⟨reply, answered, fresh⟩ := represents.honest supplied asks
  have same : s.reply (s.wanted bytes) = reply := by
    rw [BuddyAllocator.reply, answered]
    rfl
  rw [same] at there ⊢
  exact fresh there

omit [StdHash] in
theorem BuddyAllocator.Covers.least (covers : s.Covers bytes) : sizeofDesc ≤ s.wanted bytes :=
  Nat.le_trans (Nat.le_add_left _ _) covers

end Contract

section Pokes

variable {c : MetadataCache} {region : Region} {x : Nat}

omit [StdHash] in
theorem desc_poke {block : Nat} (v : UInt8) (apart : c.usesGpu = true ∨ ¬ Window block x) :
    MetadataCache.desc { c with mem := c.mem.setByte x v } block = c.desc block := by
  rcases apart with gpu | outside
  · simp only [MetadataCache.desc, gpu, if_true]
  · refine desc_congr rfl fun y inside => ?_
    have other : y ≠ x := fun same => outside (same ▸ inside)
    simp [Memory.setByte, other]

theorem Threaded.poke (v : UInt8) (threaded : Threaded c region)
    (apart : c.usesGpu = true ∨ ¬ region.Headers x) :
    Threaded { c with mem := c.mem.setByte x v } region := by
  refine Row.imp threaded fun part member _ _ held => ?_
  have here : c.usesGpu = true ∨ ¬ Window part.start x :=
    apart.imp_right fun outside inside => outside ⟨part, member, inside⟩
  exact (desc_poke v here).trans held

theorem Represents.poke {s : BuddyAllocator} {h : Heap} (v : UInt8) (represents : Represents s h)
    (apart : s.cache.usesGpu = true ∨ ∀ region ∈ h.regions, ¬ region.Headers x) :
    Represents { s with cache := { s.cache with mem := s.cache.mem.setByte x v } } h := by
  refine ⟨⟨represents.wellFormed, fun region member => ?_, represents.reaches, represents.pool,
    represents.grants, represents.gpu⟩, represents.used, represents.idle, represents.fallbacks⟩
  exact (represents.threaded region member).poke v
    (apart.imp_right fun outside => outside region member)

end Pokes

namespace Tracks

variable {w w' : World} {h : Heap} {call : Call} {event : Event} {value bytes p x : Nat}
  {s' : BuddyAllocator}

/-- A pointer that a client holds is the payload of a live part. -/
theorem exists_live (tracks : Tracks w h) (member : (p, bytes) ∈ w.live) :
    ∃ part ∈ h.liveParts, part.start + sizeofDesc = p := by
  have pointer : p ∈ w.live.map Prod.fst := List.mem_map_of_mem member
  exact List.mem_map.mp (tracks.pointers.mem_iff.mp pointer)

theorem payload (tracks : Tracks w h) (payload : w.Payload x) : h.Payload x := by
  obtain ⟨client, member, low, high⟩ := payload
  obtain ⟨part, live, start⟩ := tracks.exists_live member
  obtain ⟨room, -⟩ := tracks.sizes client member part live start
  obtain ⟨inHeap, inUse⟩ := Heap.mem_liveParts.mp live
  exact ⟨part, inHeap, inUse, by omega, by unfold Part.stop; omega⟩

theorem owned_iff (tracks : Tracks w h) : w.Owned x ↔ h.Owned x := by
  unfold World.Owned
  rw [tracks.represents.grants]
  constructor
  · rintro ⟨_, member, within⟩
    obtain ⟨region, inHeap, rfl⟩ := List.mem_map.mp member
    exact ⟨region, inHeap, within⟩
  · rintro ⟨region, inHeap, within⟩
    exact ⟨region.grant, List.mem_map_of_mem inHeap, within⟩

/-- What clients may write is in no descriptor that the allocator reads. -/
theorem apart_headers (tracks : Tracks w h) (writable : w.Writable x) :
    w.allocator.cache.usesGpu = true ∨ ∀ region ∈ h.regions, ¬ region.Headers x := by
  have laid := tracks.represents.wellFormed.toLaid
  refine writable.imp_right fun apart region inHeap header => ?_
  obtain ⟨part, inside, -⟩ := id header
  rcases apart with payload | notOwned
  · exact Heap.payload_spared laid inHeap inside (tracks.payload payload) (Or.inl header)
  · have within := Stores.writes_within (laid.laid region inHeap) inside x (Or.inl header)
    exact notOwned (tracks.owned_iff.mpr ⟨region, inHeap, within⟩)

theorem poke (v : UInt8) (tracks : Tracks w h) (writable : w.Writable x) :
    Tracks (w.poke x v) h :=
  ⟨tracks.represents.poke v (tracks.apart_headers writable), tracks.pointers, tracks.sizes⟩

omit [StdHash] in
theorem wanted_congr {s : BuddyAllocator} (min : s'.minChunkSize = s.minChunkSize) (bytes : Nat) :
    s'.wanted bytes = s.wanted bytes := by
  unfold BuddyAllocator.wanted
  rw [min]

/-- A block is added to what the clients hold, or nothing changes. -/
theorem alloc_tracks {made : Nat × Heap} (tracks : Tracks w h)
    (covers : w.allocator.Covers bytes) (represents : Represents s' made.2)
    (min : s'.minChunkSize = w.allocator.minChunkSize)
    (outcome : made.1 = 0 ∧ made.2 = h ∨ ∃ new : Part, made.1 = new.start + sizeofDesc ∧
      new.live = true ∧ w.allocator.wanted bytes ≤ new.total ∧
      new.total ≤ w.allocator.wanted bytes + sizeofDesc ∧
      made.2.liveParts.Perm (new :: h.liveParts)) :
    Tracks (w.after (.alloc bytes) made.1 s') made.2 := by
  have wanted := wanted_congr min
  obtain ⟨value, h'⟩ := made
  rcases outcome with ⟨rfl, rfl⟩ | ⟨new, rfl, -, large, most, parts⟩
  · refine ⟨represents, tracks.pointers, fun client member part inLive start => ?_⟩
    change _ ∧ _ ≤ s'.wanted _ + _
    rw [wanted]
    exact tracks.sizes client member part inLive start
  · have clients : (w.after (.alloc bytes) (new.start + sizeofDesc) s').live =
        (new.start + sizeofDesc, bytes) :: w.live := by simp [World.after, sizeofDesc]
    have unique := fun {part other : Part} (inLive : part ∈ h'.liveParts)
        (inLive' : other ∈ h'.liveParts) =>
      represents.wellFormed.toLaid.part_unique (Heap.mem_liveParts.mp inLive).1
        (Heap.mem_liveParts.mp inLive').1
    refine ⟨represents, ?_, fun client member part inLive start => ?_⟩
    · rw [clients]
      have starts := parts.map fun part => part.start + sizeofDesc
      exact (tracks.pointers.cons _).trans starts.symm
    · rw [clients] at member
      change _ ∧ _ ≤ s'.wanted _ + _
      rw [wanted]
      rcases List.mem_cons.mp member with rfl | old
      · have inNew : new ∈ h'.liveParts := parts.mem_iff.mpr List.mem_cons_self
        obtain rfl := unique inLive inNew (Nat.add_right_cancel start)
        exact ⟨Nat.le_trans covers large, most⟩
      · obtain ⟨other, inOld, start'⟩ := tracks.exists_live old
        have kept : other ∈ h'.liveParts := parts.mem_iff.mpr (List.mem_cons_of_mem _ inOld)
        obtain rfl := unique inLive kept (Nat.add_right_cancel (start.trans start'.symm))
        exact tracks.sizes client old part inOld start

theorem alloc_run (tracks : Tracks w h) (positive : w.allocator.minChunkSize ≠ 0)
    (permitted : w.permits (.alloc bytes)) :
    ∃ s', (Call.alloc bytes).run w.allocator = .ok (h.after w.allocator (.alloc bytes)).1 s' ∧
      Tracks (w.after (.alloc bytes) (h.after w.allocator (.alloc bytes)).1 s')
        (h.after w.allocator (.alloc bytes)).2 ∧
      Frame w.allocator h (h.after w.allocator (.alloc bytes)).2 s' ∧
      s'.systemAllocator.calls = w.allocator.systemAllocator.calls +
        if w.allocator.Asks bytes then 1 else 0 := by
  obtain ⟨covers, supplied⟩ := permitted
  have represents := tracks.represents
  have rounded : align (add64 bytes sizeofDesc) w.allocator.minChunkSize =
    w.allocator.wanted bytes := rfl
  obtain ⟨s', ran, represents', frame, asked, unasked⟩ :=
    represents.alloc_run positive rounded covers.least (represents.honest supplied)
  refine ⟨s', ran, tracks.alloc_tracks covers represents' frame.min
    (Heap.liveParts_alloc represents.wellFormed covers.least (represents.fresh supplied)),
    frame, ?_⟩
  split
  case isTrue asks => exact asked (represents.asks_iff.mpr asks)
  case isFalse has =>
    rw [unasked fun asks => has (represents.asks_iff.mp asks), Nat.add_zero]

theorem free_run (tracks : Tracks w h) (permitted : w.permits (.free p)) :
    ∃ s', (Call.free p).run w.allocator = .ok 0 s' ∧
      Tracks (w.after (.free p) 0 s') (h.free p) ∧ Frame w.allocator h (h.free p) s' ∧
      s'.systemAllocator.calls = w.allocator.systemAllocator.calls := by
  obtain ⟨bytes, member⟩ := permitted
  obtain ⟨part, inLive, rfl⟩ := tracks.exists_live member
  obtain ⟨inHeap, live⟩ := Heap.mem_liveParts.mp inLive
  have represents := tracks.represents
  obtain ⟨s', ran, represents', frame, calls⟩ := represents.free_run inHeap live
  have parts := Heap.liveParts_free represents.wellFormed inLive
  have pointers : (w.live.filter fun client => client.1 ≠ part.start + sizeofDesc).map Prod.fst =
      (w.live.map Prod.fst).filter fun q => q ≠ part.start + sizeofDesc := by
    rw [List.filter_map]
    rfl
  have starts : (h.liveParts.filter fun other => other.start ≠ part.start).map
        (fun part => part.start + sizeofDesc) =
      (h.liveParts.map fun part => part.start + sizeofDesc).filter fun q =>
        q ≠ part.start + sizeofDesc := by
    rw [List.filter_map]
    refine congrArg _ (List.filter_congr fun other _ => ?_)
    simp
  refine ⟨s', ?_, ⟨represents', ?_, fun client member other inLive' start => ?_⟩, frame, calls⟩
  · rw [Call.run, Fuelled.bind_run, ran]
    rfl
  · rw [parts, starts]
    exact pointers ▸ tracks.pointers.filter _
  · rw [parts] at inLive'
    change _ ∧ _ ≤ s'.wanted _ + _
    rw [wanted_congr frame.min]
    exact tracks.sizes client (List.mem_filter.mp member).1 other (List.mem_filter.mp inLive').1
      start

/-- A call that is permitted returns what the heap says, and asks the system as often. -/
theorem asked_run (tracks : Tracks w h) (positive : w.allocator.minChunkSize ≠ 0)
    (permitted : w.permits call) :
    ∃ s', call.run w.allocator = .ok (h.after w.allocator call).1 s' ∧
      Tracks (w.after call (h.after w.allocator call).1 s') (h.after w.allocator call).2 ∧
      Frame w.allocator h (h.after w.allocator call).2 s' ∧
      s'.systemAllocator.calls = w.allocator.systemAllocator.calls + call.asked w.allocator := by
  cases call with
  | alloc bytes => exact tracks.alloc_run positive permitted
  | free p => exact tracks.free_run permitted

theorem call_run (tracks : Tracks w h) (positive : w.allocator.minChunkSize ≠ 0)
    (permitted : w.permits call) :
    ∃ s', call.run w.allocator = .ok (h.after w.allocator call).1 s' ∧
      Tracks (w.after call (h.after w.allocator call).1 s') (h.after w.allocator call).2 ∧
      Frame w.allocator h (h.after w.allocator call).2 s' := by
  obtain ⟨s', ran, tracks', frame, -⟩ := tracks.asked_run positive permitted
  exact ⟨s', ran, tracks', frame⟩

end Tracks

/-- The abstract allocator: a heap, and how often the system has been asked. -/
inductive Setup.HeapStep (setup : Setup) : Heap × Nat → Event → Heap × Nat → Prop
  | alloc {h : Heap} {calls bytes wanted : Nat} {reply : Nat × Nat} :
      align (add64 bytes sizeofDesc) setup.minChunkSize = wanted →
      (setup.answer calls (Heap.request setup.maxChunkSize wanted)).getD (0, 0) = reply →
      HeapStep setup (h, calls) (.call (.alloc bytes) (h.alloc setup.maxChunkSize wanted reply).1)
        ((h.alloc setup.maxChunkSize wanted reply).2,
          calls + if h.Asks setup.maxChunkSize wanted then 1 else 0)
  | free {h : Heap} {calls : Nat} {part : Part} : part ∈ h.liveParts →
      HeapStep setup (h, calls) (.call (.free (part.start + sizeofDesc)) 0)
        (h.free (part.start + sizeofDesc), calls)
  | poke {h : Heap} {calls x : Nat} {v : UInt8} : HeapStep setup (h, calls) (.poke x v) (h, calls)

structure Runs (setup : Setup) (w : World) (h : Heap) : Prop extends Tracks w h where
  min : w.allocator.minChunkSize = setup.minChunkSize
  max : w.allocator.maxChunkSize = setup.maxChunkSize
  gpu : w.allocator.cache.usesGpu = setup.useGpu
  answer : w.allocator.systemAllocator.answer = setup.answer

/-- The abstract state that a world is in. -/
def Simulates (setup : Setup) (w : World) (state : Heap × Nat) : Prop :=
  Runs setup w state.1 ∧ w.allocator.systemAllocator.calls = state.2

section Reached

variable {setup : Setup} {w w' : World} {h : Heap} {call : Call} {event : Event}
  {events : List Event} {bytes value : Nat}

theorem Setup.start_runs (setup : Setup) : Runs setup setup.start Heap.empty := by
  have represents : Represents setup.start.allocator Heap.empty := by
    refine ⟨⟨⟨⟨?_, List.Pairwise.nil⟩, ?_, ?_⟩, ?_, ?_, rfl, rfl, rfl⟩, rfl, rfl, ?_⟩
    iterate 5 intro region member; cases member
    change 0 = if setup.useGpu then 0 % 2 ^ 64 else 0
    split <;> rfl
  refine ⟨⟨represents, List.Perm.nil, fun client member => ?_⟩, rfl, rfl, rfl, rfl⟩
  cases member

theorem Runs.after {made : Heap} (runs : Runs setup w h) {s' : BuddyAllocator}
    (tracks : Tracks (w.after call value s') made) (frame : Frame w.allocator h made s') :
    Runs setup (w.after call value s') made := by
  have same : (w.after call value s').allocator = s' := by cases call <;> rfl
  refine ⟨tracks, ?_, ?_, ?_, ?_⟩
  · rw [same, frame.min, runs.min]
  · rw [same, frame.max, runs.max]
  · rw [same, frame.gpu, runs.gpu]
  · rw [same, frame.answer, runs.answer]

theorem Runs.poke {x : Nat} (v : UInt8) (runs : Runs setup w h) (writable : w.Writable x) :
    Runs setup (w.poke x v) h :=
  ⟨runs.toTracks.poke v writable, runs.min, runs.max, runs.gpu, runs.answer⟩

/-- A step of the allocator is a step of the heap. -/
theorem Runs.step (runs : Runs setup w h) (positive : setup.minChunkSize ≠ 0)
    (step : Step w event w') :
    ∃ h', setup.HeapStep (h, w.allocator.systemAllocator.calls) event
      (h', w'.allocator.systemAllocator.calls) ∧ Runs setup w' h' := by
  have nonzero : w.allocator.minChunkSize ≠ 0 := runs.min ▸ positive
  cases step with
  | @call call value s' permitted ran =>
      cases call with
      | alloc bytes =>
          obtain ⟨s₁, ran₁, tracks, frame, calls⟩ := runs.toTracks.alloc_run nonzero permitted
          obtain ⟨rfl, rfl⟩ := EStateM.Result.ok.inj (ran.symm.trans ran₁)
          refine ⟨_, ?_, runs.after tracks frame⟩
          have asks := @Represents.asks_iff _ _ _ bytes runs.represents
          change setup.HeapStep _ _ (_, s'.systemAllocator.calls)
          rw [calls, ← if_congr asks rfl rfl]
          unfold Heap.after BuddyAllocator.reply
          rw [runs.max, runs.answer]
          exact .alloc (by rw [BuddyAllocator.wanted, runs.min]) rfl
      | free p =>
          obtain ⟨s₁, ran₁, tracks, frame, calls⟩ := runs.toTracks.free_run permitted
          obtain ⟨rfl, rfl⟩ := EStateM.Result.ok.inj (ran.symm.trans ran₁)
          obtain ⟨bytes, member⟩ := permitted
          obtain ⟨part, inLive, rfl⟩ := runs.exists_live member
          refine ⟨_, ?_, runs.after tracks frame⟩
          change setup.HeapStep _ _ (_, s'.systemAllocator.calls)
          rw [calls]
          exact .free inLive
  | poke v writable => exact ⟨h, .poke, runs.poke v writable⟩

/-- The buddy allocator refines the heap: every run of requests that do not wrap is one of
the heap, with the same values returned, and the state reached represents the heap reached. -/
theorem reached_refines (positive : setup.minChunkSize ≠ 0) (run : setup.Reaches events w) :
    ∃ h calls, Run setup.HeapStep (Heap.empty, 0) events (h, calls) ∧ Runs setup w h := by
  have initial : Simulates setup setup.start (Heap.empty, 0) := ⟨setup.start_runs, rfl⟩
  obtain ⟨⟨h, calls⟩, run', runs, -⟩ := run.lockstep initial fun w state event w' related step => by
    obtain ⟨h, _⟩ := state
    obtain ⟨runs, rfl⟩ := related
    obtain ⟨h', step', runs'⟩ := runs.step positive step
    exact ⟨(h', _), step', runs', rfl⟩
  exact ⟨h, calls, run', runs⟩

theorem reached_runs (positive : setup.minChunkSize ≠ 0) (run : setup.Reaches events w) :
    ∃ h, Runs setup w h :=
  run.invariant (fun state => ∃ h, Runs setup state h) ⟨Heap.empty, setup.start_runs⟩
    fun state event after earlier step => by
      obtain ⟨h, runs⟩ := earlier
      obtain ⟨h', -, runs'⟩ := runs.step positive step
      exact ⟨h', runs'⟩

section Replay

/-- A heap with what a run of it has done. -/
structure Replay where
  heap : Heap
  calls : Nat
  live : List (Nat × Nat)
  events : List Event

/-- One call, where clients may make it and the system keeps its contract. -/
def Replay.step (setup : Setup) (state : Replay) : Call → Option Replay
  | .alloc bytes =>
      let wanted := align (add64 bytes sizeofDesc) setup.minChunkSize
      let asks := state.heap.Asks setup.maxChunkSize wanted
      let size := Heap.request setup.maxChunkSize wanted
      let found := setup.answer state.calls size
      let reply := found.getD (0, 0)
      if bytes + sizeofDesc ≤ wanted ∧ (asks → found = some reply ∧ (reply.1 ≠ 0 →
          reply.1 + size < 2 ^ 64 ∧ reply.2 < 2 ^ 64 ∧ ∀ region ∈ state.heap.regions,
            reply.1 + size ≤ region.base ∨ region.stop ≤ reply.1)) then
        let served := state.heap.alloc setup.maxChunkSize wanted reply
        some ⟨served.2, state.calls + if asks then 1 else 0,
          if served.1 = 0 then state.live else (served.1, bytes) :: state.live,
          state.events ++ [.call (.alloc bytes) served.1]⟩
      else none
  | .free p =>
      if p ∈ state.live.map Prod.fst then
        some ⟨state.heap.free p, state.calls, state.live.filter fun client => client.1 ≠ p,
          state.events ++ [.call (.free p) 0]⟩
      else none

def Setup.replay (setup : Setup) (calls : List Call) : Option Replay :=
  calls.foldlM (Replay.step setup) ⟨Heap.empty, 0, [], []⟩

/-- The run that is replayed, and the world it reaches. -/
structure Replay.Reaches (state : Replay) (setup : Setup) (w : World) : Prop where
  run : setup.Reaches state.events w
  runs : Runs setup w state.heap
  live : w.live = state.live
  calls : w.allocator.systemAllocator.calls = state.calls

variable {state state' : Replay} {calls : List Call}

namespace Replay.Reaches

theorem pool (reaches : state.Reaches setup w) : w.allocator.pool = state.heap.pool :=
  reaches.runs.represents.pool

theorem grants (reaches : state.Reaches setup w) :
    w.allocator.systemAllocator.outstanding = state.heap.regions.map Region.grant :=
  reaches.runs.represents.grants

theorem useGpu (reaches : state.Reaches setup w) :
    w.allocator.systemAllocator.useGpu = setup.useGpu :=
  reaches.runs.represents.gpu.symm.trans reaches.runs.gpu

theorem fallbacks (reaches : state.Reaches setup w) : w.allocator.fallbackAllocCount =
    if setup.useGpu then state.heap.fallbacks % 2 ^ 64 else 0 := by
  rw [← reaches.runs.gpu]
  exact reaches.runs.represents.fallbacks

theorem wanted (reaches : state.Reaches setup w) (bytes : Nat) :
    w.allocator.wanted bytes = align (add64 bytes sizeofDesc) setup.minChunkSize := by
  rw [BuddyAllocator.wanted, reaches.runs.min]

/-- What can be replayed, clients may call. -/
theorem permits (reaches : state.Reaches setup w)
    (possible : (Replay.step setup state call).isSome) : w.permits call := by
  have runs := reaches.runs
  cases call with
  | alloc bytes =>
      simp only [Replay.step] at possible
      split at possible
      case isFalse => cases possible
      case isTrue allowed =>
        rw [← reaches.wanted, ← runs.max, ← runs.answer, ← reaches.calls] at allowed
        obtain ⟨covers, supplied⟩ := allowed
        refine ⟨covers, fun asked => ?_⟩
        obtain ⟨found, fresh⟩ := supplied (runs.represents.asks_iff.mpr asked)
        refine ⟨_, _, found, fun there => ?_⟩
        obtain ⟨stop, index, apart⟩ := fresh there
        refine ⟨stop, index, fun grant granted => ?_⟩
        rw [runs.represents.grants] at granted
        obtain ⟨region, member, rfl⟩ := List.mem_map.mp granted
        exact apart region member
  | free p =>
      simp only [Replay.step] at possible
      split at possible
      case isFalse => cases possible
      case isTrue held =>
        rw [← reaches.live] at held
        obtain ⟨client, member, rfl⟩ := List.mem_map.mp held
        exact ⟨client.2, member⟩

/-- A call that is replayed is a step, and reaches what the replay does. -/
theorem step (reaches : state.Reaches setup w) (positive : setup.minChunkSize ≠ 0)
    (played : Replay.step setup state call = some state') :
    ∃ event w', Step w event w' ∧ state'.events = state.events ++ [event] ∧
      state'.Reaches setup w' := by
  have permitted := reaches.permits (show (Replay.step setup state call).isSome by rw [played]; rfl)
  have wanted := reaches.wanted
  obtain ⟨run, runs, live, count⟩ := reaches
  obtain ⟨s', ran, tracks, frame, asked⟩ :=
    runs.toTracks.asked_run (runs.min ▸ positive) permitted
  have step := @Step.call _ _ _ _ _ permitted ran
  have runs' := runs.after tracks frame
  cases call with
  | alloc bytes =>
      have asks := @Represents.asks_iff _ _ _ bytes runs.represents
      simp only [Replay.step] at played
      split at played
      case isFalse => cases played
      case isTrue =>
        rw [← wanted, ← runs.max, ← runs.answer, ← count] at played
        obtain rfl := Option.some.inj played
        refine ⟨_, _, step, rfl, run.snoc step, runs', ?_, ?_⟩
        · simp only [World.after, live]
          exact if_congr Iff.rfl rfl rfl
        · change s'.systemAllocator.calls = _
          rw [asked]
          exact congrArg _ (if_congr asks.symm rfl rfl)
  | free p =>
      simp only [Replay.step] at played
      split at played
      case isFalse => cases played
      case isTrue =>
        obtain rfl := Option.some.inj played
        refine ⟨_, _, step, rfl, run.snoc step, runs', ?_, ?_⟩
        · simp only [World.after, live]
        · change s'.systemAllocator.calls = _
          rw [asked, ← count]
          rfl

/-- Clients may store between the calls. -/
theorem poke (reaches : state.Reaches setup w) {x : Nat} (v : UInt8) (writable : w.Writable x) :
    Replay.Reaches { state with events := state.events ++ [.poke x v] } setup (w.poke x v) :=
  ⟨reaches.run.snoc (.poke v writable), reaches.runs.poke v writable, reaches.live, reaches.calls⟩

end Replay.Reaches

def Replay.next (setup : Setup) (state : Replay) (call : Call) : Replay :=
  (Replay.step setup state call).getD state

theorem Replay.Reaches.next (reaches : state.Reaches setup w) (positive : setup.minChunkSize ≠ 0)
    (possible : (Replay.step setup state call).map Replay.events =
      some (state.events ++ [event])) :
    ∃ w', Step w event w' ∧ (state.next setup call).Reaches setup w' := by
  obtain ⟨state', played, same⟩ := Option.map_eq_some_iff.mp possible
  have next : state.next setup call = state' := by rw [Replay.next, played, Option.getD_some]
  rw [next]
  obtain ⟨event', w', step, events, reaches'⟩ := reaches.step positive played
  obtain rfl : event' = event :=
    List.singleton_injective (List.append_cancel_left (events.symm.trans same))
  exact ⟨w', step, reaches'⟩

/-- What is replayed on the heap is a run of the allocator. -/
theorem Setup.replay_reaches (positive : setup.minChunkSize ≠ 0)
    (played : setup.replay calls = some state) : ∃ w, state.Reaches setup w := by
  have later : ∀ (calls : List Call) (before : Replay),
      (∃ w, before.Reaches setup w) → calls.foldlM (Replay.step setup) before = some state →
        ∃ w, state.Reaches setup w := by
    intro calls
    induction calls with
    | nil =>
        rintro before reached same
        obtain rfl := Option.some.inj same
        exact reached
    | cons call rest ih =>
        rintro before ⟨w, reached⟩ all
        rw [List.foldlM_cons] at all
        obtain ⟨middle, one, others⟩ := Option.bind_eq_some_iff.mp all
        obtain ⟨_, w', -, -, reached'⟩ := reached.step positive one
        exact ih middle ⟨w', reached'⟩ others
  exact later calls _ ⟨setup.start, .nil, setup.start_runs, rfl, rfl⟩ played

end Replay

section Sample

abbrev plainHash : StdHash := ⟨id, id⟩

/-- Chunks of 1024 bytes, of which the system has three. -/
def Setup.sample : Setup :=
  ⟨false, fun call _ => some (if call < 3 then 4096 + 2048 * call else 0, 0), fun _ _ => true,
    16, 1024, ⟨fun _ => 0, fun _ => false⟩⟩

def Setup.played (setup : Setup) (calls : List Call) : Replay :=
  (setup.replay calls).getD ⟨Heap.empty, 0, [], []⟩

omit [StdHash] in
/-- A replay with its events and what clients hold in the end. -/
theorem Setup.plays {setup : Setup} {calls : List Call} {events : List Event}
    {live : List (Nat × Nat)} (positive : setup.minChunkSize ≠ 0)
    (played : (setup.replay calls).map (fun state => (state.events, state.live)) =
      some (events, live)) :
    ∃ w, @Setup.Reaches plainHash setup events w ∧ w.live = live ∧
      @Replay.Reaches plainHash (setup.played calls) setup w := by
  obtain ⟨state, found, same⟩ := Option.map_eq_some_iff.mp played
  obtain ⟨rfl, rfl⟩ := Prod.mk.inj same
  have state_eq : setup.played calls = state := by rw [Setup.played, found, Option.getD_some]
  rw [state_eq]
  obtain ⟨w, reaches⟩ := @Setup.replay_reaches plainHash _ _ _ positive found
  exact ⟨w, @Replay.Reaches.run plainHash _ _ _ reaches,
    @Replay.Reaches.live plainHash _ _ _ reaches, reaches⟩

omit [StdHash] in
/-- Two blocks of one chunk, the first of which is freed, and one of a chunk of its own. -/
theorem Setup.sample_run : ∃ w, @Setup.Reaches plainHash .sample
    [.call (.alloc 100) 4160, .call (.alloc 200) 4336, .call (.free 4160) 0,
      .call (.alloc 2000) 6208] w ∧ w.live = [(6208, 2000), (4336, 200)] := by
  obtain ⟨w, run, live, -⟩ := @Setup.plays .sample
    [.alloc 100, .alloc 200, .free 4160, .alloc 2000]
    [.call (.alloc 100) 4160, .call (.alloc 200) 4336, .call (.free 4160) 0,
      .call (.alloc 2000) 6208] [(6208, 2000), (4336, 200)] (by decide) (by decide +kernel)
  exact ⟨w, run, live⟩

omit [StdHash] in
theorem reached_refines_sample : ∃ w h calls,
    @Setup.Reaches plainHash .sample [.call (.alloc 100) 4160, .call (.alloc 200) 4336,
      .call (.free 4160) 0, .call (.alloc 2000) 6208] w ∧
    Run Setup.sample.HeapStep (Heap.empty, 0) [.call (.alloc 100) 4160,
      .call (.alloc 200) 4336, .call (.free 4160) 0, .call (.alloc 2000) 6208] (h, calls) ∧
    @Runs plainHash .sample w h := by
  obtain ⟨w, run, -⟩ := Setup.sample_run
  obtain ⟨h, calls, run', runs⟩ := @reached_refines plainHash _ _ _ (by decide) run
  exact ⟨w, h, calls, run, run', runs⟩

end Sample

end Reached

end Buddy
