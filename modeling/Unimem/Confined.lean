import Unimem.Run

/-!
The block as an array with checked indexing. Apart from the allocator's own
object no byte outside the block is accessible. Once top is set up no operation
leaves the block; setting it up does, since the word that init_top puts behind
top's end starts where the block ends.
-/

namespace Unimem

open ByteMemory Memory MallocState Transitions

/-- The bytes of the object and of the block. -/
def Setup.Inside (setup : Setup) (s : Store) (x : Nat) : Prop :=
  (s.gm.this ≤ x ∧ x < s.gm.this + mallocStateSize) ∨
    (setup.tbase ≤ x ∧ x < setup.tbase + setup.increasingSize)

instance (setup : Setup) (s : Store) : DecidablePred (setup.Inside s) := fun _ => instDecidableOr

/-- Every access outside the block and the object faults. -/
def Setup.confine (setup : Setup) (s : Store) : Store :=
  { s with mem := { s.mem with mapped := fun x => decide (setup.Inside s x) } }

/-- With indexing checked the call makes no access outside. -/
def Call.StaysInside (call : Call) (setup : Setup) (s : Store) : Prop :=
  ∀ s', ¬ call.Faults (setup.confine s) s'

section Confined

variable {setup : Setup} {w : World} {call : Call} {h : Heap} {s : Store}

theorem Setup.confine_mapped {x : Nat} :
    (setup.confine s).mem.mapped x = true ↔ setup.Inside s x := by
  simp [Setup.confine]

/-- The block's bytes are all that the tags and links need. -/
theorem Runs.confined (runs : Runs setup w h) (aligned : setup.Aligned) :
    Represents setup.first setup.stop (setup.stop + 8) (setup.confine w.store) h [] := by
  have first := aligned.first_eq
  have base := aligned.base
  have size := aligned.size
  have some := aligned.some
  have foot : topFootSize = 8 := rfl
  have finish : setup.stop = setup.tbase + setup.increasingSize - 8 := rfl
  refine runs.rep.carry (fun _ _ => rfl) ?_ ?_ ?_
  · intro t member atTop k positive residue
    -- top's size leaves 8 modulo 16, so any rest of it has room for a head
    have place := runs.rep.layout.aligned_of_mem member
    obtain ⟨t', member', here, ends⟩ := runs.rep.layout.topBlock
    obtain rfl := runs.rep.layout.addr_inj member member' (atTop.trans here.symm)
    simp only [Block.stop] at ends
    omega
  · intro x lower upper
    refine Setup.confine_mapped.mpr (Or.inr ?_)
    omega
  · rintro x ⟨lower, upper⟩
    have object : mallocStateSize = 904 := rfl
    refine Setup.confine_mapped.mpr (Or.inl ?_)
    omega

theorem Runs.stays (runs : Runs setup w h) (aligned : setup.Aligned) (permitted : w.permits call) :
    call.StaysInside setup w.store := by
  have obeys := runs.tracked.obeys (runs.confined aligned) permitted
  intro s'
  cases answered : h.answer call with
  | served value h' =>
      rw [answered] at obeys
      obtain ⟨s₁, ran, -⟩ := obeys
      have ends := call.outcomes _ (ran 3 (Nat.le_refl 3)) Call.ok_ends
      simp [ends.2.2.1 s']
  | corrupted =>
      rw [answered] at obeys
      obtain ⟨s₁, ran, -⟩ := obeys
      have ends := call.outcomes _ (ran 3 (Nat.le_refl 3)) (Call.error_ends (by decide))
      simp [ends.2.2.1 s']
  | expand =>
      rw [answered] at obeys
      exact obeys.only.2.2 s'

/-- init_top stores behind the block. -/
theorem Fresh.leaves (fresh : Fresh setup w) (holds : setup.Holds) (clean : Clean setup.raw)
    (permitted : w.permits call) : ¬ call.StaysInside setup w.store := by
  have site := fresh.site holds clean.top
  have object : mallocStateSize = 904 := rfl
  have confined : Site setup.tbase setup.increasingSize setup.first setup.stop
      (setup.confine w.store) :=
    { toRoomy := site.toRoomy
      top := site.top
      size := site.size
      base := site.base
      aligned := site.aligned
      object := site.object
      headers := by
        rintro x ⟨lower, upper⟩
        have lower' : w.store.gm.this + 72 ≤ x := lower
        have upper' : x < w.store.gm.this + 600 := upper
        exact Setup.confine_mapped.mpr (Or.inl (by omega))
      apart := site.apart
      block := fun x lower upper => Setup.confine_mapped.mpr (Or.inr ⟨lower, upper⟩) }
  have outside : ¬ (setup.confine w.store).mem.accessible (setup.tbase + setup.increasingSize) 8 =
      true := by
    intro whole
    have apart := setup.apart
    have start : setup.underlyingAllocator 0 setup.increasingSize = setup.tbase := rfl
    have inside := Setup.confine_mapped.mp
      (((accessible_iff _ _ _).mp whole) _ (Nat.le_refl _) (by omega))
    rw [Setup.Inside, fresh.gm] at inside
    rw [start] at apart
    omega
  have same : Clean (setup.confine w.store).gm := fresh.gm ▸ clean
  obtain ⟨s', faulted⟩ := initOrExpand_fault confined outside
  intro stays
  refine stays s' ?_
  cases call with
  | alloc bytes =>
      refine ⟨1, ?_⟩
      rw [alloc_clean same, Fuelled.bind_run, faulted]
  | free mem => simp [World.permits, fresh.none] at permitted
  | expand =>
      refine ⟨0, ?_⟩
      rw [Call.run, Fuelled.bind_run, faulted]

/-- A call stays inside the block exactly where top has been set up before. -/
theorem reached_staysInside (zeroed : Zeroed setup.raw) (regular : setup.Regular)
    {events : List Event} (run : setup.Reaches events w) (permitted : w.permits call) :
    call.StaysInside setup w.store ↔ w.store.gm.top ≠ 0 := by
  have aligned := regular.aligned
  rcases run.either zeroed aligned with fresh | ⟨h, runs⟩
  · have top : w.store.gm.top = 0 := by rw [fresh.gm, zeroed.top]
    exact iff_of_false (fresh.leaves aligned.bounds.1 zeroed.toClean permitted)
      fun some => some top
  · exact iff_of_true (runs.stays aligned permitted) runs.rep.top_ne_zero

/-- The first InitOrExpand of any run leaves the block. -/
theorem expand_leaves : ¬ Call.expand.StaysInside (Setup.sample 1024 (by decide))
    (Setup.sample 1024 (by decide)).start.store :=
  (Setup.sample 1024 (by decide)).start_fresh.leaves
    (Setup.sample_regular (by decide) (by decide) (by decide)).aligned.bounds.1
    (Setup.sample_zeroed 1024 (by decide)).toClean trivial

/-- Later calls do not, also where top is close to exhaustion. -/
theorem reached_staysInside_sample : ∃ w : World, w.live = [(4160, 950), (4128, 24)] ∧
    ((Call.free 4160).StaysInside (Setup.sample 1024 (by decide)) w.store ↔
      w.store.gm.top ≠ 0) := by
  have replayed : ((Heap.init 4096 (4096 + 1024 - 8)).replay [] [.alloc 24, .alloc 950]).map
      Prod.snd = some [(4160, 950), (4128, 24)] := by decide
  obtain ⟨events, w, h, run, -, live, -⟩ :=
    Setup.sample_replays (by decide) (by decide) (by decide) _ replayed
  exact ⟨w, live, reached_staysInside (Setup.sample_zeroed 1024 (by decide))
    (Setup.sample_regular (by decide) (by decide) (by decide)) run (by simp [World.permits, live])⟩

end Confined

end Unimem
