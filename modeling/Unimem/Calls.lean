import Unimem.Observe
import Unimem.Endings

/-!
A whole call, with any fuel: it returns, throws or never returns as the heap
says. Enough fuel is a constant, since the only loop that can go on is Alloc's
retry after an InitOrExpand that adds nothing.
-/

namespace Unimem

open Fuelled ByteMemory Memory MallocState

/-- A call of the allocator's interface. -/
inductive Call where
  | alloc (bytes : Nat)
  | free (mem : Nat)
  | expand
  deriving DecidableEq

namespace Call

/-- The call's program; Free and InitOrExpand return nothing. -/
def run (fuel : Nat) : Call → Prog Nat
  | alloc bytes => Unimem.alloc fuel bytes
  | free mem => do Unimem.free fuel mem; return 0
  | expand => do initOrExpand; return 0

def Returns (call : Call) (s : Store) (value : Nat) (s' : Store) : Prop :=
  ∃ fuel, call.run fuel s = .ok value s'

/-- Ends with MemoryCorruptedException. -/
def Throws (call : Call) (s s' : Store) : Prop := ∃ fuel, call.run fuel s = .error .corrupted s'

def Faults (call : Call) (s s' : Store) : Prop := ∃ fuel, call.run fuel s = .error .fault s'

/-- Never returns: no fuel is enough. -/
def Diverges (call : Call) (s : Store) : Prop := ∀ fuel, ∃ s', call.run fuel s = .error .fuel s'

theorem steady (call : Call) : Steady fun fuel => call.run fuel := by
  intro fuel
  cases call with
  | alloc bytes => exact alloc_steady bytes fuel
  | free mem => exact Extends.bind (free_steady mem fuel) fun _ => Extends.refl _
  | expand => exact Extends.refl _

/-- What one fuel decides, every other decides alike. -/
theorem ends_unique {call : Call} {s : Store} {one two : Nat}
    (oneEnds : Ends Stop.fuel (call.run one s)) (twoEnds : Ends Stop.fuel (call.run two s)) :
    call.run one s = call.run two s := call.steady.unique oneEnds twoEnds

theorem ok_ends {α : Type} {value : α} {s' : Store} :
    Ends Stop.fuel (EStateM.Result.ok value s' : Outcome α) := fun _ same => by cases same

theorem error_ends {α : Type} {stop : Stop} {s' : Store} (other : stop ≠ .fuel) :
    Ends Stop.fuel (EStateM.Result.error stop s' : Outcome α) := fun _ same => by
  cases same
  exact other rfl

/-- How a call may end. -/
theorem outcomes (call : Call) (s : Store) {fuel : Nat} {result : Outcome Nat}
    (ran : call.run fuel s = result) (ends : Ends Stop.fuel result) :
    (∀ value s', call.Returns s value s' ↔ result = .ok value s') ∧
      (∀ s', call.Throws s s' ↔ result = .error .corrupted s') ∧
      (∀ s', call.Faults s s' ↔ result = .error .fault s') ∧ ¬ call.Diverges s := by
  subst ran
  refine ⟨fun value s' => ⟨?_, fun same => ⟨fuel, same⟩⟩, fun s' => ⟨?_, fun same => ⟨fuel, same⟩⟩,
    fun s' => ⟨?_, fun same => ⟨fuel, same⟩⟩, fun diverges => ?_⟩
  · rintro ⟨other, ran⟩
    rw [← ran]
    exact ends_unique ends (ran ▸ ok_ends)
  · rintro ⟨other, ran⟩
    rw [← ran]
    exact ends_unique ends (ran ▸ error_ends (by decide))
  · rintro ⟨other, ran⟩
    rw [← ran]
    exact ends_unique ends (ran ▸ error_ends (by decide))
  · obtain ⟨s', ran⟩ := diverges fuel
    exact ends s' ran

theorem returns_unique {call : Call} {s one two : Store} {value other : Nat}
    (left : call.Returns s value one)
    (right : call.Returns s other two) : value = other ∧ one = two := by
  obtain ⟨fuel, ran⟩ := left
  exact EStateM.Result.ok.inj (((call.outcomes s ran ok_ends).1 other two).mp right)

theorem Diverges.only {call : Call} {s : Store} (diverges : call.Diverges s) :
    (∀ value s', ¬ call.Returns s value s') ∧ (∀ s', ¬ call.Throws s s') ∧
      ∀ s', ¬ call.Faults s s' := by
  refine ⟨?_, ?_, ?_⟩
  · rintro value s' ⟨fuel, ran⟩
    obtain ⟨s'', stuck⟩ := diverges fuel
    rw [ran] at stuck
    cases stuck
  · rintro s' ⟨fuel, ran⟩
    obtain ⟨s'', stuck⟩ := diverges fuel
    rw [ran] at stuck
    cases stuck
  · rintro s' ⟨fuel, ran⟩
    obtain ⟨s'', stuck⟩ := diverges fuel
    rw [ran] at stuck
    cases stuck

end Call

/-- Where no entry of Alloc finds anything and InitOrExpand adds nothing, the
retries go on for ever. -/
theorem alloc_diverges {bytes : Nat} {P : Store → Prop}
    (barren : ∀ s, P s → s.gm.top ≠ 0 ∧ P { s with underlyingCalls := s.underlyingCalls + 1 } ∧
      ∃ fuel, tryAlloc fuel bytes s = .ok none s)
    {s : Store} (start : P s) : (Call.alloc bytes).Diverges s := by
  intro fuel
  induction fuel generalizing s with
  | zero => exact ⟨s, rfl⟩
  | succ fuel ih =>
      obtain ⟨present, again, enough, none⟩ := barren s start
      obtain ⟨s', stuck⟩ := ih again
      by_cases ends : Ends Stop.fuel (tryAlloc fuel bytes s)
      · have same := (tryAlloc_steady bytes).unique ends (none ▸ Call.ok_ends)
        refine ⟨s', ?_⟩
        rw [Call.run, alloc, bind_run, same, none]
        simp only [bind_run, initOrExpand_again present]
        exact stuck
      · simp only [Ends, not_forall, not_not] at ends
        obtain ⟨s', out⟩ := ends
        exact ⟨s', by rw [Call.run, alloc, bind_run, out]⟩

namespace Heap

/-- The abstract outcome of a call. -/
def answer (h : Heap) : Call → Reply
  | .alloc bytes => h.alloc bytes
  | .free mem =>
      match h.free (mem - 32) with
      | some after => .served 0 after
      | none => .corrupted
  | .expand => .served 0 h

theorem free_of_answer {h h' : Heap} {a value : Nat}
    (answered : h.answer (.free (a + 32)) = .served value h') : h.free a = some h' := by
  rw [answer, Nat.add_sub_cancel] at answered
  cases outcome : h.free a with
  | none =>
      rw [outcome] at answered
      cases answered
  | some after =>
      rw [outcome] at answered
      rw [(Reply.served.inj answered).2]

end Heap

/-- How a call ends. -/
inductive Ending where
  | returns (value : Nat)
  | throws
  | diverges
  deriving DecidableEq

def Heap.Reply.ending : Heap.Reply → Ending
  | .served value _ => .returns value
  | .corrupted => .throws
  | .expand => .diverges

def Call.EndsAs (call : Call) (s : Store) : Ending → Prop
  | .returns value => ∃ s', call.Returns s value s'
  | .throws => ∃ s', call.Throws s s'
  | .diverges => call.Diverges s

/-- What a served call leaves alone; `freed` is the chunk a Free gives back. -/
structure Kept (call : Call) (h : Heap) (s s' : Store) : Prop where
  settings : SameSettings s.gm s'.gm
  mapped : s'.mem.mapped = s.mem.mapped
  allocator : s'.underlyingAllocator = s.underlyingAllocator
  calls : s'.underlyingCalls = s.underlyingCalls + if call = .expand then 1 else 0
  size : s'.increasingSize = s.increasingSize
  step : s'.increasingStep = s.increasingStep
  bytes : ∀ a n, h.Used a n → call ≠ .free (a + 32) →
    ∀ x, a + 16 ≤ x → x < a + n + 8 → s'.mem.byte x = s.mem.byte x

/-- The chunks in use after a served call. -/
def Served (call : Call) (h h' : Heap) (value : Nat) : Prop :=
  match call with
  | .alloc bytes => ∃ p k, value = p + 32 ∧ paddedRequest bytes ≤ k ∧ k < paddedRequest bytes + 32 ∧
      ∀ a n, h'.Used a n ↔ h.Used a n ∨ a = p ∧ n = k
  | .free mem => ∀ a n, h'.Used a n ↔ h.Used a n ∧ a + 32 ≠ mem
  | .expand => h' = h

/-- The outcome of a call is what the heap answers. -/
def Obeys (first stop limit : Nat) (s : Store) (h : Heap) (call : Call) : Heap.Reply → Prop
  | .served value h' => ∃ s', (∀ fuel, 3 ≤ fuel → call.run fuel s = .ok value s') ∧
      Represents first stop limit s' h' [] ∧ Kept call h s s' ∧ Served call h h' value
  | .corrupted => ∃ s', (∀ fuel, 3 ≤ fuel → call.run fuel s = .error .corrupted s') ∧ Disturbed h s'
  | .expand => call.Diverges s

namespace Represents

variable {first stop limit : Nat} {s : Store} {h : Heap}

theorem alloc_obeys (rep : Represents first stop limit s h []) (bytes : Nat) :
    Obeys first stop limit s h (.alloc bytes) (h.alloc bytes) := by
  have refines := rep.tryAlloc_refines bytes 0
  have more : ∀ fuel, 3 ≤ fuel → ∃ few, fuel = few + 1 ∧ 2 ≤ few := fun fuel enough =>
    ⟨fuel - 1, by omega, by omega⟩
  cases reply : h.alloc bytes with
  | served mem h' =>
      rw [reply] at refines
      obtain ⟨p, k, at_, lower, upper, s', ran, rep', keeps⟩ := refines
      refine ⟨s', fun fuel enough => ?_, rep', ?_, p, k, at_, lower, upper, fun a n => ?_⟩
      · obtain ⟨few, rfl, least⟩ := more fuel enough
        have whole := (tryAlloc_steady bytes).le least s (ran ▸ Call.ok_ends)
        rw [Call.run, alloc, bind_run, whole, ran]
        rfl
      · exact ⟨keeps.settings, keeps.mapped, keeps.allocator, keeps.calls, keeps.size, keeps.step,
          fun a n used _ => keeps.bytes a n used not_false⟩
      · simpa using keeps.used a n
  | corrupted =>
      rw [reply] at refines
      obtain ⟨s', ran, disturbed⟩ := refines
      refine ⟨s', fun fuel enough => ?_, disturbed⟩
      obtain ⟨few, rfl, least⟩ := more fuel enough
      have whole := (tryAlloc_steady bytes).le least s (ran ▸ Call.error_ends (by decide))
      rw [Call.run, alloc, bind_run, whole, ran]
  | expand =>
      refine alloc_diverges (P := fun s => Represents first stop limit s h [])
        (fun s rep => ⟨rep.top_ne_zero, rep.recount _, 2, ?_⟩) rep
      have refines := rep.tryAlloc_refines bytes 0
      rw [reply] at refines
      exact refines

theorem free_obeys (rep : Represents first stop limit s h []) {a k : Nat} (used : h.Used a k) :
    Obeys first stop limit s h (.free (a + 32)) (h.answer (.free (a + 32))) := by
  have frees := rep.free_refines used 0
  rw [Heap.answer, Nat.add_sub_cancel]
  cases outcome : h.free a with
  | some h' =>
      rw [outcome] at frees
      obtain ⟨s', ran, rep', keeps⟩ := frees
      refine ⟨s', fun fuel enough => ?_, rep', ?_, fun b n => ?_⟩
      · have whole := (free_steady (a + 32)).le (show 1 ≤ fuel by omega) s (ran ▸ Call.ok_ends)
        rw [Call.run, bind_run, whole, ran]
        rfl
      · refine ⟨keeps.settings, keeps.mapped, keeps.allocator, keeps.calls, keeps.size, keeps.step,
          fun b n usedB other => keeps.bytes b n usedB fun same => other ?_⟩
        rw [same]
      · rw [keeps.used b n]
        have cancel : b + 32 ≠ a + 32 ↔ ¬ b = a := by omega
        simp [cancel]
  | none =>
      rw [outcome] at frees
      obtain ⟨s', ran, disturbed⟩ := frees
      refine ⟨s', fun fuel enough => ?_, disturbed⟩
      have whole := (free_steady (a + 32)).le (show 1 ≤ fuel by omega) s
        (ran ▸ Call.error_ends (by decide))
      rw [Call.run, bind_run, whole, ran]

theorem expand_obeys (rep : Represents first stop limit s h []) :
    Obeys first stop limit s h .expand (h.answer .expand) := by
  refine ⟨{ s with underlyingCalls := s.underlyingCalls + 1 }, fun fuel _ => ?_, rep.recount _,
    ⟨⟨rfl, rfl, rfl, rfl, rfl⟩, rfl, rfl, rfl, rfl, rfl, fun _ _ _ _ _ _ _ => rfl⟩, rfl⟩
  rw [Call.run, bind_run, initOrExpand_again rep.top_ne_zero]
  rfl

end Represents

end Unimem
