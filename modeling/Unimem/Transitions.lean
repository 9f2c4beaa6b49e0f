import Mathlib.Tactic

/-!
Finite runs of a labelled step relation: what every step keeps holds at the end
of every run, and a system that answers each step answers each run.
-/

namespace Transitions

variable {State State' Label : Type}

inductive Run (step : State → Label → State → Prop) (start : State) : List Label → State → Prop
  | nil : Run step start [] start
  | snoc {labels : List Label} {state after : State} {label : Label} :
      Run step start labels state → step state label after →
      Run step start (labels ++ [label]) after

variable {step : State → Label → State → Prop} {step' : State' → Label → State' → Prop}
  {start state : State} {start' : State'} {labels : List Label}

namespace Run

/-- An invariant may speak of the labels so far. -/
theorem induct (inv : List Label → State → Prop) (initial : inv [] start)
    (preserved : ∀ labels state label after, inv labels state → step state label after →
      inv (labels ++ [label]) after)
    (run : Run step start labels state) : inv labels state := by
  induction run with
  | nil => exact initial
  | snoc _ last ih => exact preserved _ _ _ _ ih last

theorem invariant (inv : State → Prop) (initial : inv start)
    (preserved : ∀ state label after, inv state → step state label after → inv after)
    (run : Run step start labels state) : inv state :=
  run.induct (fun _ => inv) initial fun _ state label after => preserved state label after

/-- Two systems in lockstep: related states stay related, label by label. -/
theorem lockstep {related : State → State' → Prop} (initial : related start start')
    (answers : ∀ state state' label after, related state state' → step state label after →
      ∃ after', step' state' label after' ∧ related after after')
    (run : Run step start labels state) :
    ∃ state', Run step' start' labels state' ∧ related state state' := by
  induction run with
  | nil => exact ⟨start', nil, initial⟩
  | snoc _ last ih =>
      obtain ⟨state', run', related'⟩ := ih
      obtain ⟨after', step', kept⟩ := answers _ _ _ _ related' last
      exact ⟨after', run'.snoc step', kept⟩

/-- The second system takes part in the loud labels only. -/
theorem muted {related : State → State' → Prop} (loud : Label → Bool)
    (initial : related start start')
    (answers : ∀ state state' label after, related state state' → step state label after →
      loud label = true → ∃ after', step' state' label after' ∧ related after after')
    (silent : ∀ state state' label after, related state state' → step state label after →
      loud label = false → related after state')
    (run : Run step start labels state) :
    ∃ state', Run step' start' (labels.filter loud) state' ∧ related state state' := by
  induction run with
  | nil => exact ⟨start', nil, initial⟩
  | @snoc labels _ _ label _ last ih =>
      obtain ⟨state', run', related'⟩ := ih
      rw [List.filter_append]
      cases heard : loud label with
      | true =>
          obtain ⟨after', step', kept⟩ := answers _ _ _ _ related' last heard
          refine ⟨after', ?_, kept⟩
          rw [List.filter_cons_of_pos heard]
          exact run'.snoc step'
      | false =>
          refine ⟨state', ?_, silent _ _ _ _ related' last heard⟩
          rw [List.filter_cons_of_neg (by simp [heard]), List.filter_nil, List.append_nil]
          exact run'

/-- Where a step is determined by its label, a run is by its labels. -/
theorem determined {after : State}
    (unique : ∀ state label left right, step state label left → step state label right →
      left = right)
    (run : Run step start labels state) (other : Run step start labels after) : state = after := by
  induction run generalizing after with
  | nil =>
      generalize none : ([] : List Label) = labels at other
      cases other with
      | nil => rfl
      | snoc _ _ => simp at none
  | @snoc labels before _ label _ last ih =>
      generalize whole : labels ++ [label] = found at other
      cases other with
      | nil => simp at whole
      | snoc earlier last' =>
          obtain ⟨rfl, single⟩ := List.append_inj' whole rfl
          obtain rfl := (List.cons.inj single).1
          obtain rfl := ih earlier
          exact unique _ _ _ _ last last'

end Run

end Transitions
