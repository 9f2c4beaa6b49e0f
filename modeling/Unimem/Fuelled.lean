import Mathlib.Tactic

/-!
Programs with loops take a fuel argument and stop with a designated exception
when it is used up. One program extends another if it does the same wherever
the other does not run out. A program that only gets extended by more fuel has
an outcome that does not depend on the fuel.
-/

namespace Fuelled

variable {ε σ α β : Type}

/-- The run did not stop for want of fuel. -/
def Ends (out : ε) (result : EStateM.Result ε σ α) : Prop := ∀ state, result ≠ .error out state

def Extends (out : ε) (few many : EStateM ε σ α) : Prop :=
  ∀ state, Ends out (few state) → many state = few state

def Monotone (out : ε) (program : Nat → EStateM ε σ α) : Prop :=
  ∀ fuel, Extends out (program fuel) (program (fuel + 1))

variable {out : ε}

@[simp] theorem bind_run (first : EStateM ε σ α) (rest : α → EStateM ε σ β) (state : σ) :
    (first >>= rest) state =
      match first state with
      | .ok value after => rest value after
      | .error stop after => .error stop after := rfl

theorem bind_returns {first : EStateM ε σ α} {rest : α → EStateM ε σ β} {state after : σ}
    {value : β} (ran : (first >>= rest) state = .ok value after) :
    ∃ head between, first state = .ok head between ∧ rest head between = .ok value after := by
  rw [bind_run] at ran
  split at ran
  · exact ⟨_, _, ‹_›, ran⟩
  · cases ran

namespace Extends

theorem refl (program : EStateM ε σ α) : Extends out program program := fun _ _ => rfl

/-- A loop with no fuel left is extended by anything. -/
theorem of_throw (many : EStateM ε σ α) : Extends out (throw out) many :=
  fun state ends => absurd rfl (ends state)

theorem trans {few some many : EStateM ε σ α} (lower : Extends out few some)
    (upper : Extends out some many) : Extends out few many := by
  intro state ends
  have same := lower state ends
  rw [upper state (by rw [same]; exact ends), same]

theorem bind {few many : EStateM ε σ α} {rest rest' : α → EStateM ε σ β}
    (head : Extends out few many) (tail : ∀ value, Extends out (rest value) (rest' value)) :
    Extends out (few >>= rest) (many >>= rest') := by
  intro state ends
  simp only [bind_run] at ends ⊢
  have headEnds : Ends out (few state) := by
    intro after stopped
    rw [stopped] at ends
    exact ends after rfl
  rw [head state headEnds]
  cases outcome : few state with
  | ok value after =>
      rw [outcome] at ends
      exact tail value after ends
  | error stop after => rfl

theorem ite {condition : Prop} [Decidable condition] {yes yes' no no' : EStateM ε σ α}
    (left : Extends out yes yes') (right : Extends out no no') :
    Extends out (if condition then yes else no) (if condition then yes' else no') := by
  split
  · exact left
  · exact right

end Extends

theorem Monotone.le {program : Nat → EStateM ε σ α} (monotone : Monotone out program)
    {few many : Nat} (more : few ≤ many) : Extends out (program few) (program many) := by
  induction many, more using Nat.le_induction with
  | base => exact Extends.refl _
  | succ many _ ih => exact ih.trans (monotone many)

/-- Two runs that both end agree, whatever fuel each had. -/
theorem Monotone.unique {program : Nat → EStateM ε σ α} (monotone : Monotone out program)
    {one two : Nat} {state : σ} (oneEnds : Ends out (program one state))
    (twoEnds : Ends out (program two state)) : program one state = program two state := by
  rcases Nat.le_total one two with below | above
  · exact (monotone.le below state oneEnds).symm
  · exact monotone.le above state twoEnds

end Fuelled
