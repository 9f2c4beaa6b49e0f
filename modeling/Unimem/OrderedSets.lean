import Mathlib.Data.Finset.Max
import Mathlib.Tactic

/-!
Finite sets kept in order: the first element, the last one, and the first that
is not below a key.
-/

namespace OrderedSets

variable {Item : Type} [LinearOrder Item]

def first (items : Finset Item) : Option Item :=
  if some_item : items.Nonempty then some (items.min' some_item) else none

def last (items : Finset Item) : Option Item :=
  if some_item : items.Nonempty then some (items.max' some_item) else none

def lowerBound (items : Finset Item) (key : Item) : Option Item :=
  first (items.filter fun item => key ≤ item)

variable {items : Finset Item} {item key : Item}

theorem first_eq_none : first items = none ↔ items = ∅ := by
  unfold first
  split
  · simpa using Finset.nonempty_iff_ne_empty.mp ‹_›
  · simpa using Finset.not_nonempty_iff_eq_empty.mp ‹_›

theorem first_eq_some : first items = some item ↔ IsLeast items item := by
  unfold first
  split
  case isTrue some_item =>
    rw [Option.some.injEq]
    have least := items.isLeast_min' some_item
    exact ⟨fun same => same ▸ least, fun other => least.unique other⟩
  case isFalse empty =>
    rw [Finset.not_nonempty_iff_eq_empty.mp empty]
    simp [IsLeast]

theorem last_eq_some : last items = some item ↔ IsGreatest items item := by
  unfold last
  split
  case isTrue some_item =>
    rw [Option.some.injEq]
    have greatest := items.isGreatest_max' some_item
    exact ⟨fun same => same ▸ greatest, fun other => greatest.unique other⟩
  case isFalse empty =>
    rw [Finset.not_nonempty_iff_eq_empty.mp empty]
    simp [IsGreatest]

theorem lowerBound_eq_none : lowerBound items key = none ↔ ∀ other ∈ items, other < key := by
  simp [lowerBound, first_eq_none, Finset.filter_eq_empty_iff]

theorem lowerBound_eq_some : lowerBound items key = some item ↔
    (item ∈ items ∧ key ≤ item) ∧ ∀ other ∈ items, key ≤ other → item ≤ other := by
  simp only [lowerBound, first_eq_some, IsLeast, lowerBounds, Finset.coe_filter, Set.mem_ofPred_eq]
  exact and_congr_right fun _ => ⟨fun below other member above => below ⟨member, above⟩,
    fun below other both => below other both.1 both.2⟩

end OrderedSets
