import Unimem.BuddyAllocator
import Unimem.Blocks

/-!
The search for an existing chunk. Its loop jumps from one index of the pool to
the next; what it finds is the first entry, by index, size and address, that is
large enough.
-/

namespace Buddy

open OrderedSets

theorem bind_get {β : Type} {rest : BuddyAllocator → Prog β} {s : BuddyAllocator} :
    ((get : Prog BuddyAllocator) >>= rest) s = rest s s := rfl

theorem IndexSizeAddress.key_le {index size : Nat} {item : IndexSizeAddress} :
    ⟨index, size, 0⟩ ≤ item ↔ index < item.index ∨ index = item.index ∧ size ≤ item.size := by
  rw [le_iff]
  refine or_congr_right (and_congr_right fun _ => ?_)
  simp only [Nat.zero_le, and_true]
  omega

def fitting (pool : Finset IndexSizeAddress) (size : Nat) : Finset IndexSizeAddress :=
  pool.filter fun item => size ≤ item.size

theorem mem_fitting {pool : Finset IndexSizeAddress} {size : Nat} {item : IndexSizeAddress} :
    item ∈ fitting pool size ↔ item ∈ pool ∧ size ≤ item.size := Finset.mem_filter

section Search

variable {pool : Finset IndexSizeAddress} {size index : Nat} {item : IndexSizeAddress}

/-- Up to an index, no entry is large enough. -/
def Passed (pool : Finset IndexSizeAddress) (size index : Nat) : Prop :=
  ∀ item ∈ pool, item.index < index → item.size < size

theorem none_fitting (passed : Passed pool size index)
    (none_left : ∀ item ∈ pool, item < ⟨index, size, 0⟩) : fitting pool size = ∅ := by
  refine Finset.filter_eq_empty_iff.mpr fun item member fits => ?_
  have below := none_left item member
  rw [← not_le, IndexSizeAddress.key_le] at below
  have small := passed item member
  omega

theorem first_fitting (passed : Passed pool size index) (member : item ∈ pool)
    (fits : size ≤ item.size)
    (least : ∀ other ∈ pool, (⟨index, size, 0⟩ : IndexSizeAddress) ≤ other → item ≤ other) :
    first (fitting pool size) = some item := by
  refine first_eq_some.mpr ⟨mem_fitting.mpr ⟨member, fits⟩, fun other large => ?_⟩
  obtain ⟨inPool, large⟩ := mem_fitting.mp large
  refine least other inPool (IndexSizeAddress.key_le.mpr ?_)
  have small := passed other inPool
  omega

/-- Where the least entry at a greater index is too small, so is all up to that index. -/
theorem Passed.jump (passed : Passed pool size index)
    (least : ∀ other ∈ pool, (⟨index, size, 0⟩ : IndexSizeAddress) ≤ other → item ≤ other) :
    Passed pool size item.index := by
  intro other inPool below
  by_contra large
  have small := passed other inPool
  have above := least other inPool (IndexSizeAddress.key_le.mpr (by omega))
  rw [IndexSizeAddress.le_iff] at above
  omega

end Search

variable {s : BuddyAllocator} {size : Nat}

theorem findExistChunkFrom_run {fuel index : Nat} (passed : Passed s.pool size index)
    (enough : (s.pool.filter fun item => index < item.index).card < fuel) :
    findExistChunkFrom size fuel index s = .ok (first (fitting s.pool size)) s := by
  induction fuel generalizing index with
  | zero => exact absurd enough (Nat.not_lt_zero _)
  | succ fuel ih =>
      rw [findExistChunkFrom, bind_get]
      cases found : lowerBound s.pool ⟨index, size, 0⟩ with
      | none =>
          have none_left := lowerBound_eq_none.mp found
          rw [none_fitting passed none_left, first_eq_none.mpr rfl]
          rfl
      | some item =>
          obtain ⟨⟨member, above⟩, least⟩ := lowerBound_eq_some.mp found
          rw [IndexSizeAddress.key_le] at above
          by_cases farther : index < item.index
          · by_cases fits : size ≤ item.size
            · rw [first_fitting passed member fits least]
              simp only [gt_iff_lt, farther, ge_iff_le, fits, if_true]
              rfl
            · -- fewer entries have an index beyond
              have fewer : (s.pool.filter fun other => item.index < other.index).card <
                  (s.pool.filter fun other => index < other.index).card := by
                refine Finset.card_lt_card (Finset.ssubset_iff_subset_ne.mpr ⟨?_, ?_⟩)
                · intro other inside
                  simp only [Finset.mem_filter] at inside ⊢
                  exact ⟨inside.1, Nat.lt_trans farther inside.2⟩
                · intro same
                  have inside : item ∈ s.pool.filter fun other => index < other.index :=
                    Finset.mem_filter.mpr ⟨member, farther⟩
                  rw [← same] at inside
                  exact absurd (Finset.mem_filter.mp inside).2 (Nat.lt_irrefl _)
              simp only [gt_iff_lt, farther, ge_iff_le, fits, if_true, if_false]
              exact ih (passed.jump least) (by omega)
          · rw [first_fitting passed member (by omega) least]
            simp only [gt_iff_lt, farther, if_false]
            rfl

/-- The loop ends, and finds the first entry that is large enough. -/
theorem findExistChunk_run (s : BuddyAllocator) (size : Nat) :
    findExistChunk size s = .ok (first (fitting s.pool size)) s := by
  rw [findExistChunk, bind_get]
  refine findExistChunkFrom_run (fun item _ below => absurd below (Nat.not_lt_zero _)) ?_
  exact Nat.lt_succ_of_le (Finset.card_filter_le _ _)

end Buddy
