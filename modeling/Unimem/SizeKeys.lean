import Unimem.TreeIndex
import Unimem.TreeBins

/-!
How the tree bins split the sizes. compute_tree_index truncates `S >> 8` to 32
bits, so it sees a size only up to its low 40 bits. Two sizes of a bin are told
apart by the bits below those the index has resolved.
-/

namespace Unimem

open WordArith

/-- `S << leftshift_for_tree_index(i)`. -/
def sizeKey (i S : Nat) : Nat := shl64 S (leftshiftForTreeIndex i)

/-- At the most significant position where they differ, `low` has 0 and `high` has 1. -/
def DiffersUpward (low high : Nat) : Prop :=
  ∃ k < 64, low.testBit k = false ∧ high.testBit k = true ∧
    ∀ j, k < j → low.testBit j = high.testBit j

/-- Bins and keys order the two sizes. -/
structure BinsOrder (S S' : Nat) : Prop where
  bound : computeTreeIndex S < ntreebins ∧ computeTreeIndex S' < ntreebins
  monotone : S ≤ S' → computeTreeIndex S ≤ computeTreeIndex S'
  distinguishes : ∀ i, S < S' → computeTreeIndex S = i → computeTreeIndex S' = i →
    DiffersUpward (sizeKey i S) (sizeKey i S')

/-- The low 40 bits order the two sizes as far as bins and keys go. -/
def LowBitsOrder (S S' : Nat) : Prop :=
  3 * 2 ^ 22 ≤ S' % 2 ^ 40 ∨ (384 ≤ S' % 2 ^ 40 ∧ S % 2 ^ 40 < S' % 2 ^ 40) ∨
    (S % 2 ^ 40 < 384 ∧ S' % 2 ^ 40 < 384 ∧ S % 128 < S' % 128)

/-! ## Keys -/

theorem differsUpward_iff {low high : Nat} (fits : high < 2 ^ 64) :
    DiffersUpward low high ↔ low < high := by
  constructor
  · rintro ⟨k, -, clear, set, above⟩
    exact Nat.lt_of_testBit k clear set above
  · intro less
    have differ : low ^^^ high ≠ 0 := by
      intro same
      exact Nat.ne_of_lt less (Nat.xor_eq_zero_iff.mp same)
    obtain ⟨k, top, above⟩ := Nat.exists_most_significant_bit differ
    have agree : ∀ j, k < j → low.testBit j = high.testBit j := by
      intro j later
      have := above j later
      rw [Nat.testBit_xor] at this
      simpa using this
    rw [Nat.testBit_xor] at top
    have inWord : ∀ j, high.testBit j = true → j < 64 := by
      intro j set
      by_contra outside
      have power : 2 ^ 64 ≤ 2 ^ j := Nat.pow_le_pow_right (by decide) (by omega)
      simp [Nat.testBit_lt_two_pow (Nat.lt_of_lt_of_le fits power)] at set
    cases atHigh : high.testBit k with
    | true => exact ⟨k, inWord k atHigh, by simpa [atHigh] using top, atHigh, agree⟩
    | false =>
        have atLow : low.testBit k = true := by simpa [atHigh] using top
        have reversed := Nat.lt_of_testBit k atHigh atLow fun j later => (agree j later).symm
        omega

theorem sizeKey_lt (i S : Nat) : sizeKey i S < 2 ^ 64 := Nat.mod_lt _ (by decide)

/-- Only the bits the index has not resolved are left in the key. -/
theorem sizeKey_eq {i : Nat} (bound : i < 31) (S : Nat) :
    sizeKey i S = S % 2 ^ (i / 2 + 7) * 2 ^ (57 - i / 2) := by
  have shift : leftshiftForTreeIndex i = 57 - i / 2 := by
    rw [leftshiftForTreeIndex, if_neg (by simp only [ntreebins]; omega)]
    simp only [sizeTBitsize, sizeTSize, sizeTOne, treebinShift, Nat.shiftLeft_eq,
      Nat.shiftRight_eq_div_pow]
    omega
  have word : 2 ^ 64 = 2 ^ (i / 2 + 7) * 2 ^ (57 - i / 2) := by
    rw [← pow_add]
    congr 1
    omega
  rw [sizeKey, shl64, Nat.shiftLeft_eq, shift, word, Nat.mul_mod_mul_right]

theorem sizeKey_lt_iff {i : Nat} (bound : i < 31) {S S' : Nat} :
    sizeKey i S < sizeKey i S' ↔ S % 2 ^ (i / 2 + 7) < S' % 2 ^ (i / 2 + 7) := by
  rw [sizeKey_eq bound, sizeKey_eq bound]
  exact Nat.mul_lt_mul_right (Nat.two_pow_pos _)

theorem sizeKey_last {S : Nat} (fits : S < 2 ^ 64) : sizeKey 31 S = S := by
  simp only [sizeKey, leftshiftForTreeIndex, ntreebins, if_true, shl64, Nat.shiftLeft_zero]
  exact Nat.mod_eq_of_lt fits

/-! ## Indices -/

/-- The truncation to a 32-bit word drops everything from bit 40 on. -/
theorem computeTreeIndex_mod (S : Nat) : computeTreeIndex (S % 2 ^ 40) = computeTreeIndex S := by
  have word : ((S % 2 ^ 40) >>> treebinShift) % 2 ^ 32 = (S >>> treebinShift) % 2 ^ 32 := by
    simp only [treebinShift, Nat.shiftRight_eq_div_pow]
    omega
  have bit : ∀ n < 40, ((S % 2 ^ 40) >>> n) &&& 1 = (S >>> n) &&& 1 := by
    intro n below
    have same : (S % 2 ^ 40).testBit n = S.testBit n := by
      rw [Nat.testBit_mod_two_pow, decide_eq_true below, Bool.true_and]
    simp only [Nat.and_one_is_mod, Nat.shiftRight_eq_div_pow, ← Nat.toNat_testBit, same]
  simp only [computeTreeIndex]
  rw [word]
  generalize (S >>> treebinShift) % 2 ^ 32 = x
  by_cases zero : x = 0
  · rw [if_pos zero, if_pos zero]
  · by_cases big : x > 0xFFFF
    · rw [if_neg zero, if_neg zero, if_pos big, if_pos big]
    · have few : x.log2 < 16 := (Nat.log2_lt zero).mpr (by omega)
      rw [if_neg zero, if_neg zero, if_neg big, if_neg big, bit]
      simp only [clz32, treebinShift]
      omega

theorem computeTreeIndex_first {r : Nat} (below : r < 384) : computeTreeIndex r = 0 := by
  by_cases tiny : r < 256
  · have zero : (r >>> treebinShift) % 2 ^ 32 = 0 := by
      simp only [treebinShift, Nat.shiftRight_eq_div_pow]
      omega
    simp only [computeTreeIndex]
    rw [if_pos zero]
  · have one : r / 256 = 1 := by omega
    have first : sizeClass r = 0 := by rw [sizeClass, one]; rfl
    rw [computeTreeIndex_eq (by omega) (by omega), if_neg (by omega), first]
    omega

/-- The bins between the first and the last are halves of the powers of two. -/
theorem computeTreeIndex_middle {r : Nat} (above : 384 ≤ r) (below : r < 3 * 2 ^ 22) :
    0 < computeTreeIndex r ∧ computeTreeIndex r < 31 ∧
      r = 2 ^ (computeTreeIndex r / 2 + 7) * (2 + computeTreeIndex r % 2) +
        r % 2 ^ (computeTreeIndex r / 2 + 7) := by
  have index := computeTreeIndex_eq (s := r) (by omega) (by omega)
  rw [if_neg (by omega)] at index
  have half := halfBit_eq (s := r) (by omega)
  have classes := sizeClass_lt (s := r) (by omega) (by omega)
  have split := Nat.div_add_mod r (2 ^ (sizeClass r + 7))
  have bounds := sizeClass_bounds (s := r) (by omega)
  have low : computeTreeIndex r / 2 = sizeClass r := by omega
  have odd : computeTreeIndex r % 2 = r / 2 ^ (sizeClass r + 7) % 2 := by omega
  refine ⟨?_, ?_, ?_⟩
  · by_contra zero
    have first : sizeClass r = 0 := by omega
    rw [first] at index half
    omega
  · by_contra last
    have top : sizeClass r = 15 := by omega
    rw [top] at index half
    omega
  · rw [low, odd, ← half]
    exact split.symm

theorem computeTreeIndex_last {r : Nat} (above : 3 * 2 ^ 22 ≤ r) (bound : r < 2 ^ 40) :
    computeTreeIndex r = 31 := by
  rw [computeTreeIndex_eq (by omega) bound]
  by_cases huge : 2 ^ 24 ≤ r
  · rw [if_pos huge]
  · rw [if_neg huge]
    have classes := sizeClass_lt (s := r) (by omega) (by omega)
    have bounds := sizeClass_bounds (s := r) (by omega)
    have top : sizeClass r = 15 := by
      by_contra lower
      have powers : 2 ^ (sizeClass r + 9) ≤ 2 ^ 23 :=
        Nat.pow_le_pow_right (by decide) (by omega)
      omega
    rw [top]
    omega

theorem index_zero_iff {S : Nat} : computeTreeIndex S = 0 ↔ S % 2 ^ 40 < 384 := by
  rw [← computeTreeIndex_mod]
  constructor
  · intro zero
    by_contra more
    by_cases last : 3 * 2 ^ 22 ≤ S % 2 ^ 40
    · have := computeTreeIndex_last last (Nat.mod_lt _ (by decide))
      omega
    · have := (computeTreeIndex_middle (r := S % 2 ^ 40) (by omega) (by omega)).1
      omega
  · exact computeTreeIndex_first

theorem index_last_iff {S : Nat} : computeTreeIndex S = 31 ↔ 3 * 2 ^ 22 ≤ S % 2 ^ 40 := by
  rw [← computeTreeIndex_mod]
  constructor
  · intro last
    by_contra less
    by_cases first : S % 2 ^ 40 < 384
    · have := computeTreeIndex_first first
      omega
    · have := (computeTreeIndex_middle (r := S % 2 ^ 40) (by omega) (by omega)).2.1
      omega
  · exact fun above => computeTreeIndex_last above (Nat.mod_lt _ (by decide))

/-- Within a bin between the first and the last, keys are ordered like the low 40 bits. -/
theorem sizeKey_middle {i S S' : Nat} (here : computeTreeIndex S = i)
    (here' : computeTreeIndex S' = i) (notFirst : i ≠ 0) (notLast : i ≠ 31) :
    sizeKey i S < sizeKey i S' ↔ S % 2 ^ 40 < S' % 2 ^ 40 := by
  have placed : ∀ {R : Nat}, computeTreeIndex R = i →
      i < 31 ∧ R % 2 ^ 40 = 2 ^ (i / 2 + 7) * (2 + i % 2) + R % 2 ^ (i / 2 + 7) := by
    rintro R rfl
    have above : 384 ≤ R % 2 ^ 40 := not_lt.mp (mt index_zero_iff.mpr notFirst)
    have below : R % 2 ^ 40 < 3 * 2 ^ 22 := not_le.mp (mt index_last_iff.mpr notLast)
    obtain ⟨-, bound, split⟩ := computeTreeIndex_middle above below
    rw [computeTreeIndex_mod] at bound split
    have divides : 2 ^ (computeTreeIndex R / 2 + 7) ∣ 2 ^ 40 := Nat.pow_dvd_pow 2 (by omega)
    rw [Nat.mod_mod_of_dvd _ divides] at split
    exact ⟨bound, split⟩
  obtain ⟨bound, split⟩ := placed here
  obtain ⟨-, split'⟩ := placed here'
  rw [sizeKey_lt_iff bound, split, split']
  omega

namespace LowBitsOrder

variable {S S' : Nat} (low : LowBitsOrder S S')

include low

theorem index_le : computeTreeIndex S ≤ computeTreeIndex S' := by
  have index := computeTreeIndex_mod S
  have index' := computeTreeIndex_mod S'
  rcases low with last | ⟨-, below⟩ | ⟨first, -, -⟩
  · have := index_last_iff.mpr last
    have := computeTreeIndex_lt S
    omega
  · by_cases first : S % 2 ^ 40 < 384
    · have := index_zero_iff.mpr first
      omega
    · have forth : computeTreeIndex (S % 2 ^ 40) ≤ computeTreeIndex (S' % 2 ^ 40) :=
        computeTreeIndex_mono (by omega) below.le (Nat.mod_lt _ (by decide))
      omega
  · have := index_zero_iff.mpr first
    omega

theorem sizeKey_lt {i : Nat} (less : S < S') (fits : S < 2 ^ 64) (fits' : S' < 2 ^ 64)
    (here : computeTreeIndex S = i) (here' : computeTreeIndex S' = i) :
    sizeKey i S < sizeKey i S' := by
  by_cases last : i = 31
  · subst last
    rw [sizeKey_last fits, sizeKey_last fits']
    exact less
  · by_cases first : i = 0
    · subst first
      have narrow := index_zero_iff.mp here'
      rw [sizeKey_lt_iff (by decide)]
      rcases low with top | ⟨above, -⟩ | ⟨-, -, below⟩
      · omega
      · omega
      · exact below
    · rw [sizeKey_middle here here' first last]
      have notFirst := mt index_zero_iff.mpr (here'.trans_ne first)
      have notLast := mt index_last_iff.mpr (here'.trans_ne last)
      rcases low with top | ⟨-, below⟩ | ⟨-, bottom, -⟩
      · exact absurd top notLast
      · exact below
      · exact absurd bottom notFirst

end LowBitsOrder

/-- Below 2^40 nothing is cut off. -/
theorem lowBitsOrder_of_lt {S S' : Nat} (large : minLargeSize ≤ S) (less : S < S')
    (bound : S' < 2 ^ 40) : LowBitsOrder S S' := by
  have least : minLargeSize = 256 := rfl
  rw [LowBitsOrder, Nat.mod_eq_of_lt bound, Nat.mod_eq_of_lt (less.trans bound)]
  omega

/-- What the bins and keys order has its order in the low 40 bits. -/
theorem BinsOrder.lowBits {S S' : Nat} (order : BinsOrder S S') (less : S < S') :
    LowBitsOrder S S' := by
  have index := computeTreeIndex_mod S
  have index' := computeTreeIndex_mod S'
  by_cases first : S' % 2 ^ 40 < 384
  · have zero' : computeTreeIndex S' = 0 := index_zero_iff.mpr first
    have zero : computeTreeIndex S = 0 := by
      have := order.monotone less.le
      omega
    have keys := (differsUpward_iff (sizeKey_lt 0 S')).mp (order.distinguishes 0 less zero zero')
    rw [sizeKey_lt_iff (by decide)] at keys
    exact Or.inr (Or.inr ⟨index_zero_iff.mp zero, first, keys⟩)
  · by_cases last : 3 * 2 ^ 22 ≤ S' % 2 ^ 40
    · exact Or.inl last
    · -- were the low bits reversed, the two would share a bin and have reversed keys
      refine Or.inr (Or.inl ⟨not_lt.mp first, ?_⟩)
      have notFirst : computeTreeIndex S' ≠ 0 := mt index_zero_iff.mp first
      have notLast : computeTreeIndex S' ≠ 31 := mt index_last_iff.mp last
      by_contra reversed
      have back : computeTreeIndex (S' % 2 ^ 40) ≤ computeTreeIndex (S % 2 ^ 40) :=
        computeTreeIndex_mono (by omega) (by omega) (Nat.mod_lt _ (by decide))
      have same : computeTreeIndex S = computeTreeIndex S' := by
        have := order.monotone less.le
        omega
      have keys := (differsUpward_iff (sizeKey_lt _ S')).mp (order.distinguishes _ less same rfl)
      exact reversed ((sizeKey_middle same rfl notFirst notLast).mp keys)

/-- Bins and keys order two sizes exactly where the low 40 bits do. -/
theorem binsOrder_iff {S S' : Nat} (fits : S < 2 ^ 64) (fits' : S' < 2 ^ 64) :
    BinsOrder S S' ↔ (S < S' → LowBitsOrder S S') := by
  constructor
  · exact fun order less => order.lowBits less
  · intro low
    constructor
    · exact ⟨computeTreeIndex_lt S, computeTreeIndex_lt S'⟩
    · intro ordered
      rcases Nat.lt_or_eq_of_le ordered with less | rfl
      · exact (low less).index_le
      · exact Nat.le_refl _
    · intro i less here here'
      rw [differsUpward_iff (sizeKey_lt i S')]
      exact (low less).sizeKey_lt less fits fits' here here'

theorem binsOrder_iff_neighbours : BinsOrder 496 512 ∧ ¬ BinsOrder 512 (2 ^ 40) := by
  constructor
  · refine (binsOrder_iff (by decide) (by decide)).mpr fun _ => ?_
    exact Or.inr (Or.inl (by decide))
  · intro order
    rcases (binsOrder_iff (by decide) (by decide)).mp order (by decide) with top | low | bottom
    · exact absurd top (by decide)
    · exact absurd low (by decide)
    · exact absurd bottom (by decide)

/-- Two to the fortieth is filed with the smallest sizes, below 512. -/
theorem index_reversed : minLargeSize ≤ 512 ∧ 512 ≤ 2 ^ 40 ∧ 2 ^ 40 < 2 ^ 64 ∧
    computeTreeIndex (2 ^ 40) < computeTreeIndex 512 ∧ ¬ BinsOrder 512 (2 ^ 40) := by
  have reversed : computeTreeIndex (2 ^ 40) < computeTreeIndex 512 := by decide
  exact ⟨by decide, by decide, by decide, reversed, fun order =>
    absurd (order.monotone (by decide)) (Nat.not_le_of_lt reversed)⟩

end Unimem
