import Unimem.MallocState

/-!
The bin bitmaps, read as sets of bin indices: what marking and clearing do to a
bit, and which index the bit tricks of the searches compute.
-/

namespace Unimem

open WordArith

theorem idx2bit_eq {i : Nat} (bound : i < 32) : idx2bit i = 2 ^ i := by
  have : 2 ^ i < 2 ^ 32 := Nat.pow_lt_pow_right (by decide) bound
  rw [idx2bit, shl32, Nat.shiftLeft_eq, one_mul, Nat.mod_eq_of_lt this]

theorem testBit_mark {x i : Nat} (bound : i < 32) (j : Nat) :
    (x ||| idx2bit i).testBit j = (x.testBit j || decide (i = j)) := by
  rw [idx2bit_eq bound, Nat.testBit_or, Nat.testBit_two_pow]

theorem testBit_clear {x i : Nat} (fits : x < 2 ^ 32) (bound : i < 32) (j : Nat) :
    (x &&& not32 (idx2bit i)).testBit j = (x.testBit j && !decide (i = j)) := by
  have power : 2 ^ i < 2 ^ 32 := Nat.pow_lt_pow_right (by decide) bound
  rw [idx2bit_eq bound, Nat.testBit_and, testBit_not32 _ _ power, Nat.testBit_two_pow]
  by_cases low : j < 32
  · simp [low]
  · have zero : x.testBit j = false :=
      Nat.testBit_lt_two_pow (Nat.lt_of_lt_of_le fits (Nat.pow_le_pow_right (by decide) (by omega)))
    simp [zero]

theorem mark_lt {x i : Nat} (fits : x < 2 ^ 32) (bound : i < 32) : x ||| idx2bit i < 2 ^ 32 := by
  rw [idx2bit_eq bound]
  exact Nat.or_lt_two_pow fits (Nat.pow_lt_pow_right (by decide) bound)

theorem clear_lt {x i : Nat} (fits : x < 2 ^ 32) : x &&& not32 (idx2bit i) < 2 ^ 32 :=
  Nat.lt_of_le_of_lt Nat.and_le_left fits

theorem marked_iff {x i : Nat} (bound : i < 32) : x &&& idx2bit i = 0 ↔ x.testBit i = false := by
  rw [idx2bit_eq bound, Nat.and_comm, Nat.two_pow_and]
  cases x.testBit i <;> simp

theorem leastSet_leastBit {x i : Nat} (fits : x < 2 ^ 32) (least : LeastSet x i) :
    LeastSet (leastBit x) i := by
  obtain ⟨bound, here, below⟩ := least
  refine ⟨bound, ?_, fun j lower => ?_⟩
  · -- x = 2 ^ i * y with y odd, so x - 1 has bit `i` clear and its negation has it set
    have multiple : x % 2 ^ i = 0 := by
      apply Nat.eq_of_testBit_eq
      intro j
      rw [Nat.testBit_mod_two_pow, Nat.zero_testBit]
      by_cases lower : j < i
      · simp [below j lower]
      · simp [lower]
    have factor : 2 ^ i * (x / 2 ^ i) = x := Nat.mul_div_cancel' (Nat.dvd_of_mod_eq_zero multiple)
    have odd : x / 2 ^ i % 2 = 1 := by
      rw [Nat.testBit_eq_decide_div_mod_eq] at here
      exact of_decide_eq_true here
    generalize x / 2 ^ i = y at factor odd
    have positive : 0 < 2 ^ i := Nat.two_pow_pos i
    have predecessor : x - 1 = 2 ^ i * (y - 1) + (2 ^ i - 1) := by
      obtain ⟨z, rfl⟩ : ∃ z, y = z + 1 := ⟨y - 1, by omega⟩
      rw [Nat.mul_succ] at factor
      simp only [Nat.add_sub_cancel]
      omega
    have nonzero : 0 < x := by
      rw [← factor]
      exact Nat.mul_pos positive (by omega)
    have clear : (x - 1).testBit i = false := by
      rw [predecessor, Nat.testBit_two_pow_mul_add _ (by omega)]
      simp only [Nat.lt_irrefl, if_false, Nat.sub_self, Nat.testBit_zero, decide_eq_false_iff_not]
      omega
    have negated : neg32 x = 2 ^ 32 - ((x - 1) + 1) := by
      unfold neg32
      omega
    have below_word : x - 1 < 2 ^ 32 := by omega
    rw [leastBit, Nat.testBit_and, here, negated, Nat.testBit_two_pow_sub_succ below_word, clear]
    simp [bound]
  · rw [leastBit, Nat.testBit_and, below j lower, Bool.false_and]

theorem computeBit2idx_leastBit {x i : Nat} (fits : x < 2 ^ 32) (least : LeastSet x i) :
    computeBit2idx (leastBit x) = i := ctz32_of_least (leastSet_leastBit fits least)

theorem testBit_leftBits {i j : Nat} (boundI : i < 32) (boundJ : j < 32) :
    (leftBits (idx2bit i)).testBit j = decide (i < j) := by
  have all : ∀ i : Fin 32, ∀ j : Fin 32,
      (leftBits (idx2bit i)).testBit j = decide (i.val < j.val) := by decide +kernel
  exact all ⟨i, boundI⟩ ⟨j, boundJ⟩

end Unimem
