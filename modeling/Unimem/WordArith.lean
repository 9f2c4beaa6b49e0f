import Mathlib.Tactic
import Mathlib.Data.Nat.Bitwise

/-!
Unsigned machine arithmetic on natural numbers: every operation that can leave
its width says so with an explicit remainder. The lemmas turn masks and flags
of aligned words into sums and remainders, which `omega` decides.
-/

namespace WordArith

def add64 (a b : Nat) : Nat := (a + b) % 2 ^ 64
def sub64 (a b : Nat) : Nat := (a + (2 ^ 64 - b % 2 ^ 64)) % 2 ^ 64
def neg64 (a : Nat) : Nat := (2 ^ 64 - a % 2 ^ 64) % 2 ^ 64
def not64 (a : Nat) : Nat := 2 ^ 64 - (a % 2 ^ 64 + 1)
def shl64 (a k : Nat) : Nat := (a <<< k) % 2 ^ 64

def neg32 (a : Nat) : Nat := (2 ^ 32 - a % 2 ^ 32) % 2 ^ 32
def not32 (a : Nat) : Nat := 2 ^ 32 - (a % 2 ^ 32 + 1)
def shl32 (a k : Nat) : Nat := (a <<< k) % 2 ^ 32

/-- Count of trailing zeros of a 32-bit word; the builtin is undefined on zero. -/
def ctz32 (x : Nat) : Nat := ((List.range 32).find? fun i => x.testBit i).getD 32

/-- Count of leading zeros of a non-zero 32-bit word. -/
def clz32 (x : Nat) : Nat := 31 - x.log2

theorem add64_of_lt {a b : Nat} (fits : a + b < 2 ^ 64) : add64 a b = a + b :=
  Nat.mod_eq_of_lt fits

theorem sub64_of_le {a b : Nat} (ordered : b ≤ a) (fits : a < 2 ^ 64) : sub64 a b = a - b := by
  unfold sub64
  omega

theorem sub64_of_lt {a b : Nat} (below : a < b) (fits : b < 2 ^ 64) :
    sub64 a b = a + 2 ^ 64 - b := by
  unfold sub64
  omega

theorem testBit_not64 (m i : Nat) (bound : m < 2 ^ 64) :
    (not64 m).testBit i = (decide (i < 64) && !m.testBit i) := by
  rw [not64, Nat.mod_eq_of_lt bound]
  exact Nat.testBit_two_pow_sub_succ bound i

theorem testBit_not32 (m i : Nat) (bound : m < 2 ^ 32) :
    (not32 m).testBit i = (decide (i < 32) && !m.testBit i) := by
  rw [not32, Nat.mod_eq_of_lt bound]
  exact Nat.testBit_two_pow_sub_succ bound i

/-- Clearing the `k` low bits rounds down to a multiple of `2 ^ k`. -/
theorem and_not64_low (x k : Nat) (bound : x < 2 ^ 64) (width : k < 64) :
    x &&& not64 (2 ^ k - 1) = x - x % 2 ^ k := by
  have maskFits : 2 ^ k - 1 < 2 ^ 64 :=
    Nat.lt_of_le_of_lt (Nat.sub_le _ _) (Nat.pow_lt_pow_right (by decide) width)
  have rounded : x - x % 2 ^ k = x / 2 ^ k * 2 ^ k := by
    have := Nat.div_add_mod' x (2 ^ k)
    omega
  rw [rounded]
  apply Nat.eq_of_testBit_eq
  intro i
  rw [Nat.testBit_and, testBit_not64 _ _ maskFits, Nat.testBit_two_pow_sub_one,
    Nat.testBit_mul_two_pow, Nat.testBit_div_two_pow]
  by_cases low : i < k
  · simp [low]
  · have back : i - k + k = i := by omega
    by_cases high : i < 64
    · simp [low, high, back, Nat.le_of_not_lt low]
    · have zero : x.testBit i = false :=
        Nat.testBit_lt_two_pow (Nat.lt_of_lt_of_le bound
          (Nat.pow_le_pow_right (by decide) (by omega)))
      simp [high, zero, back]

theorem or_low {s f k : Nat} (aligned : s % 2 ^ k = 0) (low : f < 2 ^ k) : s ||| f = s + f := by
  have whole : 2 ^ k * (s / 2 ^ k) = s := Nat.mul_div_cancel' (Nat.dvd_of_mod_eq_zero aligned)
  rw [← whole, ← Nat.two_pow_add_eq_or_of_lt low]

theorem or_one (x : Nat) : x ||| 1 = x - x % 2 + 1 := by
  rcases Nat.mod_two_eq_zero_or_one x with even | odd
  · rw [or_low (k := 1) even (by decide), even]
    omega
  · have below : (x - 1) % 2 = 0 := by omega
    have split : x = (x - 1) ||| 1 := by
      rw [or_low (k := 1) below (by decide)]
      omega
    rw [split, Nat.or_assoc, Nat.or_self, ← split]
    omega

theorem and_two (x : Nat) : x &&& 2 = 2 * (x / 2 % 2) := by
  have bit := Nat.two_pow_and x 1
  rw [Nat.testBit_eq_decide_div_mod_eq, pow_one, Nat.and_comm] at bit
  rcases Nat.mod_two_eq_zero_or_one (x / 2) with zero | one
  · simpa [zero] using bit
  · simpa [one] using bit

theorem and_three (x : Nat) : x &&& 3 = x % 4 := Nat.and_two_pow_sub_one_eq_mod x 2

theorem and_fifteen (x : Nat) : x &&& 15 = x % 16 := Nat.and_two_pow_sub_one_eq_mod x 4

theorem and_not64_one (x : Nat) (bound : x < 2 ^ 64) : x &&& not64 1 = x - x % 2 :=
  and_not64_low x 1 bound (by decide)

theorem and_not64_seven (x : Nat) (bound : x < 2 ^ 64) : x &&& not64 7 = x - x % 8 :=
  and_not64_low x 3 bound (by decide)

theorem and_not64_fifteen (x : Nat) (bound : x < 2 ^ 64) : x &&& not64 15 = x - x % 16 :=
  and_not64_low x 4 bound (by decide)

/-- The least set bit of a bitmap, as a position. -/
def LeastSet (x i : Nat) : Prop := i < 32 ∧ x.testBit i = true ∧ ∀ j < i, x.testBit j = false

theorem ctz32_of_least {x i : Nat} (least : LeastSet x i) : ctz32 x = i := by
  have found : (List.range 32).find? (fun j => x.testBit j) = some i := by
    rw [List.find?_range_eq_some]
    exact ⟨least.2.1, List.mem_range.mpr least.1, fun j below => by simp [least.2.2 j below]⟩
  simp [ctz32, found]

theorem exists_leastSet {x : Nat} (bound : x < 2 ^ 32) (nonzero : x ≠ 0) :
    ∃ i, LeastSet x i := by
  have some_bit : ∃ i, x.testBit i = true := Nat.exists_testBit_of_ne_zero nonzero
  classical
  refine ⟨Nat.find some_bit, ?_, Nat.find_spec some_bit, fun j below => ?_⟩
  · by_contra high
    have zero : x.testBit (Nat.find some_bit) = false :=
      Nat.testBit_lt_two_pow (Nat.lt_of_lt_of_le bound
        (Nat.pow_le_pow_right (by decide) (by omega)))
    have := Nat.find_spec some_bit
    simp_all
  · simpa using Nat.find_min some_bit below

end WordArith
