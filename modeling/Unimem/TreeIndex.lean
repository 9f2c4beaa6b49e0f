import Unimem.MallocState

/-!
Which sizes a tree bin holds. Below 2^40 the index of a size is read off its
position between the powers of two, so the bins hold the sizes in order.
-/

namespace Unimem

open WordArith

/-- The exponent of the power of two at or below a size, from 256 on. -/
def sizeClass (s : Nat) : Nat := (s / 256).log2

theorem sizeClass_bounds {s : Nat} (large : 256 ≤ s) :
    2 ^ (sizeClass s + 8) ≤ s ∧ s < 2 ^ (sizeClass s + 9) := by
  have nonzero : s / 256 ≠ 0 := by omega
  have lower : 2 ^ sizeClass s ≤ s / 256 := Nat.log2_self_le nonzero
  have upper : s / 256 < 2 ^ (sizeClass s + 1) := Nat.lt_log2_self
  rw [pow_add _ _ 8, pow_add _ _ 9]
  rw [pow_add] at upper
  omega

theorem sizeClass_mono {s s' : Nat} (large : 256 ≤ s) (ordered : s ≤ s') :
    sizeClass s ≤ sizeClass s' := by
  by_contra later
  have one := (sizeClass_bounds large).1
  have two := (sizeClass_bounds (Nat.le_trans large ordered)).2
  have powers : 2 ^ (sizeClass s' + 9) ≤ 2 ^ (sizeClass s + 8) :=
    Nat.pow_le_pow_right (by decide) (by omega)
  omega

/-- A size in the range of the shifted 32-bit word, by its class and its next bit. -/
theorem computeTreeIndex_eq {s : Nat} (large : 256 ≤ s) (bound : s < 2 ^ 40) :
    computeTreeIndex s =
      if 2 ^ 24 ≤ s then 31 else 2 * sizeClass s + s / 2 ^ (sizeClass s + 7) % 2 := by
  have shift : (s >>> treebinShift) % 2 ^ 32 = s / 256 := by
    rw [treebinShift, Nat.shiftRight_eq_div_pow]
    omega
  rw [computeTreeIndex, shift]
  simp only [ntreebins]
  rw [if_neg (by omega)]
  by_cases huge : 2 ^ 24 ≤ s
  · rw [if_pos huge, if_pos (by omega)]
  · rw [if_neg huge, if_neg (by omega)]
    have few : (s / 256).log2 < 16 := (Nat.log2_lt (by omega)).mpr (by omega)
    have position : 4 * 8 - 1 - clz32 (s / 256) = sizeClass s := by
      rw [clz32, sizeClass]
      omega
    have seven : treebinShift - 1 = 7 := rfl
    rw [position, Nat.and_one_is_mod, Nat.shiftRight_eq_div_pow, Nat.shiftLeft_eq, seven]
    omega

/-- The bit below the leading one of a size. -/
theorem halfBit_eq {s : Nat} (large : 256 ≤ s) :
    s / 2 ^ (sizeClass s + 7) = 2 + s / 2 ^ (sizeClass s + 7) % 2 := by
  obtain ⟨lower, upper⟩ := sizeClass_bounds large
  have lower' : 2 ^ (sizeClass s + 7) * 2 ≤ s := by rw [← pow_succ]; exact lower
  have upper' : s < 2 ^ (sizeClass s + 7) * 4 := by
    have same : 2 ^ (sizeClass s + 9) = 2 ^ (sizeClass s + 7) * 4 := by
      rw [show sizeClass s + 9 = sizeClass s + 7 + 2 by omega, pow_add]
      rfl
    omega
  have positive : 0 < 2 ^ (sizeClass s + 7) := Nat.two_pow_pos _
  have two : 2 ≤ s / 2 ^ (sizeClass s + 7) :=
    (Nat.le_div_iff_mul_le positive).mpr (by rw [Nat.mul_comm]; exact lower')
  have four : s / 2 ^ (sizeClass s + 7) < 4 :=
    (Nat.div_lt_iff_lt_mul positive).mpr (by rw [Nat.mul_comm]; exact upper')
  omega

theorem sizeClass_lt {s : Nat} (large : 256 ≤ s) (bound : s < 2 ^ 24) : sizeClass s ≤ 15 := by
  by_contra big
  have lower := (sizeClass_bounds large).1
  have powers : 2 ^ 24 ≤ 2 ^ (sizeClass s + 8) := Nat.pow_le_pow_right (by decide) (by omega)
  omega

/-- Larger sizes are in the same bin or in a later one. -/
theorem computeTreeIndex_mono {s s' : Nat} (large : 256 ≤ s) (ordered : s ≤ s')
    (bound : s' < 2 ^ 40) : computeTreeIndex s ≤ computeTreeIndex s' := by
  have large' := Nat.le_trans large ordered
  rw [computeTreeIndex_eq large (by omega), computeTreeIndex_eq large' bound]
  have classes := sizeClass_mono large ordered
  by_cases huge : 2 ^ 24 ≤ s'
  · rw [if_pos huge]
    split
    · exact Nat.le_refl _
    · have := sizeClass_lt large (by omega)
      omega
  · rw [if_neg huge, if_neg (by omega)]
    rcases Nat.lt_or_eq_of_le classes with later | same
    · omega
    · rw [same]
      have one := halfBit_eq large
      have two := halfBit_eq large'
      rw [same] at one
      have quotients : s / 2 ^ (sizeClass s' + 7) ≤ s' / 2 ^ (sizeClass s' + 7) :=
        Nat.div_le_div_right ordered
      omega

end Unimem
