import Mathlib.Data.Nat.Bitwise
import Mathlib.Tactic.Ring

/-!
# Masks, Fields and Alignment

Hardware code addresses memory through masks: a run of low ones is a remainder,
a run between two positions cuts out a field, and the complement of a run of low
ones rounds down. Words are natural numbers, so a complement carries its width.

## Main definitions

* `alignUp`: rounding up by adding `a - 1` and masking.

## Theorems

* `and_high_mask`: masking with a complement drops the remainder.
* `field_or_low`: a field survives an or with lower bits.
* `alignUp_dvd`: the result is aligned.
-/

namespace Mellow.Lib

variable {k x : Nat}

theorem testBit_field (k m i : Nat) (h : k ≤ m) :
    (2 ^ m - 2 ^ k).testBit i = (decide (k ≤ i) && decide (i < m)) := by
  have hpos : 0 < 2 ^ k := Nat.two_pow_pos k
  have hle : 2 ^ k ≤ 2 ^ m := Nat.pow_le_pow_right (by omega) h
  have hx : 2 ^ k - 1 < 2 ^ m := by omega
  have hsub : 2 ^ m - 2 ^ k = 2 ^ m - (2 ^ k - 1 + 1) := by omega
  rw [hsub, Nat.testBit_two_pow_sub_succ hx, Nat.testBit_two_pow_sub_one]
  by_cases hi : i < k
  · simp [*]
  · simp only [hi, decide_false, Bool.not_false, Bool.and_true, Nat.not_lt.mp hi, decide_true,
      Bool.true_and]

/-- Masking with the complement of a low run rounds down to a multiple. -/
theorem and_high_mask {w : Nat} (hk : k ≤ w) (hx : x < 2 ^ w) :
    x &&& (2 ^ w - 2 ^ k) = 2 ^ k * (x / 2 ^ k) := by
  apply Nat.eq_of_testBit_eq
  intro i
  rw [Nat.testBit_and, testBit_field k w i hk, Nat.testBit_two_pow_mul, Nat.testBit_div_two_pow]
  by_cases hlo : i < k
  · simp only [Nat.not_le.mpr hlo, decide_false, Bool.false_and, Bool.and_false]
  · have hsum : i - k + k = i := by omega
    rw [hsum]
    by_cases hhi : i < w
    · simp only [Nat.not_lt.mp hlo, hhi, decide_true, Bool.and_self, Bool.and_true,
        Bool.true_and]
    · have hxi : x.testBit i = false :=
        Nat.testBit_lt_two_pow (Nat.lt_of_lt_of_le hx (Nat.pow_le_pow_right (by omega) (by omega)))
      rw [hxi, Bool.false_and, Bool.and_false]

/-- The mask cuts off flag bits below a field. -/
theorem field_or_low {f m : Nat} (hk : k ≤ m) (hx : 2 ^ k ∣ x) (hm : x < 2 ^ m)
    (hf : f < 2 ^ k) : (x ||| f) &&& (2 ^ m - 2 ^ k) = x := by
  have hf' : f < 2 ^ m := Nat.lt_of_lt_of_le hf (Nat.pow_le_pow_right (by omega) hk)
  rw [and_high_mask hk (Nat.or_lt_two_pow hm hf'), Nat.or_div_two_pow, Nat.div_eq_of_lt hf,
    Nat.or_zero, Nat.mul_div_cancel' hx]

/-- Round up as `(x + a - 1) & ~(a - 1)` does on 64-bit words. -/
def alignUp (x a : Nat) : Nat := ((x + a - 1) % 2 ^ 64) &&& (2 ^ 64 - a)

/-- Rounding up, read as arithmetic. The sum must not wrap. -/
theorem alignUp_eq (hk : k ≤ 64) (hx : x + 2 ^ k ≤ 2 ^ 64) :
    alignUp x (2 ^ k) = 2 ^ k * ((x + 2 ^ k - 1) / 2 ^ k) := by
  have hpos : 0 < 2 ^ k := Nat.two_pow_pos k
  have hlt : x + 2 ^ k - 1 < 2 ^ 64 := by omega
  rw [alignUp, Nat.mod_eq_of_lt hlt, and_high_mask hk hlt]

theorem alignUp_dvd (hk : k ≤ 64) (hx : x + 2 ^ k ≤ 2 ^ 64) :
    2 ^ k ∣ alignUp x (2 ^ k) := by
  rw [alignUp_eq hk hx]
  exact Nat.dvd_mul_right _ _

theorem le_alignUp (hk : k ≤ 64) (hx : x + 2 ^ k ≤ 2 ^ 64) :
    x ≤ alignUp x (2 ^ k) := by
  rw [alignUp_eq hk hx]
  have hpos : 0 < 2 ^ k := Nat.two_pow_pos k
  have hdm := Nat.div_add_mod (x + 2 ^ k - 1) (2 ^ k)
  have hmod := Nat.mod_lt (x + 2 ^ k - 1) hpos
  omega

theorem alignUp_lt (hk : k ≤ 64) (hx : x + 2 ^ k ≤ 2 ^ 64) :
    alignUp x (2 ^ k) < x + 2 ^ k := by
  rw [alignUp_eq hk hx]
  have hpos : 0 < 2 ^ k := Nat.two_pow_pos k
  have hdm := Nat.div_add_mod (x + 2 ^ k - 1) (2 ^ k)
  omega

end Mellow.Lib
