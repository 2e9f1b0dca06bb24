import Mathlib.Algebra.BigOperators.Fin
import Mathlib.Algebra.Order.BigOperators.Group.Finset

/-!
# Counting Over a Table of Slots

What a table of fixed size conserves is usually a total over its slots.

## Main definitions

* `tally`: such a total.

## Theorems

* `tally_update`: what a change to one slot does to it, without subtraction.
-/

namespace Mellow.Lib

open Function

variable {n : Nat} {α : Type}

variable (f : α → Nat) (t : Fin n → α)

/-- The total of a weight over all slots. -/
def tally : Nat := ∑ i, f (t i)

/-- Changing one slot moves the total by the change of that slot's weight. -/
theorem tally_update (i : Fin n) (x : α) : tally f (update t i x) + f (t i) = tally f t + f x := by
  have hnew : tally f (update t i x)
      = f x + ∑ j ∈ Finset.univ.erase i, f (t j) := by
    rw [tally, ← Finset.add_sum_erase _ _ (Finset.mem_univ i), update_self]
    congr 1
    refine Finset.sum_congr rfl fun j hj => ?_
    rw [update_of_ne (Finset.ne_of_mem_erase hj)]
  have hold : tally f t = f (t i) + ∑ j ∈ Finset.univ.erase i, f (t j) := by
    rw [tally, ← Finset.add_sum_erase _ _ (Finset.mem_univ i)]
  omega

theorem tally_update_eq (i : Fin n) (x : α) (h : f x = f (t i)) :
    tally f (update t i x) = tally f t := by
  have := tally_update f t i x
  omega

theorem tally_congr {t t' : Fin n → α} (h : ∀ i, f (t i) = f (t' i)) : tally f t = tally f t' :=
  Finset.sum_congr rfl (fun i _ => h i)

theorem le_tally (i : Fin n) : f (t i) ≤ tally f t :=
  Finset.single_le_sum (fun j _ => Nat.zero_le (f (t j))) (Finset.mem_univ i)

theorem tally_eq_zero_iff : tally f t = 0 ↔ ∀ i, f (t i) = 0 := by
  rw [tally, Finset.sum_eq_zero_iff]
  simp only [Finset.mem_univ, forall_const]

/-- Two tests that differ at one index only count one apart. -/
theorem countP_range_succ {f g : Nat → Bool} {n i : Nat} (hi : i < n) (hf : f i = true)
    (hg : g i = false) (hfg : ∀ j, j ≠ i → f j = g j) :
    (List.range n).countP f = (List.range n).countP g + 1 := by
  induction n with
  | zero => omega
  | succ n ih =>
    rw [List.range_succ, List.countP_append, List.countP_append, List.countP_singleton,
      List.countP_singleton]
    by_cases hin : i = n
    · have hrest : (List.range n).countP f = (List.range n).countP g := by
        refine List.countP_congr (fun j hj => ?_)
        have hjn := List.mem_range.mp hj
        rw [hfg j (by omega)]
      subst hin
      rw [hrest, hf, hg, if_pos rfl, if_neg (by decide)]
    · rw [ih (by omega), hfg n (Ne.symm hin)]
      omega

end Mellow.Lib
