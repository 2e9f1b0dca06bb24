import Mathlib.Logic.Function.Basic

/-!
# Runs of Words

A memory is a function from indices to words.

## Main definitions

* `slice`: reading words one after the other.
* `write`: writing them.

## Theorems

* `slice_write`: what is written reads back.
* `write_outside`: everything else stays.
-/

namespace Mellow.Lib

open Function

variable {α : Type}

variable (words : Nat → α)

def slice (p k : Nat) : List α := (List.range k).map fun i => words (p + i)

theorem slice_length (p k : Nat) : (slice words p k).length = k := by
  rw [slice, List.length_map, List.length_range]

theorem slice_succ (p k : Nat) : slice words p (k + 1) = words p :: slice words (p + 1) k := by
  unfold slice
  rw [List.range_succ_eq_map, List.map_cons, List.map_map]
  congr 1
  refine List.map_congr_left fun i _ => ?_
  rw [Function.comp_apply, Nat.add_assoc, Nat.add_comm 1 i]

theorem slice_concat (p k : Nat) : slice words p (k + 1) = slice words p k ++ [words (p + k)] := by
  unfold slice
  rw [List.range_succ, List.map_append, List.map_singleton]

theorem slice_update {p k i : Nat} (v : α) (h : i < p ∨ p + k ≤ i) :
    slice (update words i v) p k = slice words p k := by
  refine List.map_congr_left fun j hj => ?_
  have hjk := List.mem_range.mp hj
  rw [update_of_ne (by omega)]

theorem slice_add (p j k : Nat) :
    slice words p (j + k) = slice words p j ++ slice words (p + j) k := by
  unfold slice
  rw [List.range_add, List.map_append, List.map_map]
  refine congrArg _ (List.map_congr_left (fun i _ => ?_))
  rw [Function.comp_apply, Nat.add_assoc]

theorem slice_congr {words words' : Nat → α} {p k : Nat}
    (h : ∀ i, p ≤ i → i < p + k → words i = words' i) : slice words p k = slice words' p k := by
  refine List.map_congr_left fun i hi => ?_
  exact h _ (by omega) (Nat.add_lt_add_left (List.mem_range.mp hi) p)

def write (words : Nat → α) (p : Nat) : List α → Nat → α
  | [] => words
  | v :: vs => write (update words p v) (p + 1) vs

theorem write_outside (vs : List α) : ∀ (words : Nat → α) (p : Nat) {i : Nat},
    i < p ∨ p + vs.length ≤ i → write words p vs i = words i := by
  induction vs with
  | nil => exact fun _ _ _ _ => rfl
  | cons v vs ih =>
    intro words p i h
    rw [List.length_cons] at h
    rw [write, ih _ _ (by omega), update_of_ne (by omega)]

theorem slice_write (vs : List α) : ∀ (words : Nat → α) (p : Nat),
    slice (write words p vs) p vs.length = vs := by
  induction vs with
  | nil => exact fun _ _ => rfl
  | cons v vs ih =>
    intro words p
    rw [List.length_cons, slice_succ, write, ih, write_outside vs _ _ (by omega),
      update_self]

theorem write_append (vs : List α) : ∀ (words : Nat → α) (p : Nat) (us : List α),
    write words p (vs ++ us) = write (write words p vs) (p + vs.length) us := by
  induction vs with
  | nil => exact fun _ _ _ => rfl
  | cons v vs ih =>
    intro words p us
    have hlen : p + (v :: vs).length = p + 1 + vs.length := by rw [List.length_cons]; omega
    rw [List.cons_append, write, ih, write, hlen]

theorem slice_write_append (p : Nat) (vs us : List α) :
    slice (write words p (vs ++ us)) p vs.length = vs := by
  rw [write_append]
  refine Eq.trans (slice_congr fun i _ hi => ?_) (slice_write vs words p)
  exact write_outside _ _ _ (Or.inl hi)

end Mellow.Lib
