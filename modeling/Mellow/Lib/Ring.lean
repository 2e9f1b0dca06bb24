import Mathlib.Data.Nat.ModEq
import Mellow.Lib.Slice

/-!
# Blocks in a Ring

A ring buffer of blocks of different lengths. No block continues at the start of
the buffer, so a producer without room before the end fills the end up with
one-word blocks first. The producer stands at distance `total` from the
consumer.

## Main definitions

* `Laid`: blocks that stand one after the other.
* `Occupied`: the places they take.
* `distance`: from the consumer to the producer.

## Theorems

* `laid_update`: writing a free word changes no block.
* `laid_append`: moving over the words of a block appends it.
* `not_occupied_ahead`: what is ahead of the producer is free.
-/

namespace Mellow.Lib

section Walk

variable {α : Type}

/-- The `k` words a consumer reads from index `p` on, in a ring of `n` words. -/
def around (words : Nat → α) (n p k : Nat) : List α :=
  (List.range k).map fun i => words ((p + i) % n)

theorem around_eq_slice {words : Nat → α} {n p k : Nat} (h : p + k ≤ n) :
    around words n p k = slice words p k := by
  refine List.map_congr_left fun i hi => ?_
  have := List.mem_range.mp hi
  rw [Nat.mod_eq_of_lt (by omega)]

theorem around_add (words : Nat → α) (n p j k : Nat) :
    around words n p (j + k) = around words n p j ++ around words n ((p + j) % n) k := by
  unfold around
  rw [List.range_add, List.map_append, List.map_map]
  refine congrArg _ (List.map_congr_left (fun i _ => ?_))
  rw [Function.comp_apply, Nat.mod_add_mod, Nat.add_assoc]

end Walk

section Blocks

variable {α : Type} {words : Nat → α} {n p : Nat} {len : Nat}

def total (blocks : List (List α)) : Nat := (blocks.map List.length).sum

theorem total_cons (b : List α) (blocks : List (List α)) :
    total (b :: blocks) = b.length + total blocks := by
  rw [total, List.map_cons, List.sum_cons, total]

theorem total_append (blocks more : List (List α)) :
    total (blocks ++ more) = total blocks + total more := by
  unfold total
  rw [List.map_append, List.sum_append]

theorem total_replicate (k : Nat) (b : List α) : total (List.replicate k b) = k * b.length := by
  unfold total
  rw [List.map_replicate, List.sum_replicate_nat]

/-- The blocks stand one after the other from `p` on, each in one piece. -/
def Laid (words : Nat → α) (n : Nat) : Nat → List (List α) → Prop
  | _, [] => True
  | p, b :: rest =>
    p + b.length ≤ n ∧ slice words p b.length = b ∧ Laid words n ((p + b.length) % n) rest

/-- The index is among the `len` words from `p` on, around the end. -/
def Occupied (n p len i : Nat) : Prop := ∃ k < len, i = (p + k) % n

/-- The words from `p` to `q`, going forward. -/
def distance (n p q : Nat) : Nat := (q + n - p) % n

theorem occupied_tail {i : Nat} {b : List α}
    (h : Occupied n ((p + b.length) % n) len i) : Occupied n p (b.length + len) i := by
  rcases h with ⟨k, hk, rfl⟩
  refine ⟨b.length + k, by omega, ?_⟩
  rw [Nat.mod_add_mod, Nat.add_assoc]

theorem laid_update (v : α) {i : Nat} : ∀ (blocks : List (List α)) (p : Nat),
    ¬ Occupied n p (total blocks) i → Laid words n p blocks →
      Laid (Function.update words i v) n p blocks := by
  intro blocks
  induction blocks with
  | nil => exact fun p _ h => h
  | cons b rest ih =>
    intro p hfree hlaid
    rw [total_cons] at hfree
    rcases hlaid with ⟨hfit, hwords, hrest⟩
    refine ⟨hfit, ?_, ih _ (fun h => hfree (occupied_tail h)) hrest⟩
    -- Inside the block the index would be occupied.
    have hout : i < p ∨ p + b.length ≤ i := by
      by_contra hin
      refine hfree ⟨i - p, by omega, ?_⟩
      rw [Nat.mod_eq_of_lt (by omega)]
      omega
    rw [slice_update words v hout]
    exact hwords

theorem laid_append {more : List (List α)} : ∀ (blocks : List (List α)) (p : Nat), p < n →
    Laid words n p blocks → Laid words n ((p + total blocks) % n) more →
    Laid words n p (blocks ++ more) := by
  intro blocks
  induction blocks with
  | nil =>
    intro p hp _ hmore
    have hplace : (p + total ([] : List (List α))) % n = p := Nat.mod_eq_of_lt hp
    rw [hplace] at hmore
    exact hmore
  | cons b rest ih =>
    intro p hp hlaid hmore
    rcases hlaid with ⟨hfit, hwords, hrest⟩
    have hplace : (p + total (b :: rest)) % n = ((p + b.length) % n + total rest) % n := by
      rw [total_cons, Nat.mod_add_mod, Nat.add_assoc]
    rw [hplace] at hmore
    exact ⟨hfit, hwords, ih _ (Nat.mod_lt _ (by omega)) hrest hmore⟩

/-- Equal words are as many blocks of one word each. -/
theorem laid_replicate {v : α} : ∀ (k p : Nat), p + k ≤ n →
    slice words p k = List.replicate k v → Laid words n (p % n) (List.replicate k [v]) := by
  intro k
  induction k with
  | zero => exact fun _ _ _ => trivial
  | succ k ih =>
    intro p hfit hwords
    rw [slice_succ, List.replicate_succ] at hwords
    rcases List.cons_eq_cons.mp hwords with ⟨hfirst, hrest⟩
    rw [Nat.mod_eq_of_lt (by omega), List.replicate_succ]
    refine ⟨by rw [List.length_singleton]; omega, ?_, ih (p + 1) (by omega) hrest⟩
    exact congrArg (fun w => [w]) hfirst

theorem add_mod_inj {j k : Nat} (hj : j < n) (hk : k < n) (h : (p + j) % n = (p + k) % n) :
    j = k :=
  Nat.ModEq.eq_of_lt_of_lt (Nat.ModEq.add_left_cancel' p h) hj hk

/-- Behind `len` words there is room for as many as are missing to a full
    round. -/
theorem not_occupied_ahead {k : Nat} (h : len + k < n) (hin : (p + len) % n + k < n) :
    ¬ Occupied n p len ((p + len) % n + k) := by
  rintro ⟨j, hj, heq⟩
  have hsame : (p + (len + k)) % n = (p + j) % n := by
    rw [← heq, ← Nat.mod_eq_of_lt hin, Nat.mod_add_mod, Nat.add_assoc]
  have := add_mod_inj (by omega) (by omega) hsame
  omega

/-- The distance to the end of the blocks is what they take up. -/
theorem distance_eq (hp : p < n) (hlen : len < n) :
    distance n p ((p + len) % n) = len := by
  unfold distance
  by_cases hwrap : p + len < n
  · rw [Nat.mod_eq_of_lt hwrap]
    have : p + len + n - p = len + n := by omega
    rw [this, Nat.add_mod_right, Nat.mod_eq_of_lt hlen]
  · have hmod : (p + len) % n = p + len - n := by
      rw [Nat.mod_eq_sub_mod (by omega), Nat.mod_eq_of_lt (by omega)]
    rw [hmod]
    have : p + len - n + n - p = len := by omega
    rw [this, Nat.mod_eq_of_lt hlen]

theorem ends_meet (hp : p < n) (hlen : len < n) (h : (p + len) % n = p) :
    len = 0 := by
  have hd := distance_eq hp hlen
  rw [h] at hd
  unfold distance at hd
  have : p + n - p = n := by omega
  rw [this, Nat.mod_self] at hd
  exact hd.symm

end Blocks

end Mellow.Lib
