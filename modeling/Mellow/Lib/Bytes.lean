import Mathlib.Tactic.Ring
import Mellow.Lib.Slice

/-!
# Little-Endian Numbers

Numbers as lists of bytes, the lowest byte first. Numbers below the bound and
lists of that length are the same thing.

## Main definitions

* `ofBytes`: the number of a list of bytes.
* `toBytes`: so many bytes of a number.

## Theorems

* `ofBytes_toBytes`: a number is recovered as far as its bytes reach.
* `toBytes_ofBytes`: a list of bytes is recovered from its number.
* `or_shift`: shifts and ors are sums.
-/

namespace Mellow.Lib

def ofBytes : List UInt8 → Nat
  | [] => 0
  | b :: bs => b.toNat + 256 * ofBytes bs

def toBytes : Nat → Nat → List UInt8
  | 0, _ => []
  | k + 1, v => UInt8.ofNat v :: toBytes k (v / 256)

theorem toBytes_length (k : Nat) : ∀ v, (toBytes k v).length = k := by
  induction k with
  | zero => exact fun _ => rfl
  | succ k ih =>
    intro v
    rw [toBytes, List.length_cons, ih]

theorem toBytes_eq_map (k : Nat) : ∀ v,
    toBytes k v = (List.range k).map fun i => UInt8.ofNat (v >>> (i * 8)) := by
  induction k with
  | zero => exact fun _ => rfl
  | succ k ih =>
    intro v
    rw [toBytes, ih, List.range_succ_eq_map, List.map_cons, List.map_map]
    refine congrArg₂ List.cons (by rw [Nat.zero_mul, Nat.shiftRight_zero]) ?_
    refine List.map_congr_left fun i _ => congrArg UInt8.ofNat ?_
    have hpow : 2 ^ ((i + 1) * 8) = 256 * 2 ^ (i * 8) := by ring
    rw [Nat.shiftRight_eq_div_pow, Nat.shiftRight_eq_div_pow, Nat.div_div_eq_div_mul, hpow]

theorem ofBytes_lt (bs : List UInt8) : ofBytes bs < 256 ^ bs.length := by
  induction bs with
  | nil => exact Nat.one_pos
  | cons b bs ih =>
    have hb := b.toNat_lt
    rw [ofBytes, List.length_cons, Nat.pow_succ]
    omega

theorem ofBytes_toBytes (k : Nat) : ∀ v, ofBytes (toBytes k v) = v % 256 ^ k := by
  induction k with
  | zero =>
    intro v
    rw [toBytes, ofBytes, Nat.pow_zero, Nat.mod_one]
  | succ k ih =>
    intro v
    have hpow : 256 ^ (k + 1) = 256 * 256 ^ k := by ring
    rw [toBytes, ofBytes, ih, UInt8.toNat_ofNat', hpow, Nat.mod_mul]

theorem toBytes_ofBytes (bs : List UInt8) : toBytes bs.length (ofBytes bs) = bs := by
  induction bs with
  | nil => rfl
  | cons b bs ih =>
    have hb := b.toNat_lt
    have hlow : UInt8.ofNat (ofBytes (b :: bs)) = b := by simp [ofBytes]
    have hhigh : ofBytes (b :: bs) / 256 = ofBytes bs := by
      rw [ofBytes]
      omega
    rw [List.length_cons, toBytes, hlow, hhigh, ih]

theorem or_shift {a i : Nat} (b : Nat) (h : a < 2 ^ i) : a ||| b <<< i = a + b * 2 ^ i := by
  rw [Nat.or_comm, ← Nat.shiftLeft_add_eq_or_of_lt h, Nat.shiftLeft_eq, Nat.add_comm]

theorem join_halves {x : Nat} (h : x < 2 ^ 64) :
    ((x >>> 32) % 2 ^ 32) <<< 32 ||| x % 2 ^ 32 = x := by
  rw [Nat.or_comm, or_shift _ (Nat.mod_lt _ (by omega)), Nat.shiftRight_eq_div_pow]
  omega

section Words

variable {k : Nat}

theorem flatMap_toBytes_inj : ∀ {us vs : List Nat}, (∀ u ∈ us, u < 256 ^ k) →
    (∀ v ∈ vs, v < 256 ^ k) → us.length = vs.length →
    us.flatMap (toBytes k) = vs.flatMap (toBytes k) → us = vs := by
  intro us
  induction us with
  | nil =>
    intro vs _ _ hlen _
    exact (List.length_eq_zero_iff.mp hlen.symm).symm
  | cons u us ih =>
    intro vs hu hv hlen heq
    cases vs with
    | nil => cases hlen
    | cons v vs =>
      rw [List.flatMap_cons, List.flatMap_cons] at heq
      rcases List.append_inj heq (by rw [toBytes_length, toBytes_length]) with ⟨hhead, hrest⟩
      have hnum := congrArg ofBytes hhead
      rw [ofBytes_toBytes, ofBytes_toBytes, Nat.mod_eq_of_lt (hu u List.mem_cons_self),
        Nat.mod_eq_of_lt (hv v List.mem_cons_self)] at hnum
      rw [hnum, ih (fun u h => hu u (List.mem_cons_of_mem _ h))
        (fun v h => hv v (List.mem_cons_of_mem _ h)) (Nat.succ.inj hlen) hrest]

theorem flatMap_toBytes_length (us : List Nat) :
    (us.flatMap (toBytes k)).length = us.length * k := by
  induction us with
  | nil => exact (Nat.zero_mul k).symm
  | cons u us ih =>
    rw [List.flatMap_cons, List.length_append, toBytes_length, ih, List.length_cons, Nat.succ_mul,
      Nat.add_comm]

end Words

end Mellow.Lib
