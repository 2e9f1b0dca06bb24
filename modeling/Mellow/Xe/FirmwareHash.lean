import Mathlib.Tactic.Ring
import Mellow.Lib.Sha256

/-!
# The Hash of the Firmware

`exactHash` of `Mellow/XeGuCFirmware.cpp` tells whether a file is the one that
the loader was written for. It never builds the padded message: each byte is
made where it is needed. A read outside of the file ends the model with `none`.

## Main definitions

* `byteAt`: a byte of the padded message.
* `exactHash`: the comparison.

## Theorems

* `exactHash_eq`: it compares the hash of the standard.
-/

namespace Mellow.XeGuCFirmware

open Lib

abbrev Byte := Sha256.Byte
abbrev Word := Sha256.Word

section Hash

def rotate (x : Word) (n : Nat) : Word := x >>> n ||| x <<< (32 - n)

def k : List Word :=
  [0x428a2f98, 0x71374491, 0xb5c0fbcf, 0xe9b5dba5, 0x3956c25b, 0x59f111f1, 0x923f82a4, 0xab1c5ed5,
   0xd807aa98, 0x12835b01, 0x243185be, 0x550c7dc3, 0x72be5d74, 0x80deb1fe, 0x9bdc06a7, 0xc19bf174,
   0xe49b69c1, 0xefbe4786, 0x0fc19dc6, 0x240ca1cc, 0x2de92c6f, 0x4a7484aa, 0x5cb0a9dc, 0x76f988da,
   0x983e5152, 0xa831c66d, 0xb00327c8, 0xbf597fc7, 0xc6e00bf3, 0xd5a79147, 0x06ca6351, 0x14292967,
   0x27b70a85, 0x2e1b2138, 0x4d2c6dfc, 0x53380d13, 0x650a7354, 0x766a0abb, 0x81c2c92e, 0x92722c85,
   0xa2bfe8a1, 0xa81a664b, 0xc24b8b70, 0xc76c51a3, 0xd192e819, 0xd6990624, 0xf40e3585, 0x106aa070,
   0x19a4c116, 0x1e376c08, 0x2748774c, 0x34b0bcb5, 0x391c0cb3, 0x4ed8aa4a, 0x5b9cca4f, 0x682e6ff3,
   0x748f82ee, 0x78a5636f, 0x84c87814, 0x8cc70208, 0x90befffa, 0xa4506ceb, 0xbef9a3f7, 0xc67178f2]

def h : Sha256.Vars :=
  ⟨0x6a09e667, 0xbb67ae85, 0x3c6ef372, 0xa54ff53a, 0x510e527f, 0x9b05688c, 0x1f83d9ab, 0x5be0cd19⟩

def expected : Sha256.Vars :=
  ⟨0x7794f0b6, 0xabe5fcd9, 0xc6f47035, 0xdafe2199, 0xf30a6e7d, 0x230bd5a5, 0x3fbf8005, 0xa60e5911⟩

def total (length : Nat) : Nat := (length + 9 + 63) % 2 ^ 64 &&& (2 ^ 64 - 1 - 63)

def byteAt (data : List Byte) (pos : Nat) : Option Byte :=
  if pos < data.length then data[pos]?
  else if pos = data.length then some 0x80#8
  else if pos ≥ total data.length - 8 then
    some (BitVec.ofNat 8 ((data.length * 8 % 2 ^ 64) >>> (8 * (total data.length - 1 - pos))))
  else some 0#8

abbrev Words := Vector Word 64

def Words.get (w : Words) (i : Nat) : Word := w[i]?.getD 0

/-- The first loop over a block, up to a number of bytes. -/
def fill (data : List Byte) (offset : Nat) : Nat → Option Words
  | 0 => some (Vector.replicate 64 0)
  | i + 1 => do
    let w ← fill data offset i
    let byte ← byteAt data (offset + i)
    return w.setIfInBounds (i / 4) (w.get (i / 4) ||| byte.setWidth 32 <<< (24 - 8 * (i % 4)))

/-- One turn of the second loop, in place. -/
def extend (w : Words) (i : Nat) : Words :=
  let x := w.get (i - 15)
  let y := w.get (i - 2)
  w.setIfInBounds i (w.get (i - 16) + (rotate x 7 ^^^ rotate x 18 ^^^ x >>> 3) + w.get (i - 7) +
    (rotate y 17 ^^^ rotate y 19 ^^^ y >>> 10))

/-- One turn of the third loop. The last variable is called `v` in the source. -/
def turn (w : Words) (x : Sha256.Vars) (i : Nat) : Sha256.Vars :=
  let t1 := x.h + (rotate x.e 6 ^^^ rotate x.e 11 ^^^ rotate x.e 25) +
    ((x.e &&& x.f) ^^^ (~~~x.e &&& x.g)) + k.getD i 0 + w.get i
  let t2 := (rotate x.a 2 ^^^ rotate x.a 13 ^^^ rotate x.a 22) +
    ((x.a &&& x.b) ^^^ (x.a &&& x.c) ^^^ (x.b &&& x.c))
  ⟨t1 + t2, x.a, x.b, x.c, x.d + t1, x.e, x.f, x.g⟩

def block (data : List Byte) (x : Sha256.Vars) (offset : Nat) : Option Sha256.Vars := do
  let w ← fill data offset 64
  let w := (List.range' 16 48).foldl extend w
  return x.add ((List.range 64).foldl (turn w) x)

/-- The loop over offsets, which starts at zero and goes on while below `total`. -/
def blocks (data : List Byte) : Option Sha256.Vars :=
  (List.range ((total data.length + 63) / 64)).foldlM (fun x i => block data x (64 * i)) h

def exactHash (data : List Byte) : Option Bool := do
  let x ← blocks data
  let difference := (x.a ^^^ expected.a) ||| (x.b ^^^ expected.b) ||| (x.c ^^^ expected.c) |||
    (x.d ^^^ expected.d) ||| (x.e ^^^ expected.e) ||| (x.f ^^^ expected.f) |||
      (x.g ^^^ expected.g) |||
    (x.h ^^^ expected.h)
  return difference == 0

end Hash

section Words

theorem rotate_eq (x : Word) {n : Nat} (hn : n < 32) : rotate x n = x.rotateRight n :=
  (BitVec.rotateRight_eq_rotateRightAux_of_lt hn).symm

theorem k_eq : k = (List.range 64).map (Sha256.rootWord 3) := by decide +kernel

theorem h_eq : h = Sha256.initial := by
  have hroots : [h.a, h.b, h.c, h.d, h.e, h.f, h.g, h.h] = (List.range 8).map
    (Sha256.rootWord 2) := by
    decide
  simp only [List.range_succ, List.range_zero, List.nil_append, List.cons_append, List.map_cons,
    List.map_nil, List.cons.injEq] at hroots
  exact Sha256.Vars.ext hroots.1 hroots.2.1 hroots.2.2.1 hroots.2.2.2.1 hroots.2.2.2.2.1
    hroots.2.2.2.2.2.1 hroots.2.2.2.2.2.2.1 hroots.2.2.2.2.2.2.2.1

theorem turn_eq (w : Words) (x : Sha256.Vars) {i : Nat} (hi : i < 64) :
    turn w x i = Sha256.round w.get x i := by
  have hk : k.getD i 0 = Sha256.rootWord 3 i := by
    rw [k_eq, List.getD_eq_getElem _ _ (by rw [List.length_map, List.length_range]; exact hi),
      List.getElem_map, List.getElem_range]
  unfold turn
  rw [hk]
  simp only [rotate_eq _ (by decide : 2 < 32), rotate_eq _ (by decide : 6 < 32),
    rotate_eq _ (by decide : 11 < 32), rotate_eq _ (by decide : 13 < 32),
    rotate_eq _ (by decide : 22 < 32), rotate_eq _ (by decide : 25 < 32)]
  rfl

theorem turns_eq {w : Words} {w' : Nat → Word} (hw : ∀ t < 64, w.get t = w' t) (x : Sha256.Vars)
    {l : List Nat} (hl : ∀ i ∈ l, i < 64) : l.foldl (turn w) x = l.foldl (Sha256.round w') x := by
  induction l generalizing x with
  | nil => rw [List.foldl_nil, List.foldl_nil]
  | cons i l ih =>
    have hi := hl i List.mem_cons_self
    have hround : turn w x i = Sha256.round w' x i := by
      simp [turn_eq w x hi, Sha256.round_congr, *]
    rw [List.foldl_cons, hround]
    exact ih _ fun j hj => hl j (List.mem_cons_of_mem i hj)

theorem get_set (w : Words) (v : Word) {i j : Nat} (hi : i < 64) :
    Words.get (w.setIfInBounds i v) j = if j = i then v else w.get j := by
  unfold Words.get
  by_cases hj : j = i
  · simp [*]
  · rw [if_neg hj, Vector.getElem?_setIfInBounds_ne (Ne.symm hj)]

theorem extend_self (w : Words) {i : Nat} (hi : i < 64) : (extend w i).get i = w.get (i - 16) +
    Sha256.smallSigma0 (w.get (i - 15)) + w.get (i - 7) + Sha256.smallSigma1 (w.get (i - 2)) := by
  rw [extend, get_set _ _ hi, if_pos rfl, rotate_eq _ (by decide), rotate_eq _ (by decide),
    rotate_eq _ (by decide), rotate_eq _ (by decide)]
  rfl

theorem extend_schedule {m : Nat → Word} {w : Words} (hw : ∀ t < 16, w.get t = m t) (n : Nat)
    (hn : n ≤ 48) :
    ∀ t < 16 + n, ((List.range' 16 n).foldl extend w).get t = Sha256.schedule m t := by
  induction n with
  | zero =>
    intro t ht
    rw [Sha256.schedule, if_pos ht]
    exact hw t ht
  | succ n ih =>
    intro t ht
    have ih := ih (by omega)
    rw [List.range'_concat, List.foldl_append, List.foldl_cons, List.foldl_nil, Nat.one_mul]
    by_cases hlast : t = 16 + n
    · rw [hlast, extend_self _ (by omega), ih _ (by omega), ih _ (by omega), ih _ (by omega),
        ih _ (by omega)]
      conv_rhs => rw [Sha256.schedule, if_neg (by omega)]
      ac_rfl
    · rw [extend, get_set _ _ (by omega), if_neg hlast]
      exact ih t (by omega)

end Words

section Bytes

variable {data : List Byte}

/-- Rounding up to whole blocks is what the padding comes to. -/
theorem total_eq (hlen : data.length < 2 ^ 61) : total data.length = (Sha256.pad data).length := by
  have hmask : ∀ n, n < 2 ^ 64 → n &&& (2 ^ 64 - 1 - 63) = n / 64 * 64 := by
    intro n hn
    refine Nat.eq_of_testBit_eq fun i => ?_
    rw [Nat.testBit_and, show 2 ^ 64 - 1 - 63 = (2 ^ 58 - 1) * 2 ^ 6 by decide,
      show n / 64 * 64 = n / 2 ^ 6 * 2 ^ 6 by rfl, Nat.testBit_mul_two_pow, Nat.testBit_mul_two_pow,
      Nat.testBit_two_pow_sub_one, Nat.testBit_div_two_pow]
    by_cases hi : 6 ≤ i
    · rw [Nat.sub_add_cancel hi]
      by_cases hbit : i < 64
      · simp only [hi, decide_true, Bool.true_and, show i - 6 < 58 by omega, Bool.and_true]
      · have hbig : n.testBit i = false := Nat.testBit_lt_two_pow
          (Nat.lt_of_lt_of_le hn (Nat.pow_le_pow_right (by decide) (Nat.le_of_not_lt hbit)))
        rw [hbig, Bool.false_and, Bool.and_false]
    · simp [*]
  unfold total
  rw [Nat.mod_eq_of_lt (by omega), hmask _ (by omega), Sha256.length_pad]
  unfold Sha256.zeros
  omega

/-- The byte made for a position is that of the padded message. -/
theorem byteAt_eq (hlen : data.length < 2 ^ 61) {i : Nat} (hi : i < (Sha256.pad data).length) :
    byteAt data i = some ((Sha256.pad data).getD i 0) := by
  unfold byteAt
  rw [Sha256.pad_getD data i hi, total_eq hlen, Nat.mod_eq_of_lt (by omega),
    Nat.mul_comm data.length 8]
  split_ifs with h₁ h₂ h₃
  · simp [*]
  · rfl
  · rfl
  · rfl

def partialWord (b : Nat → Byte) (p : Nat) : Nat → Word
  | 0 => 0
  | n + 1 => partialWord b p n ||| (b (p + n)).setWidth 32 <<< (24 - 8 * n)

theorem fill_eq {b : Nat → Byte} {offset n : Nat} (hn : n ≤ 64)
    (hb : ∀ i < 64, byteAt data (offset + i) = some (b (offset + i))) :
    ∃ w, fill data offset n = some w ∧
      ∀ j < 16, w.get j = partialWord b (offset + 4 * j) (min 4 (n - 4 * j)) := by
  induction n with
  | zero =>
    refine ⟨_, rfl, fun j hj => ?_⟩
    rw [Nat.zero_sub, Nat.min_zero, Words.get, Vector.getElem?_eq_getElem (by omega),
      Vector.getElem_replicate]
    rfl
  | succ n ih =>
    rcases ih (by omega) with ⟨w, hw, hwords⟩
    refine ⟨w.setIfInBounds (n / 4) (w.get (n / 4) |||
      (b (offset + n)).setWidth 32 <<< (24 - 8 * (n % 4))), ?_, fun j hj => ?_⟩
    · rw [fill, hw, hb n (by omega)]
      rfl
    rw [get_set _ _ (by omega)]
    by_cases heq : j = n / 4
    · rw [if_pos heq, heq, hwords _ (by omega),
        show min 4 (n + 1 - 4 * (n / 4)) = n % 4 + 1 by omega,
        show min 4 (n - 4 * (n / 4)) = n % 4 by omega, partialWord,
        show offset + 4 * (n / 4) + n % 4 = offset + n by omega]
    · rw [if_neg heq, hwords j hj,
        show min 4 (n + 1 - 4 * j) = min 4 (n - 4 * j) by omega]

theorem partialWord_four (b : Nat → Byte) (p : Nat) : partialWord b p 4 = Sha256.word b p := by
  simp only [partialWord, Sha256.word, BitVec.zero_or, Nat.add_zero, Nat.mul_zero, Nat.sub_zero,
    Nat.reduceMul, Nat.reduceSub, BitVec.shiftLeft_zero, BitVec.ofNat_eq_ofNat]

end Bytes

section Agreement

variable {data : List Byte}

theorem block_eq (hlen : data.length < 2 ^ 61) (x : Sha256.Vars) {i : Nat}
    (hi : 64 * i + 64 ≤ (Sha256.pad data).length) :
    block data x (64 * i) = some (Sha256.compress x fun t =>
      Sha256.word (fun p => (Sha256.pad data).getD p 0) (64 * i + 4 * t)) := by
  rcases fill_eq (b := fun p => (Sha256.pad data).getD p 0) (Nat.le_refl 64)
    (fun j hj => byteAt_eq hlen
    (Nat.lt_of_lt_of_le (Nat.add_lt_add_left hj (64 * i)) hi)) with ⟨w, hw, hwords⟩
  have hmessage : ∀ t < 16, w.get t = Sha256.word (fun p => (Sha256.pad data).getD p 0)
    (64 * i + 4 * t) := by
    intro t ht
    rw [hwords t ht, show min 4 (64 - 4 * t) = 4 by omega, partialWord_four]
  rw [block, hw]
  change some (x.add _) = _
  rw [turns_eq (extend_schedule hmessage 48 (Nat.le_refl 48)) x fun j hj => List.mem_range.mp hj]
  rfl

theorem blocks_eq (hlen : data.length < 2 ^ 61) : blocks data = some (Sha256.hash data) := by
  have hwhole : (Sha256.pad data).length = 64 * ((Sha256.pad data).length / 64) := by
    rw [Sha256.length_pad]
    unfold Sha256.zeros
    omega
  have hall : ∀ (l : List Nat) (x : Sha256.Vars),
    (∀ i ∈ l, 64 * i + 64 ≤ (Sha256.pad data).length) →
      l.foldlM (fun x i => block data x (64 * i)) x =
        some (l.foldl (fun x i => Sha256.compress x fun t =>
        Sha256.word (fun p => (Sha256.pad data).getD p 0) (64 * i + 4 * t)) x) := by
    intro l
    induction l with
    | nil => exact fun x _ => rfl
    | cons i l ih =>
      intro x hl
      rw [List.foldlM_cons, block_eq hlen x (hl i List.mem_cons_self), List.foldl_cons]
      exact ih _ fun j hj => hl j (List.mem_cons_of_mem i hj)
  unfold blocks Sha256.hash
  rw [total_eq hlen,
    show ((Sha256.pad data).length + 63) / 64 = (Sha256.pad data).length / 64 by omega, h_eq]
  refine hall _ _ fun i hi => ?_
  have := List.mem_range.mp hi
  omega

/-- `exactHash` compares the hash of the standard, and reads nothing outside of
    the file. -/
theorem exactHash_eq (data : List Byte) (hlen : data.length < 2 ^ 61) :
    exactHash data = some (decide (Sha256.hash data = expected)) := by
  rw [exactHash, blocks_eq hlen]
  refine congrArg some (Bool.eq_iff_iff.mpr ?_)
  rw [beq_iff_eq, decide_eq_true_eq]
  change _ = 0#32 ↔ _
  simp only [BitVec.or_eq_zero_iff, BitVec.xor_eq_zero_iff, Sha256.Vars.ext_iff, and_assoc]

theorem exactHash_abc : exactHash [0x61, 0x62, 0x63] =
    some (decide (Sha256.hash [0x61, 0x62, 0x63] = expected)) :=
  exactHash_eq [0x61, 0x62, 0x63] (by decide)

end Agreement

end Mellow.XeGuCFirmware
