import Mathlib.Data.List.GetD
import Mathlib.Data.Nat.NthRoot.Defs
import Mathlib.Data.Nat.Prime.Defs

/-!
# SHA-256

The hash function of FIPS 180-4, for messages of whole bytes. The constants are
not listed but defined as the standard does, as bits of roots of the first
primes.

## Main definitions

* `pad`: the padded message.
* `compress`: one block.
* `hash`: the hash of a message.

## Theorems

* `length_pad`: the padded message is whole blocks.
-/

namespace Mellow.Lib.Sha256

abbrev Byte := BitVec 8
abbrev Word := BitVec 32

section Constants

def primes : List Nat := (List.range 312).filter Nat.Prime

def rootWord (n t : Nat) : Word := BitVec.ofNat 32 (Nat.nthRoot n (primes.getD t 0 * 2 ^ (32 * n)))

end Constants

section Functions

def ch (x y z : Word) : Word := (x &&& y) ^^^ (~~~x &&& z)
def maj (x y z : Word) : Word := (x &&& y) ^^^ (x &&& z) ^^^ (y &&& z)
def bigSigma0 (x : Word) : Word := x.rotateRight 2 ^^^ x.rotateRight 13 ^^^ x.rotateRight 22
def bigSigma1 (x : Word) : Word := x.rotateRight 6 ^^^ x.rotateRight 11 ^^^ x.rotateRight 25
def smallSigma0 (x : Word) : Word := x.rotateRight 7 ^^^ x.rotateRight 18 ^^^ x >>> 3
def smallSigma1 (x : Word) : Word := x.rotateRight 17 ^^^ x.rotateRight 19 ^^^ x >>> 10

end Functions

section Padding

/-- The zero bytes between the bit that ends the message and its length. -/
def zeros (n : Nat) : Nat := (119 - n % 64) % 64

def bigEndian (n : Nat) : List Byte :=
  (List.range 8).map fun i => BitVec.ofNat 8 (n >>> (8 * (7 - i)))

def pad (m : List Byte) : List Byte :=
  m ++ 0x80#8 :: (List.replicate (zeros m.length) 0#8 ++ bigEndian (8 * m.length))

theorem length_pad (m : List Byte) : (pad m).length = m.length + 1 + zeros m.length + 8 := by
  unfold pad bigEndian
  simp only [List.length_append, List.length_cons, List.length_replicate, List.length_map,
    List.length_range]
  omega

theorem pad_getD (m : List Byte) (i : Nat) (hi : i < (pad m).length) :
    (pad m).getD i 0 = if i < m.length then m.getD i 0 else if i = m.length then 0x80#8
      else if (pad m).length - 8 ≤ i then
        BitVec.ofNat 8 ((8 * m.length) >>> (8 * ((pad m).length - 1 - i)))
      else 0#8 := by
  rw [length_pad] at hi ⊢
  unfold pad
  by_cases hm : i < m.length
  · rw [if_pos hm, List.getD_append _ _ _ _ hm]
  rw [if_neg hm, List.getD_append_right _ _ _ _ (Nat.le_of_not_lt hm)]
  by_cases heq : i = m.length
  · rw [if_pos heq, heq, Nat.sub_self]
    rfl
  rw [if_neg heq, show i - m.length = i - m.length - 1 + 1 by omega, List.getD_cons_succ]
  by_cases hlast : m.length + 1 + zeros m.length + 8 - 8 ≤ i
  · rw [if_pos hlast, List.getD_append_right _ _ _ _ (by rw [List.length_replicate]; omega),
      List.length_replicate]
    unfold bigEndian
    rw [List.getD_eq_getElem _ _ (by rw [List.length_map, List.length_range]; omega),
      List.getElem_map, List.getElem_range, show 7 - (i - m.length - 1 - zeros m.length) =
        m.length + 1 + zeros m.length + 8 - 1 - i by omega]
  · rw [if_neg hlast, List.getD_append _ _ _ _ (by rw [List.length_replicate]; omega),
      List.getD_replicate _ (by omega)]

end Padding

section Hash

def word (b : Nat → Byte) (p : Nat) : Word :=
  (b p).setWidth 32 <<< 24 ||| (b (p + 1)).setWidth 32 <<< 16 ||| (b (p + 2)).setWidth 32 <<< 8 |||
    (b (p + 3)).setWidth 32

def schedule (m : Nat → Word) (t : Nat) : Word :=
  if t < 16 then m t
  else smallSigma1 (schedule m (t - 2)) + schedule m (t - 7) + smallSigma0 (schedule m (t - 15)) +
    schedule m (t - 16)
termination_by t
decreasing_by all_goals omega

/-- Eight words: the hash value, and the working variables. -/
@[ext]
structure Vars where
  a : Word
  b : Word
  c : Word
  d : Word
  e : Word
  f : Word
  g : Word
  h : Word
deriving DecidableEq

def round (w : Nat → Word) (x : Vars) (t : Nat) : Vars :=
  let t1 := x.h + bigSigma1 x.e + ch x.e x.f x.g + rootWord 3 t + w t
  let t2 := bigSigma0 x.a + maj x.a x.b x.c
  ⟨t1 + t2, x.a, x.b, x.c, x.d + t1, x.e, x.f, x.g⟩

theorem round_congr {w w' : Nat → Word} (x : Vars) {t : Nat} (h : w t = w' t) :
    round w x t = round w' x t := by
  unfold round
  rw [h]

def Vars.add (x y : Vars) : Vars :=
  ⟨x.a + y.a, x.b + y.b, x.c + y.c, x.d + y.d, x.e + y.e, x.f + y.f, x.g + y.g, x.h + y.h⟩

def compress (x : Vars) (m : Nat → Word) : Vars :=
  x.add ((List.range 64).foldl (round (schedule m)) x)

def initial : Vars :=
  ⟨rootWord 2 0, rootWord 2 1, rootWord 2 2, rootWord 2 3, rootWord 2 4, rootWord 2 5, rootWord 2 6,
    rootWord 2 7⟩

def hash (m : List Byte) : Vars :=
  (List.range ((pad m).length / 64)).foldl
    (fun x i => compress x fun t => word (fun p => (pad m).getD p 0) (64 * i + 4 * t)) initial

end Hash

end Mellow.Lib.Sha256
