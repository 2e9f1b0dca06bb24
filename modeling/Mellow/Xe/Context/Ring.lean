import Mellow.Lib.Bits
import Mellow.Lib.Ring

/-!
# Appending to a Context Ring

`appendRing` puts commands behind the tail of a context's ring. Equal head and
tail mean an empty ring, so eight bytes stay unused. A sequence never goes
around the end: where it would, the words up to the end become no-ops. An odd
sequence gets one no-op more.

The ring and the commands are named by the addresses `rp` and `cp`. An append
that could read what it writes is refused, so a list stands for the commands.

## Main definitions

* `appendRing`: the append.
* `Sane`: arguments that are not refused.
* `room`: how much is free.

## Theorems

* `appendRing_exact`: when it succeeds, and what it leaves.
-/

namespace Mellow.XeContext

open Lib

inductive Error
  | none | invalid | capacity | unsupported | unavailable
deriving DecidableEq, Repr

def pageBytes : Nat := 4096

def ringSize (v : Nat) : Bool :=
  decide (v ≥ pageBytes) && decide (v ≤ 2 * 1024 * 1024) && decide (v &&& (v - 1) = 0)

/-- Two byte ranges share a byte. The ends are 64-bit sums. -/
def intersects (a n b m : Nat) : Bool :=
  decide (a < (b + m) % 2 ^ 64) && decide (b < (a + n) % 2 ^ 64)

/-- The bytes of the commands, filled up to a multiple of eight. -/
def padded (count : Nat) : Nat := (count * 4 + 7) &&& (2 ^ 64 - 8)

/-- The bytes up to the end of the ring, when the commands do not fit there. -/
def skip (bytes tail count : Nat) : Nat :=
  if padded count > bytes - tail then bytes - tail else 0

/-- The bytes an append may use. -/
def free (bytes head tail : Nat) : Nat := (head + bytes - tail - 8) % bytes

def malformed (rp bytes head tail cp count : Nat) : Bool :=
  decide (rp = 0) || decide (cp = 0) || !ringSize bytes || decide (count = 0) ||
    decide (count > (bytes - 8) / 4) || decide (rp &&& 3 ≠ 0) || decide (cp &&& 3 ≠ 0) ||
    decide (head ≥ bytes) || decide (tail ≥ bytes) || decide (head &&& 7 ≠ 0) ||
    decide (tail &&& 7 ≠ 0)

def misplaced (rp bytes cp count : Nat) : Bool :=
  decide (rp > 2 ^ 64 - 1 - bytes) || decide (cp > 2 ^ 64 - 1 - count * 4) ||
    intersects rp bytes cp (count * 4)

structure Appended where
  error : Error
  ring : Nat → Nat
  nextTail : Nat

def appendRing (rp : Nat) (ring : Nat → Nat) (bytes head tail cp : Nat) (commands : List Nat)
    (nextTail : Nat) : Appended :=
  let count := commands.length
  if malformed rp bytes head tail cp count then ⟨.invalid, ring, nextTail⟩
  else if misplaced rp bytes cp count then ⟨.invalid, ring, nextTail⟩
  else if padded count + skip bytes tail count > free bytes head tail then
    ⟨.capacity, ring, nextTail⟩
  else
    let start := if skip bytes tail count ≠ 0 then 0 else tail
    let ring :=
      if skip bytes tail count ≠ 0 then
        write ring (tail / 4) (List.replicate (bytes / 4 - tail / 4) 0)
      else ring
    let ring := write ring (start / 4) commands
    let ring :=
      if padded count ≠ count * 4 then Function.update ring (start / 4 + count) 0 else ring
    ⟨.none, ring, (start + padded count) % bytes % 2 ^ 32⟩

/-- What the arguments of an append have to be. -/
structure Sane (rp bytes head tail cp count : Nat) : Prop where
  size : pageBytes ≤ bytes ∧ bytes ≤ 2 * 1024 * 1024 ∧ ∃ k, bytes = 2 ^ k
  some : 0 < count
  fits : count * 4 + 8 ≤ bytes
  head_in : head < bytes
  tail_in : tail < bytes
  head_mod : head % 8 = 0
  tail_mod : tail % 8 = 0
  ring : rp ≠ 0 ∧ rp % 4 = 0 ∧ rp + bytes < 2 ^ 64
  commands : cp ≠ 0 ∧ cp % 4 = 0 ∧ cp + count * 4 < 2 ^ 64
  apart : cp + count * 4 ≤ rp ∨ rp + bytes ≤ cp

/-- The bytes from the tail up to the head. All of an empty ring is free. -/
def room (bytes head tail : Nat) : Nat :=
  if head = tail then bytes else distance bytes tail head

section Arguments

variable {rp bytes head tail cp count : Nat}

theorem ringSize_iff :
    ringSize bytes = true ↔
      pageBytes ≤ bytes ∧ bytes ≤ 2 * 1024 * 1024 ∧ ∃ k, bytes = 2 ^ k := by
  unfold ringSize
  rw [Bool.and_eq_true, Bool.and_eq_true, decide_eq_true_eq, decide_eq_true_eq,
    decide_eq_true_eq, and_assoc]
  refine and_congr_right (fun hlo => and_congr_right (fun _ => ?_))
  have hne : bytes ≠ 0 := by unfold pageBytes at hlo; omega
  exact Nat.and_sub_one_eq_zero_iff_isPowerOfTwo hne

theorem and_three (x : Nat) : x &&& 3 = x % 4 := Nat.and_two_pow_sub_one_eq_mod x 2

theorem and_seven (x : Nat) : x &&& 7 = x % 8 := Nat.and_two_pow_sub_one_eq_mod x 3

theorem intersects_eq_false {a n b m : Nat} (ha : a + n < 2 ^ 64) (hb : b + m < 2 ^ 64) :
    intersects a n b m = false ↔ b + m ≤ a ∨ a + n ≤ b := by
  unfold intersects
  rw [Nat.mod_eq_of_lt ha, Nat.mod_eq_of_lt hb, Bool.and_eq_false_iff, decide_eq_false_iff_not,
    decide_eq_false_iff_not, Nat.not_lt, Nat.not_lt]

/-- The two checks in front let exactly the sane arguments pass. -/
theorem sane_iff :
    malformed rp bytes head tail cp count = false ∧ misplaced rp bytes cp count = false ↔
      Sane rp bytes head tail cp count := by
  unfold malformed misplaced
  simp only [Bool.or_eq_false_iff, Bool.not_eq_false', decide_eq_false_iff_not, and_three,
    and_seven, ringSize_iff, not_not]
  constructor
  · rintro ⟨⟨⟨⟨⟨⟨⟨⟨⟨⟨⟨hrp, hcp⟩, hsize⟩, hsome⟩, hfits⟩, hr⟩, hc⟩, hh⟩, ht⟩, hh8⟩, ht8⟩,
      ⟨hrend, hcend⟩, hapart⟩
    have hlo := hsize.1
    unfold pageBytes at hlo
    have hring : rp + bytes < 2 ^ 64 := by have := hsize.2.1; omega
    have hcommands : cp + count * 4 < 2 ^ 64 := by have := hsize.2.1; omega
    exact ⟨hsize, by omega, by omega, by omega, by omega, hh8, ht8, ⟨hrp, hr, hring⟩,
      ⟨hcp, hc, hcommands⟩, (intersects_eq_false hring hcommands).mp hapart⟩
  · intro h
    have hfits := h.fits
    have hhead := h.head_in
    have htail := h.tail_in
    have hsome := h.some
    have hring := h.ring.2.2
    have hcommands := h.commands.2.2
    exact ⟨⟨⟨⟨⟨⟨⟨⟨⟨⟨⟨h.ring.1, h.commands.1⟩, h.size⟩, by omega⟩, by omega⟩, h.ring.2.1⟩,
      h.commands.2.1⟩, by omega⟩, by omega⟩, h.head_mod⟩, h.tail_mod⟩,
      ⟨by omega, by omega⟩, (intersects_eq_false hring hcommands).mpr h.apart⟩

theorem Sane.bytes_mod (h : Sane rp bytes head tail cp count) : bytes % 8 = 0 := by
  rcases h.size with ⟨hlo, _, k, rfl⟩
  have hk : 12 ≤ k := (Nat.pow_le_pow_iff_right (a := 2) (by omega)).mp hlo
  exact Nat.mod_eq_zero_of_dvd (pow_dvd_pow 2 (by omega : 3 ≤ k))

theorem padded_eq (h : count * 4 + 7 < 2 ^ 64) : padded count = 8 * ((count * 4 + 7) / 8) := by
  exact and_high_mask (k := 3) (w := 64) (by omega) h

theorem Sane.padded_eq (h : Sane rp bytes head tail cp count) :
    padded count = 8 * ((count * 4 + 7) / 8) := by
  have hfits := h.fits
  have hhi := h.size.2.1
  exact XeContext.padded_eq (by omega)

theorem room_le (h : Sane rp bytes head tail cp count) : room bytes head tail ≤ bytes := by
  have htail := h.tail_in
  unfold room
  split_ifs
  · exact Nat.le_refl _
  · exact Nat.le_of_lt (Nat.mod_lt _ (by omega))

theorem add_room (h : Sane rp bytes head tail cp count) :
    (tail + room bytes head tail) % bytes = head := by
  have hhead := h.head_in
  have htail := h.tail_in
  unfold room distance
  by_cases heq : head = tail
  · rw [if_pos heq, Nat.add_mod_right, ← heq, Nat.mod_eq_of_lt hhead]
  · rw [if_neg heq, Nat.add_mod_mod, Nat.add_sub_cancel' (by omega), Nat.add_mod_right,
      Nat.mod_eq_of_lt hhead]

/-- The free bytes are the room without the gap of eight bytes. -/
theorem free_add_gap (h : Sane rp bytes head tail cp count) :
    free bytes head tail + 8 = room bytes head tail := by
  have hhead := h.head_in
  have htail := h.tail_in
  have hh := h.head_mod
  have ht := h.tail_mod
  have hb := h.bytes_mod
  unfold free room distance
  by_cases heq : head = tail
  · rw [if_pos heq, Nat.mod_eq_of_lt (by omega)]
    omega
  · rw [if_neg heq]
    by_cases hlt : tail < head
    · -- The head is ahead in the same round.
      have hgap : head + bytes - tail - 8 = head - tail - 8 + bytes := by omega
      have hall : head + bytes - tail = head - tail + bytes := by omega
      rw [hgap, hall, Nat.add_mod_right, Nat.add_mod_right, Nat.mod_eq_of_lt (by omega),
        Nat.mod_eq_of_lt (by omega)]
      omega
    · rw [Nat.mod_eq_of_lt (by omega), Nat.mod_eq_of_lt (by omega)]
      omega

end Arguments

/-- The no-op that fills an odd sequence up. -/
def filler (count : Nat) : List Nat := if padded count ≠ count * 4 then [0] else []

def startWord (bytes tail count : Nat) : Nat :=
  if skip bytes tail count ≠ 0 then 0 else tail / 4

def cleared (ring : Nat → Nat) (bytes tail count : Nat) : Nat → Nat :=
  write ring (tail / 4) (List.replicate (skip bytes tail count / 4) 0)

theorem filler_eq (count : Nat) : List.replicate (filler count).length 0 = filler count := by
  unfold filler
  split_ifs <;> rfl

section Outcomes

variable {rp bytes head tail cp nextTail : Nat} {ring : Nat → Nat} {commands : List Nat}

theorem appendRing_insane (h : ¬ Sane rp bytes head tail cp commands.length) :
    appendRing rp ring bytes head tail cp commands nextTail = ⟨.invalid, ring, nextTail⟩ := by
  rw [← sane_iff, not_and_or, Bool.not_eq_false, Bool.not_eq_false] at h
  unfold appendRing
  rcases h with h | h
  · simp only [h, if_true]
  · simp only [h, if_true, ite_self]

theorem appendRing_full (h : Sane rp bytes head tail cp commands.length)
    (hfull : ¬ padded commands.length + skip bytes tail commands.length ≤
      free bytes head tail) :
    appendRing rp ring bytes head tail cp commands nextTail = ⟨.capacity, ring, nextTail⟩ := by
  rcases sane_iff.mpr h with ⟨hmalformed, hmisplaced⟩
  unfold appendRing
  simp only [hmalformed, hmisplaced, Bool.false_eq_true, if_false, Nat.not_le.mp hfull, if_true]

end Outcomes

section Success

variable {rp bytes head tail cp nextTail : Nat} {ring : Nat → Nat} {commands : List Nat}
  (h : Sane rp bytes head tail cp commands.length)

include h

theorem filled_length :
    (commands ++ filler commands.length).length * 4 = padded commands.length := by
  have hp := h.padded_eq
  unfold filler
  rw [List.length_append]
  by_cases hodd : padded commands.length = commands.length * 4
  · rw [if_neg (not_not.mpr hodd), List.length_nil]
    omega
  · rw [if_pos hodd, List.length_singleton]
    omega

/-- The sequence stands behind the tail, or at the front. -/
theorem skip_cases :
    (skip bytes tail commands.length = 0 ∧ tail + padded commands.length ≤ bytes) ∨
      (skip bytes tail commands.length = bytes - tail ∧ 0 < bytes - tail) := by
  have htail := h.tail_in
  unfold skip
  by_cases hlong : padded commands.length > bytes - tail
  · simp [*]
  · rw [if_neg hlong]
    exact Or.inl ⟨rfl, by omega⟩

theorem appendRing_none
    (hfit : padded commands.length + skip bytes tail commands.length ≤ free bytes head tail) :
    appendRing rp ring bytes head tail cp commands nextTail =
      ⟨.none, write (cleared ring bytes tail commands.length)
          (startWord bytes tail commands.length) (commands ++ filler commands.length),
        (tail + (skip bytes tail commands.length + padded commands.length)) % bytes⟩ := by
  rcases sane_iff.mpr h with ⟨hmalformed, hmisplaced⟩
  have hhi := h.size.2.1
  have hb := h.bytes_mod
  have ht := h.tail_mod
  have htail := h.tail_in
  have hpos : 0 < bytes := by omega
  -- The cast of `nextTail` to 32 bits loses nothing.
  have hcast : ∀ x, x % bytes % 2 ^ 32 = x % bytes := fun x =>
    Nat.mod_eq_of_lt (Nat.lt_of_lt_of_le (Nat.mod_lt x hpos) (by omega))
  have hfiller : ∀ (r : Nat → Nat) (p : Nat),
      (if padded commands.length ≠ commands.length * 4 then
        Function.update (write r p commands) (p + commands.length) 0 else write r p commands) =
        write r p (commands ++ filler commands.length) := by
    intro r p
    rw [write_append, filler]
    split_ifs <;> rfl
  unfold appendRing
  simp only [hmalformed, hmisplaced, Bool.false_eq_true, if_false, Nat.not_lt.mpr hfit, hcast,
    hfiller]
  unfold cleared startWord
  rcases skip_cases h with ⟨hskip, _⟩ | ⟨hskip, hsome⟩
  · simp [hskip, ne_eq, not_true_eq_false, Nat.zero_div, List.replicate_zero, write]
  · have hne : skip bytes tail commands.length ≠ 0 := by omega
    have hround : tail + (bytes - tail + padded commands.length) =
        padded commands.length + bytes := by omega
    have hwords : (bytes - tail) / 4 = bytes / 4 - tail / 4 := by omega
    simp only [if_pos hne]
    rw [hskip, hround, Nat.add_mod_right, Nat.zero_add, Nat.zero_div, hwords]

variable (hfit : padded commands.length + skip bytes tail commands.length ≤ free bytes head tail)

include hfit

/-- Where the sequence starts and ends. -/
theorem start_spec :
    startWord bytes tail commands.length =
        (tail / 4 + skip bytes tail commands.length / 4) % (bytes / 4) ∧
      tail / 4 + skip bytes tail commands.length / 4 ≤ bytes / 4 ∧
      startWord bytes tail commands.length + (commands ++ filler commands.length).length ≤
        bytes / 4 ∧
      (skip bytes tail commands.length = 0 ∨
        startWord bytes tail commands.length + (commands ++ filler commands.length).length ≤
          tail / 4) := by
  have hb := h.bytes_mod
  have ht := h.tail_mod
  have htail := h.tail_in
  have hlen := filled_length h
  have hgap := free_add_gap h
  have hroom := room_le h
  unfold startWord
  rcases skip_cases h with ⟨hskip, hbehind⟩ | ⟨hskip, hsome⟩
  · rw [hskip, if_neg (not_not.mpr rfl), Nat.zero_div, Nat.add_zero,
      Nat.mod_eq_of_lt (by omega)]
    exact ⟨rfl, by omega, by omega, Or.inl rfl⟩
  · have hne : skip bytes tail commands.length ≠ 0 := by omega
    have hend : tail / 4 + (bytes - tail) / 4 = bytes / 4 := by omega
    rw [if_pos hne, hskip, hend, Nat.mod_self]
    exact ⟨rfl, Nat.le_refl _, by omega, Or.inr (by omega)⟩

/-- An append writes between the tail and the head only. -/
theorem write_free {i : Nat}
    (hi : ¬ Occupied (bytes / 4) (tail / 4) (room bytes head tail / 4) i) :
    write (cleared ring bytes tail commands.length) (startWord bytes tail commands.length)
      (commands ++ filler commands.length) i = ring i := by
  have hb := h.bytes_mod
  have ht := h.tail_mod
  have htail := h.tail_in
  have hlen := filled_length h
  have hgap := free_add_gap h
  rcases start_spec h hfit with ⟨hstart, hend, hin, _⟩
  have hpos : 0 < bytes / 4 := by omega
  have hout : ∀ k, k < room bytes head tail / 4 → i ≠ (tail / 4 + k) % (bytes / 4) :=
    fun k hk heq => hi ⟨k, hk, heq⟩
  -- The index is in neither of the two written runs.
  have hsequence : i < startWord bytes tail commands.length ∨
      startWord bytes tail commands.length + (commands ++ filler commands.length).length ≤ i := by
    by_contra hc
    refine hout (skip bytes tail commands.length / 4 +
      (i - startWord bytes tail commands.length)) (by omega) ?_
    rw [← Nat.add_assoc, ← Nat.mod_add_mod, ← hstart, Nat.mod_eq_of_lt (by omega)]
    omega
  have hskipped : i < tail / 4 ∨
      tail / 4 + (List.replicate (skip bytes tail commands.length / 4) 0).length ≤ i := by
    rw [List.length_replicate]
    by_contra hc
    refine hout (i - tail / 4) (by omega) ?_
    rw [Nat.mod_eq_of_lt (by omega)]
    omega
  rw [write_outside _ _ _ hsequence, cleared, write_outside _ _ _ hskipped]

/-- A consumer reads no-ops, the commands and their filler. -/
theorem around_appended :
    around (write (cleared ring bytes tail commands.length)
        (startWord bytes tail commands.length) (commands ++ filler commands.length))
      (bytes / 4) (tail / 4)
      (skip bytes tail commands.length / 4 + (commands ++ filler commands.length).length) =
    List.replicate (skip bytes tail commands.length / 4) 0 ++
      (commands ++ filler commands.length) := by
  rcases start_spec h hfit with ⟨hstart, hend, hin, hclear⟩
  rw [around_add, ← hstart, around_eq_slice hend, around_eq_slice hin, slice_write]
  congr 1
  rcases hclear with hskip | hclear
  · rw [hskip]
    rfl
  · have hlen := List.length_replicate (n := skip bytes tail commands.length / 4) (a := 0)
    have hsame : slice (write (cleared ring bytes tail commands.length)
          (startWord bytes tail commands.length) (commands ++ filler commands.length))
        (tail / 4) (skip bytes tail commands.length / 4) =
        slice (cleared ring bytes tail commands.length) (tail / 4)
          (skip bytes tail commands.length / 4) :=
      slice_congr (fun i hi _ => write_outside _ _ _ (Or.inr (by omega)))
    rw [hsame]
    have hread := slice_write (List.replicate (skip bytes tail commands.length / 4) 0) ring
      (tail / 4)
    rw [hlen] at hread
    exact hread

/-- The new tail keeps its distance from the head. -/
theorem nextTail_spec :
    let next := (tail + (skip bytes tail commands.length + padded commands.length)) % bytes
    next % 8 = 0 ∧ next < bytes ∧ 8 ≤ distance bytes next head ∧ next ≠ head ∧
      distance (bytes / 4) (tail / 4) (next / 4) =
        skip bytes tail commands.length / 4 + (commands ++ filler commands.length).length := by
  intro next
  have hb := h.bytes_mod
  have ht := h.tail_mod
  have htail := h.tail_in
  have hhead := h.head_in
  have hlen := filled_length h
  have hgap := free_add_gap h
  have hp := h.padded_eq
  have hsome := h.some
  have hskip : skip bytes tail commands.length % 8 = 0 := by
    rcases skip_cases h with ⟨hskip, _⟩ | ⟨hskip, _⟩ <;> omega
  have hlt : next < bytes := Nat.mod_lt _ (by omega)
  have hroom := room_le h
  -- From the new tail the head is as far as the append left.
  have hdistance : distance bytes next head =
      room bytes head tail - (skip bytes tail commands.length + padded commands.length) := by
    have hplace : (next + (room bytes head tail -
        (skip bytes tail commands.length + padded commands.length))) % bytes = head := by
      rw [Nat.mod_add_mod, Nat.add_assoc, Nat.add_sub_cancel' (by omega)]
      exact add_room h
    have hless : room bytes head tail -
        (skip bytes tail commands.length + padded commands.length) < bytes := by omega
    have hd := distance_eq hlt hless
    rw [hplace] at hd
    exact hd
  refine ⟨?_, hlt, by omega, ?_, ?_⟩
  · rw [Nat.mod_mod_of_dvd _ (Nat.dvd_of_mod_eq_zero hb)]
    omega
  · intro heq
    have hzero : distance bytes head head = 0 := by
      unfold distance
      rw [Nat.add_sub_cancel_left, Nat.mod_self]
    rw [heq, hzero] at hdistance
    omega
  · have hwords : next / 4 = (tail / 4 + (skip bytes tail commands.length / 4 +
        (commands ++ filler commands.length).length)) % (bytes / 4) := by
      have hsum : tail + (skip bytes tail commands.length + padded commands.length) =
          4 * (tail / 4 + (skip bytes tail commands.length / 4 +
            (commands ++ filler commands.length).length)) := by omega
      have hbytes : bytes = 4 * (bytes / 4) := by omega
      have hnext : next = 4 * ((tail / 4 + (skip bytes tail commands.length / 4 +
          (commands ++ filler commands.length).length)) % (bytes / 4)) := by
        rw [← Nat.mul_mod_mul_left, ← hbytes, ← hsum]
      omega
    rw [hwords, distance_eq (by omega) (by omega)]

end Success

/-- For all arguments: an append that succeeds changes only words between the
    tail and the head, and a consumer that goes from the tail to the new tail
    reads no-ops, the commands in one piece and at most one no-op; the new tail
    is aligned and stays at least eight bytes before the head. An append that
    fails changes nothing, and it lacks room exactly when the padded commands
    with the skipped bytes exceed the room without the gap. -/
theorem appendRing_exact (rp : Nat) (ring : Nat → Nat) (bytes head tail cp : Nat)
    (commands : List Nat) (nextTail : Nat) :
    let r : Appended := appendRing rp ring bytes head tail cp commands nextTail
    (r.error = .none →
      (∀ i, ¬ Occupied (bytes / 4) (tail / 4) (room bytes head tail / 4) i →
        r.ring i = ring i) ∧
      (∃ lead trail p, trail ≤ 1 ∧
        around r.ring (bytes / 4) (tail / 4)
            (distance (bytes / 4) (tail / 4) (r.nextTail / 4)) =
          List.replicate lead 0 ++ (commands ++ List.replicate trail 0) ∧
        p = (tail / 4 + lead) % (bytes / 4) ∧ p + commands.length ≤ bytes / 4 ∧
        slice r.ring p commands.length = commands) ∧
      r.nextTail % 8 = 0 ∧ r.nextTail < bytes ∧ 8 ≤ distance bytes r.nextTail head ∧
      r.nextTail ≠ head) ∧
    (r.error ≠ .none → r.ring = ring ∧ r.nextTail = nextTail) ∧
    (r.error = .invalid ↔ ¬ Sane rp bytes head tail cp commands.length) ∧
    (r.error = .capacity ↔ Sane rp bytes head tail cp commands.length ∧
      room bytes head tail - 8 < padded commands.length + skip bytes tail commands.length) := by
  intro r
  by_cases hsane : Sane rp bytes head tail cp commands.length
  · have hgap := free_add_gap hsane
    by_cases hfit :
        padded commands.length + skip bytes tail commands.length ≤ free bytes head tail
    · have hr : r = _ := appendRing_none hsane hfit
      rcases nextTail_spec hsane hfit with ⟨hmod, hlt, hbefore, hne, hdistance⟩
      rcases start_spec hsane hfit with ⟨hstart, _, hin, _⟩
      rw [List.length_append] at hin
      rw [hr]
      refine ⟨fun _ => ⟨fun i => write_free hsane hfit, ?_, hmod, hlt, hbefore, hne⟩,
        fun h => absurd rfl h, iff_of_false (by simp) (not_not.mpr hsane),
        iff_of_false (by simp) (fun h => by omega)⟩
      refine ⟨skip bytes tail commands.length / 4, (filler commands.length).length,
        startWord bytes tail commands.length, ?_, ?_, hstart, by omega, ?_⟩
      · unfold filler
        split_ifs <;> simp
      · rw [hdistance, around_appended hsane hfit, filler_eq]
      · exact slice_write_append _ _ _ _
    · have hr : r = ⟨.capacity, ring, nextTail⟩ := appendRing_full hsane hfit
      rw [hr]
      exact ⟨fun h => by simp at h, fun _ => ⟨rfl, rfl⟩,
        iff_of_false (by simp) (not_not.mpr hsane), iff_of_true rfl ⟨hsane, by omega⟩⟩
  · have hr : r = ⟨.invalid, ring, nextTail⟩ := appendRing_insane hsane
    rw [hr]
    exact ⟨fun h => by simp at h, fun _ => ⟨rfl, rfl⟩, iff_of_true rfl hsane,
      iff_of_false (by simp) (fun h => hsane h.1)⟩

end Mellow.XeContext
