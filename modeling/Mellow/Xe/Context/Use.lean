import Mathlib.Data.List.Forall2
import Mellow.Xe.Context.Ring

/-!
# A Ring in Use

The producer appends sequences of commands and the consumer reads in steps of
eight bytes, in any order. What was read and what stands in the ring are one
stream.

## Main definitions

* `Use`: the ring with both ends.
* `Framed`: commands between no-ops.

## Theorems

* `ring_streams`: the stream is the commands of the appends that succeeded.
-/

namespace Mellow.XeContext

open Lib

/-- A ring, the words read from it, and the commands appended. -/
structure Use where
  ring : Nat → Nat
  head : Nat
  tail : Nat
  read : List Nat
  appended : List (List Nat)

inductive Act where
  | append (cp : Nat) (commands : List Nat)
  | read (steps : Nat)

def Use.act (rp bytes : Nat) (u : Use) : Act → Use
  | .append cp commands =>
    let r := appendRing rp u.ring bytes u.head u.tail cp commands u.tail
    { u with
      ring := r.ring, tail := r.nextTail
      appended := if r.error = .none then u.appended ++ [commands] else u.appended }
  | .read steps =>
    let k := min (8 * steps) (distance bytes u.head u.tail)
    { u with
      head := (u.head + k) % bytes
      read := u.read ++ around u.ring (bytes / 4) (u.head / 4) (k / 4) }

/-- Commands among no-ops, of which at most one stands behind them. -/
def Framed (commands words : List Nat) : Prop :=
  ∃ lead trail, trail ≤ 1 ∧ words = List.replicate lead 0 ++ (commands ++ List.replicate trail 0)

/-- In words: the consumer is at `p`, and `len` words stand in front of it. -/
structure Flows (n p len : Nat) (u : Use) : Prop where
  head : u.head = 4 * p
  tail : u.tail = 4 * ((p + len) % n)
  bounds : p < n ∧ len < n
  stream : ∃ pieces, List.Forall₂ Framed u.appended pieces ∧
    u.read ++ around u.ring n p len = pieces.flatten

variable {rp n p len : Nat} {u : Use}

theorem Flows.distance (h : Flows n p len u) : distance (4 * n) u.head u.tail = 4 * len := by
  have hn := h.bounds
  rw [h.head, h.tail, ← Nat.mul_mod_mul_left, Nat.mul_add]
  exact distance_eq (by omega) (by omega)

theorem Flows.read (h : Flows n p len u) (steps : Nat) :
    ∃ p' len', Flows n p' len' (u.act rp (4 * n) (.read steps)) := by
  have hn := h.bounds
  rcases h.stream with ⟨pieces, hframed, hstream⟩
  have hk : min (8 * steps) (Lib.distance (4 * n) u.head u.tail) = 4 * min (2 * steps) len := by
    rw [h.distance]
    omega
  have hle : min (2 * steps) len ≤ len := Nat.min_le_right _ _
  generalize min (2 * steps) len = k at hk hle
  have hact : u.act rp (4 * n) (.read steps) = { u with
      head := (4 * p + 4 * k) % (4 * n), read := u.read ++ around u.ring n p k } := by
    simp only [Use.act, hk]
    rw [h.head]
    simp
  rw [hact]
  refine ⟨(p + k) % n, len - k, ?_, ?_, ⟨Nat.mod_lt _ (by omega), by omega⟩, pieces, hframed, ?_⟩
  · rw [← Nat.mul_add, Nat.mul_mod_mul_left]
  · rw [Nat.mod_add_mod, Nat.add_assoc, Nat.add_sub_cancel' hle]
    exact h.tail
  · rw [← hstream, List.append_assoc, ← around_add, Nat.add_sub_cancel' hle]

theorem Flows.room (h : Flows n p len u) : room (4 * n) u.head u.tail = 4 * (n - len) := by
  have hn := h.bounds
  unfold XeContext.room
  split_ifs with heq
  · rw [h.head, h.tail] at heq
    have := ends_meet hn.1 hn.2 (by omega)
    omega
  · have hlen : len ≠ 0 := by
      rintro rfl
      exact heq (by rw [h.head, h.tail, Nat.add_zero, Nat.mod_eq_of_lt hn.1])
    have hround : (u.tail + 4 * (n - len)) % (4 * n) = u.head := by
      rw [h.tail, h.head, ← Nat.mul_add, Nat.mul_mod_mul_left, Nat.mod_add_mod,
        show p + len + (n - len) = p + n by omega, Nat.add_mod_right, Nat.mod_eq_of_lt hn.1]
    rw [← hround]
    have hlt := Nat.mod_lt (p + len) (by omega : 0 < n)
    exact distance_eq (by rw [h.tail]; omega) (by omega)

/-- Writing behind the tail leaves the words in front of the consumer alone. -/
theorem around_kept {ring ring' : Nat → Nat} {r : Nat} (hr : len + r ≤ n)
    (h : ∀ {i}, ¬ Occupied n ((p + len) % n) r i → ring' i = ring i) :
    around ring' n p len = around ring n p len := by
  refine List.map_congr_left fun j hj => h ?_
  have hlt := List.mem_range.mp hj
  rintro ⟨k, hk, heq⟩
  rw [Nat.mod_add_mod, Nat.add_assoc] at heq
  have := add_mod_inj (by omega) (by omega) heq
  omega

theorem Flows.append (h : Flows n p len u) (cp : Nat) (commands : List Nat) :
    ∃ p' len', Flows n p' len' (u.act rp (4 * n) (.append cp commands)) := by
  have hn := h.bounds
  rcases h.stream with ⟨pieces, hframed, hstream⟩
  by_cases hsane : Sane rp (4 * n) u.head u.tail cp commands.length
  · by_cases hfit : padded commands.length + skip (4 * n) u.tail commands.length ≤
        free (4 * n) u.head u.tail
    · have hgap := free_add_gap hsane
      have hlen := filled_length hsane
      have hread := @around_appended _ _ _ _ _ u.ring _ hsane hfit
      have hkeep := @write_free _ _ _ _ _ u.ring _ hsane hfit
      have hskip : skip (4 * n) u.tail commands.length % 4 = 0 := by
        have := hsane.tail_mod
        rcases skip_cases hsane with ⟨hskip, -⟩ | ⟨hskip, -⟩ <;> omega
      have hplace : u.tail / 4 = (p + len) % n := by
        rw [h.tail]
        omega
      rw [h.room] at hgap hkeep
      simp only [Use.act, appendRing_none hsane hfit, if_true]
      rw [hplace, Nat.mul_div_cancel_left n (by decide : 0 < 4)] at hread hkeep
      generalize write _ _ (commands ++ filler commands.length) = ring at hread hkeep ⊢
      generalize he : skip (4 * n) u.tail commands.length / 4 +
        (commands ++ filler commands.length).length = e at hread
      refine ⟨p, len + e, h.head, ?_, ⟨hn.1, by omega⟩, pieces ++ [_],
        List.rel_append hframed (.cons ⟨skip (4 * n) u.tail commands.length / 4,
          (filler commands.length).length, ?_, rfl⟩ .nil), ?_⟩
      · rw [show skip (4 * n) u.tail commands.length + padded commands.length =
          4 * e by omega, h.tail,
          ← Nat.mul_add, Nat.mul_mod_mul_left, Nat.mod_add_mod, Nat.add_assoc]
      · unfold filler
        split_ifs <;> simp
      · rw [around_add, around_kept (by omega) hkeep, hread, filler_eq, List.flatten_append,
          ← hstream]
        simp
    · exact ⟨p, len, by simpa [Use.act, appendRing_full hsane hfit] using h⟩
  · exact ⟨p, len, by simpa [Use.act, appendRing_insane hsane] using h⟩

/-- However appends and reads follow each other on an empty ring: nothing is
    lost, repeated or out of order, and where the consumer has caught up it has
    read everything. -/
theorem ring_streams (rp n : Nat) (ring : Nat → Nat) (acts : List Act) (hn : 0 < n) :
    let u := acts.foldl (Use.act rp (4 * n)) ⟨ring, 0, 0, [], []⟩
    ∃ pieces, List.Forall₂ Framed u.appended pieces ∧
      u.read ++ around u.ring n (u.head / 4) (distance (4 * n) u.head u.tail / 4) =
        pieces.flatten := by
  intro u
  have hflows : ∃ p len, Flows n p len u := by
    refine List.foldlRecOn (motive := fun u => ∃ p len, Flows n p len u) acts _
      ⟨0, 0, rfl, by simp, ⟨hn, hn⟩, [], .nil, rfl⟩ ?_
    rintro u ⟨p, len, h⟩ (⟨cp, commands⟩ | steps) -
    · exact h.append cp commands
    · exact h.read steps
  rcases hflows with ⟨p, len, h⟩
  rw [h.distance, h.head]
  simpa using h.stream

/-- Three commands in a ring of one page, a word of them read, and one more. -/
def pageUse : Use :=
  [.append 0x20000 [1, 2, 3], .read 1, .append 0x20000 [4]].foldl (Use.act 0x10000 (4 * 1024))
    ⟨fun _ => 0, 0, 0, [], []⟩

theorem ring_streams_page : ∃ pieces, List.Forall₂ Framed pageUse.appended pieces ∧
    pageUse.read ++ around pageUse.ring 1024 (pageUse.head / 4)
      (distance (4 * 1024) pageUse.head pageUse.tail / 4) = pieces.flatten :=
  ring_streams 0x10000 1024 (fun _ => 0) [.append 0x20000 [1, 2, 3], .read 1, .append 0x20000 [4]]
    (by decide)

end Mellow.XeContext
