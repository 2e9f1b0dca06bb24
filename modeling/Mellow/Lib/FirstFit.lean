import Mathlib.Order.Bounds.Basic
import Mellow.Lib.Bits

/-!
# First Fit

A search for the lowest good place that jumps: from a place that is no good it
goes to one that it knows to be the next worth looking at. The jumps of an
allocator go past the furthest end of the obstacles in the way.

## Main definitions

* `Seeks`: the loop without a bound.
* `seek`: the loop with a number of passes.
* `Leaps`: a jump that passes over no good place.
* `past`: the furthest end of the obstacles.

## Theorems

* `Seeks.least`: what is found is the lowest good place.
* `seek_seeks`: enough passes make the bound invisible.
* `not_clear_of_hits`: past an obstacle that is met, nothing is missed.
-/

namespace Mellow.Lib

section Seeking

variable {fits good inv : Nat → Prop} {jump : Nat → Option Nat} {μ : Nat → Nat}

/-- Stop where nothing fits, stay at a place the jump does not leave. -/
inductive Seeks (fits : Nat → Prop) (jump : Nat → Option Nat) : Nat → Option Nat → Prop where
  | full {b : Nat} (h : ¬ fits b) : Seeks fits jump b none
  | lost {b : Nat} (h : fits b) (hj : jump b = none) : Seeks fits jump b none
  | found {b : Nat} (h : fits b) (hj : jump b = some b) : Seeks fits jump b (some b)
  | next {b c : Nat} {r : Option Nat} (h : fits b) (hj : jump b = some c) (hne : c ≠ b)
      (hrest : Seeks fits jump c r) : Seeks fits jump b r

/-- The loop with a bound on its passes. -/
def seek (fits : Nat → Prop) [DecidablePred fits] (jump : Nat → Option Nat) : Nat → Nat → Option Nat
  | 0, _ => none
  | k + 1, b =>
    if fits b then (jump b).bind fun c => if c = b then some b else seek fits jump k c else none

/-- The jumps are right, from places where `inv` holds on. -/
structure Leaps (fits good inv : Nat → Prop) (jump : Nat → Option Nat) : Prop where
  stay : ∀ b, inv b → fits b → jump b = some b → good b
  skip : ∀ b c, inv b → fits b → jump b = some c → c ≠ b →
    inv c ∧ b < c ∧ ∀ p, b ≤ p → p < c → ¬ good p
  lost : ∀ b, inv b → fits b → jump b = none → ∀ p, b ≤ p → fits p → ¬ good p
  down : ∀ p q, p ≤ q → fits q → fits p

theorem seek_seeks [DecidablePred fits]
    (h : ∀ b c, inv b → fits b → jump b = some c → c ≠ b → inv c ∧ μ c < μ b) (fuel : Nat) :
    ∀ b, inv b → μ b < fuel → Seeks fits jump b (seek fits jump fuel b) := by
  induction fuel with
  | zero => exact fun b _ hfuel => absurd hfuel (Nat.not_lt_zero _)
  | succ k ih =>
    intro b hb hfuel
    unfold seek
    by_cases hfit : fits b
    · rw [if_pos hfit]
      cases hj : jump b with
      | none => exact .lost hfit hj
      | some c =>
        rw [Option.bind_some]
        by_cases hne : c = b
        · rw [if_pos hne]
          exact .found hfit (hne ▸ hj)
        · rw [if_neg hne]
          rcases h b c hb hfit hj hne with ⟨hc, hlt⟩
          exact .next hfit hj hne (ih c hc (by omega))
    · rw [if_neg hfit]
      exact .full hfit

/-- Whatever the loop finds is the lowest good place that fits. -/
theorem Seeks.least (h : Leaps fits good inv jump) {b p : Nat} (hb : inv b)
    (hs : Seeks fits jump b (some p)) : IsLeast { q | b ≤ q ∧ good q ∧ fits q } p := by
  generalize hr : some p = r at hs
  induction hs with
  | full | lost => cases hr
  | found hfit hj =>
    cases hr
    exact ⟨⟨Nat.le_refl _, h.stay _ hb hfit hj, hfit⟩, fun q hq => hq.1⟩
  | next hfit hj hne _ ih =>
    rcases h.skip _ _ hb hfit hj hne with ⟨hc, hlt, hover⟩
    rcases ih hc hr with ⟨⟨hle, hgood⟩, hleast⟩
    refine ⟨⟨by omega, hgood⟩, fun q hq => hleast ⟨?_, hq.2⟩⟩
    by_contra hq'
    exact hover q hq.1 (by omega) hq.2.1

theorem Seeks.none (h : Leaps fits good inv jump) {b : Nat} (hb : inv b)
    (hs : Seeks fits jump b .none) : ∀ q, b ≤ q → fits q → ¬ good q := by
  generalize hr : Option.none = r at hs
  induction hs with
  | full hno => exact fun q hle hfit => absurd (h.down _ q hle hfit) hno
  | lost hfit hj => exact h.lost _ hb hfit hj
  | found _ _ => cases hr
  | @next _ c _ hfit hj hne _ ih =>
    rcases h.skip _ _ hb hfit hj hne with ⟨hc, _, hover⟩
    intro q hle hfit'
    by_cases hq : q < c
    · exact hover q hle hq
    · exact ih hc hr q (Nat.le_of_not_lt hq) hfit'

end Seeking

section Obstacles

variable {ι : Type}

/-- The furthest end among the obstacles in the way, or the place itself. -/
def past (hit : ι → Prop) [DecidablePred hit] (stop : ι → Nat) (l : List ι) (b : Nat) : Nat :=
  l.foldl (fun next i => if hit i then max next (stop i) else next) b

section

variable {hit : ι → Prop} [DecidablePred hit] {stop : ι → Nat}

theorem le_past (l : List ι) (b : Nat) : b ≤ past hit stop l b := by
  induction l generalizing b with
  | nil => exact Nat.le_refl b
  | cons i l ih =>
    refine Nat.le_trans ?_ (ih _)
    dsimp only
    split
    · exact Nat.le_max_left _ _
    · exact Nat.le_refl b

theorem stop_le_past {l : List ι} {i : ι} (hi : i ∈ l) (hhit : hit i) (b : Nat) :
    stop i ≤ past hit stop l b := by
  induction l generalizing b with
  | nil => exact absurd hi List.not_mem_nil
  | cons j l ih =>
    rcases List.mem_cons.mp hi with rfl | hi
    · have hle : _ ≤ past hit stop l (max b (stop i)) := le_past l _
      unfold past
      rw [List.foldl_cons, if_pos hhit]
      exact Nat.le_trans (Nat.le_max_right b _) hle
    · exact ih hi _

theorem past_cases (l : List ι) (b : Nat) :
    past hit stop l b = b ∨ ∃ i ∈ l, hit i ∧ past hit stop l b = stop i := by
  induction l generalizing b with
  | nil => exact .inl rfl
  | cons j l ih =>
    unfold past
    rw [List.foldl_cons]
    have hrest : ∀ c, past hit stop l c = c → c = b ∨ (hit j ∧ c = stop j) →
        past hit stop l c = b ∨ ∃ i ∈ j :: l, hit i ∧ past hit stop l c = stop i := by
      rintro c heq (hc | ⟨hj, hc⟩)
      · exact .inl (heq.trans hc)
      · simp [*]
    rcases ih (if hit j then max b (stop j) else b) with heq | ⟨i, hi, hhit, heq⟩
    · refine hrest _ heq ?_
      by_cases hj : hit j
      · rw [if_pos hj]
        rcases Nat.le_total (stop j) b with hle | hle
        · exact .inl (Nat.max_eq_left hle)
        · exact .inr ⟨hj, Nat.max_eq_right hle⟩
      · rw [if_neg hj]
        exact .inl rfl
    · exact .inr ⟨i, List.mem_cons_of_mem j hi, hhit, heq⟩

end

variable (live : ι → Prop) (start stop : ι → Nat)

def Hits (bytes base : Nat) (i : ι) : Prop := live i ∧ base < stop i ∧ start i < base + bytes

def Clear (l : List ι) (bytes base : Nat) : Prop := ∀ i ∈ l, ¬ Hits live start stop bytes base i

variable {live start stop} {l : List ι} {bytes base : Nat}

/-- Where no end is passed nothing was in the way. The ends may be rounded up. -/
theorem clear_of_past {hit : ι → Prop} [DecidablePred hit] {round : ι → Nat}
    (h : past hit round l base = base) (hhit : ∀ i ∈ l, Hits live start stop bytes base i → hit i)
    (hround : ∀ i ∈ l, hit i → stop i ≤ round i) :
    Clear live start stop l bytes base := by
  intro i hi hits
  have hle : round i ≤ past hit round l base := stop_le_past hi (hhit i hi hits) base
  have := hround i hi (hhit i hi hits)
  have := hits.2.1
  omega

/-- Between the place and the end of an obstacle in its way, no place is
    free. -/
theorem not_clear_of_hits {i : ι} (hi : i ∈ l) (h : Hits live start stop bytes base i) {p : Nat}
    (hle : base ≤ p) (hlt : p < stop i) : ¬ Clear live start stop l bytes p := by
  intro hclear
  have := h.2.2
  exact hclear i hi ⟨h.1, hlt, by omega⟩

/-- The number of live obstacles that end further on. -/
def ahead (live : ι → Prop) [DecidablePred live] (stop : ι → Nat) (l : List ι) (base : Nat) : Nat :=
  l.countP fun i => live i ∧ base < stop i

theorem ahead_lt [DecidablePred live] {i : ι} (hi : i ∈ l) (hlive : live i) (hlt : base < stop i)
    {c : Nat} (hpast : stop i ≤ c) :
    ahead live stop l c < ahead live stop l base := by
  have hmono : ∀ l : List ι, ahead live stop l c ≤ ahead live stop l base := by
    intro l
    refine List.countP_mono_left fun j _ hj => ?_
    simp only [decide_eq_true_eq] at hj ⊢
    exact ⟨hj.1, by omega⟩
  induction l with
  | nil => exact absurd hi List.not_mem_nil
  | cons j l ih =>
    unfold ahead at ih hmono ⊢
    rw [List.countP_cons, List.countP_cons]
    rcases List.mem_cons.mp hi with rfl | hi
    · have := hmono l
      rw [if_neg (by simp only [decide_eq_true_eq]; omega),
        if_pos (by simp only [decide_eq_true_eq]; exact ⟨hlive, hlt⟩)]
      omega
    · have hrest := ih hi
      have hfirst : (if decide (live j ∧ c < stop j) = true then 1 else 0) ≤
          if decide (live j ∧ base < stop j) = true then 1 else 0 := by
        have hone := hmono [j]
        simpa only [List.countP_cons, List.countP_nil, Nat.zero_add] using hone
      omega

end Obstacles

/-- Below a rounded address, multiples are below the address. -/
theorem lt_of_lt_alignUp {x k p : Nat} (hk : k ≤ 64) (hx : x + 2 ^ k ≤ 2 ^ 64) (hp : 2 ^ k ∣ p)
    (hlt : p < alignUp x (2 ^ k)) : p < x := by
  rcases hp with ⟨a, rfl⟩
  rcases alignUp_dvd hk hx with ⟨b, hb⟩
  have hup := alignUp_lt hk hx
  have hpos : 0 < 2 ^ k := Nat.two_pow_pos k
  rw [hb] at hlt hup
  have hab : a + 1 ≤ b := Nat.lt_of_mul_lt_mul_left hlt
  have hmul : 2 ^ k * (a + 1) ≤ 2 ^ k * b := Nat.mul_le_mul_left _ hab
  rw [Nat.mul_add, Nat.mul_one] at hmul
  omega

end Mellow.Lib
