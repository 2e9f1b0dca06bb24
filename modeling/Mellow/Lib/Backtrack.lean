import Mathlib.Data.List.Basic
import Mathlib.Order.Basic

/-!
# Depth First Search With a Budget

A search places a candidate at one level after another, goes back when a level
has none left, and gives up when its budget is spent. A failed attempt leaves
its marks in the store, and later attempts write over them. What the search
computes is said without store or budget.

## Main definitions

* `dive`: the search over a store, with a budget.
* `Problem`: which candidate fits at a level, given the choices above it.
* `explore`: the whole search, with a count of the candidates it looks at.
* `Faithful`: the store records the choices up to a level.

## Theorems

* `explore_first`: what is found is first in lexicographic order.
* `dive_ran`: with enough budget `dive` finds what `explore` finds, and spends
  its count.
-/

namespace Mellow.Backtrack

open Function

variable {k : Nat} {a b : Nat → Nat}

structure Walk (S : Type) where
  store : S
  attempts : Nat
  limitReached : Bool

section Search

variable {S : Type}

/-- Tries candidates at one level, in order; `deeper` continues below it. -/
def scan (budget : Nat) (attempt : Nat → S → Bool × S) (deeper : Walk S → Bool × Walk S) :
    List Nat → Walk S → Bool × Walk S
  | [], w => (false, w)
  | i :: is, w =>
    if w.attempts = budget then (false, { w with limitReached := true })
    else
      let r := attempt i w.store
      let w : Walk S := { w with attempts := w.attempts + 1, store := r.2 }
      let d := if r.1 then deeper w else (false, w)
      if d.1 then (true, d.2)
      else if d.2.limitReached then (false, d.2)
      else scan budget attempt deeper is d.2

/-- Fills `left` levels from level `k` on, each with one of `count`
    candidates. -/
def dive (budget count : Nat) (attempt : Nat → Nat → S → Bool × S) :
    Nat → Nat → Walk S → Bool × Walk S
  | 0, _, w => (true, w)
  | left + 1, k, w =>
    scan budget (attempt k) (dive budget count attempt left (k + 1)) (List.range count) w

end Search

/-- The same choices at the first `k` levels. -/
def Agree (k : Nat) (a b : Nat → Nat) : Prop := ∀ j < k, a j = b j

theorem Agree.symm (h : Agree k a b) : Agree k b a :=
  fun j hj => (h j hj).symm

theorem Agree.trans {c : Nat → Nat} (h : Agree k a b) (h' : Agree k b c) :
    Agree k a c :=
  fun j hj => (h j hj).trans (h' j hj)

theorem Agree.mono {m : Nat} (h : Agree k a b) (hm : m ≤ k) : Agree m a b :=
  fun j hj => h j (Nat.lt_of_lt_of_le hj hm)

theorem Agree.set {i : Nat} (h : Agree k a b) :
    Agree (k + 1) (update a k i) (update b k i) := by
  intro j hj
  by_cases hjk : j = k
  · rw [hjk, update_self, update_self]
  · rw [update_of_ne hjk, update_of_ne hjk]
    exact h j (by omega)

theorem agree_update (k i : Nat) (a : Nat → Nat) : Agree k a (update a k i) :=
  fun _ hj => (update_of_ne (Nat.ne_of_lt hj) _ _).symm

/-- The choice at level `k` extends an agreement by one level. -/
theorem Agree.update_of {c : Nat → Nat} (h : Agree k a c) :
    Agree (k + 1) (update a k (c k)) c := by
  intro j hj
  by_cases hjk : j = k
  · rw [hjk, update_self]
  · rw [update_of_ne hjk]
    exact h j (by omega)

/-- What fits at each level, which may depend on the choices up to it. -/
structure Problem where
  count : Nat
  depth : Nat
  fits : Nat → (Nat → Nat) → Bool
  upTo : ∀ k a b, Agree (k + 1) a b → fits k a = fits k b

namespace Problem

/-- A candidate fits at each level of a range. -/
def Fills (P : Problem) (k n : Nat) (a : Nat → Nat) : Prop :=
  ∀ j, k ≤ j → j < n → a j < P.count ∧ P.fits j a = true

def Solves (P : Problem) (a : Nat → Nat) : Prop := P.Fills 0 P.depth a

/-- `a` is not after `b` in lexicographic order. -/
def Before (n : Nat) (a b : Nat → Nat) : Prop :=
  Agree n a b ∨ ∃ k < n, Agree k a b ∧ a k < b k

def First (P : Problem) (a : Nat → Nat) : Prop :=
  P.Solves a ∧ ∀ b, P.Solves b → Before P.depth a b

end Problem

open Problem

/-- Candidates in order, each with what is found below it and what that
    costs. -/
def sweep (below : Nat → Option (Nat → Nat) × Nat) : List Nat → Option (Nat → Nat) × Nat
  | [] => (none, 0)
  | i :: is =>
    if (below i).1.isSome then ((below i).1, 1 + (below i).2)
    else ((sweep below is).1, 1 + (below i).2 + (sweep below is).2)

/-- The search without store or budget. -/
def explore (P : Problem) : Nat → Nat → (Nat → Nat) → Option (Nat → Nat) × Nat
  | 0, _, a => (some a, 0)
  | left + 1, k, a =>
    sweep (fun i =>
      if P.fits k (update a k i) then explore P left (k + 1) (update a k i)
      else (none, 0)) (List.range P.count)

section Explore

variable {P : Problem} {k : Nat} {a b c : Nat → Nat}

/-- What a search from level `k` to level `n` should find. -/
structure Found (P : Problem) (k n : Nat) (a b : Nat → Nat) : Prop where
  agree : Agree k a b
  fills : P.Fills k n b
  first : ∀ c, Agree k a c → P.Fills k n c → Before n b c

theorem Problem.Fills.tail {n : Nat} (h : P.Fills k n a) : P.Fills (k + 1) n a :=
  fun j hj hn => h j (Nat.le_of_succ_le hj) hn

/-- Levels past the last one do not matter. -/
theorem Problem.First.congr (h : P.First a) (hab : Agree P.depth a b) :
    P.First b := by
  refine ⟨fun j hj hn => ?_, fun c hc => ?_⟩
  · rw [← hab j hn, ← P.upTo j _ _ (hab.mono hn)]
    exact h.1 j hj hn
  · rcases h.2 c hc with hac | ⟨k, hk, hac, hlt⟩
    · exact .inl (hab.symm.trans hac)
    · exact .inr ⟨k, hk, (hab.mono (Nat.le_of_lt hk)).symm.trans hac, hab k hk ▸ hlt⟩

theorem Problem.fits_update (h : Agree k a c) :
    P.fits k (update a k (c k)) = P.fits k c :=
  P.upTo k _ _ h.update_of

theorem sweep_some {below : Nat → Option (Nat → Nat) × Nat} {is : List Nat}
    (h : (sweep below is).1 = some b) :
    ∃ pre i post, is = pre ++ i :: post ∧ (below i).1 = some b ∧ ∀ j ∈ pre, (below j).1 = none := by
  induction is with
  | nil => cases h
  | cons i is ih =>
    unfold sweep at h
    by_cases hi : (below i).1.isSome
    · rw [if_pos hi] at h
      exact ⟨[], i, is, rfl, h, nofun⟩
    · rw [if_neg hi] at h
      rcases ih h with ⟨pre, j, post, rfl, hj, hpre⟩
      refine ⟨i :: pre, j, post, rfl, hj, fun m hm => ?_⟩
      rcases List.mem_cons.mp hm with rfl | hm
      · exact Option.not_isSome_iff_eq_none.mp hi
      · exact hpre m hm

theorem sweep_none {below : Nat → Option (Nat → Nat) × Nat} {is : List Nat}
    (h : (sweep below is).1 = none) : ∀ i ∈ is, (below i).1 = none := by
  induction is with
  | nil => nofun
  | cons i is ih =>
    unfold sweep at h
    by_cases hi : (below i).1.isSome
    · rw [if_pos hi] at h
      rw [h] at hi
      cases hi
    · rw [if_neg hi] at h
      intro j hj
      rcases List.mem_cons.mp hj with rfl | hj
      · exact Option.not_isSome_iff_eq_none.mp hi
      · exact ih h j hj

/-- Nothing is found only where there is nothing. -/
theorem explore_none {left : Nat} (h : (explore P left k a).1 = none)
    (hc : Agree k a c) : ¬P.Fills k (k + left) c := by
  induction left generalizing k a with
  | zero => cases h
  | succ left ih =>
    intro hfill
    -- The choice of `c` at this level was among the candidates.
    have hk := hfill k (Nat.le_refl k) (by omega)
    have hsub := sweep_none h (c k) (List.mem_range.mpr hk.1)
    rw [if_pos ((fits_update hc).trans hk.2)] at hsub
    exact ih hsub hc.update_of (Nat.succ_add_eq_add_succ k left ▸ hfill.tail)

theorem explore_some {left : Nat} (h : (explore P left k a).1 = some b) :
    Found P k (k + left) a b := by
  induction left generalizing k a with
  | zero =>
    cases h
    exact ⟨fun _ _ => rfl, fun j hj hn => by omega, fun c hc _ => .inl hc⟩
  | succ left ih =>
    rcases sweep_some h with ⟨pre, i, post, hrange, hi, hpre⟩
    by_cases hfit : P.fits k (update a k i) = true
    case neg =>
      rw [if_neg hfit] at hi
      cases hi
    rw [if_pos hfit] at hi
    have hfound := ih hi
    rw [Nat.succ_add_eq_add_succ] at hfound
    have hbk : b k = i := by
      rw [← hfound.agree k (Nat.lt_succ_self k), update_self]
    refine ⟨(agree_update k i a).trans (hfound.agree.mono (Nat.le_succ k)), fun j hj hn => ?_,
      fun c hc hfill => ?_⟩
    · by_cases hjk : j = k
      · subst hjk
        refine ⟨hbk ▸ List.mem_range.mp (hrange ▸ List.mem_append_right _ List.mem_cons_self), ?_⟩
        rw [← P.upTo j _ _ hfound.agree]
        exact hfit
      · exact hfound.fills j (by omega) hn
    · -- A solution starts with a candidate before `i`, with `i`, or after it.
      have hck := hfill k (Nat.le_refl k) (by omega)
      have hmem : c k ∈ pre ++ i :: post := hrange ▸ List.mem_range.mpr hck.1
      have hsorted : (pre ++ i :: post).Pairwise (· < ·) := hrange ▸ List.pairwise_lt_range
      rcases List.mem_append.mp hmem with hp | hp
      · have hnone := hpre _ hp
        rw [if_pos ((fits_update hc).trans hck.2)] at hnone
        exact absurd (Nat.succ_add_eq_add_succ k left ▸ hfill.tail)
          (explore_none hnone hc.update_of)
      · rcases List.mem_cons.mp hp with heq | hp
        · exact hfound.first c (heq ▸ hc.update_of) hfill.tail
        · refine .inr ⟨k, by omega, ?_, ?_⟩
          · exact ((hfound.agree.mono (Nat.le_succ k)).symm.trans (agree_update k i a).symm).trans
              hc
          · rw [hbk]
            exact List.rel_of_pairwise_cons (List.pairwise_append.mp hsorted).2.1 hp

theorem explore_first (h : (explore P P.depth 0 a).1 = some b) : P.First b := by
  have hfound := explore_some h
  rw [Nat.zero_add] at hfound
  exact ⟨hfound.fills, fun c hc => hfound.first c nofun hc⟩

theorem explore_empty (h : (explore P P.depth 0 a).1 = none) : ¬P.Solves c := by
  have hnone := explore_none (c := c) h nofun
  rwa [Nat.zero_add] at hnone

end Explore

section Store

variable {S : Type} {P : Problem} {budget : Nat}

/-- The store records the choices above, whatever is left of levels below. -/
structure Faithful (P : Problem) (attempt : Nat → Nat → S → Bool × S) (picks : S → Nat → Nat)
    (inv : Nat → S → Prop) : Prop where
  verdict : ∀ {k s}, inv k s → ∀ i < P.count,
    (attempt k i s).1 = P.fits k (update (picks s) k i)
  kept : ∀ {k s}, inv k s → ∀ i, inv k (attempt k i s).2 ∧
    Agree k (picks s) (picks (attempt k i s).2)
  placed : ∀ {k s}, inv k s → ∀ i, (attempt k i s).1 = true →
    inv (k + 1) (attempt k i s).2 ∧
      Agree (k + 1) (picks (attempt k i s).2) (update (picks s) k i)
  weaken : ∀ {k s}, inv (k + 1) s → inv k s

/-- How a search with a budget ended, beside the result `r` of one without. -/
structure Ran (budget k n : Nat) (picks : S → Nat → Nat) (inv : Nat → S → Prop) (a : Nat → Nat)
    (attempts : Nat) (r : Option (Nat → Nat) × Nat) (out : Bool × Walk S) : Prop where
  decided : attempts + r.2 ≤ budget → out.1 = r.1.isSome ∧ out.2.limitReached = false ∧
    out.2.attempts = attempts + r.2 ∧ inv k out.2.store ∧ Agree k a (picks out.2.store) ∧
    ∀ b, r.1 = some b → inv n out.2.store ∧ Agree n b (picks out.2.store)
  stopped : budget < attempts + r.2 →
    out.1 = false ∧ out.2.limitReached = true ∧ out.2.attempts = budget

variable {attempt : Nat → Nat → S → Bool × S} {picks : S → Nat → Nat} {inv : Nat → S → Prop}

/-- A candidate and everything below it. -/
def trial (attempt : Nat → S → Bool × S) (deeper : Walk S → Bool × Walk S) (i : Nat) (w : Walk S) :
    Bool × Walk S :=
  if (attempt i w.store).1 then deeper ⟨(attempt i w.store).2, w.attempts + 1, w.limitReached⟩
  else (false, ⟨(attempt i w.store).2, w.attempts + 1, w.limitReached⟩)

theorem scan_cons (attempt : Nat → S → Bool × S) (deeper : Walk S → Bool × Walk S) (i : Nat)
    (is : List Nat) (w : Walk S) (hw : w.attempts ≠ budget) :
    scan budget attempt deeper (i :: is) w =
      if (trial attempt deeper i w).1 then (true, (trial attempt deeper i w).2)
      else if (trial attempt deeper i w).2.limitReached then (false, (trial attempt deeper i w).2)
      else scan budget attempt deeper is (trial attempt deeper i w).2 := by
  rw [scan, if_neg hw]
  rfl

section Level

variable {deeper : Walk S → Bool × Walk S} {below : (Nat → Nat) → Option (Nat → Nat) × Nat}
  {k n : Nat} {a : Nat → Nat} {w : Walk S}

/-- What is found below a candidate. -/
def Problem.under (P : Problem) (k : Nat) (below : (Nat → Nat) → Option (Nat → Nat) × Nat)
    (a : Nat → Nat) (i : Nat) : Option (Nat → Nat) × Nat :=
  if P.fits k (update a k i) then below (update a k i) else (none, 0)

theorem trial_ran (hf : Faithful P attempt picks inv)
    (hdeeper : ∀ a w, inv (k + 1) w.store → Agree (k + 1) a (picks w.store) → w.attempts ≤ budget →
      w.limitReached = false → Ran budget (k + 1) n picks inv a w.attempts (below a) (deeper w))
    {i : Nat} (hi : i < P.count) (hinv : inv k w.store) (hagree : Agree k a (picks w.store))
    (hw : w.attempts < budget) (hlimit : w.limitReached = false) :
    Ran budget k n picks inv a (w.attempts + 1) (P.under k below a i)
      (trial (attempt k) deeper i w) := by
  have hverdict := hf.verdict hinv i hi
  rw [← P.upTo k _ _ hagree.set] at hverdict
  unfold trial Problem.under
  rw [hverdict]
  by_cases hfit : P.fits k (update a k i) = true
  · rw [if_pos hfit, if_pos hfit]
    rcases hf.placed hinv i (hverdict.trans hfit) with ⟨hinv', hagree'⟩
    have hran := hdeeper (update a k i) ⟨(attempt k i w.store).2, w.attempts + 1, w.limitReached⟩
      hinv' (hagree.set.trans hagree'.symm) hw hlimit
    refine ⟨fun hle => ?_, hran.stopped⟩
    rcases hran.decided hle with ⟨hok, hlim, hatt, hinv'', hagree'', hsome⟩
    exact ⟨hok, hlim, hatt, hf.weaken hinv'',
      (agree_update k i a).trans (hagree''.mono (Nat.le_succ k)), hsome⟩
  · rw [if_neg hfit, if_neg hfit]
    rcases hf.kept hinv i with ⟨hinv', hagree'⟩
    exact ⟨fun _ => ⟨rfl, hlimit, rfl, hinv', hagree.trans hagree', nofun⟩,
      fun hlt => absurd hlt (by omega)⟩

theorem scan_ran (hf : Faithful P attempt picks inv)
    (hdeeper : ∀ a w, inv (k + 1) w.store → Agree (k + 1) a (picks w.store) → w.attempts ≤ budget →
      w.limitReached = false → Ran budget (k + 1) n picks inv a w.attempts (below a) (deeper w))
    (is : List Nat) (his : ∀ i ∈ is, i < P.count) (hinv : inv k w.store)
    (hagree : Agree k a (picks w.store)) (hw : w.attempts ≤ budget)
    (hlimit : w.limitReached = false) :
    Ran budget k n picks inv a w.attempts (sweep (P.under k below a) is)
      (scan budget (attempt k) deeper is w) := by
  induction is generalizing w with
  | nil =>
    exact ⟨fun _ => ⟨rfl, hlimit, rfl, hinv, hagree, nofun⟩, fun hlt => absurd hlt (by
      change ¬budget < w.attempts + 0
      omega)⟩
  | cons i is ih =>
    by_cases hspent : w.attempts = budget
    · rw [scan, if_pos hspent, sweep]
      refine ⟨fun hle => ?_, fun _ => ⟨rfl, rfl, hspent⟩⟩
      split_ifs at hle <;> omega
    · have hran := trial_ran hf hdeeper (his i List.mem_cons_self) hinv hagree (by omega) hlimit
      rw [scan_cons _ _ _ _ _ hspent, sweep]
      by_cases hfits : w.attempts + 1 + (P.under k below a i).2 ≤ budget
      · rcases hran.decided hfits with ⟨hok, hlim, hatt, hinv', hagree', hsome⟩
        by_cases hfound : (P.under k below a i).1.isSome = true
        · rw [if_pos hfound, if_pos (hok.trans hfound)]
          refine ⟨fun _ => ⟨hfound.symm, hlim, ?_, hinv', hagree', hsome⟩, fun hlt => ?_⟩
          · rw [hatt, Nat.add_assoc]
          · exact absurd hlt (by dsimp only; omega)
        · -- Nothing below this candidate: the next one starts with what is left.
          rw [if_neg hfound, if_neg (hok ▸ hfound), if_neg (Bool.eq_false_iff.mp hlim)]
          have hrest := ih (fun j hj => his j (List.mem_cons_of_mem i hj)) hinv' hagree'
            (hatt ▸ hfits) hlim
          rw [hatt, Nat.add_assoc w.attempts] at hrest
          refine ⟨fun hle => ?_, fun hlt => hrest.stopped (by dsimp only at hlt; omega)⟩
          rcases hrest.decided (by dsimp only at hle; omega) with ⟨hok', hlim', hatt', htail⟩
          exact ⟨hok', hlim', by rw [hatt', Nat.add_assoc], htail⟩
      · rcases hran.stopped (by omega) with ⟨hok, hlim, hatt⟩
        have hnot : ¬(trial (attempt k) deeper i w).1 = true := by
          rw [hok]
          decide
        rw [if_neg hnot, if_pos hlim]
        refine ⟨fun hle => ?_, fun _ => ⟨rfl, hlim, hatt⟩⟩
        split_ifs at hle <;> dsimp only at hle <;> omega

end Level

/-- The search on a store agrees with the search without one. -/
theorem dive_ran (hf : Faithful P attempt picks inv) {left k : Nat} {a : Nat → Nat} {w : Walk S}
    (hinv : inv k w.store) (hagree : Agree k a (picks w.store)) (hw : w.attempts ≤ budget)
    (hlimit : w.limitReached = false) :
    Ran budget k (k + left) picks inv a w.attempts (explore P left k a)
      (dive budget P.count attempt left k w) := by
  induction left generalizing k a w with
  | zero =>
    refine ⟨fun _ => ⟨rfl, hlimit, rfl, hinv, hagree, fun b hb => ?_⟩, fun hlt => ?_⟩
    · cases hb
      exact ⟨hinv, hagree⟩
    · exact absurd hlt (Nat.not_lt.mpr hw)
  | succ left ih =>
    have hrange : ∀ i ∈ List.range P.count, i < P.count := fun i hi => List.mem_range.mp hi
    refine scan_ran hf (fun a w hinv hagree hw hlimit => ?_) _ hrange hinv hagree hw hlimit
    exact Nat.succ_add_eq_add_succ k left ▸ ih hinv hagree hw hlimit

end Store

end Mellow.Backtrack
