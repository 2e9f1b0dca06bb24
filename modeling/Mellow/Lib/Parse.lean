import Mathlib.Tactic.Basic

/-!
# Programs That Give Up

A parser goes through its input with some state, and stops for good at the first
thing it does not accept: the state monad over `Except`. Nothing is said about
runs that fail.

## Main definitions

* `Parser`: such a program.
* `Yields`: a run that comes through.

## Theorems

* `yields_bind`: of two steps in sequence both came through.
-/

namespace Mellow.Lib

/-- A program over a state that may give up with a message. -/
abbrev Parser (S E : Type) := StateT S (Except E)

variable {S E α β : Type}

/-- Started at `s` the program comes through. -/
def Yields (x : Parser S E α) (s : S) (a : α) (s' : S) : Prop := x s = .ok (a, s')

theorem yields_bind {x : Parser S E α} {f : α → Parser S E β} {s s' : S} {b : β} :
    Yields (x >>= f) s b s' ↔ ∃ a t, Yields x s a t ∧ Yields (f a) t b s' := by
  unfold Yields
  change (Except.bind (x s) fun p => f p.1 p.2) = _ ↔ _
  cases hx : x s with
  | error e =>
    refine ⟨nofun, ?_⟩
    rintro ⟨a, t, h, _⟩
    cases h
  | ok p =>
    refine ⟨fun h => ⟨p.1, p.2, rfl, h⟩, ?_⟩
    rintro ⟨a, t, h, h'⟩
    cases h
    exact h'

theorem Yields.bind {x : Parser S E α} {f : α → Parser S E β} {s s' : S} {b : β} {P : α → S → Prop}
    (h : Yields (x >>= f) s b s') (hx : ∀ {a t}, Yields x s a t → P a t) :
    ∃ a t, P a t ∧ Yields (f a) t b s' := by
  rcases yields_bind.mp h with ⟨a, t, hyields, hf⟩
  exact ⟨a, t, hx hyields, hf⟩

theorem yields_pure {s s' : S} {a b : α} :
    Yields (pure a : Parser S E α) s b s' ↔ b = a ∧ s' = s := by
  change Except.ok (a, s) = _ ↔ _
  rw [Except.ok.injEq, Prod.mk.injEq]
  exact and_congr eq_comm eq_comm

theorem yields_get {s s' t : S} : Yields (get : Parser S E S) s t s' ↔ t = s ∧ s' = s := by
  change Except.ok (s, s) = _ ↔ _
  rw [Except.ok.injEq, Prod.mk.injEq]
  exact and_congr eq_comm eq_comm

theorem yields_modify {f : S → S} {s s' : S} {u : PUnit} :
    Yields (modify f : Parser S E PUnit) s u s' ↔ s' = f s := by
  change Except.ok (PUnit.unit, f s) = _ ↔ _
  rw [Except.ok.injEq, Prod.mk.injEq]
  exact ⟨fun h => h.2.symm, fun h => ⟨rfl, h.symm⟩⟩

theorem yields_throw {e : E} {s s' : S} {a : α} :
    ¬Yields (throw e : Parser S E α) s a s' := by
  intro h
  cases h

theorem yields_ite {c : Prop} [Decidable c] {x y : Parser S E α} {s s' : S} {a : α} :
    Yields (if c then x else y) s a s' ↔ (c ∧ Yields x s a s') ∨ (¬c ∧ Yields y s a s') := by
  by_cases hc : c
  · simp [*]
  · simp [*]

/-- A step that is only taken when another says so. -/
def whenM (c : Parser S E Bool) (x : Parser S E Unit) : Parser S E Unit := do
  if ← c then x else pure ()

end Mellow.Lib
