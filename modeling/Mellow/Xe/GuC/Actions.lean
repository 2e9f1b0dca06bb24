import Mathlib.Data.Fin.VecNotation
import Mathlib.Data.Fintype.Pi
import Mathlib.Tactic.Ring

/-!
# Actions Sent to the GuC

The action encoders and the validator of `Mellow/XeGuCTransport.cpp`. An action
is up to twelve words, the first of which says what is asked. Most carry their
context in the second word; a registration carries flags there and the context
in its third.

## Main definitions

* `encodeRegister`: registering a context.
* `encodeMode`: enabling or disabling one.
* `validateAction`: the validator.
* `Action.context`: the context an action is about.

## Theorems

* `valid_cases`: what the validator lets pass.
-/

namespace Mellow.XeGuC

inductive Status where
  | ok | invalid | unavailable | busy | empty | corrupt | ioFailure | timeout
  | retry | rejected | unknownCookie | exhausted | publishedUnknown | staleEpoch
  deriving DecidableEq, Repr

instance neZeroTwelve : NeZero 12 := ⟨Nat.succ_ne_zero 11⟩

structure Action where
  words : Fin 12 → Nat
  count : Nat
  deriving DecidableEq

def Action.zero : Action := ⟨fun _ => 0, 0⟩

def idValid (id : Nat) : Prop := id < 65535
  deriving Decidable

section Encoders

def encodeRegister (id gucClass submitMask lrcDescriptor : Nat) : Status × Action :=
  if ¬ idValid id ∨ (gucClass ≠ 0 ∧ gucClass ≠ 4) ∨ submitMask = 0 ∨ lrcDescriptor = 0 then
    (.invalid, Action.zero)
  else
    (.ok, { words := ![0x4502, 1, id, gucClass, submitMask, 0, 0, 0, 0, 0,
                       lrcDescriptor % 2 ^ 32, (lrcDescriptor >>> 32) % 2 ^ 32],
            count := 12 })

def encodeSchedule (id : Nat) : Status × Action :=
  if ¬ idValid id then (.invalid, Action.zero)
  else (.ok, { words := ![0x1000, id, 0, 0, 0, 0, 0, 0, 0, 0, 0, 0], count := 2 })

def encodeMode (id : Nat) (enable : Bool) : Status × Action :=
  match encodeSchedule id with
  | (.ok, a) =>
    (.ok, { words := Function.update (Function.update a.words 0 0x1001) 2 (if enable then 1 else 0),
            count := 3 })
  | (_, a) => (.invalid, a)

end Encoders

/-- The registration `validateAction` accepts. -/
def Action.RegisterValid (a : Action) : Prop :=
  a.count = 12 ∧ a.words 1 = 1 ∧ idValid (a.words 2) ∧ (a.words 3 = 0 ∨ a.words 3 = 4) ∧
    a.words 4 ≠ 0 ∧ (a.words 10 ≠ 0 ∨ a.words 11 ≠ 0) ∧
    a.words 5 = 0 ∧ a.words 6 = 0 ∧ a.words 7 = 0 ∧ a.words 8 = 0 ∧ a.words 9 = 0
  deriving Decidable

def validateAction (a : Action) : Status :=
  if a.count = 0 ∨ a.count > 12 then .invalid
  else if a.words 0 = 0x4502 then
    if a.RegisterValid then .ok else .invalid
  else if a.words 0 = 0x1000 ∨ a.words 0 = 0x4503 then
    if a.count = 2 ∧ idValid (a.words 1) then .ok else .invalid
  else if a.words 0 = 0x1001 then
    if a.count = 3 ∧ idValid (a.words 1) ∧ a.words 2 ≤ 1 then .ok else .invalid
  else if a.words 0 = 0x4000 then
    if a.count = 2 ∧ a.words 1 ≠ 0 ∧ a.words 1 &&& 3 = 0 then .ok else .invalid
  else .invalid

namespace Action

variable {a : Action}

/-- The action waits for a response of its own (`request`). -/
def Request (a : Action) : Prop := a.words 0 = 0x4000
  deriving Decidable

def reserve (a : Action) : Nat :=
  if a.Request then 256 else if a.words 0 = 0x1001 then 4 else if a.words 0 = 0x4503 then 3 else 0

def payload (a : Action) : List Nat := (List.ofFn a.words).take a.count

def context (a : Action) : Nat := if a.words 0 = 0x4502 then a.words 2 else a.words 1

end Action

section Validity

variable {a : Action}

theorem valid_cases (h : validateAction a = .ok) :
    (a.words 0 = 0x4502 ∧ a.RegisterValid) ∨
      ((a.words 0 = 0x1000 ∨ a.words 0 = 0x4503) ∧ a.count = 2 ∧ idValid (a.words 1)) ∨
      (a.words 0 = 0x1001 ∧ a.count = 3 ∧ idValid (a.words 1) ∧ a.words 2 ≤ 1) ∨
      (a.words 0 = 0x4000 ∧ a.count = 2 ∧ a.words 1 ≠ 0 ∧ a.words 1 &&& 3 = 0) := by
  unfold validateAction at h
  split at h
  · cases h
  · split at h
    · rename_i hword
      split at h
      · rename_i hreg
        exact Or.inl ⟨hword, hreg⟩
      · cases h
    · split at h
      · rename_i hword
        split at h
        · simp [*]
        · cases h
      · split at h
        · rename_i hword
          split at h
          · simp [*]
          · cases h
        · split at h
          · rename_i hword
            split at h
            · omega
            · cases h
          · cases h

theorem valid_count (h : validateAction a = .ok) : 0 < a.count ∧ a.count ≤ 12 := by
  unfold validateAction at h
  split at h
  · cases h
  · rename_i hcount
    omega

end Validity

end Mellow.XeGuC
