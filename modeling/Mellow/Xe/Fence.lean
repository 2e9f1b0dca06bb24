import Mellow.Lib.Prog

/-!
# The Fence Timeline

`XeFence::Timeline` from `Mellow/XeFence.cpp`: the reader of one 8-byte slot
that only the GPU writes. An observation reports what the slot holds, as long as
that is a sequence that was issued and no step back. Reading the slot is a
question to the environment, and so is the write of zero by `bind`, which
refuses null callbacks.

## Main definitions

* `Timeline`: the fields of the class.
* `bind`: taking on a slot.
* `observe`: reading it.
* `step`: one call.
-/

namespace Mellow.XeFence

open Lib

inductive Status where
  | ok | invalid | unavailable | staleEpoch | busy | exhausted | corrupt | notBound
  deriving DecidableEq, Repr

structure Slot where
  cpu : Nat := 0
  ggtt : Nat := 0
  allocation : Nat := 0
  owner : Nat := 0
  context : Nat := 0
  epoch : Nat := 0
  engineClass : Nat := 0
  inst : Nat := 0
  deriving DecidableEq, Repr

structure Observation where
  owner : Nat := 0
  context : Nat := 0
  epoch : Nat := 0
  ggtt : Nat := 0
  raw : Nat := 0
  sequence : Nat := 0
  engineClass : Nat := 0
  inst : Nat := 0
  acquireOrdered : Bool := false
  deriving DecidableEq, Repr

structure Timeline where
  slot : Slot := {}
  published : Nat := 0
  observed : Nat := 0
  held : Bool := false
  active : Bool := false
  used : Bool := false

structure Ops (E : Type) where
  valid : Slot → E → Bool × E
  retain : Slot → E → Bool × E
  release : Slot → E → Unit × E
  stopped : Slot → E → Bool × E
  clear : Slot → E → Unit × E
  load : Slot → E → Nat × E

def Ops.under {E S Ev : Type} (io : Ops E) : Ops (Sys S E Ev) where
  valid s := draw (io.valid s)
  retain s := draw (io.retain s)
  release s := draw (io.release s)
  stopped s := draw (io.stopped s)
  clear s := draw (io.clear s)
  load s := draw (io.load s)

inductive Event where
  | valid (s : Slot) (ok : Bool)
  | retain (s : Slot) (ok : Bool)
  | release (s : Slot)
  | stopped (s : Slot) (ok : Bool)
  | clear (s : Slot)
  | load (s : Slot) (raw : Nat)
  deriving DecidableEq

abbrev Op (E α : Type) := Prog Timeline E Event α

variable {E : Type}

def askValid (io : Ops E) (s : Slot) : Op E Bool := ask (io.valid s) (.valid s)
def askStopped (io : Ops E) (s : Slot) : Op E Bool := ask (io.stopped s) (.stopped s)

def Slot.Fits (s : Slot) : Prop :=
  s.cpu ≠ 0 ∧ s.cpu &&& 7 = 0 ∧ s.ggtt ≠ 0 ∧ s.ggtt &&& 7 = 0 ∧ s.ggtt ≤ 0xfffffff8 ∧
    s.allocation ≠ 0 ∧ s.owner ≠ 0 ∧ s.context ≠ 0 ∧ s.epoch ≠ 0 ∧
    (s.engineClass = 0 ∨ s.engineClass = 3 ∨ s.engineClass = 5) ∧ s.inst = 0
  deriving Decidable

def bind (io : Ops E) (s : Slot) (complete : Bool) : Op E Status := do
  let t ← look
  if t.used = true ∨ ¬s.Fits ∨ complete = false then return .invalid
  let fit ← askValid io s <&&> askStopped io s
  if fit = false then return .unavailable
  let retained ← ask (io.retain s) (.retain s)
  if retained = false then return .unavailable
  edit fun t => { t with slot := s, held := true, used := true }
  let fit ← askValid io s <&&> askStopped io s
  if fit = false then return .unavailable
  ask (io.clear s) fun _ => .clear s
  edit fun t => { t with published := 0, observed := 0, active := true }
  return .ok

def Timeline.check (t : Timeline) (epoch : Nat) : Option Status :=
  if t.held = false ∨ t.active = false then some .notBound
  else if epoch ≠ t.slot.epoch then some .staleEpoch
  else none

def drop (s : Status) : Op E Status := do
  edit fun t => { t with active := false }
  return s

/-- `published`. -/
def publish (io : Ops E) (epoch sequence : Nat) : Op E Status := do
  let t ← look
  match t.check epoch with
  | some s => return s
  | none =>
    let valid ← askValid io t.slot
    if valid = false then return ← drop .unavailable
    if t.published = 0xffffffff then return .exhausted
    if sequence = 0 ∨ sequence ≠ t.published + 1 then return .invalid
    edit fun t => { t with published := sequence }
    return .ok

def Timeline.report (t : Timeline) (raw : Nat) : Observation where
  owner := t.slot.owner
  context := t.slot.context
  epoch := t.slot.epoch
  ggtt := t.slot.ggtt
  raw := raw
  sequence := raw % 0x100000000
  engineClass := t.slot.engineClass
  inst := t.slot.inst
  acquireOrdered := true

def observe (io : Ops E) (epoch : Nat) : Op E (Status × Observation) := do
  let t ← look
  match t.check epoch with
  | some s => return (s, {})
  | none =>
    let valid ← askValid io t.slot
    if valid = false then return (← drop .unavailable, {})
    let raw ← ask (io.load t.slot) (.load t.slot)
    let valid ← askValid io t.slot
    if valid = false then return (← drop .unavailable, {})
    if raw >>> 32 ≠ 0 ∨ raw > t.published ∨ raw < t.observed then return (← drop .corrupt, {})
    edit fun t => { t with observed := raw % 0x100000000 }
    return (.ok, t.report raw)

def invalidate : Op E Unit := edit fun t => { t with active := false }

def close (io : Ops E) : Op E Status := do
  let t ← look
  if t.held = false then return .ok
  edit fun t => { t with active := false }
  let stopped ← askStopped io t.slot
  if stopped = false then return .busy
  ask (io.release t.slot) fun _ => .release t.slot
  edit fun t => { t with held := false, slot := {} }
  return .ok

inductive Call where
  | bind (s : Slot) (complete : Bool)
  | publish (epoch sequence : Nat)
  | observe (epoch : Nat)
  | invalidate
  | close

def step (io : Ops E) : Call → Op E Status
  | .bind s complete => bind io s complete
  | .publish epoch sequence => publish io epoch sequence
  | .observe epoch => do return (← observe io epoch).1
  | .invalidate => do
    invalidate
    return .ok
  | .close => close io

end Mellow.XeFence
