import Mellow.Xe.Submission.Model
import Mellow.Xe.VirtualMemory.Model

/-!
# The Submission Queue over the Address Space

`XeMemory::SubmissionMemoryBridge` from `Mellow/XeMemorySubmission.hpp`. To the
queue it is a backend whose `retain` and `release` count uses in the address
space, and whose other callbacks go to the transport. So the bridge is the
environment of the queue. `release` returns nothing, so a failed release is only
remembered, in `faulted`.

The other clients of the address space are a count for every handle of the uses
they took. A client that never took a use does not release one: such a call is
passed over.

## Main definitions

* `Bridge`: the address space, the transport and the fields of the class.
* `Joint`: the queue and the other clients.
* `act`: one call of anybody.
* `run`: any calls in any order.
-/

namespace Mellow.XeMemory

open Lib

def handleOf (r : MellowXe.Resource) : Handle := ⟨r.id - 1, r.mappingGeneration⟩

/-- The bridge, with the address space and the transport behind it. -/
structure Bridge (V T : Type) where
  vm : Sys VirtualMemory V VirtualMemory.Event
  transport : T
  faulted : Bool
  lastRelease : Status

namespace Bridge

open VirtualMemory

variable {V T : Type}

def sizeMax : Nat := 2 ^ 64 - 1

def fresh (env : V) (transport : T) : Bridge V T :=
  { vm := VirtualMemory.start env, transport := transport, faulted := false, lastRelease := .ok }

variable (r : MellowXe.Resource)

def Named : Prop :=
  r.id ≠ 0 ∧ r.id - 1 ≤ sizeMax ∧ r.owner ≠ 0 ∧ r.mappingGeneration ≠ 0 ∧ r.pinned = true ∧
    r.gpuReadable = true
  deriving Decidable

def Describes (a : Allocation) : Prop :=
  a.address = r.gpuAddress ∧ a.bytes = r.bytes ∧ a.pin.Covers a.bytes
  deriving Decidable

/-- `resolve`: the handle of a descriptor that still matches. -/
def resolve (vm : VirtualMemory) (r : MellowXe.Resource) (allowRetiring : Bool) :
    Option Handle :=
  if ¬ Named r then none
  else match vm.inspect r.owner (handleOf r) with
    | none => none
    | some a =>
      if a.state ≠ .bound ∧ ¬ (allowRetiring = true ∧ a.state = .retiring) then none
      else if ¬ Describes r a then none
      else some (handleOf r)

/-- `retain`: one use more, of an allocation that is bound. -/
def retain (b : Bridge V T) : Bool × Bridge V T :=
  if b.faulted then (false, b)
  else match resolve b.vm.obj r false with
    | none => (false, b)
    | some h =>
      let out := retainUse r.owner h b.vm
      (out.1 = .ok, { b with vm := out.2 })

/-- `release`: one use less. What goes wrong is kept. -/
def release (b : Bridge V T) : Bridge V T :=
  match resolve b.vm.obj r true with
  | none => { b with lastRelease := .invalid, faulted := true }
  | some h =>
    let out := releaseUse r.owner h b.vm
    if out.1 = .ok then { b with vm := out.2 }
    else { b with vm := out.2, lastRelease := out.1, faulted := true }

def forward {α : Type} (f : T → α × T) (b : Bridge V T) : α × Bridge V T :=
  ((f b.transport).1, { b with transport := (f b.transport).2 })

/-- `backend`: the bridge as the queue sees it. -/
def backend (transport : MellowXe.SubmissionBackend T) :
    MellowXe.SubmissionBackend (Bridge V T) where
  readiness firmware target b :=
    if b.faulted then ((.notReady, ⟨0, 0, 0, 0, 0⟩), b)
    else forward (transport.readiness firmware target) b
  retain := retain
  release := release
  submit batch b :=
    if b.faulted then (.rejected, b) else forward (transport.submit batch) b
  readFence target := forward (transport.readFence target)
  quiesce target := forward (transport.quiesce target)

end Bridge

/-- The queue over the bridge, and the uses its other clients have taken. -/
structure Joint (V T : Type) where
  queue : Sys MellowXe.Queue (Bridge V T) MellowXe.Event
  outside : Handle → Nat

/-- One act: a call of the queue, or a client's call on the address space. -/
inductive Act where
  | queue (c : MellowXe.Call)
  | memory (c : VirtualMemory.Call)

namespace Joint

variable {V T : Type}

def vm (j : Joint V T) : Sys VirtualMemory V VirtualMemory.Event := j.queue.env.vm

def setVm (j : Joint V T) (vm : Sys VirtualMemory V VirtualMemory.Event)
    (outside : Handle → Nat) : Joint V T :=
  { queue := { j.queue with env := { j.queue.env with vm := vm } }, outside := outside }

/-- The outside uses after a client's call came back. -/
def recounted (outside : Handle → Nat) (c : VirtualMemory.Call) (result : Status) : Handle → Nat :=
  match c, result with
  | .retainUse _ h, .ok => Function.update outside h (outside h + 1)
  | .releaseUse _ h, .ok => Function.update outside h (outside h - 1)
  | _, _ => outside

/-- The call would release a use that no outside client has. -/
def Unowned (outside : Handle → Nat) : VirtualMemory.Call → Prop
  | .releaseUse _ h => outside h = 0
  | _ => False

instance (outside : Handle → Nat) (c : VirtualMemory.Call) : Decidable (Unowned outside c) := by
  cases c <;> unfold Unowned <;> infer_instance

def act (io : VirtualMemory.Backend V) (transport : MellowXe.SubmissionBackend T)
    (j : Joint V T) : Act → Joint V T
  | .queue c =>
    { j with queue := (MellowXe.step (Bridge.backend transport) c j.queue).2 }
  | .memory c =>
    if Unowned j.outside c then j
    else
      let out := VirtualMemory.step io c j.vm
      j.setVm out.2 (recounted j.outside c out.1)

def start (owner context engine : Nat) (complete : Bool) (env : V) (transport : T) : Joint V T :=
  { queue := MellowXe.start owner context engine complete (Bridge.fresh env transport),
    outside := fun _ => 0 }

def run (io : VirtualMemory.Backend V) (transport : MellowXe.SubmissionBackend T)
    (acts : List Act) (j : Joint V T) : Joint V T :=
  acts.foldl (act io transport) j

end Joint

end Mellow.XeMemory
