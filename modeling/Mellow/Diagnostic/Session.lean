import Mellow.Lib.Logs
import Mellow.Xe.VirtualMemory.Model

/-!
# The Diagnostic Session

`MellowDiagnostic::Session` from `Mellow/TahoeDiagnosticProtocol.cpp`: one
client at a time may have one buffer pinned, look at it and give it back.
Requests come from user clients, so nothing in them is trusted.

The backend pins memory through a record that it is handed by reference. It may
fail and fill the record in all the same, or succeed and leave it. The session
goes by the record: while any field is set, there is something to give back.
Each use of the backend is logged with both records; `issued` stands where a
handle is given out.

## Main definitions

* `Session`: the fields of the class.
* `Ops`: the backend.
* `step`: one request.
* `run`: any sequence of them.
-/

namespace Mellow.MellowDiagnostic

open Lib

def abiVersion : Nat := 1
def maxBytes : Nat := 1024 * 1024
def requestSize : Nat := 32
def replySize : Nat := 88

inductive State where
  | cold | ready | allocated | faulted | stopped
  deriving DecidableEq, Repr

inductive Status where
  | ok | invalid | unavailable | busy | backendFailure | quarantined
  deriving DecidableEq, Repr

structure Identity where
  vendor : Nat
  device : Nat
  architecture : Nat
  release : Nat
  deriving DecidableEq, Repr

structure Request where
  version : Nat
  size : Nat
  handle : Nat
  bytes : Nat
  reserved : Nat
  deriving DecidableEq, Repr

structure Reply where
  version : Nat
  size : Nat
  status : Status
  state : State
  diagnosticCapabilities : Nat
  allocationHandle : Nat
  allocationBytes : Nat
  pageCount : Nat
  vendor : Nat
  device : Nat
  gmdArchitecture : Nat
  gmdRelease : Nat
  readinessEvidence : Nat
  gpuSubmissionSupported : Nat
  metalSupported : Nat
  deriving DecidableEq, Repr

structure Session where
  identity : Identity
  backend : XeMemory.Callbacks
  pin : XeMemory.Pin
  owner : Nat
  nextHandle : Nat
  handle : Nat
  bytes : Nat
  evidence : Nat
  state : State
  stopped : Bool
  deriving DecidableEq, Repr

namespace Session

def fresh : Session :=
  { identity := ⟨0, 0, 0, 0⟩, backend := ⟨false, false, false, false, false, 0⟩,
    pin := XeMemory.Pin.empty, owner := 0, nextHandle := 1, handle := 0, bytes := 0, evidence := 0,
    state := .cold, stopped := false }

def Owns (s : Session) (owner : Nat) : Prop := owner ≠ 0 ∧ s.owner = owner
  deriving Decidable

def HasResources (s : Session) : Prop := s.pin.Escaped
  deriving Decidable

def evidenceMask : Nat := 1 <<< 0 ||| 1 <<< 2 ||| 1 <<< 3 ||| 1 <<< 4

def supported (id : Identity) : Prop :=
  id.vendor = 0x8086 ∧ id.device = 0x7d41 ∧ id.architecture = 12 ∧ id.release = 70
  deriving Decidable

def describe (s : Session) (status : Status) : Reply :=
  { version := abiVersion
    size := replySize
    status := status
    state := s.state
    diagnosticCapabilities :=
      if s.stopped = false ∧ s.state ≠ .cold then
        if s.backend.pin = true ∧ s.backend.unpin = true ∧ s.state ≠ .faulted then 1 ||| 2 else 1
      else 0
    allocationHandle := s.handle
    allocationBytes := s.bytes
    pageCount := s.pin.pageCount
    vendor := s.identity.vendor
    device := s.identity.device
    gmdArchitecture := s.identity.architecture
    gmdRelease := s.identity.release
    readinessEvidence := s.evidence
    gpuSubmissionSupported := 0
    metalSupported := 0 }

end Session

/-- The request has the shape its selector asks for. -/
def wellFormed (selector : Nat) (r : Request) : Prop :=
  r.version = abiVersion ∧ r.size = requestSize ∧ r.reserved = 0 ∧ selector ≤ 2 ∧
    ¬ (selector = 0 ∧ (r.handle ≠ 0 ∨ r.bytes ≠ 0)) ∧
    ¬ (selector = 1 ∧ (r.handle ≠ 0 ∨ r.bytes = 0 ∨ r.bytes > maxBytes ∨ r.bytes &&& 4095 ≠ 0)) ∧
    ¬ (selector = 2 ∧ (r.handle = 0 ∨ r.bytes ≠ 0))
  deriving Decidable

/-- What the backend answers; `dma` is the memory `dmaPages` points to. -/
structure Ops (E : Type) where
  pin : Nat → Nat → XeMemory.Pin → E → (XeMemory.Status × XeMemory.Pin) × E
  unpin : XeMemory.Pin → E → (XeMemory.Status × XeMemory.Pin) × E
  dma : E → Nat → Nat → Nat

/-- A use of the backend with both records, or a handle that was given out. -/
inductive Event where
  | pin (owner bytes : Nat) (given : XeMemory.Pin) (result : XeMemory.Status) (left : XeMemory.Pin)
  | unpin (given : XeMemory.Pin) (result : XeMemory.Status) (left : XeMemory.Pin)
  | issued (handle : Nat)
  deriving DecidableEq, Repr

/-- A session with its environment and its log. -/
abbrev World (E : Type) := Sys Session E Event

abbrev Log := List (Entry Session Event)

abbrev Op (E α : Type) := Prog Session E Event α

section Operations

variable {E : Type}

variable (io : Ops E)

def askPin (owner bytes : Nat) (given : XeMemory.Pin) : Op E XeMemory.Status := do
  let r ← ask (io.pin owner bytes given) fun r => .pin owner bytes given r.1 r.2
  edit fun s => { s with pin := r.2 }
  return r.1

def askUnpin (given : XeMemory.Pin) : Op E XeMemory.Status := do
  let r ← ask (io.unpin given) fun r => .unpin given r.1 r.2
  edit fun s => { s with pin := r.2 }
  return r.1

def quarantine : Op E Status := do
  edit fun s => { s with state := .faulted }
  return .quarantined

def releaseAllocation : Op E Status := do
  let s ← look
  if ¬ s.HasResources then return .ok
  if s.backend.unpin = false then return ← quarantine
  let result ← askUnpin io s.pin
  let s ← look
  if result ≠ .ok ∨ s.HasResources then return ← quarantine
  edit fun s => { s with
    handle := 0, bytes := 0, state := if s.stopped = true then .stopped else .ready }
  return .ok

/-- `initialize`. -/
def initializeSession (id : Identity) (bar : Bool) (backend : XeMemory.Callbacks) (evidence : Nat) :
    Op E Bool := do
  let s ← look
  if s.state ≠ .cold ∨ s.stopped = true ∨ bar = false ∨ ¬ Session.supported id then return false
  edit fun s => { s with
    identity := id, backend := backend, evidence := evidence &&& Session.evidenceMask,
    state := .ready }
  return true

/-- `open`. -/
def openSession (owner : Nat) : Op E Bool := do
  let s ← look
  if owner = 0 ∨ s.owner ≠ 0 ∨ s.stopped = true ∨ s.state ≠ .ready ∨ s.HasResources then
    return false
  edit fun s => { s with owner := owner }
  return true

def close (owner : Nat) : Op E Status := do
  let s ← look
  if ¬ s.Owns owner then return .invalid
  edit fun s => { s with owner := 0 }
  releaseAllocation io

def stop : Op E Status := do
  edit fun s => { s with stopped := true, owner := 0 }
  let status ← releaseAllocation io
  if status = .ok then edit fun s => { s with state := .stopped }
  return status

def describe (status : Status) : Op E Reply := do
  let s ← look
  return s.describe status

/-- The check `call` makes of a pin. -/
def valid (p : XeMemory.Pin) (bytes : Nat) : Op E Bool :=
  if p.Covers bytes then
    peek fun e => (List.range p.pageCount).all fun k =>
      io.dma e p.dmaPages k &&& 4095 = 0 ∧ io.dma e p.dmaPages k < XeMemory.dmaLimit
  else return false

def allocate (bytes : Nat) : Op E Reply := do
  let s ← look
  if s.state ≠ .ready ∨ s.HasResources then return ← describe .busy
  if s.backend.pin = false ∨ s.backend.unpin = false then return ← describe .unavailable
  if s.nextHandle = 0 ∨ s.nextHandle = 2 ^ 64 - 1 then return ← describe .unavailable
  let result ← askPin io s.owner bytes s.pin
  let s ← look
  if result ≠ .ok then
    if s.HasResources then
      edit fun s => { s with state := .faulted }
      return ← describe .quarantined
    return ← describe .backendFailure
  let sound ← valid io s.pin bytes
  if sound = false then
    let status ← releaseAllocation io
    return ← describe (if status = .ok then .backendFailure else status)
  note (.issued s.nextHandle)
  edit fun s => { s with
    handle := s.nextHandle, nextHandle := s.nextHandle + 1, bytes := bytes, state := .allocated }
  describe .ok

def call (owner selector : Nat) (r : Request) : Op E Reply := do
  if ¬ wellFormed selector r then return ← describe .invalid
  let s ← look
  if ¬ s.Owns owner ∨ s.stopped = true then return ← describe .unavailable
  if selector = 0 then return ← describe .ok
  if selector = 2 then
    if r.handle = s.handle ∧ s.HasResources then
      let status ← releaseAllocation io
      return ← describe status
    return ← describe .invalid
  allocate io r.bytes

end Operations

section Calls

variable {E : Type}

inductive Call where
  | initializeSession (id : Identity) (bar : Bool) (backend : XeMemory.Callbacks) (evidence : Nat)
  | openSession (owner : Nat)
  | close (owner : Nat)
  | stop
  | call (owner selector : Nat) (r : Request)
  deriving DecidableEq

inductive Answer where
  | done (ok : Bool)
  | status (st : Status)
  | reply (r : Reply)
  deriving DecidableEq, Repr

def step (io : Ops E) : Call → Op E Answer
  | .initializeSession id bar backend evidence => do
    return .done (← initializeSession id bar backend evidence)
  | .openSession owner => do return .done (← openSession owner)
  | .close owner => do return .status (← close io owner)
  | .stop => do return .status (← stop io)
  | .call owner selector r => do return .reply (← call io owner selector r)

def start (env : E) : World E := { obj := Session.fresh, env := env, log := [] }

def run (io : Ops E) (calls : List Call) (s : World E) :
    List Answer × World E :=
  runAll (step io) calls s

end Calls

end Mellow.MellowDiagnostic
