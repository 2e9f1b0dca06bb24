import Mellow.Lib.Prog
import Mellow.Xe.Encoding

/-!
# The GPU Address Space

`XeMemory::VirtualMemory` from `Mellow/XeMemory.cpp`: a table of allocations
that are reserved, pinned, bound, used, retired and reclaimed. The table is the
caller's array, so its length is a field. Null callbacks are flags of the
object. `unpin` takes its argument by reference, so its answer carries the pin
it left; the DMA addresses of a pin are read when the code reads them.

Two lines of the log are not callbacks: `issued`, when a slot is filled in, and
`freed`, when it is handed back (`*a = Allocation {}` in the source). No sum
wraps: `Span` and `alignUp` are tested first.

## Main definitions

* `Allocation`: a slot.
* `VirtualMemory`: the fields of the class.
* `bind`: mapping an allocation.
* `reclaim`: giving one back.
* `run`: any calls.
-/

namespace Mellow.XeMemory

open Lib

inductive State where
  | free | excluded | reserved | pinned | bound | retiring | quarantined
  deriving DecidableEq, Repr

structure Handle where
  slot : Nat
  generation : Nat
  deriving DecidableEq, Repr

structure Fence where
  timeline : Nat
  value : Nat
  deriving DecidableEq, Repr

/-- Pinned memory. The pointers are addresses, zero standing for null. -/
structure Pin where
  cookie : Nat
  dmaPages : Nat
  pageCount : Nat
  deriving DecidableEq, Repr

def Pin.empty : Pin := ⟨0, 0, 0⟩

structure Allocation where
  state : State
  owner : Nat
  generation : Nat
  address : Nat
  bytes : Nat
  activeUses : Nat
  pin : Pin
  lastUse : Fence
  deriving DecidableEq, Repr

def Allocation.empty : Allocation :=
  { state := .free, owner := 0, generation := 0, address := 0, bytes := 0, activeUses := 0,
    pin := Pin.empty, lastUse := ⟨0, 0⟩ }

def Allocation.Meets (a : Allocation) (address bytes : Nat) : Prop :=
  a.state ≠ .free ∧ address < a.address + a.bytes ∧ a.address < address + bytes
  deriving Decidable

/-- Some field of the pin is set: the backend let go of something. -/
def Pin.Escaped (p : Pin) : Prop := p.cookie ≠ 0 ∨ p.dmaPages ≠ 0 ∨ p.pageCount ≠ 0
  deriving Decidable

def Pin.Covers (p : Pin) (bytes : Nat) : Prop :=
  p.cookie ≠ 0 ∧ p.dmaPages ≠ 0 ∧ p.pageCount = bytes / pageSize
  deriving Decidable

def Allocation.retainUse (a : Allocation) : Except Status Allocation :=
  if a.state ≠ .bound then .error .busy
  else if a.activeUses = 2 ^ 32 - 1 then .error .noSpace
  else .ok { a with activeUses := a.activeUses + 1 }

def Allocation.releaseUse (a : Allocation) : Except Status Allocation :=
  if a.state ≠ .bound ∧ a.state ≠ .retiring then .error .busy
  else if a.activeUses = 0 then .error .invalid
  else .ok { a with activeUses := a.activeUses - 1 }

def Allocation.recordUse (fence : Fence) (a : Allocation) : Except Status Allocation :=
  if a.state ≠ .bound then .error .busy
  else if fence.timeline = 0 ∨ fence.value = 0 ∨
      (a.lastUse.timeline ≠ 0 ∧ a.lastUse.timeline ≠ fence.timeline) ∨
      fence.value ≤ a.lastUse.value then .error .invalid
  else .ok { a with lastUse := fence }

def Allocation.retire (a : Allocation) : Except Status Allocation :=
  if a.state = .retiring then .ok a
  else if a.state ≠ .bound then .error .busy
  else .ok { a with state := .retiring }

/-- Which callbacks are not null, and the PAT indices vouched for. -/
structure Callbacks where
  pin : Bool
  unpin : Bool
  bind : Bool
  unbind : Bool
  fenceComplete : Bool
  verifiedPatIndices : Nat
  deriving DecidableEq, Repr

structure VirtualMemory where
  slots : Nat → Allocation
  capacity : Nat
  first : Nat
  limit : Nat
  nextGeneration : Nat
  backend : Callbacks
  /-- `slots_` is not null. -/
  ready : Bool

namespace VirtualMemory

def fresh : VirtualMemory :=
  { slots := fun _ => Allocation.empty, capacity := 0, first := 0, limit := 0,
    nextGeneration := 1, backend := ⟨false, false, false, false, false, 0⟩, ready := false }

/-- What the callbacks answer; `dma` is the memory `dmaPages` points to. -/
structure Backend (E : Type) where
  pin : Nat → Nat → E → (Status × Pin) × E
  unpin : Pin → E → (Status × Pin) × E
  bind : Nat → Pin → Nat → Bool → E → Status × E
  unbind : Nat → Nat → E → Status × E
  fenceComplete : Fence → E → Bool × E
  dma : E → Nat → Nat → Nat

/-- A callback made for a slot, or a slot filled in or handed back. -/
inductive Event where
  | pin (slot owner bytes : Nat) (result : Status) (p : Pin)
  | unpin (slot : Nat) (p : Pin) (result : Status)
  | bind (slot address : Nat) (p : Pin) (pat : Nat) (writable : Bool) (result : Status)
  | unbind (slot address bytes : Nat) (result : Status)
  | fenceComplete (slot : Nat) (fence : Fence) (answer : Bool)
  | issued (slot generation : Nat)
  | freed (slot generation : Nat)
  deriving DecidableEq, Repr

/-- A memory with its environment and its log. -/
abbrev World (E : Type) := Sys VirtualMemory E Event

abbrev Log := List (Entry VirtualMemory Event)

abbrev Op (E α : Type) := Prog VirtualMemory E Event α

section Addresses

def PowerOfTwo (value : Nat) : Prop := value ≠ 0 ∧ value &&& (value - 1) = 0
  deriving Decidable

def alignUp (value alignment : Nat) : Option Nat :=
  if ¬ PowerOfTwo alignment ∨ value > 2 ^ 64 - 1 - (alignment - 1) then none
  else some (Lib.alignUp value alignment)

def Available (vm : VirtualMemory) (address bytes : Nat) : Prop :=
  vm.ready = true ∧ vm.first ≤ address ∧ Span address bytes vm.limit ∧
    address % pageSize = 0 ∧ bytes % pageSize = 0 ∧
    ∀ i < vm.capacity, ¬ (vm.slots i).Meets address bytes

instance (vm : VirtualMemory) (address bytes : Nat) : Decidable (vm.Available address bytes) :=
  inferInstanceAs (Decidable (_ ∧ _))

/-- One pass of `reserve`: past every slot the candidate meets. -/
def next (vm : VirtualMemory) (candidate bytes : Nat) : Nat :=
  (List.range vm.capacity).foldl (fun next i =>
    let a := vm.slots i
    if a.Meets candidate bytes ∧ a.address + a.bytes > next then a.address + a.bytes
    else next) candidate

/-- The loop of `reserve`; `limit` turns are enough. -/
def search (vm : VirtualMemory) (bytes alignment : Nat) : Nat → Nat → Option Nat
  | 0, _ => none
  | fuel + 1, candidate =>
    if Span candidate bytes vm.limit then
      let next := vm.next candidate bytes
      if next = candidate then some candidate
      else (alignUp next alignment).bind (vm.search bytes alignment fuel)
    else none

end Addresses

section Table

variable (vm : VirtualMemory)

def setSlot (i : Nat) (a : Allocation) : VirtualMemory :=
  { vm with slots := Function.update vm.slots i a }

def freeSlot : Option Nat :=
  (List.range vm.capacity).find? fun i => (vm.slots i).state = .free

def allocation (owner address bytes : Nat) (state : State) : Allocation :=
  { Allocation.empty with state := state, owner := owner, address := address, bytes := bytes,
                          generation := vm.nextGeneration }

/-- `lookup`: resolve a handle to a slot its owner may act on. -/
def lookup (owner : Nat) (h : Handle) : Except Status Nat :=
  if vm.ready = false ∨ h.slot ≥ vm.capacity ∨ h.generation = 0 then .error .notFound
  else
    let a := vm.slots h.slot
    if a.state = .free ∨ a.state = .excluded ∨ a.generation ≠ h.generation then .error .notFound
    else if owner = 0 ∨ a.owner ≠ owner then .error .wrongOwner
    else if a.state = .quarantined then .error .quarantined
    else .ok h.slot

def inspect (owner : Nat) (h : Handle) : Option Allocation :=
  if vm.ready = false ∨ h.slot ≥ vm.capacity ∨ h.generation = 0 ∨ owner = 0 then none
  else
    let a := vm.slots h.slot
    if a.state ≠ .free ∧ a.state ≠ .excluded ∧ a.generation = h.generation ∧ a.owner = owner
    then some a else none

end Table

variable {E : Type}

section Callbacks

def update (i : Nat) (f : Allocation → Allocation) : Op E Unit :=
  edit fun vm => vm.setSlot i (f (vm.slots i))

def quarantine (i : Nat) : Op E Status := do
  update i fun a => { a with state := .quarantined }
  return .quarantined

/-- The same, with the pin the slot is left to keep. -/
def quarantineWith (i : Nat) (p : Pin) : Op E Status := do
  update i fun a => { a with pin := p, state := .quarantined }
  return .quarantined

def askPin (io : Backend E) (i owner bytes : Nat) : Op E (Status × Pin) :=
  ask (io.pin owner bytes) fun r => .pin i owner bytes r.1 r.2

def askUnpin (io : Backend E) (i : Nat) (p : Pin) : Op E (Status × Pin) :=
  ask (io.unpin p) fun r => .unpin i p r.1

/-- The check `pin` makes of what it was given. -/
def valid (io : Backend E) (p : Pin) (bytes : Nat) : Op E Bool :=
  if p.Covers bytes then
    peek fun e => (List.range p.pageCount).all fun k => DmaPage (io.dma e p.dmaPages k)
  else return false

end Callbacks

section Reserve

def insert (owner address bytes : Nat) (state : State) : Op E (Except Status Handle) := do
  let vm ← look
  if ¬ vm.Available address bytes then return .error .invalid
  if vm.nextGeneration = 0 ∨ vm.nextGeneration = 2 ^ 64 - 1 then return .error .noSpace
  match vm.freeSlot with
  | none => return .error .noSpace
  | some i =>
    note (.issued i vm.nextGeneration)
    edit fun vm => { vm.setSlot i (vm.allocation owner address bytes state) with
                     nextGeneration := vm.nextGeneration + 1 }
    return .ok ⟨i, vm.nextGeneration⟩

def exclude (address bytes : Nat) : Op E (Except Status Handle) := insert 0 address bytes .excluded

def reserveAt (owner address bytes : Nat) : Op E (Except Status Handle) := do
  if owner = 0 then return .error .invalid
  insert owner address bytes .reserved

def reserve (owner bytes alignment : Nat) : Op E (Except Status Handle) := do
  let vm ← look
  if vm.ready = false ∨ owner = 0 ∨ bytes = 0 ∨ bytes % pageSize ≠ 0 ∨ alignment < pageSize ∨
      ¬ PowerOfTwo alignment then return .error .invalid
  match (alignUp vm.first alignment).bind (vm.search bytes alignment (vm.limit + 1)) with
  | none => return .error .noSpace
  | some candidate => insert owner candidate bytes .reserved

end Reserve

section Backing

def pin (io : Backend E) (owner : Nat) (h : Handle) : Op E Status := do
  let vm ← look
  match vm.lookup owner h with
  | .error e => return e
  | .ok i =>
    if (vm.slots i).state ≠ .reserved then return .busy
    if !vm.backend.pin || !vm.backend.unpin then return .unavailable
    let (result, pinned) ← askPin io i owner (vm.slots i).bytes
    if result ≠ .ok then
      -- A refusal that still hands something over is kept, not repeated.
      if pinned.Escaped then quarantineWith i pinned else return result
    else
      if ← valid io pinned (vm.slots i).bytes then
        update i fun a => { a with pin := pinned, state := .pinned }
        return .ok
      else
        let (undone, left) ← askUnpin io i pinned
        if undone ≠ .ok then quarantineWith i left else return .backendFailure

def bind (io : Backend E) (owner : Nat) (h : Handle) (pat : Nat) (writable : Bool) :
    Op E Status := do
  let vm ← look
  match vm.lookup owner h with
  | .error e => return e
  | .ok i =>
    let a := vm.slots i
    if a.state ≠ .pinned then return .busy
    if pat > 15 then return .invalid
    if !vm.backend.bind || !vm.backend.unbind ||
        vm.backend.verifiedPatIndices &&& (1 <<< pat) == 0 then return .unavailable
    let result ← ask (io.bind a.address a.pin pat writable)
      fun r => .bind i a.address a.pin pat writable r
    if result = .ok then
      update i fun a => { a with state := .bound }
      return .ok
    else if result ≠ .unavailable then quarantine i
    else return result

end Backing

section Uses

variable (owner : Nat)

/-- The shape of the four operations that only change the table. -/
def onSlot (h : Handle) (f : Allocation → Except Status Allocation) : Op E Status := do
  let vm ← look
  match vm.lookup owner h with
  | .error e => return e
  | .ok i =>
    match f (vm.slots i) with
    | .error e => return e
    | .ok a =>
      update i fun _ => a
      return .ok

def retainUse (h : Handle) : Op E Status := onSlot owner h Allocation.retainUse

def releaseUse (h : Handle) : Op E Status := onSlot owner h Allocation.releaseUse

def recordUse (h : Handle) (fence : Fence) : Op E Status :=
  onSlot owner h (Allocation.recordUse fence)

def retire (h : Handle) : Op E Status := onSlot owner h Allocation.retire

end Uses

section Reclaim

def free (i : Nat) : Op E Status := do
  note (.freed i ((← look).slots i).generation)
  update i fun _ => Allocation.empty
  return .ok

def reclaimPinned (io : Backend E) (i : Nat) : Op E Status := do
  let vm ← look
  if !vm.backend.unpin then quarantine i
  else
    let (result, left) ← askUnpin io i (vm.slots i).pin
    if result ≠ .ok then quarantineWith i left else free i

/-- Whether the last recorded use is over. A refusal is the status to return. -/
def fenceDone (io : Backend E) (i : Nat) : Op E (Except Status Unit) := do
  let vm ← look
  let fence := (vm.slots i).lastUse
  if fence.value = 0 then return .ok ()
  if !vm.backend.fenceComplete then return .error .unavailable
  if ← ask (io.fenceComplete fence) (fun b => .fenceComplete i fence b) then return .ok ()
  else return .error .busy

def reclaimRetiring (io : Backend E) (i : Nat) : Op E Status := do
  let vm ← look
  let a := vm.slots i
  if a.activeUses ≠ 0 then return .busy
  match ← fenceDone io i with
  | .error e => return e
  | .ok () =>
    if !vm.backend.unbind then return .unavailable
    let result ← ask (io.unbind a.address a.bytes) fun r => .unbind i a.address a.bytes r
    if result = .unavailable then return result
    if result ≠ .ok then quarantine i
    else
      update i fun a => { a with state := .pinned }
      reclaimPinned io i

def reclaim (io : Backend E) (owner : Nat) (h : Handle) : Op E Status := do
  let vm ← look
  match vm.lookup owner h with
  | .error e => return e
  | .ok i =>
    match (vm.slots i).state with
    | .bound => return .busy
    | .retiring => reclaimRetiring io i
    | .pinned => reclaimPinned io i
    | _ => free i

end Reclaim

section Calls

def Geometry (capacity first limit : Nat) : Prop :=
  capacity ≠ 0 ∧ first < limit ∧ limit ≤ vaLimit ∧ first % pageSize = 0 ∧ limit % pageSize = 0
  deriving Decidable

/-- `initialize`. The slots are part of the object, so none are null. -/
def initializeMemory (capacity first limit : Nat) (backend : Callbacks) : Op E Status := do
  if (← look).ready then return .busy
  if ¬ Geometry capacity first limit then return .invalid
  edit fun vm =>
    { vm with slots := fun _ => Allocation.empty, capacity := capacity, first := first,
              limit := limit, backend := backend, ready := true }
  return .ok

inductive Call where
  | initializeMemory (capacity first limit : Nat) (backend : Callbacks)
  | exclude (address bytes : Nat)
  | reserveAt (owner address bytes : Nat)
  | reserve (owner bytes alignment : Nat)
  | pin (owner : Nat) (h : Handle)
  | bind (owner : Nat) (h : Handle) (pat : Nat) (writable : Bool)
  | retainUse (owner : Nat) (h : Handle)
  | releaseUse (owner : Nat) (h : Handle)
  | recordUse (owner : Nat) (h : Handle) (fence : Fence)
  | retire (owner : Nat) (h : Handle)
  | reclaim (owner : Nat) (h : Handle)
  deriving DecidableEq, Repr

def step (io : Backend E) : Call → Op E Status
  | .initializeMemory capacity first limit backend =>
    initializeMemory capacity first limit backend
  | .exclude address bytes => do return statusOf (← exclude address bytes)
  | .reserveAt owner address bytes => do return statusOf (← reserveAt owner address bytes)
  | .reserve owner bytes alignment => do return statusOf (← reserve owner bytes alignment)
  | .pin owner h => pin io owner h
  | .bind owner h pat writable => bind io owner h pat writable
  | .retainUse owner h => retainUse owner h
  | .releaseUse owner h => releaseUse owner h
  | .recordUse owner h fence => recordUse owner h fence
  | .retire owner h => retire owner h
  | .reclaim owner h => reclaim io owner h

def start (env : E) : World E :=
  { obj := fresh, env := env, log := [] }

def run (io : Backend E) (calls : List Call) (env : E) : World E :=
  (runAll (step io) calls (start env)).2

end Calls

end VirtualMemory

end Mellow.XeMemory
