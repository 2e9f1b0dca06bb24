import Mathlib.Tactic.Ring

/-!
# Memory of a Native GPU

The table of allocations a native GPU driver keeps, as far as its lookups read
it. A handle names a slot together with the generation and the device it was
made for. Pointers are numbers, and the null pointer is zero.

## Main definitions

* `MemoryView`: what is known of an allocation.
* `MemoryOwner`: the table.
* `inspect`: looking a handle up.
-/

namespace Mellow.MellowNative

inductive MemoryStatus
  | ok | unavailable | invalid | ownership | staleEpoch | capacity | busy | ioFailure
  | quarantined | clockRegression | unknown (code : Nat)
deriving DecidableEq, Repr

/-- A device as it was admitted: its numbers and its epoch. -/
structure DeviceIdentity where
  vendor : Nat
  device : Nat
  registryId : Nat
  epoch : Nat
deriving DecidableEq, Repr

inductive MemoryState
  | empty | pinned | mapped | retiring | quarantined
deriving DecidableEq, Repr

structure MemoryHandle where
  slot : Nat
  generation : Nat
  registryId : Nat
  epoch : Nat
deriving DecidableEq, Repr

structure DmaPin where
  cookie : Nat
  cpu : Nat
  pages : Nat
  pageCount : Nat
  bytes : Nat
  deviceRegistryId : Nat
deriving DecidableEq, Repr

structure GpuMapping where
  cookie : Nat
  address : Nat
  bytes : Nat
  writable : Bool
deriving DecidableEq, Repr

structure MemoryView where
  device : DeviceIdentity
  handle : MemoryHandle
  owner : Nat
  bytes : Nat
  state : MemoryState
  pin : DmaPin
  mapping : GpuMapping
  jobHolds : Nat
deriving DecidableEq, Repr

structure Slot where
  view : MemoryView
deriving DecidableEq, Repr

def maxAllocations : Nat := 32

structure MemoryOwner where
  slots : Nat → Slot
  device : DeviceIdentity
  initialized : Bool
  draining : Bool

namespace MemoryOwner

def lookup (m : MemoryOwner) (owner : Nat) (h : MemoryHandle) : Except MemoryStatus Nat :=
  if m.initialized = false ∨ owner = 0 ∨ h.slot ≥ maxAllocations ∨ h.generation = 0 then
    .error .invalid
  else if h.registryId ≠ m.device.registryId then .error .ownership
  else if h.epoch ≠ m.device.epoch then .error .staleEpoch
  else if (m.slots h.slot).view.state = .empty ∨ (m.slots h.slot).view.owner ≠ owner ∨
      (m.slots h.slot).view.handle.generation ≠ h.generation then .error .ownership
  else .ok h.slot

def inspect (m : MemoryOwner) (owner : Nat) (h : MemoryHandle) : Except MemoryStatus MemoryView :=
  (m.lookup owner h).map fun i => (m.slots i).view

end MemoryOwner

end Mellow.MellowNative
