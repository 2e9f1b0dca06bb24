import Mellow.Native.Memory.Model

/-!
# Channels

What a channel of the GPU is bound to, and what its queue answers, as far as the
sealing of pushbuffers reads it.

## Main definitions

* `QueueStatus`: the answers.
* `ChannelBinding`: what a channel is bound to.
-/

namespace Mellow.MellowNativeNvidia

open MellowNative (DeviceIdentity MemoryHandle MemoryView)

/-- A callback may return a value without a name. -/
inductive QueueStatus
  | ok | unavailable | invalid | unsupportedClass | unsupportedChannel | ownership
  | memoryFailure | capacity | busy | transportFailure | publicationUnknown | staleToken
  | invalidFence | sequenceExhausted | timedOut | clockRegression | quiesceFailed
  | unknown (code : Nat)
deriving DecidableEq, Repr

inductive ChannelMode
  | ordinary | proxy | confidential | workLaunch | unsupported
deriving DecidableEq, Repr

inductive RingDomain
  | coherentSystem | noncoherentSystem | video | unsupported
deriving DecidableEq, Repr

structure ChannelBinding where
  device : DeviceIdentity
  owner : Nat
  vm : Nat
  channel : Nat
  channelGeneration : Nat
  channelClass : Nat
  ring : MemoryHandle
  fence : MemoryHandle
  fenceOffset : Nat
deriving DecidableEq, Repr

structure PushbufferRange where
  offset : Nat
  commandBytes : Nat
  capacityBytes : Nat
deriving DecidableEq, Repr

end Mellow.MellowNativeNvidia
