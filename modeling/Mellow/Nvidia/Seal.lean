import Mellow.Nvidia.Channel
import Mellow.Nvidia.Engine

/-!
# Sealing a Copy

`sealCopyPushbuffer` decides whether a pushbuffer may be handed to the GPU. It
looks the allocations up again, asks the owner of the channel, reads the copy
from memory, encodes it itself and compares: only the exact packet passes. What
it appends waits for the copy and writes the fence. The CPU's view of memory is
one function from addresses to bytes.

## Main definitions

* `admission`: the checks before the words are read, in the order of the source.
* `sealCopyPushbuffer`: the decision.
* `Written`: what a sealed pushbuffer does.

## Theorems

* `sealCopyPushbuffer_exact`: it is sealed exactly where all is in order.
-/

namespace Mellow.MellowNativeNvidia

open Lib MellowNative MellowNvidia

variable {held : Held} {i j n : Nat}

structure CopyEngineObservation where
  device : DeviceIdentity
  owner : Nat
  vm : Nat
  channel : Nat
  channelGeneration : Nat
  channelClass : Nat
  ceClass : Nat
  ceSubchannel : Nat
  mode : ChannelMode
  memoryDomain : RingDomain
deriving DecidableEq, Repr

/-- What the sealing works with. The callback only looks. -/
structure CopySealerContext where
  memory : Option MemoryOwner
  authority : Nat
  resolveEngineAndVm : Option (ChannelBinding → MemoryView → MemoryView × MemoryView → MemoryView →
    QueueStatus × CopyEngineObservation)

def copyInputWords : Nat := 11
def copySealedWords : Nat := 24
def copyInputBytes : Nat := copyInputWords * 4
def copySealedBytes : Nat := copySealedWords * 4

def sameDevice (a b : DeviceIdentity) : Bool :=
  decide (a.vendor = b.vendor) && decide (a.device = b.device) &&
    decide (a.registryId = b.registryId) && decide (a.epoch = b.epoch)

def sameHandle (a b : MemoryHandle) : Bool :=
  decide (a.slot = b.slot) && decide (a.generation = b.generation) &&
    decide (a.registryId = b.registryId) && decide (a.epoch = b.epoch)

def span (offset bytes limit : Nat) : Bool :=
  decide (bytes ≠ 0) && decide (offset ≤ limit) && decide (bytes ≤ limit - offset)

def readLittleEndian (ram : Nat → UInt8) (p : Nat) : Nat :=
  (ram p).toNat ||| (ram (p + 1)).toNat <<< 8 ||| (ram (p + 2)).toNat <<< 16 |||
    (ram (p + 3)).toNat <<< 24

def writeLittleEndian (ram : Nat → UInt8) (p value : Nat) : Nat → UInt8 :=
  (List.range 4).foldl (fun r i => Function.update r (p + i) (UInt8.ofNat (value >>> (i * 8)))) ram

def actualView (memory : MemoryOwner) (binding : ChannelBinding) (provided : MemoryView) :
    Option MemoryView :=
  match memory.inspect binding.owner provided.handle with
  | .error _ => none
  | .ok actual =>
    if sameDevice actual.device binding.device && sameDevice actual.device provided.device &&
        sameHandle actual.handle provided.handle && decide (actual.owner = binding.owner) &&
        decide (actual.owner = provided.owner) && decide (actual.state = .mapped) &&
        decide (actual.state = provided.state) && decide (actual.jobHolds ≠ 0) &&
        decide (actual.jobHolds = provided.jobHolds) && decide (actual.bytes = provided.bytes) &&
        decide (actual.pin.cookie ≠ 0) && decide (actual.pin.cookie = provided.pin.cookie) &&
        decide (actual.pin.cpu ≠ 0) && decide (actual.pin.cpu = provided.pin.cpu) &&
        decide (actual.pin.pages = provided.pin.pages) &&
        decide (actual.pin.pageCount = provided.pin.pageCount) &&
        decide (actual.pin.bytes = actual.bytes) &&
          decide (actual.pin.bytes = provided.pin.bytes) &&
        decide (actual.pin.deviceRegistryId = binding.device.registryId) &&
        decide (actual.pin.deviceRegistryId = provided.pin.deviceRegistryId) &&
        decide (actual.mapping.cookie ≠ 0) &&
        decide (actual.mapping.cookie = provided.mapping.cookie) &&
        decide (actual.mapping.address = provided.mapping.address) &&
        decide (actual.mapping.bytes = actual.bytes) &&
        decide (actual.mapping.bytes = provided.mapping.bytes) &&
        decide (actual.mapping.writable = provided.mapping.writable) then some actual
    else none

/-- The views and the engine the checks end up with. -/
structure Held where
  commands : MemoryView
  source : MemoryView
  destination : MemoryView
  fence : MemoryView
  engine : CopyEngineObservation

def refuse (bad : Bool) (status : QueueStatus) : Except QueueStatus Unit :=
  if bad then .error status else .ok ()

def require {α : Type} (value : Option α) (status : QueueStatus) : Except QueueStatus α :=
  match value with
  | some a => .ok a
  | none => .error status

variable (binding : ChannelBinding) (range : PushbufferRange)

def badArguments (resourceCount : Nat) (provided : Option (MemoryView × MemoryView))
    (fencePayload : UInt32) : Bool :=
  decide (binding.device.vendor ≠ 0x10de) || decide (binding.device.device = 0) ||
    decide (binding.device.device = 2 ^ 16 - 1) || decide (binding.device.registryId = 0) ||
    decide (binding.device.epoch = 0) || decide (binding.owner = 0) || decide (binding.vm = 0) ||
    decide (binding.channel = 0) || decide (binding.channelGeneration = 0) ||
    decide (fencePayload = 0) || decide (resourceCount ≠ 2) || provided.isNone ||
    decide (range.commandBytes ≠ copyInputBytes) || decide (range.offset % 4 ≠ 0) ||
    decide (range.capacityBytes % 4 ≠ 0)

def sharedHandles (commands source destination : MemoryView) : Bool :=
  sameHandle commands.handle binding.ring || sameHandle commands.handle binding.fence ||
    sameHandle source.handle destination.handle ||
    ([source, destination].any fun resource =>
      sameHandle resource.handle commands.handle || sameHandle resource.handle binding.ring ||
        sameHandle resource.handle binding.fence)

def badRange (commands : MemoryView) : Bool :=
  decide (range.capacityBytes > PortedNvidia.gpfifoBytesMax) ||
    !span range.offset range.capacityBytes commands.bytes ||
    decide (commands.mapping.address > 2 ^ 64 - 1 - range.offset)

def badFetch (commands : MemoryView) : Bool :=
  decide (commands.mapping.address + range.offset > PortedNvidia.gpfifoAddressMax) ||
    decide (copySealedBytes - 1 >
      PortedNvidia.gpfifoAddressMax - (commands.mapping.address + range.offset))

/-- The address is not that of the fence, or the fence is not usable. -/
def badFence (fence : MemoryView) (fenceGpuAddress : Nat) : Bool :=
  !sameDevice fence.device binding.device || decide (fence.state ≠ .mapped) ||
    decide (fence.jobHolds = 0) || decide (fence.pin.cookie = 0) || decide (fence.pin.cpu = 0) ||
    decide (fence.mapping.cookie = 0) || decide (fence.mapping.writable = false) ||
    !span binding.fenceOffset 4 fence.bytes || !span binding.fenceOffset 4 fence.mapping.bytes ||
    decide (fence.mapping.address > 2 ^ 64 - 1 - binding.fenceOffset) ||
    decide (fenceGpuAddress ≠ fence.mapping.address + binding.fenceOffset) ||
    decide (fenceGpuAddress % 4 ≠ 0) || decide (fenceGpuAddress ≥ 1 <<< 49) ||
    decide (4 > 1 <<< 49 - fenceGpuAddress)

def foreignEngine (engine : CopyEngineObservation) : Bool :=
  !sameDevice engine.device binding.device || decide (engine.owner ≠ binding.owner) ||
    decide (engine.vm ≠ binding.vm) || decide (engine.channel ≠ binding.channel) ||
    decide (engine.channelGeneration ≠ binding.channelGeneration) ||
    decide (engine.channelClass ≠ binding.channelClass)

variable (context : Option CopySealerContext)

def admission (binding : ChannelBinding) (providedCommands : MemoryView) (range : PushbufferRange)
    (providedResources : Option (MemoryView × MemoryView)) (resourceCount fenceGpuAddress : Nat)
    (fencePayload : UInt32) : Except QueueStatus Held := do
  let sealer ← require context .unavailable
  let memory ← require sealer.memory .unavailable
  refuse (decide (sealer.authority = 0)) .unavailable
  let resolveEngineAndVm ← require sealer.resolveEngineAndVm .unavailable
  refuse (decide (binding.channelClass ≠ 0xC56F)) .unsupportedClass
  refuse (badArguments binding range resourceCount providedResources fencePayload) .invalid
  refuse (decide (range.capacityBytes < copySealedBytes)) .capacity
  refuse (memory.draining || !sameDevice memory.device binding.device) .ownership
  let commands ← require (actualView memory binding providedCommands) .ownership
  refuse (decide (commands.jobHolds ≠ 1)) .ownership
  let provided ← require providedResources .invalid
  let source ← require (actualView memory binding provided.1) .ownership
  let destination ← require (actualView memory binding provided.2) .ownership
  refuse (sharedHandles binding commands source destination) .ownership
  refuse (badRange range commands) .invalid
  refuse (badFetch range commands) .invalid
  let fence ← require (memory.inspect binding.owner binding.fence).toOption .ownership
  refuse (badFence binding fence fenceGpuAddress) .ownership
  let answer := resolveEngineAndVm binding commands (source, destination) fence
  refuse (decide (answer.1 ≠ .ok)) answer.1
  refuse (foreignEngine binding answer.2) .ownership
  refuse (decide (answer.2.ceClass ≠ 0xC6B5)) .unsupportedClass
  refuse (decide (answer.2.ceSubchannel ≠ 4) || decide (answer.2.mode ≠ .ordinary) ||
    decide (answer.2.memoryDomain ≠ .coherentSystem)) .unsupportedChannel
  return ⟨commands, source, destination, fence, answer.2⟩

def request (held : Held) (sourceOffset destinationOffset byteCount : Nat) : VirtualLinearCopy where
  channel := ⟨binding.owner, binding.vm, binding.device.epoch, held.engine.ceClass,
    held.engine.ceSubchannel, true, true, true⟩
  source := ⟨binding.owner, binding.vm, binding.device.epoch, held.source.handle.generation,
    held.source.mapping.address, held.source.bytes, true, true, held.source.mapping.writable⟩
  destination := ⟨binding.owner, binding.vm, binding.device.epoch,
    held.destination.handle.generation, held.destination.mapping.address, held.destination.bytes,
    true, true, held.destination.mapping.writable⟩
  sourceOffset := sourceOffset
  destinationOffset := destinationOffset
  byteCount := byteCount

def method (address count subchannel : Nat) : Except QueueStatus Nat :=
  match PortedNvidia.encodeMethodHeader .ampereA .incrementing address subchannel count with
  | .ok word => .ok word
  | .error _ => .error .invalid

/-- The check of the words, and the words to be written. -/
def sealWords (held : Held) (fenceGpuAddress : Nat) (fencePayload : UInt32) (input : List Nat) :
    Except QueueStatus (List Nat) := do
  let sourceAddress := input.getD 3 0 <<< 32 ||| input.getD 4 0
  let destinationAddress := input.getD 5 0 <<< 32 ||| input.getD 6 0
  refuse (decide (sourceAddress < held.source.mapping.address) ||
    decide (destinationAddress < held.destination.mapping.address)) .ownership
  let copy := request binding held (sourceAddress - held.source.mapping.address)
    (destinationAddress - held.destination.mapping.address) (input.getD 8 0)
  let words ← require (encodeVirtualLinearCopy copy 1 copySealedWords).toOption .invalid
  refuse (decide (words.length ≠ copyInputWords)) .invalid
  refuse (decide (input ≠ words)) .invalid
  let wait ← method 0x78 1 0
  let barrier ← method 0x28 4 0
  let semaphore ← method 0x240 3 4
  let launch ← method 0x300 1 4
  return words ++ [wait, 0, barrier, 0, 0, 0, 5 <<< 27,
    semaphore, (fenceGpuAddress >>> 32) % 2 ^ 32, fenceGpuAddress % 2 ^ 32,
    fencePayload.toNat, launch, 1 <<< 2 ||| 1 <<< 3]

def readWords (ram : Nat → UInt8) (p count : Nat) : List Nat :=
  (List.range count).map fun i => readLittleEndian ram (p + i * 4)

def writeWords (ram : Nat → UInt8) (p : Nat) : List Nat → Nat → UInt8
  | [] => ram
  | w :: ws => writeWords (writeLittleEndian ram p w) (p + 4) ws

structure Sealed where
  status : QueueStatus
  ram : Nat → UInt8
  submittedBytes : Nat

def sealCopyPushbuffer (binding : ChannelBinding) (providedCommands : MemoryView)
    (range : PushbufferRange) (providedResources : Option (MemoryView × MemoryView))
    (resourceCount fenceGpuAddress : Nat) (fencePayload : UInt32) (ram : Nat → UInt8) : Sealed :=
  match admission context binding providedCommands range providedResources resourceCount
      fenceGpuAddress fencePayload with
  | .error status => ⟨status, ram, 0⟩
  | .ok held =>
    match sealWords binding held fenceGpuAddress fencePayload
        (readWords ram (held.commands.pin.cpu + range.offset) copyInputWords) with
    | .error status => ⟨status, ram, 0⟩
    | .ok words =>
      ⟨.ok, writeWords ram (held.commands.pin.cpu + range.offset) words, copySealedBytes⟩

section Memory

variable (ram : Nat → UInt8) (p : Nat)

theorem readLittleEndian_eq : readLittleEndian ram p = ofBytes (slice ram p 4) := by
  have h0 := (ram p).toNat_lt
  have h1 := (ram (p + 1)).toNat_lt
  have h2 := (ram (p + 2)).toNat_lt
  unfold readLittleEndian
  rw [or_shift (i := 8) _ (by omega), or_shift (i := 16) _ (by omega),
    or_shift (i := 24) _ (by omega)]
  have hslice : slice ram p 4 = [ram p, ram (p + 1), ram (p + 2), ram (p + 3)] := rfl
  rw [hslice]
  simp only [ofBytes]
  omega

theorem writeLittleEndian_eq (v : Nat) :
    writeLittleEndian ram p v = write ram p (toBytes 4 v) := by
  simp only [writeLittleEndian, List.range_succ, List.range_zero, List.nil_append, List.cons_append,
    List.foldl_cons, List.foldl_nil, toBytes, write, Nat.shiftRight_eq_div_pow,
    Nat.div_div_eq_div_mul, Nat.add_assoc]
  norm_num

theorem readWords_succ (k : Nat) :
    readWords ram p (k + 1) = readLittleEndian ram p :: readWords ram (p + 4) k := by
  unfold readWords
  rw [List.range_succ_eq_map, List.map_cons, List.map_map]
  congr 1
  refine List.map_congr_left fun i _ => ?_
  rw [Function.comp_apply]
  congr 1
  omega

theorem readWords_bytes (k : Nat) :
    (readWords ram p k).flatMap (toBytes 4) = slice ram p (k * 4) := by
  induction k generalizing p with
  | zero => rfl
  | succ k ih =>
    have hword : toBytes 4 (readLittleEndian ram p) = slice ram p 4 := by
      rw [readLittleEndian_eq]
      exact toBytes_ofBytes (slice ram p 4)
    rw [readWords_succ, List.flatMap_cons, ih, hword, Nat.succ_mul, Nat.add_comm (k * 4) 4,
      slice_add]

theorem readWords_lt {k w : Nat} (h : w ∈ readWords ram p k) : w < 256 ^ 4 := by
  rcases List.mem_map.mp h with ⟨i, _, rfl⟩
  rw [readLittleEndian_eq]
  exact ofBytes_lt _

theorem readWords_of_bytes {k : Nat} {ws : List Nat} (hlt : ∀ w ∈ ws, w < 256 ^ 4)
    (hlen : ws.length = k) (h : slice ram p (k * 4) = ws.flatMap (toBytes 4)) :
    readWords ram p k = ws := by
  refine flatMap_toBytes_inj (fun w => readWords_lt ram p) hlt ?_ ?_
  · rw [readWords, List.length_map, List.length_range, hlen]
  · rw [readWords_bytes, h]

theorem writeWords_eq (ws : List Nat) :
    writeWords ram p ws = write ram p (ws.flatMap (toBytes 4)) := by
  induction ws generalizing ram p with
  | nil => rfl
  | cons w ws ih =>
    rw [writeWords, ih, writeLittleEndian_eq, List.flatMap_cons, write_append, toBytes_length]

end Memory

section Checks

variable {α β : Type} {bad : Bool} {status : QueueStatus} {value : Option α} {r : β}
variable {binding : ChannelBinding}

theorem refuse_bind {f : Unit → Except QueueStatus β} :
    refuse bad status >>= f = .ok r ↔ bad = false ∧ f () = .ok r := by
  cases bad
  · exact (and_iff_right rfl).symm
  · exact iff_of_false nofun fun h => absurd h.1 (by decide)

theorem require_bind {f : α → Except QueueStatus β} :
    require value status >>= f = .ok r ↔ ∃ a, value = some a ∧ f a = .ok r := by
  cases value with
  | none => exact iff_of_false nofun fun ⟨_, h, _⟩ => nomatch h
  | some a => exact ⟨fun h => ⟨a, rfl, h⟩, fun ⟨_, h, hf⟩ => Option.some.inj h ▸ hf⟩

def Fails (x : Except QueueStatus β) : Prop := ∀ status, x = .error status → status ≠ .ok

theorem fails_refuse {f : Unit → Except QueueStatus β} (hstatus : bad = true → status ≠ .ok)
    (hf : Fails (f ())) : Fails (refuse bad status >>= f) := by
  cases bad with
  | false => exact hf
  | true =>
    intro st hst
    cases hst
    exact hstatus rfl

theorem fails_require {f : α → Except QueueStatus β} (hstatus : status ≠ .ok)
    (hf : ∀ a, Fails (f a)) : Fails (require value status >>= f) := by
  cases value with
  | some a => exact hf a
  | none =>
    intro st hst
    cases hst
    exact hstatus

theorem toOption_eq_some {ε : Type} {x : Except ε α} {a : α} :
    x.toOption = some a ↔ x = .ok a := by
  cases x with
  | error e => exact iff_of_false nofun nofun
  | ok b => exact ⟨fun h => congrArg _ (Option.some.inj h), fun h => congrArg _ (Except.ok.inj h)⟩

/-- What passed the checks, as far as the words depend on it. -/
structure Admitted (binding : ChannelBinding) (held : Held) (fenceGpuAddress : Nat) : Prop where
  owner : binding.owner ≠ 0 ∧ binding.vm ≠ 0 ∧ binding.device.epoch ≠ 0
  source : held.source.mapping.bytes = held.source.bytes
  destination : held.destination.mapping.bytes = held.destination.bytes
  fence : fenceGpuAddress = held.fence.mapping.address + binding.fenceOffset
  reach : fenceGpuAddress < 2 ^ 49
  engine : held.engine.ceClass = 0xC6B5 ∧ held.engine.ceSubchannel = 4

theorem actualView_mapped {memory : MemoryOwner}
    {provided actual : MemoryView} (h : actualView memory binding provided = some actual) :
    actual.mapping.bytes = actual.bytes := by
  unfold actualView at h
  cases hview : memory.inspect binding.owner provided.handle with
  | error e =>
    rw [hview] at h
    cases h
  | ok view =>
    rw [hview] at h
    dsimp only at h
    split_ifs at h with hgood
    cases h
    simp only [Bool.and_eq_true, decide_eq_true_eq] at hgood
    exact hgood.1.1.2

variable {providedResources : Option (MemoryView × MemoryView)}

theorem admit_spec {context : Option CopySealerContext} {providedCommands : MemoryView}
    {range : PushbufferRange} {resourceCount fenceGpuAddress : Nat} {fencePayload : UInt32}
    {held : Held}
    (h : admission context binding providedCommands range providedResources resourceCount
      fenceGpuAddress fencePayload = .ok held) : Admitted binding held fenceGpuAddress := by
  unfold admission at h
  simp only [require_bind, refuse_bind] at h
  rcases h with ⟨sealer, _, memory, _, _, resolve, _, _, hargs, _, _, commands, _, _, provided, _,
    source, hsource, destination, hdestination, _, _, _, fence, _, hfence, _, _,
    hclass, hsub, hheld⟩
  cases hheld
  simp only [badArguments, badFence, Bool.or_eq_false_iff, decide_eq_false_iff_not, ne_eq,
    not_not, and_assoc] at hargs hfence hclass hsub
  rcases hargs with ⟨_, _, _, _, hepoch, howner, hvm, _⟩
  rcases hfence with ⟨_, _, _, _, _, _, _, _, _, _, haddress, _, hreach, _⟩
  have hlimit : 1 <<< 49 = 2 ^ 49 := by decide
  exact ⟨⟨howner, hvm, hepoch⟩, actualView_mapped hsource, actualView_mapped hdestination, haddress,
    by omega, hclass, hsub.1⟩

theorem admit_fails {context : Option CopySealerContext} {providedCommands : MemoryView}
    {range : PushbufferRange} {resourceCount fenceGpuAddress : Nat} {fencePayload : UInt32} :
    Fails (admission context binding providedCommands range providedResources resourceCount
      fenceGpuAddress fencePayload) := by
  refine fails_require nofun fun sealer => fails_require nofun fun memory => ?_
  refine fails_refuse nofun (fails_require nofun fun resolve => ?_)
  refine fails_refuse nofun (fails_refuse nofun (fails_refuse nofun (fails_refuse nofun ?_)))
  refine fails_require nofun fun commands => fails_refuse nofun ?_
  refine fails_require nofun fun provided => fails_require nofun fun source => ?_
  refine fails_require nofun fun destination => ?_
  refine fails_refuse nofun (fails_refuse nofun (fails_refuse nofun ?_))
  refine fails_require nofun fun fence => fails_refuse nofun ?_
  refine fails_refuse of_decide_eq_true ?_
  refine fails_refuse nofun (fails_refuse nofun (fails_refuse nofun ?_))
  exact nofun

end Checks

/-- A copy that is not empty, inside of both mappings, and disjoint. -/
structure Lawful (held : Held) (sourceOffset destinationOffset byteCount : Nat) : Prop where
  some : 0 < byteCount
  source : sourceOffset + byteCount ≤ held.source.mapping.bytes
  destination : destinationOffset + byteCount ≤ held.destination.mapping.bytes
  writable : held.destination.mapping.writable = true
  apart : held.destination.mapping.address + destinationOffset + byteCount ≤
      held.source.mapping.address + sourceOffset ∨
    held.source.mapping.address + sourceOffset + byteCount ≤
      held.destination.mapping.address + destinationOffset

/-- The resources can be named in a packet. -/
structure Usable (held : Held) : Prop where
  source : held.source.handle.generation ≠ 0 ∧ held.source.mapping.address ≠ 0 ∧
    held.source.bytes ≠ 0 ∧ held.source.mapping.address + held.source.bytes ≤ 2 ^ 49
  destination : held.destination.handle.generation ≠ 0 ∧
    held.destination.mapping.address ≠ 0 ∧ held.destination.bytes ≠ 0 ∧
    held.destination.mapping.address + held.destination.bytes ≤ 2 ^ 49
  single : held.source.handle.generation = held.destination.handle.generation →
    held.source.mapping.address = held.destination.mapping.address ∧
      held.source.bytes = held.destination.bytes

def copyPacket (held : Held) (sourceOffset destinationOffset byteCount : Nat) : List Nat :=
  packet 4 0 (held.source.mapping.address + sourceOffset)
    (held.destination.mapping.address + destinationOffset) byteCount

/-- Wait for the copy, a barrier for the system, and the fence. -/
def completion (fence : Nat) (payload : UInt32) : List Nat :=
  [0x2001001E, 0, 0x2004000A, 0, 0, 0, 5 <<< 27,
   0x20038090, (fence >>> 32) % 2 ^ 32, fence % 2 ^ 32, payload.toNat, 0x200180C0, 0xC]

section Words

variable {binding : ChannelBinding} {held : Held} {fence i j n : Nat} {payload : UInt32}
  {input words : List Nat}

/-- The encoder's packets for the two resources are those of lawful copies. -/
theorem encode_iff (h : Admitted binding held fence) :
    encodeVirtualLinearCopy (request binding held i j n) 1 copySealedWords = .ok words ↔
      Usable held ∧ Lawful held i j n ∧ n < 2 ^ 32 ∧ words = copyPacket held i j n := by
  have hcap : virtualLinearCopyWordCount ≤ copySealedWords := by decide
  rw [encodeVirtualLinearCopy_iff (by decide) hcap]
  have htraits : classTraits (request binding held i j n).channel.ceClass = some ⟨49, 0⟩ := by
    change classTraits held.engine.ceClass = _
    rw [h.engine.1]
    rfl
  have hsub : (request binding held i j n).channel.subchannel = 4 := h.engine.2
  rw [htraits]
  simp only [Option.some.injEq, exists_eq_left', hsub]
  rw [← and_assoc, ← and_assoc]
  refine and_congr ⟨fun henc => ?_, fun ⟨⟨husable, hlaw⟩, hn⟩ => ?_⟩ Iff.rfl
  · have hs := henc.source
    have hd := henc.destination
    refine ⟨⟨⟨⟨hs.named, hs.placed⟩, ⟨hd.named, hd.placed⟩, henc.single⟩, ?_⟩, henc.size.2⟩
    exact ⟨henc.size.1, h.source ▸ henc.within.1, h.destination ▸ henc.within.2, henc.allowed.2,
      henc.apart⟩
  · have hfits : i + n ≤ held.source.bytes ∧ j + n ≤ held.destination.bytes :=
      ⟨h.source ▸ hlaw.source, h.destination ▸ hlaw.destination⟩
    refine ⟨⟨h.owner.1, h.owner.2.1, h.owner.2.2, ?_, rfl, rfl, rfl⟩, ⟨hlaw.some, hn⟩,
      ⟨⟨rfl, rfl, rfl⟩, husable.source.1, rfl, husable.source.2⟩,
      ⟨⟨rfl, rfl, rfl⟩, husable.destination.1, rfl, husable.destination.2⟩,
      ⟨rfl, hlaw.writable⟩, hfits, husable.single, hlaw.apart⟩
    rw [hsub]
    decide

theorem copyPacket_getD (h : Usable held) (hlaw : Lawful held i j n)
    (ha : Admitted binding held fence) (hn : n < 2 ^ 32) :
    (copyPacket held i j n).getD 3 0 <<< 32 ||| (copyPacket held i j n).getD 4 0 =
        held.source.mapping.address + i ∧
      (copyPacket held i j n).getD 5 0 <<< 32 ||| (copyPacket held i j n).getD 6 0 =
        held.destination.mapping.address + j ∧
      (copyPacket held i j n).getD 8 0 = n := by
  have hsource := h.source.2.2.2
  have hdestination := h.destination.2.2.2
  have hi := ha.source ▸ hlaw.source
  have hj := ha.destination ▸ hlaw.destination
  exact ⟨join_halves (by omega), join_halves (by omega), Nat.mod_eq_of_lt hn⟩

theorem method_words : method 0x78 1 0 = .ok 0x2001001E ∧ method 0x28 4 0 = .ok 0x2004000A ∧
    method 0x240 3 4 = .ok 0x20038090 ∧ method 0x300 1 4 = .ok 0x200180C0 := by
  decide

/-- The packets that pass are those of lawful copies. -/
theorem sealWords_iff (h : Admitted binding held fence) :
    sealWords binding held fence payload input = .ok words ↔
      Usable held ∧ ∃ i j n, Lawful held i j n ∧ n < 2 ^ 32 ∧ input = copyPacket held i j n ∧
        words = copyPacket held i j n ++ completion fence payload := by
  rcases method_words with ⟨hwait, hbarrier, hsemaphore, hlaunch⟩
  unfold sealWords
  simp only [require_bind, refuse_bind, toOption_eq_some, encode_iff h, hwait, hbarrier,
    hsemaphore, hlaunch, Bool.or_eq_false_iff, decide_eq_false_iff_not, not_lt, ne_eq, not_not]
  constructor
  · rintro ⟨hbelow, packet, ⟨husable, hlaw, hn, rfl⟩, _, hinput, hwords⟩
    exact ⟨husable, _, _, _, hlaw, hn, hinput, (Except.ok.inj hwords).symm⟩
  · rintro ⟨husable, i, j, n, hlaw, hn, rfl, rfl⟩
    rcases copyPacket_getD husable hlaw h hn with ⟨hsource, hdestination, hcount⟩
    rw [hsource, hdestination, hcount, Nat.add_sub_cancel_left, Nat.add_sub_cancel_left]
    exact ⟨⟨Nat.le_add_right _ _, Nat.le_add_right _ _⟩, copyPacket held i j n,
      ⟨husable, hlaw, hn, rfl⟩, rfl, rfl, rfl⟩

theorem sealWords_fails : Fails (sealWords binding held fence payload input) := by
  rcases method_words with ⟨hwait, hbarrier, hsemaphore, hlaunch⟩
  unfold sealWords
  rw [hwait, hbarrier, hsemaphore, hlaunch]
  refine fails_refuse nofun (fails_require nofun fun words => ?_)
  exact fails_refuse nofun (fails_refuse nofun nofun)

/-- What a sealed pushbuffer does, whatever the registers held before. -/
theorem effects_sealed (h : Admitted binding held fence) (husable : Usable held)
    (hlaw : Lawful held i j n) (hn : n < 2 ^ 32) (regs : Nat → Nat → Nat) :
    effects regs (copyPacket held i j n ++ completion fence payload) =
      [.copy (held.source.mapping.address + i) (held.destination.mapping.address + j) n,
       .waitIdle, .systemBarrier, .release fence payload.toNat] := by
  have hsource := husable.source.2.2.2
  have hdestination := husable.destination.2.2.2
  have hi := h.source ▸ hlaw.source
  have hj := h.destination ▸ hlaw.destination
  have hsome := hlaw.some
  -- A 49-bit address survives in its two registers.
  have haddress : ∀ {x : Nat}, x < 2 ^ 49 →
      address49 ((x >>> 32) % 2 ^ 32) (x % 2 ^ 32) = x := by
    intro x hx
    unfold address49
    rw [Nat.shiftRight_eq_div_pow]
    omega
  have hrun : ∀ a b c d e f g k : Nat, effects regs
      ([header 0x25C 1 4, 1, header 0x400 4 4, a, b, c, d, header 0x418 1 4, e, header 0x300 1 4,
        0x182 ||| 0] ++ [0x2001001E, 0, 0x2004000A, 0, 0, 0, 5 <<< 27, 0x20038090, f, g, k,
        0x200180C0, 0xC]) =
      [.copy (address49 a b) (address49 c d) e, .waitIdle, .systemBarrier,
        .release (address49 f g) k] := by
    intro a b c d e f g k
    simp [effects, idle, feed, Machine.announce, Machine.apply, methodEffects, hostMethod,
      copyMethod, launch, header, Function.update]
  refine (hrun _ _ _ _ _ _ _ _).trans ?_
  rw [haddress (by omega), haddress (by omega), haddress h.reach, Nat.mod_eq_of_lt hn]

theorem completion_lt {w : Nat} (hw : w ∈ completion fence payload) : w < 256 ^ 4 := by
  have hpayload := payload.toNat_lt
  simp only [completion, List.mem_cons, List.not_mem_nil, or_false] at hw
  rcases hw with rfl | rfl | rfl | rfl | rfl | rfl | rfl | rfl | rfl | rfl | rfl | rfl |
    rfl <;> omega

end Words

theorem copyPacket_lt {w : Nat} (hw : w ∈ copyPacket held i j n) :
    w < 256 ^ 4 := by
  have hheaders : header 0x25C 1 4 < 256 ^ 4 ∧ header 0x400 4 4 < 256 ^ 4 ∧
      header 0x418 1 4 < 256 ^ 4 ∧ header 0x300 1 4 < 256 ^ 4 := by decide
  have hlaunch : 0x182 ||| 0 < 256 ^ 4 := by decide
  simp only [copyPacket, packet, List.mem_cons, List.not_mem_nil, or_false] at hw
  rcases hw with rfl | rfl | rfl | rfl | rfl | rfl | rfl | rfl | rfl | rfl | rfl <;> omega

theorem readWords_packet {p : Nat} {ram : Nat → UInt8}
    (h : slice ram p copyInputBytes = (copyPacket held i j n).flatMap (toBytes 4)) :
    readWords ram p copyInputWords = copyPacket held i j n :=
  readWords_of_bytes ram p (fun _ => copyPacket_lt) rfl h

structure Written (ram ram' : Nat → UInt8) (p : Nat) (held : Held) (fence i j n : Nat)
    (payload : UInt32) : Prop where
  /-- The packet stays, and its completion follows. -/
  bytes : slice ram' p copySealedBytes =
    slice ram p copyInputBytes ++ (completion fence payload).flatMap (toBytes 4)
  elsewhere : ∀ a, a < p ∨ p + copySealedBytes ≤ a → ram' a = ram a
  effects : ∀ regs, MellowNvidia.effects regs (readWords ram' p copySealedWords) =
    [.copy (held.source.mapping.address + i) (held.destination.mapping.address + j) n,
     .waitIdle, .systemBarrier, .release fence payload.toNat]
  /-- The GPU writes into the second resource and to the fence only. -/
  confined : ∀ regs, ∀ e ∈ MellowNvidia.effects regs (readWords ram' p copySealedWords), ∀ a,
    e.Writes a →
      (held.destination.mapping.address ≤ a ∧
        a < held.destination.mapping.address + held.destination.mapping.bytes) ∨
      (fence ≤ a ∧ a < fence + 4)

theorem written {binding : ChannelBinding} {fence p : Nat} {payload : UInt32}
    {ram : Nat → UInt8} (h : Admitted binding held fence) (husable : Usable held)
    (hlaw : Lawful held i j n) (hn : n < 2 ^ 32)
    (hinput : readWords ram p copyInputWords = copyPacket held i j n) :
    Written ram (writeWords ram p (copyPacket held i j n ++ completion fence payload)) p held fence
      i j n payload := by
  have hpacket : slice ram p copyInputBytes = (copyPacket held i j n).flatMap (toBytes 4) := by
    rw [← hinput]
    exact (readWords_bytes ram p copyInputWords).symm
  have hbytes : slice (writeWords ram p (copyPacket held i j n ++ completion fence payload)) p
      copySealedBytes = slice ram p copyInputBytes ++ (completion fence payload).flatMap
        (toBytes 4) := by
    have hread := slice_write
      ((copyPacket held i j n ++ completion fence payload).flatMap (toBytes 4)) ram p
    rw [flatMap_toBytes_length] at hread
    rw [writeWords_eq]
    refine hread.trans ?_
    rw [List.flatMap_append, hpacket]
  have hwords : readWords (writeWords ram p (copyPacket held i j n ++ completion fence payload)) p
      copySealedWords = copyPacket held i j n ++ completion fence payload := by
    refine readWords_of_bytes _ _ (fun w hw => ?_) rfl ?_
    · rcases List.mem_append.mp hw with hw | hw
      · rw [← hinput] at hw
        exact readWords_lt _ _ hw
      · exact completion_lt hw
    · rw [List.flatMap_append, ← hpacket]
      exact hbytes
  have heffects := fun regs => hwords.symm ▸ effects_sealed h husable hlaw hn regs
  refine ⟨hbytes, fun a ha => ?_, heffects, fun regs e he a hwrites => ?_⟩
  · rw [writeWords_eq]
    refine write_outside _ _ _ ?_
    rw [flatMap_toBytes_length]
    exact ha
  · rw [heffects] at he
    simp only [List.mem_cons, List.not_mem_nil, or_false] at he
    have hin := hlaw.destination
    rcases he with rfl | rfl | rfl | rfl
    · rcases hwrites with ⟨hlo, hhi⟩
      exact .inl ⟨by omega, by omega⟩
    · exact hwrites.elim
    · exact hwrites.elim
    · exact .inr hwrites

/-- Sealing changes nothing, or finds a lawful copy and completes it. -/
theorem seal_cases (binding : ChannelBinding) (providedCommands : MemoryView)
    (range : PushbufferRange) (providedResources : Option (MemoryView × MemoryView))
    (resourceCount fenceGpuAddress : Nat) (fencePayload : UInt32) (ram : Nat → UInt8) :
    (∃ status, status ≠ .ok ∧
      sealCopyPushbuffer context binding providedCommands range providedResources resourceCount
        fenceGpuAddress fencePayload ram = ⟨status, ram, 0⟩ ∧
      ∀ held i j n, admission context binding providedCommands range providedResources resourceCount
        fenceGpuAddress fencePayload = .ok held → Usable held → Lawful held i j n → n < 2 ^ 32 →
        readWords ram (held.commands.pin.cpu + range.offset) copyInputWords ≠
          copyPacket held i j n) ∨
    ∃ held i j n, admission context binding providedCommands range providedResources resourceCount
        fenceGpuAddress fencePayload = .ok held ∧ Usable held ∧ Lawful held i j n ∧ n < 2 ^ 32 ∧
      readWords ram (held.commands.pin.cpu + range.offset) copyInputWords =
        copyPacket held i j n ∧
      sealCopyPushbuffer context binding providedCommands range providedResources resourceCount
        fenceGpuAddress fencePayload ram =
        ⟨.ok, writeWords ram (held.commands.pin.cpu + range.offset)
          (copyPacket held i j n ++ completion fenceGpuAddress fencePayload), copySealedBytes⟩ := by
  unfold sealCopyPushbuffer
  cases hadmit : admission context binding providedCommands range providedResources resourceCount
      fenceGpuAddress fencePayload with
  | error status =>
    exact .inl ⟨status, admit_fails status hadmit, rfl, fun _ _ _ _ heq => nomatch heq⟩
  | ok held =>
    have h := admit_spec hadmit
    dsimp only
    cases hseal : sealWords binding held fenceGpuAddress fencePayload
        (readWords ram (held.commands.pin.cpu + range.offset) copyInputWords) with
    | error status =>
      refine .inl ⟨status, sealWords_fails status hseal, rfl, ?_⟩
      intro held' i j n heq husable hlaw hn hinput
      cases heq
      have hpass : sealWords binding held fenceGpuAddress fencePayload _ = .ok _ :=
        (sealWords_iff h).mpr ⟨husable, i, j, n, hlaw, hn, hinput, rfl⟩
      exact absurd (hseal.symm.trans hpass) nofun
    | ok words =>
      rcases (sealWords_iff h).mp hseal with ⟨husable, i, j, n, hlaw, hn, hinput, rfl⟩
      exact .inr ⟨held, i, j, n, rfl, husable, hlaw, hn, hinput, rfl⟩

/-- For all bindings, views, ranges and command bytes: a copy is sealed exactly
    when the checks pass and the bytes are the encoder's packet of a lawful copy
    between the resources. Then the packet stays, its completion follows, and the
    GPU is made to write into the second resource and to the fence only. In all
    other cases nothing changes. -/
theorem sealCopyPushbuffer_exact (context : Option CopySealerContext) (binding : ChannelBinding)
    (providedCommands : MemoryView) (range : PushbufferRange)
    (providedResources : Option (MemoryView × MemoryView)) (resourceCount fenceGpuAddress : Nat)
    (fencePayload : UInt32) (ram : Nat → UInt8) :
    let admitted := admission context binding providedCommands range providedResources resourceCount
      fenceGpuAddress fencePayload
    let r := sealCopyPushbuffer context binding providedCommands range providedResources
      resourceCount fenceGpuAddress fencePayload ram
    (r.status = .ok → ∃ held i j n, admitted = .ok held ∧ Lawful held i j n ∧
      (∃ words, encodeVirtualLinearCopy (request binding held i j n) 1 copySealedWords = .ok words ∧
        slice ram (held.commands.pin.cpu + range.offset) copyInputBytes =
          words.flatMap (toBytes 4)) ∧
      Written ram r.ram (held.commands.pin.cpu + range.offset) held
        (held.fence.mapping.address + binding.fenceOffset) i j n fencePayload ∧
      r.submittedBytes = copySealedBytes) ∧
    (∀ held i j n, admitted = .ok held → Usable held → Lawful held i j n → n < 2 ^ 32 →
      encodeVirtualLinearCopy (request binding held i j n) 1 copySealedWords =
          .ok (copyPacket held i j n) ∧
        (slice ram (held.commands.pin.cpu + range.offset) copyInputBytes =
            (copyPacket held i j n).flatMap (toBytes 4) → r.status = .ok)) ∧
    (r.status ≠ .ok → r.ram = ram ∧ r.submittedBytes = 0) := by
  dsimp only
  rcases seal_cases context binding providedCommands range providedResources resourceCount
    fenceGpuAddress fencePayload ram with ⟨status, hstatus, hr, hnone⟩ |
    ⟨held, i, j, n, hadmit, husable, hlaw, hn, hinput, hr⟩
  · rw [hr]
    refine ⟨fun hok => absurd hok hstatus, fun held i j n hadmit husable hlaw hn => ?_,
      fun _ => ⟨rfl, rfl⟩⟩
    refine ⟨(encode_iff (admit_spec hadmit)).mpr ⟨husable, hlaw, hn, rfl⟩, fun hbytes => ?_⟩
    exact absurd (readWords_packet hbytes) (hnone held i j n hadmit husable hlaw hn)
  · have h := admit_spec hadmit
    rw [hr]
    refine ⟨fun _ => ?_, fun held' i' j' n' hadmit' husable' hlaw' hn' => ?_,
      fun hne => absurd rfl hne⟩
    · refine ⟨held, i, j, n, hadmit, hlaw, ⟨copyPacket held i j n, ?_, ?_⟩, ?_, rfl⟩
      · exact (encode_iff h).mpr ⟨husable, hlaw, hn, rfl⟩
      · rw [← hinput]
        exact (readWords_bytes ram _ copyInputWords).symm
      · exact h.fence ▸ written h husable hlaw hn hinput
    · exact ⟨(encode_iff (admit_spec hadmit')).mpr ⟨husable', hlaw', hn', rfl⟩, fun _ => rfl⟩

end Mellow.MellowNativeNvidia
