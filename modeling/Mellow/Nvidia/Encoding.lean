import Mellow.Lib.Bytes

/-!
# Encoding Commands

The two encoders that pushbuffers are made with: method headers of a channel,
and the packet of a copy between two virtual buffers. The copy encoder checks
everything it is told before it builds the packet.

## Main definitions

* `encodeMethodHeader`: a method header.
* `encodeVirtualLinearCopy`: a copy.
* `Encodable`: what is checked.

## Theorems

* `encodeVirtualLinearCopy_iff`: when a packet comes out, and which one.
-/

namespace Mellow

namespace PortedNvidia

inductive ChannelClass
  | maxwellA | pascalA | voltaA | turingA | ampereA | hopperA | blackwellA | blackwellB
deriving DecidableEq, Repr

inductive Status
  | ok | unknownClass | invalidAddress | invalidLength | invalidSync | invalidMethod
  | invalidSubchannel | invalidCount | invalidMode | unsupportedOperation | segmentBoundary
deriving DecidableEq, Repr

inductive MethodMode
  | incrementing | nonIncrementing | immediate | oneIncrement
deriving DecidableEq, Repr

def MethodMode.code : MethodMode → Nat
  | .incrementing => 1
  | .nonIncrementing => 3
  | .immediate => 4
  | .oneIncrement => 5

def gpfifoAddressMax : Nat := 0xFFFFFFFFFF
def gpfifoBytesMax : Nat := 0x7FFFFC
def methodAddressMax : Nat := 0x3FFC
def methodCountMax : Nat := 0x1FFF

/-- The methods a mode would go through end inside the method space. -/
def modeFits (mode : MethodMode) (index count : Nat) : Bool :=
  match mode with
  | .incrementing => !decide (count > 0x1000 - index)
  | .oneIncrement => !(decide (count > 1) && decide (index = 0xFFF))
  | .nonIncrementing => true
  | .immediate => true

/-- A method header. Every class here has a known format. -/
def encodeMethodHeader (_channel : ChannelClass) (mode : MethodMode)
    (address subchannel count : Nat) : Except Status Nat :=
  if address &&& 3 ≠ 0 ∨ address > methodAddressMax then .error .invalidMethod
  else if subchannel > 7 then .error .invalidSubchannel
  else if count > methodCountMax then .error .invalidCount
  else if modeFits mode (address >>> 2) count = false then .error .invalidMethod
  else .ok (address >>> 2 ||| subchannel <<< 13 ||| count <<< 16 ||| mode.code <<< 29)

end PortedNvidia

namespace MellowNvidia

inductive CopyStatus
  | ok | unsupportedClass | invalidChannel | invalidLease | wrongOwner | staleEpoch
  | notResident | permissionDenied | invalidSize | outOfRange | overlap | aliasedAllocation
  | capacity
deriving DecidableEq, Repr

structure CopyChannelLease where
  ownerId : Nat
  vmId : Nat
  epoch : Nat
  ceClass : Nat
  subchannel : Nat
  classBound : Bool
  ordinaryChannel : Bool
  nonConfidential : Bool
deriving DecidableEq, Repr

structure CopyBufferLease where
  ownerId : Nat
  vmId : Nat
  epoch : Nat
  allocationId : Nat
  gpuVa : Nat
  byteLength : Nat
  resident : Bool
  readable : Bool
  writable : Bool
deriving DecidableEq, Repr

structure VirtualLinearCopy where
  channel : CopyChannelLease
  source : CopyBufferLease
  destination : CopyBufferLease
  sourceOffset : Nat
  destinationOffset : Nat
  byteCount : Nat
deriving DecidableEq, Repr

def virtualLinearCopyWordCount : Nat := 11

structure ClassTraits where
  addressBits : Nat
  launchExtra : Nat
deriving DecidableEq, Repr

def classTraits (ceClass : Nat) : Option ClassTraits :=
  if ceClass = 0xB0B5 then some ⟨40, 0⟩
  else if ceClass = 0xC0B5 ∨ ceClass = 0xC1B5 ∨ ceClass = 0xC3B5 ∨ ceClass = 0xC5B5 ∨
      ceClass = 0xC6B5 then some ⟨49, 0⟩
  else if ceClass = 0xC7B5 then some ⟨49, 1 <<< 26⟩
  else if ceClass = 0xC8B5 ∨ ceClass = 0xC9B5 ∨ ceClass = 0xCAB5 then some ⟨57, 1 <<< 26⟩
  else none

/-- A buffer belongs to the channel and lies below the class's limit. -/
def validateBuffer (b : CopyBufferLease) (c : CopyChannelLease) (encodingLimit : Nat) :
    CopyStatus :=
  if b.ownerId = 0 ∨ b.vmId = 0 ∨ b.epoch = 0 ∨ b.allocationId = 0 ∨ b.gpuVa = 0 ∨
      b.byteLength = 0 then .invalidLease
  else if b.ownerId ≠ c.ownerId ∨ b.vmId ≠ c.vmId then .wrongOwner
  else if b.epoch ≠ c.epoch then .staleEpoch
  else if b.resident = false then .notResident
  else if b.gpuVa ≥ encodingLimit ∨ b.byteLength > encodingLimit - b.gpuVa then .outOfRange
  else .ok

def header (method count subchannel : Nat) : Nat :=
  1 <<< 29 ||| count <<< 16 ||| subchannel <<< 13 ||| method >>> 2

def packet (subchannel launchExtra sourceVa destinationVa byteCount : Nat) : List Nat :=
  [header 0x25C 1 subchannel, 1,
   header 0x400 4 subchannel,
   (sourceVa >>> 32) % 2 ^ 32, sourceVa % 2 ^ 32,
   (destinationVa >>> 32) % 2 ^ 32, destinationVa % 2 ^ 32,
   header 0x418 1 subchannel, byteCount % 2 ^ 32,
   header 0x300 1 subchannel,
   0x182 ||| launchExtra]

/-- The packet of a copy, for an output of `capacityWords` words. -/
def encodeVirtualLinearCopy (request : VirtualLinearCopy) (output capacityWords : Nat) :
    Except CopyStatus (List Nat) :=
  let c := request.channel
  match classTraits c.ceClass with
  | none => .error .unsupportedClass
  | some traits =>
    if c.ownerId = 0 ∨ c.vmId = 0 ∨ c.epoch = 0 ∨ c.subchannel > 7 ∨ c.classBound = false ∨
        c.ordinaryChannel = false ∨ c.nonConfidential = false then .error .invalidChannel
    else if request.byteCount = 0 ∨ request.byteCount > 2 ^ 32 - 1 then .error .invalidSize
    else
      let limit := 1 <<< traits.addressBits
      if validateBuffer request.source c limit ≠ .ok then
        .error (validateBuffer request.source c limit)
      else if validateBuffer request.destination c limit ≠ .ok then
        .error (validateBuffer request.destination c limit)
      else if request.source.readable = false ∨ request.destination.writable = false then
        .error .permissionDenied
      else if request.sourceOffset > request.source.byteLength ∨
          request.byteCount > request.source.byteLength - request.sourceOffset ∨
          request.destinationOffset > request.destination.byteLength ∨
          request.byteCount > request.destination.byteLength - request.destinationOffset then
        .error .outOfRange
      else if request.source.allocationId = request.destination.allocationId ∧
          (request.source.gpuVa ≠ request.destination.gpuVa ∨
            request.source.byteLength ≠ request.destination.byteLength) then
        .error .aliasedAllocation
      else
        let sourceVa := (request.source.gpuVa + request.sourceOffset) % 2 ^ 64
        let destinationVa := (request.destination.gpuVa + request.destinationOffset) % 2 ^ 64
        if sourceVa < (destinationVa + request.byteCount) % 2 ^ 64 ∧
            destinationVa < (sourceVa + request.byteCount) % 2 ^ 64 then .error .overlap
        else if output = 0 ∨ capacityWords < virtualLinearCopyWordCount then .error .capacity
        else .ok (packet c.subchannel traits.launchExtra sourceVa destinationVa request.byteCount)

structure Leased (b : CopyBufferLease) (c : CopyChannelLease) (limit : Nat) : Prop where
  owned : b.ownerId = c.ownerId ∧ b.vmId = c.vmId ∧ b.epoch = c.epoch
  named : b.allocationId ≠ 0
  resident : b.resident = true
  placed : b.gpuVa ≠ 0 ∧ b.byteLength ≠ 0 ∧ b.gpuVa + b.byteLength ≤ limit

/-- A copy the encoder accepts, into an output that is large enough. -/
structure Encodable (r : VirtualLinearCopy) (traits : ClassTraits) : Prop where
  channel : r.channel.ownerId ≠ 0 ∧ r.channel.vmId ≠ 0 ∧ r.channel.epoch ≠ 0 ∧
    r.channel.subchannel ≤ 7 ∧ r.channel.classBound = true ∧ r.channel.ordinaryChannel = true ∧
    r.channel.nonConfidential = true
  size : 0 < r.byteCount ∧ r.byteCount < 2 ^ 32
  source : Leased r.source r.channel (2 ^ traits.addressBits)
  destination : Leased r.destination r.channel (2 ^ traits.addressBits)
  allowed : r.source.readable = true ∧ r.destination.writable = true
  within : r.sourceOffset + r.byteCount ≤ r.source.byteLength ∧
    r.destinationOffset + r.byteCount ≤ r.destination.byteLength
  single : r.source.allocationId = r.destination.allocationId →
    r.source.gpuVa = r.destination.gpuVa ∧ r.source.byteLength = r.destination.byteLength
  apart : r.destination.gpuVa + r.destinationOffset + r.byteCount ≤
      r.source.gpuVa + r.sourceOffset ∨
    r.source.gpuVa + r.sourceOffset + r.byteCount ≤ r.destination.gpuVa + r.destinationOffset

theorem validateBuffer_iff {b : CopyBufferLease} {c : CopyChannelLease} {limit : Nat}
    (hc : c.ownerId ≠ 0 ∧ c.vmId ≠ 0 ∧ c.epoch ≠ 0) :
    validateBuffer b c limit = .ok ↔ Leased b c limit := by
  unfold validateBuffer
  split_ifs with hlease howner hepoch hres hrange
  · refine iff_of_false nofun fun h => ?_
    rcases h.owned with ⟨ho, hv, he⟩
    rcases hlease with hz | hz | hz | hz | hz | hz
    · exact hc.1 (ho ▸ hz)
    · exact hc.2.1 (hv ▸ hz)
    · exact hc.2.2 (he ▸ hz)
    · exact h.named hz
    · exact h.placed.1 hz
    · exact h.placed.2.1 hz
  · exact iff_of_false nofun fun h => howner.elim (absurd h.owned.1) (absurd h.owned.2.1)
  · exact iff_of_false nofun fun h => hepoch h.owned.2.2
  · exact iff_of_false nofun fun h => absurd h.resident (by rw [hres]; decide)
  · refine iff_of_false nofun fun h => ?_
    have := h.placed
    omega
  · simp only [not_or, not_not] at hlease howner hepoch
    refine iff_of_true rfl ⟨⟨howner.1, howner.2, hepoch⟩, hlease.2.2.2.1, ?_, hlease.2.2.2.2.1,
      hlease.2.2.2.2.2, by omega⟩
    exact Bool.eq_true_of_not_eq_false hres

theorem classTraits_bits {ceClass : Nat} {traits : ClassTraits}
    (h : classTraits ceClass = some traits) : traits.addressBits ≤ 57 := by
  unfold classTraits at h
  split_ifs at h <;> cases h <;> decide

theorem encodeVirtualLinearCopy_iff {r : VirtualLinearCopy} {output capacityWords : Nat}
    {words : List Nat} (hout : output ≠ 0) (hcap : virtualLinearCopyWordCount ≤ capacityWords) :
    encodeVirtualLinearCopy r output capacityWords = .ok words ↔
      ∃ traits, classTraits r.channel.ceClass = some traits ∧ Encodable r traits ∧
        words = packet r.channel.subchannel traits.launchExtra
          (r.source.gpuVa + r.sourceOffset) (r.destination.gpuVa + r.destinationOffset)
          r.byteCount := by
  unfold encodeVirtualLinearCopy
  dsimp only
  cases htraits : classTraits r.channel.ceClass with
  | none => simp
  | some traits =>
    have hbits : 2 ^ traits.addressBits ≤ 2 ^ 57 :=
      Nat.pow_le_pow_right (by omega) (classTraits_bits htraits)
    simp only [Option.some.injEq, exists_eq_left', Nat.one_shiftLeft]
    -- Where a check fails, the same field of `Encodable` fails.
    split_ifs with hchannel hsize hsource hdestination hallowed hrange halias hover hroom
    · refine iff_of_false nofun (fun ⟨h, _⟩ => ?_)
      have hc := h.channel
      simp only [hc.2.2.2.2.1, hc.2.2.2.2.2.1, hc.2.2.2.2.2.2, Bool.true_eq_false, or_false]
        at hchannel
      omega
    · refine iff_of_false nofun fun ⟨h, _⟩ => ?_
      have := h.size
      omega
    · refine iff_of_false nofun fun ⟨h, _⟩ => hsource ?_
      exact (validateBuffer_iff ⟨h.channel.1, h.channel.2.1, h.channel.2.2.1⟩).mpr h.source
    · refine iff_of_false nofun fun ⟨h, _⟩ => hdestination ?_
      exact (validateBuffer_iff ⟨h.channel.1, h.channel.2.1, h.channel.2.2.1⟩).mpr h.destination
    · refine iff_of_false nofun fun ⟨h, _⟩ => ?_
      rw [h.allowed.1, h.allowed.2] at hallowed
      exact absurd hallowed (by decide)
    · refine iff_of_false nofun fun ⟨h, _⟩ => ?_
      have := h.within
      omega
    · refine iff_of_false nofun fun ⟨h, _⟩ => ?_
      have := h.single halias.1
      omega
    all_goals
      simp only [not_or, not_not, Bool.not_eq_false] at hchannel hsource hdestination hallowed
      have hc : r.channel.ownerId ≠ 0 ∧ r.channel.vmId ≠ 0 ∧ r.channel.epoch ≠ 0 :=
        ⟨hchannel.1, hchannel.2.1, hchannel.2.2.1⟩
      have hs := (validateBuffer_iff hc).mp hsource
      have hd := (validateBuffer_iff hc).mp hdestination
      have hsp := hs.placed
      have hdp := hd.placed
    · refine iff_of_false nofun fun ⟨h, _⟩ => ?_
      have := h.apart
      rw [Nat.mod_eq_of_lt (by omega), Nat.mod_eq_of_lt (by omega), Nat.mod_eq_of_lt (by omega),
        Nat.mod_eq_of_lt (by omega)] at hover
      omega
    · omega
    · rw [Nat.mod_eq_of_lt (by omega), Nat.mod_eq_of_lt (by omega)] at hover ⊢
      rw [Nat.mod_eq_of_lt (by omega), Nat.mod_eq_of_lt (by omega)] at hover
      rw [Except.ok.injEq, eq_comm]
      refine (and_iff_right ?_).symm
      refine ⟨⟨hc.1, hc.2.1, hc.2.2, by omega, hchannel.2.2.2.2⟩, by omega, hs, hd, hallowed,
        by omega, ?_, by omega⟩
      intro heq
      by_contra hne
      exact halias ⟨heq, by omega⟩

end MellowNvidia

end Mellow
