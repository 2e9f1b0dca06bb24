import Mellow.Nvidia.Encoding

/-!
# Entries of the GPFIFO

A channel fetches its commands through entries of two words: a pushbuffer, or a
control operation where the length is zero. On the newer classes a control entry
sets the upper part of the address first. Values of an enumeration that name
nothing are `none`.

## Main definitions

* `encodeGpfifoPushbuffer`: an entry for a pushbuffer.
* `encodeGpfifoSegment`: the two entries of the newer classes.
* `GpfifoEntry.fields`: what the hardware reads.
* `Lossless`: it reads what was encoded, and refusals change nothing.

## Theorems

* `commands_lossless`: all the encoders are lossless.
-/

namespace Mellow.PortedNvidia

open Lib

variable {channel : Option ChannelClass} {address : Nat}

inductive Sync
  | proceed | wait
deriving DecidableEq, Repr

def Sync.code : Sync → Nat
  | .proceed => 0
  | .wait => 1

structure GpfifoEntry where
  lower : Nat
  upper : Nat
deriving DecidableEq, Repr

structure GpfifoSegment where
  setBase : GpfifoEntry
  pushbuffer : GpfifoEntry
deriving DecidableEq, Repr

def segmentAddressMax : Nat := 0x1FFFFFFFFFFFFFF

def knownFormat (channel : Option ChannelClass) : Bool := channel.isSome

def extendedFormat (channel : Option ChannelClass) : Bool :=
  decide (channel = some .hopperA ∨ channel = some .blackwellA ∨ channel = some .blackwellB)

def packGpfifoPushbuffer (address bytes : Nat) (sync : Option Sync) (out : GpfifoEntry) :
    Status × GpfifoEntry :=
  if address &&& 3 ≠ 0 ∨ address > gpfifoAddressMax then (.invalidAddress, out)
  else if bytes = 0 ∨ bytes &&& 3 ≠ 0 ∨ bytes > gpfifoBytesMax then (.invalidLength, out)
  else if bytes - 1 > gpfifoAddressMax - address then (.invalidAddress, out)
  else match sync with
    | none => (.invalidSync, out)
    | some sync => (.ok, ⟨address % 2 ^ 32,
        (address >>> 32) % 2 ^ 32 ||| ((bytes >>> 2) % 2 ^ 32) <<< 10 % 2 ^ 32 |||
          sync.code <<< 31 % 2 ^ 32⟩)

def encodeGpfifoPushbuffer (channel : Option ChannelClass) (address bytes : Nat)
    (sync : Option Sync) (out : GpfifoEntry) : Status × GpfifoEntry :=
  if knownFormat channel = false then (.unknownClass, out)
  else if extendedFormat channel then (.unsupportedOperation, out)
  else packGpfifoPushbuffer address bytes sync out

def encodeGpfifoNop (channel : Option ChannelClass) (out : GpfifoEntry) : Status × GpfifoEntry :=
  if knownFormat channel = false then (.unknownClass, out) else (.ok, ⟨0, 0⟩)

def encodeGpfifoSegment (channel : Option ChannelClass) (address bytes : Nat) (sync : Option Sync)
    (out : GpfifoSegment) : Status × GpfifoSegment :=
  let lowAddress := address &&& gpfifoAddressMax
  let packed := packGpfifoPushbuffer lowAddress bytes sync ⟨0, 0⟩
  if knownFormat channel = false then (.unknownClass, out)
  else if extendedFormat channel = false then (.unsupportedOperation, out)
  else if address &&& 3 ≠ 0 ∨ address > segmentAddressMax then (.invalidAddress, out)
  else if bytes = 0 ∨ bytes &&& 3 ≠ 0 ∨ bytes > gpfifoBytesMax then (.invalidLength, out)
  else if bytes - 1 > gpfifoAddressMax - lowAddress then (.segmentBoundary, out)
  else if packed.1 ≠ .ok then (packed.1, out)
  else (.ok, ⟨⟨((address >>> 40) % 2 ^ 32) <<< 8 % 2 ^ 32, 4⟩, packed.2⟩)

def writeGpfifoLittleEndian (entry : GpfifoEntry) : List UInt8 :=
  ((List.range 4).map fun byte => UInt8.ofNat (entry.lower >>> (byte * 8))) ++
    (List.range 4).map fun byte => UInt8.ofNat (entry.upper >>> (byte * 8))

/-- A method header. A mode that is none is found after the shared checks. -/
def encodeMethodHeaderOf (channel : Option ChannelClass) (mode : Option MethodMode)
    (address subchannel count out : Nat) : Status × Nat :=
  match channel with
  | none => (.unknownClass, out)
  | some channel =>
    match encodeMethodHeader channel (mode.getD .nonIncrementing) address subchannel count with
    | .error status => (status, out)
    | .ok word => if mode = none then (.invalidMode, out) else (.ok, word)

section Hardware

namespace GpfifoEntry

variable (e : GpfifoEntry)

/-- Where the pushbuffer is: GET and GET_HI. -/
def get : Nat := e.lower / 4 * 4 + e.upper % 2 ^ 8 * 2 ^ 32

def length : Nat := e.upper / 2 ^ 10 % 2 ^ 21

def sync : Option Sync := some (if e.upper / 2 ^ 31 % 2 = 0 then .proceed else .wait)

def operand : Nat := e.lower / 2 ^ 8

def opcode : Nat := e.upper % 2 ^ 8

/-- Address, length in bytes and flag of a pushbuffer. -/
def fields : Nat × Nat × Option Sync := (e.get, e.length * 4, e.sync)

end GpfifoEntry

/-- The same for two entries, the first of which sets the base. -/
def GpfifoSegment.fields (s : GpfifoSegment) : Nat × Nat × Option Sync :=
  (s.setBase.operand % 2 ^ 17 * 2 ^ 40 + s.pushbuffer.get, s.pushbuffer.fields.2)

def readEntry (bs : List UInt8) : GpfifoEntry := ⟨ofBytes (bs.take 4), ofBytes (bs.drop 4)⟩

def readSegment (bs : List UInt8) : GpfifoSegment := ⟨readEntry (bs.take 8), readEntry (bs.drop 8)⟩

def MethodMode.ofCode (code : Nat) : Option MethodMode :=
  [MethodMode.incrementing, .nonIncrementing, .immediate, .oneIncrement].find? fun m =>
    m.code = code

/-- Mode, address, subchannel and count of a method header. -/
def headerFields (word : Nat) : Option MethodMode × Nat × Nat × Nat :=
  (MethodMode.ofCode (word / 2 ^ 29), word % 2 ^ 12 * 4, word / 2 ^ 13 % 2 ^ 3,
    word / 2 ^ 16 % 2 ^ 13)

end Hardware

def pushbuffer (channel : Option ChannelClass) (i : Nat × Nat × Option Sync) :
    GpfifoEntry → Status × GpfifoEntry :=
  encodeGpfifoPushbuffer channel i.1 i.2.1 i.2.2

def segment (channel : Option ChannelClass) (i : Nat × Nat × Option Sync) :
    GpfifoSegment → Status × GpfifoSegment :=
  encodeGpfifoSegment channel i.1 i.2.1 i.2.2

def methodHeader (channel : Option ChannelClass) (i : Option MethodMode × Nat × Nat × Nat) :
    Nat → Status × Nat :=
  encodeMethodHeaderOf channel i.1 i.2.1 i.2.2.1 i.2.2.2

/-- What was accepted reads back from its words and from their bytes, and what
    was refused leaves the output as it was. -/
structure Lossless {ι α : Type} (encode : ι → α → Status × α) (bytes : α → List UInt8)
    (read : List UInt8 → α) (fields : α → ι) : Prop where
  fields : ∀ i out, (encode i out).1 = .ok → fields (encode i out).2 = i
  reads : ∀ i out, (encode i out).1 = .ok → read (bytes (encode i out).2) = (encode i out).2
  unchanged : ∀ i out, (encode i out).1 ≠ .ok → (encode i out).2 = out

def Injective {ι α : Type} (encode : ι → α → Status × α) (bytes : α → List UInt8) : Prop :=
  ∀ i j out out', (encode i out).1 = .ok → (encode j out').1 = .ok →
    bytes (encode i out).2 = bytes (encode j out').2 → i = j

theorem Lossless.injective {ι α : Type} {encode : ι → α → Status × α} {bytes : α → List UInt8}
    {read : List UInt8 → α} {fields : α → ι} (h : Lossless encode bytes read fields) :
    Injective encode bytes := by
  intro i j out out' hi hj heq
  rw [← h.fields i out hi, ← h.reads i out hi, heq, h.reads j out' hj, h.fields j out' hj]

section Fields

variable {address bytes : Nat} {sync : Option Sync} {out r : GpfifoEntry}

theorem readEntry_write {e : GpfifoEntry} (hl : e.lower < 2 ^ 32) (hu : e.upper < 2 ^ 32) :
    readEntry (writeGpfifoLittleEndian e) = e := by
  have hpow : 256 ^ 4 = 2 ^ 32 := by decide
  unfold readEntry writeGpfifoLittleEndian
  rw [← toBytes_eq_map, ← toBytes_eq_map, List.take_left' (toBytes_length 4 _),
    List.drop_left' (toBytes_length 4 _), ofBytes_toBytes, ofBytes_toBytes, hpow,
    Nat.mod_eq_of_lt hl, Nat.mod_eq_of_lt hu]

/-- What is packed, with the fields of the upper word as a sum. -/
theorem packGpfifoPushbuffer_ok (h : packGpfifoPushbuffer address bytes sync out = (.ok, r)) :
    ∃ s, sync = some s ∧ address % 4 = 0 ∧ bytes % 4 = 0 ∧ 0 < bytes ∧ bytes ≤ gpfifoBytesMax ∧
      address + bytes ≤ 2 ^ 40 ∧
      r = ⟨address % 2 ^ 32, address / 2 ^ 32 + bytes / 4 * 2 ^ 10 + s.code * 2 ^ 31⟩ := by
  unfold packGpfifoPushbuffer at h
  have hmask : ∀ x, x &&& 3 = x % 4 := fun x => Nat.and_two_pow_sub_one_eq_mod x 2
  split_ifs at h with h₁ h₂ h₃
  · cases h
  · cases h
  · cases h
  rw [hmask] at h₁ h₂
  unfold gpfifoAddressMax gpfifoBytesMax at *
  cases sync with
  | none => cases h
  | some s =>
    have hs : s.code < 2 := by cases s <;> decide
    refine ⟨s, rfl, by omega, by omega, by omega, by omega, by omega, ?_⟩
    have hhigh : (address >>> 32) % 2 ^ 32 = address / 2 ^ 32 := by omega
    have hlength : ((bytes >>> 2) % 2 ^ 32) <<< 10 % 2 ^ 32 = (bytes / 4) <<< 10 := by omega
    have hsync : s.code <<< 31 % 2 ^ 32 = s.code <<< 31 := by cases s <;> rfl
    rw [← (Prod.mk.inj h).2, hhigh, hlength, hsync, or_shift (bytes / 4) (by omega),
      or_shift s.code (by omega)]

theorem packed_fields (h : packGpfifoPushbuffer address bytes sync out = (.ok, r)) :
    r.lower < 2 ^ 32 ∧ r.upper < 2 ^ 32 ∧ r.fields = (address, bytes, sync) := by
  rcases packGpfifoPushbuffer_ok h with ⟨s, rfl, ha, hb, hpos, hmax, hend, rfl⟩
  unfold gpfifoBytesMax at hmax
  have hs : s.code < 2 := by cases s <;> decide
  refine ⟨Nat.mod_lt _ (by decide), by dsimp only; omega, Prod.ext ?_ (Prod.ext ?_ ?_)⟩
  · unfold GpfifoEntry.fields GpfifoEntry.get
    dsimp only
    omega
  · unfold GpfifoEntry.fields GpfifoEntry.length
    dsimp only
    omega
  · have hflag : (address / 2 ^ 32 + bytes / 4 * 2 ^ 10 + s.code * 2 ^ 31) / 2 ^ 31 % 2 =
      s.code := by
      omega
    unfold GpfifoEntry.fields GpfifoEntry.sync
    dsimp only
    rw [hflag]
    cases s <;> rfl

theorem readEntry_packed (h : packGpfifoPushbuffer address bytes sync out = (.ok, r)) :
    readEntry (writeGpfifoLittleEndian r) = r :=
  readEntry_write (packed_fields h).1 (packed_fields h).2.1

end Fields

theorem encodeGpfifoPushbuffer_ok {bytes : Nat}
    {sync : Option Sync} {out : GpfifoEntry}
    (h : (encodeGpfifoPushbuffer channel address bytes sync out).1 = .ok) :
    packGpfifoPushbuffer address bytes sync out =
      (.ok, (encodeGpfifoPushbuffer channel address bytes sync out).2) := by
  unfold encodeGpfifoPushbuffer at h ⊢
  split_ifs at h ⊢
  exact Prod.ext h rfl

theorem pushbuffer_lossless (channel : Option ChannelClass) :
    Lossless (pushbuffer channel) writeGpfifoLittleEndian readEntry GpfifoEntry.fields := by
  refine ⟨fun i out h => (packed_fields (encodeGpfifoPushbuffer_ok h)).2.2,
    fun i out h => readEntry_packed (encodeGpfifoPushbuffer_ok h), fun i out h => ?_⟩
  rcases i with ⟨address, bytes, sync⟩
  unfold pushbuffer encodeGpfifoPushbuffer packGpfifoPushbuffer at h ⊢
  dsimp only at h ⊢
  cases sync with
  | none => split_ifs <;> rfl
  | some s =>
    split_ifs at h ⊢
    all_goals first | rfl | exact absurd rfl h

theorem encodeGpfifoSegment_ok {bytes : Nat}
    {sync : Option Sync} {out : GpfifoSegment}
    (h : (encodeGpfifoSegment channel address bytes sync out).1 = .ok) :
    address < 2 ^ 57 ∧ ∃ r, packGpfifoPushbuffer (address % 2 ^ 40) bytes sync ⟨0, 0⟩ = (.ok, r) ∧
      (encodeGpfifoSegment channel address bytes sync out).2 =
        ⟨⟨address / 2 ^ 40 * 2 ^ 8, 4⟩, r⟩ := by
  have hlow : address &&& gpfifoAddressMax = address % 2 ^ 40 :=
    Nat.and_two_pow_sub_one_eq_mod address 40
  unfold encodeGpfifoSegment at h ⊢
  dsimp only at h ⊢
  rw [hlow] at h ⊢
  split_ifs at h ⊢ with h₁ h₂ h₃ h₄ h₅ h₆
  · exact absurd h h₆
  · unfold segmentAddressMax at h₃
    refine ⟨by omega, _, Prod.ext (not_not.mp h₆) rfl, ?_⟩
    rw [Nat.shiftRight_eq_div_pow, Nat.mod_eq_of_lt (by omega : address / 2 ^ 40 < 2 ^ 32),
      Nat.shiftLeft_eq, Nat.mod_eq_of_lt (by omega)]

/-- The bytes of the two entries of a segment, in the order of their fetch. -/
def segmentBytes (s : GpfifoSegment) : List UInt8 :=
  writeGpfifoLittleEndian s.setBase ++ writeGpfifoLittleEndian s.pushbuffer

theorem segment_lossless (channel : Option ChannelClass) :
    Lossless (segment channel) segmentBytes readSegment GpfifoSegment.fields := by
  refine ⟨fun i out h => ?_, fun i out h => ?_, fun i out h => ?_⟩
  · rcases encodeGpfifoSegment_ok h with ⟨hlt, r, hpack, heq⟩
    have hfields := (packed_fields hpack).2.2
    have hbase : i.1 / 2 ^ 40 * 2 ^ 8 / 2 ^ 8 % 2 ^ 17 * 2 ^ 40 + r.get = i.1 := by
      rw [show r.get = i.1 % 2 ^ 40 from congrArg Prod.fst hfields]
      omega
    rw [segment, heq]
    exact Prod.ext hbase (by rw [GpfifoSegment.fields, hfields])
  · rcases encodeGpfifoSegment_ok h with ⟨hlt, r, hpack, heq⟩
    have hlen : (writeGpfifoLittleEndian ⟨i.1 / 2 ^ 40 * 2 ^ 8, 4⟩).length = 8 := rfl
    rw [segment, heq, segmentBytes, readSegment, List.take_left' hlen, List.drop_left' hlen,
      readEntry_packed hpack, readEntry_write (by dsimp only; omega) (by decide : 4 < 2 ^ 32)]
  · unfold segment encodeGpfifoSegment at h ⊢
    dsimp only at h ⊢
    split_ifs at h ⊢
    all_goals first | rfl | exact absurd rfl h

theorem encodeMethodHeaderOf_ok {mode : Option MethodMode}
    {subchannel count out : Nat}
    (h : (encodeMethodHeaderOf channel mode address subchannel count out).1 = .ok) :
    ∃ m, mode = some m ∧ address % 4 = 0 ∧ address < 2 ^ 14 ∧ subchannel < 8 ∧ count < 2 ^ 13 ∧
      (encodeMethodHeaderOf channel mode address subchannel count out).2 =
        address / 4 + subchannel * 2 ^ 13 + count * 2 ^ 16 + m.code * 2 ^ 29 := by
  have hmask : address &&& 3 = address % 4 := Nat.and_two_pow_sub_one_eq_mod address 2
  unfold encodeMethodHeaderOf encodeMethodHeader at h ⊢
  rw [hmask] at h ⊢
  unfold methodAddressMax methodCountMax at h ⊢
  cases channel with
  | none => cases h
  | some channel =>
    cases mode with
    | none =>
      dsimp only at h
      split at h
      · next heq => split_ifs at heq <;> (cases heq; cases h)
      · cases h
    | some m =>
      dsimp only [Option.getD_some] at h ⊢
      split_ifs at h ⊢
      all_goals cases h
      refine ⟨m, rfl, by omega, by omega, by omega, by omega, ?_⟩
      rw [Nat.shiftRight_eq_div_pow, or_shift subchannel (by omega), or_shift count (by omega),
        or_shift m.code (by omega)]

theorem MethodMode.ofCode_code (m : MethodMode) : MethodMode.ofCode m.code = some m := by
  cases m <;> rfl

theorem header_lossless (channel : Option ChannelClass) :
    Lossless (methodHeader channel) (toBytes 4) ofBytes headerFields := by
  refine ⟨fun i out h => ?_, fun i out h => ?_, fun i out h => ?_⟩
  · rcases i with ⟨mode, address, subchannel, count⟩
    change (encodeMethodHeaderOf channel mode address subchannel count out).1 = _ at h
    rcases encodeMethodHeaderOf_ok h with ⟨m, rfl, ha, hlt, hs, hc, heq⟩
    have hm : m.code < 8 := by cases m <;> decide
    have hmode : (address / 4 + subchannel * 2 ^ 13 + count * 2 ^ 16 + m.code * 2 ^ 29) / 2 ^ 29 =
        m.code := by omega
    rw [methodHeader, heq, headerFields]
    refine Prod.ext ?_ (Prod.ext ?_ (Prod.ext ?_ ?_))
    · rw [hmode, MethodMode.ofCode_code]
    all_goals dsimp only; omega
  · rcases encodeMethodHeaderOf_ok h with ⟨m, -, ha, hlt, hs, hc, heq⟩
    have hm : m.code < 8 := by cases m <;> decide
    rw [methodHeader, heq, ofBytes_toBytes, Nat.mod_eq_of_lt (by omega)]
  · unfold methodHeader encodeMethodHeaderOf at h ⊢
    split at h
    · rfl
    · split at h
      · rfl
      · split_ifs at h ⊢
        · rfl
        · exact absurd rfl h

/-- Entries, segments and method headers read back from their bytes and are told
    apart by them; refusals change nothing; a pushbuffer is no control entry, and
    no segment goes over a boundary; and the copy encoder writes the same headers. -/
theorem commands_lossless (channel : Option ChannelClass) :
    (Lossless (pushbuffer channel) writeGpfifoLittleEndian readEntry GpfifoEntry.fields ∧
      Injective (pushbuffer channel) writeGpfifoLittleEndian) ∧
    (Lossless (segment channel) segmentBytes readSegment GpfifoSegment.fields ∧
      Injective (segment channel) segmentBytes) ∧
    (Lossless (methodHeader channel) (toBytes 4) ofBytes headerFields ∧
      Injective (methodHeader channel) (toBytes 4)) ∧
    (∀ address bytes sync out, (encodeGpfifoPushbuffer channel address bytes sync out).1 = .ok →
      (encodeGpfifoPushbuffer channel address bytes sync out).2.length ≠ 0) ∧
    (∀ out, ((encodeGpfifoNop channel out).1 = .ok → (encodeGpfifoNop channel out).2.length = 0) ∧
      ((encodeGpfifoNop channel out).1 ≠ .ok → (encodeGpfifoNop channel out).2 = out)) ∧
    (∀ address bytes sync out, (encodeGpfifoSegment channel address bytes sync out).1 = .ok →
      let r := (encodeGpfifoSegment channel address bytes sync out).2
      r.setBase.length = 0 ∧ r.setBase.opcode = 4 ∧ r.pushbuffer.length ≠ 0 ∧
        (address + bytes - 1) / 2 ^ 40 = address / 2 ^ 40) ∧
    (∀ address subchannel count out,
      (encodeMethodHeaderOf channel (some .incrementing) address subchannel count out).1 = .ok →
      MellowNvidia.header address count subchannel =
        (encodeMethodHeaderOf channel (some .incrementing) address subchannel count out).2) := by
  have hlength : ∀ {address bytes : Nat} {sync : Option Sync} {out r : GpfifoEntry},
      packGpfifoPushbuffer address bytes sync out = (.ok, r) → r.length ≠ 0 := by
    intro address bytes sync out r h hzero
    rcases packGpfifoPushbuffer_ok h with ⟨_, _, _, _, hpos, _⟩
    have hfield : r.length * 4 = bytes := congrArg (fun x => x.2.1) (packed_fields h).2.2
    omega
  refine ⟨⟨pushbuffer_lossless channel, (pushbuffer_lossless channel).injective⟩,
    ⟨segment_lossless channel, (segment_lossless channel).injective⟩,
    ⟨header_lossless channel, (header_lossless channel).injective⟩,
    fun address bytes sync out h => hlength (encodeGpfifoPushbuffer_ok h), fun out => ?_,
    fun address bytes sync out h => ?_, fun address subchannel count out h => ?_⟩
  · unfold encodeGpfifoNop
    split_ifs
    · exact ⟨nofun, fun _ => rfl⟩
    · exact ⟨fun _ => rfl, fun h => absurd rfl h⟩
  · rcases encodeGpfifoSegment_ok h with ⟨hlt, r, hpack, heq⟩
    dsimp only
    rw [heq]
    rcases packGpfifoPushbuffer_ok hpack with ⟨_, _, _, _, hpos, _, hend, _⟩
    exact ⟨by simp [GpfifoEntry.length], by simp [GpfifoEntry.opcode], hlength hpack, by omega⟩
  · rcases encodeMethodHeaderOf_ok h with ⟨m, hm, _, hlt, hs, hc, heq⟩
    rw [heq, ← Option.some.inj hm]
    unfold MellowNvidia.header
    rw [Nat.or_assoc, Nat.or_assoc, Nat.or_comm, Nat.or_comm (count <<< 16),
      Nat.or_comm (subchannel <<< 13), Nat.shiftRight_eq_div_pow, or_shift subchannel (by omega),
      or_shift count (by omega), or_shift 1 (by omega)]
    rfl

example : (encodeGpfifoPushbuffer (some .ampereA) 0x1234567890 64 (some .wait) ⟨0, 0⟩).1 = .ok ∧
    (encodeGpfifoSegment (some .hopperA) 0x10000000040 64 (some .proceed) ⟨⟨0, 0⟩, ⟨0, 0⟩⟩).1 =
      .ok ∧
    (encodeMethodHeaderOf (some .ampereA) (some .incrementing) 0x100 4 2 0).1 = .ok := by
  decide

end Mellow.PortedNvidia
