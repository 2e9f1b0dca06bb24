import Mathlib.Tactic.IntervalCases
import Mellow.Lib.Bytes

/-!
# The Container of AIR Bitcode

Bitcode comes raw or inside of LLVM's wrapper of five words. Two readers take it
out: `decodeAirBitcode` of `Runtime/AirDecoder.cpp`, up to where LLVM is loaded,
and `unpack_bitcode` of `Tools/mellow_air.py`. An index past the end of the
first one's vector is undefined, and ends the model with `outside`. The second
takes slices, which stop at the end of the input.

## Main definitions

* `decodeAirBitcode`: the reader in C++.
* `unpackBitcode`: the reader in Python.
* `Wrapped`: a header that says where the bitcode is.

## Theorems

* `containers_agree`: they give the same payload or none.
-/

namespace Mellow.AirContainer

open Lib

/-- A message, or a read outside of the input. -/
inductive Stop where
  | refused (message : String)
  | outside
  deriving DecidableEq, Repr

abbrev Read := Except Stop

section Decoder

def maxBitcode : Nat := 4 * 1024 * 1024

def check (ok : Bool) (message : String) : Read Unit :=
  if ok then .ok () else .error (.refused message)

variable (bytes : List UInt8)

def byte (i : Nat) : Read UInt8 :=
  match bytes[i]? with
  | some b => .ok b
  | none => .error .outside

def word (i : Nat) : Read Nat := do
  return (← byte bytes i).toNat ||| (← byte bytes (i + 1)).toNat <<< 8 |||
    (← byte bytes (i + 2)).toNat <<< 16 ||| (← byte bytes (i + 3)).toNat <<< 24

/-- The loop over the bytes after the payload. -/
def padding (bytes : List UInt8) (i : Nat) : Nat → Read Unit
  | 0 => .ok ()
  | left + 1 => do
    check ((← byte bytes i) == 0) "Nonzero LLVM wrapper padding"
    padding bytes (i + 1) left

def range (offset size : Nat) : Read (List UInt8) :=
  if offset + size ≤ bytes.length then .ok ((bytes.drop offset).take size) else .error .outside

/-- What is left to do once the offset and the size are known. -/
def selected (offset size : Nat) : Read (List UInt8) := do
  check ((← word bytes offset) == 0xdec04342) "Missing raw LLVM bitcode magic"
  range bytes offset size

def unwrap : Read (List UInt8) := do
  -- One test in the source, where the word is read only if the first part holds.
  check (bytes.length ≥ 20) "Unsupported or truncated LLVM wrapper"
  check ((← word bytes 4) == 0) "Unsupported or truncated LLVM wrapper"
  let offset ← word bytes 8
  let size ← word bytes 12
  check (offset ≥ 20 && size ≥ 4 && offset ≤ bytes.length && size ≤ bytes.length - offset)
    "LLVM wrapper payload outside input"
  check (bytes.length - offset - size ≤ 15) "Unexpected trailing LLVM wrapper bytes"
  padding bytes (offset + size) (bytes.length - (offset + size))
  selected bytes offset size

def decodeAirBitcode : Read (List UInt8) := do
  check (bytes.length ≥ 4 && bytes.length ≤ maxBitcode) "AIR bitcode size outside 4 bytes..4 MiB"
  if (← word bytes 0) = 0x0b17c0de then unwrap bytes else selected bytes 0 bytes.length

end Decoder

section Tool

def maxInput : Nat := 4 * 1024 * 1024
def magic : List UInt8 := [0x42, 0x43, 0xc0, 0xde]
def wrapper : List UInt8 := [0xde, 0xc0, 0x17, 0x0b]

inductive Facts where
  | raw (sha256 : String)
  | wrapped (version cpu offset : Nat) (sha256 : String)
  deriving DecidableEq, Repr

def span (data : List UInt8) (offset size : Nat) : Read (List UInt8) :=
  if offset > data.length ∨ size > data.length - offset then
    .error (.refused "section extends beyond input")
  else .ok ((data.drop offset).take size)

/-- The five words of `struct.unpack_from`. -/
def unpackFrom (data : List UInt8) : Read (List Nat) :=
  if data.length < 20 then .error .outside
  else .ok ((List.range 5).map fun i => ofBytes ((data.drop (4 * i)).take 4))

/-- The rest of `unpack_bitcode`, with the fields of the wrapper. -/
def unwrapFields (sha256 : List UInt8 → String) (data : List UInt8)
    (version offset size cpu : Nat) : Read (List UInt8 × Facts) :=
  if version ≠ 0 ∨ offset < 20 ∨ size = 0 then
    .error (.refused "unsupported LLVM wrapper version/offset/size")
  else do
    let bitcode ← span data offset size
    if ¬magic.isPrefixOf bitcode then .error (.refused "LLVM wrapper payload has no bitcode magic")
    -- Wrappers are padded to sixteen bytes, so there is no second payload.
    else if (data.drop (offset + size)).length > 15 ∨ (data.drop (offset + size)).any (· != 0) then
      .error (.refused "non-padding trailing wrapper payload")
    else .ok (bitcode, .wrapped version cpu offset (sha256 bitcode))

def unpackBitcode (sha256 : List UInt8 → String) (data : List UInt8) : Read (List UInt8 × Facts) :=
  if ¬(4 ≤ data.length ∧ data.length ≤ maxInput) then .error (.refused "invalid bitcode size")
  else if magic.isPrefixOf data then .ok (data, .raw (sha256 data))
  else if ¬wrapper.isPrefixOf data then .error (.refused "not LLVM raw or wrapped bitcode")
  else if data.length < 20 then .error (.refused "truncated LLVM wrapper")
  else do
    let fields ← unpackFrom data
    unwrapFields sha256 data (fields.getD 1 0) (fields.getD 2 0) (fields.getD 3 0) (fields.getD 4 0)

end Tool

section Words

variable {bytes : List UInt8} {i : Nat}

theorem byte_of_lt (h : i < bytes.length) : byte bytes i = .ok bytes[i] := by
  simp [byte, h]

/-- A word inside of the input is the number its bytes stand for. -/
theorem word_of_le (h : i + 4 ≤ bytes.length) :
    word bytes i = .ok (ofBytes ((bytes.drop i).take 4)) := by
  have htake : (bytes.drop i).take 4 = [bytes[i], bytes[i + 1], bytes[i + 2], bytes[i + 3]] := by
    refine List.ext_getElem (by simp; omega) fun k hk _ => ?_
    have hk : k < 4 := Nat.lt_of_lt_of_le hk (List.length_take_le _ _)
    interval_cases k <;> simp
  have h0 := bytes[i].toNat_lt
  have h1 := bytes[i + 1].toNat_lt
  have h2 := bytes[i + 2].toNat_lt
  rw [word, byte_of_lt (by omega), byte_of_lt (by omega), byte_of_lt (by
    omega), byte_of_lt (by omega), htake]
  change Except.ok _ = Except.ok _
  rw [or_shift (i := 8) bytes[i + 1].toNat (by omega),
    or_shift (i := 16) bytes[i + 2].toNat (by omega),
    or_shift (i := 24) bytes[i + 3].toNat (by omega)]
  simp only [ofBytes]
  congr 1
  omega

/-- The loop stops at the first byte that is not zero. -/
theorem padding_eq (left : Nat) : ∀ i, i + left = bytes.length → padding bytes i left =
    check ((bytes.drop i).all (· == 0)) "Nonzero LLVM wrapper padding" := by
  induction left with
  | zero =>
    intro i hi
    rw [List.drop_eq_nil_of_le (by omega)]
    rfl
  | succ left ih =>
    intro i hi
    have hlt : i < bytes.length := by omega
    rw [padding, byte_of_lt hlt, List.drop_eq_getElem_cons hlt, List.all_cons]
    change (check (bytes[i] == 0) _ >>= fun _ => padding bytes (i + 1) left) = _
    rw [ih (i + 1) (by omega)]
    cases bytes[i] == 0 <;> rfl

/-- A magic number, as bytes and as a word. -/
theorem isPrefixOf_iff {m : List UInt8} (hm : m.length = 4) :
    m.isPrefixOf bytes = true ↔ 4 ≤ bytes.length ∧ ofBytes (bytes.take 4) = ofBytes m := by
  rw [List.isPrefixOf_iff_prefix, List.prefix_iff_eq_take, hm]
  constructor
  · intro h
    have hlen := congrArg List.length h
    rw [List.length_take] at hlen
    exact ⟨by omega, congrArg ofBytes h.symm⟩
  · rintro ⟨hlen, h⟩
    have htake : (bytes.take 4).length = m.length := by
      rw [List.length_take]
      omega
    rw [← toBytes_ofBytes m, ← h, ← htake, toBytes_ofBytes]

end Words

section Agreement

/-- The result of a reader that does not read outside: a value, or a message. -/
def Gives {α : Type} (part : α → List UInt8) : Read α → Option (List UInt8) → Prop
  | .ok a, p => p = some (part a)
  | .error (.refused _), p => p = none
  | .error .outside, _ => False

variable {α : Type} {part : α → List UInt8} {p : Option (List UInt8)} {bytes : List UInt8}

theorem gives_check {b : Bool} {message : String} {f : Unit → Read α} (hno : b = false → p = none)
    (hf : b = true → Gives part (f ()) p) : Gives part (check b message >>= f) p := by
  cases b with
  | true => exact hf rfl
  | false => exact hno rfl

theorem gives_ite {c : Prop} [Decidable c] {x y : Read α} (hx : c → Gives part x p)
    (hy : ¬c → Gives part y p) : Gives part (if c then x else y) p := by
  by_cases hc : c
  · rw [if_pos hc]
    exact hx hc
  · rw [if_neg hc]
    exact hy hc

/-- What a wrapper has to say for its payload to be taken. -/
def Wrapped (bytes : List UInt8) (offset size : Nat) : Prop :=
  20 ≤ offset ∧ 4 ≤ size ∧ offset + size ≤ bytes.length ∧ bytes.length ≤ offset + size + 15 ∧
    (bytes.drop (offset + size)).all (· == 0) = true ∧
    ofBytes ((bytes.drop offset).take 4) = 0xdec04342
  deriving Decidable

def field (bytes : List UInt8) (i : Nat) : Nat := ofBytes ((bytes.drop (4 * i)).take 4)

def payload (bytes : List UInt8) : Option (List UInt8) :=
  if ¬(4 ≤ bytes.length ∧ bytes.length ≤ maxInput) then none
  else if field bytes 0 = 0xdec04342 then some bytes
  else if field bytes 0 = 0x0b17c0de ∧ 20 ≤ bytes.length ∧ field bytes 1 = 0 ∧
      Wrapped bytes (field bytes 2) (field bytes 3) then
    some ((bytes.drop (field bytes 2)).take (field bytes 3))
  else none

theorem gives_word {i : Nat} (h : i + 4 ≤ bytes.length) {f : Nat → Read α}
    (hf : Gives part (f (ofBytes ((bytes.drop i).take 4))) p) :
    Gives part (word bytes i >>= f) p := by
  rw [word_of_le h]
  exact hf

theorem payload_wrapped (hlen : 4 ≤ bytes.length ∧ bytes.length ≤ maxInput)
    (hwrap : field bytes 0 = 0x0b17c0de) : payload bytes =
      if 20 ≤ bytes.length ∧ field bytes 1 = 0 ∧ Wrapped bytes (field bytes 2) (field bytes 3) then
        some ((bytes.drop (field bytes 2)).take (field bytes 3)) else none := by
  simp [payload, hlen, hwrap]

theorem selected_gives (offset size : Nat) (h : offset + 4 ≤ bytes.length)
    (hsize : offset + size ≤ bytes.length) : Gives id (selected bytes offset size)
      (if ofBytes ((bytes.drop offset).take 4) = 0xdec04342 then
          some ((bytes.drop offset).take size)
        else none) := by
  refine gives_word h (gives_check (fun hno => if_neg (by simpa using hno)) fun hyes => ?_)
  rw [if_pos (by simpa using hyes), range, if_pos hsize]
  rfl

theorem unwrap_gives (hlen : 4 ≤ bytes.length ∧ bytes.length ≤ maxInput)
    (hwrap : field bytes 0 = 0x0b17c0de) : Gives id (unwrap bytes) (payload bytes) := by
  rw [payload_wrapped hlen hwrap]
  unfold Wrapped
  refine gives_check (fun h => if_neg ?_) fun hheader => ?_
  · simp at h
    omega
  simp only [ge_iff_le, decide_eq_true_eq] at hheader
  refine gives_word (by omega) (gives_check (fun h => if_neg ?_) fun hversion => ?_)
  · exact fun hw => ne_of_beq_false h hw.2.1
  have hversion : field bytes 1 = 0 := eq_of_beq hversion
  refine gives_word (by omega) (gives_word (by omega) ?_)
  change Gives id (check (field bytes 2 ≥ 20 && field bytes 3 ≥ 4 && field bytes 2 ≤ bytes.length &&
    field bytes 3 ≤ bytes.length - field bytes 2) _ >>= fun _ =>
      check (bytes.length - field bytes 2 - field bytes 3 ≤ 15) _ >>= fun _ =>
        padding bytes (field bytes 2 + field bytes 3)
          (bytes.length - (field bytes 2 + field bytes 3)) >>=
          fun _ => selected bytes (field bytes 2) (field bytes 3)) _
  generalize field bytes 2 = offset, field bytes 3 = size
  refine gives_check (fun h => if_neg ?_) fun hrange => gives_check (fun h => if_neg ?_)
    fun hshort => ?_
  · simp only [Bool.and_eq_false_iff, decide_eq_false_iff_not] at h
    omega
  · simp only [decide_eq_false_iff_not] at h
    omega
  simp only [Bool.and_eq_true, decide_eq_true_eq] at hrange hshort
  rw [padding_eq _ _ (by omega)]
  refine gives_check (fun h => if_neg ?_) fun hzeros => ?_
  · simp [h]
  have hgives := selected_gives offset size (by omega : offset + 4 ≤ bytes.length) (by omega)
  have hrest : 20 ≤ offset ∧ 4 ≤ size ∧ offset + size ≤ bytes.length ∧
      bytes.length ≤ offset + size + 15 := by omega
  simpa only [hheader, hversion, hrest, hzeros, true_and] using hgives

theorem decodeAirBitcode_gives (bytes : List UInt8) : Gives id (decodeAirBitcode bytes)
    (payload bytes) := by
  refine gives_check (fun hno => if_pos ?_) fun hlen => ?_
  · simp only [Bool.and_eq_false_iff, decide_eq_false_iff_not] at hno
    unfold maxInput
    unfold maxBitcode at hno
    omega
  simp only [Bool.and_eq_true, decide_eq_true_eq] at hlen
  refine gives_word (by omega) (gives_ite (unwrap_gives hlen) fun hwrap => ?_)
  have hgives := selected_gives 0 bytes.length (by omega : 0 + 4 ≤ bytes.length) (by omega)
  rw [List.drop_zero] at hwrap
  rw [payload, if_neg (not_not.mpr (by exact hlen))]
  simpa [hwrap, field] using hgives

theorem magic_iff : magic.isPrefixOf bytes = true ↔
    4 ≤ bytes.length ∧ ofBytes (bytes.take 4) = 0xdec04342 := isPrefixOf_iff rfl

theorem unwrapFields_gives (sha256 : List UInt8 → String) (version offset size cpu : Nat) :
    Gives Prod.fst (unwrapFields sha256 bytes version offset size cpu)
      (if version = 0 ∧ Wrapped bytes offset size then some ((bytes.drop offset).take size) else
        none) := by
  unfold Wrapped
  refine gives_ite (fun hno => if_neg (by omega)) fun hfields => ?_
  by_cases hspan : offset > bytes.length ∨ size > bytes.length - offset
  · rw [span, if_pos hspan]
    exact if_neg (by omega)
  rw [span, if_neg hspan]
  -- A payload below four bytes has no magic number.
  have hmagic : magic.isPrefixOf ((bytes.drop offset).take size) = true ↔
      4 ≤ size ∧ ofBytes ((bytes.drop offset).take 4) = 0xdec04342 := by
    rw [magic_iff, List.length_take, List.length_drop, List.take_take]
    have hle : 4 ≤ min size (bytes.length - offset) ↔ 4 ≤ size := by omega
    rw [hle]
    exact and_congr_right fun h => by rw [Nat.min_eq_left h]
  have hzeros : (bytes.drop (offset + size)).any (· != 0) = false ↔
      (bytes.drop (offset + size)).all (· == 0) = true := by simp
  refine gives_ite (fun hno => if_neg fun h => ?_) fun hyes =>
    gives_ite (fun hno => if_neg fun h => ?_)
    fun hrest => ?_
  · exact hno (hmagic.mpr ⟨h.2.2.1, h.2.2.2.2.2.2⟩)
  · rw [List.length_drop, hzeros.mpr h.2.2.2.2.2.1] at hno
    simp at hno
    omega
  · rw [hmagic, not_not] at hyes
    rw [List.length_drop, not_or, Bool.not_eq_true, hzeros] at hrest
    exact if_pos ⟨by omega, by omega, hyes.1, by omega, by omega, hrest.2, hyes.2⟩

theorem unpackBitcode_gives (sha256 : List UInt8 → String) (bytes : List UInt8) :
    Gives Prod.fst (unpackBitcode sha256 bytes) (payload bytes) := by
  refine gives_ite (fun hno => if_pos hno) fun hlen => ?_
  have hlen := not_not.mp hlen
  have hwrapper : wrapper.isPrefixOf bytes = true ↔ 4 ≤ bytes.length ∧ field bytes 0 = 0x0b17c0de :=
    isPrefixOf_iff rfl
  refine gives_ite (fun hraw => ?_) fun hraw => gives_ite (fun hno => ?_) fun hwrap => ?_
  · have hhead : field bytes 0 = 0xdec04342 := (magic_iff.mp hraw).2
    simp [Gives, payload, hlen, hhead]
  · have hraw : field bytes 0 ≠ 0xdec04342 := fun h => hraw (magic_iff.mpr ⟨hlen.1, h⟩)
    have hno : field bytes 0 ≠ 0x0b17c0de := fun h => hno (hwrapper.mpr ⟨hlen.1, h⟩)
    simp [Gives, payload, hraw, hno]
  rw [payload_wrapped hlen (hwrapper.mp (not_not.mp hwrap)).2]
  refine gives_ite (fun hno => if_neg (by omega)) fun hheader => ?_
  rw [unpackFrom, if_neg hheader]
  simp only [not_lt.mp hheader, true_and]
  exact unwrapFields_gives sha256 (field bytes 1) (field bytes 2) (field bytes 3) (field bytes 4)

theorem Gives.toOption {x : Read α} (h : Gives part x p) :
    (x.map part).toOption = p ∧ x ≠ .error .outside := by
  match x, h with
  | .ok a, h => exact ⟨h.symm, nofun⟩
  | .error (.refused _), h => exact ⟨h.symm, nofun⟩

/-- Both take out the same payload or none, and never read outside. -/
theorem containers_agree (sha256 : List UInt8 → String) (bytes : List UInt8) :
    (decodeAirBitcode bytes).toOption = ((unpackBitcode sha256 bytes).map Prod.fst).toOption ∧
      decodeAirBitcode bytes ≠ .error .outside ∧ unpackBitcode sha256 bytes ≠ .error .outside := by
  rcases (decodeAirBitcode_gives bytes).toOption with ⟨hdecode, hinside⟩
  rcases (unpackBitcode_gives sha256 bytes).toOption with ⟨hunpack, hinside'⟩
  refine ⟨?_, hinside, hinside'⟩
  rw [hunpack, ← hdecode]
  cases decodeAirBitcode bytes <;> rfl

end Agreement

end Mellow.AirContainer
