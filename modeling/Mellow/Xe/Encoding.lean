import Mathlib.Tactic.IntervalCases
import Mellow.Lib.Bits

/-!
# Page Table Entry Encodings

The entry encoders of `Drivers/PortedXe/XePageTable.cpp` with the helpers of
`XePteAlgorithms.inc`, and the narrower wrappers of `XeMemory.cpp`. An entry is
a page-aligned DMA address with flag bits. The driver always passes the width
46, and the wrappers require the page to lie below `dmaLimit`.

Entries are natural numbers standing for 64-bit words; every address is checked
below `2 ^ 52`, so no sum leaves the word.

## Main definitions

* `encodeGgtt`: entries of the global table.
* `encodeSystemPte4K`: leaf entries of a process.
* `encodeSystemPde`: directory entries.

## Theorems

* `pte_ne_zero`: an entry is never zero.
* `entries_decode`: masking an entry gives its address back.
-/

namespace Mellow

def pageSize : Nat := 4096

def bit (n : Nat) : Nat := 1 <<< n

namespace PortedXe

inductive Status where
  | ok | invalidAddress | invalidPat | invalidLevel | invalidArgument
  | busy | pinFailed | ioFailure | notBound
  deriving DecidableEq, Repr

def xelpgGgttPtePat0 : Nat := bit 52
def xelpgGgttPtePat1 : Nat := bit 53
def xelpgPpgttPtePat3 : Nat := bit 62
def xe2PpgttPtePat4 : Nat := bit 61
def xePpgttPdePdpePat2 : Nat := bit 12
def xePpgttPtePat2 : Nat := bit 7
def xePpgttPtePat1 : Nat := bit 4
def xePpgttPtePat0 : Nat := bit 3
def xePdePs2M : Nat := bit 7
def xePdpePs1G : Nat := bit 7
def xeGgttPteDm : Nat := bit 1
def xePpgttPteDm : Nat := bit 11
def xePagePresent : Nat := bit 0
def xePageRw : Nat := bit 1

/-- Set `flag` when the given bit of a PAT index is set. -/
def patBit (pat n flag : Nat) : Nat := if pat &&& bit n ≠ 0 then flag else 0

def xelpGgttPteFlags (devmem : Bool) : Nat :=
  xePagePresent ||| (if devmem then xeGgttPteDm else 0)

def xelpgGgttPteFlags (devmem : Bool) (pat : Nat) : Nat :=
  xelpGgttPteFlags devmem ||| patBit pat 0 xelpgGgttPtePat0 ||| patBit pat 1 xelpgGgttPtePat1

def pdeEncodePatIndex (pat : Nat) : Nat :=
  patBit pat 0 xePpgttPtePat0 ||| patBit pat 1 xePpgttPtePat1

def pteEncodePatIndex (pat level : Nat) : Nat :=
  patBit pat 0 xePpgttPtePat0 ||| patBit pat 1 xePpgttPtePat1 |||
    patBit pat 2 (if level ≠ 0 then xePpgttPdePdpePat2 else xePpgttPtePat2) |||
    patBit pat 3 xelpgPpgttPtePat3 ||| patBit pat 4 xe2PpgttPtePat4

def pteEncodePs (level : Nat) : Nat :=
  if level = 1 then xePdePs2M else if level = 2 then xePdpePs1G else 0

def xelpPteEncodeAddr (addr pat level : Nat) (devmem : Bool) (flags : Nat) : Nat :=
  addr ||| (xePagePresent ||| xePageRw) ||| pteEncodePatIndex pat level ||| pteEncodePs level |||
    (if devmem then xePpgttPteDm else 0) ||| flags

/-- `validAddress`: aligned to the shift and below the DMA width. -/
def ValidAddress (address bits shift : Nat) : Prop :=
  ¬ (bits < shift ∨ bits > 52) ∧ address &&& (bit shift - 1) = 0 ∧ address >>> bits = 0
  deriving Decidable

def encodeGgtt (dma pat : Nat) (devmem : Bool) (addressBits : Nat) : Except Status Nat :=
  if ¬ ValidAddress dma addressBits 12 then .error .invalidAddress
  else if pat > 3 then .error .invalidPat
  else .ok (dma ||| xelpgGgttPteFlags devmem pat)

/-- `encodePpgtt`. The read-only policy clears the RW bit. -/
def encodePpgtt (dma pat level : Nat) (devmem : Bool) (addressBits : Nat) (writable : Bool) :
    Except Status Nat :=
  if level > 2 then .error .invalidLevel
  else if ¬ ValidAddress dma addressBits (12 + 9 * level) then .error .invalidAddress
  else if pat > 15 then .error .invalidPat
  else
    let out := xelpPteEncodeAddr dma pat level devmem 0
    .ok (if writable then out else out &&& (2 ^ 64 - 1 - xePageRw))

def encodePde (dma pat addressBits : Nat) : Except Status Nat :=
  if ¬ ValidAddress dma addressBits 12 then .error .invalidAddress
  else if pat > 3 then .error .invalidPat
  else .ok (dma ||| xePagePresent ||| xePageRw ||| pdeEncodePatIndex pat)

end PortedXe

namespace XeMemory

variable {a pat : Nat} {writable : Bool}

inductive Status where
  | ok | invalid | noSpace | notFound | wrongOwner | busy
  | unavailable | backendFailure | quarantined
  deriving DecidableEq, Repr

def statusOf {α : Type} : Except Status α → Status
  | .ok _ => .ok
  | .error e => e

def vaLimit : Nat := 1 <<< 48

def dmaLimit : Nat := 1 <<< 46

/-- `span`: a nonempty run of bytes from `address` ends at or below `limit`. -/
def Span (address bytes limit : Nat) : Prop :=
  bytes ≠ 0 ∧ address < limit ∧ bytes ≤ limit - address
  deriving Decidable

/-- `dmaPage`: a page-aligned address whose page lies below `dmaLimit`. -/
def DmaPage (address : Nat) : Prop :=
  address &&& (pageSize - 1) = 0 ∧ Span address pageSize dmaLimit
  deriving Decidable

/-- `encodeSystemPte4K`; every failure is `Invalid`. -/
def encodeSystemPte4K (address pat : Nat) (writable : Bool) : Option Nat :=
  if ¬ DmaPage address ∨ pat > 15 then none
  else (PortedXe.encodePpgtt address pat 0 false 46 writable).toOption

/-- `encodeSystemPde`, likewise. -/
def encodeSystemPde (address pat : Nat) : Option Nat :=
  if ¬ DmaPage address ∨ pat > 3 then none
  else (PortedXe.encodePde address pat 46).toOption

/-- `pageTableIndices`: the index at each level, or nothing above the limit. -/
def pageTableIndices (address : Nat) : Option (Nat → Nat) :=
  if address ≥ vaLimit then none
  else some (fun level => (address >>> (12 + 9 * level)) &&& 511)

def addressMask : Nat := (dmaLimit - 1) &&& (2 ^ 64 - 1 - (pageSize - 1))

theorem addressMask_eq : addressMask = 2 ^ 46 - 2 ^ 12 := by decide

theorem dmaPage_iff (a : Nat) : DmaPage a ↔ 2 ^ 12 ∣ a ∧ a < 2 ^ 46 := by
  have hmask : a &&& (pageSize - 1) = a % 2 ^ 12 := Nat.and_two_pow_sub_one_eq_mod a 12
  have hlimit : dmaLimit = 2 ^ 46 := by decide
  unfold DmaPage Span
  rw [hmask, hlimit]
  unfold pageSize
  constructor
  · omega
  · omega

theorem validAddress_of_dmaPage (h : DmaPage a) : PortedXe.ValidAddress a 46 12 := by
  rcases (dmaPage_iff a).mp h with ⟨_, hlt⟩
  refine ⟨by omega, h.1, ?_⟩
  rw [Nat.shiftRight_eq_div_pow]
  exact Nat.div_eq_of_lt hlt

def pdeFlags (pat : Nat) : Nat :=
  PortedXe.xePagePresent ||| PortedXe.xePageRw ||| PortedXe.pdeEncodePatIndex pat

theorem pdeFlags_ne_zero (h : pat ≤ 3) : pdeFlags pat ≠ 0 := by
  interval_cases pat <;> decide

/-- When a directory entry is encoded, and what it is. -/
theorem encodeSystemPde_eq_some_iff (a pat e : Nat) :
    encodeSystemPde a pat = some e ↔ DmaPage a ∧ pat ≤ 3 ∧ e = a ||| pdeFlags pat := by
  unfold encodeSystemPde PortedXe.encodePde
  by_cases hd : DmaPage a
  · by_cases hp : pat ≤ 3
    · rw [if_neg (by simp only [hd, not_true, false_or]; omega),
        if_neg (not_not.mpr (validAddress_of_dmaPage hd)), if_neg (by omega)]
      simp only [Except.toOption, Option.some.injEq, hd, hp, true_and, pdeFlags, Nat.or_assoc]
      exact eq_comm
    · simp [*]
  · simp [*]

theorem pde_ne_zero (h : pat ≤ 3) : a ||| pdeFlags pat ≠ 0 := by
  intro hz
  exact pdeFlags_ne_zero h (Nat.or_eq_zero_iff.mp hz).2

theorem dmaPage_and_addressMask (hd : DmaPage a) : a &&& addressMask = a := by
  rcases (dmaPage_iff a).mp hd with ⟨hdvd, hlt⟩
  have h := Lib.field_or_low (k := 12) (m := 46) (f := 0) (by omega) hdvd hlt (by omega)
  rwa [Nat.or_zero, ← addressMask_eq] at h

theorem pde_and_addressMask (hd : DmaPage a) (hp : pat ≤ 3) :
    (a ||| pdeFlags pat) &&& addressMask = a := by
  have hflags : pdeFlags pat &&& addressMask = 0 := by
    interval_cases pat <;> decide
  rw [Nat.and_or_distrib_right, hflags, dmaPage_and_addressMask hd, Nat.or_zero]

def pteFlags (pat : Nat) (writable : Bool) : Nat :=
  let flags := PortedXe.xelpPteEncodeAddr 0 pat 0 false 0
  if writable then flags else flags &&& (2 ^ 64 - 1 - PortedXe.xePageRw)

theorem dmaPage_and_not_rw (hd : DmaPage a) :
    a &&& (2 ^ 64 - 1 - PortedXe.xePageRw) = a := by
  have hsub : addressMask &&& (2 ^ 64 - 1 - PortedXe.xePageRw) = addressMask := by decide
  calc a &&& (2 ^ 64 - 1 - PortedXe.xePageRw)
      = (a &&& addressMask) &&& (2 ^ 64 - 1 - PortedXe.xePageRw) := by
        rw [dmaPage_and_addressMask hd]
    _ = a &&& addressMask := by rw [Nat.and_assoc, hsub]
    _ = a := dmaPage_and_addressMask hd

theorem xelpPteEncodeAddr_zero (a pat : Nat) :
    PortedXe.xelpPteEncodeAddr a pat 0 false 0
      = a ||| PortedXe.xelpPteEncodeAddr 0 pat 0 false 0 := by
  simp only [PortedXe.xelpPteEncodeAddr, Nat.zero_or, Nat.or_assoc]

/-- When a leaf is encoded, and what it is. -/
theorem encodeSystemPte4K_eq_some_iff (a pat : Nat) (writable : Bool) (e : Nat) :
    encodeSystemPte4K a pat writable = some e ↔
      DmaPage a ∧ pat ≤ 15 ∧ e = a ||| pteFlags pat writable := by
  unfold encodeSystemPte4K PortedXe.encodePpgtt
  by_cases hd : DmaPage a
  · by_cases hp : pat ≤ 15
    · rw [if_neg (by simp only [hd, not_true, false_or]; omega), if_neg (by omega),
        if_neg (not_not.mpr (validAddress_of_dmaPage hd)), if_neg (by omega)]
      cases writable with
      | true =>
        simp only [Except.toOption, Option.some.injEq, hd, hp, true_and, pteFlags, if_true]
        rw [xelpPteEncodeAddr_zero]
        exact eq_comm
      | false =>
        simp only [Except.toOption, Option.some.injEq, hd, hp, true_and, pteFlags,
          Bool.false_eq_true, if_false]
        rw [xelpPteEncodeAddr_zero, Nat.and_or_distrib_right, dmaPage_and_not_rw hd]
        exact eq_comm
    · simp [*]
  · simp [*]

/-- An encoded leaf has its present bit set, so it is never zero. -/
theorem pte_and_one (hd : DmaPage a) (hp : pat ≤ 15) :
    (a ||| pteFlags pat writable) &&& 1 = 1 := by
  have hflags : pteFlags pat writable &&& 1 = 1 := by
    interval_cases pat <;> cases writable <;> decide
  have hlow : a &&& 1 = 0 := by
    have hmask : addressMask &&& 1 = 0 := by decide
    rw [← dmaPage_and_addressMask hd, Nat.and_assoc, hmask, Nat.and_zero]
  rw [Nat.and_or_distrib_right, hflags, hlow, Nat.zero_or]

theorem pte_ne_zero (hd : DmaPage a) (hp : pat ≤ 15) :
    a ||| pteFlags pat writable ≠ 0 := by
  intro hz
  have h := @pte_and_one a pat writable hd hp
  rw [hz] at h
  exact absurd h (by decide)

theorem pte_and_addressMask (hd : DmaPage a) (hp : pat ≤ 15) :
    (a ||| pteFlags pat writable) &&& addressMask = a := by
  have hflags : pteFlags pat writable &&& addressMask = 0 := by
    interval_cases pat <;> cases writable <;> decide
  rw [Nat.and_or_distrib_right, hflags, dmaPage_and_addressMask hd, Nat.or_zero]

/-- Address, PAT index and permission to write of a leaf. -/
def decodePte (e : Nat) : Nat × Nat × Bool :=
  (e &&& addressMask,
    (e.testBit 3).toNat + 2 * (e.testBit 4).toNat + 4 * (e.testBit 7).toNat +
      8 * (e.testBit 62).toNat,
    e.testBit 1)

/-- The address and the PAT index that a directory entry holds. -/
def decodePde (e : Nat) : Nat × Nat :=
  (e &&& addressMask, (e.testBit 3).toNat + 2 * (e.testBit 4).toNat)

/-- An address leaves the bits of the flags alone. -/
theorem testBit_entry (hd : DmaPage a) (f : Nat) {k : Nat} (hk : k < 12 ∨ 46 ≤ k) :
    (a ||| f).testBit k = f.testBit k := by
  have hmask : addressMask.testBit k = false := by
    rw [addressMask_eq, show 2 ^ 46 - 2 ^ 12 = 2 ^ 12 * (2 ^ 34 - 1) by norm_num,
      Nat.testBit_two_pow_mul]
    rcases hk with hk | hk
    · simp [Nat.not_le.mpr hk]
    · rw [Nat.testBit_two_pow_sub_one]
      simp
      omega
  rw [Nat.testBit_or, ← dmaPage_and_addressMask hd, Nat.testBit_and, hmask, Bool.and_false,
    Bool.false_or]

/-- Nothing that an entry was made of is lost in it. -/
theorem entries_decode :
    (∀ a pat writable e, encodeSystemPte4K a pat writable = some e →
      decodePte e = (a, pat, writable)) ∧
    ∀ a pat e, encodeSystemPde a pat = some e → decodePde e = (a, pat) := by
  constructor
  · intro a pat writable e he
    rcases (encodeSystemPte4K_eq_some_iff _ _ _ _).mp he with ⟨hd, hp, rfl⟩
    simp only [decodePte, pte_and_addressMask hd hp, testBit_entry hd, Nat.reduceLT,
      Nat.reduceLeDiff, true_or, or_true]
    interval_cases pat <;> cases writable <;> rfl
  · intro a pat e he
    rcases (encodeSystemPde_eq_some_iff _ _ _).mp he with ⟨hd, hp, rfl⟩
    simp only [decodePde, pde_and_addressMask hd hp, testBit_entry hd, Nat.reduceLT, true_or]
    interval_cases pat <;> rfl

end XeMemory

end Mellow
