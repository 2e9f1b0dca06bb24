import Mathlib.Data.List.Basic
import Mellow.Lib.FirstFit
import Mellow.Xe.VirtualMemory.Lifecycle

/-!
# Reserve Is First Fit

`reserve` looks for room with a loop that has no bound. A jump goes to the end
of the furthest allocation in the way, rounded up. The operations with `Word` in
their name are the source's sums in 64 bits; inside the address space they agree
with the exact ones.

## Main definitions

* `Suits`: an address that is free.
* `reserveWord`: `reserve` with sums that wrap.

## Theorems

* `search_seeks`: the loop ends.
* `reserve_first_fit`: the lowest free address is taken.
-/

namespace Mellow.XeMemory.VirtualMemory

open Lib

variable {E : Type}

section Loop

variable (vm : VirtualMemory)

/-- One turn of the loop of `reserve`: stay, or go on past what is in the way. -/
def leap (bytes alignment candidate : Nat) : Option Nat :=
  if vm.next candidate bytes = candidate then some candidate
  else alignUp (vm.next candidate bytes) alignment

theorem next_eq_past (candidate bytes : Nat) :
    vm.next candidate bytes = past (fun i => (vm.slots i).Meets candidate bytes)
      (fun i => (vm.slots i).address + (vm.slots i).bytes) (List.range vm.capacity) candidate := by
  unfold next past
  congr 1
  funext next i
  dsimp only
  by_cases hmeets : (vm.slots i).Meets candidate bytes
  · rw [if_pos hmeets]
    by_cases hfar : (vm.slots i).address + (vm.slots i).bytes > next
    · rw [if_pos ⟨hmeets, hfar⟩, Nat.max_eq_right (Nat.le_of_lt hfar)]
    · rw [if_neg fun h => hfar h.2, Nat.max_eq_left (Nat.le_of_not_lt hfar)]
  · rw [if_neg hmeets, if_neg fun h => hmeets h.1]

theorem le_next (candidate bytes : Nat) : candidate ≤ vm.next candidate bytes := by
  rw [next_eq_past]
  exact le_past _ _

theorem alignUp_some {value alignment c : Nat} (h : alignUp value alignment = some c)
    (hpos : 0 < value) :
    ∃ k ≤ 64, alignment = 2 ^ k ∧ value + 2 ^ k ≤ 2 ^ 64 ∧ c = Lib.alignUp value (2 ^ k) := by
  unfold alignUp at h
  split at h
  · cases h
  · rename_i hgood
    simp only [not_or, not_not, gt_iff_lt, not_lt] at hgood
    rcases hgood with ⟨⟨hne, hpow⟩, hroom⟩
    rcases (Nat.and_sub_one_eq_zero_iff_isPowerOfTwo hne).mp hpow with ⟨k, rfl⟩
    have hone : 0 < 2 ^ k := Nat.two_pow_pos k
    -- There is room for a whole alignment, so the exponent fits the word.
    have hk : k ≤ 64 := by
      by_contra hbig
      have hle : (2 : Nat) ^ 65 ≤ 2 ^ k := Nat.pow_le_pow_right (by omega) (by omega)
      omega
    cases h
    exact ⟨k, hk, rfl, by omega, rfl⟩

theorem lt_leap {vm : VirtualMemory} {bytes alignment candidate c : Nat}
    (h : vm.leap bytes alignment candidate = some c) (hne : c ≠ candidate) : candidate < c := by
  unfold leap at h
  split at h
  · exact absurd (Option.some.inj h).symm hne
  · have hnext := le_next vm candidate bytes
    rcases alignUp_some h (by omega) with ⟨k, hk, _, hroom, rfl⟩
    have := le_alignUp hk hroom
    omega

theorem search_eq_seek (bytes alignment fuel : Nat) : ∀ candidate,
    vm.search bytes alignment fuel candidate
      = seek (fun c => Span c bytes vm.limit) (vm.leap bytes alignment) fuel candidate := by
  induction fuel with
  | zero => exact fun _ => rfl
  | succ k ih =>
    intro candidate
    unfold search seek
    by_cases hspan : Span candidate bytes vm.limit
    · rw [if_pos hspan, if_pos hspan]
      dsimp only
      by_cases hstay : vm.next candidate bytes = candidate
      · rw [if_pos hstay, leap, if_pos hstay, Option.bind_some, if_pos rfl]
      · have hleap : vm.leap bytes alignment candidate = alignUp (vm.next candidate bytes)
          alignment :=
          if_neg hstay
        rw [if_neg hstay, hleap]
        cases hup : alignUp (vm.next candidate bytes) alignment with
        | none => rfl
        | some c =>
          have hlt := le_next vm candidate bytes
          rcases alignUp_some hup (by omega) with ⟨j, hj, _, hroom, hc⟩
          have := le_alignUp hj hroom
          rw [Option.bind_some, Option.bind_some, if_neg (by omega), ih]
    · rw [if_neg hspan, if_neg hspan]

/-- The loop ends: there are fewer addresses ahead at every turn. -/
theorem search_seeks (bytes alignment candidate : Nat) :
    Seeks (fun c => Span c bytes vm.limit) (vm.leap bytes alignment) candidate
      (vm.search bytes alignment (vm.limit + 1) candidate) := by
  rw [search_eq_seek]
  have hless : ∀ b c, True → Span b bytes vm.limit → vm.leap bytes alignment b = some c → c ≠ b →
      True ∧ vm.limit - c < vm.limit - b := by
    intro b c _ hfit hj hne
    have hlt := lt_leap hj hne
    have := hfit.2.1
    exact ⟨trivial, by omega⟩
  exact seek_seeks hless _ candidate trivial (by omega)

end Loop

section Complete

/-- The bounds are those of an address space, with all use inside. -/
structure Table (vm : VirtualMemory) : Prop where
  geometry : vm.ready = true → Geometry vm.capacity vm.first vm.limit
  placed : ∀ i < vm.capacity, (vm.slots i).state ≠ .free →
    (vm.slots i).address + (vm.slots i).bytes ≤ vm.limit

def Suits (vm : VirtualMemory) (bytes alignment p : Nat) : Prop :=
  alignment ∣ p ∧ vm.first ≤ p ∧ p + bytes ≤ vm.limit ∧
    ∀ i < vm.capacity, ¬ (vm.slots i).Meets p bytes

variable {vm : VirtualMemory} {k bytes : Nat}

theorem meets_iff_hits {candidate i : Nat} :
    (vm.slots i).Meets candidate bytes ↔
      Hits (fun i => (vm.slots i).state ≠ .free) (fun i => (vm.slots i).address)
        (fun i => (vm.slots i).address + (vm.slots i).bytes) bytes candidate i := Iff.rfl

theorem next_cases (vm : VirtualMemory) (candidate bytes : Nat) :
    vm.next candidate bytes = candidate ∨ ∃ i ∈ List.range vm.capacity,
      (vm.slots i).Meets candidate bytes ∧
        vm.next candidate bytes = (vm.slots i).address + (vm.slots i).bytes := by
  rw [next_eq_past]
  exact past_cases _ candidate

theorem alignUp_room (hk : k ≤ 63) {x : Nat} (hx : x ≤ vaLimit) : x + 2 ^ k ≤ 2 ^ 64 := by
  have hpow : (2 : Nat) ^ k ≤ 2 ^ 63 := Nat.pow_le_pow_right (by omega) hk
  have hva : vaLimit = 2 ^ 48 := by decide
  omega

theorem alignUp_eq_some (hk : k ≤ 63) {x : Nat} (hx : x ≤ vaLimit) :
    alignUp x (2 ^ k) = some (Lib.alignUp x (2 ^ k)) := by
  have hroom := alignUp_room hk hx
  have hpos : 0 < 2 ^ k := Nat.two_pow_pos k
  have hpow : PowerOfTwo (2 ^ k) :=
    ⟨by omega, (Nat.and_sub_one_eq_zero_iff_isPowerOfTwo (by omega)).mpr ⟨k, rfl⟩⟩
  unfold alignUp
  rw [if_neg]
  rintro (hno | hno)
  · exact hno hpow
  · omega

variable (hk : k ≤ 63) (htable : Table vm) (hready : vm.ready = true)

include hk htable hready

variable (bytes) in
/-- A turn is right: it goes to the rounded end of an allocation in the way. -/
theorem search_leaps :
    Leaps (fun c => Span c bytes vm.limit)
      (fun p => 2 ^ k ∣ p ∧ Clear (fun i => (vm.slots i).state ≠ .free)
        (fun i => (vm.slots i).address)
        (fun i => (vm.slots i).address + (vm.slots i).bytes) (List.range vm.capacity) bytes p)
      (fun c => 2 ^ k ∣ c) (vm.leap bytes (2 ^ k)) where
  stay b hb _ hj := by
    have hstay : vm.next b bytes = b := by
      by_contra hne
      have hleap : vm.leap bytes (2 ^ k) b = alignUp (vm.next b bytes) (2 ^ k) := if_neg hne
      have hnext := le_next vm b bytes
      rcases alignUp_some (hleap.symm.trans hj) (by omega) with ⟨j, hj', _, hroom, hc⟩
      have := le_alignUp hj' hroom
      omega
    rw [next_eq_past] at hstay
    exact ⟨hb, clear_of_past hstay (fun i _ hhit => hhit) fun i _ _ => Nat.le_refl _⟩
  skip b c hb _ hj hne := by
    rcases next_cases vm b bytes with hstay | ⟨i, hi, hmeets, hend⟩
    · rw [leap, if_pos hstay] at hj
      exact absurd (Option.some.inj hj).symm hne
    · have hplaced := htable.placed i (List.mem_range.mp hi) hmeets.1
      have hlimit := (htable.geometry hready).2.2.1
      have hroom := alignUp_room hk (Nat.le_trans hplaced hlimit)
      have hlt : vm.next b bytes ≠ b := by
        have := hmeets.2.1
        omega
      rw [leap, if_neg hlt, hend, alignUp_eq_some hk (Nat.le_trans hplaced hlimit)] at hj
      cases hj
      have hle := le_alignUp (by omega) hroom
      have hmeets' := meets_iff_hits.mp hmeets
      refine ⟨alignUp_dvd (by omega) hroom, by have := hmeets.2.1; omega, fun p hbp hpc hgood => ?_⟩
      exact not_clear_of_hits hi hmeets' hbp (lt_of_lt_alignUp (by omega) hroom hgood.1 hpc) hgood.2
  lost b _ _ hj := by
    rcases next_cases vm b bytes with hstay | ⟨i, hi, hmeets, hend⟩
    · rw [leap, if_pos hstay] at hj
      cases hj
    · have hplaced := htable.placed i (List.mem_range.mp hi) hmeets.1
      have hlimit := (htable.geometry hready).2.2.1
      unfold leap at hj
      split at hj
      · cases hj
      · rw [hend, alignUp_eq_some hk (Nat.le_trans hplaced hlimit)] at hj
        cases hj
  down p q hle hfit := ⟨hfit.1, by have := hfit.2.1; omega, by have := hfit.2.2; omega⟩

omit htable hready in
theorem suits_iff (hfirst : vm.first ≤ vaLimit) (hbytes : bytes ≠ 0) {p : Nat} :
    vm.Suits bytes (2 ^ k) p ↔ Lib.alignUp vm.first (2 ^ k) ≤ p ∧
      (2 ^ k ∣ p ∧ Clear (fun i => (vm.slots i).state ≠ .free) (fun i => (vm.slots i).address)
        (fun i => (vm.slots i).address + (vm.slots i).bytes) (List.range vm.capacity) bytes p) ∧
      Span p bytes vm.limit := by
  have hroom := alignUp_room hk hfirst
  have hup := le_alignUp (x := vm.first) (k := k) (by omega) hroom
  constructor
  · rintro ⟨hdvd, hlo, hhi, hclear⟩
    refine ⟨?_, ⟨hdvd, fun i hi => hclear i (List.mem_range.mp hi)⟩, hbytes, by omega, by omega⟩
    by_contra hlt
    have := lt_of_lt_alignUp (by omega) hroom hdvd (by omega)
    omega
  · rintro ⟨hlo, ⟨hdvd, hclear⟩, _, hlt, hfit⟩
    exact ⟨hdvd, by omega, by omega, fun i hi => hclear i (List.mem_range.mpr hi)⟩

/-- The loop finds the lowest address that suits, if there is one. -/
theorem search_suits (hbytes : bytes ≠ 0) :
    match (alignUp vm.first (2 ^ k)).bind (vm.search bytes (2 ^ k) (vm.limit + 1)) with
    | some p => IsLeast { q | vm.Suits bytes (2 ^ k) q } p
    | none => ∀ q, ¬ vm.Suits bytes (2 ^ k) q := by
  have hgeo := htable.geometry hready
  have hfirst : vm.first ≤ vaLimit := Nat.le_trans (Nat.le_of_lt hgeo.2.1) hgeo.2.2.1
  have hbase : 2 ^ k ∣ Lib.alignUp vm.first (2 ^ k) :=
    alignUp_dvd (by omega) (alignUp_room hk hfirst)
  have hseeks := search_seeks vm bytes (2 ^ k) (Lib.alignUp vm.first (2 ^ k))
  have hleaps := search_leaps bytes hk htable hready
  rw [alignUp_eq_some hk hfirst, Option.bind_some]
  simp only [suits_iff hk hfirst hbytes]
  generalize vm.search bytes (2 ^ k) (vm.limit + 1) (Lib.alignUp vm.first (2 ^ k)) = r at hseeks
  cases r with
  | some p => exact hseeks.least hleaps hbase
  | none => exact fun q hq => hseeks.none hleaps hbase q hq.1 hq.2.2 hq.2.1

end Complete

section Words

/-- The end of an allocation as the source adds it up. -/
def endWord (a : Allocation) : Nat := (a.address + a.bytes) % 2 ^ 64

/-- The intersection test, on words. -/
def MeetsWord (a : Allocation) (address bytes : Nat) : Prop :=
  a.state ≠ .free ∧ address < endWord a ∧ a.address < (address + bytes) % 2 ^ 64
  deriving Decidable

def nextWord (vm : VirtualMemory) (candidate bytes : Nat) : Nat :=
  (List.range vm.capacity).foldl (fun next i =>
    let a := vm.slots i
    if MeetsWord a candidate bytes ∧ endWord a > next then endWord a else next) candidate

def searchWord (vm : VirtualMemory) (bytes alignment : Nat) : Nat → Nat → Option Nat
  | 0, _ => none
  | fuel + 1, candidate =>
    if Span candidate bytes vm.limit then
      let next := vm.nextWord candidate bytes
      if next = candidate then some candidate
      else (alignUp next alignment).bind (vm.searchWord bytes alignment fuel)
    else none

def AvailableWord (vm : VirtualMemory) (address bytes : Nat) : Prop :=
  vm.ready = true ∧ vm.first ≤ address ∧ Span address bytes vm.limit ∧
    address % pageSize = 0 ∧ bytes % pageSize = 0 ∧
    ∀ i < vm.capacity, ¬ MeetsWord (vm.slots i) address bytes

instance (vm : VirtualMemory) (address bytes : Nat) : Decidable (vm.AvailableWord address bytes) :=
  inferInstanceAs (Decidable (_ ∧ _))

def insertWord (owner address bytes : Nat) (state : State) : Op E (Except Status Handle) := do
  let vm ← look
  if ¬ vm.AvailableWord address bytes then return .error .invalid
  if vm.nextGeneration = 0 ∨ vm.nextGeneration = 2 ^ 64 - 1 then return .error .noSpace
  match vm.freeSlot with
  | none => return .error .noSpace
  | some i =>
    note (.issued i vm.nextGeneration)
    edit fun vm => { vm.setSlot i (vm.allocation owner address bytes state) with
                     nextGeneration := (vm.nextGeneration + 1) % 2 ^ 64 }
    return .ok ⟨i, vm.nextGeneration⟩

/-- `reserve`, with every sum on words. -/
def reserveWord (owner bytes alignment : Nat) : Op E (Except Status Handle) := do
  let vm ← look
  if vm.ready = false ∨ owner = 0 ∨ bytes = 0 ∨ bytes % pageSize ≠ 0 ∨ alignment < pageSize ∨
      ¬ PowerOfTwo alignment then return .error .invalid
  match (alignUp vm.first alignment).bind (vm.searchWord bytes alignment (vm.limit + 1)) with
  | none => return .error .noSpace
  | some candidate => insertWord owner candidate bytes .reserved

variable {vm : VirtualMemory}

section

variable (htable : Table vm) (hready : vm.ready = true) {bytes : Nat}

include htable hready

theorem endWord_eq {i : Nat} (hi : i < vm.capacity) (hlive : (vm.slots i).state ≠ .free) :
    endWord (vm.slots i) = (vm.slots i).address + (vm.slots i).bytes := by
  have hplaced := htable.placed i hi hlive
  have hlimit := (htable.geometry hready).2.2.1
  have hva : vaLimit = 2 ^ 48 := by decide
  exact Nat.mod_eq_of_lt (by omega)

theorem meetsWord_iff {i address : Nat} (hi : i < vm.capacity)
    (hspan : Span address bytes vm.limit) :
    MeetsWord (vm.slots i) address bytes ↔ (vm.slots i).Meets address bytes := by
  have hlimit := (htable.geometry hready).2.2.1
  have hva : vaLimit = 2 ^ 48 := by decide
  have hsum : (address + bytes) % 2 ^ 64 = address + bytes := by
    have := hspan.2.1
    have := hspan.2.2
    exact Nat.mod_eq_of_lt (by omega)
  unfold MeetsWord
  rw [hsum]
  by_cases hlive : (vm.slots i).state ≠ .free
  · rw [endWord_eq htable hready hi hlive]
    exact Iff.rfl
  · exact ⟨fun h => absurd h.1 hlive, fun h => absurd h.1 hlive⟩

theorem nextWord_eq {candidate : Nat} (hspan : Span candidate bytes vm.limit) :
    vm.nextWord candidate bytes = vm.next candidate bytes := by
  unfold nextWord next
  refine List.foldl_ext _ _ _ fun next i hi => ?_
  have hi := List.mem_range.mp hi
  dsimp only
  have hiff := meetsWord_iff htable hready hi hspan
  by_cases hmeets : (vm.slots i).Meets candidate bytes
  · rw [endWord_eq htable hready hi hmeets.1]
    simp only [hmeets, hiff.mpr hmeets, true_and]
  · simp [*]

theorem searchWord_eq (bytes alignment fuel : Nat) : ∀ candidate,
    vm.searchWord bytes alignment fuel candidate = vm.search bytes alignment fuel candidate := by
  induction fuel with
  | zero => exact fun _ => rfl
  | succ k ih =>
    intro candidate
    unfold searchWord search
    by_cases hspan : Span candidate bytes vm.limit
    · rw [if_pos hspan, if_pos hspan, nextWord_eq htable hready hspan, funext ih]
    · rw [if_neg hspan, if_neg hspan]

theorem availableWord_iff {address : Nat} :
    vm.AvailableWord address bytes ↔ vm.Available address bytes := by
  constructor
  · rintro ⟨hr, hfirst, hspan, ha, hb, hclear⟩
    exact ⟨hr, hfirst, hspan, ha, hb, fun i hi h =>
      hclear i hi ((meetsWord_iff htable hready hi hspan).mpr h)⟩
  · rintro ⟨hr, hfirst, hspan, ha, hb, hclear⟩
    exact ⟨hr, hfirst, hspan, ha, hb, fun i hi h =>
      hclear i hi ((meetsWord_iff htable hready hi hspan).mp h)⟩

end

variable {s : World E}

theorem insertWord_eq (htable : Table s.obj) (hready : s.obj.ready = true)
    (hgen : s.obj.nextGeneration < 2 ^ 64) (owner address bytes : Nat) (state : State) :
    insertWord owner address bytes state s = insert owner address bytes state s := by
  unfold insertWord insert
  rw [look_bind, look_bind]
  by_cases hroom : s.obj.Available address bytes
  · have hroom' := (availableWord_iff htable hready).mpr hroom
    rw [if_neg (not_not.mpr hroom'), if_neg (not_not.mpr hroom)]
    by_cases hlast : s.obj.nextGeneration = 0 ∨ s.obj.nextGeneration = 2 ^ 64 - 1
    · rw [if_pos hlast, if_pos hlast]
    · rw [if_neg hlast, if_neg hlast]
      cases s.obj.freeSlot with
      | none => rfl
      | some i =>
        have hnext : (s.obj.nextGeneration + 1) % 2 ^ 64 = s.obj.nextGeneration + 1 :=
          Nat.mod_eq_of_lt (by omega)
        change (_, (s.heard _ s.env).put { s.obj.setSlot i _ with
          nextGeneration := (s.obj.nextGeneration + 1) % 2 ^ 64 }) = _
        rw [hnext]
        rfl
  · have hroom' : ¬ s.obj.AvailableWord address bytes :=
      fun h => hroom ((availableWord_iff htable hready).mp h)
    rw [if_pos hroom', if_pos hroom]

/-- No sum that wraps has a say in the result. -/
theorem reserveWord_eq (htable : Table s.obj) (hgen : s.obj.nextGeneration < 2 ^ 64)
    (owner bytes alignment : Nat) :
    reserveWord owner bytes alignment s = reserve owner bytes alignment s := by
  unfold reserveWord reserve
  rw [look_bind, look_bind]
  split
  · rfl
  · rename_i hargs
    have hready : s.obj.ready = true := Bool.eq_true_of_not_eq_false fun h => hargs (.inl h)
    rw [funext (searchWord_eq htable hready bytes alignment (s.obj.limit + 1))]
    cases (alignUp s.obj.first alignment).bind (s.obj.search bytes alignment (s.obj.limit + 1)) with
    | none => rfl
    | some candidate => exact insertWord_eq htable hready hgen owner candidate bytes .reserved

end Words

section Reserving

variable {vm : VirtualMemory} {owner bytes alignment : Nat} {s : World E}

structure Asks (vm : VirtualMemory) (owner bytes alignment : Nat) : Prop where
  ready : vm.ready = true
  named : owner ≠ 0
  some : bytes ≠ 0
  pages : bytes % pageSize = 0
  least : pageSize ≤ alignment
  power : PowerOfTwo alignment

def Exhausted (vm : VirtualMemory) (bytes alignment : Nat) : Prop :=
  (∀ i < vm.capacity, (vm.slots i).state ≠ .free) ∨
    (vm.nextGeneration = 0 ∨ vm.nextGeneration = 2 ^ 64 - 1) ∨
    ∀ p, ¬ vm.Suits bytes alignment p

theorem Asks.pow (h : Asks vm owner bytes alignment) (halign : alignment < 2 ^ 64) :
    ∃ k ≤ 63, 12 ≤ k ∧ alignment = 2 ^ k := by
  rcases (Nat.and_sub_one_eq_zero_iff_isPowerOfTwo h.power.1).mp h.power.2 with ⟨k, rfl⟩
  have hk : k < 64 := (Nat.pow_lt_pow_iff_right (by decide)).mp halign
  have h12 : 12 ≤ k := (Nat.pow_le_pow_iff_right (a := 2) (by decide)).mp h.least
  exact ⟨k, by omega, h12, rfl⟩

theorem Suits.available (h : Asks vm owner bytes alignment) (halign : alignment < 2 ^ 64) {p : Nat}
    (hp : vm.Suits bytes alignment p) : vm.Available p bytes := by
  rcases h.pow halign with ⟨k, _, h12, rfl⟩
  rcases hp with ⟨hdvd, hlo, hhi, hclear⟩
  have hpos := Nat.pos_of_ne_zero h.some
  have hpage : p % pageSize = 0 :=
    Nat.mod_eq_zero_of_dvd (Nat.dvd_trans (Nat.pow_dvd_pow 2 h12) hdvd)
  exact ⟨h.ready, hlo, ⟨h.some, by omega, by omega⟩, hpage, h.pages, hclear⟩

def Filled (vm : VirtualMemory) (owner address bytes : Nat) (h : Handle) (vm' : VirtualMemory) :
    Prop :=
  h.slot < vm.capacity ∧ (vm.slots h.slot).state = .free ∧
    vm'.slots h.slot = vm.allocation owner address bytes .reserved ∧
    ∀ i, i ≠ h.slot → vm'.slots i = vm.slots i

/-- Inserting where there is room fails only for want of a slot or a
    generation. -/
theorem insert_outcome {address : Nat} (hroom : s.obj.Available address bytes) (owner : Nat) :
    (∃ h, (insert owner address bytes .reserved s).1 = .ok h ∧
        Filled s.obj owner address bytes h (insert owner address bytes .reserved s).2.obj ∧
        s.obj.nextGeneration ≠ 0 ∧ s.obj.nextGeneration ≠ 2 ^ 64 - 1) ∨
      ((insert owner address bytes .reserved s).1 = .error .noSpace ∧
        ((∀ i < s.obj.capacity, (s.obj.slots i).state ≠ .free) ∨
          (s.obj.nextGeneration = 0 ∨ s.obj.nextGeneration = 2 ^ 64 - 1))) := by
  unfold insert
  rw [look_bind, if_neg (not_not.mpr hroom)]
  by_cases hlast : s.obj.nextGeneration = 0 ∨ s.obj.nextGeneration = 2 ^ 64 - 1
  · rw [if_pos hlast]
    exact .inr ⟨rfl, .inr hlast⟩
  rw [if_neg hlast]
  cases hslot : s.obj.freeSlot with
  | none =>
    refine .inr ⟨rfl, .inl fun i hi hfree => ?_⟩
    exact List.find?_eq_none.mp hslot i (List.mem_range.mpr hi) (decide_eq_true hfree)
  | some i =>
    rcases freeSlot_some hslot with ⟨hi, hfree⟩
    rw [not_or] at hlast
    refine .inl ⟨⟨i, s.obj.nextGeneration⟩, rfl, ⟨hi, hfree, ?_, fun j hj => ?_⟩, hlast⟩
    · exact Function.update_self _ _ _
    · exact Function.update_of_ne hj _ _

theorem reserve_eq (h : Asks s.obj owner bytes alignment) :
    reserve owner bytes alignment s =
      match (alignUp s.obj.first alignment).bind
        (s.obj.search bytes alignment (s.obj.limit + 1)) with
      | none => (.error .noSpace, s)
      | some candidate => insert owner candidate bytes .reserved s := by
  have hargs : ¬ (s.obj.ready = false ∨ owner = 0 ∨ bytes = 0 ∨ bytes % pageSize ≠ 0 ∨
      alignment < pageSize ∨ ¬ PowerOfTwo alignment) := by
    have := h.least
    rintro (hno | hno | hno | hno | hno | hno)
    · exact absurd (hno.symm.trans h.ready) nofun
    · exact h.named hno
    · exact h.some hno
    · exact hno h.pages
    · omega
    · exact hno h.power
  unfold reserve
  rw [look_bind, if_neg hargs]
  cases (alignUp s.obj.first alignment).bind
    (s.obj.search bytes alignment (s.obj.limit + 1)) <;> rfl

/-- For every table of the class, and all sizes and alignments: the loop of
    `reserve` ends, no sum that wraps has a say in the result, and the result is
    the lowest address that suits. It reports that there is no space exactly
    when there is none. -/
theorem reserve_first_fit (s : World E) (owner bytes alignment : Nat)
    (htable : Table s.obj) (hgen : s.obj.nextGeneration < 2 ^ 64) (halign : alignment < 2 ^ 64) :
    reserveWord owner bytes alignment s = reserve owner bytes alignment s ∧
      (∀ candidate, Seeks (fun c => Span c bytes s.obj.limit) (s.obj.leap bytes alignment) candidate
        (s.obj.search bytes alignment (s.obj.limit + 1) candidate)) ∧
      (Asks s.obj owner bytes alignment →
        ((reserve owner bytes alignment s).1 = .error .noSpace ↔ Exhausted s.obj bytes alignment) ∧
        (¬ Exhausted s.obj bytes alignment → ∃ h p, (reserve owner bytes alignment s).1 = .ok h ∧
          IsLeast { q | s.obj.Suits bytes alignment q } p ∧
          Filled s.obj owner p bytes h (reserve owner bytes alignment s).2.obj)) := by
  refine ⟨reserveWord_eq htable hgen owner bytes alignment, search_seeks s.obj bytes alignment,
    fun hasks => ?_⟩
  have hplace : (∃ h p, (reserve owner bytes alignment s).1 = .ok h ∧
        IsLeast { q | s.obj.Suits bytes alignment q } p ∧
        Filled s.obj owner p bytes h (reserve owner bytes alignment s).2.obj ∧
        ¬ Exhausted s.obj bytes alignment) ∨
      ((reserve owner bytes alignment s).1 = .error .noSpace ∧
        Exhausted s.obj bytes alignment) := by
    have hsuits : match (alignUp s.obj.first alignment).bind
          (s.obj.search bytes alignment (s.obj.limit + 1)) with
        | some p => IsLeast { q | s.obj.Suits bytes alignment q } p
        | none => ∀ q, ¬ s.obj.Suits bytes alignment q := by
      rcases hasks.pow halign with ⟨k, hk, _, rfl⟩
      exact search_suits hk htable hasks.ready hasks.some
    rw [reserve_eq hasks]
    cases hfind : (alignUp s.obj.first alignment).bind
        (s.obj.search bytes alignment (s.obj.limit + 1)) with
    | none =>
      rw [hfind] at hsuits
      exact .inr ⟨rfl, .inr (.inr hsuits)⟩
    | some p =>
      rw [hfind] at hsuits
      rcases insert_outcome (s := s) (Suits.available hasks halign hsuits.1) owner with
        ⟨h, hok, hfilled, hgen₀, hgen₁⟩ | ⟨hno, hwhy⟩
      · refine .inl ⟨h, p, hok, hsuits, hfilled, ?_⟩
        rintro (hall | hlast | hnone)
        · exact hall h.slot hfilled.1 hfilled.2.1
        · exact hlast.elim hgen₀ hgen₁
        · exact hnone p hsuits.1
      · exact .inr ⟨hno, hwhy.imp_right .inl⟩
  rcases hplace with ⟨h, p, hok, hleast, hfilled, hroom⟩ | ⟨hno, hfull⟩
  · rw [hok]
    exact ⟨⟨nofun, fun hfull => absurd hfull hroom⟩, fun _ => ⟨h, p, rfl, hleast, hfilled⟩⟩
  · simp [*]

theorem step_geometry {s t : World E} (h : Step s t)
    (hs : s.obj.ready = true → Geometry s.obj.capacity s.obj.first s.obj.limit) :
    t.obj.ready = true → Geometry t.obj.capacity t.obj.first t.obj.limit := by
  cases h with
  | move h =>
    cases h with
    | setUp capacity first limit backend _ hgood => exact fun _ => hgood
    | insert | turn => exact hs
  | recount => exact hs

theorem run_table (io : Backend E) (calls : List Call) (env : E) :
    Table (run io calls env).obj := by
  refine ⟨?_, fun i _ hlive => (((run_inv io calls env).sound i).placed hlive).2.2.2.2⟩
  have hsteps : Steps (start env) (run io calls env) := run_steps calls env
  generalize run io calls env = t at hsteps ⊢
  induction hsteps with
  | refl => exact nofun
  | tail _ hstep ih => exact step_geometry hstep ih

def silent : Backend Unit where
  pin _ _ e := ((.unavailable, Pin.empty), e)
  unpin p e := ((.ok, p), e)
  bind _ _ _ _ e := (.unavailable, e)
  unbind _ _ e := (.unavailable, e)
  fenceComplete _ e := (false, e)
  dma _ _ _ := 0

def holed : World Unit :=
  run silent [.initializeMemory 4 0x1000 0x10000 ⟨false, false, false, false, false, 0⟩,
    .exclude 0x2000 0x2000] ()

theorem reserve_first_fit_holed :
    (reserve 7 0x2000 0x1000 holed).1 = .ok ⟨1, 2⟩ ∧
      (reserve 7 0x1000 0x8000000000000000 holed).1 = .error .noSpace ∧
      ((reserve 7 0x1000 0x8000000000000000 holed).1 = .error .noSpace ↔
        Exhausted holed.obj 0x1000 0x8000000000000000) := by
  have hasks : Asks holed.obj 7 0x1000 0x8000000000000000 := by
    constructor <;> decide
  have hfit := reserve_first_fit holed 7 0x1000 0x8000000000000000 (run_table silent _ ())
    (by decide) (by decide)
  exact ⟨by decide, by decide, (hfit.2.2 hasks).1⟩

end Reserving

end Mellow.XeMemory.VirtualMemory
