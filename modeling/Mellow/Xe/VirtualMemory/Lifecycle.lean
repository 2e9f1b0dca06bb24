import Mellow.Xe.VirtualMemory.Turn

/-!
# The Life of an Allocation

Allocations stay apart, and pins are neither lost nor given back twice. A slot
owes a pin from the `pin` that handed something over, also one that reported
failure, up to an `unpin` that succeeded. A `bind` or `unbind` that neither
succeeded nor was unavailable leaves the mapping unsure for good.
`nextGeneration` only grows, so handles are never reused.

## Main definitions

* `owed`: the pin a slot still owes, by the log.
* `mapping`: what the answers say about the GPU page tables.
* `Tracked`: both agree with the state of the slot.
* `Lifecycle`: what holds after any calls.

## Theorems

* `move_inv`: the moves keep the invariant.
* `run_lifecycle`: every reachable state keeps the guarantees.
-/

namespace Mellow.XeMemory.VirtualMemory

open Lib Function

variable {E : Type}

section Ledger

def Event.slot : Event → Nat
  | .pin i .. | .unpin i .. | .bind i .. | .unbind i .. | .fenceComplete i .. => i
  | .issued i _ | .freed i _ => i

/-- The pin handed over for a slot, also by a refusal. -/
def Event.handed (i : Nat) : Event → Option Pin
  | .pin j _ _ r p => if j = i ∧ (r = .ok ∨ p.Escaped) then some p else none
  | _ => none

def Event.returned (i : Nat) : Event → Bool
  | .unpin j _ r => j = i ∧ r = .ok
  | _ => false

/-- The pin a slot still owes the backend. -/
def owed (i : Nat) : Log → Option Pin
  | [] => none
  | e :: before => (e.event.handed i).or (if e.event.returned i then none else owed i before)

/-- Whether the GPU page tables map a slot, as far as the answers tell. -/
inductive Mapping where
  | clear | set | unsure
  deriving DecidableEq, Repr

/-- The mapping after an update that was to make it `done`. -/
def Mapping.after (m done : Mapping) : Status → Mapping
  | .ok => done
  | .unavailable => m
  | _ => .unsure

def mapping (i : Nat) : Log → Mapping
  | [] => .clear
  | e :: before => match e.event with
    | .bind j _ _ _ _ r => if j = i then (mapping i before).after .set r else mapping i before
    | .unbind j _ _ r => if j = i then (mapping i before).after .clear r else mapping i before
    | _ => mapping i before

/-- Whether the newest line of a slot is an `unpin` that failed. -/
def unpinFailed (i : Nat) : Log → Bool
  | [] => false
  | e :: before => if e.event.slot = i then
      match e.event with
      | .unpin _ _ r => r ≠ .ok
      | _ => false
    else unpinFailed i before

/-- What a line of the log satisfies against the lines before it. -/
def Rule (e : Entry VirtualMemory Event) (before : Log) : Prop :=
  (e.obj.slots e.event.slot).state ≠ .quarantined ∧
    match e.event with
    | .pin i _ _ _ _ => owed i before = none
    | .unpin i p _ => owed i before = some p ∧ mapping i before = .clear
    | .bind i _ p _ _ _ => owed i before = some p ∧ mapping i before = .clear
    | .unbind i address bytes _ =>
      (e.obj.slots i).state = .retiring ∧ (e.obj.slots i).activeUses = 0 ∧
        address = (e.obj.slots i).address ∧ bytes = (e.obj.slots i).bytes ∧
        FenceOver e.obj i before
    | .fenceComplete i fence _ => fence = (e.obj.slots i).lastUse
    | .issued _ g => ∀ e' ∈ before, ∀ j g', e'.event = .issued j g' → g' < g
    | .freed i _ => owed i before = none ∧ mapping i before = .clear

structure Lifecycle (s : World E) : Prop where
  placed : ∀ i, (s.obj.slots i).state ≠ .free →
    (s.obj.slots i).address % pageSize = 0 ∧ (s.obj.slots i).bytes % pageSize = 0 ∧
      0 < (s.obj.slots i).bytes ∧ s.obj.first ≤ (s.obj.slots i).address ∧
      (s.obj.slots i).address + (s.obj.slots i).bytes ≤ s.obj.limit
  disjoint : ∀ i j, i ≠ j → (s.obj.slots i).state ≠ .free → (s.obj.slots j).state ≠ .free →
    (s.obj.slots i).address + (s.obj.slots i).bytes ≤ (s.obj.slots j).address ∨
      (s.obj.slots j).address + (s.obj.slots j).bytes ≤ (s.obj.slots i).address
  distinct : ∀ i j, i ≠ j → (s.obj.slots i).state ≠ .free → (s.obj.slots j).state ≠ .free →
    (s.obj.slots i).generation ≠ (s.obj.slots j).generation
  gone : ∀ e ∈ s.log, ∀ i g, e.event = .freed i g → ∀ owner,
    s.obj.lookup owner ⟨i, g⟩ = .error .notFound ∧ s.obj.inspect owner ⟨i, g⟩ = none
  uses : ∀ i, (s.obj.slots i).activeUses ≠ 0 →
    (s.obj.slots i).state = .bound ∨ (s.obj.slots i).state = .retiring
  /-- Every callback was made where it may be. -/
  lines : Chron Rule s.log
  /-- A pin that is owed is in a live slot, unless an `unpin` failed. -/
  kept : ∀ i p, owed i s.log = some p →
    (s.obj.slots i).state = .quarantined ∧
        ((s.obj.slots i).pin = p ∨ unpinFailed i s.log = true) ∨
      (s.obj.slots i).pin = p ∧
        ((s.obj.slots i).state = .pinned ∨ (s.obj.slots i).state = .bound ∨
          (s.obj.slots i).state = .retiring)
  /-- Pins are given back at most once each. -/
  settled : ∀ i, s.log.countP (fun e => (e.event.handed i).isSome)
    = s.log.countP (fun e => e.event.returned i) + (owed i s.log).toList.length

end Ledger

section Frame

variable {i : Nat} {e : Entry VirtualMemory Event} {before : Log}

theorem handed_other (h : e.event.slot ≠ i) : e.event.handed i = none := by
  cases hev : e.event with
  | pin j owner bytes r p =>
    rw [hev] at h
    exact if_neg (fun hc => h hc.1)
  | _ => rfl

theorem returned_other (h : e.event.slot ≠ i) : e.event.returned i = false := by
  cases hev : e.event with
  | unpin j p r =>
    rw [hev] at h
    exact decide_eq_false (fun hc => h hc.1)
  | _ => rfl

theorem owed_other (h : e.event.slot ≠ i) : owed i (e :: before) = owed i before := by
  rw [owed, handed_other h, returned_other h]
  rfl

theorem mapping_other (h : e.event.slot ≠ i) : mapping i (e :: before) = mapping i before := by
  rw [mapping]
  cases hev : e.event with
  | bind j a p pat w r =>
    rw [hev] at h
    exact if_neg h
  | unbind j a b r =>
    rw [hev] at h
    exact if_neg h
  | _ => rfl

theorem unpinFailed_other (h : e.event.slot ≠ i) :
    unpinFailed i (e :: before) = unpinFailed i before :=
  if_neg h

/-- One line's share in the balance of pins. -/
theorem settled_cons {i : Nat} (e : Entry VirtualMemory Event)
    (before : Log) (hrule : Rule e before)
    (h : before.countP (fun e => (e.event.handed i).isSome)
      = before.countP (fun e => e.event.returned i) + (owed i before).toList.length) :
    (e :: before).countP (fun e => (e.event.handed i).isSome)
      = (e :: before).countP (fun e => e.event.returned i)
        + (owed i (e :: before)).toList.length := by
  rcases e with ⟨vm, ev⟩
  rw [List.countP_cons, List.countP_cons, h, owed]
  cases ev with
  | pin j owner bytes r p =>
    have hnone : owed j before = none := hrule.2
    by_cases hc : j = i ∧ (r = .ok ∨ p.Escaped)
    · rw [hc.1] at hnone
      simp [Event.handed, Event.returned, hc, hnone]
    · simp [Event.handed, Event.returned, hc]
  | unpin j p r =>
    have hsome : owed j before = some p := hrule.2.1
    by_cases hc : j = i ∧ r = .ok
    · rw [hc.1] at hsome
      simp [Event.handed, Event.returned, hc, hsome]
    · simp [Event.handed, Event.returned, hc]
  | _ => simp [Event.handed, Event.returned]

theorem settled_of_chron (i : Nat) : ∀ log : Log, Chron Rule log →
    log.countP (fun e => (e.event.handed i).isSome)
      = log.countP (fun e => e.event.returned i) + (owed i log).toList.length := by
  intro log
  induction log with
  | nil => exact fun _ => rfl
  | cons e before ih => exact fun h => settled_cons e before h.1 (ih h.2)

end Frame

section Invariant

/-- How a slot's state goes with its debt and its mapping. -/
def Tracked (a : Allocation) (debt : Option Pin) (m : Mapping) (failed : Bool) : Prop :=
  match a.state with
  | .free | .excluded | .reserved => debt = none ∧ m = .clear
  | .pinned => debt = some a.pin ∧ m = .clear
  | .bound | .retiring => debt = some a.pin ∧ m = .set
  | .quarantined => debt = some a.pin ∨ debt.isSome = true ∧ failed = true

structure Sound (vm : VirtualMemory) (i : Nat) (a : Allocation) : Prop where
  inside : a.state ≠ .free → i < vm.capacity
  placed : a.state ≠ .free → a.address % pageSize = 0 ∧ a.bytes % pageSize = 0 ∧
    0 < a.bytes ∧ vm.first ≤ a.address ∧ a.address + a.bytes ≤ vm.limit
  older : a.state ≠ .free → a.generation < vm.nextGeneration
  uses : a.activeUses ≠ 0 → a.state = .bound ∨ a.state = .retiring

/-- The ranges of two allocations do not meet, and their generations differ. -/
structure Apart (a b : Allocation) : Prop where
  range : a.address + a.bytes ≤ b.address ∨ b.address + b.bytes ≤ a.address
  generation : a.generation ≠ b.generation

structure Inv (s : World E) : Prop where
  sound : ∀ i, Sound s.obj i (s.obj.slots i)
  apart : ∀ i j, i ≠ j → (s.obj.slots i).state ≠ .free → (s.obj.slots j).state ≠ .free →
    Apart (s.obj.slots i) (s.obj.slots j)
  tracked : ∀ i, Tracked (s.obj.slots i) (owed i s.log) (mapping i s.log) (unpinFailed i s.log)
  issued : ∀ e ∈ s.log, ∀ i g, e.event = .issued i g → g < s.obj.nextGeneration
  gone : ∀ e ∈ s.log, ∀ i g, e.event = .freed i g → g < s.obj.nextGeneration ∧
    ((s.obj.slots i).state ≠ .free → (s.obj.slots i).generation ≠ g)
  lines : Chron Rule s.log
  unready : s.obj.ready = false → s.obj.capacity = 0

theorem Apart.symm {a b : Allocation} (h : Apart a b) : Apart b a :=
  ⟨h.range.symm, h.generation.symm⟩

/-- Soundness reads only the bounds of the table and the next generation. -/
theorem Sound.frame {vm vm' : VirtualMemory} {i : Nat} {a : Allocation} (h : Sound vm i a)
    (hcap : vm'.capacity = vm.capacity) (hfirst : vm'.first = vm.first)
    (hlimit : vm'.limit = vm.limit) (hgen : vm.nextGeneration ≤ vm'.nextGeneration) :
    Sound vm' i a := by
  refine ⟨?_, ?_, fun hlive => Nat.lt_of_lt_of_le (h.older hlive) hgen, h.uses⟩
  · rw [hcap]
    exact h.inside
  · rw [hfirst, hlimit]
    exact h.placed

theorem sound_empty (vm : VirtualMemory) (i : Nat) : Sound vm i Allocation.empty where
  inside h := absurd rfl h
  placed h := absurd rfl h
  older h := absurd rfl h
  uses h := absurd rfl h

end Invariant

section Turns

variable {s : World E} {i : Nat} {events : List Event} {a : Allocation}

/-- A turn hands the slot back, or keeps its identity. -/
theorem turn_identity (h : Turn s i events a) :
    (s.obj.slots i).state ≠ .free ∧ (a = Allocation.empty ∨
      a.state ≠ .free ∧ a.generation = (s.obj.slots i).generation ∧
        a.address = (s.obj.slots i).address ∧ a.bytes = (s.obj.slots i).bytes ∧
        a.owner = (s.obj.slots i).owner) := by
  cases h with
  | discarded hstate => exact ⟨by rw [hstate]; decide, Or.inl rfl⟩
  | unpinned hstate => exact ⟨by rw [hstate]; decide, Or.inl rfl⟩
  | _ => simp [*]

/-- Uses are only ever counted on an allocation that is bound or retiring. -/
theorem turn_uses (h : Turn s i events a)
    (hu : (s.obj.slots i).activeUses ≠ 0 →
      (s.obj.slots i).state = .bound ∨ (s.obj.slots i).state = .retiring) :
    a.activeUses ≠ 0 → a.state = .bound ∨ a.state = .retiring := by
  cases h with
  | discarded | unpinned => exact fun hne => absurd rfl hne
  | recorded fence hstate => exact fun _ => Or.inl hstate
  | retired hstate => exact fun _ => Or.inr rfl
  | fenceAsked answer hstate => exact fun _ => Or.inr hstate
  | unbindRefused hstate huses hover => exact fun hne => absurd huses hne
  | unbound hstate huses hover => exact fun hne => absurd huses hne
  | unbindFailed r hstate huses hover hr hr' => exact fun hne => absurd huses hne
  -- From a reserved or pinned allocation there was no use to begin with.
  | _ => intro hne; simp_all

theorem turn_events (h : Turn s i events a) :
    ∀ ev ∈ events, ev.slot = i ∧ (∀ j g, ev ≠ .issued j g) ∧
      ∀ j g, ev = .freed j g → g = (s.obj.slots i).generation ∧ a = Allocation.empty := by
  intro ev hev
  cases h <;> simp only [List.mem_cons, List.not_mem_nil, or_false] at hev
  case pinUndone => rcases hev with rfl | rfl <;> simp [Event.slot]
  case pinStranded => rcases hev with rfl | rfl <;> simp [Event.slot]
  case unpinned =>
      rcases hev with rfl | rfl
      · refine ⟨rfl, by simp, ?_⟩
        intro j g hg
        cases hg
        exact ⟨rfl, rfl⟩
      · simp [Event.slot]
  case discarded =>
      subst hev
      refine ⟨rfl, by simp, ?_⟩
      intro j g hg
      cases hg
      exact ⟨rfl, rfl⟩
  all_goals subst hev; simp [Event.slot]

/-- Debts and mapping match the state a turn leaves. -/
theorem turn_tracked (h : Turn s i events a)
    (ht : Tracked (s.obj.slots i) (owed i s.log) (mapping i s.log) (unpinFailed i s.log)) :
    Tracked a (owed i (events.map (Entry.mk s.obj) ++ s.log))
      (mapping i (events.map (Entry.mk s.obj) ++ s.log))
      (unpinFailed i (events.map (Entry.mk s.obj) ++ s.log)) := by
  cases h with
  | bindFailed pat writable r hstate hr hr' =>
    simp only [Tracked, hstate] at ht
    simp [Tracked, owed, Event.handed, Event.returned, ht.1]
  | unbindFailed r hstate huses hover hr hr' =>
    simp only [Tracked, hstate] at ht
    simp [Tracked, owed, Event.handed, Event.returned, ht.1]
  | _ => simp_all [Tracked, owed, mapping, unpinFailed, Event.slot, Event.handed, Event.returned,
      Mapping.after, Allocation.empty]

theorem turn_lines (h : Turn s i events a)
    (ht : Tracked (s.obj.slots i) (owed i s.log) (mapping i s.log) (unpinFailed i s.log))
    (hl : Chron Rule s.log) :
    Chron Rule (events.map (Entry.mk s.obj) ++ s.log) := by
  cases h <;> simp_all [Tracked, Chron, Rule, Event.slot, owed, mapping, Event.handed,
    Event.returned]

theorem events_frame (hslot : ∀ ev ∈ events, ev.slot = i) {j : Nat} (hj : j ≠ i) :
    owed j (events.map (Entry.mk s.obj) ++ s.log) = owed j s.log ∧
      mapping j (events.map (Entry.mk s.obj) ++ s.log) = mapping j s.log ∧
      unpinFailed j (events.map (Entry.mk s.obj) ++ s.log) = unpinFailed j s.log := by
  induction events with
  | nil => exact ⟨rfl, rfl, rfl⟩
  | cons ev rest ih =>
    have hne : (Entry.mk s.obj ev).event.slot ≠ j := by
      rw [hslot ev List.mem_cons_self]
      exact hj.symm
    rw [List.map_cons, List.cons_append, owed_other hne, mapping_other hne, unpinFailed_other hne]
    exact ih fun x hx => hslot x (List.mem_cons_of_mem _ hx)

theorem turn_sound (h : Turn s i events a) (hs : Sound s.obj i (s.obj.slots i)) :
    Sound s.obj i a := by
  rcases turn_identity h with ⟨hlive, rfl | ⟨_, hgen, haddr, hbytes, _⟩⟩
  · exact sound_empty s.obj i
  · have hplaced := hs.placed hlive
    have holder := hs.older hlive
    rw [← haddr, ← hbytes] at hplaced
    rw [← hgen] at holder
    exact ⟨fun _ => hs.inside hlive, fun _ => hplaced, fun _ => holder, turn_uses h hs.uses⟩

end Turns

section Moves

variable {s t : World E}
variable {address bytes i owner : Nat} {a : Allocation} {state : State}

/-- Replacing one slot by one that is apart keeps the slots apart. -/
theorem apart_update {slots : Nat → Allocation}
    (hs : ∀ j k, j ≠ k → (slots j).state ≠ .free → (slots k).state ≠ .free →
      Apart (slots j) (slots k))
    (ha : a.state ≠ .free → ∀ j, j ≠ i → (slots j).state ≠ .free → Apart a (slots j)) :
    ∀ j k, j ≠ k → (Function.update slots i a j).state ≠ .free →
      (Function.update slots i a k).state ≠ .free →
      Apart (Function.update slots i a j) (Function.update slots i a k) := by
  intro j k hjk hj hk
  by_cases hji : j = i
  · subst hji
    rw [update_self] at hj ⊢
    rw [update_of_ne hjk.symm] at hk ⊢
    exact ha hj k hjk.symm hk
  · rw [update_of_ne hji] at hj ⊢
    by_cases hki : k = i
    · subst hki
      rw [update_self] at hk ⊢
      exact (ha hk j hjk hj).symm
    · rw [update_of_ne hki] at hk ⊢
      exact hs j k hjk hj hk

/-- Changing one slot keeps the invariant. -/
theorem turned_inv {events : List Event} (e : E) (hinv : Inv s)
    (hlive : (s.obj.slots i).state ≠ .free)
    (hid : a = Allocation.empty ∨ a.state ≠ .free ∧ a.generation = (s.obj.slots i).generation ∧
      a.address = (s.obj.slots i).address ∧ a.bytes = (s.obj.slots i).bytes)
    (hevents : ∀ ev ∈ events, ev.slot = i ∧ (∀ j g, ev ≠ .issued j g) ∧
      ∀ j g, ev = .freed j g → g = (s.obj.slots i).generation ∧ a = Allocation.empty)
    (hsound : Sound s.obj i a)
    (htracked : Tracked a (owed i (events.map (Entry.mk s.obj) ++ s.log))
      (mapping i (events.map (Entry.mk s.obj) ++ s.log))
      (unpinFailed i (events.map (Entry.mk s.obj) ++ s.log)))
    (hlines : Chron Rule (events.map (Entry.mk s.obj) ++ s.log)) :
    Inv (turned s i events a e) := by
  have hframe := fun j hj => events_frame (s := s) (fun ev hev => (hevents ev hev).1)
    (show j ≠ i from hj)
  constructor
  case sound =>
    intro j
    rw [turned_slots]
    by_cases hj : j = i
    · subst hj
      rw [update_self]
      exact hsound.frame rfl rfl rfl (le_refl _)
    · rw [update_of_ne hj]
      exact (hinv.sound j).frame rfl rfl rfl (le_refl _)
  case apart =>
    rw [turned_slots]
    refine apart_update hinv.apart fun halive j hj hjlive => ?_
    rcases hid with rfl | ⟨_, hgen, haddr, hbytes⟩
    · exact absurd rfl halive
    · have hap := hinv.apart i j hj.symm hlive hjlive
      constructor
      · rw [haddr, hbytes]
        exact hap.range
      · rw [hgen]
        exact hap.generation
  case tracked =>
    intro j
    rw [turned_slots]
    by_cases hj : j = i
    · subst hj
      rw [update_self]
      exact htracked
    · rw [update_of_ne hj]
      change Tracked _ (owed j (events.map _ ++ s.log)) (mapping j (events.map _ ++ s.log))
        (unpinFailed j (events.map _ ++ s.log))
      rw [(hframe j hj).1, (hframe j hj).2.1, (hframe j hj).2.2]
      exact hinv.tracked j
  case issued =>
    intro x hx j g hg
    rcases List.mem_append.mp hx with hnew | hold
    · rcases List.mem_map.mp hnew with ⟨ev, hev, rfl⟩
      exact absurd hg ((hevents ev hev).2.1 j g)
    · exact hinv.issued x hold j g hg
  case gone =>
    intro x hx j g hg
    rw [turned_slots]
    rcases List.mem_append.mp hx with hnew | hold
    · -- Freed just now: the slot is empty.
      rcases List.mem_map.mp hnew with ⟨ev, hev, rfl⟩
      rcases hevents ev hev with ⟨hslot, _, hfreed⟩
      rcases hfreed j g hg with ⟨rfl, rfl⟩
      have hji : j = i := by
        rw [← hslot, show ev = .freed j _ from hg]
        rfl
      subst hji
      rw [update_self]
      exact ⟨(hinv.sound j).older hlive, fun hne => absurd rfl hne⟩
    · rcases hinv.gone x hold j g hg with ⟨hlt, hne⟩
      refine ⟨hlt, ?_⟩
      by_cases hj : j = i
      · subst hj
        rw [update_self]
        rcases hid with rfl | ⟨_, hgen, _⟩
        · exact fun hf => absurd rfl hf
        · rw [hgen]
          exact fun _ => hne hlive
      · rw [update_of_ne hj]
        exact hne
  case lines => exact hlines
  case unready => exact hinv.unready

theorem turn_inv {events : List Event} (h : Turn s i events a) (e : E)
    (hinv : Inv s) : Inv (turned s i events a e) := by
  rcases turn_identity h with ⟨hlive, hid⟩
  refine turned_inv e hinv hlive ?_ (turn_events h) (turn_sound h (hinv.sound i))
    (turn_tracked h (hinv.tracked i)) (turn_lines h (hinv.tracked i) hinv.lines)
  rcases hid with hempty | ⟨halive, hgen, haddr, hbytes, _⟩
  · exact Or.inl hempty
  · exact Or.inr ⟨halive, hgen, haddr, hbytes⟩

theorem recount_inv {uses : Nat}
    (hstate : (s.obj.slots i).state = .bound ∨ (s.obj.slots i).state = .retiring)
    (hinv : Inv s) :
    Inv (turned s i [] { s.obj.slots i with activeUses := uses } s.env) := by
  have hlive : (s.obj.slots i).state ≠ .free := by
    intro hfree
    rw [hfree] at hstate
    rcases hstate with h | h <;> cases h
  have hsound := hinv.sound i
  exact turned_inv s.env hinv hlive (Or.inr ⟨hlive, rfl, rfl, rfl⟩)
    (fun _ hev => absurd hev List.not_mem_nil)
    ⟨hsound.inside, hsound.placed, hsound.older, fun _ => hstate⟩ (hinv.tracked i) hinv.lines

/-- The freshly filled slot lies in the table's bounds and meets no other. -/
theorem allocation_sound {vm : VirtualMemory}
    (hi : i < vm.capacity) (hroom : vm.Available address bytes) :
    Sound { vm.setSlot i (vm.allocation owner address bytes state) with
            nextGeneration := vm.nextGeneration + 1 } i
      (vm.allocation owner address bytes state) := by
  rcases hroom with ⟨_, hfirst, ⟨hne, hlt, hle⟩, haddr, hbytes, _⟩
  refine ⟨fun _ => hi, fun _ => ⟨haddr, hbytes, Nat.pos_of_ne_zero hne, hfirst, ?_⟩, fun _ => ?_,
    fun h => absurd rfl h⟩
  · change address + bytes ≤ vm.limit
    omega
  · exact Nat.lt_succ_self vm.nextGeneration

theorem allocation_apart (hinv : Inv s)
    (hroom : s.obj.Available address bytes) (j : Nat) (hj : (s.obj.slots j).state ≠ .free) :
    Apart (s.obj.allocation owner address bytes state) (s.obj.slots j) := by
  have hmiss := hroom.2.2.2.2.2 j ((hinv.sound j).inside hj)
  have holder := (hinv.sound j).older hj
  constructor
  · unfold Allocation.Meets at hmiss
    simp only [hj, ne_eq, not_false_eq_true, true_and, not_and, not_lt] at hmiss
    change address + bytes ≤ _ ∨ _ ≤ address
    omega
  · change s.obj.nextGeneration ≠ _
    omega

theorem insert_inv
    (hstate : state = .excluded ∨ state = .reserved) (hi : i < s.obj.capacity)
    (hfree : (s.obj.slots i).state = .free) (hroom : s.obj.Available address bytes)
    (hinv : Inv s) :
    Inv ((s.heard (.issued i s.obj.nextGeneration) s.env).put
        { s.obj.setSlot i (s.obj.allocation owner address bytes state) with
          nextGeneration := s.obj.nextGeneration + 1 }) := by
  constructor
  case sound =>
    intro j
    change Sound _ j (Function.update s.obj.slots i _ j)
    by_cases hj : j = i
    · subst hj
      rw [update_self]
      exact allocation_sound hi hroom
    · rw [update_of_ne hj]
      exact (hinv.sound j).frame rfl rfl rfl (Nat.le_succ _)
  case apart =>
    exact apart_update hinv.apart (fun _ j _ hj => allocation_apart hinv hroom j hj)
  case tracked =>
    intro j
    have ht := hinv.tracked j
    change Tracked (Function.update s.obj.slots i _ j) (owed j s.log) (mapping j s.log)
      (unpinFailed j (_ :: s.log))
    by_cases hj : j = i
    · subst hj
      rw [update_self]
      simp only [Tracked, hfree] at ht
      rcases hstate with rfl | rfl
      · exact ht
      · exact ht
    · rw [update_of_ne hj, unpinFailed_other (Ne.symm hj)]
      exact ht
  case issued =>
    intro x hx j g hg
    rcases List.mem_cons.mp hx with rfl | hold
    · cases hg
      exact Nat.lt_succ_self _
    · exact Nat.lt_succ_of_lt (hinv.issued x hold j g hg)
  case gone =>
    intro x hx j g hg
    rcases List.mem_cons.mp hx with rfl | hold
    · cases hg
    · rcases hinv.gone x hold j g hg with ⟨hlt, hne⟩
      refine ⟨Nat.lt_succ_of_lt hlt, ?_⟩
      change (Function.update s.obj.slots i _ j).state ≠ .free →
        (Function.update s.obj.slots i _ j).generation ≠ g
      by_cases hj : j = i
      · subst hj
        rw [update_self]
        -- The new generation is later than any that was handed back.
        exact fun _ => Nat.ne_of_gt hlt
      · rw [update_of_ne hj]
        exact hne
  case lines =>
    refine ⟨⟨?_, ?_⟩, hinv.lines⟩
    · change (s.obj.slots i).state ≠ .quarantined
      rw [hfree]
      decide
    · exact fun x hx j g hg => hinv.issued x hx j g hg
  case unready => exact hinv.unready

/-- Setting the table up keeps the invariant: nothing was live before. -/
theorem setUp_inv {capacity first limit : Nat} {backend : Callbacks} (hnew : s.obj.ready = false)
    (hinv : Inv s) :
    Inv (s.put { s.obj with slots := fun _ => Allocation.empty, capacity := capacity,
                            first := first, limit := limit, backend := backend,
                            ready := true }) := by
  have hfree : ∀ i, (s.obj.slots i).state = .free := by
    intro i
    by_contra hlive
    have := (hinv.sound i).inside hlive
    rw [hinv.unready hnew] at this
    omega
  constructor
  case sound => exact fun i => sound_empty _ i
  case apart => exact fun i j _ hi _ => absurd rfl hi
  case tracked =>
    intro i
    have ht := hinv.tracked i
    simp only [Tracked, hfree] at ht
    exact ht
  case issued => exact hinv.issued
  case gone =>
    intro x hx i g hg
    exact ⟨(hinv.gone x hx i g hg).1, fun hf => absurd rfl hf⟩
  case lines => exact hinv.lines
  case unready => exact nofun

theorem move_inv (h : Move s t) (hinv : Inv s) : Inv t := by
  cases h with
  | setUp capacity first limit backend hnew hgood => exact setUp_inv hnew hinv
  | insert i owner address bytes state hstate hi hfree hroom hgen =>
    exact insert_inv hstate hi hfree hroom hinv
  | turn i events a e hi hturn => exact turn_inv hturn e hinv

theorem moves_inv (h : Moves s t) (hinv : Inv s) : Inv t := by
  induction h with
  | refl => exact hinv
  | tail _ hmove ih => exact move_inv hmove ih

theorem steps_inv (h : Steps s t) (hinv : Inv s) : Inv t := by
  induction h with
  | refl => exact hinv
  | tail _ hstep ih =>
    cases hstep with
    | move hmove => exact move_inv hmove ih
    | recount i uses hi hstate => exact recount_inv hstate ih

theorem start_inv (env : E) : Inv (start env) where
  sound i := sound_empty _ i
  apart _ _ _ h _ := absurd rfl h
  tracked _ := ⟨rfl, rfl⟩
  issued _ h := absurd h List.not_mem_nil
  gone _ h := absurd h List.not_mem_nil
  lines := trivial
  unready _ := rfl

theorem run_inv (io : Backend E) (calls : List Call) (env : E) : Inv (run io calls env) :=
  steps_inv (run_steps calls env) (start_inv env)

theorem lifecycle_of_inv (hinv : Inv s) : Lifecycle s where
  placed i h := (hinv.sound i).placed h
  disjoint i j hij hi hj := (hinv.apart i j hij hi hj).range
  distinct i j hij hi hj := (hinv.apart i j hij hi hj).generation
  gone x hx i g hg owner := by
    have hstale := (hinv.gone x hx i g hg).2
    refine ⟨lookup_notFound owner hstale, ?_⟩
    cases hins : s.obj.inspect owner ⟨i, g⟩ with
    | none => rfl
    | some a =>
      rcases inspect_some hins with ⟨rfl, _, _, hgen, _⟩
      by_cases hfree : (s.obj.slots i).state = .free
      · simp [inspect, hfree] at hins
      · exact absurd hgen (hstale hfree)
  uses i h := (hinv.sound i).uses h
  lines := hinv.lines
  kept i p h := by
    have ht := hinv.tracked i
    rw [h] at ht
    cases hstate : (s.obj.slots i).state <;> simp_all [Tracked]
    exact ht.imp_left Eq.symm
  settled i := settled_of_chron i s.log hinv.lines

end Moves

/-- Whatever is called and whatever the backend answers, live allocations stay
    aligned, apart and in bounds, a handle that was freed resolves for no one,
    only bound or retiring allocations are in use, every callback is made where
    its rule allows it, and every pin that was handed over is given back at
    most once and kept in its slot until then. -/
theorem run_lifecycle (io : Backend E) (calls : List Call) (env : E) :
    Lifecycle (run io calls env) :=
  lifecycle_of_inv (run_inv io calls env)

end Mellow.XeMemory.VirtualMemory
