import Mellow.Xe.VirtualMemory.Model

/-!
# What Can Happen to an Allocation

What the operations can do to one slot: the callbacks they make for it, in
order, and what they leave there. This is the state diagram of an allocation
with its failure edges. A turn leaves the other slots alone.

## Main definitions

* `Turn`: what happens to a slot.
* `Move`: a turn, setting the table up, or filling a slot in.

## Theorems

* `step_moves`: a call is a path of moves.
* `run_steps`: so is a run.
-/

namespace Mellow.XeMemory.VirtualMemory

open Lib

variable {E : Type}

/-- There was no use, or the backend has just said that it is over. -/
def FenceOver (vm : VirtualMemory) (i : Nat) (log : Log) : Prop :=
  (vm.slots i).lastUse.value = 0 ∨
    ∃ before, log = ⟨vm, .fenceComplete i (vm.slots i).lastUse true⟩ :: before

/-- The lines added to the log, and the allocation left in the slot. -/
inductive Turn (s : World E) (i : Nat) : List Event → Allocation → Prop where
  -- Reserved: pinning, in the six ways it can go.
  | pinRefused (owner : Nat) (r : Status) (p : Pin) (hstate : (s.obj.slots i).state = .reserved)
      (hr : r ≠ .ok) (hp : ¬ p.Escaped) :
      Turn s i [.pin i owner (s.obj.slots i).bytes r p] (s.obj.slots i)
  | pinEscaped (owner : Nat) (r : Status) (p : Pin) (hstate : (s.obj.slots i).state = .reserved)
      (hr : r ≠ .ok) (hp : p.Escaped) :
      Turn s i [.pin i owner (s.obj.slots i).bytes r p]
        { s.obj.slots i with pin := p, state := .quarantined }
  | pinned (owner : Nat) (p : Pin) (hstate : (s.obj.slots i).state = .reserved)
      (hp : p.Covers (s.obj.slots i).bytes) :
      Turn s i [.pin i owner (s.obj.slots i).bytes .ok p]
        { s.obj.slots i with pin := p, state := .pinned }
  | pinUndone (owner : Nat) (p : Pin) (hstate : (s.obj.slots i).state = .reserved) :
      Turn s i [.unpin i p .ok, .pin i owner (s.obj.slots i).bytes .ok p] (s.obj.slots i)
  | pinStranded (owner : Nat) (p left : Pin) (r : Status)
      (hstate : (s.obj.slots i).state = .reserved) (hr : r ≠ .ok) :
      Turn s i [.unpin i p r, .pin i owner (s.obj.slots i).bytes .ok p]
        { s.obj.slots i with pin := left, state := .quarantined }
  | discarded (hstate : (s.obj.slots i).state = .reserved) :
      Turn s i [.freed i (s.obj.slots i).generation] Allocation.empty
  -- Pinned: binding, or giving the pin back.
  | bindRefused (pat : Nat) (writable : Bool) (hstate : (s.obj.slots i).state = .pinned) :
      Turn s i [.bind i (s.obj.slots i).address (s.obj.slots i).pin pat writable .unavailable]
        (s.obj.slots i)
  | bound (pat : Nat) (writable : Bool) (hstate : (s.obj.slots i).state = .pinned) :
      Turn s i [.bind i (s.obj.slots i).address (s.obj.slots i).pin pat writable .ok]
        { s.obj.slots i with state := .bound }
  | bindFailed (pat : Nat) (writable : Bool) (r : Status)
      (hstate : (s.obj.slots i).state = .pinned) (hr : r ≠ .ok) (hr' : r ≠ .unavailable) :
      Turn s i [.bind i (s.obj.slots i).address (s.obj.slots i).pin pat writable r]
        { s.obj.slots i with state := .quarantined }
  | unpinned (hstate : (s.obj.slots i).state = .pinned) :
      Turn s i [.freed i (s.obj.slots i).generation, .unpin i (s.obj.slots i).pin .ok]
        Allocation.empty
  | unpinFailed (r : Status) (left : Pin) (hstate : (s.obj.slots i).state = .pinned)
      (hr : r ≠ .ok) :
      Turn s i [.unpin i (s.obj.slots i).pin r]
        { s.obj.slots i with pin := left, state := .quarantined }
  | unpinMissing (hstate : (s.obj.slots i).state = .pinned) :
      Turn s i [] { s.obj.slots i with state := .quarantined }
  -- Bound: recording a use, and the end of them.
  | recorded (fence : Fence) (hstate : (s.obj.slots i).state = .bound) :
      Turn s i [] { s.obj.slots i with lastUse := fence }
  | retired (hstate : (s.obj.slots i).state = .bound) :
      Turn s i [] { s.obj.slots i with state := .retiring }
  -- Retiring: waiting for the last use, then unbinding.
  | fenceAsked (answer : Bool) (hstate : (s.obj.slots i).state = .retiring) :
      Turn s i [.fenceComplete i (s.obj.slots i).lastUse answer] (s.obj.slots i)
  | unbindRefused (hstate : (s.obj.slots i).state = .retiring)
      (huses : (s.obj.slots i).activeUses = 0) (hover : FenceOver s.obj i s.log) :
      Turn s i [.unbind i (s.obj.slots i).address (s.obj.slots i).bytes .unavailable]
        (s.obj.slots i)
  | unbound (hstate : (s.obj.slots i).state = .retiring)
      (huses : (s.obj.slots i).activeUses = 0) (hover : FenceOver s.obj i s.log) :
      Turn s i [.unbind i (s.obj.slots i).address (s.obj.slots i).bytes .ok]
        { s.obj.slots i with state := .pinned }
  | unbindFailed (r : Status) (hstate : (s.obj.slots i).state = .retiring)
      (huses : (s.obj.slots i).activeUses = 0) (hover : FenceOver s.obj i s.log)
      (hr : r ≠ .ok) (hr' : r ≠ .unavailable) :
      Turn s i [.unbind i (s.obj.slots i).address (s.obj.slots i).bytes r]
        { s.obj.slots i with state := .quarantined }

/-- The system after a turn, whose lines all show the same object. -/
def turned (s : World E) (i : Nat) (events : List Event) (a : Allocation)
    (e : E) : World E :=
  (s.heardAll events e).put (s.obj.setSlot i a)

inductive Move : World E → World E → Prop where
  | setUp (s : World E) (capacity first limit : Nat) (backend : Callbacks)
      (hnew : s.obj.ready = false) (hgood : Geometry capacity first limit) :
      Move s (s.put { s.obj with slots := fun _ => Allocation.empty, capacity := capacity,
                                 first := first, limit := limit, backend := backend,
                                 ready := true })
  | insert (s : World E) (i owner address bytes : Nat) (state : State)
      (hstate : state = .excluded ∨ state = .reserved) (hi : i < s.obj.capacity)
      (hfree : (s.obj.slots i).state = .free) (hroom : s.obj.Available address bytes)
      (hgen : s.obj.nextGeneration ≠ 0) :
      Move s ((s.heard (.issued i s.obj.nextGeneration) s.env).put
        { s.obj.setSlot i (s.obj.allocation owner address bytes state) with
          nextGeneration := s.obj.nextGeneration + 1 })
  | turn (s : World E) (i : Nat) (events : List Event) (a : Allocation) (e : E)
      (hi : i < s.obj.capacity) (hturn : Turn s i events a) : Move s (turned s i events a e)

abbrev Moves : World E → World E → Prop :=
  Relation.ReflTransGen Move

/-- A move, or a new number of uses. -/
inductive Step : World E → World E → Prop where
  | move {s t : World E} (h : Move s t) : Step s t
  | recount (s : World E) (i uses : Nat) (hi : i < s.obj.capacity)
      (hstate : (s.obj.slots i).state = .bound ∨ (s.obj.slots i).state = .retiring) :
      Step s (turned s i [] { s.obj.slots i with activeUses := uses } s.env)

abbrev Steps : World E → World E → Prop :=
  Relation.ReflTransGen Step

theorem steps_of_moves {s t : World E} (h : Moves s t) : Steps s t :=
  Relation.ReflTransGen.mono (fun _ _ hm => Step.move hm) _ _ h

section Lookup

variable {vm : VirtualMemory} {owner i : Nat} {h : Handle}

theorem lookup_ok (hl : vm.lookup owner h = .ok i) :
    i = h.slot ∧ i < vm.capacity ∧ vm.ready = true ∧ (vm.slots i).generation = h.generation ∧
      (vm.slots i).owner = owner ∧ owner ≠ 0 ∧ h.generation ≠ 0 ∧ (vm.slots i).state ≠ .free ∧
      (vm.slots i).state ≠ .excluded ∧ (vm.slots i).state ≠ .quarantined := by
  dsimp only [lookup] at hl
  split at hl
  · cases hl
  · rename_i hbounds
    split at hl
    · cases hl
    · rename_i hlive
      split at hl
      · cases hl
      · rename_i howner
        split at hl
        · cases hl
        · rename_i hquar
          cases hl
          simp only [not_or, ge_iff_le, not_le, Bool.not_eq_false] at hbounds
          simp only [not_or, ne_eq, not_not] at hlive howner
          exact ⟨rfl, hbounds.2.1, hbounds.1, hlive.2.2, howner.2, howner.1, hbounds.2.2,
            hlive.1, hlive.2.1, hquar⟩

/-- A handle whose slot no longer carries its generation resolves for no one. -/
theorem lookup_notFound (owner : Nat)
    (hstale : (vm.slots h.slot).state ≠ .free → (vm.slots h.slot).generation ≠ h.generation) :
    vm.lookup owner h = .error .notFound := by
  dsimp only [lookup]
  split
  · rfl
  · have hgone : (vm.slots h.slot).state = .free ∨ (vm.slots h.slot).state = .excluded ∨
        (vm.slots h.slot).generation ≠ h.generation := by
      by_cases hfree : (vm.slots h.slot).state = .free
      · exact Or.inl hfree
      · exact Or.inr (Or.inr (hstale hfree))
    rw [if_pos hgone]

theorem inspect_some {a : Allocation} (hs : vm.inspect owner h = some a) :
    a = vm.slots h.slot ∧ h.slot < vm.capacity ∧ vm.ready = true ∧ a.generation = h.generation ∧
      h.generation ≠ 0 ∧ a.owner = owner ∧ owner ≠ 0 := by
  dsimp only [inspect] at hs
  split at hs
  · cases hs
  · rename_i hbounds
    split at hs
    · rename_i hlive
      cases hs
      simp only [not_or, ge_iff_le, not_le, Bool.not_eq_false] at hbounds
      exact ⟨rfl, hbounds.2.1, hbounds.1, hlive.2.2.1, hbounds.2.2.1, hlive.2.2.2, hbounds.2.2.2⟩
    · cases hs

theorem freeSlot_some (hf : vm.freeSlot = some i) :
    i < vm.capacity ∧ (vm.slots i).state = .free := by
  have hmem := List.mem_of_find?_eq_some hf
  have htest := List.find?_some hf
  simp only [decide_eq_true_eq] at htest
  exact ⟨List.mem_range.mp hmem, htest⟩

end Lookup

section Paths

variable {io : Backend E} {s : World E} {i : Nat} {a : Allocation}

theorem turned_slots (s : World E) (i : Nat) (events : List Event)
    (a : Allocation) (e : E) :
    (turned s i events a e).obj.slots = Function.update s.obj.slots i a := rfl

theorem turned_slot (s : World E) (i : Nat) (events : List Event)
    (a : Allocation) (e : E) : (turned s i events a e).obj.slots i = a := by
  rw [turned_slots, Function.update_self]

theorem turned_self (s : World E) (i : Nat) (events : List Event) (e : E) :
    turned s i events (s.obj.slots i) e = s.heardAll events e := by
  unfold turned setSlot
  rw [Function.update_eq_self]
  rfl

theorem asked {α : Type} (f : E → α × E) (ev : α → Event) (s : World E) :
    Spec (fun t => t = s) (ask f ev) (fun a t => ∃ e, t = s.heard (ev a) e) := by
  refine spec_ask f ev (fun t a e ht => ⟨e, ?_⟩)
  rw [ht]

/-- Started in `s`, the operation is a path of moves. -/
abbrev Walks {α : Type} (s : World E) (x : Op E α) : Prop :=
  Spec (fun t => t = s) x fun _ => Moves s

theorem stays : ∀ t, t = s → Moves s t := fun _ ht => ht ▸ .refl

theorem answered {α : Type} {x : Op E α} {ev : Event} (h : ∀ e, Moves s (x (s.heard ev e)).2) :
    Spec (fun t => ∃ e, t = s.heard ev e) x (fun _ => Moves s) := by
  rintro t ⟨e, rfl⟩
  exact h e

/-- A turn that leaves the slot as it was. -/
theorem Turn.same {events : List Event} (h : Turn s i events (s.obj.slots i))
    (hi : i < s.obj.capacity) (e : E) : Moves s (s.heardAll events e) := by
  rw [← turned_self s i]
  exact .single (.turn s i _ _ e hi h)

variable (owner : Nat)

theorem insert_moves (address bytes : Nat) {state : State}
    (hstate : state = .excluded ∨ state = .reserved) :
    Walks s (insert owner address bytes state) := by
  refine spec_bind_look_at ?_
  refine spec_unless stays fun hroom => ?_
  refine spec_unless stays fun hgen => ?_
  cases hslot : s.obj.freeSlot with
  | none => exact spec_pure _ stays
  | some i =>
    intro t ht
    subst ht
    rcases freeSlot_some hslot with ⟨hi, hfree⟩
    simp only [not_or] at hgen
    exact .single (.insert t i owner address bytes state hstate hi hfree (not_not.mp hroom)
      hgen.1)

theorem reserve_moves (bytes alignment : Nat) :
    Walks s (reserve owner bytes alignment) := by
  refine spec_bind_look_at ?_
  refine spec_guard stays ?_
  cases (alignUp s.obj.first alignment).bind
      (s.obj.search bytes alignment (s.obj.limit + 1)) with
  | none => exact spec_pure _ stays
  | some candidate => exact insert_moves owner candidate bytes (Or.inr rfl)

variable (h : Handle) (f : Allocation → Except Status Allocation)

/-- The operations that only change the table, in one equation. -/
theorem onSlot_eq (s : World E) :
    onSlot owner h f s = match s.obj.lookup owner h with
      | .error e => (e, s)
      | .ok i => match f (s.obj.slots i) with
        | .error e => (e, s)
        | .ok a => (.ok, turned s i [] a s.env) := by
  change (match s.obj.lookup owner h with
    | .error e => return e
    | .ok i => match f (s.obj.slots i) with
      | .error e => return e
      | .ok a => do
        update i fun _ => a
        return .ok : Op E Status) s = _
  cases s.obj.lookup owner h with
  | error e => rfl
  | ok i =>
    dsimp only
    cases f (s.obj.slots i) with
    | error | ok => rfl

theorem onSlot_cases (s : World E) :
    (onSlot owner h f s).2 = s ∨ ∃ i a, s.obj.lookup owner h = .ok i ∧
      f (s.obj.slots i) = .ok a ∧ onSlot owner h f s = (.ok, turned s i [] a s.env) := by
  rw [onSlot_eq]
  cases hl : s.obj.lookup owner h with
  | error e => exact Or.inl rfl
  | ok i =>
    dsimp only
    cases hf : f (s.obj.slots i) with
    | error e => exact Or.inl rfl
    | ok a => exact Or.inr ⟨i, a, rfl, hf, rfl⟩

theorem onSlot_moves (hf : ∀ i a, f (s.obj.slots i) = .ok a → a = s.obj.slots i ∨ Turn s i [] a) :
    Moves s (onSlot owner h f s).2 := by
  rcases onSlot_cases owner h f s with hsame | ⟨i, a, hl, ha, heq⟩
  · rw [hsame]
  · rw [heq]
    rcases hf i a ha with rfl | hturn
    · rw [turned_self]
      exact .refl
    · exact .single (.turn s i [] a s.env (lookup_ok hl).2.1 hturn)

theorem retainUse_ok {b : Allocation} (h : a.retainUse = .ok b) :
    a.state = .bound ∧ b = { a with activeUses := a.activeUses + 1 } := by
  unfold Allocation.retainUse at h
  split at h
  · cases h
  · rename_i hstate
    split at h
    · cases h
    · cases h
      exact ⟨not_not.mp hstate, rfl⟩

theorem releaseUse_ok {b : Allocation} (h : a.releaseUse = .ok b) :
    (a.state = .bound ∨ a.state = .retiring) ∧ a.activeUses ≠ 0 ∧
      b = { a with activeUses := a.activeUses - 1 } := by
  unfold Allocation.releaseUse at h
  split at h
  · cases h
  · rename_i hstate
    split at h
    · cases h
    · rename_i huses
      cases h
      refine ⟨?_, huses, rfl⟩
      by_cases hb : a.state = .bound
      · exact Or.inl hb
      · exact Or.inr (not_not.mp (fun hr => hstate ⟨hb, hr⟩))

theorem recordUse_turn {fence : Fence}
    (h : (s.obj.slots i).recordUse fence = .ok a) : Turn s i [] a := by
  unfold Allocation.recordUse at h
  split at h
  · cases h
  · rename_i hstate
    split at h
    · cases h
    · cases h
      exact .recorded fence (not_not.mp hstate)

/-- Retiring twice is no turn: the second time the slot is left as it was. -/
theorem retire_turn (h : (s.obj.slots i).retire = .ok a) :
    a = s.obj.slots i ∨ Turn s i [] a := by
  unfold Allocation.retire at h
  split at h
  · cases h
    exact Or.inl rfl
  · split at h
    · cases h
    · rename_i hstate
      cases h
      exact Or.inr (.retired (not_not.mp hstate))

/-- Checking a pin only looks, and a pin found valid covers its allocation. -/
theorem valid_spec {P : World E → Prop} (p : Pin) (bytes : Nat) :
    Spec P (valid io p bytes) (fun good t => P t ∧ (good = true → p.Covers bytes)) := by
  refine spec_ite (fun hp => spec_peek _ (fun t a ht => ⟨ht, fun _ => hp⟩))
    (fun _ => spec_pure _ (fun t ht => ⟨ht, nofun⟩))

theorem undo_moves (p : Pin) (hi : i < s.obj.capacity)
    (hstate : (s.obj.slots i).state = .reserved) :
    Spec (fun t => ∃ e, t = s.heard (.pin i owner (s.obj.slots i).bytes .ok p) e)
      (do let (undone, left) ← askUnpin io i p
          if undone ≠ .ok then quarantineWith i left else return .backendFailure)
      (fun _ => Moves s) := by
  refine spec_bind (R := fun r t => ∃ e e', t = (s.heard (.pin i owner (s.obj.slots i).bytes .ok p)
    e).heard (.unpin i p r.1) e') ?_ (fun r => ?_)
  · intro t ht
    rcases ht with ⟨e, rfl⟩
    exact ⟨e, _, rfl⟩
  · rcases r with ⟨undone, left⟩
    refine spec_ite (fun hr => ?_) fun hr => ?_
    · intro t ht
      rcases ht with ⟨_, e, rfl⟩
      exact .single (.turn s i _ _ e hi (.pinStranded owner p left undone hstate hr))
    · have hr : undone = .ok := not_not.mp hr
      subst hr
      rintro t ⟨_, e, rfl⟩
      exact Turn.same (.pinUndone owner p hstate) hi e

theorem pin_moves : Walks s (pin io owner h) := by
  refine spec_bind_look_at ?_
  cases hl : s.obj.lookup owner h with
  | error e => exact spec_pure _ stays
  | ok i =>
    have hi := (lookup_ok hl).2.1
    refine spec_unless stays fun hstate => ?_
    have hstate : (s.obj.slots i).state = .reserved := not_not.mp hstate
    refine spec_guard stays ?_
    refine spec_bind (asked _ _ s) fun r => ?_
    rcases r with ⟨result, p⟩
    refine spec_ite (fun hr => spec_ite (fun hp => ?_) (fun hp => spec_pure _ ?_))
      fun hr => ?_
    · -- Refused, yet something was handed over.
      exact answered fun e => .single (.turn s i _ _ e hi (.pinEscaped owner result p hstate hr hp))
    · rintro t ⟨e, rfl⟩
      exact Turn.same (.pinRefused owner result p hstate hr hp) hi e
    · have hr : result = .ok := not_not.mp hr
      subst hr
      refine spec_bind (valid_spec p _) fun good => ?_
      cases good with
      | true =>
        intro t ht
        rcases ht with ⟨⟨e, rfl⟩, hp⟩
        exact .single (.turn s i _ _ e hi (.pinned owner p hstate (hp rfl)))
      | false => exact spec_pre (fun t ht => ht.1) (undo_moves owner p hi hstate)

theorem bind_moves (pat : Nat) (writable : Bool) :
    Walks s (bind io owner h pat writable) := by
  refine spec_bind_look_at ?_
  cases hl : s.obj.lookup owner h with
  | error e => exact spec_pure _ stays
  | ok i =>
    have hi := (lookup_ok hl).2.1
    refine spec_unless stays fun hstate => ?_
    have hstate : (s.obj.slots i).state = .pinned := not_not.mp hstate
    refine spec_guard stays ?_
    refine spec_guard stays ?_
    refine spec_bind (asked _ _ s) fun r => ?_
    refine spec_ite (fun hr => ?_) (fun hr => spec_ite (fun hr' => ?_) (fun hr' => ?_))
    · subst hr
      exact answered fun e => .single (.turn s i _ _ e hi (.bound pat writable hstate))
    · exact answered fun e =>
        .single (.turn s i _ _ e hi (.bindFailed pat writable r hstate hr hr'))
    · -- Only `Unavailable` promises that the hardware was left alone.
      have hr' : r = .unavailable := not_not.mp hr'
      subst hr'
      exact answered fun e => Turn.same (.bindRefused pat writable hstate) hi e

theorem reclaimPinned_moves (hi : i < s.obj.capacity)
    (hstate : (s.obj.slots i).state = .pinned) :
    Walks s (reclaimPinned io i) := by
  refine spec_bind_look_at ?_
  refine spec_ite (fun _ => ?_) fun _ => ?_
  · intro t ht
    subst ht
    exact .single (.turn t i _ _ t.env hi (.unpinMissing hstate))
  · refine spec_bind (asked _ _ s) fun r => ?_
    rcases r with ⟨result, left⟩
    refine spec_ite (fun hr => ?_) fun hr => ?_
    · exact answered fun e => .single (.turn s i _ _ e hi (.unpinFailed result left hstate hr))
    · have hr : result = .ok := not_not.mp hr
      subst hr
      exact answered fun e => .single (.turn s i _ _ e hi (.unpinned hstate))

/-- A go-ahead comes with the fence reported over. -/
theorem fenceDone_moves (hi : i < s.obj.capacity) (hstate : (s.obj.slots i).state = .retiring) :
    Spec (fun t => t = s) (fenceDone io i) (fun r t => (Moves s t ∧ t.obj = s.obj) ∧
      (r = .ok () → FenceOver s.obj i t.log)) := by
  refine spec_bind_look_at ?_
  refine spec_ite (fun hnone => spec_pure _ ?_) fun _ => ?_
  · intro t ht
    subst ht
    exact ⟨⟨.refl, rfl⟩, fun _ => Or.inl hnone⟩
  · refine spec_guard (?_) ?_
    · intro t ht
      subst ht
      exact ⟨⟨.refl, rfl⟩, nofun⟩
    · refine spec_bind (asked _ _ s) fun answer => ?_
      have hpath : ∀ e, Moves s (s.heard (.fenceComplete i (s.obj.slots i).lastUse answer) e) :=
        Turn.same (.fenceAsked answer hstate) hi
      cases answer with
      | true =>
        intro t ht
        rcases ht with ⟨e, rfl⟩
        exact ⟨⟨hpath e, rfl⟩, fun _ => Or.inr ⟨s.log, rfl⟩⟩
      | false =>
        intro t ht
        rcases ht with ⟨e, rfl⟩
        exact ⟨⟨hpath e, rfl⟩, nofun⟩

theorem reclaimRetiring_moves (hi : i < s.obj.capacity)
    (hstate : (s.obj.slots i).state = .retiring) :
    Walks s (reclaimRetiring io i) := by
  refine spec_bind_look_at ?_
  refine spec_unless stays fun huses => ?_
  have huses : (s.obj.slots i).activeUses = 0 := not_not.mp huses
  refine spec_bind (fenceDone_moves hi hstate) fun r => ?_
  cases r with
  | error e => exact spec_pure _ (fun t ht => ht.1.1)
  | ok u =>
    refine spec_guard (fun t ht => ht.1.1) ?_
    -- From here on the log ends with the fence's completion.
    intro t ht
    rcases ht with ⟨⟨hpath, hobj⟩, hover⟩
    have hover := hover rfl
    rw [← hobj] at hi hstate huses hover ⊢
    refine (show Spec (fun v => v = t) _ (fun _ => Moves s) from
      spec_bind (asked _ _ t) (fun r => ?_)) t rfl
    refine spec_ite (fun hr => ?_) (fun hr => spec_ite (fun hr' => ?_) (fun hr' => ?_))
    · subst hr
      intro v hv
      rcases hv with ⟨e, rfl⟩
      exact hpath.trans (Turn.same (.unbindRefused hstate huses hover) hi e)
    · intro v hv
      rcases hv with ⟨e, rfl⟩
      exact hpath.tail (.turn t i _ _ e hi (.unbindFailed r hstate huses hover hr' hr))
    · have hr' : r = .ok := not_not.mp hr'
      subst hr'
      intro v hv
      rcases hv with ⟨e, rfl⟩
      -- Unbound, the allocation is pinned again, and the rest starts there.
      have hmove := Move.turn t i _ _ e hi (.unbound hstate huses hover)
      refine (hpath.tail hmove).trans ?_
      refine reclaimPinned_moves (s := turned t i _ _ e) hi ?_ _ rfl
      rw [turned_slot]

theorem reclaim_moves : Walks s (reclaim io owner h) := by
  refine spec_bind_look_at ?_
  cases hl : s.obj.lookup owner h with
  | error e => exact spec_pure _ stays
  | ok i =>
    rcases lookup_ok hl with ⟨_, hi, _, _, _, _, _, hfree, hexcl, hquar⟩
    dsimp only
    cases hstate : (s.obj.slots i).state with
    | free => exact absurd hstate hfree
    | excluded => exact absurd hstate hexcl
    | quarantined => exact absurd hstate hquar
    | bound => exact spec_pure _ stays
    | retiring => exact reclaimRetiring_moves hi hstate
    | pinned => exact reclaimPinned_moves hi hstate
    | reserved =>
      intro t ht
      subst ht
      exact .single (.turn t i _ _ t.env hi (.discarded hstate))

theorem initializeMemory_moves (capacity first limit : Nat) (backend : Callbacks) :
    Walks s (initializeMemory capacity first limit backend) := by
  refine spec_bind_look_at ?_
  refine spec_unless stays fun hnew => ?_
  refine spec_unless stays fun hgood => ?_
  intro t ht
  subst ht
  exact .single (.setUp t capacity first limit backend (Bool.eq_false_iff.mpr hnew)
    (not_not.mp hgood))

theorem status_moves {α : Type} {x : Op E (Except Status α)}
    (h : Walks s x) :
    Walks s (do return statusOf (← x)) :=
  spec_bind h (fun _ => spec_pure _ (fun _ ht => ht))

def Call.Quiet : Call → Prop
  | .retainUse .. | .releaseUse .. => False
  | _ => True

/-- Every call that does not count uses is a path of moves. -/
theorem step_moves (c : Call) (hc : c.Quiet) : Moves s (step io c s).2 := by
  cases c with
  | initializeMemory capacity first limit backend =>
    exact initializeMemory_moves capacity first limit backend s rfl
  | exclude address bytes =>
    exact status_moves (insert_moves 0 address bytes (Or.inl rfl)) s rfl
  | reserveAt owner address bytes =>
    have hspec : Walks s (reserveAt owner address bytes) :=
      spec_unless stays
        (fun _ => insert_moves owner address bytes (Or.inr rfl))
    exact status_moves hspec s rfl
  | reserve owner bytes alignment =>
    exact status_moves (reserve_moves owner bytes alignment) s rfl
  | pin owner h => exact pin_moves owner h s rfl
  | bind owner h pat writable => exact bind_moves owner h pat writable s rfl
  | retainUse | releaseUse => exact absurd hc id
  | recordUse owner h fence =>
    exact onSlot_moves owner h _ (fun i a ha => Or.inr (recordUse_turn ha))
  | retire owner h => exact onSlot_moves owner h _ (fun i a ha => retire_turn ha)
  | reclaim owner h => exact reclaim_moves owner h s rfl

theorem retainUse_steps : Steps s (retainUse owner h s).2 := by
  unfold retainUse
  rcases onSlot_cases owner h Allocation.retainUse s with hsame | ⟨i, a, hl, ha, heq⟩
  · rw [hsame]
  · rw [heq]
    rcases retainUse_ok ha with ⟨hstate, rfl⟩
    exact .single (.recount s i _ (lookup_ok hl).2.1 (Or.inl hstate))

theorem releaseUse_steps : Steps s (releaseUse owner h s).2 := by
  unfold releaseUse
  rcases onSlot_cases owner h Allocation.releaseUse s with hsame | ⟨i, a, hl, ha, heq⟩
  · rw [hsame]
  · rw [heq]
    rcases releaseUse_ok ha with ⟨hstate, _, rfl⟩
    exact .single (.recount s i _ (lookup_ok hl).2.1 hstate)

theorem step_steps (c : Call) : Steps s (step io c s).2 := by
  cases c with
  | retainUse owner h => exact retainUse_steps owner h
  | releaseUse owner h => exact releaseUse_steps owner h
  | _ => exact steps_of_moves (step_moves _ trivial)

theorem run_steps (calls : List Call) (env : E) : Steps (start env) (run io calls env) :=
  spec_runAll (P := Steps (start env)) (step io) (fun _ _ ht => ht.trans (step_steps _)) calls
    (start env) .refl

end Paths

end Mellow.XeMemory.VirtualMemory
