import Mellow.Xe.VirtualMemory.Lifecycle

/-!
# Counting the Uses of an Allocation

The address space seen by a client that holds uses of it. Only `retainUse` and
`releaseUse` change a count, each by one: a slot is only handed back with no
uses, and comes back under a new generation. An allocation in use keeps its
place, owner and pin.

## Main definitions

* `uses`: the count under a handle.
* `Allocation.Keeps`: what an allocation in use keeps.

## Theorems

* `moves_keep`: an allocation in use is left in place.
* `run_uses`: no callback that would end it is made.
-/

namespace Mellow.XeMemory

open Function

variable {a : Allocation}

structure Allocation.Keeps (a b : Allocation) : Prop where
  generation : b.generation = a.generation
  owner : b.owner = a.owner
  address : b.address = a.address
  bytes : b.bytes = a.bytes
  pin : b.pin = a.pin
  state : b.state = .bound ∨ b.state = .retiring

/-- The uses of an allocation under a generation, none when it is another's. -/
def Allocation.usesAs (a : Allocation) (generation : Nat) : Nat :=
  if a.state ≠ .free ∧ a.generation = generation then a.activeUses else 0

theorem usesAs_free (h : a.state = .free) (g : Nat) : a.usesAs g = 0 :=
  if_neg (fun hc => hc.1 h)

theorem usesAs_zero (h : a.activeUses = 0) (g : Nat) : a.usesAs g = 0 := by
  unfold Allocation.usesAs
  rw [h, ite_self]

theorem usesAs_other {g : Nat} (h : a.generation ≠ g) : a.usesAs g = 0 :=
  if_neg (fun hc => h hc.2)

theorem usesAs_self (h : a.state ≠ .free) : a.usesAs a.generation = a.activeUses :=
  if_pos ⟨h, rfl⟩

namespace VirtualMemory

open Lib

variable {E : Type}

def uses (vm : VirtualMemory) (h : Handle) : Nat := (vm.slots h.slot).usesAs h.generation

/-- The line ends an allocation, its mapping or its pin. -/
def Event.Ends : Event → Prop
  | .unpin .. | .unbind .. | .freed .. => True
  | _ => False

section Counting

variable {vm : VirtualMemory} {owner : Nat} {h : Handle}

theorem lookup_error_ne {e : Status} (hl : vm.lookup owner h = .error e) : e ≠ .ok := by
  dsimp only [lookup] at hl
  split at hl
  · cases hl
    decide
  · split at hl
    · cases hl
      decide
    · split at hl
      · cases hl
        decide
      · split at hl
        · cases hl
          decide
        · cases hl

theorem retainUse_error_ne {a : Allocation} {e : Status} (hr : a.retainUse = .error e) :
    e ≠ .ok := by
  unfold Allocation.retainUse at hr
  split at hr
  · cases hr
    decide
  · split at hr
    · cases hr
      decide
    · cases hr

theorem releaseUse_error_ne {a : Allocation} {e : Status} (hr : a.releaseUse = .error e) :
    e ≠ .ok := by
  unfold Allocation.releaseUse at hr
  split at hr
  · cases hr
    decide
  · split at hr
    · cases hr
      decide
    · cases hr

theorem uses_recount (s : World E) (i n : Nat)
    (hlive : (s.obj.slots i).state ≠ .free) :
    uses (turned s i [] { s.obj.slots i with activeUses := n } s.env).obj
      = Function.update (uses s.obj) ⟨i, (s.obj.slots i).generation⟩ n := by
  funext k
  change (Function.update s.obj.slots i _ k.slot).usesAs k.generation = _
  by_cases hk : k = ⟨i, (s.obj.slots i).generation⟩
  · simp [update_self, usesAs_self, *]
  · rw [update_of_ne hk]
    by_cases hslot : k.slot = i
    · -- The same slot under another generation.
      have hgen : (s.obj.slots i).generation ≠ k.generation := by
        intro hgen
        apply hk
        rw [← hslot] at hgen ⊢
        rw [hgen]
      rw [hslot, update_self, uses, hslot, usesAs_other hgen]
      exact usesAs_other hgen
    · rw [update_of_ne hslot]
      rfl

theorem recount_keeps (s : World E) (i n j : Nat)
    (hstate : (s.obj.slots j).state = .bound ∨ (s.obj.slots j).state = .retiring) :
    (s.obj.slots j).Keeps
      ((turned s i [] { s.obj.slots i with activeUses := n } s.env).obj.slots j) := by
  rw [turned_slots]
  by_cases hj : j = i
  · subst hj
    rw [update_self]
    exact ⟨rfl, rfl, rfl, rfl, rfl, hstate⟩
  · rw [update_of_ne hj]
    exact ⟨rfl, rfl, rfl, rfl, rfl, hstate⟩

theorem retainUse_result (owner : Nat) (h : Handle) (s : World E) :
    (s.obj.lookup owner h = .ok h.slot ∧ (s.obj.slots h.slot).state = .bound ∧
        retainUse owner h s = (.ok, turned s h.slot []
          { s.obj.slots h.slot with activeUses := (s.obj.slots h.slot).activeUses + 1 } s.env)) ∨
      ((retainUse owner h s).1 ≠ .ok ∧ (retainUse owner h s).2 = s) := by
  unfold retainUse
  rw [onSlot_eq]
  cases hl : s.obj.lookup owner h with
  | error e => exact Or.inr ⟨lookup_error_ne hl, rfl⟩
  | ok i =>
    have hi := (lookup_ok hl).1
    subst hi
    dsimp only
    cases hr : (s.obj.slots h.slot).retainUse with
    | error e => exact Or.inr ⟨retainUse_error_ne hr, rfl⟩
    | ok a =>
      rcases retainUse_ok hr with ⟨hstate, rfl⟩
      exact Or.inl ⟨rfl, hstate, rfl⟩

theorem releaseUse_result (owner : Nat) (h : Handle) (s : World E) :
    (s.obj.lookup owner h = .ok h.slot ∧
        ((s.obj.slots h.slot).state = .bound ∨ (s.obj.slots h.slot).state = .retiring) ∧
        (s.obj.slots h.slot).activeUses ≠ 0 ∧
        releaseUse owner h s = (.ok, turned s h.slot []
          { s.obj.slots h.slot with activeUses := (s.obj.slots h.slot).activeUses - 1 } s.env)) ∨
      ((releaseUse owner h s).1 ≠ .ok ∧ (releaseUse owner h s).2 = s) := by
  unfold releaseUse
  rw [onSlot_eq]
  cases hl : s.obj.lookup owner h with
  | error e => exact Or.inr ⟨lookup_error_ne hl, rfl⟩
  | ok i =>
    have hi := (lookup_ok hl).1
    subst hi
    dsimp only
    cases hr : (s.obj.slots h.slot).releaseUse with
    | error e => exact Or.inr ⟨releaseUse_error_ne hr, rfl⟩
    | ok a =>
      rcases releaseUse_ok hr with ⟨hstate, huses, rfl⟩
      exact Or.inl ⟨rfl, hstate, huses, rfl⟩

theorem releaseUse_of_lookup {s : World E}
    (hl : s.obj.lookup owner h = .ok h.slot)
    (hstate : (s.obj.slots h.slot).state = .bound ∨ (s.obj.slots h.slot).state = .retiring)
    (huses : (s.obj.slots h.slot).activeUses ≠ 0) :
    releaseUse owner h s = (.ok, turned s h.slot []
      { s.obj.slots h.slot with activeUses := (s.obj.slots h.slot).activeUses - 1 } s.env) := by
  have hok : (s.obj.slots h.slot).releaseUse = .ok
      { s.obj.slots h.slot with activeUses := (s.obj.slots h.slot).activeUses - 1 } := by
    unfold Allocation.releaseUse
    rw [if_neg (fun hno => hstate.elim hno.1 hno.2), if_neg huses]
  unfold releaseUse
  rw [onSlot_eq, hl]
  dsimp only
  rw [hok]

theorem uses_of_lookup (hl : vm.lookup owner h = .ok h.slot) :
    uses vm h = (vm.slots h.slot).activeUses := by
  rcases lookup_ok hl with ⟨_, _, _, hgen, _, _, _, hlive, _⟩
  rw [uses, ← hgen]
  exact usesAs_self hlive

end Counting

section Moves

variable {s t : World E} {i : Nat} {events : List Event} {a : Allocation}

/-- A turn does not touch the count: a slot that is handed back had no use. -/
theorem turn_activeUses (h : Turn s i events a) (hs : Sound s.obj i (s.obj.slots i)) :
    a.activeUses = (s.obj.slots i).activeUses := by
  have hnone : ∀ st, st = State.reserved ∨ st = State.pinned → (s.obj.slots i).state = st →
      (s.obj.slots i).activeUses = 0 := by
    intro st hst hstate
    by_contra hne
    rcases hs.uses hne with h | h <;> rw [h] at hstate <;> subst hstate <;>
      rcases hst with h | h <;> cases h
  cases h with
  | discarded hstate => exact (hnone _ (Or.inl rfl) hstate).symm
  | unpinned hstate => exact (hnone _ (Or.inr rfl) hstate).symm
  | _ => rfl

/-- The lines that end an allocation are written at a count of zero. -/
theorem turn_ends (h : Turn s i events a) (hs : Sound s.obj i (s.obj.slots i)) :
    ∀ ev ∈ events, ev.Ends → (s.obj.slots i).activeUses = 0 := by
  intro ev hev hends
  by_contra hne
  have hbusy := hs.uses hne
  cases h <;> simp_all [Event.Ends]

theorem turn_keeps (h : Turn s i events a) (hs : Sound s.obj i (s.obj.slots i))
    (hbusy : (s.obj.slots i).activeUses ≠ 0) : (s.obj.slots i).Keeps a := by
  have hstate := hs.uses hbusy
  cases h with
  | recorded fence hb => exact ⟨rfl, rfl, rfl, rfl, rfl, Or.inl hb⟩
  | retired hb => exact ⟨rfl, rfl, rfl, rfl, rfl, Or.inr rfl⟩
  | fenceAsked answer hr => exact ⟨rfl, rfl, rfl, rfl, rfl, Or.inr hr⟩
  | unbindRefused hr huses hover => exact absurd huses hbusy
  | unbound hr huses hover => exact absurd huses hbusy
  | unbindFailed r hr huses hover hne hne' => exact absurd huses hbusy
  | _ => simp_all

theorem move_uses (hmove : Move s t) (hinv : Inv s) : uses t.obj = uses s.obj := by
  funext k
  cases hmove with
  | setUp capacity first limit backend hnew hgood =>
    have hfree : (s.obj.slots k.slot).state = .free := by
      by_contra hlive
      have := (hinv.sound k.slot).inside hlive
      rw [hinv.unready hnew] at this
      omega
    rw [uses, uses, usesAs_free hfree]
    exact usesAs_free rfl _
  | insert i owner address bytes state hstate hi hfree hroom hgen =>
    change (Function.update s.obj.slots i _ k.slot).usesAs k.generation = _
    by_cases hk : k.slot = i
    · rw [hk, update_self, uses, hk, usesAs_free hfree]
      exact usesAs_zero rfl _
    · rw [update_of_ne hk]
      rfl
  | turn i events a e hi hturn =>
    have hcount := turn_activeUses hturn (hinv.sound i)
    rcases turn_identity hturn with ⟨hlive, hid⟩
    change (Function.update s.obj.slots i a k.slot).usesAs k.generation = _
    by_cases hk : k.slot = i
    · rw [hk, update_self, uses, hk]
      rcases hid with rfl | ⟨halive, hgen, _⟩
      · rw [usesAs_free rfl, usesAs_zero hcount.symm]
      · simp [hgen, hcount, halive, hlive, ne_eq, not_false_eq_true, true_and, Allocation.usesAs]
    · rw [update_of_ne hk]
      rfl

/-- The lines a move adds end no allocation that is in use. -/
theorem move_lines (hmove : Move s t) (hinv : Inv s) :
    ∃ new, t.log = new ++ s.log ∧ ∀ x ∈ new, x.obj = s.obj ∧
      (x.event.Ends → (s.obj.slots x.event.slot).activeUses = 0) := by
  cases hmove with
  | setUp capacity first limit backend hnew hgood =>
    exact ⟨[], rfl, fun x hx => absurd hx List.not_mem_nil⟩
  | insert i owner address bytes state hstate hi hfree hroom hgen =>
    refine ⟨[_], rfl, fun x hx => ?_⟩
    rw [List.mem_singleton.mp hx]
    exact ⟨rfl, fun hends => absurd hends id⟩
  | turn i events a e hi hturn =>
    refine ⟨events.map (Entry.mk s.obj), rfl, fun x hx => ?_⟩
    rcases List.mem_map.mp hx with ⟨ev, hev, rfl⟩
    refine ⟨rfl, fun hends => ?_⟩
    rw [(turn_events hturn ev hev).1]
    exact turn_ends hturn (hinv.sound i) ev hev hends

/-- Along moves the counts stand still. -/
theorem moves_lines (hpath : Moves s t) (hinv : Inv s) :
    uses t.obj = uses s.obj ∧ ∃ new, t.log = new ++ s.log ∧ ∀ x ∈ new,
      uses x.obj = uses s.obj ∧ (x.event.Ends → (x.obj.slots x.event.slot).activeUses = 0) := by
  induction hpath with
  | refl => exact ⟨rfl, [], rfl, fun x hx => absurd hx List.not_mem_nil⟩
  | tail hpre hmove ih =>
    rcases ih with ⟨huses, new, hlog, hnew⟩
    have hmid := moves_inv hpre hinv
    rcases move_lines hmove hmid with ⟨more, hlog', hmore⟩
    refine ⟨(move_uses hmove hmid).trans huses, more ++ new, ?_, fun x hx => ?_⟩
    · rw [hlog', hlog, List.append_assoc]
    · rcases List.mem_append.mp hx with hx | hx
      · rcases hmore x hx with ⟨hobj, hends⟩
        rw [hobj]
        exact ⟨huses, hends⟩
      · exact hnew x hx

theorem Keeps.trans {a b c : Allocation} (h : a.Keeps b) (h' : b.Keeps c) : a.Keeps c :=
  ⟨h'.generation.trans h.generation, h'.owner.trans h.owner, h'.address.trans h.address,
    h'.bytes.trans h.bytes, h'.pin.trans h.pin, h'.state⟩

theorem move_keeps (hmove : Move s t) (hinv : Inv s) {j : Nat}
    (hbusy : (s.obj.slots j).activeUses ≠ 0) :
    (s.obj.slots j).Keeps (t.obj.slots j) ∧
      (t.obj.slots j).activeUses = (s.obj.slots j).activeUses := by
  have hstate := (hinv.sound j).uses hbusy
  have hlive : (s.obj.slots j).state ≠ .free := by
    intro hfree
    rw [hfree] at hstate
    rcases hstate with h | h <;> cases h
  have hstay : (s.obj.slots j).Keeps (s.obj.slots j) := ⟨rfl, rfl, rfl, rfl, rfl, hstate⟩
  cases hmove with
  | setUp capacity first limit backend hnew hgood =>
    have := (hinv.sound j).inside hlive
    rw [hinv.unready hnew] at this
    omega
  | insert i owner address bytes state hst hi hfree hroom hgen =>
    have hji : j ≠ i := fun h => hlive (h ▸ hfree)
    change (s.obj.slots j).Keeps (Function.update s.obj.slots i _ j) ∧
      (Function.update s.obj.slots i _ j).activeUses = _
    rw [update_of_ne hji]
    exact ⟨hstay, rfl⟩
  | turn i events a e hi hturn =>
    rw [turned_slots]
    by_cases hji : j = i
    · subst hji
      rw [update_self]
      exact ⟨turn_keeps hturn (hinv.sound j) hbusy, turn_activeUses hturn (hinv.sound j)⟩
    · rw [update_of_ne hji]
      exact ⟨hstay, rfl⟩

theorem moves_keep (hpath : Moves s t) (hinv : Inv s) {j : Nat}
    (hbusy : (s.obj.slots j).activeUses ≠ 0) : (s.obj.slots j).Keeps (t.obj.slots j) := by
  have hboth : (s.obj.slots j).Keeps (t.obj.slots j) ∧ (t.obj.slots j).activeUses ≠ 0 := by
    induction hpath with
    | refl => exact ⟨⟨rfl, rfl, rfl, rfl, rfl, (hinv.sound j).uses hbusy⟩, hbusy⟩
    | tail hpre hmove ih =>
      rcases move_keeps hmove (moves_inv hpre hinv) ih.2 with ⟨hkeep, hcount⟩
      exact ⟨Keeps.trans ih.1 hkeep, hcount ▸ ih.2⟩
  exact hboth.1

end Moves

section Runs

variable {io : Backend E} {s : World E}

/-- What a call with its status adds to the uses of a handle. -/
def counted (h : Handle) : Call × Status → Int
  | (.retainUse _ k, .ok) => if k = h then 1 else 0
  | (.releaseUse _ k, .ok) => if k = h then -1 else 0
  | _ => 0

theorem counted_of_ne_ok (h : Handle) (c : Call) {status : Status} (hne : status ≠ .ok) :
    counted h (c, status) = 0 := by
  cases status <;> first | contradiction | cases c <;> rfl

theorem uses_recounted {owner : Nat} {k : Handle} (hl : s.obj.lookup owner k = .ok k.slot)
    (h : Handle) (n : Nat) :
    (uses (turned s k.slot [] { s.obj.slots k.slot with activeUses := n } s.env).obj h : Int) =
      uses s.obj h + if k = h then (n : Int) - (s.obj.slots k.slot).activeUses else 0 := by
  rcases lookup_ok hl with ⟨-, -, -, hgen, -, -, -, hlive, -⟩
  rw [uses_recount s _ _ hlive, hgen]
  by_cases hk : k = h
  · subst hk
    rw [update_self, if_pos rfl, uses_of_lookup hl]
    omega
  · rw [update_of_ne (Ne.symm hk), if_neg hk, add_zero]

theorem step_uses (hinv : Inv s) (c : Call) (h : Handle) :
    (uses (step io c s).2.obj h : Int) = uses s.obj h + counted h (c, (step io c s).1) := by
  by_cases hc : c.Quiet
  · rw [(moves_lines (step_moves c hc) hinv).1]
    cases c <;> first | exact (add_zero _).symm | exact absurd hc id
  cases c with
  | retainUse owner k =>
    rw [step]
    rcases retainUse_result owner k s with ⟨hl, -, heq⟩ | ⟨hne, hsame⟩
    · rw [heq, uses_recounted hl]
      simp [counted]
    · rw [hsame, counted_of_ne_ok h _ hne, add_zero]
  | releaseUse owner k =>
    rw [step]
    rcases releaseUse_result owner k s with ⟨hl, -, hpos, heq⟩ | ⟨hne, hsame⟩
    · rw [heq, uses_recounted hl, counted]
      split_ifs <;> omega
    · rw [hsame, counted_of_ne_ok h _ hne, add_zero]
  | _ => exact absurd trivial hc

theorem runAll_uses (h : Handle) (calls : List Call) : ∀ s : World E, Inv s →
    (uses (runAll (step io) calls s).2.obj h : Int) =
      uses s.obj h + ((calls.zip (runAll (step io) calls s).1).map (counted h)).sum := by
  induction calls with
  | nil => exact fun _ _ => (add_zero _).symm
  | cons c calls ih =>
    intro s hinv
    have hrest := ih (step io c s).2 (steps_inv (step_steps c) hinv)
    rw [step_uses hinv c h, add_assoc] at hrest
    exact hrest

end Runs

/-- Over every sequence of calls a handle has as many uses as were taken and
    not given back, whatever else happened to the allocation or its slot. -/
theorem run_uses (io : Backend E) (calls : List Call) (env : E) (h : Handle) :
    (uses (run io calls env).obj h : Int) =
      ((calls.zip (runAll (step io) calls (start env)).1).map (counted h)).sum := by
  have hstart : uses (start env).obj h = 0 := usesAs_free rfl _
  have hrun := @runAll_uses _ io h calls (start env) (start_inv env)
  rwa [hstart, Nat.cast_zero, zero_add] at hrun

end VirtualMemory

end Mellow.XeMemory
