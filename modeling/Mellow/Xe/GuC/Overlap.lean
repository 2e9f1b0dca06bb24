import Mellow.Xe.GuC.Delivery

/-!
# Overlapping Transitions

A context that is being enabled, disabled or deregistered answers with an event
that carries its number only, so `send` turns away a second action for it. It
compares the contexts of open transitions with the second word of the action. In
a registration that is a word of flags, always 1, so a registration is turned
away for the sake of context 1 and not of its own.

## Main definitions

* `Transport.Open`: a transition of a context is open.
* `Transport.Separates`: the test is right about an action.

## Theorems

* `send_overlap`: what is turned away is not sent.
* `run_overlap`: when the test is right.
-/

namespace Mellow.XeGuC

open Lib

variable {E : Type}

namespace Transport

def Open (t : Transport) (context : Nat) : Prop := ∃ i, Transition (t.pending i) context
  deriving Decidable

/-- An action is turned away exactly for a transition of its own context. -/
def Separates (t : Transport) (a : Action) : Prop :=
  t.scan a = .error .overlap ↔ t.Open a.context
  deriving Decidable

variable {t : Transport} {a : Action}

/-- The test looks at the second word. -/
theorem scan_overlap (hreq : ¬ a.Request) :
    t.scan a = .error .overlap ↔ t.Open (a.words 1) := by
  unfold scan
  by_cases hopen : t.Open (a.words 1)
  · rw [if_pos ⟨hreq, hopen⟩]
    exact ⟨fun _ => hopen, fun _ => rfl⟩
  · rw [if_neg (fun h => hopen h.2)]
    refine ⟨fun h => ?_, fun h => absurd h hopen⟩
    -- The other two reasons are different ones.
    cases hslot : t.unused with
    | none =>
      rw [hslot] at h
      cases h
    | some slot =>
      rw [hslot] at h
      dsimp only at h
      split at h <;> cases h

end Transport

section Send

variable {io : Ops E} {s : World E} {h : Transport} {a : Action}

theorem send_turns_away (now deadline : Nat) (hscan : h.scan a = .error .overlap) :
    Spec (Reach (Calm io) s h) (send io a now deadline) (fun r t =>
      (r.1 ≠ .ok ∧ r.2 = Cookie.zero) ∧ ∃ h', Reach (Calm io) s h' t ∧ Kept h h') := by
  have hstay : ∀ (st : Status) h', st ≠ .ok → Kept h h' → Spec (Reach (Calm io) s h')
      (pure (st, Cookie.zero)) (fun r t =>
        (r.1 ≠ .ok ∧ r.2 = Cookie.zero) ∧ ∃ h', Reach (Calm io) s h' t ∧ Kept h h') :=
    fun st h' hst hk => spec_pure _ fun t ht => ⟨⟨hst, rfl⟩, h', ht, hk⟩
  refine spec_ite (fun _ => hstay _ h nofun ⟨rfl, rfl, rfl⟩) fun _ => ?_
  refine spec_bind (clock_reach (calm_self io) now) fun forward => ?_
  cases forward with
  | false => exact spec_ite (fun _ => hstay _ h nofun ⟨rfl, rfl, rfl⟩) fun hno => absurd rfl hno
  | true =>
    refine spec_ite nofun fun _ => ?_
    refine spec_bind (spec_pre (fun t ht => ((if_pos rfl).mp ht).2)
      (checkDescriptors_reach (calm_self io))) fun st => ?_
    refine spec_ite (fun hst => spec_pure _ fun t ht => ⟨⟨hst, rfl⟩, ?_⟩) fun hst => ?_
    · rcases ht.2 hst with ⟨_, ⟨ht, _⟩ | ht⟩ <;> exact ⟨_, ht, ⟨rfl, rfl, rfl⟩⟩
    refine spec_each fun t ht => spec_bind_look_at ?_
    rcases ht.1 (not_not.mp hst) with ⟨_, ht, _⟩
    rw [ht.2]
    refine spec_at ht ?_
    refine spec_bind (callback_reach (calm_self io) _ _ fun _ => trivial) fun ok => ?_
    refine spec_ite (fun _ => hstay _ _ nofun ⟨rfl, rfl, rfl⟩) fun _ => ?_
    refine spec_ite (fun _ => hstay _ _ nofun ⟨rfl, rfl, rfl⟩) fun _ => ?_
    -- The scan reads neither the clock nor anything the checks may change.
    rw [show Transport.scan { h with lastTime := now } a = .error .overlap from hscan]
    exact hstay .busy _ nofun ⟨rfl, rfl, rfl⟩

/-- An action that is turned away uses no cookie, slot, fence or credit. -/
theorem send_overlap (now deadline : Nat) (hscan : s.obj.scan a = .error .overlap) :
    (send io a now deadline s).1.1 ≠ .ok ∧ (send io a now deadline s).1.2 = Cookie.zero ∧
      Kept s.obj.host (send io a now deadline s).2.obj.host := by
  rcases send_turns_away now deadline hscan s ⟨.refl, rfl⟩ with ⟨hr, h', hreach, hkept⟩
  exact ⟨hr.1, hr.2, hreach.2 ▸ hkept⟩

end Send

/-- In every reachable state the test is right about an action exactly when the
    action is no registration, or contexts 1 and its own are alike: both have a
    transition open, or neither has. -/
theorem run_overlap (io : Ops E) (calls : List Call) (h g : Port) (env : E) (a : Action)
    (hvalid : validateAction a = .ok) (hreq : ¬ a.Request) :
    (run io calls (start h g env)).2.obj.Separates a ↔
      (a.words 0 = 0x4502 → ((run io calls (start h g env)).2.obj.Open 1 ↔
        (run io calls (start h g env)).2.obj.Open a.context)) := by
  generalize (run io calls (start h g env)).2.obj.host = t
  unfold Transport.Separates
  rw [Transport.scan_overlap hreq]
  by_cases hreg : a.words 0 = 0x4502
  · -- The second word of a registration is 1.
    have hone : a.words 1 = 1 := by
      rcases valid_cases hvalid with ⟨_, hr⟩ | ⟨hw | hw, _⟩ | ⟨hw, _⟩ | ⟨hw, _⟩
      · exact hr.2.1
      · omega
      · omega
      · omega
      · omega
    rw [hone]
    exact ⟨fun hsep _ => hsep, fun hsep => hsep hreg⟩
  · have hword : a.context = a.words 1 := if_neg hreg
    rw [hword]
    exact ⟨fun _ hno => absurd hno hreg, fun _ => Iff.rfl⟩

theorem run_overlap_schedule :
    validateAction (encodeSchedule 7).2 = .ok ∧ ¬ (encodeSchedule 7).2.Request ∧
      ((run eager enableFive (start Port.blank Port.blank ())).2.obj.Separates
          (encodeSchedule 7).2 ↔
        ((encodeSchedule 7).2.words 0 = 0x4502 →
          ((run eager enableFive (start Port.blank Port.blank ())).2.obj.Open 1 ↔
            (run eager enableFive (start Port.blank Port.blank ())).2.obj.Open
              (encodeSchedule 7).2.context))) :=
  ⟨by decide, by decide,
    run_overlap eager enableFive Port.blank Port.blank () (encodeSchedule 7).2 (by decide)
      (by decide)⟩

def registerDuring (other : Nat) : List Answer :=
  (run eager [attachSmallest, .send (encodeMode other true).2 0 10,
    .send (encodeRegister 5 0 1 0x1000).2 0 10] (start Port.blank Port.blank ())).1

def enabling (other : Nat) : Transport :=
  (run eager [attachSmallest, .send (encodeMode other true).2 0 10]
    (start Port.blank Port.blank ())).2.obj.host

/-- A registration of context 5 is turned away because context 1 is being
    enabled, and let through while context 5 itself is. -/
theorem run_overlap_register :
    (registerDuring 1 = [.status .ok, .sent .ok ⟨1, 0x8000⟩, .sent .busy Cookie.zero] ∧
        (enabling 1).scan (encodeRegister 5 0 1 0x1000).2 = .error .overlap ∧
        ¬ (enabling 1).Open 5) ∧
      registerDuring 5 = [.status .ok, .sent .ok ⟨1, 0x8000⟩, .sent .ok ⟨1, 0x8001⟩] ∧
        (enabling 5).Open 5 := by
  decide

end Mellow.XeGuC
