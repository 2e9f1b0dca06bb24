import Mellow.Lib.Prog
import Mellow.Runtime.Platform.Model

/-!
# Completion Evidence

`CompletionTracker` of `PlatformRuntime.cpp` decides whether an observation
completes the submission it was armed with. It keeps one token and one epoch
below which nothing counts.

## Main definitions

* `CompletionTracker`: its fields.
* `history`: calls with their answers and the trackers they left.
* `Rule`: what each line owes to those before it.

## Theorems

* `history_sound`: every line of a history keeps the rule.
-/

namespace Mellow.Platform

open Lib

section Tracker

structure SubmissionToken where
  provider : Nat := 0
  deviceInstance : Nat := 0
  epoch : Nat := 0
  queue : Nat := 0
  sequence : Nat := 0
  deriving DecidableEq

inductive ObservationKind where
  | gpuCompletion | cpuReference | other (raw : Nat)
  deriving DecidableEq

structure CompletionObservation where
  token : SubmissionToken := {}
  kind : ObservationKind := .cpuReference
  gpuStart : Nat := 0
  gpuEnd : Nat := 0
  validationRecord : Nat := 0
  resultsVerified : Bool := false
  deriving DecidableEq

inductive CompletionState where
  | empty | pending | gpuEvidenceAccepted | referenceComplete | reset
  deriving DecidableEq

inductive CompletionStatus where
  | accepted | invalidInput | notPending | alreadyPending | staleEpoch | wrongSubmission
  | nonGpuObservation | incompleteEvidence
  deriving DecidableEq

structure CompletionTracker where
  token : SubmissionToken := {}
  state : CompletionState := .empty
  reference : Bool := false
  epochFloor : Nat := 0

def sameToken (a b : SubmissionToken) : Bool :=
  decide (a.provider = b.provider ∧ a.deviceInstance = b.deviceInstance ∧ a.epoch = b.epoch ∧
    a.queue = b.queue ∧ a.sequence = b.sequence)

namespace CompletionTracker

variable (t : CompletionTracker)

def armAfterSubmission (p : Provider) (token : SubmissionToken) (reference : Bool) :
    CompletionStatus × CompletionTracker :=
  if t.state = .pending then (.alreadyPending, t)
  else if validProvider p = false ∨ token.queue = 0 ∨ token.sequence = 0 ∨ token.provider ≠ p.id ∨
      token.deviceInstance ≠ p.device.instanceId ∨ token.epoch ≠ p.resetEpoch ∨
      (reference = true ∧ p.api ≠ .cpuReference) ∨
      (reference = false ∧ p.execution ≠ .hardware) then
    (.invalidInput, t)
  else if token.epoch < t.epochFloor then (.staleEpoch, t)
  else if t.token.provider ≠ 0 ∧ (t.token.provider ≠ token.provider ∨
      t.token.deviceInstance ≠ token.deviceInstance ∨ t.token.queue ≠ token.queue ∨
      (t.token.epoch = token.epoch ∧ token.sequence ≤ t.token.sequence)) then (.wrongSubmission, t)
  else (.accepted, ⟨token, .pending, reference, token.epoch⟩)

def observe (event : CompletionObservation) : CompletionStatus × CompletionTracker :=
  if event.token.epoch < t.epochFloor ∨ event.token.epoch ≠ t.token.epoch then (.staleEpoch, t)
  else if t.state ≠ .pending then (.notPending, t)
  else if sameToken t.token event.token = false then (.wrongSubmission, t)
  else if t.reference = false ∧ event.kind ≠ .gpuCompletion then (.nonGpuObservation, t)
  else if t.reference = true ∧ event.kind ≠ .cpuReference then (.invalidInput, t)
  else if event.validationRecord = 0 ∨ event.resultsVerified = false ∨
      (t.reference = false ∧ (event.gpuStart = 0 ∨ event.gpuEnd ≤ event.gpuStart)) then
    (.incompleteEvidence, t)
  else (.accepted, { t with state := cond t.reference .referenceComplete .gpuEvidenceAccepted })

def invalidateForReset (epoch : Nat) : CompletionStatus × CompletionTracker :=
  if epoch = 0 ∨ epoch ≤ t.epochFloor then (.staleEpoch, t)
  else (.accepted, { t with epochFloor := epoch, state := .reset })

inductive Call where
  | arm (p : Provider) (token : SubmissionToken) (reference : Bool)
  | observe (event : CompletionObservation)
  | reset (epoch : Nat)

def step : Call → CompletionStatus × CompletionTracker
  | .arm p token reference => t.armAfterSubmission p token reference
  | .observe event => t.observe event
  | .reset epoch => t.invalidateForReset epoch

abbrev Line := Entry CompletionTracker (Call × CompletionStatus)

def record (x : CompletionTracker × List Line) (c : Call) : CompletionTracker × List Line :=
  let r := x.1.step c
  (r.2, ⟨r.2, c, r.1⟩ :: x.2)

/-- What a new tracker was asked and answered, newest first. -/
def history (calls : List Call) : CompletionTracker × List Line := calls.foldl record ({}, [])

end CompletionTracker

end Tracker

namespace CompletionTracker

section Rules

/-- A token that was armed, and whether for a reference run. -/
def armed : Call × CompletionStatus → Option (SubmissionToken × Bool)
  | (.arm _ token reference, .accepted) => some (token, reference)
  | _ => none

def completed : Call × CompletionStatus → Option CompletionObservation
  | (.observe event, .accepted) => some event
  | _ => none

def raised : Call × CompletionStatus → Option Nat
  | (.reset epoch, .accepted) => some epoch
  | _ => none

structure Before (a b : SubmissionToken) : Prop where
  provider : a.provider = b.provider
  device : a.deviceInstance = b.deviceInstance
  queue : a.queue = b.queue
  earlier : a.epoch < b.epoch ∨ a.epoch = b.epoch ∧ a.sequence < b.sequence

/-- Complete evidence, which for hardware is that of the GPU. -/
def Evidence (reference : Bool) (event : CompletionObservation) : Prop :=
  event.validationRecord ≠ 0 ∧ event.resultsVerified = true ∧
    if reference then event.kind = .cpuReference
    else event.kind = .gpuCompletion ∧ event.gpuStart ≠ 0 ∧ event.gpuStart < event.gpuEnd

/-- The token is the one that was armed last, and nothing was accepted since. -/
def Pending (token : SubmissionToken) (reference : Bool) (log : List Line) : Prop :=
  ∃ idle l older, log = idle ++ l :: older ∧ (∀ b ∈ idle, b.event.2 ≠ .accepted) ∧
    armed l.event = some (token, reference)

/-- What a line requires of those before it. -/
structure Rule (l : Line) (before : List Line) : Prop where
  floor : ∀ b ∈ before, b.obj.epochFloor ≤ l.obj.epochFloor
  order : ∀ x, armed l.event = some x → ∀ b ∈ before, ∀ y, armed b.event = some y → Before y.1 x.1
  pending : ∀ event, completed l.event = some event → ∃ reference,
    Pending event.token reference before ∧ Evidence reference event
  once : ∀ event, completed l.event = some event → ∀ b ∈ before, ∀ event',
    completed b.event = some event' → event'.token ≠ event.token
  live : ∀ event, completed l.event = some event → ∀ b ∈ before, ∀ epoch,
    raised b.event = some epoch → epoch ≤ event.token.epoch

end Rules

section Steps

variable {t t' : CompletionTracker} {a b c : SubmissionToken}

theorem Before.trans (h : Before a b) (h' : Before b c) : Before a c := by
  refine ⟨h.provider.trans h'.provider, h.device.trans h'.device, h.queue.trans h'.queue, ?_⟩
  have := h.earlier
  have := h'.earlier
  omega

theorem Before.ne (h : Before a b) : a ≠ b := by
  rintro rfl
  have := h.earlier
  omega

theorem sameToken_eq (h : sameToken a b = true) : a = b := by
  rw [sameToken, decide_eq_true_eq] at h
  cases a
  cases b
  simp_all only

theorem arm_accepted {p : Provider} {token : SubmissionToken} {reference : Bool}
    (h : t.armAfterSubmission p token reference = (.accepted, t')) :
    t' = ⟨token, .pending, reference, token.epoch⟩ ∧ token.provider ≠ 0 ∧
    t.epochFloor ≤ token.epoch ∧
      (t.token.provider ≠ 0 → t.token.epoch ≤ t.epochFloor → Before t.token token) := by
  unfold armAfterSubmission at h
  split_ifs at h with hpending hvalid hstale hwrong
  · cases h
  · cases h
  · cases h
  · cases h
  cases h
  have hid : token.provider ≠ 0 := by
    intro hzero
    refine hvalid (.inl ?_)
    have hp : token.provider = p.id := by omega
    rw [validProvider, if_pos (.inl (hp.symm.trans hzero))]
  refine ⟨rfl, hid, Nat.le_of_not_lt hstale, fun hprovider hepoch => ?_⟩
  have hsame := not_and.mp hwrong hprovider
  simp only [not_or, not_not, not_and] at hsame
  refine ⟨hsame.1, hsame.2.1, hsame.2.2.1, ?_⟩
  have hsequence := hsame.2.2.2
  omega

theorem observe_accepted {event : CompletionObservation} (h : t.observe event = (.accepted, t')) :
    (∃ s, t' = { t with state := s } ∧ s ≠ .pending) ∧ t.state = .pending ∧ event.token = t.token ∧
      t.epochFloor ≤ event.token.epoch ∧ Evidence t.reference event := by
  unfold observe at h
  split_ifs at h with hstale hstate hsame hkind hreference hevidence
  · cases h
  · cases h
  · cases h
  · cases h
  · cases h
  · cases h
  cases h
  have hdone : cond t.reference CompletionState.referenceComplete .gpuEvidenceAccepted ≠
    .pending := by
    cases t.reference <;> exact nofun
  refine ⟨⟨_, rfl, hdone⟩, not_not.mp hstate, (sameToken_eq (by simpa using hsame)).symm, ?_, ?_⟩
  · exact Nat.le_of_not_lt fun hlt => hstale (.inl hlt)
  · simp only [not_or, not_and, not_not, Bool.not_eq_false] at hkind hreference hevidence
    refine ⟨hevidence.1, hevidence.2.1, ?_⟩
    cases hr : t.reference with
    | true => exact hreference hr
    | false => exact ⟨hkind hr, (hevidence.2.2 hr).1, Nat.lt_of_not_le (hevidence.2.2 hr).2⟩

theorem step_refused {c : Call} {s : CompletionStatus} (h : t.step c = (s, t'))
    (hs : s ≠ .accepted) : t' = t := by
  cases c with
  | arm p token reference =>
    unfold step armAfterSubmission at h
    dsimp only at h
    split_ifs at h <;> cases h <;> first | rfl | exact absurd rfl hs
  | observe event =>
    unfold step observe at h
    dsimp only at h
    split_ifs at h <;> cases h <;> first | rfl | exact absurd rfl hs
  | reset epoch =>
    unfold step invalidateForReset at h
    dsimp only at h
    split_ifs at h <;> cases h <;> first | rfl | exact absurd rfl hs

end Steps

section Runs

structure Inv (t : CompletionTracker) (log : List Line) : Prop where
  rule : Chron Rule log
  floor : ∀ b ∈ log, b.obj.epochFloor ≤ t.epochFloor
  token : t.token.epoch ≤ t.epochFloor
  armed : ∀ b ∈ log, ∀ x, armed b.event = some x →
    t.token.provider ≠ 0 ∧ (x.1 = t.token ∨ Before x.1 t.token)
  completed : ∀ b ∈ log, ∀ event, completed b.event = some event → t.token.provider ≠ 0 ∧
    (event.token = t.token ∧ t.state ≠ .pending ∨ Before event.token t.token)
  raised : ∀ b ∈ log, ∀ epoch, raised b.event = some epoch → epoch ≤ t.epochFloor
  pending : t.state = .pending → Pending t.token t.reference log

variable {t t' : CompletionTracker} {log : List Line}

theorem refused_none {c : Call} {s : CompletionStatus} (hs : s ≠ .accepted) :
    armed (c, s) = none ∧ completed (c, s) = none ∧ raised (c, s) = none := by
  cases s with
  | accepted => exact absurd rfl hs
  | _ => cases c <;> exact ⟨rfl, rfl, rfl⟩

theorem absurd_none {α : Type} {P : α → Prop} (a : α) (h : none = some a) : P a := by
  cases h

theorem Inv.refused (h : Inv t log) {c : Call} {s : CompletionStatus} (hs : s ≠ .accepted) :
    Inv t (⟨t, c, s⟩ :: log) := by
  rcases refused_none (c := c) hs with ⟨harmed, hcompleted, hraised⟩
  refine ⟨⟨⟨h.floor, ?_, ?_, ?_, ?_⟩, h.rule⟩, List.forall_mem_cons.mpr ⟨Nat.le_refl _, h.floor⟩,
    h.token, List.forall_mem_cons.mpr ⟨?_, h.armed⟩, List.forall_mem_cons.mpr ⟨?_, h.completed⟩,
    List.forall_mem_cons.mpr ⟨?_, h.raised⟩, fun hp => ?_⟩
  all_goals try simp only [harmed, hcompleted, hraised, reduceCtorEq, false_implies, implies_true]
  rcases h.pending hp with ⟨idle, l, older, rfl, hidle, hl⟩
  exact ⟨⟨t, c, s⟩ :: idle, l, older, rfl, List.forall_mem_cons.mpr ⟨hs, hidle⟩, hl⟩

theorem Inv.arm (h : Inv t log) {p : Provider} {token : SubmissionToken} {reference : Bool}
    (hstep : t.armAfterSubmission p token reference = (.accepted, t')) :
    Inv t' (⟨t', .arm p token reference, .accepted⟩ :: log) := by
  rcases arm_accepted hstep with ⟨rfl, hid, hfloor, hbefore⟩
  have horder : ∀ b ∈ log, ∀ y, CompletionTracker.armed b.event = some y → Before y.1 token := by
    intro b hb y hy
    rcases h.armed b hb y hy with ⟨hprovider, heq | hlt⟩
    · exact heq ▸ hbefore hprovider h.token
    · exact hlt.trans (hbefore hprovider h.token)
  have hdone : ∀ b ∈ log, ∀ event, CompletionTracker.completed b.event = some event →
      Before event.token token := by
    intro b hb event hevent
    rcases h.completed b hb event hevent with ⟨hprovider, ⟨heq, _⟩ | hlt⟩
    · exact heq ▸ hbefore hprovider h.token
    · exact hlt.trans (hbefore hprovider h.token)
  have hraise : ∀ b ∈ log, b.obj.epochFloor ≤ token.epoch := fun b hb =>
    Nat.le_trans (h.floor b hb) hfloor
  have hline : ∀ x, CompletionTracker.armed (.arm p token reference, .accepted) = some x →
      x = (token, reference) := fun x hx => (Option.some.inj hx).symm
  refine ⟨⟨⟨hraise, fun x hx => ?_, absurd_none, absurd_none, absurd_none⟩, h.rule⟩,
    List.forall_mem_cons.mpr ⟨Nat.le_refl _, hraise⟩, Nat.le_refl _,
    List.forall_mem_cons.mpr ⟨fun x hx => ?_, fun b hb y hy => ⟨hid, .inr (horder b hb y hy)⟩⟩,
    List.forall_mem_cons.mpr ⟨absurd_none, fun b hb event he => ⟨hid, .inr (hdone b hb event he)⟩⟩,
    List.forall_mem_cons.mpr ⟨absurd_none,
    fun b hb e he => Nat.le_trans (h.raised b hb e he) hfloor⟩,
    fun _ => ⟨[], _, log, rfl, fun _ hb => absurd hb List.not_mem_nil, rfl⟩⟩
  · rw [hline x hx]
    exact horder
  · rw [hline x hx]
    exact ⟨hid, .inl rfl⟩

theorem Inv.observe (h : Inv t log) {event : CompletionObservation}
    (hstep : t.observe event = (.accepted, t')) :
    Inv t' (⟨t', .observe event, .accepted⟩ :: log) := by
  rcases observe_accepted hstep with ⟨⟨s, rfl, hs⟩, hpending, htoken, hfloor, hevidence⟩
  have hprovider : t.token.provider ≠ 0 := by
    rcases h.pending hpending with ⟨idle, l, older, rfl, _, hl⟩
    exact (h.armed l (List.mem_append_right idle List.mem_cons_self) _ hl).1
  refine ⟨⟨⟨h.floor, absurd_none, ?_, ?_, ?_⟩, h.rule⟩,
    List.forall_mem_cons.mpr ⟨Nat.le_refl _, h.floor⟩, h.token,
    List.forall_mem_cons.mpr ⟨absurd_none, h.armed⟩,
    List.forall_mem_cons.mpr ⟨?_, fun b hb e he => ?_⟩,
    List.forall_mem_cons.mpr ⟨absurd_none, h.raised⟩, fun hp => absurd hp hs⟩
  · rintro e he
    cases he
    exact ⟨t.reference, htoken ▸ h.pending hpending, hevidence⟩
  · rintro e he b hb e' he'
    cases he
    rw [htoken]
    exact (h.completed b hb e' he').2.elim (fun hno => absurd hpending hno.2) Before.ne
  · rintro e he b hb epoch hepoch
    cases he
    exact Nat.le_trans (h.raised b hb epoch hepoch) hfloor
  · rintro e he
    cases he
    exact ⟨hprovider, .inl ⟨htoken, hs⟩⟩
  · exact (h.completed b hb e he).imp_right fun hor => hor.imp_left fun heq => ⟨heq.1, hs⟩

theorem Inv.reset (h : Inv t log) {epoch : Nat}
    (hstep : t.invalidateForReset epoch = (.accepted, t')) :
    Inv t' (⟨t', .reset epoch, .accepted⟩ :: log) := by
  unfold invalidateForReset at hstep
  split_ifs at hstep with hstale
  · cases hstep
  cases hstep
  have hle : t.epochFloor ≤ epoch := by omega
  have hraise : ∀ b ∈ log, b.obj.epochFloor ≤ epoch := fun b hb => Nat.le_trans (h.floor b hb) hle
  refine ⟨⟨⟨hraise, absurd_none, absurd_none, absurd_none, absurd_none⟩, h.rule⟩,
    List.forall_mem_cons.mpr ⟨Nat.le_refl _, hraise⟩, Nat.le_trans h.token hle,
    List.forall_mem_cons.mpr ⟨absurd_none, h.armed⟩,
    List.forall_mem_cons.mpr ⟨absurd_none, fun b hb e he => ?_⟩,
    List.forall_mem_cons.mpr ⟨?_, fun b hb e he => Nat.le_trans (h.raised b hb e he) hle⟩, nofun⟩
  · exact (h.completed b hb e he).imp_right fun hor => hor.imp_left fun heq => ⟨heq.1, nofun⟩
  · rintro e he
    cases he
    exact Nat.le_refl _

theorem Inv.step (h : Inv t log) (c : Call) :
    Inv (t.step c).2 (⟨(t.step c).2, c, (t.step c).1⟩ :: log) := by
  rcases hstep : t.step c with ⟨s, t'⟩
  by_cases hs : s = .accepted
  · subst hs
    cases c with
    | arm p token reference => exact h.arm hstep
    | observe event => exact h.observe hstep
    | reset epoch => exact h.reset hstep
  · cases step_refused hstep hs
    exact h.refused hs

/-- Completion evidence cannot be replayed, over every sequence of calls. -/
theorem history_sound (calls : List Call) : Chron Rule (history calls).2 := by
  suffices hinv : ∀ (calls : List Call) (x : CompletionTracker × List Line), Inv x.1 x.2 →
      Inv (calls.foldl record x).1 (calls.foldl record x).2 by
    refine (hinv calls ({}, []) ⟨trivial, ?_, Nat.le_refl _, ?_, ?_, ?_, nofun⟩).rule
    all_goals exact fun _ hb => absurd hb List.not_mem_nil
  intro calls
  induction calls with
  | nil => exact fun _ hx => hx
  | cons c calls ih => exact fun x hx => ih _ (hx.step c)

end Runs

end CompletionTracker

end Mellow.Platform
