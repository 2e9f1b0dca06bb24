import Mellow.Diagnostic.Session

/-!
# Who Holds the Pin

What a session owes to the memory it has pinned, over any sequence of requests
from anybody. The backend is trusted in one point: a failed `unpin` leaves the
record alone. The log is a history of one record, so what is pinned and not
given back is counted by the log alone, at every moment. A request does one of
the few things that `Turn` lists.

## Main definitions

* `record`: the record the backend left last.
* `Lawful`: each use of the backend was handed that record.
* `Turn`: what a request does.
* `Owned`: what holds after any requests.

## Theorems

* `run_owned`: every pin has one owner, and is given back by it.
-/

namespace Mellow.MellowDiagnostic

open Lib

variable {E : Type}

section History

variable {log : Log}

def Event.left? : Event → Option XeMemory.Pin
  | .pin _ _ _ _ left => some left
  | .unpin _ _ left => some left
  | .issued _ => none

def record (log : Log) : XeMemory.Pin :=
  (latest Event.left? log).getD XeMemory.Pin.empty

def Event.Acquires : Event → Prop
  | .pin _ _ _ _ left => left.Escaped
  | _ => False

def Event.Frees : Event → Prop
  | .unpin _ result left => result = .ok ∧ ¬ left.Escaped
  | _ => False

/-- An `unpin` left something behind. -/
def Event.Keeps : Event → Prop
  | .unpin _ _ left => left.Escaped
  | _ => False

instance : DecidablePred Event.Acquires
  | .pin _ _ _ _ left => inferInstanceAs (Decidable left.Escaped)
  | .unpin .. => isFalse id
  | .issued _ => isFalse id

instance : DecidablePred Event.Frees
  | .pin .. => isFalse id
  | .unpin _ _ _ => inferInstanceAs (Decidable (_ ∧ _))
  | .issued _ => isFalse id

def acquired (log : Log) : Nat :=
  log.countP fun l => decide l.event.Acquires

def freed (log : Log) : Nat :=
  log.countP fun l => decide l.event.Frees

def issuedIn (log : Log) : List Nat :=
  log.filterMap fun l => match l.event with
    | .issued handle => some handle
    | _ => none

def Lawful (l : Entry Session Event) (before : Log) : Prop :=
  match l.event with
  | .pin owner _ given _ _ =>
    given = record before ∧ ¬ given.Escaped ∧ l.obj.Owns owner ∧ l.obj.stopped = false
  | .unpin given result left =>
    given = record before ∧ given.Escaped ∧ (result ≠ .ok → left = given)
  | .issued handle => (record before).Escaped ∧ ∀ h ∈ issuedIn before, h < handle

@[simp] theorem record_pin {o : Session} {owner bytes : Nat} {given left : XeMemory.Pin}
    {result : XeMemory.Status} :
    record (⟨o, .pin owner bytes given result left⟩ :: log) = left := rfl

@[simp] theorem record_unpin {o : Session} {given left : XeMemory.Pin} {result : XeMemory.Status}
    : record (⟨o, .unpin given result left⟩ :: log) = left := rfl

theorem acquired_cons (l : Entry Session Event) (log : Log) :
    acquired (l :: log) = acquired log + if l.event.Acquires then 1 else 0 := by
  simp only [acquired, List.countP_cons, decide_eq_true_eq]

theorem freed_cons (l : Entry Session Event) (log : Log) :
    freed (l :: log) = freed log + if l.event.Frees then 1 else 0 := by
  simp only [freed, List.countP_cons, decide_eq_true_eq]

/-- One thing at most is pinned, at any time. -/
theorem held_eq (h : Chron Lawful log) :
    acquired log = freed log + if (record log).Escaped then 1 else 0 := by
  induction log with
  | nil => rfl
  | cons l log ih =>
    rcases h with ⟨hline, hrest⟩
    have hlog := ih hrest
    rcases l with ⟨o, ev⟩
    rw [acquired_cons, freed_cons]
    cases ev with
    | pin owner bytes given result left =>
      rcases hline with ⟨rfl, hempty, _⟩
      rw [if_neg hempty] at hlog
      change acquired log + (if left.Escaped then 1 else 0) = freed log + 0 + _
      rw [hlog, record_pin]
    | unpin given result left =>
      rcases hline with ⟨rfl, hheld, hresult⟩
      rw [if_pos hheld] at hlog
      change acquired log + 0 = freed log + (if result = .ok ∧ ¬ left.Escaped then 1 else 0) + _
      rw [hlog, record_unpin]
      by_cases hleft : left.Escaped
      · rw [if_pos hleft, if_neg fun hfree => hfree.2 hleft]
      · have hok : result = .ok := by
          by_contra hne
          exact hleft (hresult hne ▸ hheld)
        rw [if_neg hleft, if_pos ⟨hok, hleft⟩]
    | issued handle => exact hlog

/-- A record that was set is emptied by an `unpin` that reports success. -/
theorem emptied_frees {l : Entry Session Event} {before : Log}
    (h : Lawful l before) (hset : (record before).Escaped)
    (hempty : ¬ (record (l :: before)).Escaped) : l.event.Frees := by
  rcases l with ⟨o, ev⟩
  cases ev with
  | pin owner bytes given result left =>
    rcases h with ⟨rfl, hno, _⟩
    exact absurd hset hno
  | unpin given result left =>
    rcases h with ⟨rfl, hheld, hresult⟩
    refine ⟨?_, hempty⟩
    by_contra hne
    exact hempty (hresult hne ▸ hheld)
  | issued handle => exact absurd hset hempty

end History

section Turns

variable {io : Ops E} {s t : World E}

/-- A failed `unpin` leaves the record as it was. -/
def Honest (io : Ops E) : Prop := ∀ p e, (io.unpin p e).1.1 ≠ .ok → (io.unpin p e).1.2 = p

inductive Released (s : World E) : Status → World E → Prop where
  | nothing (h : ¬ s.obj.HasResources) : Released s .ok s
  -- There is no way to give anything back.
  | missing (h : s.obj.HasResources) :
      Released s .quarantined (s.put { s.obj with state := .faulted })
  | kept {result : XeMemory.Status} {left : XeMemory.Pin} {e : E} (h : s.obj.HasResources)
      (hresult : result ≠ .ok → left = s.obj.pin) (hleft : left.Escaped) :
      Released s .quarantined ((s.heard (.unpin s.obj.pin result left) e).put
        { s.obj with pin := left, state := .faulted })
  | freed {left : XeMemory.Pin} {e : E} (h : s.obj.HasResources) (hleft : ¬ left.Escaped) :
      Released s .ok ((s.heard (.unpin s.obj.pin .ok left) e).put
        { s.obj with pin := left, handle := 0, bytes := 0,
                     state := if s.obj.stopped = true then .stopped else .ready })

theorem releaseAllocation_released (hio : Honest io) :
    Spec (fun t => t = s) (releaseAllocation io) (Released s) := by
  refine spec_bind_look_at ?_
  refine spec_ite (fun h => spec_pure _ ?_) fun h => ?_
  · rintro t rfl
    exact .nothing h
  have h := not_not.mp h
  refine spec_ite (fun _ => ?_) fun _ => ?_
  · rintro t rfl
    exact .missing h
  refine spec_bind (R := fun result t => ∃ left e, (result ≠ .ok → left = s.obj.pin) ∧
    t = (s.heard (.unpin s.obj.pin result left) e).put { s.obj with pin := left }) ?_
    fun result => ?_
  · rintro t rfl
    exact ⟨_, _, hio _ _, rfl⟩
  refine spec_each fun t ht => ?_
  rcases ht with ⟨left, e, hresult, rfl⟩
  refine spec_bind_look (o := { s.obj with pin := left }) (fun u hu => hu ▸ rfl) ?_
  refine spec_ite (fun hbad => ?_) fun hgood => ?_
  · rintro u rfl
    refine .kept h hresult ?_
    by_cases hok : result = .ok
    · exact hbad.resolve_left fun hne => hne hok
    · rw [hresult hok]
      exact h
  · rintro u rfl
    have hok : result = .ok := by
      by_contra hne
      exact hgood (.inl hne)
    subst hok
    exact .freed h fun hleft => hgood (.inr hleft)

/-- The request is answered with a new allocation. -/
def Grants : Call → Answer → Prop
  | .call _ selector _, .reply r => selector = 1 ∧ r.status = .ok
  | _, _ => False

/-- A request of the owner may use the backend. -/
structure Admits (s : World E) (owner : Nat) : Prop where
  owns : s.obj.Owns owner
  running : s.obj.stopped = false

inductive Turn (s : World E) : Call → Answer → World E → Prop where
  | same {c : Call} {a : Answer} (hc : c ≠ .stop) (hno : ¬ Grants c a) : Turn s c a s
  | initialized {id : Identity} {bar : Bool} {backend : XeMemory.Callbacks} {evidence kept : Nat}
      {a : Answer} (hcold : s.obj.state = .cold) :
      Turn s (.initializeSession id bar backend evidence) a (s.put
        { s.obj with identity := id, backend := backend, evidence := kept, state := .ready })
  | opened {owner : Nat} {a : Answer} (hrun : s.obj.stopped = false) :
      Turn s (.openSession owner) a (s.put { s.obj with owner := owner })
  | closed {owner : Nat} {a : Answer} {st : Status} {t : World E}
      (howns : s.obj.Owns owner) (h : Released (s.put { s.obj with owner := 0 }) st t) :
      Turn s (.close owner) a t
  | halted {st : Status} {t : World E}
      (h : Released (s.put { s.obj with stopped := true, owner := 0 }) st t) :
      Turn s .stop (.status st) (if st = .ok then t.put { t.obj with state := .stopped } else t)
  -- The rest is `call`, by the owner.
  | released {owner selector : Nat} {r : Request} {a : Answer} {st : Status} {t : World E}
      (hown : Admits s owner) (hno : ¬ Grants (.call owner selector r) a) (h : Released s st t) :
      Turn s (.call owner selector r) a t
  | refused {owner selector : Nat} {r : Request} {a : Answer} {result : XeMemory.Status}
      {left : XeMemory.Pin} {e : E} (hown : Admits s owner)
      (hno : ¬ Grants (.call owner selector r) a) (hfree : ¬ s.obj.HasResources) {st : State}
      (hst : st = if left.Escaped then .faulted else .ready) :
      Turn s (.call owner selector r) a
        ((s.heard (.pin owner r.bytes s.obj.pin result left) e).put
          { s.obj with pin := left, state := st })
  | spoiled {owner selector : Nat} {r : Request} {a : Answer} {left : XeMemory.Pin} {e : E}
      {st : Status} {t : World E} (hown : Admits s owner)
      (hno : ¬ Grants (.call owner selector r) a) (hfree : ¬ s.obj.HasResources)
      (hready : s.obj.state = .ready)
      (h : Released ((s.heard (.pin owner r.bytes s.obj.pin .ok left) e).put
        { s.obj with pin := left }) st t) :
      Turn s (.call owner selector r) a t
  | taken {owner selector : Nat} {r : Request} {a : Answer} {left : XeMemory.Pin} {e : E}
      (hown : Admits s owner) (hfree : ¬ s.obj.HasResources) (hleft : left.Escaped)
      (hroom : s.obj.nextHandle ≠ 0) :
      Turn s (.call owner selector r) a
        ((((s.heard (.pin owner r.bytes s.obj.pin .ok left) e).put { s.obj with pin := left }).heard
            (.issued s.obj.nextHandle) e).put
          { s.obj with pin := left, handle := s.obj.nextHandle,
                       nextHandle := s.obj.nextHandle + 1, bytes := r.bytes, state := .allocated })

theorem describe_same {P : World E → Prop} (st : Status) :
    Spec P (describe st) (fun a t => P t ∧ a = t.obj.describe st) :=
  spec_bind spec_look fun _ => spec_pure _ fun _ ht => ⟨ht.1, ht.2 ▸ rfl⟩

theorem describe_turn {owner selector : Nat} {r : Request} {st : Status}
    (hno : selector = 1 → st ≠ .ok) :
    Spec (fun t => t = s) (describe st)
      (fun a t => Turn s (.call owner selector r) (.reply a) t) := by
  refine spec_post (describe_same st) fun a t ht => ?_
  rcases ht with ⟨rfl, rfl⟩
  exact .same nofun fun hgrant => hno hgrant.1 hgrant.2

theorem allocate_turn (hio : Honest io) {owner : Nat} {r : Request} (hown : Admits s owner) :
    Spec (fun t => t = s) (allocate io r.bytes)
      (fun a t => Turn s (.call owner 1 r) (.reply a) t) := by
  refine spec_bind_look_at ?_
  refine spec_ite (fun _ => describe_turn fun _ => nofun) fun hbusy => ?_
  refine spec_ite (fun _ => describe_turn fun _ => nofun) fun _ => ?_
  refine spec_ite (fun _ => describe_turn fun _ => nofun) fun hroom => ?_
  simp only [not_or, not_not] at hbusy hroom
  rcases hbusy with ⟨hready, hfree⟩
  refine spec_bind (R := fun result t => ∃ left e,
    t = (s.heard (.pin owner r.bytes s.obj.pin result left) e).put { s.obj with pin := left })
    ?_ fun result => spec_each fun t ht => ?_
  · rintro t rfl
    rw [hown.owns.2]
    exact ⟨_, _, rfl⟩
  rcases ht with ⟨left, e, rfl⟩
  refine spec_bind_look (o := { s.obj with pin := left }) (fun u hu => hu ▸ rfl) ?_
  refine spec_ite (fun hresult => ?_) fun hresult => ?_
  · -- The backend refused, and may have kept something all the same.
    refine spec_ite (fun hleft => ?_) fun hleft => ?_
    · rintro u rfl
      refine .refused hown (fun hgrant => ?_) hfree (if_pos hleft).symm
      cases hgrant.2
    · rintro u rfl
      refine .refused hown (fun hgrant => ?_) hfree (hready.trans (if_neg hleft).symm)
      cases hgrant.2
  have hok : result = .ok := not_not.mp hresult
  subst hok
  refine spec_bind (R := fun sound u => u =
    (s.heard (.pin owner r.bytes s.obj.pin .ok left) e).put { s.obj with pin := left } ∧
      (sound = true → left.Covers r.bytes)) ?_ fun sound => ?_
  · refine spec_ite (fun hcovers => ?_) fun _ => spec_pure _ fun u hu => ⟨hu, nofun⟩
    rintro u rfl
    exact ⟨rfl, fun _ => hcovers⟩
  refine spec_ite (fun _ => ?_) fun hsound => ?_
  · refine spec_bind (spec_pre (fun u hu => hu.1) (releaseAllocation_released hio)) fun st => ?_
    refine spec_post (describe_same _) fun a u hu => ?_
    rcases hu with ⟨hreleased, rfl⟩
    refine .spoiled hown (fun hgrant => ?_) hfree hready hreleased
    have hstatus : (if st = .ok then Status.backendFailure else st) = .ok := hgrant.2
    split at hstatus
    · cases hstatus
    · exact absurd hstatus ‹_›
  · rintro u ⟨rfl, hcovers⟩
    have hleft : left.Escaped := .inl (hcovers (Bool.eq_true_of_not_eq_false hsound)).1
    exact .taken hown hfree hleft hroom.1

theorem call_turn (hio : Honest io) (owner selector : Nat) (r : Request) :
    Spec (fun t => t = s) (call io owner selector r)
      (fun a t => Turn s (.call owner selector r) (.reply a) t) := by
  refine spec_ite (fun _ => describe_turn fun _ => nofun) fun hform => ?_
  refine spec_bind_look_at ?_
  refine spec_ite (fun _ => describe_turn fun _ => nofun) fun howner => ?_
  simp only [not_or, not_not] at howner
  have hown : Admits s owner := ⟨howner.1, Bool.eq_false_of_not_eq_true howner.2⟩
  refine spec_ite (fun hquery => describe_turn fun hone => absurd (hquery.symm.trans hone) nofun)
    fun hquery => ?_
  refine spec_ite (fun hrelease => ?_) fun hrelease => ?_
  · subst hrelease
    refine spec_ite (fun _ => ?_) fun _ => describe_turn nofun
    refine spec_bind (releaseAllocation_released hio) fun st => ?_
    refine spec_post (describe_same st) fun a t ht => ?_
    exact .released hown (fun hgrant => absurd hgrant.1 nofun) ht.1
  · have hselector : selector = 1 := by
      have := (not_not.mp hform).2.2.2.1
      omega
    subst hselector
    exact allocate_turn hio hown

theorem initializeSession_turn (id : Identity) (bar : Bool) (backend : XeMemory.Callbacks)
    (evidence : Nat) :
    Spec (fun t => t = s) (initializeSession id bar backend evidence)
      (fun a t => Turn s (.initializeSession id bar backend evidence) (.done a) t) := by
  refine spec_bind_look_at ?_
  refine spec_unless ?_ fun hargs => ?_
  · rintro t rfl
    exact .same nofun fun hgrant => hgrant
  · rintro t rfl
    simp only [not_or, not_not] at hargs
    exact .initialized hargs.1

theorem openSession_turn (owner : Nat) :
    Spec (fun t => t = s) (openSession owner)
      (fun a t => Turn s (.openSession owner) (.done a) t) := by
  refine spec_bind_look_at ?_
  refine spec_unless ?_ fun hargs => ?_
  · rintro t rfl
    exact .same nofun fun hgrant => hgrant
  · rintro t rfl
    simp only [not_or, not_not] at hargs
    exact .opened (Bool.eq_false_of_not_eq_true hargs.2.2.1)

theorem close_turn (hio : Honest io) (owner : Nat) :
    Spec (fun t => t = s) (close io owner) (fun a t => Turn s (.close owner) (.status a) t) := by
  refine spec_bind_look_at ?_
  refine spec_unless ?_ fun howns => ?_
  · rintro t rfl
    exact .same nofun fun hgrant => hgrant
  · refine spec_bind (R := fun _ t => t = s.put { s.obj with owner := 0 }) ?_ fun _ => ?_
    · rintro t rfl
      rfl
    · exact spec_post (releaseAllocation_released hio) fun st t ht =>
        .closed (not_not.mp howns) ht

theorem stop_turn (hio : Honest io) :
    Spec (fun t => t = s) (stop io) (fun a t => Turn s .stop (.status a) t) := by
  refine spec_bind (R := fun _ t => t = s.put { s.obj with stopped := true, owner := 0 }) ?_
    fun _ => ?_
  · rintro t rfl
    rfl
  refine spec_bind (releaseAllocation_released hio) fun st t ht => ?_
  have hturn := Turn.halted (s := s) ht
  cases st <;> exact hturn

theorem step_turn (hio : Honest io) (c : Call) (s : World E) :
    Turn s c (step io c s).1 (step io c s).2 := by
  have hanswer : ∀ {α : Type} {x : Op E α} {f : α → Answer},
      Spec (fun t => t = s) x (fun a t => Turn s c (f a) t) →
      Spec (fun t => t = s) (x >>= fun a => pure (f a)) (Turn s c) :=
    fun hx => spec_bind hx fun a => spec_pure _ fun t ht => ht
  cases c with
  | initializeSession id bar backend evidence =>
    exact hanswer (initializeSession_turn id bar backend evidence) s rfl
  | openSession owner => exact hanswer (openSession_turn owner) s rfl
  | close owner => exact hanswer (close_turn hio owner) s rfl
  | stop => exact hanswer (stop_turn hio) s rfl
  | call owner selector r => exact hanswer (call_turn hio owner selector r) s rfl

end Turns

section Invariant

variable {io : Ops E} {s t : World E}

def Session.Resolves (s : Session) (handle : Nat) : Prop :=
  handle ≠ 0 ∧ s.handle = handle ∧ s.HasResources

/-- Since the handle was given out, only failed attempts to give back were made. -/
def Current (log : Log) (handle : Nat) : Prop :=
  ∃ o before, Grows Event.Keeps (⟨o, .issued handle⟩ :: before) log

structure Held (s : World E) : Prop where
  pin : s.obj.pin = record s.log
  lawful : Chron Lawful s.log
  handle : s.obj.handle ≠ 0 → s.obj.HasResources ∧ Current s.log s.obj.handle
  issued : ∀ h ∈ issuedIn s.log, h < s.obj.nextHandle
  stopped : s.obj.stopped = true → s.obj.owner = 0

/-- The invariant of the session between requests. -/
structure Kept (s : World E) : Prop extends Held s where
  state : s.obj.HasResources ↔ s.obj.state = .allocated ∨ s.obj.state = .faulted

theorem released_kept {st : Status} (h : Released s st t) (hs : Held s)
    (hstate : ¬ s.obj.HasResources → ¬ (s.obj.state = .allocated ∨ s.obj.state = .faulted)) :
    Kept t := by
  cases h with
  | nothing hfree => exact ⟨hs, fun hset => absurd hset hfree, fun h => absurd h (hstate hfree)⟩
  | missing hheld =>
    exact ⟨⟨hs.pin, hs.lawful, hs.handle, hs.issued, hs.stopped⟩, fun _ => .inr rfl, fun _ => hheld⟩
  | kept hheld hresult hleft =>
    refine ⟨⟨rfl, ⟨⟨hs.pin, hheld, hresult⟩, hs.lawful⟩, fun hne => ?_, hs.issued, hs.stopped⟩,
      fun _ => .inr rfl, fun _ => hleft⟩
    rcases (hs.handle hne).2 with ⟨o, before, hgrows⟩
    exact ⟨hleft, o, before, hgrows.trans (Grows.line hleft s.log)⟩
  | freed hheld hleft =>
    refine ⟨⟨rfl, ⟨⟨hs.pin, hheld, fun hne => absurd rfl hne⟩, hs.lawful⟩,
      fun hne => absurd rfl hne, hs.issued, hs.stopped⟩, fun hset => absurd hset hleft,
      fun hstate => ?_⟩
    change (if s.obj.stopped = true then State.stopped else .ready) = .allocated ∨
      (if s.obj.stopped = true then State.stopped else .ready) = .faulted at hstate
    split at hstate <;> rcases hstate with hstate | hstate <;> cases hstate

theorem released_ok {st : Status} (h : Released s st t) (hok : st = .ok) :
    ¬ t.obj.HasResources := by
  cases h with
  | nothing hfree => exact hfree
  | missing | kept => cases hok
  | freed _ hleft => exact hleft

theorem pinned_held (hs : Held s) {owner : Nat} (hown : Admits s owner)
    (hfree : ¬ s.obj.HasResources) {bytes : Nat} {result : XeMemory.Status} {left : XeMemory.Pin}
    {e : E} {st : State} :
    Held ((s.heard (.pin owner bytes s.obj.pin result left) e).put
      { s.obj with pin := left, state := st }) := by
  refine ⟨rfl, ⟨⟨hs.pin, hfree, hown.owns, hown.running⟩, hs.lawful⟩, fun hne => ?_,
    hs.issued, hs.stopped⟩
  -- Where nothing is held there is no handle either.
  exact absurd (hs.handle hne).1 hfree

theorem turn_kept {c : Call} {a : Answer} (h : Turn s c a t) (hs : Kept s) : Kept t := by
  have hfree : ¬ s.obj.HasResources → ¬ (s.obj.state = .allocated ∨ s.obj.state = .faulted) :=
    fun hfree hstate => hfree (hs.state.mpr hstate)
  cases h with
  | same => exact hs
  | initialized hcold =>
    have hfree : ¬ s.obj.HasResources := by
      intro hheld
      rcases hs.state.mp hheld with h | h <;> rw [hcold] at h <;> cases h
    exact ⟨⟨hs.pin, hs.lawful, hs.handle, hs.issued, hs.stopped⟩, fun h => absurd h hfree,
      by rintro (h | h) <;> cases h⟩
  | opened hrun =>
    exact ⟨⟨hs.pin, hs.lawful, hs.handle, hs.issued, fun h => absurd (hrun.symm.trans h) nofun⟩,
      hs.state⟩
  | closed howns h =>
    exact released_kept h ⟨hs.pin, hs.lawful, hs.handle, hs.issued, fun _ => rfl⟩ hfree
  | @halted st _ h =>
    have hu := released_kept h ⟨hs.pin, hs.lawful, hs.handle, hs.issued, fun _ => rfl⟩ hfree
    by_cases hok : st = .ok
    · rw [if_pos hok]
      have hnone := released_ok h hok
      exact ⟨⟨hu.pin, hu.lawful, hu.handle, hu.issued, hu.stopped⟩, fun hset => absurd hset hnone,
        by rintro (h | h) <;> cases h⟩
    · rw [if_neg hok]
      exact hu
  | released hown _ h => exact released_kept h hs.toHeld hfree
  | @refused _ _ _ _ _ left _ hown _ hnone _ hst =>
    subst hst
    refine ⟨pinned_held hs.toHeld hown hnone, fun hset => .inr (if_pos hset), ?_⟩
    intro hstate
    change (if left.Escaped then State.faulted else .ready) = .allocated ∨
      (if left.Escaped then State.faulted else .ready) = .faulted at hstate
    by_contra hleft
    rw [if_neg (show ¬ left.Escaped from hleft)] at hstate
    rcases hstate with h | h <;> cases h
  | spoiled hown _ hnone hready h =>
    exact released_kept h (pinned_held hs.toHeld hown hnone) fun _ => hfree hnone
  | taken hown hnone hleft hroom =>
    refine ⟨⟨rfl, ⟨⟨hleft, hs.issued⟩, (pinned_held hs.toHeld hown hnone).lawful⟩,
      fun _ => ⟨hleft, _, _, Grows.refl _⟩, ?_, hs.stopped⟩,
      fun _ => .inl rfl, fun _ => hleft⟩
    intro h hh
    rcases List.mem_cons.mp hh with rfl | hh
    · exact Nat.lt_succ_self _
    · exact Nat.lt_succ_of_lt (hs.issued h hh)

theorem run_kept (hio : Honest io) (calls : List Call) (hs : Kept s) : Kept (run io calls s).2 :=
  spec_runAll (step io) (fun c t ht => turn_kept (step_turn hio c t) ht) calls s hs

theorem start_kept (env : E) : Kept (start env) := by
  refine ⟨⟨rfl, trivial, fun h => absurd rfl h, nofun, nofun⟩, ?_, ?_⟩
  · rintro (h | h | h) <;> exact absurd rfl h
  · rintro (h | h) <;> cases h

end Invariant

section Guarantees

variable {io : Ops E} {s t : World E} {st : Status} {c : Call} {a : Answer}

/-- The caller may cause the line, by its own request, a closing or a stop. -/
def Caused (s : World E) (c : Call) (ev : Event) : Prop :=
  match ev with
  | .unpin _ _ _ =>
    (∃ owner selector r, c = .call owner selector r ∧ s.obj.Owns owner) ∨
      (∃ owner, c = .close owner ∧ s.obj.Owns owner) ∨ c = .stop
  | _ => ∃ owner selector r, c = .call owner selector r ∧ s.obj.Owns owner

theorem released_grows {q : Event → Prop} (h : Released s st t)
    (hq : ∀ given result left, q (.unpin given result left)) : Grows q s.log t.log := by
  cases h with
  | nothing | missing => exact Grows.refl _
  | kept | freed => exact Grows.line (hq _ _ _) _

theorem turn_caused (h : Turn s c a t) : Grows (Caused s c) s.log t.log := by
  cases h with
  | same | initialized | opened => exact Grows.refl _
  | closed howns h =>
    have hgrows := released_grows (q := Caused s _) h fun _ _ _ => .inr (.inl ⟨_, rfl, howns⟩)
    exact hgrows
  | @halted st _ h =>
    have hgrows := released_grows (q := Caused s .stop) h fun _ _ _ => .inr (.inr rfl)
    split <;> exact hgrows
  | released hown _ h =>
    exact released_grows h fun _ _ _ => .inl ⟨_, _, _, rfl, hown.owns⟩
  | refused hown => exact Grows.line ⟨_, _, _, rfl, hown.owns⟩ _
  | spoiled hown _ _ _ h =>
    refine Grows.trans (Grows.line ⟨_, _, _, rfl, hown.owns⟩ s.log)
      (released_grows h fun _ _ _ => ?_)
    exact .inl ⟨_, _, _, rfl, hown.owns⟩
  | taken hown =>
    exact Grows.trans (Grows.line ⟨_, _, _, rfl, hown.owns⟩ s.log)
      (Grows.line ⟨_, _, _, rfl, hown.owns⟩ _)

/-- A failed `unpin`: it reports an error, or leaves something behind. -/
def Event.Fails : Event → Prop
  | .unpin _ result left => result ≠ .ok ∨ left.Escaped
  | _ => False

/-- The session has given up on its memory, and has it. -/
def Session.Quarantined (s : Session) : Prop := s.state = .faulted ∧ s.HasResources

theorem released_failed (h : Released s st t) :
    Grows (fun ev => ¬ ev.Fails) s.log t.log ∨ t.obj.Quarantined := by
  cases h with
  | nothing => exact .inl (Grows.refl _)
  | missing hheld => exact .inr ⟨rfl, hheld⟩
  | kept _ _ hleft => exact .inr ⟨rfl, hleft⟩
  | freed _ hleft =>
    refine .inl (Grows.line ?_ _)
    rintro (hne | hset)
    · exact hne rfl
    · exact hleft hset

/-- A failed `unpin` leaves the session faulted, with the pin. -/
theorem turn_failed (h : Turn s c a t) :
    Grows (fun ev => ¬ ev.Fails) s.log t.log ∨ t.obj.Quarantined := by
  cases h with
  | same | initialized | opened => exact .inl (Grows.refl _)
  | closed _ h => exact (released_failed h :)
  | @halted st _ h =>
    have hfailed := released_failed h
    by_cases hok : st = .ok
    · rw [if_pos hok]
      have hnone := released_ok h hok
      exact hfailed.imp_right fun hheld => absurd hheld.2 hnone
    · rw [if_neg hok]
      exact hfailed
  | released hown _ h => exact released_failed h
  | refused => exact .inl (Grows.line id _)
  | spoiled _ _ _ _ h =>
    exact (released_failed h).imp_left fun hrest => Grows.trans (Grows.line id s.log) hrest
  | taken =>
    exact .inl (Grows.trans (Grows.line id s.log) (Grows.line id _))

/-- While no `unpin` succeeds. -/
def Pending (s t : World E) : Prop := t.obj.Quarantined ∧ Grows Event.Keeps s.log t.log

theorem released_pending (h : Released s st t) (hheld : s.obj.HasResources)
    (hno : Grows (fun ev => ¬ ev.Frees) s.log t.log) : st ≠ .ok ∧ Pending s t := by
  cases h with
  | nothing hfree => exact absurd hheld hfree
  | missing _ => exact ⟨nofun, ⟨rfl, hheld⟩, Grows.refl _⟩
  | kept _ _ hleft => exact ⟨nofun, ⟨rfl, hleft⟩, Grows.line hleft _⟩
  | @freed left _ _ hleft =>
    rcases hno with ⟨lines, heq, hlines⟩
    have hone : [⟨s.obj, .unpin s.obj.pin .ok left⟩] = lines := List.append_cancel_right heq
    have hfrees : Event.Frees (.unpin s.obj.pin .ok left) := ⟨rfl, hleft⟩
    exact absurd hfrees (hlines _ (hone ▸ List.mem_singleton_self _))

/-- Nothing is allocated until an `unpin` succeeds. -/
theorem turn_pending (h : Turn s c a t) (hs : s.obj.Quarantined)
    (hno : Grows (fun ev => ¬ ev.Frees) s.log t.log) : Pending s t := by
  cases h with
  | same | opened => exact ⟨hs, Grows.refl _⟩
  | initialized hcold => exact absurd (hs.1.symm.trans hcold) nofun
  | closed howns h => exact (released_pending h hs.2 hno).2
  | @halted st _ h =>
    by_cases hok : st = .ok
    · rw [if_pos hok] at hno
      exact absurd hok (released_pending h hs.2 hno).1
    · rw [if_neg hok] at hno ⊢
      exact (released_pending h hs.2 hno).2
  | released hown _ h => exact (released_pending h hs.2 hno).2
  | refused _ _ hfree | spoiled _ _ hfree | taken _ hfree => exact absurd hs.2 hfree

theorem run_grows (hio : Honest io) (calls : List Call) (s : World E) :
    Grows (fun _ => True) s.log (run io calls s).2.log := by
  refine spec_runAll (P := fun t => Grows (fun _ => True) s.log t.log) (step io)
    (fun c t ht => ?_) calls s (Grows.refl _)
  rcases turn_caused (step_turn hio c t) with ⟨lines, hlog, _⟩
  exact ht.trans ⟨lines, hlog, fun _ _ => trivial⟩

theorem run_pending (hio : Honest io) (calls : List Call) :
    ∀ s : World E, s.obj.Quarantined →
      Grows (fun ev => ¬ ev.Frees) s.log (run io calls s).2.log → Pending s (run io calls s).2 := by
  induction calls with
  | nil => exact fun s hs _ => ⟨hs, Grows.refl _⟩
  | cons c calls ih =>
    intro s hs hno
    have hturn := step_turn hio c s
    rcases turn_caused hturn with ⟨lines, hlog, _⟩
    rcases run_grows hio calls (step io c s).2 with ⟨lines', hlog', _⟩
    rcases hno.split hlog hlog' with ⟨hfirst, hrest⟩
    have hstep := turn_pending hturn hs hfirst
    have htail := ih _ hstep.1 hrest
    exact ⟨htail.1, hstep.2.trans htail.2⟩

structure Over (s : World E) : Prop where
  stopped : s.obj.stopped = true
  unowned : s.obj.owner = 0
  empty : ¬ s.obj.HasResources

theorem Over.unowned_by (h : Over s) (owner : Nat) : ¬ s.obj.Owns owner :=
  fun howns => howns.1 (howns.2.symm.trans h.unowned)

/-- Nobody can use the backend any more. -/
theorem turn_over (h : Turn s c a t) (hs : Over s) : Over t ∧ t.log = s.log := by
  cases h with
  | same => exact ⟨hs, rfl⟩
  | initialized => exact ⟨⟨hs.stopped, hs.unowned, hs.empty⟩, rfl⟩
  | opened hrun => exact absurd (hrun.symm.trans hs.stopped) nofun
  | closed howns => exact absurd howns (hs.unowned_by _)
  | @halted st _ h =>
    cases h with
    | nothing _ => exact ⟨⟨rfl, rfl, hs.empty⟩, rfl⟩
    | missing hheld | kept hheld | freed hheld => exact absurd hheld hs.empty
  | released hown | refused hown | spoiled hown | taken hown =>
    exact absurd hown.owns (hs.unowned_by _)

theorem stop_over (h : Turn s .stop (.status st) t) (hok : st = .ok) : Over t := by
  cases h with
  | same hc _ => exact absurd rfl hc
  | halted h =>
    rw [if_pos hok]
    have hnone := released_ok h hok
    cases h with
    | nothing | freed => exact ⟨rfl, rfl, hnone⟩
    | missing | kept => cases hok

theorem run_over (hio : Honest io) (calls : List Call) (hs : Over s) :
    Over (run io calls s).2 ∧ (run io calls s).2.log = s.log := by
  refine spec_runAll (P := fun t => Over t ∧ t.log = s.log) (step io) (fun c t ht => ?_)
    calls s ⟨hs, rfl⟩
  have hturn := turn_over (step_turn hio c t) ht.1
  exact ⟨hturn.1, hturn.2.trans ht.2⟩

theorem issuedIn_nodup {log : Log} (h : Chron Lawful log) :
    (issuedIn log).Nodup := by
  induction log with
  | nil => exact List.nodup_nil
  | cons l log ih =>
    have hrest := ih h.2
    rcases l with ⟨o, ev⟩
    cases ev with
    | pin | unpin => exact hrest
    | issued handle =>
      refine List.nodup_cons.mpr ⟨fun hmem => ?_, hrest⟩
      exact Nat.lt_irrefl _ (h.1.2 handle hmem)

/-- A reply describes the session as it is then. -/
theorem call_describes (io : Ops E) (owner selector : Nat) (r : Request) :
    Spec (fun _ => True) (call io owner selector r) (fun a t => ∃ st, a = t.obj.describe st) := by
  have hdescribe : ∀ st, Spec (fun _ : World E => True) (describe st)
      (fun a t => ∃ st, a = t.obj.describe st) :=
    fun st => spec_post (describe_same st) fun a t ht => ⟨st, ht.2⟩
  have hany : ∀ {α : Type} (x : Op E α), Spec (fun _ => True) x (fun _ _ => True) :=
    fun _ _ _ => trivial
  refine spec_ite (fun _ => hdescribe _) fun _ => spec_bind (hany _) fun s => ?_
  refine spec_ite (fun _ => hdescribe _) fun _ => spec_ite (fun _ => hdescribe _) fun _ => ?_
  refine spec_ite (fun _ => ?_) fun _ => ?_
  · exact spec_ite (fun _ => spec_bind (hany _) fun _ => hdescribe _) fun _ => hdescribe _
  refine spec_bind (hany _) fun s => spec_ite (fun _ => hdescribe _) fun _ => ?_
  refine spec_ite (fun _ => hdescribe _) fun _ => spec_ite (fun _ => hdescribe _) fun _ => ?_
  refine spec_bind (hany _) fun result => spec_bind (hany _) fun s =>
    spec_ite (fun _ => ?_) fun _ => ?_
  · exact spec_ite (fun _ => spec_bind (hany _) fun _ => hdescribe _) fun _ => hdescribe _
  refine spec_bind (hany _) fun sound => spec_ite (fun _ => ?_) fun _ => ?_
  · exact spec_bind (hany _) fun _ => hdescribe _
  · exact spec_bind (hany _) fun _ => spec_bind (hany _) fun _ => hdescribe _

/-- A new allocation has a handle of its own. -/
theorem turn_granted (h : Turn s c a t) (hgrant : Grants c a) :
    issuedIn t.log = t.obj.handle :: issuedIn s.log ∧ t.obj.Resolves t.obj.handle := by
  cases h with
  | same _ hno | released _ hno | refused _ hno | spoiled _ hno => exact absurd hgrant hno
  | initialized | opened | closed | halted => exact hgrant.elim
  | taken _ _ hleft hroom => exact ⟨rfl, hroom, rfl, hleft⟩

/-- What a session guarantees. -/
structure Owned (io : Ops E) (s : World E) : Prop where
  /-- The record is the one the backend left. -/
  record : s.obj.pin = record s.log
  /-- `pin` was only ever handed an empty record, and for the owner. -/
  handed : Chron Lawful s.log
  /-- At any time, what was pinned and not given back is one thing at most. -/
  single : ∀ lines before, s.log = lines ++ before →
    acquired before = freed before + if (MellowDiagnostic.record before).Escaped then 1 else 0
  emptied : ∀ lines l before, s.log = lines ++ l :: before →
    (MellowDiagnostic.record before).Escaped → ¬ (MellowDiagnostic.record (l :: before)).Escaped →
    l.event.Frees
  caused : ∀ c, Grows (Caused s c) s.log (step io c s).2.log
  unique : (issuedIn s.log).Nodup
  granted : ∀ owner selector r,
    Grants (.call owner selector r) (.reply (call io owner selector r s).1) →
      issuedIn (call io owner selector r s).2.log =
          (call io owner selector r s).1.allocationHandle :: issuedIn s.log ∧
        (call io owner selector r s).2.obj.Resolves (call io owner selector r s).1.allocationHandle
  resolves : ∀ handle, s.obj.Resolves handle → Current s.log handle
  failed : ∀ c, Grows (fun ev => ¬ ev.Fails) s.log (step io c s).2.log ∨
    (step io c s).2.obj.Quarantined
  /-- Until an `unpin` succeeds, all that happens is that others fail. -/
  pending : s.obj.state = .faulted → ∀ calls,
    Grows (fun ev => ¬ ev.Frees) s.log (run io calls s).2.log → Pending s (run io calls s).2
  ended : (stop io s).1 = .ok → ∀ calls,
    ¬ (run io calls (stop io s).2).2.obj.HasResources ∧
      (run io calls (stop io s).2).2.log = (stop io s).2.log

/-- Whoever asks for what, and whatever the backend answers: the guarantees
    hold. -/
theorem run_owned (io : Ops E) (hio : Honest io) (calls : List Call) (env : E) :
    Owned io (run io calls (start env)).2 := by
  have hkept := run_kept hio calls (start_kept env)
  generalize (run io calls (start env)).2 = s at hkept
  have hturn := fun c => step_turn hio c s
  constructor
  case record => exact hkept.pin
  case handed => exact hkept.lawful
  case single =>
    intro lines before hlog
    exact held_eq (chron_suffix (hlog ▸ hkept.lawful))
  case emptied =>
    intro lines l before hlog
    have hsuffix : Chron Lawful (l :: before) := chron_suffix (hlog ▸ hkept.lawful)
    exact emptied_frees hsuffix.1
  case caused => exact fun c => turn_caused (hturn c)
  case unique => exact issuedIn_nodup hkept.lawful
  case granted =>
    intro owner selector r hgrant
    rcases call_describes io owner selector r s trivial with ⟨st, hreply⟩
    have hnew := turn_granted (hturn (.call owner selector r)) hgrant
    rw [hreply]
    exact hnew
  case resolves =>
    rintro handle ⟨hne, rfl, _⟩
    exact (hkept.handle hne).2
  case failed => exact fun c => turn_failed (hturn c)
  case pending =>
    intro hfaulted calls hno
    exact run_pending hio calls s ⟨hfaulted, hkept.state.mpr (.inr hfaulted)⟩ hno
  case ended =>
    intro hok calls
    have hover := run_over hio calls (stop_over (hturn .stop) hok)
    exact ⟨hover.1.empty, hover.2⟩

/-- A backend that gives memory back at the second attempt. -/
def reluctant : Ops Nat where
  pin _ bytes _ e := ((.ok, ⟨1, 1, bytes / 4096⟩), e)
  unpin p e := (if e = 0 then (.busy, p) else (.ok, XeMemory.Pin.empty), e + 1)
  dma _ _ k := k * 4096

def lease : List Call :=
  [.initializeSession ⟨0x8086, 0x7d41, 12, 70⟩ true ⟨true, true, false, false, false, 0⟩ 0,
   .openSession 7, .call 7 1 ⟨1, 32, 0, 4096, 0⟩, .close 7, .stop]

theorem run_owned_lease :
    Honest reluctant ∧ Owned reluctant (run reluctant lease (start 0)).2 ∧
      issuedIn (run reluctant lease (start 0)).2.log = [1] ∧
      (run reluctant lease (start 0)).2.obj.state = .stopped := by
  have hio : Honest reluctant := by
    intro p e hne
    by_cases he : e = 0
    · subst he
      rfl
    · exact absurd (congrArg Prod.fst (if_neg he)) hne
  exact ⟨hio, run_owned reluctant hio lease 0, by decide, by decide⟩

end Guarantees

end Mellow.MellowDiagnostic
