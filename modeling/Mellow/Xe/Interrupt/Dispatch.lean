import Mellow.Xe.FenceHistory
import Mellow.Xe.GuC.Stream
import Mellow.Xe.Interrupt.Delivery

/-!
# Draining the GuC

The `Dispatcher` of `Mellow/XeInterruptDispatch.hpp` is the identity handler of
the interrupt controller. An identity of the GuC makes it pass on messages, 64
at most, and one of an engine makes it observe a fence. The controller, the
dispatcher, the fence and the transport are stacked as environments, and the log
of the dispatcher also has the controller's writes. Nobody else receives.

A message that left the ring is passed on, with one exception: where memory
cannot be ordered after `receive` has moved the head, the message is gone. The
transport is broken then.

## Main definitions

* `Dispatcher`: the fields of the class.
* `handle`: what it does with an identity.
* `Drains`: what holds after any calls.

## Theorems

* `run_drains`: every reachable state drains.
-/

namespace Mellow.Interrupt

open Lib

structure Dispatcher where
  epoch : Nat
  engineClass : Nat
  inst : Nat
  /-- Every callback is there. -/
  complete : Bool

inductive Note where
  | write (reg : Reg) (value : Word) (done : Bool)
  | called (epoch : Nat) (id : Identity)
  /-- The answer, and the transport's rings as the call left them. -/
  | received (status : XeGuC.Status) (m : XeGuC.Message) (l : XeGuC.Link)
  | message (epoch : Nat) (m : XeGuC.Message) (ok : Bool)
  | observed (status : XeFence.Status) (o : XeFence.Observation)
  | fence (o : XeFence.Observation) (ok : Bool)

structure DispatchOps (E : Type) where
  nowMicros : E → Nat × E
  message : Nat → XeGuC.Message → E → Bool × E
  fence : XeFence.Observation → E → Bool × E

/-- The controller's callbacks other than `identity`. -/
structure RouterOps (E : Type) where
  admitted : Nat → E → Bool × E
  read32 : Reg → E → Option Word × E
  write32 : Reg → Word → E → Bool × E
  nowMicros : E → Nat × E
  otherMaster : Nat → Word → E → Handling × E

structure Platform (E : Type) where
  guc : XeGuC.Ops E
  fence : XeFence.Ops E
  dispatch : DispatchOps E
  router : RouterOps E

abbrev Channel (E : Type) := Sys XeGuC.Link E XeGuC.Event
abbrev Station (E : Type) := Sys XeFence.Timeline (Channel E) XeFence.Event
abbrev Desk (E : Type) := Sys Dispatcher (Station E) Note

namespace Dispatcher

abbrev Op (E α : Type) := Prog Dispatcher (Station E) Note α

def gucToHost : Word := 0x8000#32

def Guc (id : Identity) : Prop := id.engineClass = 4 ∧ id.inst = 0
  deriving Decidable

/-- The vector names a source, and none but these. -/
def Within (id : Identity) (mask : Word) : Prop :=
  id.vector ≠ 0 ∧ BitVec.ofNat 32 id.vector &&& ~~~mask = 0
  deriving Decidable

variable {E : Type}

section Handler

variable (io : Platform E)

def askNow : Op E Nat := draw (draw (draw io.dispatch.nowMicros))

def askReceive (epoch now : Nat) : Op E (XeGuC.Status × XeGuC.Message) := do
  let r ← ask (draw fun c : Channel E =>
      (((XeGuC.receive io.guc epoch now c).1, (XeGuC.receive io.guc epoch now c).2.obj),
        (XeGuC.receive io.guc epoch now c).2))
    fun r => .received r.1.1 r.1.2 r.2
  return r.1

def askMessage (epoch : Nat) (m : XeGuC.Message) : Op E Bool :=
  ask (draw (draw (io.dispatch.message epoch m))) (.message epoch m)

def askObserve (epoch : Nat) : Op E (XeFence.Status × XeFence.Observation) :=
  ask (XeFence.observe io.fence.under epoch) fun r => .observed r.1 r.2

def askFence (o : XeFence.Observation) : Op E Bool :=
  ask (draw (draw (io.dispatch.fence o))) (.fence o)

def drain (epoch : Nat) : Nat → Op E Handling
  | 0 => return .more
  | count + 1 => do
    let now ← askNow io
    let r ← askReceive io epoch now
    if r.1 = .empty then return .drained
    if r.1 ≠ .ok then return .failed
    let ok ← askMessage io epoch r.2
    if ok = false then return .failed
    drain epoch count

def handle (epoch : Nat) (id : Identity) : Op E Handling := do
  note (.called epoch id)
  let d ← look
  if epoch ≠ d.epoch ∨ d.complete = false then return .failed
  if Guc id then
    if ¬Within id gucToHost then return .failed
    drain io epoch 64
  else
    if id.engineClass ≠ d.engineClass ∨ id.inst ≠ d.inst ∨ ¬Within id irqs then return .failed
    let r ← askObserve io epoch
    if r.1 ≠ .ok ∨ r.2.engineClass ≠ d.engineClass ∨ r.2.inst ≠ d.inst then return .failed
    let ok ← askFence io r.2
    return if ok = true then .drained else .failed

def backend : Backend (Desk E) where
  admitted epoch := draw (draw (draw (io.router.admitted epoch)))
  read32 reg := draw (draw (draw (io.router.read32 reg)))
  write32 reg v := ask (draw (draw (io.router.write32 reg v))) (.write reg v)
  nowMicros := draw (draw (draw io.router.nowMicros))
  identity epoch id := handle io epoch id
  otherMaster epoch bits := draw (draw (draw (io.router.otherMaster epoch bits)))

end Handler

inductive Call where
  | controller (c : Interrupt.Call)
  | transport (c : XeGuC.Call)
  | fence (c : XeFence.Call)

abbrev System (E : Type) := Sys Controller (Desk E) Event

def step (io : Platform E) : Call → Prog Controller (Desk E) Event Unit
  | .controller c => do
    let _ ← Interrupt.step (backend io) c
  | .transport c => do
    let _ ← draw (draw (draw (XeGuC.step io.guc c)))
  | .fence c => do
    let _ ← draw (draw (XeFence.step io.fence.under c))

def start (d : Dispatcher) (h g : XeGuC.Port) (env : E) : System E :=
  ⟨{}, ⟨d, ⟨{}, XeGuC.start h g env, []⟩, []⟩, []⟩

def run (io : Platform E) (calls : List Call) (s : System E) : System E :=
  (runAll (step io) calls s).2

section Notes

def passedOf (x : Entry Dispatcher Note) : Option XeGuC.Message :=
  match x.event with
  | .message _ m _ => some m
  | _ => none

def passed (log : List (Entry Dispatcher Note)) : List XeGuC.Message :=
  (log.filterMap passedOf).reverse

def caller : Note → Option Identity
  | .called _ id => some id
  | _ => none

/-- Whether there may be something to read. -/
def mark : Note → Option Bool
  | .called _ id => if Guc id then some true else none
  | .received status _ l => if status = .empty ∧ l.Vacant then some false else none
  | _ => none

def Duty (l : Entry Dispatcher Note) (before : List (Entry Dispatcher Note)) : Prop :=
  match l.event with
  | .message _ _ _ => ∃ id, latest caller before = some id ∧ Guc id
  | .fence _ _ => ∃ id, latest caller before = some id ∧ ¬Guc id
  | .write .tileMaster v _ => v &&& masterEnable ≠ 0 → latest mark before ≠ some true
  | _ => True

theorem passed_none {x : Entry Dispatcher Note} (h : passedOf x = none)
    (log : List (Entry Dispatcher Note)) : passed (x :: log) = passed log := by
  rw [passed, List.filterMap_cons_none h, passed]

theorem passed_some {x : Entry Dispatcher Note} {m : XeGuC.Message} (h : passedOf x = some m)
    (log : List (Entry Dispatcher Note)) : passed (x :: log) = passed log ++ [m] := by
  rw [passed, List.filterMap_cons_some h, List.reverse_cons, passed]

end Notes

section Tallies

variable {n : Nat} {base c c' : Channel E} {log : List (Entry Dispatcher Note)} {t w : Desk E}

/-- What was consumed was passed on, but for one message at most. -/
def Accounted (log : List (Entry Dispatcher Note)) (c : Channel E) : Prop :=
  XeGuC.consumed c.log = passed log ∨ ∃ m, XeGuC.consumed c.log = passed log ++ [m] ∧
    c.obj.host.broken = true ∧ XeGuC.Unordered c.log

/-- What holds between any two lines. -/
structure Tally (n : Nat) (base : Channel E) (w : Desk E) : Prop where
  inbound : XeGuC.Inbound n w.env.env
  stream : XeGuC.stream base <+: XeGuC.stream w.env.env
  accounted : Accounted w.log w.env.env

theorem Accounted.moves {io : XeGuC.Ops E} (h : Accounted log c)
    (hpath : Relation.ReflTransGen (XeGuC.Move io) c c')
    (hsame : XeGuC.consumed c'.log = XeGuC.consumed c.log) : Accounted log c' := by
  rcases h with h | ⟨m, h, hbroken, hun⟩
  · exact .inl (hsame.trans h)
  · have hstuck := XeGuC.moves_stuck hpath hbroken
    rcases hstuck.log with ⟨new, hlog, _⟩
    exact .inr ⟨m, hsame.trans h, hstuck.broken, hlog ▸ hun.append new⟩

theorem Tally.same (h : Tally n base t) (hobj : w.env.env.obj = t.env.env.obj)
    (hlog : w.env.env.log = t.env.env.log) (hpassed : passed w.log = passed t.log) :
    Tally n base w := by
  have hinbound := h.inbound
  have hstream := h.stream
  have haccounted := h.accounted
  unfold XeGuC.Inbound XeGuC.Waiting at hinbound
  unfold Accounted at haccounted
  unfold XeGuC.stream at hstream
  rw [← hobj, ← hlog] at hinbound haccounted hstream
  rw [← hpassed] at haccounted
  exact ⟨hinbound, hstream, haccounted⟩

end Tallies

section Handling

variable {n : Nat} {base : Channel E} {io : Platform E} {t : Desk E}

theorem askReceive_eq (epoch now : Nat) (t : Desk E) : askReceive io epoch now t =
    ((XeGuC.receive io.guc epoch now t.env.env).1,
      t.heard (.received (XeGuC.receive io.guc epoch now t.env.env).1.1
          (XeGuC.receive io.guc epoch now t.env.env).1.2
          (XeGuC.receive io.guc epoch now t.env.env).2.obj)
        { t.env with env := (XeGuC.receive io.guc epoch now t.env.env).2 }) :=
  rfl

/-- Everything is accounted for but the last message. -/
structure Owing (n : Nat) (base : Channel E) (m : XeGuC.Message) (w : Desk E) : Prop where
  inbound : XeGuC.Inbound n w.env.env
  stream : XeGuC.stream base <+: XeGuC.stream w.env.env
  owed : XeGuC.consumed w.env.env.log = passed w.log ++ [m]

variable (hio : XeGuC.Producer n io.guc)

include hio

/-- One message at most leaves the ring, and the answer may not say so. -/
theorem askReceive_spec (ht : Tally n base t) (epoch now : Nat) :
    Spec (fun w => w = t) (askReceive io epoch now) (fun r w => ∃ l,
      w.log = ⟨t.obj, .received r.1 r.2 l⟩ :: t.log ∧
      ((r.1 = .ok ∧ Owing n base r.2 w) ∨
        (r.1 ≠ .ok ∧ Tally n base w ∧ (r.1 = .empty → l.Vacant)))) := by
  rintro w rfl
  rcases XeGuC.receive_takes hio ht.inbound epoch now with ⟨hin, hstream, htakes⟩
  have hpath : Relation.ReflTransGen (XeGuC.Move io.guc) w.env.env
      (XeGuC.receive io.guc epoch now w.env.env).2 :=
    XeGuC.step_moves (.receive epoch now) w.env.env
  have hstream := ht.stream.trans hstream
  rw [askReceive_eq]
  generalize XeGuC.receive io.guc epoch now w.env.env = rc at hin hstream htakes hpath
  rcases rc with ⟨⟨st, m⟩, c⟩
  have hpassed : passed (⟨w.obj, .received st m c.obj⟩ :: w.log) = passed w.log := passed_none rfl _
  refine ⟨c.obj, rfl, ?_⟩
  rcases htakes with ⟨hne, hsame, hempty⟩ | ⟨hgrow, hend⟩
  · refine .inr ⟨hne, ⟨hin, hstream, ?_⟩, hempty⟩
    have hmoved := ht.accounted.moves hpath hsame
    unfold Accounted at hmoved ⊢
    rw [← hpassed] at hmoved
    exact hmoved
  · -- A broken transport takes nothing, so everything was accounted for.
    have hall : XeGuC.consumed w.env.env.log = passed w.log := by
      rcases ht.accounted with h | ⟨_, _, hbroken, _⟩
      · exact h
      · have hlen := congrArg List.length (XeGuC.consumed_stuck (XeGuC.moves_stuck hpath hbroken))
        rw [hgrow, List.length_append, List.length_singleton] at hlen
        omega
    have howed : XeGuC.consumed c.log = passed (⟨w.obj, .received st m c.obj⟩ :: w.log) ++ [m] := by
      rw [hgrow, hall, hpassed]
    rcases hend with hok | ⟨hfail, hbroken, hun⟩
    · exact .inl ⟨hok, hin, hstream, howed⟩
    · exact .inr ⟨hfail ▸ nofun, ⟨hin, hstream, .inr ⟨m, howed, hbroken, hun⟩⟩, hfail ▸ nofun⟩

/-- Between two messages of a call for the GuC. -/
structure Draining (n : Nat) (base : Channel E) (id : Identity) (p : Prop) (w : Desk E) : Prop where
  tally : Tally n base w
  caller : latest caller w.log = some id
  duty : p → Chron Duty w.log

/-- The loop ends with the ring seen empty, or it is not done. -/
theorem drain_spec {id : Identity} (hid : Guc id) (p : Prop) (epoch : Nat) : ∀ count,
    Spec (Draining n base id p) (drain io epoch count) (fun a w =>
      Tally n base w ∧ (p → Chron Duty w.log) ∧
      (a = .drained → latest mark w.log = some false)) := by
  intro count
  induction count with
  | zero => exact spec_pure _ fun w hw => ⟨hw.tally, hw.duty, nofun⟩
  | succ count ih =>
    refine spec_bind (R := fun _ => Draining n base id p) ?_ fun now => spec_each fun t ht => ?_
    · intro w hw
      exact ⟨hw.tally.same rfl rfl rfl, hw.caller, hw.duty⟩
    refine spec_bind (askReceive_spec hio ht.tally epoch now) fun r => spec_each fun w hw => ?_
    rcases hw with ⟨l, hlog, hw⟩
    have hcaller : latest Dispatcher.caller w.log = some id := by
      rw [hlog]
      exact (latest_cons_none rfl _).trans ht.caller
    have hduty : p → Chron Duty w.log := fun hp => by
      rw [hlog]
      exact ⟨trivial, ht.duty hp⟩
    refine spec_ite (fun hempty => spec_pure _ ?_) fun _ => ?_
    · rintro _ rfl
      rcases hw with ⟨hok, _⟩ | ⟨_, htally, hvacant⟩
      · exact absurd (hempty.symm.trans hok) nofun
      · refine ⟨htally, hduty, fun _ => ?_⟩
        rw [hlog]
        exact latest_cons_some (f := mark) (l := ⟨t.obj, .received r.1 r.2 l⟩)
          (if_pos ⟨hempty, hvacant hempty⟩) t.log
    refine spec_ite (fun hne => spec_pure _ ?_) fun hok => ?_
    · rintro _ rfl
      rcases hw with ⟨hok, _⟩ | ⟨_, htally, _⟩
      · exact absurd hok hne
      · exact ⟨htally, hduty, nofun⟩
    have howing : Owing n base r.2 w := by
      rcases hw with ⟨_, howing⟩ | ⟨hne, _⟩
      · exact howing
      · exact absurd hne hok
    refine spec_bind (R := fun _ => Draining n base id p) ?_ fun ok => ?_
    · refine spec_asked _ _ ?_
      rintro _ rfl
      refine ⟨⟨howing.inbound, howing.stream, .inl ?_⟩, ?_, fun hp => ?_⟩
      · exact howing.owed.trans (passed_some rfl _).symm
      · exact (latest_cons_none rfl _).trans hcaller
      · exact ⟨⟨id, hcaller, hid⟩, hduty hp⟩
    exact spec_unless (fun w hw => ⟨hw.tally, hw.duty, nofun⟩) fun _ => ih

/-- What one identity does: messages for the GuC, a fence for an engine. -/
theorem handle_spec (ht : Tally n base t) (epoch : Nat) (id : Identity) :
    Spec (fun w => w = t) (handle io epoch id) (fun a w => Tally n base w ∧
      (Chron Duty t.log → Chron Duty w.log) ∧
      (Guc id → a = .drained → latest mark w.log = some false) ∧
      (¬Guc id → latest mark w.log = latest mark t.log)) := by
  refine spec_bind (spec_note (.called epoch id)
    (T := fun _ w => w = t.heard (.called epoch id) t.env) ?_) fun _ => ?_
  · rintro w rfl
    rfl
  have hcalled : Tally n base (t.heard (.called epoch id) t.env) :=
    ht.same rfl rfl (passed_none rfl _)
  have hduty : Chron Duty t.log → Chron Duty (t.heard (.called epoch id) t.env).log := fun h =>
    ⟨trivial, h⟩
  have hcaller : latest caller (t.heard (.called epoch id) t.env).log = some id :=
    latest_cons_some (f := caller) (l := ⟨t.obj, .called epoch id⟩) rfl t.log
  have hmark : ¬Guc id → latest mark (t.heard (.called epoch id) t.env).log = latest mark t.log :=
    fun hid => latest_cons_none (if_neg hid) _
  generalize t.heard (.called epoch id) t.env = u at hcalled hduty hcaller hmark
  refine spec_bind_look_at ?_
  have hfailed : Spec (fun w => w = u) (pure Handling.failed : Op E Handling) (fun a w =>
      Tally n base w ∧ (Chron Duty t.log → Chron Duty w.log) ∧
      (Guc id → a = .drained → latest mark w.log = some false) ∧
      (¬Guc id → latest mark w.log = latest mark t.log)) := by
    refine spec_pure _ ?_
    rintro w rfl
    exact ⟨hcalled, hduty, nofun, hmark⟩
  refine spec_ite (fun _ => hfailed) fun _ => spec_ite (fun hid => ?_) fun hid => ?_
  · refine spec_ite (fun _ => hfailed) (fun _ => ?_)
    have hdrain : Spec (Draining n base id (Chron Duty t.log)) (drain io epoch 64) _ :=
      drain_spec hio hid _ epoch 64
    rintro w rfl
    rcases hdrain w ⟨hcalled, hcaller, hduty⟩ with ⟨htally, hchron, hempty⟩
    exact ⟨htally, hchron, fun _ => hempty, fun hno => absurd hid hno⟩
  · refine spec_ite (fun _ => hfailed) fun _ => ?_
    refine spec_bind (R := fun r w => ∃ e : Station E, w = u.heard (.observed r.1 r.2) e ∧
      e.env.obj = u.env.env.obj ∧ e.env.log = u.env.env.log) ?_ fun r => spec_each fun w hw => ?_
    · refine spec_asked _ _ ?_
      rintro w rfl
      exact ⟨_, rfl, XeFence.answer_below io.fence (.observe epoch) w.env⟩
    rcases hw with ⟨e, rfl, hobj, hlog⟩
    have hseen : Tally n base (u.heard (.observed r.1 r.2) e) :=
      hcalled.same hobj hlog (passed_none rfl _)
    have hmark' := fun h => (latest_cons_none (f := mark) (l := ⟨u.obj, .observed r.1 r.2⟩) rfl
      u.log).trans (hmark h)
    refine spec_guard (?_) ?_
    · rintro w rfl
      exact ⟨hseen, fun h => ⟨trivial, hduty h⟩, fun h => absurd h hid, hmark'⟩
    refine spec_bind (R := fun ok w => ∃ e', w = (u.heard (.observed r.1 r.2) e).heard
      (.fence r.2 ok)
      e' ∧ e'.env.obj = e.env.obj ∧ e'.env.log = e.env.log) ?_ fun ok => spec_pure _ ?_
    · refine spec_asked _ _ ?_
      rintro w rfl
      exact ⟨_, rfl, rfl, rfl⟩
    · rintro w ⟨e', rfl, hobj', hlog'⟩
      refine ⟨hseen.same hobj' hlog' (passed_none rfl _),
        fun h => ⟨⟨id, ?_, hid⟩, trivial, hduty h⟩,
        fun h => absurd h hid, fun h => (latest_cons_none rfl _).trans (hmark' h)⟩
      exact (latest_cons_none rfl _).trans hcaller

end Handling

section Rearming

variable {n : Nat} {base : Channel E} {io : Platform E} {s : System E}

/-- The identity that was handed out last, with the answer. -/
def handed : Event → Option (Identity × Handling)
  | .identity _ id a => some (id, a)
  | _ => none

theorem add_grows {ev : Event} (hev : handed ev = none) (k : Book) :
    (k.add ev).drained = k.drained ∧ ∃ more, (k.add ev).captured = k.captured ++ more := by
  have hsame : k.captured = k.captured ++ [] := (List.append_nil _).symm
  unfold Book.add
  split
  case h_3 => exact ⟨rfl, _, rfl⟩
  case h_4 => cases hev
  all_goals exact ⟨rfl, [], hsame⟩

/-- What was handed out last and is not drained is the first that is not. -/
theorem handed_owed {log : Log} (h : Chron Rule log) {id : Identity}
    {a : Handling} (hlast : latest handed log = some (id, a)) (ha : a ≠ .drained) :
    id = .of id.raw id.bank id.bit ∧
      ∃ rest, (book log).captured = (book log).drained ++ id.capture :: rest := by
  induction log with
  | nil => cases hlast
  | cons l before ih =>
    change _ ∧ ∃ rest, ((book before).add l.event).captured =
      ((book before).add l.event).drained ++ id.capture :: rest
    cases hl : handed l.event with
    | none =>
      rw [latest_cons_none hl] at hlast
      rcases ih h.2 hlast with ⟨hof, rest, hcaptured⟩
      rcases add_grows hl (book before) with ⟨hdrained, more, hmore⟩
      refine ⟨hof, rest ++ more, ?_⟩
      rw [hdrained, hmore, hcaptured, List.append_assoc]
      rfl
    | some last =>
      rw [latest_cons_some hl] at hlast
      cases hlast
      rcases l with ⟨o, ev⟩
      cases ev with
      | identity epoch id' a' =>
        cases hl
        rcases h.1.1 with ⟨hof, rest, hcaptured, _⟩
        refine ⟨hof, rest, ?_⟩
        cases a with
        | drained => exact absurd rfl ha
        | more | failed => exact hcaptured
      | _ => cases hl

/-- Where reading is due, the identity that asks for it is not drained. -/
def Pending (s : System E) : Prop :=
  latest mark s.env.log = some true →
    ∃ id a, latest handed s.log = some (id, a) ∧ a ≠ .drained ∧ Guc id

/-- What every operation of the controller keeps. -/
structure Kept (n : Nat) (base : Channel E) (s : System E) : Prop where
  tally : Tally n base s.env
  pending : Chron Rule s.log → Pending s ∧ Chron Duty s.env.log

theorem Kept.heard (h : Kept n base s) {ev : Event} (hev : handed ev = none)
    {w : Desk E} (hlog : w.log = s.env.log) (hobj : w.env.env.obj = s.env.env.env.obj)
    (hlog' : w.env.env.log = s.env.env.env.log) : Kept n base (s.heard ev w) := by
  refine ⟨h.tally.same hobj hlog' (congrArg passed hlog), fun hrule => ?_⟩
  rcases h.pending hrule.2 with ⟨hpending, hduty⟩
  refine ⟨fun hmark => ?_, ?_⟩
  · rw [show (s.heard ev w).env.log = s.env.log from hlog] at hmark
    rcases hpending hmark with ⟨id, a, hlast, ha⟩
    exact ⟨id, a, (latest_cons_none hev _).trans hlast, ha⟩
  · rw [show (s.heard ev w).env.log = s.env.log from hlog]
    exact hduty

theorem write_kept (h : Kept n base s) (reg : Reg) (v : Word) (done : Bool)
    {e : Station E} (hobj : e.env.obj = s.env.env.env.obj) (hlog : e.env.log = s.env.env.env.log) :
    Kept n base (s.heard (.write reg v done) (s.env.heard (.write reg v done) e)) := by
  refine ⟨h.tally.same hobj hlog (passed_none rfl _), fun hrule => ?_⟩
  rcases h.pending hrule.2 with ⟨hpending, hduty⟩
  refine ⟨fun hmark => ?_, ?_, hduty⟩
  · rcases hpending ((latest_cons_none rfl _).symm.trans hmark) with ⟨id, a, hlast, ha⟩
    exact ⟨id, a, (latest_cons_none rfl _).trans hlast, ha⟩
  · cases reg with
    | tileMaster =>
      intro henable hmark
      have hclear : (book s.log).Clear := hrule.1.1 fun hzero => henable (by rw [hzero]; decide)
      rcases hpending hmark with ⟨id, a, hlast, ha, _⟩
      rcases (handed_owed hrule.2 hlast ha).2 with ⟨rest, hcaptured⟩
      have hlen := congrArg List.length (hcaptured.symm.trans hclear.1)
      rw [List.length_append, List.length_cons] at hlen
      omega
    | _ => trivial

/-- Where an identity came from decides what it is. -/
theorem guc_capture {id id' : Identity} (h : id = .of id.raw id.bank id.bit)
    (h' : id' = .of id'.raw id'.bank id'.bit) (hcapture : id.capture = id'.capture) (hid : Guc id) :
    Guc id' := by
  have hraw : id.raw = id'.raw := congrArg Capture.raw hcapture
  have hclass : id'.engineClass = id.engineClass := by
    rw [h, h']
    exact congrArg (fun raw : Word => ((raw >>> 16) &&& 7).toNat) hraw.symm
  have hinst : id'.inst = id.inst := by
    rw [h, h']
    exact congrArg (fun raw : Word => ((raw >>> 20) &&& 63).toNat) hraw.symm
  exact ⟨hclass.trans hid.1, hinst.trans hid.2⟩

/-- The handler is called for the same identity until it has drained it. -/
theorem identity_kept (hio : XeGuC.Producer n io.guc) (h : Kept n base s)
    (epoch : Nat) (id : Identity) :
    Kept n base (s.heard (.identity epoch id (handle io epoch id s.env).1)
      (handle io epoch id s.env).2) := by
  rcases handle_spec hio h.tally epoch id s.env rfl with ⟨htally, hduty, hdrained, hother⟩
  generalize handle io epoch id s.env = r at htally hduty hdrained hother
  refine ⟨htally, fun hrule => ?_⟩
  rcases h.pending hrule.2 with ⟨hpending, hchron⟩
  refine ⟨fun hmark => ?_, hduty hchron⟩
  have hid : Guc id := by
    by_contra hno
    -- The mark is an older one, so an identity of the GuC is still the first.
    rcases hpending ((hother hno).symm.trans hmark) with ⟨id', a, hlast, ha, hid'⟩
    rcases handed_owed hrule.2 hlast ha with ⟨hof', rest', hcaptured'⟩
    rcases hrule.1.1 with ⟨hof, rest, hcaptured, _⟩
    have hfirst := List.append_cancel_left (hcaptured'.symm.trans hcaptured)
    exact hno (guc_capture hof' hof (List.cons.inj hfirst).1 hid')
  refine ⟨id, r.1, latest_cons_some (f := handed) (l := ⟨s.obj, .identity epoch id r.1⟩) rfl s.log,
    fun hdone => ?_, hid⟩
  exact absurd ((hdrained hid hdone).symm.trans hmark) nofun

theorem op_kept (hio : XeGuC.Producer n io.guc) (o : Interrupt.Op) :
    Spec (Kept n base) (Op.run (backend io) o) (fun _ => Kept n base) := by
  intro s h
  cases o with
  | load => exact h
  | store p => exact ⟨h.tally, h.pending⟩
  | compareExchange expected desired =>
    change Kept n base ((if s.obj.phase = expected then _ else _ : Prog _ _ _ _) s).2
    by_cases hp : s.obj.phase = expected
    · rw [if_pos hp]
      exact ⟨h.tally, h.pending⟩
    · rw [if_neg hp]
      exact h
  | admitted | read32 | nowMicros | otherMaster => exact h.heard rfl rfl rfl rfl
  | write32 reg v => exact write_kept h reg v _ rfl rfl
  | identity epoch id => exact identity_kept hio h epoch id
  | fields => exact h
  | record f => exact ⟨h.tally, h.pending⟩

end Rearming

section Runs

variable {n : Nat} {base : Channel E} {io : Platform E} {s : System E}

/-- The calls fit a ring of `n` words that nobody else reads. -/
def Call.Fits (n : Nat) : Call → Prop
  | .transport c => c.Fits n
  | _ => True

/-- The controller keeps its own rule, whatever the environment. -/
def Running (n : Nat) (base : Channel E) (s : System E) : Prop := Settled s ∧ Kept n base s

theorem settled_rule (h : Settled s) : Chron Rule s.log :=
  h.elim (fun h => h.live.logged.rule) fun h => h.logged.rule

theorem settled_below (h : Settled s) (w : Desk E) : Settled { s with env := w } := by
  rcases h with h | h
  · exact .inl ⟨⟨⟨h.live.logged.rule, h.live.logged.stored, h.live.logged.room⟩, h.live.sound,
      h.live.link⟩, h.ready, h.clear, h.configured⟩
  · exact .inr ⟨⟨h.logged.rule, h.logged.stored, h.logged.room⟩, h.fault, h.configured⟩

theorem step_running (hio : XeGuC.Producer n io.guc) {c : Call} (hc : c.Fits n) :
    Spec (Running n base) (step io c) (fun _ => Running n base) := by
  rintro s ⟨hsettled, h⟩
  cases c with
  | controller c =>
    refine ⟨step_sound c s hsettled, ?_⟩
    have hkept : ∀ {α : Type} (code : Ctl α),
        Spec (Kept n base) (alone (backend io) code) (fun _ => Kept n base) :=
      fun code => Code.spec_kept (op_kept hio) code
    cases c with
    | configure cfg complete => exact hkept (configure cfg complete) s h
    | start => exact hkept Interrupt.start s h
    | filter => exact hkept filter s h
    | service => exact hkept service s h
  | transport c =>
    rcases XeGuC.step_inbound hio h.tally.inbound hc with ⟨hin, hsame, hstream⟩
    have hpath : Relation.ReflTransGen (XeGuC.Move io.guc) s.env.env.env _ :=
      XeGuC.step_moves c s.env.env.env
    exact ⟨settled_below hsettled _, ⟨hin, h.tally.stream.trans hstream,
      h.tally.accounted.moves hpath hsame⟩, h.pending⟩
  | fence c =>
    have hbelow := XeFence.step_below io.fence c s.env.env
    exact ⟨settled_below hsettled _, h.tally.same hbelow.1 hbelow.2 rfl, h.pending⟩

theorem run_running (hio : XeGuC.Producer n io.guc) {calls : List Call}
    (hcalls : ∀ c ∈ calls, c.Fits n) (hs : Running n base s) :
    Running n base (run io calls s) :=
  spec_runAll_mem (step io) calls (fun c hc => step_running hio (hcalls c hc)) s hs

theorem start_running {g : XeGuC.Port} {ms : List XeGuC.Message} (hg : XeGuC.Carries n ms g)
    (d : Dispatcher) (h : XeGuC.Port) (env : E) :
    Running n (XeGuC.start h g env) (start d h g env) :=
  ⟨start_settled _, ⟨.inl ⟨g.head, ⟨ms, rfl, rfl, rfl, rfl, hg⟩, rfl⟩, ⟨[], List.append_nil _⟩,
  .inl rfl⟩,
    fun _ => ⟨nofun, trivial⟩⟩

structure Drains (n : Nat) (io : Platform E) (s : System E) : Prop where
  /-- The callback got what left the ring, in the same order. -/
  accounted : Accounted s.env.log s.env.env.env
  /-- What leaves the ring is what was put in, in the same order. -/
  stream : ∀ calls, (∀ c ∈ calls, c.Fits n) →
    XeGuC.stream s.env.env.env <+: XeGuC.stream (run io calls s).env.env.env
  /-- Delivery is enabled where the ring has been seen to be empty. -/
  duty : Chron Duty s.env.log

/-- Messages are passed on exactly once and in ring order, over every sequence
    of calls. -/
theorem run_drains (io : Platform E) (hio : XeGuC.Producer n io.guc) (calls : List Call)
    (hcalls : ∀ c ∈ calls, c.Fits n) (d : Dispatcher) (h g : XeGuC.Port)
    (hg : ∃ ms, XeGuC.Carries n ms g) (env : E) :
    Drains n io (run io calls (start d h g env)) := by
  rcases hg with ⟨ms, hg⟩
  have hrun := run_running hio hcalls (start_running hg d h env)
  refine ⟨hrun.2.tally.accounted, fun more hmore => ?_, (hrun.2.pending (settled_rule hrun.1)).2⟩
  have hthen : Running n (run io calls (start d h g env)).env.env.env
      (run io calls (start d h g env)) :=
    ⟨hrun.1, ⟨hrun.2.tally.inbound, ⟨[], List.append_nil _⟩, hrun.2.tally.accounted⟩,
    hrun.2.pending⟩
  exact (run_running hio hmore hthen).2.tally.stream

def bench (release : Bool → Bool × Bool) : Platform Bool where
  guc := { admitted := fun _ e => (true, e), authorizeAction := fun _ _ e => (true, e),
           acquire := fun e => (true, e), release := release, notify := fun e => (true, e),
           peer := fun e => ([], e) }
  fence := { valid := fun _ e => (true, e), retain := fun _ e => (true, e),
             release := fun _ e => ((), e), stopped := fun _ e => (true, e),
             clear := fun _ e => ((), e), load := fun _ e => (0, e) }
  dispatch := { nowMicros := fun e => (0, e), message := fun _ _ e => (true, e),
                fence := fun _ e => (true, e) }
  router := { admitted := fun _ e => (true, e)
              read32 := fun reg e => (some (match reg with
                | .tileMaster => 1
                | .gfxMaster => 1
                | .bankStatus _ => 1
                | .identityRegister _ => 0x80048000#32
                | _ => 0), e)
              write32 := fun _ _ e => (true, e)
              nowMicros := fun e => (0, e)
              otherMaster := fun _ _ e => (.drained, e) }

def oneEvent : XeGuC.Port := ⟨0, 2, 0, fun i => if i = 0 then 1 else 0x90001234⟩

def serveOnce : List Call :=
  [.transport XeGuC.attachSmallest,
  .controller (.configure ⟨1, 0x8086, 0x7d41, 0, true, false⟩ true),
   .controller .start, .controller .filter, .controller .service]

theorem serveOnce_fits : ∀ c ∈ serveOnce, c.Fits 1024 := by
  unfold serveOnce
  simp only [List.forall_mem_cons, List.not_mem_nil, false_implies, implies_true, and_true]
  exact ⟨rfl, trivial, trivial, trivial, trivial⟩

theorem oneEvent_carries : XeGuC.Carries 1024 [⟨0, [0x90001234]⟩] oneEvent := by
  refine ⟨by decide, by decide, by decide, fun i w hw => ?_, fun m hm => ?_⟩
  · match i, hw with
    | 0, hw => cases hw; rfl
    | 1, hw => cases hw; rfl
  · rw [List.mem_singleton.mp hm]
    exact ⟨⟨by decide, by decide⟩, by decide⟩

theorem run_drains_one : XeGuC.Producer 1024 (bench fun e => (true, e)).guc ∧
    Drains 1024 (bench fun e => (true, e)) (run (bench fun e => (true, e)) serveOnce
      (start ⟨1, 0, 0, true⟩ XeGuC.Port.blank oneEvent true)) ∧
    passed (run (bench fun e => (true, e)) serveOnce
      (start ⟨1, 0, 0, true⟩ XeGuC.Port.blank oneEvent true)).env.log = [⟨0, [0x90001234]⟩] := by
  have hio : XeGuC.Producer 1024 (bench fun e => (true, e)).guc :=
    fun _ _ hf => absurd hf List.not_mem_nil
  exact ⟨hio, run_drains _ hio _ serveOnce_fits _ _ _ ⟨_, oneEvent_carries⟩ _, by decide +kernel⟩

/-- Memory is not ordered again, and the callback does not get the message. -/
theorem run_drains_unordered : XeGuC.Producer 1024 (bench fun e => (e, false)).guc ∧
    XeGuC.Carries 1024 [⟨0, [0x90001234]⟩] oneEvent ∧
    XeGuC.consumed (run (bench fun e => (e, false)) serveOnce
      (start ⟨1, 0, 0, true⟩ XeGuC.Port.blank oneEvent true)).env.env.env.log =
        [⟨0, [0x90001234]⟩] ∧
    passed (run (bench fun e => (e, false)) serveOnce
      (start ⟨1, 0, 0, true⟩ XeGuC.Port.blank oneEvent true)).env.log = [] :=
  ⟨fun _ _ hf => absurd hf List.not_mem_nil, oneEvent_carries, by decide +kernel, by decide +kernel⟩

end Runs

end Dispatcher

end Mellow.Interrupt
