import Mellow.Xe.GuC.Moves
import Mellow.Xe.GuC.Wire

/-!
# Traffic on the Host's Ring

What the log says about the ring from the host to the peer. A word is written
only where the peer has nothing left to read, and a message is published only
where it stands in one piece.

## Main definitions

* `published`: the messages that were published.
* `decoded`: those that the peer has read.
* `Steady`: a predicate that calm moves keep.

## Theorems

* `calm_cases`: a calm move leaves the ring alone or takes one unit.
* `steady_spec`: programs of calm moves keep what is steady.
-/

namespace Mellow.XeGuC

open Lib

variable {E : Type}

section Logs

def decodedOf (x : Entry Link Event) : Option Message :=
  match x.event with
  | .decoded m => some m
  | _ => none

def publishedOf (x : Entry Link Event) : Option Message :=
  match x.event with
  | .published _ m => m
  | _ => none

def takenBy (x : Entry Link Event) : Nat :=
  match x.event with
  | .skipped => 1
  | .decoded m => m.wire.length
  | _ => 0

def addedBy (x : Entry Link Event) : Nat :=
  match x.event with
  | .published tail _ => distance x.obj.h2g.count x.obj.hPort.tail tail
  | _ => 0

def decoded (log : Log) : List Message := (log.filterMap decodedOf).reverse

def published (log : Log) : List Message := (log.filterMap publishedOf).reverse

def taken (log : Log) : Nat := (log.map takenBy).sum

def added (log : Log) : Nat := (log.map addedBy).sum

/-- The line has nothing to do with the words of the host's ring. -/
def Event.Aside : Event → Prop
  | .decoded _ | .skipped | .wrote .. | .published .. => False
  | _ => True

/-- The message stands in one piece where the tail was. -/
structure Whole (l : Link) (m : Message) (tail : Nat) : Prop where
  fits : l.hPort.tail + m.wire.length ≤ l.h2g.count
  words : slice l.hPort.words l.hPort.tail m.wire.length = m.wire
  moves : tail = (l.hPort.tail + m.wire.length) % l.h2g.count

/-- The word is one that was published and that the peer has not passed. -/
def Link.Unread (l : Link) (i : Nat) : Prop :=
  Occupied l.h2g.count l.hPort.head (distance l.h2g.count l.hPort.head l.hPort.tail) i

structure RingRule (x : Entry Link Event) : Prop where
  wrote : ∀ i v, x.event = .wrote i v → i < x.obj.h2g.count ∧ ¬ x.obj.Unread i
  published : ∀ tail m, x.event = .published tail (some m) → Whole x.obj m tail

variable {x : Entry Link Event} {log : Log}

theorem decoded_cons (x : Entry Link Event) (log : Log) :
    decoded (x :: log) = decoded log ++ (decodedOf x).toList := by
  unfold decoded
  cases h : decodedOf x with
  | none => rw [List.filterMap_cons_none h, Option.toList_none, List.append_nil]
  | some m => rw [List.filterMap_cons_some h, List.reverse_cons, Option.toList_some]

theorem published_cons (x : Entry Link Event) (log : Log) :
    published (x :: log) = published log ++ (publishedOf x).toList := by
  unfold published
  cases h : publishedOf x with
  | none => rw [List.filterMap_cons_none h, Option.toList_none, List.append_nil]
  | some m => rw [List.filterMap_cons_some h, List.reverse_cons, Option.toList_some]

theorem taken_cons (x : Entry Link Event) (log : Log) :
    taken (x :: log) = takenBy x + taken log := by
  rw [taken, List.map_cons, List.sum_cons, taken]

theorem added_cons (x : Entry Link Event) (log : Log) :
    added (x :: log) = addedBy x + added log := by
  rw [added, List.map_cons, List.sum_cons, added]

theorem aside_line (h : x.event.Aside) :
    decodedOf x = none ∧ publishedOf x = none ∧ takenBy x = 0 ∧ addedBy x = 0 ∧ RingRule x := by
  rcases x with ⟨o, ev⟩
  cases ev <;> first | exact absurd h id | exact ⟨rfl, rfl, rfl, rfl, nofun, nofun⟩

structure SameTraffic (log log' : Log) : Prop where
  decoded : decoded log' = decoded log
  published : published log' = published log
  taken : taken log' = taken log
  added : added log' = added log
  lines : (∀ x ∈ log, RingRule x) → ∀ x ∈ log', RingRule x

theorem SameTraffic.refl (log : Log) : SameTraffic log log :=
  ⟨rfl, rfl, rfl, rfl, id⟩

theorem SameTraffic.trans {log' log'' : Log} (h : SameTraffic log log')
    (h' : SameTraffic log' log'') : SameTraffic log log'' :=
  ⟨h'.decoded.trans h.decoded, h'.published.trans h.published, h'.taken.trans h.taken,
    h'.added.trans h.added, fun hlines => h'.lines (h.lines hlines)⟩

theorem SameTraffic.cons (h : x.event.Aside) : SameTraffic log (x :: log) := by
  rcases aside_line h with ⟨hdec, hpub, htak, hadd, hrule⟩
  refine ⟨?_, ?_, ?_, ?_, fun hlines y hy => ?_⟩
  · rw [decoded_cons, hdec, Option.toList_none, List.append_nil]
  · rw [published_cons, hpub, Option.toList_none, List.append_nil]
  · rw [taken_cons, htak, Nat.zero_add]
  · rw [added_cons, hadd, Nat.zero_add]
  · rcases List.mem_cons.mp hy with rfl | hy
    · exact hrule
    · exact hlines y hy

end Logs

/-- The peer only takes units and sets the status. -/
def Consumer (io : Ops E) : Prop := ∀ e f, PeerMove.corrupt f ∉ (io.peer e).1

section Calm

variable {io : Ops E} {s t : World E}

structure Still (s t : World E) : Prop where
  attached : t.obj.attached = s.obj.attached
  ring : t.obj.h2g = s.obj.h2g
  own : t.obj.hTail = s.obj.hTail
  head : t.obj.hPort.head = s.obj.hPort.head
  tail : t.obj.hPort.tail = s.obj.hPort.tail
  words : t.obj.hPort.words = s.obj.hPort.words
  log : SameTraffic s.log t.log

theorem settle_still (t : Transport) (i : Fin maxPending) (m : Message) :
    (t.settle i m).2.attached = t.attached ∧ (t.settle i m).2.h2g = t.h2g ∧
      (t.settle i m).2.hTail = t.hTail := by
  rcases settle_cases t i m with ⟨_, heq⟩ | ⟨_, ⟨_, heq⟩ | ⟨_, _, _, heq⟩ | ⟨_, _, heq⟩⟩ <;>
    rw [heq] <;> exact ⟨rfl, rfl, rfl⟩

/-- A calm move leaves the ring alone, or the peer takes a unit. -/
theorem calm_cases (hio : Consumer io) (hcalm : Calm io s t) :
    Still s t ∨ ∃ u p, s.obj.next = some (u, p) ∧
      t = (s.heard (unitEvent u) s.env).put { s.obj with hPort := p } := by
  have hsame := SameTraffic.refl s.log
  cases hcalm with
  | drew e => exact Or.inl ⟨rfl, rfl, rfl, rfl, rfl, rfl, hsame⟩
  | heard ev e hev =>
    have haside : ev.Aside := by
      cases ev <;> trivial
    exact Or.inl ⟨rfl, rfl, rfl, rfl, rfl, rfl, .cons haside⟩
  | peer x hx =>
    cases x with
    | take =>
      change Still s (peerTake s).2 ∨ ∃ u p, s.obj.next = some (u, p) ∧ (peerTake s).2 = _
      rcases peerTake_cases s with ⟨_, heq⟩ | ⟨u, p, hnext, heq⟩ <;> rw [heq]
      · exact Or.inl ⟨rfl, rfl, rfl, rfl, rfl, rfl, hsame⟩
      · exact Or.inr ⟨u, p, hnext, rfl⟩
    | h2gStatus | g2h => exact Or.inl ⟨rfl, rfl, rfl, rfl, rfl, rfl, hsame⟩
    | corrupt f =>
      rcases hx with ⟨e, he⟩
      exact absurd he (hio e f)
  | ticked | expired | broke | retired => exact Or.inl ⟨rfl, rfl, rfl, rfl, rfl, rfl, hsame⟩
  | misread | refused => exact Or.inl ⟨rfl, rfl, rfl, rfl, rfl, rfl, .cons trivial⟩
  | replied m i _ _ _ =>
    rcases settle_still s.obj.host i m with ⟨hatt, hring, hown⟩
    exact Or.inl ⟨hatt, hring, hown, rfl, rfl, rfl, .cons trivial⟩
  | consumed head _ => exact Or.inl ⟨rfl, rfl, rfl, rfl, rfl, rfl, .cons trivial⟩

/-- A predicate that calm moves preserve. -/
def Steady (io : Ops E) (P : World E → Prop) : Prop := ∀ s t, Calm io s t → P s → P t

theorem Steady.path {P : World E → Prop} (hP : Steady io P)
    (hpath : Relation.ReflTransGen (Calm io) s t) (hs : P s) : P t := by
  induction hpath with
  | refl => exact hs
  | tail _ hcalm ih => exact hP _ _ hcalm ih

theorem steady_spec {α : Type} {P : World E → Prop} (hP : Steady io P) {x : Op E α}
    (hx : ∀ s, ∃ h, Reach (Calm io) s h (x s).2) : Spec P x (fun _ => P) := by
  intro s hs
  rcases hx s with ⟨_, hreach⟩
  exact hP.path hreach.1 hs

theorem calm_self (io : Ops E) : Allows io (Calm io) :=
  fun _ _ hcalm _ => hcalm

section Primitives

variable {P : World E → Prop} (hP : Steady io P)

include hP

theorem turn_steady : Spec P (turn io) (fun _ => P) :=
  steady_spec hP (fun s => ⟨_, turn_reach (calm_self io) s ⟨.refl, rfl⟩⟩)

theorem callback_steady {α : Type} (f : E → α × E) (ev : α → Event) (hev : ∀ a, (ev a).Callback) :
    Spec P (ask f ev) (fun _ => P) :=
  steady_spec hP (fun s => ⟨_, callback_reach (calm_self io) f ev hev s ⟨.refl, rfl⟩⟩)

theorem announce_steady : Spec P (announce io) (fun _ => P) :=
  steady_spec hP (fun s => ⟨_, announce_reach (calm_self io) s ⟨.refl, rfl⟩⟩)

theorem readPort_steady {α : Type} (f : Link → α) :
    Spec P (readPort io f) (fun a t => P t ∧ a = f t.obj) := by
  refine spec_bind (turn_steady hP) (fun _ => spec_bind spec_look (fun l => ?_))
  refine spec_pure _ (fun t ht => ⟨ht.1, congrArg f ht.2⟩)

theorem fault_steady (st : Status) :
    Spec P (fault st) (fun r t => r = st ∧ P t ∧ t.obj.broken = true) := by
  intro s hs
  exact ⟨rfl, hP _ _ (.broke s) hs, rfl⟩

theorem clock_steady (now : Nat) : Spec P (clock now) (fun _ => P) := by
  refine steady_spec hP (fun s => ?_)
  have hreach := clock_reach (calm_self io) now s ⟨.refl, rfl⟩
  dsimp only at hreach
  split at hreach
  · exact ⟨_, hreach.2⟩
  · exact ⟨_, hreach⟩

/-- Only an attached object passes the checks. -/
theorem checkDescriptors_steady :
    Spec P (checkDescriptors io) (fun st t =>
      P t ∧ (st = .ok → t.obj.attached = true) ∧ st ≠ .empty) := by
  intro s hs
  have hreach := checkDescriptors_reach (calm_self io) s ⟨.refl, rfl⟩
  by_cases hst : (checkDescriptors io s).1 = .ok
  · rcases hreach.1 hst with ⟨hrun, hreach, _⟩
    exact ⟨hP.path hreach.1 hs, fun _ => hreach.2 ▸ hrun.1, hst ▸ nofun⟩
  · rcases hreach.2 hst with ⟨hempty, ⟨hreach, _⟩ | hreach⟩ <;>
      exact ⟨hP.path hreach.1 hs, fun hok => absurd hok hst, hempty⟩

theorem anyOf_steady (fs : List (Link → Bool)) :
    Spec P (anyOf io fs) (fun bad t => P t ∧
      (bad = false → ∀ f ∈ fs, ∃ u, P u ∧ f u.obj = false)) := by
  intro s hs
  rcases anyOf_value (calm_self io) fs s ⟨.refl, rfl⟩ with ⟨hreach, htests⟩
  refine ⟨hP.path hreach.1 hs, fun hbad f hf => ?_⟩
  rcases htests hbad f hf with ⟨u, hu, hno⟩
  exact ⟨u, hP.path hu.1 hs, hno⟩

/-- Attaching insists that the ends of the rings are at the start. -/
theorem attach_steady {Q : World E → Prop} {r g : Ring} {epoch : Nat} (complete : Bool)
    (f : MellowXe.FirmwareInfo)
    (hQ : ∀ t, P t → ringsValid r g → (∃ u, P u ∧ u.obj.hPort.head = 0) →
      (∃ u, P u ∧ u.obj.hPort.tail = 0) → (∃ u, P u ∧ u.obj.gPort.head = 0) →
      Q (setHost t (t.obj.attachedTo r g epoch))) :
    Spec P (attach io r g complete epoch f) (fun _ t => P t ∨ Q t) := by
  refine spec_bind spec_look fun l => spec_pre (fun t ht => ht.1) ?_
  refine spec_unless (fun t ht => .inl ht) fun hargs => ?_
  refine spec_guard (fun t ht => .inl ht) ?_
  refine spec_bind (callback_steady hP _ _ fun _ => trivial) fun admitted => ?_
  refine spec_guard (fun t ht => .inl ht) ?_
  refine spec_bind (callback_steady hP _ _ fun _ => trivial) fun acquired => ?_
  refine spec_guard (fun t ht => .inl ht) ?_
  refine spec_bind (anyOf_steady hP _) fun bad => ?_
  refine spec_unless (fun t ht => .inl ht.1) fun hbad => ?_
  simp only [not_or, not_not] at hargs
  refine spec_bind (R := fun _ => Q) (spec_edit _ fun t ht => ?_) fun _ =>
    spec_pure _ fun t ht => .inr ht
  have htests := ht.2 (Bool.eq_false_of_not_eq_true hbad)
  simp only [List.forall_mem_cons, decide_eq_false_iff_not, not_not] at htests
  exact hQ t ht.1 hargs.2.2.1 htests.1 htests.2.1 htests.2.2.2.1

end Primitives

end Calm

end Mellow.XeGuC
