import Mellow.Xe.GuC.Model

/-!
# Atomic Moves of the Transport

What can happen to the link, one thing at a time. Every guard the code has
passed is an argument of the move. The peer cannot touch the host's object, so
along a path that object is known exactly, and each operation is described by
the objects it can lead to.

## Main definitions

* `Calm`: moves that write nothing the peer reads; receiving, expiring and
  retiring.
* `Move`: those of `attach` and `send` as well.
* `Reach`: a path to a known object.

## Theorems

* `receive_reach`: receiving is a path of calm moves.
* `send_reach`: sending is a path of moves.
* `run_moves`: so is a run.
-/

namespace Mellow.XeGuC

open Lib Function

variable {E : Type}

def Event.Callback : Event → Prop
  | .admitted .. | .authorized .. | .acquire _ | .release _ | .notify _ => True
  | _ => False

def Transport.Running (t : Transport) : Prop := t.attached = true ∧ t.broken = false

def Event.head? : Event → Option Nat
  | .consumed head => some head
  | _ => none

/-- No head of the peer's ring is published from one system to the other. -/
def Headless (s t : World E) : Prop :=
  t.log.filterMap (fun x => x.event.head?) = s.log.filterMap fun x => x.event.head?

def setHost (s : World E) (t : Transport) : World E :=
  s.put { s.obj with host := t }

/-- The moves that leave the host's ring to the peer. -/
inductive Calm (io : Ops E) : World E → World E → Prop where
  -- The environment.
  | drew (s : World E) (e : E) : Calm io s { s with env := e }
  | heard (s : World E) (ev : Event) (e : E) (hev : ev.Callback) : Calm io s (s.heard ev e)
  | peer (s : World E) (x : PeerMove) (hx : ∃ e, x ∈ (io.peer e).1) :
      Calm io s (peerMove x s).2
  -- The host's own fields.
  | ticked (s : World E) (now : Nat) (h : s.obj.lastTime ≤ now) :
      Calm io s (setHost s { s.obj.host with lastTime := now })
  | expired (s : World E) :
      Calm io s (setHost s (s.obj.expired s.obj.lastTime))
  | broke (s : World E) : Calm io s (setHost s { s.obj.host with broken := true })
  | retired (s : World E) (i : Fin maxPending)
      (hheld : (s.obj.pending i).creditsHeld = false) :
      Calm io s (setHost s { s.obj.host with
        pending := update s.obj.pending i Pending.empty })
  -- Messages from the peer.
  | misread (s : World E) (header available : Nat) (hrun : s.obj.Running) :
      Calm io s (setHost (s.heard (.misread header available) s.env)
        { s.obj.host with broken := true })
  | refused (s : World E) (m : Message) (st : Status) (hrun : s.obj.Running)
      (hroute : s.obj.route m = .error st) :
      Calm io s (setHost (s.heard (.refused m st) s.env) { s.obj.host with broken := true })
  | replied (s : World E) (m : Message) (i : Fin maxPending)
      (hrun : s.obj.Running) (hlen : m.count ≤ maxHxgWords)
      (hroute : s.obj.route m = .ok (some i)) :
      Calm io s (setHost (s.heard (.replied i m (s.obj.settle i m).1) s.env)
        (s.obj.settle i m).2)
  | consumed (s : World E) (head : Nat) (hrun : s.obj.Running) :
      Calm io s ((s.heard (.consumed head) s.env).put
        { s.obj with gHead := head, gPort := { s.obj.gPort with head := head } })

inductive Move (io : Ops E) : World E → World E → Prop where
  | calm {s t : World E} (h : Calm io s t) : Move io s t
  | attached (s : World E) (h g : Ring) (epoch : Nat)
      (hnew : s.obj.attached = false) (hepoch : epoch ≠ 0) (hvalid : ringsValid h g) :
      Move io s (setHost s (s.obj.attachedTo h g epoch))
  -- Sending.
  | issued (s : World E) (slot : Fin maxPending) (a : Action) (deadline : Nat)
      (hrun : s.obj.Running) (hvalid : validateAction a = .ok)
      (hfence : s.obj.nextFence < 0x8000) (hscan : s.obj.scan a = .ok slot) :
      Move io s (setHost (s.heard (.issued slot (s.obj.nextCookie a) a.reserve) s.env)
        (s.obj.issue slot a deadline))
  | wrote (s : World E) (i v : Nat) (hrun : s.obj.Running) :
      Move io s ((s.heard (.wrote i v) s.env).put
        { s.obj with hPort := { s.obj.hPort with words := update s.obj.hPort.words i v } })
  | published (s : World E) (tail : Nat) (m : Option Message)
      (hrun : s.obj.Running) :
      Move io s ((s.heard (.published tail m) s.env).put
        { s.obj with hTail := tail, hPort := { s.obj.hPort with tail := tail } })

/-- The table once time has gone on and the overdue slots have timed out. -/
def Transport.ticked (t : Transport) (now : Nat) : Transport :=
  Transport.expired { t with lastTime := now } now

def Reach (R : World E → World E → Prop) (s : World E) (h : Transport)
    (t : World E) : Prop :=
  Relation.ReflTransGen R s t ∧ t.obj.host = h

/-- The relation has every calm move that publishes no head. -/
def Allows (io : Ops E) (R : World E → World E → Prop) : Prop :=
  ∀ s t, Calm io s t → Headless s t → R s t

section Primitives

variable {io : Ops E} {R : World E → World E → Prop}
  {s : World E} {h : Transport} {t : World E}

theorem Reach.step {u : World E} {h' : Transport} (ht : Reach R s h t)
    (hmove : R t u) (hu : u.obj.host = h') : Reach R s h' u :=
  ⟨ht.1.tail hmove, hu⟩

theorem editHost_reach {f : Transport → Transport}
    (hmove : ∀ t : World E, t.obj.host = h → R t (setHost t (f t.obj.host))) :
    Spec (Reach R s h) (editHost f) (fun _ => Reach R s (f h)) := by
  refine spec_edit _ fun t ht => ?_
  exact ht.step (hmove t ht.2) (congrArg f ht.2)

theorem peerTake_cases (t : World E) :
    (t.obj.next = none ∧ (peerTake t).2 = t) ∨
      ∃ u p, t.obj.next = some (u, p) ∧
        (peerTake t).2 = (t.heard (unitEvent u) t.env).put { t.obj with hPort := p } := by
  unfold peerTake
  rw [look_bind]
  cases hnext : t.obj.next with
  | none => exact Or.inl ⟨rfl, rfl⟩
  | some up => exact Or.inr ⟨up.1, up.2, rfl, rfl⟩

theorem peerMove_host (x : PeerMove) (t : World E) :
    (peerMove x t).2.obj.host = t.obj.host := by
  cases x with
  | take =>
    change (peerTake t).2.obj.host = _
    rcases peerTake_cases t with ⟨_, heq⟩ | ⟨u, p, _, heq⟩ <;> rw [heq]
    rfl
  | h2gStatus | g2h | corrupt => rfl

theorem headless_heard {ev : Event} (hev : ev.head? = none) (e : E) :
    Headless t (t.heard ev e) :=
  List.filterMap_cons_none hev

theorem headless_callback {ev : Event} (hev : ev.Callback) (e : E) :
    Headless t (t.heard ev e) := by
  refine headless_heard ?_ e
  cases ev <;> first | rfl | exact hev.elim

theorem peerMove_headless (x : PeerMove) (t : World E) : Headless t (peerMove x t).2 := by
  cases x with
  | take =>
    change Headless t (peerTake t).2
    rcases peerTake_cases t with ⟨_, heq⟩ | ⟨u, p, _, heq⟩ <;> rw [heq]
    · rfl
    · cases u <;> exact headless_heard rfl t.env
  | h2gStatus | g2h | corrupt => rfl

variable (hR : Allows io R)

include hR

theorem peerMoves_reach (xs : List PeerMove) (hxs : ∀ x ∈ xs, ∃ e, x ∈ (io.peer e).1) :
    Spec (Reach R s h) (peerMoves xs) (fun _ => Reach R s h) := by
  induction xs with
  | nil => exact spec_pure () (fun _ ht => ht)
  | cons x xs ih =>
    have hfirst : Spec (Reach R s h) (peerMove x) (fun _ => Reach R s h) := by
      intro t ht
      refine ht.step (hR _ _ (.peer t x (hxs x List.mem_cons_self)) (peerMove_headless x t)) ?_
      rw [peerMove_host, ht.2]
    exact spec_bind hfirst (fun _ => ih (fun y hy => hxs y (List.mem_cons_of_mem x hy)))

theorem turn_reach : Spec (Reach R s h) (turn io) (fun _ => Reach R s h) := by
  refine spec_bind (R := fun xs t => Reach R s h t ∧ ∀ x ∈ xs, ∃ e, x ∈ (io.peer e).1)
    (spec_draw io.peer (fun t ht => ?_)) fun xs => ?_
  · exact ⟨ht.step (hR _ _ (.drew t _) rfl) ht.2, fun x hx => ⟨t.env, hx⟩⟩
  · exact spec_given (fun hxs => peerMoves_reach hR xs hxs)

theorem readPort_reach {α : Type} (f : Link → α) :
    Spec (Reach R s h) (readPort io f) (fun _ => Reach R s h) :=
  spec_bind (turn_reach hR) (fun _ => spec_bind spec_look (fun _ => spec_pure _ (fun _ ht => ht.1)))

/-- What is read was there at some time. -/
theorem readPort_value {α : Type} (f : Link → α) :
    Spec (Reach R s h) (readPort io f) (fun a t => Reach R s h t ∧ a = f t.obj) := by
  refine spec_bind (turn_reach hR) (fun _ => spec_bind spec_look (fun l => ?_))
  exact spec_pure _ (fun t ht => ⟨ht.1, congrArg f ht.2⟩)

theorem anyOf_value (fs : List (Link → Bool)) :
    Spec (Reach R s h) (anyOf io fs) (fun bad t => Reach R s h t ∧
      (bad = false → ∀ f ∈ fs, ∃ u, Reach R s h u ∧ f u.obj = false)) := by
  induction fs with
  | nil => exact spec_pure false (fun t ht => ⟨ht, fun _ f hf => absurd hf List.not_mem_nil⟩)
  | cons f fs ih =>
    refine spec_bind (readPort_value hR f) fun yes => ?_
    refine spec_ite (fun _ => spec_pure true (fun t ht => ⟨ht.1, nofun⟩)) fun hno => ?_
    refine spec_each (fun t ht => spec_post (spec_at ht.1 ih)
      (fun bad u hu => ⟨hu.1, fun hbad g hg => ?_⟩))
    rcases List.mem_cons.mp hg with rfl | hg
    · exact ⟨t, ht.1, ht.2 ▸ Bool.eq_false_of_not_eq_true hno⟩
    · exact hu.2 hbad g hg

theorem readAll_value (is : List Nat) :
    Spec (Reach R s h) (readAll io is) (fun vs t => Reach R s h t ∧
      List.Forall₂ (fun i v => ∃ u, Reach R s h u ∧ v = u.obj.gPort.words i) is vs) := by
  induction is with
  | nil => exact spec_pure [] (fun _ ht => ⟨ht, .nil⟩)
  | cons i is ih =>
    refine spec_bind (readPort_value hR _) (fun v => spec_each (fun t ht => ?_))
    refine spec_bind (spec_at ht.1 ih) fun vs => ?_
    exact spec_pure (v :: vs) (fun u hu => ⟨hu.1, .cons ⟨t, ht⟩ hu.2⟩)

theorem callback_reach {α : Type} (f : E → α × E) (ev : α → Event) (hev : ∀ a, (ev a).Callback) :
    Spec (Reach R s h) (ask f ev) (fun _ => Reach R s h) :=
  spec_ask f ev (fun t a e ht =>
    ht.step (hR _ _ (.heard t (ev a) e (hev a)) (headless_callback (hev a) e)) ht.2)

theorem announce_reach : Spec (Reach R s h) (announce io) (fun _ => Reach R s h) :=
  spec_andM (callback_reach hR _ _ (fun _ => trivial)) (fun _ ht => ht)
    (callback_reach hR _ _ (fun _ => trivial))

theorem fault_reach (st : Status) :
    Spec (Reach R s h) (fault st)
      (fun r t => r = st ∧ Reach R s { h with broken := true } t) :=
  spec_bind (editHost_reach (fun t _ => hR _ _ (.broke t) rfl))
    (fun _ => spec_pure st (fun _ ht => ⟨rfl, ht⟩))

theorem clock_reach (now : Nat) :
    Spec (Reach R s h) (clock now) (fun ok t =>
      if ok = true then h.lastTime ≤ now ∧ Reach R s { h with lastTime := now } t
      else Reach R s h t) := by
  refine spec_bind spec_look fun l => ?_
  refine spec_ite (fun _ => spec_pure false (fun t ht => ?_)) fun hge => ?_
  · rw [if_neg (by decide)]
    exact ht.1
  · refine spec_each fun t ht => ?_
    rcases ht with ⟨ht, rfl⟩
    have hle : h.lastTime ≤ now := by
      rw [← ht.2]
      omega
    refine spec_bind (R := fun _ => Reach R s { h with lastTime := now })
      (spec_at ht (editHost_reach (fun u hu => hR _ _ (.ticked u now ?_) rfl)))
      (fun _ => spec_pure true (fun u hu => ?_))
    · rw [hu]
      exact hle
    · rw [if_pos rfl]
      exact ⟨hle, hu⟩

/-- Past the checks the object is running, and the peer's ring had its head.
    Otherwise it may have broken. -/
def Checked (R : World E → World E → Prop) (s : World E) (h : Transport) (st : Status)
    (t : World E) : Prop :=
  (st = .ok → h.Running ∧ Reach R s h t ∧ ∃ u, Reach R s h u ∧ u.obj.gPort.head = h.gHead) ∧
    (st ≠ .ok → st ≠ .empty ∧ ((Reach R s h t ∧ (st = .unavailable ∨ h.broken = true)) ∨
      Reach R s { h with broken := true } t))

theorem checkDescriptors_reach : Spec (Reach R s h) (checkDescriptors io) (Checked R s h) := by
  have hfail : ∀ st, st ≠ .ok → st ≠ .empty → Spec (Reach R s h) (fault st) (Checked R s h) :=
    fun st hok hempty => spec_post (fault_reach hR st) fun r t ht =>
      ⟨fun h => absurd (ht.1 ▸ h) hok, fun _ => ⟨ht.1 ▸ hempty, .inr ht.2⟩⟩
  refine spec_each fun t ht => spec_bind_look_at ?_
  rw [ht.2]
  refine spec_unless (fun u hu => ⟨nofun, fun _ => ⟨nofun, .inl ⟨hu ▸ ht, .inl rfl⟩⟩⟩)
    fun hatt => ?_
  refine spec_ite (fun hb => spec_pure _ fun u hu =>
    ⟨nofun, fun _ => ⟨nofun, .inl ⟨hu ▸ ht, .inr hb⟩⟩⟩) fun hbroken => spec_at ht ?_
  refine spec_bind (callback_reach hR _ _ (fun _ => trivial)) fun admitted => ?_
  refine spec_ite (fun _ => hfail _ nofun nofun) fun _ => ?_
  refine spec_bind (callback_reach hR _ _ (fun _ => trivial)) fun acquired => ?_
  refine spec_ite (fun _ => hfail _ nofun nofun) fun _ => ?_
  refine spec_bind (anyOf_value hR _) fun bad => ?_
  refine spec_ite (fun _ => spec_pre (fun _ hu => hu.1) (hfail _ nofun nofun)) fun hbad => ?_
  refine spec_pure _ fun u hu => ⟨fun _ => ⟨⟨Bool.eq_true_of_not_eq_false hatt,
    Bool.eq_false_of_not_eq_true hbroken⟩, hu.1, ?_⟩, fun h => absurd rfl h⟩
  rcases hu.2 (Bool.eq_false_of_not_eq_true hbad) (fun l => l.gPort.head ≠ l.gHead) (by simp only
    [List.mem_cons, true_or, or_true]) with ⟨w, hw, hno⟩
  exact ⟨w, hw, hw.2 ▸ not_not.mp (of_decide_eq_false hno)⟩

theorem expire_reach (now : Nat) :
    Spec (Reach R s h) (expire now) (fun st t =>
      if st = .ok then Reach R s (h.ticked now) t
      else Reach R s h t) := by
  refine spec_bind (clock_reach hR now) fun forward => ?_
  cases forward with
  | false =>
    refine spec_unless (fun t ht => ?_) (fun hno => absurd rfl hno)
    rw [if_neg (by decide)] at ht ⊢
    exact ht
  | true =>
    refine spec_ite nofun fun _ => ?_
    refine spec_bind (R := fun _ => Reach R s (h.ticked now))
      (spec_pre (fun t ht => (if_pos rfl ▸ ht : _ ∧ _).2)
        (editHost_reach (fun t ht => ?_)))
      (fun _ => spec_pure _ (fun t ht => ?_))
    · have hcalm : Calm io t _ := .expired t
      rw [ht] at hcalm ⊢
      exact hR _ _ hcalm rfl
    · rw [if_pos rfl]
      exact ht

end Primitives

section Dispatch

variable {t : Transport} {m : Message} {i : Fin maxPending}

theorem route_error {st : Status} (hroute : t.route m = .error st) :
    st = .corrupt ∨ st = .unknownCookie := by
  have hcorrupt : ∀ x : Status, (Except.error .corrupt : Except Status (Option (Fin maxPending)))
      = .error x → x = .corrupt ∨ x = .unknownCookie := by
    intro x hx
    cases hx
    exact Or.inl rfl
  unfold Transport.route at hroute
  split at hroute
  · exact hcorrupt _ hroute
  · split at hroute
    · dsimp only [Transport.routeEvent] at hroute
      split at hroute
      · cases hroute
      · split at hroute
        · exact hcorrupt _ hroute
        · split at hroute
          · exact hcorrupt _ hroute
          · split at hroute
            · exact hcorrupt _ hroute
            · cases hroute
    · unfold Transport.routeResponse at hroute
      split at hroute
      · exact hcorrupt _ hroute
      · split at hroute
        · exact hcorrupt _ hroute
        · split at hroute
          · cases hroute
            exact Or.inr rfl
          · split at hroute
            · exact hcorrupt _ hroute
            · split at hroute
              · exact hcorrupt _ hroute
              · cases hroute

theorem route_error_ne {st : Status} (hroute : t.route m = .error st) : st ≠ .ok := by
  rcases route_error hroute with rfl | rfl <;> decide

theorem settle_cases (t : Transport) (i : Fin maxPending) (m : Message) :
    ((t.pending i).terminalReceived = true ∧
        t.settle i m = (.corrupt, { t with broken := true })) ∨
      (t.pending i).terminalReceived = false ∧
        ((m.kind = 3 ∧ t.settle i m = (.ok, { t with
            pending := update t.pending i ((t.pending i).busied m) })) ∨
          (m.kind ≠ 3 ∧ (t.pending i).creditsHeld = true ∧
            (t.pending i).reservation > t.maxCredits - t.credits ∧
            t.settle i m = (.corrupt, { t with
              broken := true
              pending := update t.pending i { t.pending i with
                reply := { (t.pending i).reply with hxg := m.hxg } } })) ∨
          (m.kind ≠ 3 ∧ ((t.pending i).creditsHeld = true →
              (t.pending i).reservation ≤ t.maxCredits - t.credits) ∧
            t.settle i m = (.ok, { t with
              credits := if (t.pending i).creditsHeld = true
                         then t.credits + (t.pending i).reservation else t.credits
              pending := update t.pending i ((t.pending i).concluded m) }))) := by
  unfold Transport.settle
  by_cases hterm : (t.pending i).terminalReceived = true
  · exact Or.inl ⟨hterm, if_pos hterm⟩
  · refine Or.inr ⟨Bool.eq_false_of_not_eq_true hterm, ?_⟩
    dsimp only
    rw [if_neg hterm]
    by_cases hkind : m.kind = 3
    · exact Or.inl ⟨hkind, if_pos hkind⟩
    · rw [if_neg hkind]
      by_cases hover : (t.pending i).creditsHeld = true ∧
          (t.pending i).reservation > t.maxCredits - t.credits
      · simp [*]
      · refine Or.inr (Or.inr ⟨hkind, fun hheld => ?_, if_neg hover⟩)
        by_contra hgt
        exact hover ⟨hheld, by omega⟩

/-- What settling a reply leaves alone. -/
theorem settle_frame (t : Transport) (i : Fin maxPending) (m : Message) :
    (t.settle i m).2.gHead = t.gHead ∧ (t.settle i m).2.attached = t.attached ∧
      (t.settle i m).2.g2h = t.g2h ∧ (t.settle i m).2.broken
        = (if (t.settle i m).1 = .ok then t.broken else true) := by
  rcases settle_cases t i m with ⟨_, heq⟩ | ⟨_, ⟨_, heq⟩ | ⟨_, _, _, heq⟩ | ⟨_, _, heq⟩⟩ <;>
    rw [heq] <;> exact ⟨rfl, rfl, rfl, rfl⟩

/-- The table turns the message away. -/
def Transport.Rejected (t : Transport) (m : Message) : Prop :=
  (∃ st, t.route m = .error st) ∨ ∃ i, t.route m = .ok (some i) ∧ (t.settle i m).1 ≠ .ok

/-- The message was accepted: it is for no slot, or it was recorded in its
    slot. -/
def Transport.Took (t : Transport) (m : Message) (t' : Transport) : Prop :=
  t.route m = .ok none ∨ ∃ i, t.route m = .ok (some i) ∧ (t.settle i m).1 = .ok ∧
    t'.pending = (t.settle i m).2.pending ∧ t'.credits = (t.settle i m).2.credits

/-- A message that is turned away is not taken for no message. -/
theorem dispatch_ne_empty (m : Message) (s : World E) : (dispatch m s).1 ≠ .empty := by
  unfold dispatch
  rw [look_bind]
  cases hroute : s.obj.route m with
  | error st =>
    change st ≠ .empty
    rcases route_error hroute with rfl | rfl <;> decide
  | ok target =>
    cases target with
    | none => exact nofun
    | some i =>
      change (s.obj.settle i m).1 ≠ .empty
      rcases settle_cases s.obj.host i m with
        ⟨_, heq⟩ | ⟨_, ⟨_, heq⟩ | ⟨_, _, _, heq⟩ | ⟨_, _, heq⟩⟩ <;> rw [heq] <;> exact nofun

end Dispatch

section Messages

variable {io : Ops E} {R : World E → World E → Prop}
  {s : World E} {h : Transport} (hR : Allows io R)

include hR

/-- What a message does to the table: nothing, a reply recorded, or a break. -/
theorem dispatch_reach (m : Message) (hrun : h.Running) (hlen : m.count ≤ maxHxgWords) :
    Spec (Reach R s h) (dispatch m) (fun st t => ∃ h', Reach R s h' t ∧ h'.gHead = h.gHead ∧
      h'.g2h = h.g2h ∧ (st = .ok → h'.Running) ∧ (st ≠ .ok → h'.broken = true) ∧
      (h.Rejected m → st ≠ .ok) ∧ (st = .ok → h.Took m h')) := by
  intro t ht
  unfold dispatch
  rw [look_bind]
  have hhost := ht.2
  cases hroute : t.obj.route m with
  | error st =>
    have hne := route_error_ne hroute
    refine ⟨{ h with broken := true }, ?_, rfl, rfl, fun hok => absurd hok hne, fun _ => rfl,
      fun _ => hne, fun hok => absurd hok hne⟩
    exact ht.step (hR _ _ (.refused t m st (hhost ▸ hrun) hroute) (headless_heard rfl t.env))
      (by rw [← hhost]; rfl)
  | ok target =>
    rw [hhost] at hroute
    cases target with
    | none =>
      refine ⟨h, ht, rfl, rfl, fun _ => hrun, fun hne => absurd rfl hne, fun hrej => ?_,
        fun _ => .inl hroute⟩
      rcases hrej with ⟨st, hst⟩ | ⟨i, hi, _⟩
      · rw [hroute] at hst
        cases hst
      · rw [hroute] at hi
        cases hi
    | some i =>
      have hmove : Calm io t _ := .replied t m i (hhost ▸ hrun) hlen (hhost ▸ hroute)
      rcases settle_frame h i m with ⟨hhead, hatt, hring, hbroken⟩
      have hstatus : ∀ P : Status → Prop, P (t.obj.settle i m).1 → P (h.settle i m).1 :=
        fun P hp => hhost ▸ hp
      refine ⟨(h.settle i m).2, ?_, hhead, hring, fun hok => ?_, fun hne => ?_, fun hrej => ?_,
        fun hok => .inr ⟨i, hroute, hstatus (· = .ok) hok, rfl, rfl⟩⟩
      · exact ht.step (hR _ _ hmove (headless_heard rfl t.env)) (by rw [← hhost]; rfl)
      · rw [if_pos (hstatus (· = .ok) hok)] at hbroken
        exact ⟨hatt.trans hrun.1, hbroken.trans hrun.2⟩
      · simp [if_neg (hstatus (· ≠ .ok) hne), *]
      · change (t.obj.settle i m).1 ≠ .ok
        rw [hhost]
        rcases hrej with ⟨st, hst⟩ | ⟨j, hj, hne⟩
        · rw [hroute] at hst
          cases hst
        · rw [hroute] at hj
          cases hj
          exact hne

theorem misread_reach (header available : Nat) (hrun : h.Running) :
    Spec (Reach R s h) (misread header available)
      (fun r t => Reach R s { h with broken := true } t ∧ r.1 = .corrupt) := by
  intro t ht
  refine ⟨?_, rfl⟩
  exact ht.step (hR _ _ (.misread t header available (ht.2 ▸ hrun)) (headless_heard rfl t.env))
    (by rw [← ht.2]; rfl)

/-- Retiring empties at most one slot, and none that holds credits. -/
theorem retire_reach (c : Cookie) :
    Spec (Reach R s h) (retire c) (fun _ t => ∃ h', Reach R s h' t) := by
  intro t ht
  unfold retire
  rw [look_bind]
  split
  · exact ⟨h, ht⟩
  · cases t.obj.find c with
    | none => exact ⟨h, ht⟩
    | some i =>
      dsimp only
      split
      · exact ⟨h, ht⟩
      · rename_i hheld
        exact ⟨_, ht.step (hR _ _ (.retired t i (Bool.eq_false_of_not_eq_true hheld)) rfl) rfl⟩

end Messages

section Reading

variable {io : Ops E} {R : World E → World E → Prop}
  {s : World E} {h : Transport} {α : Type}

/-- `receive` up to the message, which `read` takes out. -/
def receiveBy (io : Ops E) (answer : Status → α) (read : Nat → Op E α) (epoch now : Nat) :
    Op E α := do
  let l ← look
  if epoch ≠ l.epoch then return answer .staleEpoch
  let s ← expire now
  if s ≠ .ok then return answer .invalid
  let s ← checkDescriptors io
  if s ≠ .ok then return answer s
  let tail ← readPort io fun l => l.gPort.tail
  let acquired ← askAcquire io
  if acquired = false then
    let s ← fault .ioFailure
    return answer s
  let l ← look
  let available := sub32 tail l.gHead &&& (l.g2h.count - 1)
  if available = 0 then return answer .empty
  read available

abbrev Link.available (l : Link) : Nat := sub32 l.gPort.tail l.gHead &&& (l.g2h.count - 1)

structure Reading (R : World E → World E → Prop) (s : World E) (h : Transport)
    (u : World E) : Prop where
  running : h.Running
  reach : Reach R s h u
  agreed : ∃ w, Reach R s h w ∧ w.obj.gPort.head = h.gHead

theorem receiveBy_spec (hR : Allows io R) {answer : Status → α}
    {read : Nat → Op E α} {Q : α → World E → Prop} (epoch now : Nat)
    (hstop : ∀ st h' t, Reach R s h' t → st ≠ .ok → st ≠ .empty →
      (st ≠ .corrupt ∧ st ≠ .unknownCookie ∨ h'.broken = true ∧ h'.gHead = h.gHead) →
      Q (answer st) t)
    (hrest : ∀ u e, Reading R s (h.ticked now) u →
      Reach R s (h.ticked now) (u.heard (.acquire true) e) →
      (u.obj.available = 0 → Q (answer .empty) (u.heard (.acquire true) e)) ∧
      (u.obj.available ≠ 0 →
        Spec (fun t => t = u.heard (.acquire true) e) (read u.obj.available) Q)) :
    Spec (Reach R s h) (receiveBy io answer read epoch now) Q := by
  refine spec_bind spec_look fun l => spec_pre (fun t ht => ht.1) ?_
  refine spec_guard (fun t ht => hstop _ h t ht nofun nofun (.inl ⟨nofun, nofun⟩)) ?_
  refine spec_bind (expire_reach hR now) fun st => spec_ite (fun hst => spec_pure _ fun t ht => ?_)
    fun hst => ?_
  · rw [if_neg hst] at ht
    exact hstop _ h t ht nofun nofun (.inl ⟨nofun, nofun⟩)
  have hst' : st = .ok := not_not.mp hst
  subst hst'
  refine spec_bind (spec_pre (fun t ht => (if_pos rfl).mp ht) (checkDescriptors_reach hR))
    fun st => spec_ite (fun hst => spec_pure _ fun t ht => ?_) fun hst => ?_
  · rcases ht.2 hst with ⟨hempty, ⟨hr, rfl | hbroken⟩ | hr⟩
    · exact hstop _ _ t hr hst hempty (.inl ⟨nofun, nofun⟩)
    · exact hstop _ _ t hr hst hempty (.inr ⟨hbroken, rfl⟩)
    · exact hstop _ _ t hr hst hempty (.inr ⟨rfl, rfl⟩)
  refine spec_each fun t ht => ?_
  rcases ht.1 (not_not.mp hst) with ⟨hrun, ht, hagreed⟩
  refine spec_at ht ?_
  refine spec_bind (readPort_value hR _) fun tail => spec_each fun u hu => ?_
  rcases hu with ⟨hu, rfl⟩
  have hheard : ∀ b e, Reach R s (h.ticked now)
      (u.heard (.acquire b) e) :=
    fun b e => hu.step (hR _ _ (.heard u _ e trivial) (headless_heard rfl e)) hu.2
  refine spec_bind (R := fun acquired v => ∃ e, v = u.heard (.acquire acquired) e)
    (spec_ask _ _ fun v acquired e hv => ⟨e, hv ▸ rfl⟩) fun acquired => ?_
  cases acquired with
  | false =>
    refine spec_ite (fun _ => ?_) fun hno => absurd rfl hno
    rintro v ⟨e, rfl⟩
    rcases fault_reach hR .ioFailure _ (hheard false e) with ⟨hst, hv⟩
    exact hstop .ioFailure _ _ hv nofun nofun (.inl ⟨nofun, nofun⟩)
  | true =>
    refine spec_ite (fun hno => absurd hno nofun) fun _ => spec_each fun v hv => ?_
    rcases hv with ⟨e, rfl⟩
    rcases hrest u e ⟨hrun, hu, hagreed⟩ (hheard true e) with ⟨hempty, hread⟩
    refine spec_bind_look (o := u.obj) (fun w hw => hw ▸ rfl) ?_
    exact spec_ite (fun hzero => spec_pure _ fun w hw => hw ▸ hempty hzero) hread

end Reading

section Receiving

variable {io : Ops E} {R : World E → World E → Prop}
  {s : World E} {h : Transport} (hR : ∀ s t, Calm io s t → R s t)

include hR

theorem headed : Allows io R := fun s t hcalm _ => hR s t hcalm

/-- What does not fit breaks the object, and what is received was accepted. -/
structure Upright (h : Transport) (r : Status × Message) (h' : Transport) : Prop where
  breaks : ((r.2.hxg ≠ [] ∧ h.Rejected r.2) ∨ r.1 = .corrupt ∨ r.1 = .unknownCookie) →
    h'.broken = true ∧ h'.gHead = h.gHead
  took : r.1 = .ok → h.Took r.2 h'

omit hR in
theorem upright_of_ne {h h' : Transport} {r : Status × Message} (hr : r.2.hxg = [])
    (hok : r.1 ≠ .ok) (hcorrupt : r.1 ≠ .corrupt) (hcookie : r.1 ≠ .unknownCookie) :
    Upright h r h' := by
  refine ⟨?_, fun h => absurd h hok⟩
  rintro (h | h | h)
  · exact absurd hr h.1
  · exact absurd h hcorrupt
  · exact absurd h hcookie

theorem finish_reach (m : Message) (hrun : h.Running) (hlen : m.count ≤ maxHxgWords) :
    Spec (Reach R s h) (finish io m) (fun r t => ∃ h', Reach R s h' t ∧ Upright h r h') := by
  refine spec_bind (dispatch_reach (headed hR) m hrun hlen) fun st => ?_
  refine spec_ite (fun hst => spec_pure _ (fun t ht => ?_)) fun hst => ?_
  · rcases ht with ⟨h', hreach, hhead, _, _, hbroken, _⟩
    exact ⟨h', hreach, fun _ => ⟨hbroken hst, hhead⟩, fun hok => absurd hok hst⟩
  · -- The message was taken, so only a failure to order memory is left.
    have hst' : st = .ok := not_not.mp hst
    refine spec_each fun t ht => ?_
    rcases ht with ⟨h', hreach, _, _, hrunning, _, hrej, htook⟩
    have hrun' := hrunning hst'
    have hdone : ∀ r : Status, r = .ok ∨ r = .ioFailure → ∀ u h'', Reach R s h'' u →
        h''.pending = h'.pending ∧ h''.credits = h'.credits →
        ∃ h'', Reach R s h'' u ∧ Upright h (r, m) h'' := by
      intro r hr u h'' hu hsame
      refine ⟨h'', hu, ?_, fun _ => (htook hst').imp_right ?_⟩
      case refine_2 =>
        rintro ⟨i, hroute, hok, hpending, hcredits⟩
        exact ⟨i, hroute, hok, hsame.1.trans hpending, hsame.2.trans hcredits⟩
      rintro (⟨_, h⟩ | h | h)
      · exact absurd hst' (hrej h)
      · change r = .corrupt at h
        rcases hr with hr | hr <;> rw [hr] at h <;> cases h
      · change r = .unknownCookie at h
        rcases hr with hr | hr <;> rw [hr] at h <;> cases h
    refine spec_at hreach ?_
    refine spec_bind (callback_reach (headed hR) _ _ (fun _ => trivial)) fun ordered => ?_
    refine spec_ite (fun _ => spec_bind (fault_reach (headed hR) _)
      (fun r => spec_pure _ (fun u hu => ?_)))
      fun _ => ?_
    · exact hdone r (Or.inr hu.1) u _ hu.2 ⟨rfl, rfl⟩
    refine spec_bind spec_look (fun l => spec_bind (R := fun _ u => ∃ h'', Reach R s h'' u ∧
      h''.pending = h'.pending ∧ h''.credits = h'.credits) (spec_pre (fun u hu => hu.1) ?_)
      (fun _ => ?_))
    · refine spec_bind (turn_reach (headed hR)) fun _ => ?_
      intro u hu
      refine ⟨_, hu.step (hR _ _ (.consumed u _ (hu.2 ▸ hrun'))) rfl, ?_⟩
      rw [← hu.2]
      exact ⟨rfl, rfl⟩
    · refine spec_each fun u hu => ?_
      rcases hu with ⟨h'', hu, hsame⟩
      refine spec_at hu ?_
      refine spec_bind (callback_reach (headed hR) _ _ (fun _ => trivial)) fun ordered => ?_
      refine spec_ite (fun _ => spec_bind (fault_reach (headed hR) _)
        (fun r => spec_pure _ (fun v hv => ?_))) (fun _ => spec_pure _ (fun v hv => ?_))
      · exact hdone r (Or.inr hv.1) v _ hv.2 hsame
      · exact hdone _ (Or.inl rfl) v _ hv hsame

theorem readMessage_reach (available : Nat) (hrun : h.Running) :
    Spec (Reach R s h) (readMessage io available) (fun r t =>
      ∃ h', Reach R s h' t ∧ Upright h r h') := by
  refine spec_bind spec_look (fun l => spec_bind (spec_pre (fun t ht => ht.1)
    (readPort_reach (headed hR) _)) (fun header => ?_))
  refine spec_ite (fun _ => spec_post (misread_reach (headed hR) _ _ hrun) (fun r t ht => ?_))
    fun _ => ?_
  · exact ⟨_, ht.1, fun _ => ⟨rfl, rfl⟩, fun hok => absurd (ht.2.symm.trans hok) nofun⟩
  · refine spec_bind (readAll_value (headed hR) _) (fun hxg => spec_given (fun hread => ?_))
    -- The length fits eight bits.
    have hcount : Message.count ⟨(header >>> 16) % 2 ^ 16, hxg⟩ ≤ maxHxgWords := by
      change hxg.length ≤ 255
      rw [← hread.length_eq, List.length_map, List.length_range]
      exact Nat.and_le_right
    exact finish_reach hR _ hrun hcount

theorem receive_reach (epoch now : Nat) :
    Spec (Reach R s h) (receive io epoch now) (fun r t => ∃ h', Reach R s h' t ∧
      Upright (h.ticked now) r h') := by
  have hquiet : ∀ (h' : Transport) (r : Status), r ≠ .ok → r ≠ .corrupt → r ≠ .unknownCookie →
      Upright (h.ticked now) (r, Message.empty) h' :=
    fun h' r hok hcorrupt hcookie => upright_of_ne rfl hok hcorrupt hcookie
  refine receiveBy_spec (headed hR) epoch now (fun st h' t ht hok _ hst => ⟨h', ht, ?_⟩)
    fun u e hu hv => ⟨fun _ => ⟨_, hv, hquiet _ _ nofun nofun nofun⟩, fun _ => ?_⟩
  · rcases hst with ⟨hcorrupt, hcookie⟩ | hbroken
    · exact hquiet h' st hok hcorrupt hcookie
    · exact ⟨fun _ => hbroken, fun h => absurd h hok⟩
  · exact spec_at hv (readMessage_reach hR _ hu.running)

end Receiving

section Sending

variable {io : Ops E} {R : World E → World E → Prop} {s : World E}
  {h : Transport}

abbrev Path (io : Ops E) := Reach (Move io)

/-- No cookie, slot or credit was used. -/
structure Kept (h h' : Transport) : Prop where
  pending : h'.pending = h.pending
  nextFence : h'.nextFence = h.nextFence
  credits : h'.credits = h.credits

/-- What `send` has checked before it fills a slot in. -/
structure Sendable (h : Transport) (a : Action) (slot : Fin maxPending) : Prop where
  running : h.Running
  valid : validateAction a = .ok
  fence : h.nextFence < 0x8000
  scan : h.scan a = .ok slot

variable (hR : ∀ s t, Move io s t → Headless s t → R s t) {a : Action} {slot : Fin maxPending}

include hR

theorem calm_move : Allows io R := fun s t hcalm => hR s t (.calm hcalm)

theorem storeAll_reach (hrun : h.Running) (vs : List Nat) :
    ∀ i, Spec (Reach R s h) (storeAll io i vs) (fun _ => Reach R s h) := by
  induction vs with
  | nil => exact fun i => spec_pure () (fun _ ht => ht)
  | cons v vs ih =>
    intro i
    refine spec_bind ?_ (fun _ => ih (i + 1))
    refine spec_bind (turn_reach (calm_move hR)) fun _ => ?_
    intro t ht
    exact ht.step (hR _ _ (.wrote t i v (ht.2 ▸ hrun)) (headless_heard rfl t.env)) ht.2

theorem publishTail_reach (hrun : h.Running) (tail : Nat) (m : Option Message) :
    Spec (Reach R s h) (publishTail io tail m) (fun _ => Reach R s { h with hTail := tail }) := by
  refine spec_bind (turn_reach (calm_move hR)) fun _ => ?_
  intro t ht
  exact ht.step (hR _ _ (.published t tail m (ht.2 ▸ hrun)) (headless_heard rfl t.env))
    (by rw [← ht.2]; rfl)

theorem fillSlot_reach (hsend : Sendable h a slot) (deadline : Nat) :
    Spec (Reach R s h) (fillSlot slot a deadline)
      (fun c t => c = h.nextCookie a ∧ Reach R s (h.issue slot a deadline) t) := by
  intro t ht
  have hhost := ht.2
  subst hhost
  exact ⟨rfl, ht.step (hR _ _ (.issued t slot a deadline hsend.running hsend.valid hsend.fence
    hsend.scan) (headless_heard rfl t.env)) rfl⟩

/-- Filling a slot in and sending is never reported as busy. -/
theorem place_reach (hsend : Sendable h a slot) (deadline : Nat) :
    Spec (Reach R s h) (place io a deadline slot) (fun r t => r.1 ≠ .busy ∧
      ∃ h', Reach R s h' t) := by
  refine spec_bind (fillSlot_reach hR hsend deadline) fun c => ?_
  have hrun' : (h.issue slot a deadline).Running := hsend.running
  refine spec_bind spec_look fun l => ?_
  refine spec_pre (fun t ht => ht.1.2) ?_
  refine spec_bind (storeAll_reach hR hrun' _ _) fun _ => ?_
  refine spec_bind (callback_reach (calm_move hR) _ _ (fun _ => trivial)) fun ordered => ?_
  refine spec_ite (fun _ => spec_bind (fault_reach (calm_move hR) _)
    (fun r => spec_pure _ (fun t ht => ?_))) (fun _ => ?_)
  · exact ⟨ht.1 ▸ nofun, _, ht.2⟩
  refine spec_bind (publishTail_reach hR hrun' _ _) fun _ => ?_
  refine spec_bind (announce_reach (calm_move hR)) fun announced => ?_
  refine spec_ite (fun _ => spec_bind (fault_reach (calm_move hR) _)
    (fun r => spec_pure _ (fun t ht => ?_))) (fun _ => spec_pure _ (fun t ht => ?_))
  · exact ⟨ht.1 ▸ nofun, _, ht.2⟩
  · exact ⟨nofun, _, ht⟩

/-- Padding moves the tail to the start, or breaks the object. -/
theorem pad_reach (hrun : h.Running) :
    Spec (Reach R s h) (pad io) (fun ok t =>
      if ok = true then Reach R s { h with hTail := 0 } t else ∃ h', Reach R s h' t) := by
  have hfail : ∀ h₀ : Transport, Spec (Reach R s h₀) (do
      let _ ← fault .ioFailure
      return false : Op E Bool) (fun ok t =>
      if ok = true then Reach R s { h with hTail := 0 } t else ∃ h', Reach R s h' t) := by
    intro h₀
    refine spec_bind (fault_reach (calm_move hR) _) (fun r => spec_pure _ (fun t ht => ?_))
    rw [if_neg (by decide)]
    exact ⟨_, ht.2⟩
  refine spec_bind spec_look (fun l => spec_pre (fun t ht => ht.1) ?_)
  refine spec_bind (storeAll_reach hR hrun _ _) fun _ => ?_
  refine spec_bind (callback_reach (calm_move hR) _ _ (fun _ => trivial)) fun ordered => ?_
  refine spec_ite (fun _ => hfail h) fun _ => ?_
  refine spec_bind (publishTail_reach hR hrun _ _) fun _ => ?_
  refine spec_bind (announce_reach (calm_move hR)) fun announced => ?_
  refine spec_ite (fun _ => hfail _) (fun _ => spec_pure _ (fun t ht => ?_))
  rw [if_pos rfl]
  exact ht

theorem sendAt_reach (hsend : Sendable h a slot) (deadline : Nat) :
    Spec (Reach R s h) (sendAt io a deadline slot) (fun r t =>
      ∃ h', Reach R s h' t ∧ (r.1 = .busy → Kept h h')) := by
  refine spec_bind (readPort_reach (calm_move hR) _) fun head => ?_
  refine spec_bind spec_look (fun l => spec_pre (fun t ht => ht.1) ?_)
  refine spec_guard (fun t ht => ⟨h, ht, fun _ => ⟨rfl, rfl, rfl⟩⟩) ?_
  have hplaced : ∀ r : Status × Cookie, ∀ t, (r.1 ≠ .busy ∧ ∃ h', Reach R s h' t) →
      ∃ h', Reach R s h' t ∧ (r.1 = .busy → Kept h h') := by
    intro r t ht
    rcases ht with ⟨hne, h', hpath⟩
    exact ⟨h', hpath, fun hbusy => absurd hbusy hne⟩
  refine spec_ite (fun _ => ?_)
    (fun _ => spec_post (place_reach hR hsend deadline) hplaced)
  refine spec_bind (pad_reach hR hsend.running) fun padded => ?_
  cases padded with
  | false =>
    refine spec_unless (fun t ht => ?_) (fun hno => absurd rfl hno)
    rw [if_neg (by decide)] at ht
    rcases ht with ⟨h', ht⟩
    exact ⟨h', ht, nofun⟩
  | true =>
    refine spec_ite nofun fun _ => ?_
    refine spec_pre (fun t ht => (if_pos rfl).mp ht) ?_
    -- The table is as it was: only the tail has moved.
    refine spec_guard (fun t ht => ⟨_, ht, fun _ => ⟨rfl, rfl, rfl⟩⟩) ?_
    exact spec_post (place_reach (h := { h with hTail := 0 }) hR
      ⟨hsend.running, hsend.valid, hsend.fence, hsend.scan⟩ deadline) hplaced

/-- Sending is a path of moves, and uses nothing up when busy. -/
theorem send_reach (a : Action) (now deadline : Nat) :
    Spec (Reach R s h) (send io a now deadline) (fun r t =>
      ∃ h', Reach R s h' t ∧ (r.1 = .busy → Kept h h')) := by
  refine spec_unless (fun t ht => ⟨h, ht, nofun⟩) fun hargs => ?_
  have hvalid : validateAction a = .ok := not_not.mp fun hne => hargs (Or.inl hne)
  refine spec_bind (clock_reach (calm_move hR) now) fun forward => ?_
  cases forward with
  | false =>
    refine spec_unless (fun t ht => ?_) (fun hno => absurd rfl hno)
    rw [if_neg (by decide)] at ht
    exact ⟨h, ht, nofun⟩
  | true =>
    refine spec_ite nofun fun _ => ?_
    refine spec_bind (spec_pre (fun t ht => ((if_pos rfl).mp ht).2)
      (checkDescriptors_reach (calm_move hR))) (fun st => ?_)
    refine spec_ite (fun hst => spec_pure _ (fun t ht => ?_)) fun hst => ?_
    · rcases ht.2 hst with ⟨_, ⟨ht, _⟩ | ht⟩ <;> exact ⟨_, ht, fun _ => ⟨rfl, rfl, rfl⟩⟩
    refine spec_each fun t ht => spec_bind_look_at ?_
    rcases ht.1 (not_not.mp hst) with ⟨hrun, ht, _⟩
    rw [ht.2]
    refine spec_at ht ?_
    refine spec_bind (callback_reach (calm_move hR) _ _ (fun _ => trivial)) fun ok => ?_
    refine spec_guard (fun u hu => ⟨_, hu, nofun⟩) ?_
    refine spec_unless (fun u hu => ⟨_, hu, nofun⟩) fun hfence => ?_
    cases hscan : Transport.scan { h with lastTime := now } a with
    | error e => exact spec_pure _ (fun u hu => ⟨_, hu, fun _ => ⟨rfl, rfl, rfl⟩⟩)
    | ok slot =>
      refine spec_post (sendAt_reach hR ⟨hrun, hvalid, by omega, hscan⟩ deadline)
        fun r u hu => ?_
      rcases hu with ⟨h', hpath, hkept⟩
      exact ⟨h', hpath, fun hbusy => ⟨(hkept hbusy).1, (hkept hbusy).2, (hkept hbusy).3⟩⟩

theorem attach_reach (h₁ g : Ring) (complete : Bool) (epoch : Nat) (f : MellowXe.FirmwareInfo) :
    Spec (Reach R s h) (attach io h₁ g complete epoch f) (fun _ t => ∃ h', Reach R s h' t) := by
  refine spec_each fun t ht => spec_bind_look_at ?_
  rw [ht.2]
  refine spec_at ht ?_
  have hstay : ∀ u : World E, Reach R s h u → ∃ h', Reach R s h' u :=
    fun u hu => ⟨h, hu⟩
  refine spec_unless hstay fun hargs => ?_
  refine spec_guard hstay ?_
  refine spec_bind (callback_reach (calm_move hR) _ _ (fun _ => trivial)) fun admitted => ?_
  refine spec_guard hstay ?_
  refine spec_bind (callback_reach (calm_move hR) _ _ (fun _ => trivial)) fun acquired => ?_
  refine spec_guard hstay ?_
  refine spec_bind (anyOf_value (calm_move hR) _) (fun bad => spec_pre (fun _ hu => hu.1) ?_)
  refine spec_guard hstay ?_
  simp only [not_or, not_not] at hargs
  rcases hargs with ⟨hnew, hepoch, hvalid, _⟩
  refine spec_bind (editHost_reach (fun u hu => ?_)) (fun _ => spec_pure _ (fun u hu => ⟨_, hu⟩))
  exact hR _ _ (.attached u h₁ g epoch (hu ▸ Bool.eq_false_of_not_eq_true hnew) hepoch hvalid) rfl

end Sending

section Runs

variable {io : Ops E}

theorem step_moves (c : Call) (s : World E) :
    Relation.ReflTransGen (Move io) s (step io c s).2 := by
  have hstart : Path io s s.obj.host s := ⟨.refl, rfl⟩
  cases c with
  | attach h g complete epoch f =>
    rcases attach_reach (fun _ _ hm _ => hm) h g complete epoch f s hstart with ⟨_, hpath⟩
    exact hpath.1
  | send a now deadline =>
    rcases send_reach (fun _ _ hm _ => hm) a now deadline s hstart with ⟨_, hpath, _⟩
    exact hpath.1
  | receive epoch now =>
    rcases receive_reach (fun _ _ hc => .calm hc) epoch now s hstart with ⟨_, hpath, _⟩
    exact hpath.1
  | expire now =>
    have hpath := expire_reach (fun _ _ hc _ => .calm hc) now s hstart
    dsimp only at hpath
    split at hpath <;> exact hpath.1
  | retire c =>
    rcases retire_reach (fun _ _ hc _ => .calm hc) c s hstart with ⟨_, hpath⟩
    exact hpath.1

theorem run_moves (calls : List Call) (s : World E) :
    Relation.ReflTransGen (Move io) s (run io calls s).2 :=
  spec_runAll (P := Relation.ReflTransGen (Move io) s) (step io)
    (fun c t ht => ht.trans (step_moves c t)) calls s .refl

end Runs

end Mellow.XeGuC
