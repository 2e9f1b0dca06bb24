import Mathlib.Data.Nat.Bitwise
import Mellow.Lib.Slots
import Mellow.Xe.GuC.Moves

/-!
# The Table of Pending Replies

What every slot looks like, in every state the transport can reach. A slot in
use holds credits exactly when it reserved some and has not had its final reply,
and is late exactly when that came after it had timed out. An unused slot is
empty.

## Main definitions

* `Effect`: a move leaves the table alone, or is one of the five that change it.
* `Slot`: what a slot looks like.
* `Table`: what the table looks like.

## Theorems

* `move_effect`: every move has an effect.
* `move_table`: the moves keep the table.
-/

namespace Mellow.XeGuC

open Lib Function

variable {E : Type}

section Effects

/-- The line neither fills a slot in nor records a reply. -/
def Event.Plain : Event → Prop
  | .issued .. | .replied .. => False
  | _ => True

/-- The table and everything that goes with it is as it was. -/
structure Frame (s t : World E) : Prop where
  pending : t.obj.pending = s.obj.pending
  credits : t.obj.credits = s.obj.credits
  maxCredits : t.obj.maxCredits = s.obj.maxCredits
  nextFence : t.obj.nextFence = s.obj.nextFence
  epoch : t.obj.epoch = s.obj.epoch
  attached : t.obj.attached = s.obj.attached
  g2h : t.obj.g2h = s.obj.g2h
  log : t.log = s.log ∨ ∃ ev, ev.Plain ∧ t.log = ⟨s.obj, ev⟩ :: s.log

inductive Effect (s t : World E) : Prop where
  | frame (h : Frame s t)
  | expired (h : t = setHost s (s.obj.expired s.obj.lastTime))
  | retired (i : Fin maxPending) (hheld : (s.obj.pending i).creditsHeld = false)
      (h : t = setHost s { s.obj.host with
        pending := update s.obj.pending i Pending.empty })
  | replied (m : Message) (i : Fin maxPending) (hrun : s.obj.Running)
      (hlen : m.count ≤ maxHxgWords) (hroute : s.obj.route m = .ok (some i))
      (h : t = setHost (s.heard (.replied i m (s.obj.settle i m).1) s.env)
        (s.obj.settle i m).2)
  | attached (h₁ g : Ring) (epoch : Nat) (hnew : s.obj.attached = false)
      (hvalid : ringsValid h₁ g) (h : t = setHost s (s.obj.attachedTo h₁ g epoch))
  | issued (slot : Fin maxPending) (a : Action) (deadline : Nat) (hrun : s.obj.Running)
      (hvalid : validateAction a = .ok) (hfence : s.obj.nextFence < 0x8000)
      (hscan : s.obj.scan a = .ok slot)
      (h : t = setHost (s.heard (.issued slot (s.obj.nextCookie a) a.reserve) s.env)
        (s.obj.issue slot a deadline))

variable {io : Ops E} {s t : World E}

/-- The peer leaves a line when it takes a unit, and no other. -/
theorem peer_log (x : PeerMove) (s : World E) :
    (peerMove x s).2.log = s.log ∨ ∃ u, (peerMove x s).2.log = ⟨s.obj, unitEvent u⟩ :: s.log := by
  cases x with
  | take =>
    change (peerTake s).2.log = s.log ∨ ∃ u, (peerTake s).2.log = _
    rcases peerTake_cases s with ⟨_, heq⟩ | ⟨u, p, _, heq⟩ <;> rw [heq]
    · exact Or.inl rfl
    · exact Or.inr ⟨u, rfl⟩
  | h2gStatus | g2h | corrupt => exact Or.inl rfl

theorem peer_frame (x : PeerMove) (s : World E) : Frame s (peerMove x s).2 := by
  have hhost := peerMove_host x s
  have hlog : (peerMove x s).2.log = s.log ∨
      ∃ ev, Event.Plain ev ∧ (peerMove x s).2.log = ⟨s.obj, ev⟩ :: s.log := by
    rcases peer_log x s with heq | ⟨u, heq⟩
    · exact Or.inl heq
    · exact Or.inr ⟨unitEvent u, by cases u <;> trivial, heq⟩
  constructor <;> first | rw [hhost] | exact hlog

/-- Only five kinds of moves change the table. -/
theorem move_effect (hmove : Move io s t) : Effect s t := by
  have hsame : ∀ ev : Event, ev.Plain → (⟨s.obj, ev⟩ :: s.log : Log) = s.log ∨
      ∃ ev', Event.Plain ev' ∧ (⟨s.obj, ev⟩ :: s.log : Log)
        = ⟨s.obj, ev'⟩ :: s.log :=
    fun ev hev => Or.inr ⟨ev, hev, rfl⟩
  cases hmove with
  | calm hcalm =>
    cases hcalm with
    | drew e => exact .frame ⟨rfl, rfl, rfl, rfl, rfl, rfl, rfl, Or.inl rfl⟩
    | heard ev e hev =>
      have hplain : ev.Plain := by
        cases ev <;> trivial
      exact .frame ⟨rfl, rfl, rfl, rfl, rfl, rfl, rfl, hsame ev hplain⟩
    | peer x _ => exact .frame (peer_frame x s)
    | ticked | broke => exact .frame ⟨rfl, rfl, rfl, rfl, rfl, rfl, rfl, Or.inl rfl⟩
    | expired => exact .expired rfl
    | retired i hheld => exact .retired i hheld rfl
    | misread header available _ =>
      exact .frame ⟨rfl, rfl, rfl, rfl, rfl, rfl, rfl, hsame (.misread header available) trivial⟩
    | refused m st _ _ =>
      exact .frame ⟨rfl, rfl, rfl, rfl, rfl, rfl, rfl, hsame (.refused m st) trivial⟩
    | replied m i hrun hlen hroute => exact .replied m i hrun hlen hroute rfl
    | consumed head _ =>
      exact .frame ⟨rfl, rfl, rfl, rfl, rfl, rfl, rfl, hsame (.consumed head) trivial⟩
  | attached h₁ g epoch hnew _ hvalid => exact .attached h₁ g epoch hnew hvalid rfl
  | issued slot a deadline hrun hvalid hfence hscan =>
    exact .issued slot a deadline hrun hvalid hfence hscan rfl
  | wrote i v _ =>
    exact .frame ⟨rfl, rfl, rfl, rfl, rfl, rfl, rfl, hsame (.wrote i v) trivial⟩
  | published tail m _ =>
    exact .frame ⟨rfl, rfl, rfl, rfl, rfl, rfl, rfl, hsame (.published tail m) trivial⟩

end Effects

section Cookies

variable {t : Transport}

/-- The number of a cookie: its fence without the request bit. -/
def Cookie.index (c : Cookie) : Nat := c.fence % 0x8000

theorem nextCookie_fence (a : Action) (h : t.nextFence < 0x8000) :
    (t.nextCookie a).fence = if a.Request then t.nextFence else t.nextFence + 0x8000 := by
  unfold Transport.nextCookie
  dsimp only
  by_cases hreq : a.Request
  · rw [if_pos hreq, if_pos hreq, Nat.or_zero, Nat.mod_eq_of_lt (by omega)]
  · have hor := Nat.two_pow_add_eq_or_of_lt (i := 15) h 1
    rw [if_neg hreq, if_neg hreq, Nat.or_comm]
    rw [show (2 : Nat) ^ 15 * 1 = 0x8000 from rfl] at hor
    rw [← hor, Nat.mod_eq_of_lt (by omega), Nat.add_comm]

theorem nextCookie_index (a : Action) (h : t.nextFence < 0x8000) :
    (t.nextCookie a).index = t.nextFence := by
  unfold Cookie.index
  rw [nextCookie_fence a h]
  split <;> omega

/-- The request bit of a new cookie is clear for requests only. -/
theorem nextCookie_fast (a : Action) (h : t.nextFence < 0x8000) :
    (t.nextCookie a).fence &&& 0x8000 = 0 ↔ a.Request := by
  rw [nextCookie_fence a h, show 0x8000 = 2 ^ 15 from rfl, Nat.and_two_pow]
  by_cases hreq : a.Request
  · rw [if_pos hreq, Nat.testBit_lt_two_pow h]
    simp only [Bool.toNat_false, Nat.zero_mul, hreq]
  · rw [if_neg hreq, Nat.add_comm, Nat.testBit_two_pow_add_eq, Nat.testBit_lt_two_pow h]
    simp only [Bool.not_false, Bool.toNat_true, Nat.one_mul, hreq, iff_false]
    decide

end Cookies

section Routing

variable {t : Transport} {m : Message} {i : Fin maxPending}

/-- The event or the response that the slot waits for. -/
inductive Matches (t : Transport) (m : Message) (i : Fin maxPending) : Prop where
  | event (hkind : m.kind = 1) (hheld : (t.pending i).creditsHeld = true)
      (hcode : m.word 0 &&& 0xffff = 0x1002 ∨ m.word 0 &&& 0xffff = 0x4600)
      (hcontext : (t.pending i).context = m.word 1)
      (haction : (t.pending i).action = answeredBy (m.word 0 &&& 0xffff))
      (hmode : m.word 0 &&& 0xffff = 0x1002 → (t.pending i).mode = m.word 2)
      (hcount : m.count = eventCount (m.word 0 &&& 0xffff))
  | response (hkind : m.kind = 3 ∨ m.kind = 5 ∨ m.kind = 6 ∨ m.kind = 7)
      (hcookie : (t.pending i).cookie = ⟨t.epoch, m.fence⟩)
      (hcount : m.kind ≠ 7 → m.count = 1) (hfast : m.fence &&& 0x8000 ≠ 0 → m.kind = 6)
      (hrequest : m.fence &&& 0x8000 = 0 → (t.pending i).creditsHeld = true)

theorem find_some {c : Cookie} (h : t.find c = some i) :
    (t.pending i).used = true ∧ (t.pending i).cookie = c := by
  have := List.find?_some h
  simpa only [decide_eq_true_eq] using this

theorem awaiting_some {context action : Nat} (h : t.awaiting context action = some i) :
    (t.pending i).used = true ∧ (t.pending i).creditsHeld = true ∧
      (t.pending i).context = context ∧ (t.pending i).action = action := by
  have hmem := List.mem_of_getLast? h
  simpa only [List.mem_filter, decide_eq_true_eq] using (List.mem_filter.mp hmem).2

theorem routeEvent_some (hkind : m.kind = 1) (h : t.routeEvent m = .ok (some i)) :
    (t.pending i).used = true ∧ Matches t m i := by
  dsimp only [Transport.routeEvent] at h
  split at h
  · cases h
  · rename_i hcode
    split at h
    · cases h
    · rename_i hform
      split at h
      · cases h
      · rename_i j hj
        split at h
        · cases h
        · rename_i hmode
          cases h
          rcases awaiting_some hj with ⟨hused, hheld, hcontext, haction⟩
          simp only [not_or, not_not] at hform
          refine ⟨hused, .event hkind hheld ?_ hcontext haction (fun h => ?_) hform.2.1⟩
          · by_contra hno
            exact hcode (not_or.mp hno)
          · omega

theorem routeResponse_some (h : t.routeResponse m = .ok (some i)) :
    (t.pending i).used = true ∧ Matches t m i := by
  unfold Transport.routeResponse at h
  split at h
  · cases h
  · rename_i hkind
    split at h
    · cases h
    · rename_i hcount
      split at h
      · cases h
      · rename_i j hj
        split at h
        · cases h
        · rename_i hfast
          split at h
          · cases h
          · rename_i hrequest
            cases h
            rcases find_some hj with ⟨hused, hcookie⟩
            refine ⟨hused, .response ?_ hcookie (fun h => ?_) (fun h => ?_) (fun h => ?_)⟩
            · omega
            · by_contra hne
              exact hcount ⟨h, hne⟩
            · by_contra hne
              exact hfast ⟨h, hne⟩
            · by_contra hne
              exact hrequest ⟨h, Bool.eq_false_of_not_eq_true hne⟩

theorem route_matches (h : t.route m = .ok (some i)) :
    (t.pending i).used = true ∧ Matches t m i := by
  unfold Transport.route at h
  split at h
  · cases h
  · split at h
    · rename_i hkind
      exact routeEvent_some hkind h
    · exact routeResponse_some h

theorem scan_ok {a : Action} {slot : Fin maxPending} (h : t.scan a = .ok slot) :
    (t.pending slot).used = false ∧
      (¬ a.Request → ∀ i, ¬ Transport.Transition (t.pending i) (a.words 1)) ∧
      (a.reserve ≠ 0 → a.reserve < t.credits) := by
  unfold Transport.scan at h
  split at h
  · cases h
  · rename_i hclear
    split at h
    · cases h
    · rename_i j hj
      split at h
      · cases h
      · rename_i hcredits
        cases h
        have hmem := List.mem_of_getLast? hj
        refine ⟨?_, fun hreq i hi => hclear ⟨hreq, i, hi⟩, fun hne => ?_⟩
        · simpa only [decide_eq_true_eq] using (List.mem_filter.mp hmem).2
        · omega

end Routing

section Invariant

variable {p : Pending} {i : Fin maxPending} {m : Message}

/-- The reservation that goes with an action. -/
def reserveFor (action : Nat) : Nat :=
  if action = 0x4000 then 256 else if action = 0x1001 then 4 else if action = 0x4503 then 3 else 0

theorem three_le_reserveFor {action : Nat} (h : reserveFor action ≠ 0) :
    3 ≤ reserveFor action := by
  unfold reserveFor at h ⊢
  split_ifs at h ⊢ <;> omega

theorem reserve_eq (a : Action) : a.reserve = reserveFor (a.words 0) := rfl

structure Slot (t : Transport) (p : Pending) : Prop where
  reserved : p.reservation = reserveFor p.action
  held : p.creditsHeld = true → p.reservation ≠ 0
  waiting : p.reservation ≠ 0 → (p.creditsHeld = true ↔ p.terminalReceived = false)
  request : p.cookie.fence &&& 0x8000 = 0 ↔ p.action = 0x4000
  epoch : p.cookie.epoch = t.epoch
  index : p.cookie.index < t.nextFence
  timed : p.state = .timedOut → p.reservation ≠ 0 ∧
    (p.terminalReceived = true → p.late = true)
  late : p.late = true → p.state = .timedOut ∧ p.terminalReceived = true

def heldBy (p : Pending) : Nat := if p.creditsHeld = true then p.reservation else 0

/-- The table is in order. -/
structure Table (t : Transport) : Prop where
  slots : ∀ i, (t.pending i).used = true → Slot t (t.pending i)
  idle : ∀ i, (t.pending i).used = false → t.pending i = Pending.empty
  distinct : ∀ i j, (t.pending i).used = true → (t.pending j).used = true →
    (t.pending i).cookie = (t.pending j).cookie → i = j
  exclusive : ∀ c i j, Transport.Transition (t.pending i) c →
    Transport.Transition (t.pending j) c → i = j
  balanced : t.credits + tally heldBy t.pending = t.maxCredits
  detached : t.attached = false → t.nextFence = 0 ∧ t.credits = t.maxCredits ∧
    ∀ i, (t.pending i).used = false
  sized : t.attached = true → t.maxCredits = t.g2h.count - 1 - t.g2h.count / 2

/-- The slot is for the same action, with the same cookie. -/
structure Alike (p p' : Pending) : Prop where
  used : p'.used = p.used
  cookie : p'.cookie = p.cookie
  action : p'.action = p.action
  context : p'.context = p.context
  empty : p.used = false → p' = p
  held : p'.creditsHeld = true → p.creditsHeld = true

theorem Alike.refl (p : Pending) : Alike p p :=
  ⟨rfl, rfl, rfl, rfl, fun _ => rfl, fun h => h⟩

variable {t t' : Transport}

/-- A change of what is known about replies, and of nothing else. -/
theorem Table.alike (h : Table t) (hall : ∀ i, Alike (t.pending i) (t'.pending i))
    (hslots : ∀ i, (t'.pending i).used = true → Slot t' (t'.pending i))
    (hbalanced : t'.credits + tally heldBy t'.pending = t'.maxCredits)
    (hmax : t'.maxCredits = t.maxCredits) (hnext : t'.nextFence = t.nextFence)
    (hatt : t'.attached = t.attached) (hring : t'.g2h = t.g2h)
    (hcredits : t'.attached = false → t'.credits = t.credits) : Table t' where
  slots := hslots
  idle i hi := by
    have hold := (hall i).used ▸ hi
    rw [(hall i).empty hold]
    exact h.idle i hold
  distinct i j hi hj hc := by
    rw [(hall i).used] at hi
    rw [(hall j).used] at hj
    rw [(hall i).cookie, (hall j).cookie] at hc
    exact h.distinct i j hi hj hc
  exclusive c i j hi hj := by
    have hback : ∀ k, Transport.Transition (t'.pending k) c →
        Transport.Transition (t.pending k) c := by
      intro k hk
      rcases hk with ⟨hused, hheld, hcontext, haction⟩
      exact ⟨(hall k).used ▸ hused, (hall k).held hheld, (hall k).context ▸ hcontext,
        (hall k).action ▸ haction⟩
    exact h.exclusive c i j (hback i hi) (hback j hj)
  balanced := hbalanced
  detached hd := by
    have hd' := hatt ▸ hd
    rcases h.detached hd' with ⟨hzero, hfull, hunused⟩
    refine ⟨hnext.trans hzero, ?_, fun i => (hall i).used.trans (hunused i)⟩
    rw [hcredits hd, hfull, hmax]
  sized ha := by
    rw [hmax, hring]
    exact h.sized (hatt ▸ ha)

theorem Slot.mono (h : Slot t p) (hepoch : t'.epoch = t.epoch)
    (hnext : t.nextFence ≤ t'.nextFence) : Slot t' p :=
  { h with epoch := h.epoch.trans hepoch.symm, index := Nat.lt_of_lt_of_le h.index hnext }

theorem expired_pending (t : Transport) (now : Nat) (i : Fin maxPending) :
    (t.expired now).pending i = t.pending i ∨
      (Transport.Overdue now (t.pending i) ∧ (t.expired now).pending i
        = { t.pending i with state := .timedOut }) := by
  change (if Transport.Overdue now (t.pending i) then _ else t.pending i : Pending) = _ ∨
    _ ∧ (if Transport.Overdue now (t.pending i) then _ else t.pending i : Pending) = _
  by_cases hover : Transport.Overdue now (t.pending i)
  · exact Or.inr ⟨hover, if_pos hover⟩
  · exact Or.inl (if_neg hover)

theorem expired_alike (t : Transport) (now : Nat) (i : Fin maxPending) :
    Alike (t.pending i) ((t.expired now).pending i) := by
  rcases expired_pending t now i with heq | ⟨hover, heq⟩
  · rw [heq]
    exact Alike.refl _
  · rw [heq]
    refine ⟨rfl, rfl, rfl, rfl, fun hunused => ?_, fun h => h⟩
    rw [hover.1] at hunused
    cases hunused

theorem expired_slot {now : Nat} (h : Slot t (t.pending i)) :
    Slot (t.expired now) ((t.expired now).pending i) := by
  rcases expired_pending t now i with heq | ⟨hover, heq⟩
  · rw [heq]
    exact h.mono rfl (Nat.le_refl _)
  · rw [heq]
    -- It still holds its credits, so its final reply has not come.
    have hres := h.held hover.2.1
    have hopen := (h.waiting hres).mp hover.2.1
    refine ⟨h.reserved, h.held, h.waiting, h.request, h.epoch, h.index, fun _ => ⟨hres, ?_⟩, ?_⟩
    · simp [hopen]
    · exact fun hlate => ⟨rfl, (h.late hlate).2⟩

theorem expired_table (h : Table t) (now : Nat) : Table (t.expired now) := by
  refine h.alike (expired_alike t now) (fun i hi => ?_) ?_ rfl rfl rfl rfl (fun _ => rfl)
  · exact expired_slot (h.slots i ((expired_alike t now i).used ▸ hi))
  · have hsame : tally heldBy (t.expired now).pending = tally heldBy t.pending := by
      refine tally_congr heldBy fun i => ?_
      rcases expired_pending t now i with heq | ⟨_, heq⟩ <;> rw [heq]
      rfl
    rw [hsame]
    exact h.balanced

/-- A BUSY changes neither credits nor what a slot waits for. -/
theorem busied_slot (h : Slot t p) (hopen : p.terminalReceived = false) :
    Slot t (p.busied m) := by
  refine ⟨h.reserved, h.held, h.waiting, h.request, h.epoch, h.index, fun hst => ?_,
    fun hlate => ?_⟩
  · by_cases htimed : p.state = .timedOut
    · exact h.timed htimed
    · change (if p.state = .timedOut then ReplyState.timedOut else .busy) = _ at hst
      rw [if_neg htimed] at hst
      cases hst
  · rw [(h.late hlate).2] at hopen
    cases hopen

theorem finalState_ne (kind : Nat) : finalState kind ≠ .timedOut := by
  unfold finalState
  split
  · decide
  · split <;> decide

/-- After its final reply a slot holds nothing, and is late if it had timed
    out. -/
theorem concluded_slot (h : Slot t p)
    (hopen : p.terminalReceived = false) : Slot t (p.concluded m) := by
  have hlate : p.late = false := by
    by_contra hne
    rw [(h.late (Bool.eq_true_of_not_eq_false hne)).2] at hopen
    cases hopen
  refine ⟨h.reserved, nofun, fun _ => ⟨nofun, nofun⟩, h.request, h.epoch, h.index, ?_, ?_⟩
  · change (if p.state = .timedOut then ReplyState.timedOut else finalState m.kind)
        = .timedOut → p.reservation ≠ 0 ∧
      (true = true → (if p.state = .timedOut then true else p.late) = true)
    by_cases htimed : p.state = .timedOut
    · rw [if_pos htimed, if_pos htimed]
      exact fun _ => ⟨(h.timed htimed).1, fun _ => rfl⟩
    · rw [if_neg htimed]
      exact fun hst => absurd hst (finalState_ne _)
  · change (if p.state = .timedOut then true else p.late) = true →
      (if p.state = .timedOut then ReplyState.timedOut else finalState m.kind) = .timedOut ∧
        true = true
    by_cases htimed : p.state = .timedOut
    · simp [*]
    · simp [*]

/-- One slot changed, with the credits to go with it. -/
theorem Table.settled (h : Table t) {credits : Nat}
    {broken : Bool} (hused : (t.pending i).used = true) (halike : Alike (t.pending i) p)
    (hslot : Slot t p) (hcredits : credits + heldBy p = t.credits + heldBy (t.pending i)) :
    Table { t with pending := update t.pending i p, credits := credits,
                   broken := broken } := by
  refine h.alike (fun j => ?_) (fun j hj => ?_) ?_ rfl rfl rfl rfl fun hd => ?_
  · by_cases hji : j = i
    · simp [*]
    · simp [update_of_ne hji, Alike.refl]
  · by_cases hji : j = i
    · simp [update_self, hslot.mono, *]
    · dsimp only at hj ⊢
      rw [update_of_ne hji] at hj ⊢
      exact (h.slots j hj).mono rfl (Nat.le_refl _)
  · have htally := tally_update heldBy t.pending i p
    have hbal := h.balanced
    dsimp only
    omega
  · rw [(h.detached hd).2.2 i] at hused
    cases hused

theorem settle_table (h : Table t)
    (hused : (t.pending i).used = true) : Table (t.settle i m).2 := by
  have hslot := h.slots i hused
  have hno : ∀ p : Pending, (t.pending i).used = false → p = t.pending i := by simp [hused]
  rcases settle_cases t i m with ⟨_, heq⟩ | ⟨hopen, ⟨_, heq⟩ | ⟨_, _, _, heq⟩ | ⟨_, hroom, heq⟩⟩ <;>
    rw [heq]
  · exact h.alike (fun i => Alike.refl _) (fun i hi => (h.slots i hi).mono rfl (Nat.le_refl _))
      h.balanced rfl rfl rfl rfl (fun _ => rfl)
  · exact h.settled hused ⟨rfl, rfl, rfl, rfl, hno _, fun h => h⟩
      (busied_slot hslot hopen) rfl
  · exact h.settled hused ⟨rfl, rfl, rfl, rfl, hno _, fun h => h⟩
      ⟨hslot.reserved, hslot.held, hslot.waiting, hslot.request, hslot.epoch, hslot.index,
        hslot.timed, hslot.late⟩ rfl
  · refine h.settled hused ⟨rfl, rfl, rfl, rfl, hno _, nofun⟩ (concluded_slot hslot hopen) ?_
    change (if (t.pending i).creditsHeld = true then t.credits + (t.pending i).reservation
      else t.credits) + 0 = t.credits + heldBy (t.pending i)
    unfold heldBy
    split <;> omega

theorem retire_table (h : Table t)
    (hheld : (t.pending i).creditsHeld = false) :
    Table { t with pending := update t.pending i Pending.empty } := by
  have hcases : ∀ j, update t.pending i Pending.empty j = Pending.empty ∨
      (j ≠ i ∧ update t.pending i Pending.empty j = t.pending j) := by
    intro j
    by_cases hji : j = i
    · rw [hji, update_self]
      exact Or.inl rfl
    · simp [*]
  have hlive : ∀ j, (update t.pending i Pending.empty j).used = true →
      update t.pending i Pending.empty j = t.pending j := by
    intro j hj
    rcases hcases j with heq | ⟨_, heq⟩
    · rw [heq] at hj
      cases hj
    · exact heq
  constructor
  case slots =>
    intro j hj
    change Slot _ (update t.pending i Pending.empty j)
    have heq := hlive j hj
    rw [heq]
    exact (h.slots j (heq ▸ hj)).mono rfl (Nat.le_refl _)
  case idle =>
    intro j hj
    rcases hcases j with heq | ⟨_, heq⟩
    · exact heq
    · exact heq.trans (h.idle j (heq ▸ hj))
  case distinct =>
    intro j k hj hk hc
    have hj' := hlive j hj
    have hk' := hlive k hk
    refine h.distinct j k (hj' ▸ hj) (hk' ▸ hk) ?_
    rw [← hj', ← hk']
    exact hc
  case exclusive =>
    intro c j k hj hk
    exact h.exclusive c j k (hlive j hj.1 ▸ hj) (hlive k hk.1 ▸ hk)
  case balanced =>
    have hzero : heldBy (t.pending i) = 0 := by
      unfold heldBy
      rw [hheld]
      rfl
    have hsame : tally heldBy (update t.pending i Pending.empty)
        = tally heldBy t.pending := tally_update_eq heldBy t.pending i Pending.empty hzero.symm
    dsimp only
    rw [hsame]
    exact h.balanced
  case detached =>
    intro hd
    rcases h.detached hd with ⟨hnext, hfull, hunused⟩
    refine ⟨hnext, hfull, fun j => ?_⟩
    change (update t.pending i Pending.empty j).used = false
    rcases hcases j with heq | ⟨_, heq⟩ <;> rw [heq]
    · rfl
    · exact hunused j
  case sized => exact h.sized

theorem filled_slot {a : Action} {deadline : Nat} (hfence : t.nextFence < 0x8000)
    (hepoch : t'.epoch = t.epoch) (hnext : t'.nextFence = t.nextFence + 1) :
    Slot t' (t.filled a deadline) := by
  constructor
  case reserved => exact reserve_eq a
  case held =>
    intro hheld
    exact of_decide_eq_true hheld
  case waiting =>
    intro hne
    exact ⟨fun _ => rfl, fun _ => decide_eq_true hne⟩
  case request => exact nextCookie_fast a hfence
  case epoch => exact hepoch.symm
  case index =>
    change (t.nextCookie a).index < t'.nextFence
    rw [nextCookie_index a hfence]
    omega
  case timed =>
    intro hst
    change (if a.reserve ≠ 0 then ReplyState.pending else .sentUnconfirmed) = .timedOut at hst
    split at hst <;> cases hst
  case late => exact nofun

theorem issue_table (h : Table t) {a : Action} {slot : Fin maxPending} (deadline : Nat)
    (hrun : t.Running) (hfence : t.nextFence < 0x8000) (hscan : t.scan a = .ok slot) :
    Table (t.issue slot a deadline) := by
  rcases scan_ok hscan with ⟨hunused, hclear, hcredits⟩
  have hslot : (t.issue slot a deadline).pending slot = t.filled a deadline :=
    update_self ..
  have hother : ∀ {j}, j ≠ slot → (t.issue slot a deadline).pending j = t.pending j :=
    fun hj => update_of_ne hj ..
  -- The new cookie is none of those in use.
  have hfresh : ∀ j, (t.pending j).used = true →
      (t.pending j).cookie ≠ t.nextCookie a := by
    intro j hj hc
    have hindex := (h.slots j hj).index
    rw [hc, nextCookie_index a hfence] at hindex
    omega
  -- Nor does another slot wait for a transition of the same context.
  have halone : ∀ c j, Transport.Transition (t.filled a deadline) c →
      ¬ Transport.Transition (t.pending j) c := by
    intro c j hnew hold
    have hcontext : a.words 1 = c := hnew.2.2.1
    have haction : a.words 0 = 0x1001 ∨ a.words 0 = 0x4503 := hnew.2.2.2
    refine hclear (fun hreq => ?_) j (hcontext ▸ hold)
    unfold Action.Request at hreq
    omega
  constructor
  case slots =>
    intro j hj
    by_cases hjs : j = slot
    · rw [hjs, hslot]
      exact filled_slot hfence rfl rfl
    · rw [hother hjs] at hj ⊢
      exact (h.slots j hj).mono rfl (Nat.le_succ _)
  case idle =>
    intro j hj
    by_cases hjs : j = slot
    · rw [hjs, hslot] at hj
      cases hj
    · rw [hother hjs] at hj ⊢
      exact h.idle j hj
  case distinct =>
    intro j k hj hk hc
    by_cases hjs : j = slot <;> by_cases hks : k = slot
    · rw [hjs, hks]
    · rw [hother hks] at hk hc
      rw [hjs, hslot] at hc
      exact absurd hc.symm (hfresh k hk)
    · rw [hother hjs] at hj hc
      rw [hks, hslot] at hc
      exact absurd hc (hfresh j hj)
    · rw [hother hjs] at hj hc
      rw [hother hks] at hk hc
      exact h.distinct j k hj hk hc
  case exclusive =>
    intro c j k hj hk
    by_cases hjs : j = slot <;> by_cases hks : k = slot
    · rw [hjs, hks]
    · rw [hjs, hslot] at hj
      rw [hother hks] at hk
      exact absurd hk (halone c k hj)
    · rw [hother hjs] at hj
      rw [hks, hslot] at hk
      exact absurd hj (halone c j hk)
    · rw [hother hjs] at hj
      rw [hother hks] at hk
      exact h.exclusive c j k hj hk
  case balanced =>
    have htally := tally_update heldBy t.pending slot (t.filled a deadline)
    have hbal := h.balanced
    have hzero : heldBy (t.pending slot) = 0 := by
      rw [h.idle slot hunused]
      rfl
    have hnew : heldBy (t.filled a deadline) = a.reserve := by
      change (if decide (a.reserve ≠ 0) = true then a.reserve else 0) = a.reserve
      by_cases hres : a.reserve = 0
      · rw [hres]
        rfl
      · rw [if_pos (decide_eq_true hres)]
    change t.credits - a.reserve + tally heldBy (update t.pending slot _) = t.maxCredits
    by_cases hres : a.reserve = 0
    · omega
    · have := hcredits hres
      omega
  case detached =>
    intro hd
    have hatt : t.attached = true := hrun.1
    rw [show t.attached = false from hd] at hatt
    cases hatt
  case sized => exact h.sized

theorem attached_table (h : Table t) {h₁ g : Ring} {epoch : Nat} (hnew : t.attached = false) :
    Table (t.attachedTo h₁ g epoch) := by
  rcases h.detached hnew with ⟨hnext, _, hunused⟩
  have hnone : ∀ i, ¬ (t.pending i).used = true := by
    intro i hi
    rw [hunused i] at hi
    cases hi
  constructor
  case slots => exact fun i hi => absurd hi (hnone i)
  case idle => exact fun i _ => h.idle i (hunused i)
  case distinct => exact fun i j hi => absurd hi (hnone i)
  case exclusive => exact fun c i j hi => absurd hi.1 (hnone i)
  case balanced =>
    have hzero : tally heldBy t.pending = 0 := by
      refine (tally_eq_zero_iff heldBy t.pending).mpr fun i => ?_
      rw [h.idle i (hunused i)]
      rfl
    change g.count - 1 - g.count / 2 + tally heldBy t.pending = _
    rw [hzero]
    rfl
  case detached => exact nofun
  case sized => exact fun _ => rfl

theorem move_table {io : Ops E} {s u : World E} (hmove : Move io s u)
    (h : Table s.obj.host) : Table u.obj.host := by
  cases move_effect hmove with
  | frame hf =>
    refine h.alike (fun i => ?_) (fun i hi => ?_) ?_ hf.maxCredits hf.nextFence hf.attached hf.g2h
      (fun _ => hf.credits)
    · rw [hf.pending]
      exact Alike.refl _
    · rw [hf.pending] at hi ⊢
      exact (h.slots i hi).mono hf.epoch (Nat.le_of_eq hf.nextFence.symm)
    · rw [hf.credits, hf.pending, hf.maxCredits]
      exact h.balanced
  | expired heq => exact heq ▸ expired_table h _
  | retired i hheld heq => exact heq ▸ retire_table h hheld
  | replied m i _ _ hroute heq => exact heq ▸ settle_table h (route_matches hroute).1
  | attached h₁ g epoch hnew _ heq => exact heq ▸ attached_table h hnew
  | issued slot a deadline hrun _ hfence hscan heq =>
    exact heq ▸ issue_table h deadline hrun hfence hscan

theorem fresh_table : Table Transport.fresh where
  slots _ h := by cases h
  idle _ _ := rfl
  distinct _ _ h := by cases h
  exclusive _ _ _ h := by cases h.1
  balanced := (Nat.zero_add _).trans ((tally_eq_zero_iff _ _).mpr (fun _ => rfl))
  detached _ := ⟨rfl, rfl, fun _ => rfl⟩
  sized h := by cases h

end Invariant

end Mellow.XeGuC
