import Mellow.Xe.GuC.Table

/-!
# Cookies and Final Replies over Time

The table forgets a slot when it is retired; the log does not. Cookies are
numbered and the number only goes up. The slot with a cookie remembers its final
reply, and once it is gone no other slot will have the cookie.

## Main definitions

* `issued`: the cookies that were given out.
* `finals`: those that have had their final reply.
* `LineRule`: who writes a line, and for which slot.

## Theorems

* `move_history`: the moves keep both lists free of duplicates.
* `move_lines`: and the rule.
-/

namespace Mellow.XeGuC

open Lib Function

variable {E : Type}

section Logs

/-- The cookie a line gives out. -/
def issuedOf (x : Entry Link Event) : Option Cookie :=
  match x.event with
  | .issued _ c _ => some c
  | _ => none

def finalOf (x : Entry Link Event) : Option Cookie :=
  match x.event with
  | .replied i m .ok => if m.kind = 3 then none else some (x.obj.pending i).cookie
  | _ => none

def issued (log : Log) : List Cookie := log.filterMap issuedOf

def finals (log : Log) : List Cookie := log.filterMap finalOf

variable {log : Log} {x : Entry Link Event}

theorem issuedOf_plain (h : x.event.Plain) : issuedOf x = none := by
  rcases x with ⟨o, ev⟩
  cases ev <;> first | rfl | exact absurd h id

theorem finalOf_plain (h : x.event.Plain) : finalOf x = none := by
  rcases x with ⟨o, ev⟩
  cases ev <;> first | rfl | exact absurd h id

theorem issued_cons_none (h : issuedOf x = none) : issued (x :: log) = issued log :=
  List.filterMap_cons_none h

theorem finals_cons_none (h : finalOf x = none) : finals (x :: log) = finals log :=
  List.filterMap_cons_none h

end Logs

structure History (s : World E) : Prop where
  once : (issued s.log).Nodup
  bound : ∀ c ∈ issued s.log, c.epoch = s.obj.epoch ∧ c.index < s.obj.nextFence
  live : ∀ i, (s.obj.pending i).used = true →
    (s.obj.pending i).cookie ∈ issued s.log
  finalOnce : (finals s.log).Nodup
  finalIssued : ∀ c ∈ finals s.log, c ∈ issued s.log
  finalSlot : ∀ i, (s.obj.pending i).used = true →
    ((s.obj.pending i).terminalReceived = true ↔
      (s.obj.pending i).cookie ∈ finals s.log)

section Histories

variable {s t : World E} {i : Fin maxPending} {m : Message}

/-- A change that gives out no cookie and records no final reply. -/
theorem History.frame (h : History s) (hissued : issued t.log = issued s.log)
    (hfinals : finals t.log = finals s.log) (hepoch : t.obj.epoch = s.obj.epoch)
    (hnext : t.obj.nextFence = s.obj.nextFence)
    (hslots : ∀ i, (t.obj.pending i).used = true →
      (s.obj.pending i).used = true ∧
      (t.obj.pending i).cookie = (s.obj.pending i).cookie ∧
      (t.obj.pending i).terminalReceived = (s.obj.pending i).terminalReceived) :
    History t where
  once := hissued ▸ h.once
  bound c hc := by
    rw [hepoch, hnext]
    exact h.bound c (hissued ▸ hc)
  live i hi := by
    rcases hslots i hi with ⟨hold, hcookie, _⟩
    rw [hcookie, hissued]
    exact h.live i hold
  finalOnce := hfinals ▸ h.finalOnce
  finalIssued c hc := by
    rw [hissued]
    exact h.finalIssued c (hfinals ▸ hc)
  finalSlot i hi := by
    rcases hslots i hi with ⟨hold, hcookie, hterm⟩
    rw [hterm, hcookie, hfinals]
    exact h.finalSlot i hold

theorem frame_issued (hf : Frame s t) : issued t.log = issued s.log := by
  rcases hf.log with heq | ⟨ev, hev, heq⟩ <;> rw [heq]
  exact issued_cons_none (issuedOf_plain hev)

theorem frame_finals (hf : Frame s t) : finals t.log = finals s.log := by
  rcases hf.log with heq | ⟨ev, hev, heq⟩ <;> rw [heq]
  exact finals_cons_none (finalOf_plain hev)

/-- A reply that is not final leaves every cookie as it was. -/
theorem unsettled_history (h : History s) {st : Status}
    {host : Transport} {p : Pending} (hnot : st ≠ .ok ∨ m.kind = 3)
    (hepoch : host.epoch = s.obj.epoch) (hnext : host.nextFence = s.obj.nextFence)
    (hpending : host.pending = update s.obj.pending i p)
    (hused : (s.obj.pending i).used = true)
    (hcookie : p.cookie = (s.obj.pending i).cookie)
    (hterm : p.terminalReceived = (s.obj.pending i).terminalReceived) :
    History (setHost (s.heard (.replied i m st) s.env) host) := by
  have hnone : finalOf ⟨s.obj, .replied i m st⟩ = none := by
    rcases hnot with hne | hkind
    · cases st <;> first | rfl | exact absurd rfl hne
    · cases st <;> first | rfl | exact if_pos hkind
  refine h.frame (issued_cons_none rfl) (finals_cons_none hnone) hepoch hnext fun j hj => ?_
  change (host.pending j).used = true at hj
  change _ ∧ (host.pending j).cookie = _ ∧ (host.pending j).terminalReceived = _
  rw [hpending] at hj ⊢
  by_cases hji : j = i
  · simp [*]
  · rw [update_of_ne hji] at hj ⊢
    exact ⟨hj, rfl, rfl⟩

theorem final_history (h : History s) (htable : Table s.obj.host)
    {host : Transport} (hkind : m.kind ≠ 3)
    (hepoch : host.epoch = s.obj.epoch) (hnext : host.nextFence = s.obj.nextFence)
    (hpending : host.pending
      = update s.obj.pending i ((s.obj.pending i).concluded m))
    (hused : (s.obj.pending i).used = true)
    (hopen : (s.obj.pending i).terminalReceived = false) :
    History (setHost (s.heard (.replied i m .ok) s.env) host) := by
  have hfinal : finalOf ⟨s.obj, .replied i m .ok⟩ = some (s.obj.pending i).cookie :=
    if_neg hkind
  have hissued : issued (setHost (s.heard (.replied i m .ok) s.env) host).log = issued s.log :=
    issued_cons_none rfl
  have hfinals : finals (setHost (s.heard (.replied i m .ok) s.env) host).log
      = (s.obj.pending i).cookie :: finals s.log := List.filterMap_cons_some hfinal
  have hnew : (s.obj.pending i).cookie ∉ finals s.log := by
    intro hmem
    have := (h.finalSlot i hused).mpr hmem
    rw [hopen] at this
    cases this
  have hslot : ∀ j, ((setHost (s.heard (.replied i m .ok) s.env) host).obj.pending j)
      = update s.obj.pending i ((s.obj.pending i).concluded m) j :=
    fun j => congrFun hpending j
  constructor
  case once => exact hissued ▸ h.once
  case bound =>
    intro c hc
    change c.epoch = host.epoch ∧ c.index < host.nextFence
    rw [hepoch, hnext]
    exact h.bound c (hissued ▸ hc)
  case live =>
    intro j hj
    rw [hissued]
    rw [hslot] at hj ⊢
    by_cases hji : j = i
    · subst hji
      rw [update_self]
      exact h.live j hused
    · rw [update_of_ne hji] at hj ⊢
      exact h.live j hj
  case finalOnce =>
    rw [hfinals]
    exact List.nodup_cons.mpr ⟨hnew, h.finalOnce⟩
  case finalIssued =>
    intro c hc
    rw [hfinals] at hc
    rw [hissued]
    rcases List.mem_cons.mp hc with rfl | hc
    · exact h.live i hused
    · exact h.finalIssued c hc
  case finalSlot =>
    intro j hj
    rw [hfinals]
    rw [hslot] at hj ⊢
    by_cases hji : j = i
    · subst hji
      rw [update_self]
      exact ⟨fun _ => List.mem_cons_self, fun _ => rfl⟩
    · rw [update_of_ne hji] at hj ⊢
      -- Another slot has another cookie.
      have hne : (s.obj.pending j).cookie ≠ (s.obj.pending i).cookie :=
        fun hc => hji (htable.distinct j i hj hused hc)
      rw [List.mem_cons, or_iff_right hne]
      exact h.finalSlot j hj

theorem settled_history (h : History s) (htable : Table s.obj.host)
    (hused : (s.obj.pending i).used = true) :
    History (setHost (s.heard (.replied i m (s.obj.settle i m).1) s.env)
      (s.obj.settle i m).2) := by
  rcases settle_cases s.obj.host i m with ⟨_, heq⟩ |
    ⟨hopen, ⟨hkind, heq⟩ | ⟨_, _, _, heq⟩ | ⟨hkind, _, heq⟩⟩ <;> rw [heq]
  · simp [unsettled_history, *]
  · exact unsettled_history h (Or.inr hkind) rfl rfl rfl hused rfl rfl
  · exact unsettled_history h (Or.inl nofun) rfl rfl rfl hused rfl rfl
  · simp [final_history, *]

theorem issued_history (h : History s) {slot : Fin maxPending} {a : Action} {deadline : Nat}
    (hfence : s.obj.nextFence < 0x8000) :
    History (setHost (s.heard (.issued slot (s.obj.nextCookie a) a.reserve) s.env)
      (s.obj.issue slot a deadline)) := by
  have hindex := nextCookie_index a hfence
  have hnew : s.obj.nextCookie a ∉ issued s.log := by
    intro hmem
    have := (h.bound _ hmem).2
    omega
  have hslot : (s.obj.issue slot a deadline).pending slot = s.obj.filled a deadline :=
    update_self ..
  have hother : ∀ {j}, j ≠ slot →
      (s.obj.issue slot a deadline).pending j = s.obj.pending j :=
    fun hj => update_of_ne hj ..
  constructor
  case once => exact List.nodup_cons.mpr ⟨hnew, h.once⟩
  case bound =>
    intro c hc
    change c.epoch = s.obj.epoch ∧ c.index < s.obj.nextFence + 1
    rcases List.mem_cons.mp hc with rfl | hc
    · exact ⟨rfl, by omega⟩
    · have := h.bound c hc
      exact ⟨this.1, by omega⟩
  case live =>
    intro j hj
    change ((s.obj.issue slot a deadline).pending j).cookie
      ∈ s.obj.nextCookie a :: issued s.log
    change ((s.obj.issue slot a deadline).pending j).used = true at hj
    by_cases hjs : j = slot
    · rw [hjs, hslot]
      exact List.mem_cons_self
    · rw [hother hjs] at hj ⊢
      exact List.mem_cons_of_mem _ (h.live j hj)
  case finalOnce => exact h.finalOnce
  case finalIssued => exact fun c hc => List.mem_cons_of_mem _ (h.finalIssued c hc)
  case finalSlot =>
    intro j hj
    change ((s.obj.issue slot a deadline).pending j).terminalReceived = true ↔
      ((s.obj.issue slot a deadline).pending j).cookie ∈ finals s.log
    change ((s.obj.issue slot a deadline).pending j).used = true at hj
    by_cases hjs : j = slot
    · -- Its reply cannot have come before the cookie was given out.
      rw [hjs, hslot]
      exact ⟨nofun, fun hmem => absurd (h.finalIssued _ hmem) hnew⟩
    · rw [hother hjs] at hj ⊢
      exact h.finalSlot j hj

theorem move_history {io : Ops E} (hmove : Move io s t) (htable : Table s.obj.host)
    (h : History s) : History t := by
  cases move_effect hmove with
  | frame hf =>
    refine h.frame (frame_issued hf) (frame_finals hf) hf.epoch hf.nextFence fun i hi => ?_
    rw [hf.pending] at hi ⊢
    exact ⟨hi, rfl, rfl⟩
  | expired heq =>
    subst heq
    refine h.frame rfl rfl rfl rfl fun i hi => ?_
    have halike := expired_alike s.obj.host s.obj.lastTime i
    refine ⟨halike.used ▸ hi, halike.cookie, ?_⟩
    change ((s.obj.expired s.obj.lastTime).pending i).terminalReceived = _
    rcases expired_pending s.obj.host s.obj.lastTime i with heq | ⟨_, heq⟩ <;> rw [heq]
  | retired i hheld heq =>
    subst heq
    refine h.frame rfl rfl rfl rfl fun j hj => ?_
    change (update s.obj.pending i Pending.empty j).used = true at hj
    change _ ∧ (update s.obj.pending i Pending.empty j).cookie = _ ∧
      (update s.obj.pending i Pending.empty j).terminalReceived = _
    by_cases hji : j = i
    · rw [hji, update_self] at hj
      cases hj
    · rw [update_of_ne hji] at hj ⊢
      exact ⟨hj, rfl, rfl⟩
  | replied m i _ _ hroute heq =>
    exact heq ▸ settled_history h htable (route_matches hroute).1
  | attached h₁ g epoch hnew _ heq =>
    -- Nothing has been given out yet.
    subst heq
    rcases htable.detached hnew with ⟨hnext, _, hunused⟩
    have hnone : ∀ c, c ∉ issued s.log := by
      intro c hc
      have := (h.bound c hc).2
      omega
    have hno : ∀ i, ¬ (s.obj.pending i).used = true := by
      intro i hi
      rw [hunused i] at hi
      cases hi
    exact ⟨h.once, fun c hc => absurd hc (hnone c), fun i hi => absurd hi (hno i), h.finalOnce,
      h.finalIssued, fun i hi => absurd hi (hno i)⟩
  | issued slot a deadline _ _ hfence _ heq => exact heq ▸ issued_history h hfence

end Histories

section Lines

/-- The line writes, publishes, records or consumes something. -/
def Event.Active : Event → Prop
  | .wrote .. | .published .. | .issued .. | .replied .. | .misread .. | .refused .. |
    .consumed _ =>
    True
  | _ => False

/-- What holds at a line of the log, of the object as it was then. -/
def LineRule (x : Entry Link Event) : Prop :=
  (x.event.Active → x.obj.Running) ∧
    (∀ slot c reserve, x.event = .issued slot c reserve → reserve ≤ x.obj.credits) ∧
    ∀ i m st, x.event = .replied i m st →
      (x.obj.pending i).used = true ∧ Matches x.obj.host m i ∧
      x.obj.credits ≤ x.obj.maxCredits ∧
      ((x.obj.pending i).creditsHeld = true →
        m.count + 1 ≤ (x.obj.pending i).reservation)

/-- A reply is no longer than its reservation, header included. -/
theorem reply_fits {t : Transport} {m : Message} {i : Fin maxPending}
    (hslot : Slot t (t.pending i)) (hmatch : Matches t m i) (hlen : m.count ≤ maxHxgWords)
    (hheld : (t.pending i).creditsHeld = true) :
    m.count + 1 ≤ (t.pending i).reservation := by
  have hne := hslot.held hheld
  rw [hslot.reserved] at hne ⊢
  cases hmatch with
  | event _ _ hcode _ haction _ hcount =>
    rw [haction, hcount]
    rcases hcode with hcode | hcode <;> rw [hcode] <;> decide
  | response hkind hcookie hcount hfast _ =>
    by_cases hreq : m.fence &&& 0x8000 = 0
    · -- A request has room for the longest message there is.
      have haction : (t.pending i).action = 0x4000 := by
        refine hslot.request.mp ?_
        rw [hcookie]
        exact hreq
      rw [haction]
      change m.count + 1 ≤ 256
      have : maxHxgWords = 255 := rfl
      omega
    · -- The others are answered by one word at most.
      have hkind' := hfast hreq
      have hroom := three_le_reserveFor hne
      rw [hcount (by omega)]
      omega

variable {io : Ops E} {s t : World E}

theorem lineRule_plain {o : Link} {ev : Event} (hplain : ev.Plain)
    (hactive : ev.Active → o.host.Running) : LineRule ⟨o, ev⟩ := by
  refine ⟨hactive, fun slot c reserve heq => ?_, fun i m st heq => ?_⟩ <;>
    change ev = _ at heq <;> rw [heq] at hplain <;> exact absurd hplain id

theorem move_lines (hmove : Move io s t) (htable : Table s.obj.host)
    (hlines : ∀ x ∈ s.log, LineRule x) : ∀ x ∈ t.log, LineRule x := by
  have hcons : ∀ ev, LineRule ⟨s.obj, ev⟩ → ∀ x ∈ (⟨s.obj, ev⟩ :: s.log : Log),
      LineRule x := by
    intro ev hev x hx
    rcases List.mem_cons.mp hx with rfl | hx
    · exact hev
    · exact hlines x hx
  cases hmove with
  | calm hcalm =>
    cases hcalm with
    | heard ev e hev =>
      refine hcons ev (lineRule_plain ?_ (fun hact => ?_))
      · cases ev <;> trivial
      · cases ev <;> first | exact absurd hev id | exact absurd hact id
    | peer x _ =>
      rcases peer_log x s with heq | ⟨u, heq⟩ <;> rw [heq]
      · exact hlines
      · cases u with
        | none | some => exact hcons _ (lineRule_plain trivial nofun)
    | misread _ _ hrun => exact hcons _ (lineRule_plain trivial (fun _ => hrun))
    | refused m st hrun _ => exact hcons _ (lineRule_plain trivial (fun _ => hrun))
    | consumed head hrun => exact hcons _ (lineRule_plain trivial (fun _ => hrun))
    | replied m i hrun hlen hroute =>
      refine hcons _ ⟨fun _ => hrun, nofun, fun j m' st heq => ?_⟩
      cases heq
      rcases route_matches hroute with ⟨hused, hmatch⟩
      have hbal := htable.balanced
      exact ⟨hused, hmatch, by dsimp only; omega,
        reply_fits (htable.slots _ hused) hmatch hlen⟩
    | _ => exact hlines
  | attached => exact hlines
  | issued slot a deadline hrun _ _ hscan =>
    refine hcons _ ⟨fun _ => hrun, fun slot' c reserve heq => ?_, nofun⟩
    cases heq
    by_cases hres : a.reserve = 0
    · rw [hres]
      exact Nat.zero_le _
    · exact Nat.le_of_lt ((scan_ok hscan).2.2 hres)
  | wrote i v hrun => exact hcons _ (lineRule_plain trivial (fun _ => hrun))
  | published tail m hrun => exact hcons _ (lineRule_plain trivial (fun _ => hrun))

end Lines

end Mellow.XeGuC
