import Mellow.Xe.Fence

/-!
# The Life of a Fence Timeline

What holds over all calls that one `Timeline` is ever given, whatever the GPU
writes to the slot. A `bind` that fails after it has retained the slot counts as
the one that bound it.

## Main definitions

* `Line`: a call with its answer and what it asked.
* `history`: the lines of a run.
* `Rule`: what each line owes to those before it.

## Theorems

* `timeline_sound`: every line of a history keeps the rule.
-/

namespace Mellow.XeFence

open Lib

variable {E : Type}

section Histories

/-- A call and its answer, with what was asked of the environment, oldest
    first. -/
structure Turn where
  call : Call
  status : Status
  seen : Observation
  events : List Event

abbrev Line := Entry Timeline Turn

def answer (io : Ops E) : Call → Op E (Status × Observation)
  | .observe epoch => observe io epoch
  | c => do return (← step io c, {})

def record (io : Ops E) (x : Timeline × E × List Line) (c : Call) : Timeline × E × List Line :=
  let r := answer io c ⟨x.1, x.2.1, []⟩
  (r.2.obj, r.2.env, ⟨r.2.obj, c, r.1.1, r.1.2, (r.2.log.map Entry.event).reverse⟩ :: x.2.2)

def history (io : Ops E) (e : E) (calls : List Call) : Timeline × E × List Line :=
  calls.foldl (record io) ({}, e, [])

def Turn.published (x : Turn) : Option Nat :=
  match x.call, x.status with
  | .publish _ n, .ok => some n
  | _, _ => none

def Turn.observed (x : Turn) : Option Observation :=
  match x.call, x.status with
  | .observe _, .ok => some x.seen
  | _, _ => none

def accepted (log : List Line) : List Nat := log.filterMap (·.event.published)

def observations (log : List Line) : List Observation := log.filterMap (·.event.observed)

def asked : List Line → List Event
  | [] => []
  | l :: log => asked log ++ l.event.events

/-- An event that takes the slot, writes to it or gives it back. -/
def Event.grave : Event → Bool
  | .retain _ ok => ok
  | .clear _ | .release _ => true
  | _ => false

end Histories

section Rules

def Retained (s : Slot) (log : List Line) : Prop := .retain s true ∈ asked log

/-- A word that the slot cannot hold if the GPU keeps to what was published. -/
def Inadmissible (raw : Nat) (log : List Line) : Prop :=
  0x100000000 ≤ raw ∨ (accepted log).length < raw ∨ ∃ o ∈ observations log, raw < o.raw

/-- A call with which a timeline that is bound comes to its end. -/
def Breaks (x : Turn) (log : List Line) : Prop :=
  ((∃ s, Retained s log) ∧
    (x.call = .invalidate ∨ x.call = .close ∨ (∃ s, .valid s false ∈ x.events) ∨
    ∃ s raw, .load s raw ∈ x.events ∧ Inadmissible raw log)) ∨
  ((∃ s, .retain s true ∈ x.events) ∧ ∃ s, .valid s false ∈ x.events)

def Over : List Line → Prop
  | [] => False
  | l :: log => Breaks l.event log ∨ Over log

/-- What holds of every call, given the calls before it. -/
structure Rule (l : Line) (log : List Line) : Prop where
  publishes : ∀ n, l.event.published = some n → n = (accepted log).length + 1 ∧ n ≤ 0xffffffff
  observes : ∀ o, l.event.observed = some o → o.sequence = o.raw ∧ o.raw ≤ (accepted log).length ∧
    (∀ o' ∈ observations log, o'.raw ≤ o.raw) ∧
    ∃ s, Retained s log ∧ l.event.events = [.valid s true, .load s o.raw, .valid s true]
  ended : Over log → l.event.published = none ∧ l.event.observed = none
  once : ∃ s, ((asked (l :: log)).filter Event.grave).Sublist [.retain s true, .clear s, .release s]
  clears : ∀ s, .clear s ∈ l.event.events → accepted (l :: log) = [] ∧ l.event.events =
    [.valid s true, .stopped s true, .retain s true, .valid s true, .stopped s true, .clear s]
  rebinds : ∀ s, Retained s log → ∀ s' complete, l.event.call = .bind s' complete →
    l.event.status = .invalid ∧ l.event.events = []
  releases : ∀ s, .release s ∈ l.event.events →
    Retained s log ∧ l.event.events = [.stopped s true, .release s]
  closes : ∀ s, Retained s log → l.event.call = .close → l.event.status = .ok →
    .release s ∈ asked (l :: log)

end Rules

section Outcomes

/-- A call that at most gives up on the slot. -/
structure Plain (t : Timeline) (x : Turn) (active : Bool) : Prop where
  mild : x.events.filter Event.grave = []
  result : x.published = none ∧ x.observed = none
  kept : active = true → t.active = true
  breaks : t.used = true →
    (x.call = .invalidate ∨ x.call = .close ∨ (∃ s, .valid s false ∈ x.events) ∨
    ∃ s raw, .load s raw ∈ x.events) → active = true → t.held = false
  bind : t.used = true → ∀ s complete, x.call = .bind s complete → x.status = .invalid ∧
    x.events = []
  close : x.call = .close → x.status = .ok → t.held = false

inductive Outcome (t : Timeline) : Turn → Timeline → Prop
  | plain {x : Turn} {a : Bool} (h : Plain t x a) : Outcome t x { t with active := a }
  | retained {s : Slot} {complete : Bool} {rest : List Event} (hused : t.used = false)
      (hrest : rest.filter Event.grave = []) :
      Outcome t ⟨.bind s complete, .unavailable, {},
        [.valid s true, .stopped s true, .retain s true] ++ rest⟩
        { t with slot := s, held := true, used := true }
  | bound {s : Slot} {complete : Bool} (hused : t.used = false) :
      Outcome t ⟨.bind s complete, .ok, {}, [.valid s true, .stopped s true, .retain s true,
        .valid s true, .stopped s true, .clear s]⟩ ⟨s, 0, 0, true, true, true⟩
  | published {epoch : Nat} (hactive : t.active = true) (hmax : t.published ≠ 0xffffffff) :
      Outcome t ⟨.publish epoch (t.published + 1), .ok, {}, [.valid t.slot true]⟩
        { t with published := t.published + 1 }
  | observed {epoch raw : Nat} (hactive : t.active = true) (hraw : raw < 0x100000000)
      (hle : raw ≤ t.published) (hge : t.observed ≤ raw) :
      Outcome t ⟨.observe epoch, .ok, t.report raw,
        [.valid t.slot true, .load t.slot raw, .valid t.slot true]⟩ { t with observed := raw }
  | released (hheld : t.held = true) :
      Outcome t ⟨.close, .ok, {}, [.stopped t.slot true, .release t.slot]⟩
        { t with active := false, held := false, slot := {} }

/-- No callback disturbs `K`. -/
structure Keeps (io : Ops E) (K : E → Prop) : Prop where
  valid : ∀ s e, K e → K (io.valid s e).2
  retain : ∀ s e, K e → K (io.retain s e).2
  release : ∀ s e, K e → K (io.release s e).2
  stopped : ∀ s e, K e → K (io.stopped s e).2
  clear : ∀ s e, K e → K (io.clear s e).2
  load : ∀ s e, K e → K (io.load s e).2

variable {K : E → Prop} {b : List Event} {io : Ops E} {t t' : Timeline} {evs : List Event}
    {c : Call} {st : Status}

/-- Where a call stands: the object, and what was asked so far. -/
def Here (K : E → Prop) (base : List Event) (t : Timeline) (evs : List Event)
    (s : Sys Timeline E Event) : Prop :=
  s.obj = t ∧ (s.log.map Entry.event).reverse = base ++ evs ∧ K s.env

def Ends (K : E → Prop) (base : List Event) (t : Timeline) (c : Call) (a : Status × Observation)
    (s : Sys Timeline E Event) : Prop :=
  K s.env ∧ ∃ evs, (s.log.map Entry.event).reverse = base ++ evs ∧
  Outcome t ⟨c, a.1, a.2, evs⟩ s.obj

theorem ask_here {α : Type} {f : E → α × E} (hf : ∀ e, K e → K (f e).2) (ev : α → Event) :
    Spec (Here K b t evs) (ask f ev) (fun a => Here K b t (evs ++ [ev a])) := by
  refine spec_asked f ev fun s hs => ⟨hs.1, ?_, hf _ hs.2.2⟩
  change ((_ :: s.log).map Entry.event).reverse = _
  rw [List.map_cons, List.reverse_cons, hs.2.1, List.append_assoc]

theorem edit_here (f : Timeline → Timeline) :
    Spec (Here K b t evs) (edit f) (fun _ => Here K b (f t) evs) :=
  fun _ hs => ⟨congrArg f hs.1, hs.2⟩

/-- Checked before the slot is retained, and again after it. -/
theorem fit_here (hK : Keeps io K) {s : Slot} {c : Op E Status}
    {Q : Status → Sys Timeline E Event → Prop} (hno : ∀ rest, rest.filter Event.grave = [] →
      Spec (Here K b t (evs ++ rest)) (pure .unavailable) Q)
    (hyes : Spec (Here K b t (evs ++ [.valid s true, .stopped s true])) c Q) :
    Spec (Here K b t evs) (do
      let fit ← askValid io s <&&> askStopped io s
      if fit = false then return .unavailable
      c) Q := by
  have hfit : Spec (Here K b t evs) (askValid io s <&&> askStopped io s) (fun fit w =>
      ∃ rest, Here K b t (evs ++ rest) w ∧
        if fit then rest = [.valid s true, .stopped s true] else rest.filter Event.grave = []) := by
    refine spec_andM (ask_here (hK.valid s) _) (fun w hw => ⟨_, hw, rfl⟩) ?_
    refine spec_post (ask_here (hK.stopped s) _) fun stopped w hw =>
      ⟨_, List.append_assoc _ _ _ ▸ hw, ?_⟩
    cases stopped with
    | true | false => rfl
  refine spec_bind hfit fun fit w hw => ?_
  rcases hw with ⟨rest, hw, hrest⟩
  cases fit with
  | false => exact hno rest hrest w hw
  | true =>
    subst hrest
    exact hyes w hw

theorem ends_pure {α : Type} {f : α → Status × Observation} {a : α}
    (h : Outcome t ⟨c, (f a).1, (f a).2, evs⟩ t') :
    Spec (Here K b t' evs) (pure a) (fun a => Ends K b t c (f a)) := by
  exact spec_pure a fun s hs => ⟨hs.2.2, evs, hs.2.1, hs.1 ▸ h⟩

theorem Turn.unsuccessful {x : Turn} (h : x.status ≠ .ok ∨ x.call = .invalidate ∨ x.call = .close) :
    x.published = none ∧ x.observed = none := by
  rcases x with ⟨call, status, seen, events⟩
  cases call <;> cases status <;> first | exact ⟨rfl, rfl⟩ | simp_all

theorem Plain.stays (hst : st ≠ .ok) (hc : c ≠ .invalidate ∧ c ≠ .close)
    (hbind : ∀ s complete, c = .bind s complete → st = .invalid ∧ evs = [])
    (hevs : ∀ e ∈ evs, e = .valid t.slot true) : Outcome t ⟨c, st, {}, evs⟩ t := by
  refine .plain (a := t.active) ⟨List.filter_eq_nil_iff.mpr fun e he => ?_,
    Turn.unsuccessful (.inl hst), id, ?_, fun _ => hbind, fun h => absurd h hc.2⟩
  · rw [hevs e he]
    exact nofun
  · rintro _ (h | h | ⟨s, h⟩ | ⟨s, raw, h⟩) _
    · exact absurd h hc.1
    · exact absurd h hc.2
    · exact absurd (hevs _ h) (by simp)
    · exact absurd (hevs _ h) (by simp)

theorem Plain.drops (hst : st ≠ .ok ∨ c = .invalidate) (hc : ∀ s complete, c ≠ .bind s complete)
    (hevs : evs.filter Event.grave = []) :
    Outcome t ⟨c, st, {}, evs⟩ { t with active := false } := by
  refine .plain ⟨hevs, Turn.unsuccessful (hst.imp_right .inl), nofun, fun _ _ => nofun,
    fun _ s complete h => absurd h (hc s complete), fun hclose hok => ?_⟩
  rcases hst with h | rfl
  · exact absurd hok h
  · cases hclose

theorem bind_ends (hK : Keeps io K) (s : Slot) (complete : Bool) :
    Spec (Here K b t []) (bind io s complete) (fun a => Ends K b t (.bind s complete) (a, {})) := by
  refine spec_bind_look (fun w hw => hw.1) (spec_ite (fun _ => ends_pure ?_) fun hno => ?_)
  · simp [Plain.stays]
  have hused : t.used = false := eq_false_of_ne_true fun h => hno (.inl h)
  have hunbound : ∀ {evs}, evs.filter Event.grave = [] →
      Outcome t ⟨.bind s complete, .unavailable, {}, evs⟩ t := fun hevs =>
    .plain (a := t.active) ⟨hevs, Turn.unsuccessful (.inl nofun), id,
      fun h => absurd (hused.symm.trans h) nofun, fun h => absurd (hused.symm.trans h) nofun, nofun⟩
  refine fit_here hK (fun rest hrest => ends_pure (hunbound hrest)) ?_
  refine spec_bind (ask_here (hK.retain s) _) fun retained => ?_
  cases retained with
  | false => exact ends_pure (hunbound rfl)
  | true =>
    refine spec_ite nofun fun _ => spec_bind (edit_here _) fun _ =>
      fit_here hK (fun rest hrest => ends_pure (.retained hused hrest)) ?_
    exact spec_bind (ask_here (hK.clear s) _) fun _ => spec_bind (edit_here _) fun _ =>
      ends_pure (.bound hused)

theorem check_none {epoch : Nat} (h : t.check epoch = none) : t.active = true := by
  unfold Timeline.check at h
  cases hactive : t.active <;> simp_all

theorem check_some {epoch : Nat} (h : t.check epoch = some st) : st ≠ .ok := by
  unfold Timeline.check at h
  split at h
  · exact Option.some.inj h ▸ nofun
  · split at h
    · exact Option.some.inj h ▸ nofun
    · cases h

theorem publish_ends (hK : Keeps io K) (epoch n : Nat) : Spec (Here K b t []) (publish io epoch n)
    (fun a => Ends K b t (.publish epoch n) (a, {})) := by
  have hstays : ∀ {st evs}, st ≠ .ok → (∀ e ∈ evs, e = .valid t.slot true) →
      Outcome t ⟨.publish epoch n, st, {}, evs⟩ t := fun hst => Plain.stays hst (by simp) (by simp)
  refine spec_bind_look (fun w hw => hw.1) ?_
  cases hcheck : t.check epoch with
  | some st => exact ends_pure (hstays (check_some hcheck) nofun)
  | none =>
    refine spec_bind (ask_here (hK.valid _) _) fun valid => ?_
    cases valid with
    | false =>
      exact spec_bind (edit_here _) fun _ => ends_pure (Plain.drops (.inl nofun) nofun rfl)
    | true =>
      refine spec_ite nofun fun _ => ?_
      refine spec_ite (fun _ => ends_pure (hstays nofun (by simp))) fun hmax => ?_
      refine spec_ite (fun _ => ends_pure (hstays nofun (by simp))) fun hn => ?_
      obtain rfl : n = t.published + 1 := by omega
      exact spec_bind (edit_here _) fun _ => ends_pure (.published (check_none hcheck) hmax)

theorem observe_ends (hK : Keeps io K) (epoch : Nat) : Spec (Here K b t []) (observe io epoch)
    (Ends K b t (.observe epoch)) := by
  have hdrops : ∀ {st evs}, st ≠ .ok → evs.filter Event.grave = [] → Spec (Here K b t evs)
      (do return (← drop st, ({} : Observation))) (Ends K b t (.observe epoch)) :=
        fun hst hevs w hw =>
    ends_pure (f := id) (Plain.drops (.inl hst) (by simp) hevs) _
      (edit_here (fun t => { t with active := false }) w hw)
  refine spec_bind_look (fun w hw => hw.1) ?_
  cases hcheck : t.check epoch with
  | some st =>
    exact ends_pure (f := id) (Plain.stays (check_some hcheck) (by simp) (by simp) (by simp))
  | none =>
    refine spec_bind (ask_here (hK.valid _) _) fun valid => ?_
    cases valid with
    | false => exact hdrops nofun rfl
    | true =>
      refine spec_ite nofun fun _ => spec_bind (ask_here (hK.load _) _) fun raw =>
        spec_bind (ask_here (hK.valid _) _) fun valid => ?_
      cases valid with
      | false => exact hdrops nofun rfl
      | true =>
        refine spec_ite nofun fun _ => spec_ite (fun _ => hdrops nofun rfl) fun hfine => ?_
        rw [Nat.shiftRight_eq_div_pow] at hfine
        have hraw : raw < 0x100000000 := by omega
        refine spec_bind (edit_here _) fun _ => ends_pure (f := id) ?_
        rw [Nat.mod_eq_of_lt hraw]
        exact .observed (check_none hcheck) hraw (by omega) (by omega)

theorem close_ends (hK : Keeps io K) :
    Spec (Here K b t []) (close io) (fun a => Ends K b t .close (a, {})) := by
  refine spec_bind_look (fun w hw => hw.1) (spec_ite (fun hheld => ends_pure ?_) fun hheld => ?_)
  · exact .plain (a := t.active)
      ⟨rfl, Turn.unsuccessful (.inr (.inr rfl)), id, fun _ _ _ => hheld, nofun, fun _ _ => hheld⟩
  refine spec_bind (edit_here _) fun _ => spec_bind (ask_here (hK.stopped _) _) fun stopped => ?_
  cases stopped with
  | false => exact ends_pure (Plain.drops (.inl nofun) nofun rfl)
  | true =>
    exact spec_ite nofun fun _ => spec_bind (ask_here (hK.release _) _) fun _ =>
      spec_bind (edit_here _) fun _ =>
      ends_pure (.released (eq_true_of_ne_false hheld))

theorem answer_ends (hK : Keeps io K) (c : Call) : Spec (Here K b t []) (answer io c)
    (Ends K b t c) := by
  cases c with
  | bind s complete => exact spec_bind (bind_ends hK s complete) fun _ => spec_pure _ fun _ h => h
  | publish epoch n => exact spec_bind (publish_ends hK epoch n) fun _ => spec_pure _ fun _ h => h
  | observe epoch => exact observe_ends hK epoch
  | invalidate =>
    exact fun w hw => ends_pure (f := id) (Plain.drops (.inr rfl) nofun rfl) _
      (edit_here (fun t => { t with active := false }) w hw)
  | close => exact spec_bind (close_ends hK) fun _ => spec_pure _ fun _ h => h

section Under

variable {S Ev : Type} (io) (c : Call) (w : Sys Timeline (Sys S E Ev) Event)

/-- No method reaches past the callbacks. -/
theorem answer_below : (answer io.under c w).2.env.obj = w.env.obj ∧
    (answer io.under c w).2.env.log = w.env.log := by
  have hkeeps : Keeps io.under (fun e : Sys S E Ev => e.obj = w.env.obj ∧ e.log = w.env.log) :=
    ⟨fun _ _ h => h, fun _ _ h => h, fun _ _ h => h, fun _ _ h => h, fun _ _ h => h, fun _ _ h => h⟩
  exact (answer_ends hkeeps c w ⟨rfl, (List.append_nil _).symm, rfl, rfl⟩).1

theorem step_below : (step io.under c w).2.env.obj = w.env.obj ∧
    (step io.under c w).2.env.log = w.env.log := by
  have hsame : (step io.under c w).2 = (answer io.under c w).2 := by cases c <;> rfl
  exact hsame ▸ answer_below io c w

end Under

end Outcomes

section Runs

inductive Life (t : Timeline) : List Event → Prop
  | new (hused : t.used = false) (hheld : t.held = false) : Life t []
  | held {cl : List Event} (hused : t.used = true) (hheld : t.held = true)
      (hcl : cl.Sublist [.clear t.slot]) : Life t (.retain t.slot true :: cl)
  | freed {s : Slot} {cl : List Event} (hused : t.used = true) (hheld : t.held = false)
      (hcl : cl.Sublist [.clear s]) : Life t (.retain s true :: (cl ++ [.release s]))

structure Inv (t : Timeline) (log : List Line) : Prop where
  life : Life t ((asked log).filter Event.grave)
  active : t.active = true → t.held = true ∧ ¬Over log
  fresh : t.used = false → accepted log = [] ∧ observations log = []
  published : t.published = (accepted log).length ∧ t.published ≤ 0xffffffff
  observed : ∀ o ∈ observations log, o.raw ≤ t.observed

variable {t t' : Timeline} {x : Turn} {g : List Event} {l : Line} {log : List Line} {s : Slot}

@[simp] theorem accepted_cons : accepted (l :: log) = l.event.published.toList ++ accepted log := by
  rw [accepted, List.filterMap_cons]
  cases l.event.published <;> rfl

@[simp] theorem observations_cons :
    observations (l :: log) = l.event.observed.toList ++ observations log := by
  rw [observations, List.filterMap_cons]
  cases l.event.observed <;> rfl

theorem Life.once (h : Life t g) : ∃ s, g.Sublist [.retain s true, .clear s, .release s] := by
  cases h with
  | new => exact ⟨{}, List.nil_sublist _⟩
  | held _ _ hcl =>
    exact ⟨_, (hcl.trans (List.sublist_append_left _ [.release t.slot])).cons_cons _⟩
  | freed _ _ hcl => exact ⟨_, (hcl.append_right _).cons_cons _⟩

theorem Life.retained (h : Life t g) (hs : .retain s true ∈ g) :
    t.used = true ∧ if t.held then t.slot = s else .release s ∈ g := by
  have hclear : ∀ {cl : List Event} {s'}, cl.Sublist [.clear s'] → Event.retain s true ∉ cl :=
    fun hcl hs => absurd (List.mem_singleton.mp (hcl.subset hs)) nofun
  cases h with
  | new => cases hs
  | held hused hheld hcl => simp_all [hclear hcl]
  | freed hused hheld hcl => simp_all [hclear hcl]

theorem Life.slot (h : Life t g) (hheld : t.held = true) : .retain t.slot true ∈ g := by
  cases h with
  | held => exact List.mem_cons_self
  | new _ hno | freed _ hno => exact absurd (hheld.symm.trans hno) nofun

theorem Life.unused (h : Life t g) (hused : t.used = false) : g = [] := by
  cases h with
  | new => rfl
  | held hu | freed hu => exact absurd (hused.symm.trans hu) nofun

theorem Life.release (h : Life t g) (hheld : t.held = true) :
    Life { t with active := false, held := false, slot := {} } (g ++ [.release t.slot]) := by
  cases h with
  | held hused _ hcl => exact .freed hused rfl hcl
  | new _ hno | freed _ hno => exact absurd (hheld.symm.trans hno) nofun

theorem Life.congr (h : Life t g) (hused : t'.used = t.used) (hheld : t'.held = t.held)
    (hslot : t'.slot = t.slot) : Life t' g := by
  cases h with
  | new hu hh => exact .new (hused.trans hu) (hheld.trans hh)
  | held hu hh hcl => exact hslot ▸ .held (hused.trans hu) (hheld.trans hh) (hslot ▸ hcl)
  | freed hu hh hcl => exact .freed (hused.trans hu) (hheld.trans hh) hcl

theorem Inv.retained (h : Inv t log) (hs : Retained s log) :
    t.used = true ∧ if t.held then t.slot = s else .release s ∈ asked log := by
  have hlife := h.life.retained (List.mem_filter.mpr ⟨hs, rfl⟩)
  cases hheld : t.held <;> simp_all

theorem Inv.slot (h : Inv t log) (hheld : t.held = true) : Retained t.slot log :=
  (List.mem_filter.mp (h.life.slot hheld)).1

theorem Inv.unused (h : Inv t log) (hused : t.used = false) : t.active = false ∧
    ((asked log).filter Event.grave) = [] ∧ ∀ s, ¬Retained s log := by
  have hno : ∀ s, ¬Retained s log := fun s hs => absurd (hused.symm.trans (h.retained hs).1) nofun
  refine ⟨eq_false_of_ne_true fun ha => hno _ (h.slot (h.active ha).1), ?_, hno⟩
  exact h.life.unused hused

theorem Over.retained {log : List Line} (h : Over log) : ∃ s, Retained s log := by
  induction log with
  | nil => exact h.elim
  | cons l log ih =>
    rcases h with (h | h) | h
    · exact h.1.imp fun _ hs => List.mem_append_left _ hs
    · exact h.1.imp fun _ hs => List.mem_append_right _ hs
    · exact (ih h).imp fun _ hs => List.mem_append_left _ hs

theorem filter_asked (hx : x.events.filter Event.grave = g) :
    (asked (⟨t', x⟩ :: log)).filter Event.grave = (asked log).filter Event.grave ++ g := by
  rw [asked, List.filter_append, hx]

theorem Inv.mild (hinv : Inv t log) (hx : x.events.filter Event.grave = [])
    (hsame : t'.used = t.used ∧ t'.held = t.held ∧ t'.slot = t.slot)
    (hactive : t'.active = true → t.active = true ∧ ¬Breaks x log)
    (hpublished : t'.published = x.published.toList.length + t.published ∧
      t'.published ≤ 0xffffffff)
    (hobserved : t.observed ≤ t'.observed ∧ ∀ o, x.observed = some o → o.raw ≤ t'.observed)
    (hfresh : t.used = false → x.published = none ∧ x.observed = none) :
    Inv t' (⟨t', x⟩ :: log) := by
  refine ⟨?_, fun ha => ?_, fun hu => ?_, ?_, fun o ho => ?_⟩
  · simp [filter_asked hx, List.append_nil, hinv.life.congr, *]
  · rcases hinv.active (hactive ha).1 with ⟨hheld, hover⟩
    exact ⟨hsame.2.1.trans hheld, fun h => h.elim (hactive ha).2 hover⟩
  · rw [hsame.1] at hu
    simp [hfresh hu, hinv.fresh hu]
  · rw [accepted_cons, List.length_append, ← hinv.published.1]
    exact hpublished
  · rw [observations_cons, List.mem_append, Option.mem_toList] at ho
    rcases ho with ho | ho
    · exact hobserved.2 o ho
    · exact Nat.le_trans (hinv.observed o ho) hobserved.1

theorem Outcome.inv (h : Outcome t x t') (hinv : Inv t log) : Inv t' (⟨t', x⟩ :: log) := by
  have hpub := hinv.published
  cases h with
  | @plain _ active h =>
    refine hinv.mild h.mild ⟨rfl, rfl, rfl⟩ (fun ha => ⟨h.kept ha, ?_⟩)
      (by simpa [h.result] using hpub.2) (by simp [h.result]) fun _ => h.result
    rintro (⟨⟨s, hs⟩, hbreak⟩ | ⟨⟨s, hs⟩, _⟩)
    · have hheld := h.breaks (hinv.retained hs).1
        (hbreak.imp_right (Or.imp_right (Or.imp_right fun ⟨s, raw, h, _⟩ => ⟨s, raw, h⟩))) ha
      exact absurd (hheld.symm.trans (hinv.active (h.kept ha)).1) nofun
    · exact List.filter_eq_nil_iff.mp h.mild _ hs rfl
  | @retained s complete rest hused hrest =>
    rcases hinv.unused hused with ⟨hactive, hempty, _⟩
    refine ⟨?_, fun ha => absurd (hactive.symm.trans ha) nofun, nofun, hpub, hinv.observed⟩
    rw [filter_asked rfl, hempty, List.filter_append, hrest]
    exact .held rfl rfl (List.nil_sublist _)
  | @bound s complete hused =>
    rcases hinv.unused hused with ⟨_, hempty, hno⟩
    rcases hinv.fresh hused with ⟨haccepted, hobservations⟩
    refine ⟨?_, fun _ => ⟨rfl, ?_⟩, nofun, ⟨congrArg List.length haccepted.symm, Nat.zero_le _⟩, ?_⟩
    · rw [filter_asked rfl, hempty]
      exact .held rfl rfl (List.Sublist.refl _)
    · rintro ((⟨⟨s, hs⟩, _⟩ | ⟨_, s, hs⟩) | hover)
      · exact hno s hs
      · simp at hs
      · exact hover.retained.elim hno
    · exact fun o ho => absurd (hobservations ▸ ho) List.not_mem_nil
  | @published epoch hactive hmax =>
    refine hinv.mild rfl ⟨rfl, rfl, rfl⟩ (fun _ => ⟨hactive, ?_⟩) ⟨Nat.add_comm _ 1, ?_⟩
      ⟨Nat.le_refl _, nofun⟩ fun hused => absurd (hactive.symm.trans (hinv.unused hused).1) nofun
    · rintro (⟨_, h⟩ | ⟨⟨s, hs⟩, _⟩)
      · simp at h
      · simp at hs
    · have := hpub.2
      change t.published + 1 ≤ _
      omega
  | @observed epoch raw hactive hraw hle hge =>
    refine hinv.mild rfl ⟨rfl, rfl, rfl⟩ (fun _ => ⟨hactive, ?_⟩) ⟨(Nat.zero_add _).symm, hpub.2⟩
      ⟨hge, fun o ho => ?_⟩ fun hused => absurd (hactive.symm.trans (hinv.unused hused).1) nofun
    · rintro (⟨_, h | h | ⟨s, h⟩ | ⟨s, raw', h, hbad⟩⟩ | ⟨⟨s, hs⟩, _⟩)
      · cases h
      · cases h
      · simp at h
      · obtain ⟨rfl, rfl⟩ : s = t.slot ∧ raw' = raw := by simpa using h
        rcases hbad with hbad | hbad | ⟨o, ho, hbad⟩
        · omega
        · omega
        · exact absurd (hinv.observed o ho) (by omega)
      · simp at hs
    · exact Option.some.inj ho ▸ Nat.le_refl raw
  | released hheld =>
    have hused := (hinv.retained (hinv.slot hheld)).1
    refine ⟨?_, nofun, fun h => absurd (h.symm.trans hused) nofun, hpub, hinv.observed⟩
    rw [filter_asked rfl]
    exact hinv.life.release hheld

theorem Outcome.rule (h : Outcome t x t') (hinv : Inv t log) : Rule ⟨t', x⟩ log := by
  have honce := (h.inv hinv).life.once
  have hover : t.active = true → ¬Over log := fun ha => (hinv.active ha).2
  have hmild : ∀ {evs : List Event} {e : Event}, evs.filter Event.grave = [] → e.grave = true →
      e ∉ evs := fun hevs hg he => List.filter_eq_nil_iff.mp hevs _ he hg
  cases h with
  | @plain _ active h =>
    refine ⟨by simp [h.result], by simp [h.result], fun _ => h.result, honce,
      fun s hs => absurd hs (hmild h.mild rfl), fun s hs => h.bind (hinv.retained hs).1,
      fun s hs => absurd hs (hmild h.mild rfl), fun s hs hclose hok => ?_⟩
    have hslot := (hinv.retained hs).2
    rw [h.close hclose hok] at hslot
    exact List.mem_append_left _ hslot
  | @retained s complete rest hused hrest =>
    refine ⟨nofun, nofun, fun _ => ⟨rfl, rfl⟩, honce, fun s' hs => ?_,
      fun s' hs => absurd hs ((hinv.unused hused).2.2 s'), fun s' hs => ?_, nofun⟩
    · exact absurd (by simpa using hs) (hmild hrest (e := .clear s') rfl)
    · exact absurd (by simpa using hs) (hmild hrest (e := .release s') rfl)
  | @bound s complete hused =>
    refine ⟨nofun, nofun, fun _ => ⟨rfl, rfl⟩, honce, fun s' hs => ?_,
      fun s' hs => absurd hs ((hinv.unused hused).2.2 s'), by simp, nofun⟩
    obtain rfl : s' = s := by simpa using hs
    exact ⟨(hinv.fresh hused).1, rfl⟩
  | @published epoch hactive hmax =>
    have hpub := hinv.published
    refine ⟨fun n hn => ?_, nofun, fun h => absurd h (hover hactive), honce, by simp,
      nofun, by simp, nofun⟩
    obtain rfl : t.published + 1 = n := Option.some.inj hn
    exact ⟨congrArg (· + 1) hpub.1, by omega⟩
  | @observed epoch raw hactive hraw hle hge =>
    refine ⟨nofun, fun o ho => ?_, fun h => absurd h (hover hactive), honce, by simp,
      nofun, by simp, nofun⟩
    obtain rfl : t.report raw = o := Option.some.inj ho
    exact ⟨Nat.mod_eq_of_lt hraw, hinv.published.1 ▸ hle,
      fun o ho => Nat.le_trans (hinv.observed o ho) hge,
      t.slot, hinv.slot (hinv.active hactive).1, rfl⟩
  | released hheld =>
    refine ⟨nofun, nofun, fun _ => ⟨rfl, rfl⟩, honce, by simp, nofun, fun s hs => ?_,
      fun s hs _ _ => ?_⟩
    · obtain rfl : s = t.slot := by simpa using hs
      exact ⟨hinv.slot hheld, rfl⟩
    · have hslot := (hinv.retained hs).2
      rw [if_pos hheld] at hslot
      simp [asked, hslot]

theorem record_kept (io : Ops E) (c : Call) {y : Timeline × E × List Line}
    (hinv : Inv y.1 y.2.2) (hlog : Chron Rule y.2.2) :
    Inv (record io y c).1 (record io y c).2.2 ∧ Chron Rule (record io y c).2.2 := by
  have hkeeps : Keeps io (fun _ => True) :=
    ⟨fun _ _ h => h, fun _ _ h => h, fun _ _ h => h, fun _ _ h => h, fun _ _ h => h, fun _ _ h => h⟩
  rcases answer_ends (b := []) hkeeps c ⟨y.1, y.2.1, []⟩ ⟨rfl, rfl, trivial⟩ with
    ⟨_, evs, rfl, hends⟩
  exact ⟨hends.inv hinv, hends.rule hinv, hlog⟩

/-- A timeline keeps its rules over any sequence of calls. -/
theorem timeline_sound (io : Ops E) (e : E) (calls : List Call) :
    Chron Rule (history io e calls).2.2 := by
  have hrun : ∀ y : Timeline × E × List Line, Inv y.1 y.2.2 → Chron Rule y.2.2 →
      Chron Rule (calls.foldl (record io) y).2.2 := by
    induction calls with
    | nil => exact fun _ _ hlog => hlog
    | cons c calls ih =>
      intro y hinv hlog
      rcases record_kept io c hinv hlog with ⟨hinv, hlog⟩
      exact ih _ hinv hlog
  exact hrun _ ⟨.new rfl rfl, nofun, fun _ => ⟨rfl, rfl⟩, ⟨rfl, Nat.zero_le _⟩, nofun⟩ trivial

end Runs

end Mellow.XeFence
