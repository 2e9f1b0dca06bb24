import Mathlib.Tactic.Common
import Mellow.Lib.Logs
import Mellow.Xe.Interrupt.Model

/-!
# Delivery of Interrupts

What `service` does with the interrupts of a batch, over calls that each run
alone. That every identity is delivered once and in order is one equation: what
was captured is what was drained followed by what the controller still holds. A
failure makes a controller `Dead`, and a dead one does nothing that `Acts`
lists.

## Main definitions

* `book`: what the log says was captured and drained.
* `Rule`: what each line owes to those before it.
* `Live`: nothing has failed.
* `Ends`: how a method ends.
* `Delivers`: what holds after any calls.

## Theorems

* `service_spec`: how `service` ends.
* `run_delivers`: every reachable state delivers.
-/

namespace Mellow.Interrupt

open Lib

section Books

/-- What was acknowledged: the bank, what its selector held, and the value. -/
structure Capture where
  bank : Nat
  mask : Word
  raw : Word
  deriving DecidableEq

def Identity.capture (id : Identity) : Capture := ⟨id.bank, single id.bit, id.raw⟩

/-- By bank, and by bit within a bank. -/
def Capture.Before (a b : Capture) : Prop := a.bank < b.bank ∨ a.bank = b.bank ∧ a.mask < b.mask

structure Book where
  chosen : Word := 0
  captured : List Capture := []
  drained : List Capture := []
  other : Word := 0

def Book.add (k : Book) : Event → Book
  | .read .gfxMaster (some master) => { k with other := master &&& ~~~(masterEnable ||| 3) }
  | .write (.selectorRegister _) v _ => { k with chosen := v }
  | .write (.identityRegister bank) v true =>
    { k with captured := k.captured ++ [⟨bank, k.chosen, v⟩] }
  | .identity _ id .drained => { k with drained := k.drained ++ [id.capture] }
  | .otherMaster _ _ .drained => { k with other := 0 }
  | _ => k

def book : Log → Book
  | [] => {}
  | l :: before => (book before).add l.event

/-- Everything that was captured has been drained. -/
def Book.Clear (k : Book) : Prop := k.captured = k.drained ∧ k.other = 0

end Books

section Rules

def access : Event → Option Event
  | .read reg v => some (.read reg v)
  | .write reg v done => some (.write reg v done)
  | _ => none

def bitsOf (dw : Word) (bits : List Nat) : List Nat :=
  bits.filter fun bit => decide (dw &&& single bit ≠ 0)

/-- Acknowledging, handing out and enabling. -/
def Acts : Event → Prop
  | .write .tileMaster v _ => v ≠ 0
  | .write .gfxMaster _ _ => True
  | .write (.bankStatus _) _ _ => True
  | .write (.identityRegister _) _ _ => True
  | .identity _ _ _ => True
  | .otherMaster _ _ _ => True
  | _ => False

def Fails (l : Entry Controller Event) : Prop :=
  l.obj.phase = .fault ∨
    match l.event with
    | .write _ _ done => done = false
    | .read (.control _) v => v = none
    | .read _ v => v = none ∨ v = some allOnes
    | .identity _ _ answer => answer = .failed
    | .otherMaster _ _ answer => answer = .failed
    | _ => False

def Due (o : Controller) (before : Log) : Event → Prop
  -- A new batch is looked for only when the last one is done with.
  | .read .tileMaster _ => o.phase = .workloop → (book before).Clear
  | .read .gfxMaster _ => (book before).Clear
  | .write .tileMaster v _ => v ≠ 0 → (book before).Clear
  -- An identity is acknowledged after it was read, with its valid bit.
  | .write (.identityRegister bank) v _ => v &&& identityValid ≠ 0 ∧
    latest access before = some (.read (.identityRegister bank) (some v))
  -- A summary is acknowledged after each of its bits.
  | .write (.bankStatus bank) dw _ => ∃ mid l older new, before = mid ++ l :: older ∧
    l.event = .read (.bankStatus bank) (some dw) ∧
    (book before).captured = (book older).captured ++ new ∧
    new.map (fun c => (c.bank, c.mask)) = (bitsOf dw (List.range 32)).map fun bit =>
      (bank, single bit)
  -- What is handed out is the first that is not drained.
  | .identity _ id _ => id = .of id.raw id.bank id.bit ∧ ∃ rest,
    (book before).captured = (book before).drained ++ id.capture :: rest ∧
    (id.capture :: rest).Pairwise Capture.Before
  | .otherMaster _ bits _ =>
    (book before).captured = (book before).drained ∧ bits = (book before).other ∧ bits ≠ 0
  | _ => True

def Rule (l : Entry Controller Event) (before : Log) : Prop :=
  Due l.obj before l.event ∧ (Acts l.event → l.obj.phase ≠ .fault ∧ ∀ l' ∈ before, ¬Fails l')

end Rules

section States

variable {E : Type}

def Memory.queue (m : Memory) : List Identity :=
  (List.range (m.eventCount - m.nextEvent)).map fun i => m.events (m.nextEvent + i)

/-- What the controller holds is what the log says is still to be drained. -/
structure Link (m : Memory) (k : Book) : Prop where
  owed : k.captured = k.drained ++ m.queue.map Identity.capture
  other : k.other = m.other
  sorted : (m.queue.map Identity.capture).Pairwise Capture.Before
  decoded : ∀ id ∈ m.queue, id = .of id.raw id.bank id.bit
  inside : m.nextEvent ≤ m.eventCount

structure Logged (s : World E) : Prop where
  rule : Chron Rule s.log
  stored : ∀ l ∈ s.log, l.obj.eventCount ≤ 64
  room : s.obj.eventCount ≤ 64

def Sound (s : World E) : Prop := s.obj.phase ≠ .fault ∧ ∀ l ∈ s.log, ¬Fails l

structure Live (s : World E) : Prop where
  logged : Logged s
  sound : Sound s
  link : Link s.obj.mem (book s.log)

structure Dead (s : World E) : Prop where
  logged : Logged s
  fault : s.obj.phase = .fault
  configured : s.obj.configured = true

/-- A batch is being collected or handed out. -/
structure Busy (s : World E) : Prop where
  live : Live s
  phase : s.obj.phase = .workloop
  configured : s.obj.configured = true

structure Resting (s : World E) : Prop where
  live : Live s
  ready : s.obj.batchReady = true → s.obj.phase = .workloop
  clear : s.obj.batchReady = false → s.obj.queue = [] ∧ s.obj.other = 0
  configured : s.obj.phase ≠ .stopped → s.obj.configured = true

end States

section Lines

variable {E : Type} {s t u : World E} {ev : Event} {o : Controller}

/-- Questions that touch no register. -/
def Asks : Event → Prop
  | .admitted _ => True
  | .time _ => True
  | _ => False

theorem Asks.rule (h : Asks ev) (o : Controller) (before : Log) :
    Rule ⟨o, ev⟩ before := by
  cases ev with
  | admitted | time => exact ⟨trivial, fun h => h.elim⟩
  | _ => exact h.elim

theorem Asks.add (h : Asks ev) (k : Book) : k.add ev = k := by
  cases ev with
  | admitted | time => rfl
  | _ => exact h.elim

theorem Asks.access (h : Asks ev) : Interrupt.access ev = none := by
  cases ev with
  | admitted | time => rfl
  | _ => exact h.elim

theorem Asks.not_fails (h : Asks ev) (ho : o.phase ≠ .fault) :
    ¬Fails ⟨o, ev⟩ := by
  cases ev with
  | admitted | time => exact fun hf => hf.elim ho id
  | _ => exact h.elim

theorem Logged.heard (h : Logged s) (ev : Event) (hr : Rule ⟨s.obj, ev⟩ s.log) (e : E) :
    Logged (s.heard ev e) := by
  refine ⟨⟨hr, h.rule⟩, fun l hl => ?_, h.room⟩
  rcases List.mem_cons.mp hl with rfl | hl
  · exact h.room
  · exact h.stored l hl

theorem Logged.quiet (h : Logged t) (hq : Quiet Asks t s) : Logged s := by
  rcases hq.lines with ⟨lines, hlog, hlines⟩
  refine ⟨hq.chron (fun l before hl => hl.rule l.obj before) h.rule, fun l hl => ?_,
    hq.obj ▸ h.room⟩
  rw [hlog] at hl
  rcases List.mem_append.mp hl with hl | hl
  · rw [(hlines l hl).1]
    exact h.room
  · exact h.stored l hl

theorem book_append {lines : Log} (h : ∀ l ∈ lines, Asks l.event)
    (log : Log) : book (lines ++ log) = book log := by
  induction lines with
  | nil => rfl
  | cons l lines ih =>
    change (book (lines ++ log)).add l.event = _
    rw [(h l List.mem_cons_self).add]
    exact ih fun l' hl' => h l' (List.mem_cons_of_mem l hl')

theorem book_quiet (hq : Quiet Asks t s) : book s.log = book t.log := by
  rcases hq.lines with ⟨lines, hlog, hlines⟩
  rw [hlog]
  exact book_append (fun l hl => (hlines l hl).2) t.log

theorem Sound.quiet (h : Sound t) (hq : Quiet Asks t s) : Sound s := by
  rcases hq.lines with ⟨lines, hlog, hlines⟩
  refine ⟨hq.obj ▸ h.1, fun l hl => ?_⟩
  rw [hlog] at hl
  rcases List.mem_append.mp hl with hl | hl
  · exact (hlines l hl).2.not_fails (by rw [(hlines l hl).1]; exact h.1)
  · exact h.2 l hl

theorem Sound.heard (h : Sound s) (ev : Event) (hf : ¬Fails ⟨s.obj, ev⟩) (e : E) :
    Sound (s.heard ev e) := by
  refine ⟨h.1, fun l hl => ?_⟩
  rcases List.mem_cons.mp hl with rfl | hl
  · exact hf
  · exact h.2 l hl

theorem Live.quiet (h : Live t) (hq : Quiet Asks t s) : Live s := by
  refine ⟨h.logged.quiet hq, h.sound.quiet hq, ?_⟩
  rw [hq.obj, book_quiet hq]
  exact h.link

theorem Busy.quiet (h : Busy t) (hq : Quiet Asks t s) : Busy s :=
  ⟨h.live.quiet hq, hq.obj ▸ h.phase, hq.obj ▸ h.configured⟩

/-- One more line, of an event that nothing speaks against. -/
theorem Live.heard (h : Live s) (ev : Event) (hdue : Due s.obj s.log ev) (hf : ¬Fails ⟨s.obj, ev⟩)
    (hlink : Link s.obj.mem ((book s.log).add ev)) (e : E) : Live (s.heard ev e) :=
  ⟨h.logged.heard ev ⟨hdue, fun _ => h.sound⟩ e, h.sound.heard ev hf e, hlink⟩

theorem Busy.heard (h : Busy s) (ev : Event) (hdue : Due s.obj s.log ev) (hf : ¬Fails ⟨s.obj, ev⟩)
    (hadd : ∀ k : Book, k.add ev = k) (e : E) : Busy (s.heard ev e) :=
  ⟨h.live.heard ev hdue hf ((hadd _).symm ▸ h.live.link) e, h.phase, h.configured⟩

theorem Busy.record (h : Busy t) (m : Memory) (hlink : Link m (book t.log))
    (hroom : m.eventCount ≤ 64) (hconfigured : m.configured = true) :
    Busy (t.put { t.obj with mem := m }) :=
  ⟨⟨⟨h.live.logged.rule, h.live.logged.stored, hroom⟩, h.live.sound, hlink⟩, h.phase, hconfigured⟩

theorem not_fails_read (ho : o.phase ≠ .fault) (reg : Reg) {v : Word}
    (hv : v ≠ allOnes) : ¬Fails ⟨o, .read reg (some v)⟩ := by
  rintro (hf | hf)
  · exact ho hf
  · cases reg with
    | control offset => cases hf
    | _ => exact hf.elim nofun fun hf => hv (Option.some.inj hf)

theorem not_fails_write (ho : o.phase ≠ .fault) (reg : Reg) (v : Word) :
    ¬Fails ⟨o, .write reg v true⟩ :=
  fun hf => hf.elim ho nofun

end Lines

section Accesses

variable {E α β : Type} {io : Backend E} {s t : World E}
  {Q : α → World E → Prop} {c : Ctl α} {f : Bool → Ctl α}

def Ends (io : Backend E) (t : World E) (c : Ctl α)
    (Q : α → World E → Prop) : Prop :=
  Q (alone io c t).1 (alone io c t).2

theorem Ends.seq {c : Ctl β} {f : β → Ctl α} {R : β → World E → Prop}
    (hc : Ends io t c R) (hf : ∀ a u, R a u → Ends io u (f a) Q) : Ends io t (c >>= f) Q := by
  unfold Ends alone
  rw [Code.exec_bind]
  exact hf _ _ hc

theorem Ends.ret {a : α} (h : Q a t) : Ends io t (pure a) Q := h

theorem Ends.mono {R : α → World E → Prop} (h : Ends io t c R)
    (hQ : ∀ a s, R a s → Q a s) : Ends io t c Q :=
  hQ _ _ h

theorem Ends.cond {p : Prop} [Decidable p] {d : Ctl α} (hc : p → Ends io t c Q)
    (hd : ¬p → Ends io t d Q) : Ends io t (if p then c else d) Q := by
  by_cases hp : p
  · rw [if_pos hp]
    exact hc hp
  · rw [if_neg hp]
    exact hd hp

theorem Ends.loads {f : Phase → Ctl α} (h : Ends io t (f t.obj.phase) Q) :
    Ends io t (perform .load >>= f) Q := h

theorem Ends.stores {p : Phase} (h : Ends io (t.put { t.obj with phase := p }) c Q) :
    Ends io t (perform (.store p) >>= fun _ => c) Q := h

theorem Ends.looks {f : Memory → Ctl α} (h : Ends io t (f t.obj.mem) Q) :
    Ends io t (fields >>= f) Q := h

theorem Ends.records {f : Memory → Memory}
    (h : Ends io (t.put { t.obj with mem := f t.obj.mem }) c Q) :
    Ends io t (record f >>= fun _ => c) Q := h

theorem Ends.asked {o : Op} {g : E → o.Answer × E} {ev : o.Answer → Event}
    {Q : o.Answer → World E → Prop} (ho : Op.run io o = ask g ev)
    (h : ∀ a e, Q a (t.heard (ev a) e)) : Ends io t (perform o) Q := by
  change Q (Op.run io o t).1 (Op.run io o t).2
  rw [ho]
  exact h _ _

theorem Ends.asks {o : Op} {g : E → o.Answer × E} {ev : o.Answer → Event} {f : o.Answer → Ctl α}
    (ho : Op.run io o = ask g ev) (h : ∀ a e, Ends io (t.heard (ev a) e) (f a) Q) :
    Ends io t (perform o >>= f) Q := by
  refine .seq (R := fun a s => ∃ e, s = t.heard (ev a) e) (.asked ho fun _ e => ⟨e, rfl⟩) ?_
  rintro a s ⟨e, rfl⟩
  exact h a e

theorem Op.run_suffix (o : Op) :
    Spec (fun s => t.log <:+ s.log) (Op.run io o) (fun _ s => t.log <:+ s.log) := by
  intro s hs
  cases o with
  | compareExchange expected desired =>
    change t.log <:+
      ((if s.obj.phase = expected then _ else _ : Prog Controller E Event Bool) s).2.log
    split_ifs <;> exact hs
  | load | store | fields | record => exact hs
  | _ => exact hs.trans (List.suffix_cons _ _)

/-- Lines are added to the log and never taken away. -/
theorem Ends.adds (h : Ends io t c Q) : Ends io t c fun a s => Q a s ∧ t.log <:+ s.log :=
  ⟨h, Code.spec_kept Op.run_suffix c t (List.suffix_refl _)⟩

theorem Ends.admits (h : ∀ b u, Quiet Asks t u → Ends io u (f b) Q) :
    Ends io t (admitted >>= f) Q := by
  refine .seq (R := fun _ u => Quiet Asks t u) ?_ h
  exact .looks (.cond (fun _ => .ret (.refl t)) fun _ => .asked rfl fun _ e =>
    (Quiet.refl t).heard trivial e)

def Broken (s : World E) : Prop := Logged s ∧ s.obj.configured = true

theorem Busy.broken (h : Busy s) : Broken s := ⟨h.live.logged, h.configured⟩

theorem Broken.quiet (h : Broken t) (hq : Quiet Asks t s) : Broken s :=
  ⟨h.1.quiet hq, hq.obj ▸ h.2⟩

theorem Broken.heard (h : Broken s) (ev : Event) (hr : Rule ⟨s.obj, ev⟩ s.log) (e : E) :
    Broken (s.heard ev e) :=
  ⟨h.1.heard ev hr e, h.2⟩

theorem write_spec (t : World E) (reg : Reg) (v : Word) :
    Ends io t (write reg v) (fun a s => ∃ u, Quiet Asks t u ∧
      ((a = false ∧ s = u) ∨ ∃ e, s = u.heard (.write reg v a) e)) :=
  .admits fun _ u hq => .cond (fun _ => .ret ⟨u, hq, .inl ⟨rfl, rfl⟩⟩) fun _ =>
    .asked rfl fun _ e => ⟨u, hq, .inr ⟨e, rfl⟩⟩

theorem Ends.tries {reg : Reg} {v : Word}
    (hno : ∀ u, Quiet Asks t u → Ends io u (f false) Q)
    (hdone : ∀ u done e, Quiet Asks t u → Ends io (u.heard (.write reg v done) e) (f done) Q) :
    Ends io t (write reg v >>= f) Q := by
  refine .seq (write_spec t reg v) ?_
  rintro a s ⟨u, hq, ⟨rfl, rfl⟩ | ⟨e, rfl⟩⟩
  · exact hno s hq
  · exact hdone u a e hq

theorem Ends.writes {reg : Reg} {v : Word} (ht : Broken t)
    (hrule : ∀ u done, Quiet Asks t u → Rule ⟨u.obj, .write reg v done⟩ u.log)
    (hno : ∀ u, Broken u → Ends io u (f false) Q)
    (hok : ∀ u e, Quiet Asks t u → Ends io (u.heard (.write reg v true) e) (f true) Q) :
    Ends io t (write reg v >>= f) Q := by
  refine .tries (fun u hq => hno u (ht.quiet hq)) fun u done e hq => ?_
  cases done with
  | false => exact hno _ ((ht.quiet hq).heard _ (hrule u false hq) e)
  | true => exact hok u e hq

theorem Ends.reads {reg : Reg} {f : Option Word → Ctl α} (ht : Broken t)
    (hrule : ∀ u v, Quiet Asks t u → Rule ⟨u.obj, .read reg v⟩ u.log)
    (hno : ∀ u, Broken u → Ends io u (f none) Q)
    (hok : ∀ u v e, Quiet Asks t u → v ≠ allOnes →
      Ends io (u.heard (.read reg (some v)) e) (f (some v)) Q) :
    Ends io t (read reg >>= f) Q := by
  refine .seq (R := fun a s => (a = none ∧ Broken s) ∨ ∃ u v e, Quiet Asks t u ∧ v ≠ allOnes ∧
    a = some v ∧ s = u.heard (.read reg (some v)) e) ?_ ?_
  · refine .admits fun b u hq => .cond (fun _ => .ret (.inl ⟨rfl, ht.quiet hq⟩)) fun _ =>
      .asks rfl fun v e => ?_
    have hbroken := (ht.quiet hq).heard (.read reg v) (hrule u v hq) e
    cases v with
    | none => exact .ret (.inl ⟨rfl, hbroken⟩)
    | some v =>
      by_cases hv : v = allOnes
      · exact .ret (.inl ⟨if_pos hv, hbroken⟩)
      · exact .ret (.inr ⟨u, v, e, hq, hv, if_neg hv, rfl⟩)
  · rintro a s (⟨rfl, hbroken⟩ | ⟨u, v, e, hq, hv, rfl, rfl⟩)
    · exact hno s hbroken
    · exact hok u v e hq hv

theorem Dead.quiet (h : Dead t) (hq : Quiet Asks t s) : Dead s :=
  ⟨h.logged.quiet hq, hq.obj ▸ h.fault, hq.obj ▸ h.configured⟩

theorem rule_mask (o : Controller) (done : Bool) (before : Log) :
    Rule ⟨o, .write .tileMaster 0 done⟩ before :=
  ⟨fun h => absurd rfl h, fun h => absurd rfl h⟩

theorem Ends.fails {status : Status} {Q : Status → World E → Prop} (ht : Broken t)
    (hQ : ∀ s, Dead s → Q status s) : Ends io t (fail status) Q := by
  have hdead : Dead (t.put { t.obj with phase := .fault }) :=
    ⟨⟨ht.1.rule, ht.1.stored, ht.1.room⟩, rfl, ht.2⟩
  refine .stores (.admits fun b u hq => ?_)
  cases b with
  | false => exact .ret (hQ u (hdead.quiet hq))
  | true =>
    refine .tries (fun w hw => .ret (hQ w ((hdead.quiet hq).quiet hw))) fun w done e hw =>
      .ret (hQ _ ?_)
    have hw' := (hdead.quiet hq).quiet hw
    exact ⟨hw'.logged.heard _ (rule_mask _ _ _) e, hw'.fault, hw'.configured⟩

/-- What is answered after a failure. -/
abbrev Ill (a : Status) : Prop := a ≠ .ok ∧ a ≠ .empty ∧ a ≠ .pending

/-- A part ends well, or it leaves a fault. -/
def Concluded (K : World E → Prop) (a : Status) (s : World E) : Prop :=
  (a = .ok ∧ K s) ∨ (Ill a ∧ Dead s)

theorem Ends.fault {status : Status} {K : World E → Prop} (ht : Broken t)
    (hne : Ill status) : Ends io t (fail status) (Concluded K) :=
  .fails ht fun _ hs => .inr ⟨hne, hs⟩

theorem Ends.checks {c d : Ctl Status} {K : World E → Prop}
    {Q : Status → World E → Prop} (hc : Ends io t c (Concluded K))
    (hdead : ∀ a s, Ill a → Dead s → Q a s) (hok : ∀ u, K u → Ends io u d Q) :
    Ends io t (c >>= fun a => if a ≠ .ok then pure a else d) Q := by
  refine .seq hc fun a u hu => .cond (fun ha => .ret ?_) fun ha => ?_
  · exact hu.elim (fun h => absurd h.1 ha) fun h => hdead a u h.1 h.2
  · simp [hu.elim, *]

end Accesses

section Capturing

variable {E : Type} {io : Backend E} {s t u : World E} {bank : Nat} {master : Word}

/-- Events were captured, and nothing else has changed. -/
structure Grew (t s : World E) (ids : List Identity) : Prop where
  busy : Busy s
  queue : s.obj.queue = t.obj.queue ++ ids
  count : s.obj.eventCount = t.obj.eventCount + ids.length
  ready : s.obj.batchReady = t.obj.batchReady
  log : ∃ mid, s.log = mid ++ t.log
  captured : (book s.log).captured = (book t.log).captured ++ ids.map Identity.capture

theorem Grew.refl (h : Busy t) : Grew t t [] :=
  ⟨h, (List.append_nil _).symm, rfl, rfl, ⟨[], rfl⟩, (List.append_nil _).symm⟩

theorem Grew.trans {ids ids' : List Identity} (h : Grew t u ids) (h' : Grew u s ids') :
    Grew t s (ids ++ ids') := by
  rcases h.log with ⟨mid, hlog⟩
  rcases h'.log with ⟨mid', hlog'⟩
  refine ⟨h'.busy, ?_, ?_, h'.ready.trans h.ready, ⟨mid' ++ mid, ?_⟩, ?_⟩
  · rw [h'.queue, h.queue, List.append_assoc]
  · rw [h'.count, h.count, List.length_append, Nat.add_assoc]
  · rw [hlog', hlog, List.append_assoc]
  · rw [h'.captured, h.captured, List.map_append, List.append_assoc]

theorem queue_push (m : Memory) (id : Identity) (h : m.nextEvent ≤ m.eventCount) :
    (m.push id).queue = m.queue ++ [id] := by
  unfold Memory.queue Memory.push
  dsimp only
  rw [show m.eventCount + 1 - m.nextEvent = m.eventCount - m.nextEvent + 1 by omega,
    List.range_succ, List.map_append]
  congr 1
  · refine List.map_congr_left fun i hi => Function.update_of_ne ?_ _ _
    have := List.mem_range.mp hi
    omega
  · simp [*]

/-- Nothing has changed but for lines that the book does not count. -/
structure Stayed (t s : World E) : Prop where
  obj : s.obj = t.obj
  book : book s.log = book t.log
  log : ∃ mid, s.log = mid ++ t.log

theorem Stayed.trans (h : Stayed t u) (h' : Stayed u s) : Stayed t s := by
  rcases h.log with ⟨mid, hlog⟩
  rcases h'.log with ⟨mid', hlog'⟩
  refine ⟨h'.obj.trans h.obj, h'.book.trans h.book, mid' ++ mid, ?_⟩
  rw [hlog', hlog, List.append_assoc]

theorem stayed_quiet (hq : Quiet Asks t s) : Stayed t s := by
  rcases hq.lines with ⟨lines, hlog, _⟩
  exact ⟨hq.obj, book_quiet hq, lines, hlog⟩

theorem Stayed.suffix (h : Stayed t s) : t.log <:+ s.log := by
  rcases h.log with ⟨mid, hlog⟩
  exact ⟨mid, hlog.symm⟩

theorem stayed_heard (ev : Event) (hev : ∀ k : Book, k.add ev = k) (t : World E)
    (e : E) : Stayed t (t.heard ev e) :=
  ⟨rfl, hev _, [⟨t.obj, ev⟩], rfl⟩

def Polled (bank : Nat) (t : World E) (a : Option (Option Word))
    (s : World E) : Prop :=
  Broken s ∧ ∀ v, a = some (some v) → Busy s ∧ Stayed t s ∧ v &&& identityValid ≠ 0 ∧
    latest access s.log = some (.read (.identityRegister bank) (some v))

theorem rule_identity (o : Controller) (bank : Nat) (v : Option Word)
    (before : Log) :
    Rule ⟨o, .read (.identityRegister bank) v⟩ before :=
  ⟨trivial, fun h => h.elim⟩

theorem Busy.polled (h : Busy t) (hq : Quiet Asks t u) (bank : Nat) {v : Word} (hv : v ≠ allOnes)
    (e : E) : Busy (u.heard (.read (.identityRegister bank) (some v)) e) := by
  have hu := h.quiet hq
  exact hu.heard _ (rule_identity u.obj bank (some v) u.log).1
    (not_fails_read hu.live.sound.1 _ hv) (fun _ => rfl) e

theorem poll_spec (bank began left : Nat) (ht : Busy t) :
    Ends io t (poll bank began left) (Polled bank t) := by
  induction left generalizing t with
  | zero => exact .ret ⟨ht.broken, nofun⟩
  | succ left ih =>
    refine .reads ht.broken (fun u v _ => rule_identity u.obj bank v u.log)
      (fun u hu => .ret ⟨hu, nofun⟩) fun u v e hq hv => ?_
    have hbusy := ht.polled hq bank hv e
    have hstayed := (stayed_quiet hq).trans
      (stayed_heard (.read (.identityRegister bank) (some v)) (fun _ => rfl) u e)
    refine .cond (fun hvalid => .ret ⟨hbusy.broken, fun w hw => ?_⟩) fun _ =>
      .asks rfl fun now e' => ?_
    · cases hw
      exact ⟨hbusy, hstayed, hvalid, rfl⟩
    have hclock : Quiet Asks (u.heard (.read (.identityRegister bank) (some v)) e)
        ((u.heard (.read (.identityRegister bank) (some v)) e).heard (.time now) e') :=
      (Quiet.refl _).heard trivial e'
    refine .cond (fun _ => .ret ⟨(hbusy.quiet hclock).broken, nofun⟩) fun _ => ?_
    refine (ih (hbusy.quiet hclock)).mono fun a s hs => ⟨hs.1, fun w hw => ?_⟩
    rcases hs.2 w hw with ⟨hb, hst, hend⟩
    exact ⟨hb, (hstayed.trans (stayed_quiet hclock)).trans hst, hend⟩

theorem Stayed.grew (h : Stayed t s) (hs : Busy s) : Grew t s [] := by
  refine ⟨hs, ?_, ?_, by rw [h.obj], h.log, ?_⟩
  · rw [h.obj, List.append_nil]
  · rw [h.obj]
    rfl
  · rw [h.book]
    exact (List.append_nil _).symm

theorem select_grew (hu : Busy u) (bank bit : Nat) (e : E) :
    Grew u (u.heard (.write (.selectorRegister bank) (single bit) true) e) [] := by
  have hlink : Link u.obj.mem
    ((book u.log).add (.write (.selectorRegister bank) (single bit) true)) :=
    ⟨hu.live.link.owed, hu.live.link.other, hu.live.link.sorted, hu.live.link.decoded,
      hu.live.link.inside⟩
  have hlive := hu.live.heard (.write (.selectorRegister bank) (single bit) true) trivial
    (not_fails_write hu.live.sound.1 _ _) hlink e
  exact ⟨⟨hlive, hu.phase, hu.configured⟩, (List.append_nil _).symm, rfl, rfl, ⟨[_], rfl⟩,
    (List.append_nil _).symm⟩

theorem push_grew {bit : Nat} {v : Word} (hu : Busy u) (hchosen : (book u.log).chosen = single bit)
    (hdue : Due u.obj u.log (.write (.identityRegister bank) v true))
    (hroom : u.obj.eventCount < 64)
    (hlast : ∀ id ∈ u.obj.queue, id.capture.Before ⟨bank, single bit, v⟩) (e : E) :
    Grew u ((u.heard (.write (.identityRegister bank) v true) e).put
      { u.obj with mem := u.obj.mem.push (.of v bank bit) }) [.of v bank bit] := by
  have hlogged := hu.live.logged.heard (.write (.identityRegister bank) v true)
    ⟨hdue, fun _ => hu.live.sound⟩ e
  have hqueue := queue_push u.obj.mem (.of v bank bit) hu.live.link.inside
  have hcaptured : ((book u.log).add (.write (.identityRegister bank) v true)).captured =
      (book u.log).captured ++ [(Identity.of v bank bit).capture] := by
    change _ ++ [Capture.mk bank (book u.log).chosen v] = _
    rw [hchosen]
    rfl
  have hsound :=
    hu.live.sound.heard _ (not_fails_write hu.live.sound.1 (.identityRegister bank) v) e
  refine ⟨⟨⟨⟨hlogged.rule, hlogged.stored, hroom⟩, hsound, ?_⟩, hu.phase, hu.configured⟩, hqueue,
    rfl, rfl, ⟨[_], rfl⟩, hcaptured⟩
  refine ⟨?_, hu.live.link.other, ?_, ?_, Nat.le_succ_of_le hu.live.link.inside⟩
  · refine hcaptured.trans ?_
    change _ = (book u.log).drained ++ (u.obj.push (.of v bank bit)).queue.map Identity.capture
    rw [hqueue, List.map_append, ← List.append_assoc, ← hu.live.link.owed]
    rfl
  · change ((u.obj.push (.of v bank bit)).queue.map Identity.capture).Pairwise _
    rw [hqueue, List.map_append]
    refine List.pairwise_append.mpr ⟨hu.live.link.sorted, List.pairwise_singleton .., ?_⟩
    intro c hc c' hc'
    rcases List.mem_map.mp hc with ⟨id, hid, rfl⟩
    rw [List.mem_singleton.mp hc']
    exact hlast id hid
  · intro id hid
    change id ∈ (u.obj.push (.of v bank bit)).queue at hid
    rw [hqueue] at hid
    rcases List.mem_append.mp hid with hid | hid
    · exact hu.live.link.decoded id hid
    · rw [List.mem_singleton.mp hid]
      rfl

/-- One bit: selected, read with its valid bit, acknowledged and stored. -/
theorem captureBit_spec {bit : Nat} (ht : Busy t) (hroom : t.obj.eventCount < 64)
    (hlast : ∀ id ∈ t.obj.queue, ∀ v, id.capture.Before ⟨bank, single bit, v⟩) :
    Ends io t (captureBit bank bit)
      (Concluded fun s => ∃ id, id.bank = bank ∧ id.bit = bit ∧ Grew t s [id]) := by
  refine .writes ht.broken (fun u done hq => ⟨trivial, fun h => h.elim⟩)
    (fun u hu => .fault hu (by decide)) fun u e hq => .asks rfl fun began e₁ => ?_
  have hsel := ((stayed_quiet hq).grew (ht.quiet hq)).trans (select_grew (ht.quiet hq) bank bit e)
  have hclock : Quiet Asks (u.heard (.write (.selectorRegister bank) (single bit) true) e)
      ((u.heard (.write (.selectorRegister bank) (single bit) true) e).heard (.time began) e₁) :=
    (Quiet.refl _).heard trivial e₁
  refine .seq (poll_spec bank began _ (hsel.busy.quiet hclock)) fun a p hp => ?_
  rcases a with _ | _ | v
  · exact .fault hp.1 (by decide)
  · exact .fault hp.1 (by decide)
  rcases hp.2 v rfl with ⟨hbusy, hst, hvalid, hlatest⟩
  have hdue : ∀ w done, Quiet Asks p w → Due w.obj w.log (.write (.identityRegister bank) v done) :=
    fun w done hw => ⟨hvalid, (hw.latest fun ev hev => hev.access).trans hlatest⟩
  refine .writes hp.1 (fun w done hw => ⟨hdue w done hw, fun _ => (hbusy.quiet hw).live.sound⟩)
    (fun w hw => .fault hw (by decide)) fun w e' hw => .records (.ret ?_)
  have hall := (stayed_quiet hclock).trans (hst.trans (stayed_quiet hw))
  have hgrew := hsel.trans (hall.grew (hbusy.quiet hw))
  refine .inl ⟨rfl, .of v bank bit, rfl, rfl,
    hgrew.trans (push_grew (hbusy.quiet hw) ?_ (hdue w true hw) ?_ ?_ e')⟩
  · rw [hall.book]
    rfl
  · rw [hgrew.count]
    exact hroom
  · rw [show w.obj.queue = t.obj.queue from hgrew.queue.trans (List.append_nil _)]
    exact fun id hid => hlast id hid v

theorem single_lt {i j : Nat} (hij : i < j) (hj : j < 32) : single i < single j := by
  have hi : i < 32 := Nat.lt_trans hij hj
  unfold single
  rw [BitVec.lt_def, BitVec.toNat_shiftLeft, BitVec.toNat_shiftLeft, Nat.shiftLeft_eq,
    Nat.shiftLeft_eq, BitVec.toNat_ofNat, Nat.one_mod, Nat.one_mul, Nat.one_mul,
    Nat.mod_eq_of_lt (Nat.pow_lt_pow_right (by decide) hi),
    Nat.mod_eq_of_lt (Nat.pow_lt_pow_right (by decide) hj)]
  exact Nat.pow_lt_pow_right (by decide) hij

def Collected (t : World E) (got : List Identity → Prop) (a : Status)
    (s : World E) : Prop :=
  (a = .ok ∧ ∃ ids, Grew t s ids ∧ got ids) ∨ (Ill a ∧ Dead s)

theorem captureBits_spec {dw : Word} (bits : List Nat) (ht : Busy t)
    (hbits : ∀ i ∈ bits, i < 32) (hsorted : bits.Pairwise (· < ·))
    (hroom : t.obj.eventCount + bits.length ≤ 64)
    (hlast : ∀ id ∈ t.obj.queue, ∀ i ∈ bits, ∀ v, id.capture.Before ⟨bank, single i, v⟩) :
    Ends io t (captureBits bank dw bits) (Collected t fun ids =>
      ids.map (fun id => (id.bank, id.bit)) = (bitsOf dw bits).map fun bit => (bank, bit)) := by
  induction bits generalizing t with
  | nil => exact .ret (.inl ⟨rfl, [], Grew.refl ht, rfl⟩)
  | cons bit bits ih =>
    rw [List.length_cons] at hroom
    have hbits' : ∀ i ∈ bits, i < 32 := fun i hi => hbits i (List.mem_cons_of_mem bit hi)
    have hsorted' := (List.pairwise_cons.mp hsorted).2
    refine .cond (fun hno => ?_) fun hyes => ?_
    · have hskip : bitsOf dw (bit :: bits) = bitsOf dw bits := by
        unfold bitsOf
        rw [List.filter_cons_of_neg (by rw [decide_eq_true_eq]; exact not_not.mpr hno)]
      rw [hskip]
      exact ih ht hbits' hsorted' (by omega)
        fun id hid i hi => hlast id hid i (List.mem_cons_of_mem bit hi)
    have htake : bitsOf dw (bit :: bits) = bit :: bitsOf dw bits := by
      unfold bitsOf
      rw [List.filter_cons_of_pos (by rw [decide_eq_true_eq]; exact hyes)]
    refine .checks (captureBit_spec ht (by omega) fun id hid => hlast id hid bit List.mem_cons_self)
      (fun a s ha hs => .inr ⟨ha, hs⟩) ?_
    rintro u ⟨id, hbank, hbit, hgrew⟩
    refine (ih hgrew.busy hbits' hsorted' ?_ ?_).mono fun a s hs => hs.imp_left ?_
    · rw [hgrew.count, List.length_singleton]
      omega
    · intro id' hid' i hi v
      rw [hgrew.queue] at hid'
      rcases List.mem_append.mp hid' with hid' | hid'
      · simp [*]
      · rw [List.mem_singleton.mp hid']
        refine .inr ⟨hbank, ?_⟩
        change single id.bit < single i
        rw [hbit]
        exact single_lt ((List.pairwise_cons.mp hsorted).1 i hi) (hbits' i hi)
    · rintro ⟨hok, ids, hids, hgot⟩
      refine ⟨hok, id :: ids, hgrew.trans hids, ?_⟩
      dsimp only
      rw [htake, List.map_cons, List.map_cons, hgot, hbank, hbit]

/-- A summary is acknowledged when its bank is captured. -/
theorem captureBank_spec (ht : Busy t)
    (hroom : t.obj.eventCount + 32 ≤ 64) (hlast : ∀ id ∈ t.obj.queue, id.bank < bank) :
    Ends io t (captureBank master bank) (Collected t fun ids =>
      ids.length ≤ 32 ∧ ∀ id ∈ ids, id.bank = bank) := by
  refine .cond (fun _ => .ret (.inl ⟨rfl, [], Grew.refl ht, Nat.zero_le 32, nofun⟩)) fun _ => ?_
  refine .reads ht.broken (fun u v hq => ⟨trivial, fun h => h.elim⟩)
    (fun u hu => .fault hu (by decide)) fun u dw e hq hne => ?_
  have hu := ht.quiet hq
  have hbusy := hu.heard (.read (.bankStatus bank) (some dw)) trivial
    (not_fails_read hu.live.sound.1 _ hne) (fun _ => rfl) e
  have hstart := ((stayed_quiet hq).trans (stayed_heard (.read (.bankStatus bank) (some dw))
    (fun _ => rfl) u e)).grew hbusy
  refine .checks (captureBits_spec (List.range 32) hbusy (fun i hi => List.mem_range.mp hi)
    List.pairwise_lt_range ?_ ?_) (fun a s ha hs => .inr ⟨ha, hs⟩) ?_
  · rw [hstart.count, List.length_range]
    exact hroom
  · rw [hstart.queue, List.append_nil]
    exact fun id hid i _ v => .inl (hlast id hid)
  rintro p ⟨ids, hgrew, hgot⟩
  have hids : ids.length ≤ 32 ∧ ∀ id ∈ ids, id.bank = bank := by
    have hlen := congrArg List.length hgot
    rw [List.length_map, List.length_map] at hlen
    refine ⟨?_, fun id hid => ?_⟩
    · rw [hlen]
      exact Nat.le_trans (List.length_filter_le _ _) (Nat.le_of_eq List.length_range)
    · have hmem := List.mem_map_of_mem (f := fun id : Identity => (id.bank, id.bit)) hid
      rw [hgot] at hmem
      rcases List.mem_map.mp hmem with ⟨b, _, hb⟩
      exact (congrArg Prod.fst hb).symm
  have hdue : ∀ w, Quiet Asks p w → ∀ done,
    Due w.obj w.log (.write (.bankStatus bank) dw done) := by
    intro w hw done
    rcases hgrew.log with ⟨mid, hlog⟩
    rcases hw.lines with ⟨lines, hlines, _⟩
    refine ⟨lines ++ mid, ⟨u.obj, .read (.bankStatus bank) (some dw)⟩, u.log,
      ids.map Identity.capture, ?_, rfl, ?_, ?_⟩
    · rw [hlines, hlog, ← List.append_assoc]
      rfl
    · rw [book_quiet hw]
      exact hgrew.captured
    · have hmap := congrArg (List.map fun x : Nat × Nat => (x.1, single x.2)) hgot
      rw [List.map_map, List.map_map] at hmap
      rw [List.map_map]
      exact hmap
  refine .writes hgrew.busy.broken
    (fun w done hw => ⟨hdue w hw done, fun _ => (hgrew.busy.quiet hw).live.sound⟩)
    (fun w hw => .fault hw (by decide)) fun w e' hw => .ret (.inl ⟨rfl, ids, ?_, hids⟩)
  have hw' := hgrew.busy.quiet hw
  have hacked := hw'.heard _ (hdue w hw true) (not_fails_write hw'.live.sound.1 _ _)
    (fun _ => rfl) e'
  have hend := ((stayed_quiet hw).trans (stayed_heard (.write (.bankStatus bank) dw true)
    (fun _ => rfl) w e')).grew hacked
  have hall := (hstart.trans hgrew).trans hend
  rwa [List.nil_append, List.append_nil] at hall

theorem captureBanks_spec (banks : List Nat) (ht : Busy t)
    (hsorted : banks.Pairwise (· < ·)) (hroom : t.obj.eventCount + 32 * banks.length ≤ 64)
    (hlast : ∀ id ∈ t.obj.queue, ∀ bank ∈ banks, id.bank < bank) :
    Ends io t (captureBanks master banks) (Collected t fun _ => True) := by
  induction banks generalizing t with
  | nil => exact .ret (.inl ⟨rfl, [], Grew.refl ht, trivial⟩)
  | cons bank banks ih =>
    rw [List.length_cons] at hroom
    refine .checks (captureBank_spec ht (by omega)
      fun id hid => hlast id hid bank List.mem_cons_self) (fun a s ha hs => .inr ⟨ha, hs⟩) ?_
    rintro u ⟨ids, hgrew, hlen, hbank⟩
    refine (ih hgrew.busy (List.pairwise_cons.mp hsorted).2 ?_ ?_).mono fun a s hs => hs.imp_left ?_
    · rw [hgrew.count]
      omega
    · intro id hid bank' hbank'
      rw [hgrew.queue] at hid
      rcases List.mem_append.mp hid with hid | hid
      · simp [*]
      · rw [hbank id hid]
        exact (List.pairwise_cons.mp hsorted).1 bank' hbank'
    · rintro ⟨hok, ids', hids, _⟩
      exact ⟨hok, ids ++ ids', hgrew.trans hids, trivial⟩

/-- From the read of the graphics master until its bits are stored. -/
structure Opened (master : Word) (s : World E) : Prop where
  logged : Logged s
  sound : Sound s
  phase : s.obj.phase = .workloop
  configured : s.obj.configured = true
  drained : (book s.log).captured = (book s.log).drained
  other : (book s.log).other = master &&& ~~~(masterEnable ||| 3)

theorem Opened.quiet (h : Opened master t) (hq : Quiet Asks t s) :
    Opened master s := by
  refine ⟨h.logged.quiet hq, h.sound.quiet hq, hq.obj ▸ h.phase, hq.obj ▸ h.configured, ?_, ?_⟩
  · rw [book_quiet hq]
    exact h.drained
  · rw [book_quiet hq]
    exact h.other

theorem Busy.clear (ht : Busy t) (hqueue : t.obj.queue = []) (hother : t.obj.other = 0) :
    (book t.log).Clear := by
  refine ⟨?_, ht.live.link.other.trans hother⟩
  rw [ht.live.link.owed, hqueue]
  exact List.append_nil _

theorem fresh_link {m : Memory} {k : Book} (hdrained : k.captured = k.drained)
    (hother : k.other = m.other) (hcount : m.eventCount = 0) (hnext : m.nextEvent = 0) :
    Link m k := by
  have hqueue : m.queue = [] := by
    unfold Memory.queue
    rw [hcount, hnext]
    rfl
  refine ⟨?_, hother, ?_, ?_, by omega⟩
  · simp [*]
  · rw [hqueue]
    exact List.Pairwise.nil
  · rw [hqueue]
    nofun

def Collection (s : World E) : Prop := Busy s ∧ s.obj.batchReady = true

theorem gather_spec (ht : Opened master t) :
    Ends io t (do
      if !(← write .gfxMaster master) then fail .ioFailure
      else
        record fun m => { m with
          eventCount := 0, nextEvent := 0, other := master &&& ~~~(masterEnable ||| 3) }
        let s ← captureBanks master (List.range 2)
        if s ≠ .ok then return s
        record fun m => { m with batchReady := true }
        return .ok) (Concluded Collection) := by
  refine .writes ⟨ht.logged, ht.configured⟩ (fun u done hq => ⟨trivial, fun _ => ht.sound.quiet hq⟩)
    (fun u hu => .fault hu (by decide)) fun u e hq => .records ?_
  have hu := ht.quiet hq
  have hlogged := hu.logged.heard (.write .gfxMaster master true) ⟨trivial, fun _ => hu.sound⟩ e
  refine .checks (captureBanks_spec (List.range 2) ⟨⟨⟨hlogged.rule, hlogged.stored, Nat.zero_le 64⟩,
    hu.sound.heard _ (not_fails_write hu.sound.1 _ _) e, fresh_link hu.drained hu.other rfl rfl⟩,
    hu.phase, hu.configured⟩ List.pairwise_lt_range (Nat.le_refl 64) nofun)
    (fun a s ha hs => .inr ⟨ha, hs⟩) ?_
  rintro s ⟨ids, hgrew, _⟩
  have hlink := hgrew.busy.live.link
  exact .records (.ret (.inl ⟨rfl, hgrew.busy.record { s.obj.mem with batchReady := true }
    ⟨hlink.owed, hlink.other, hlink.sorted, hlink.decoded, hlink.inside⟩
    hgrew.busy.live.logged.room hgrew.busy.configured, rfl⟩))

/-- A batch is captured, from a state where nothing is held. -/
theorem collect_spec (ht : Busy t) (hqueue : t.obj.queue = []) (hother : t.obj.other = 0) :
    Ends io t collect (Concluded Collection) := by
  have hclear := ht.clear hqueue hother
  refine .reads ht.broken (fun u v hq => ⟨fun _ => (book_quiet hq).symm ▸ hclear, fun h => h.elim⟩)
    (fun u hu => .fault hu (by decide)) fun u tile e hq hne => ?_
  have hu := ht.quiet hq
  have hbusy := hu.heard (.read .tileMaster (some tile)) (fun _ => (book_quiet hq).symm ▸ hclear)
    (not_fails_read hu.live.sound.1 _ hne) (fun _ => rfl) e
  have hclear' : (book (u.heard (.read .tileMaster (some tile)) e).log).Clear :=
    (book_quiet hq).symm ▸ hclear
  refine .cond (fun _ => .fault hbusy.broken (by decide)) fun _ =>
    .cond (fun _ => .fault hbusy.broken (by decide)) fun _ => .cond (fun _ => .records (.ret ?_))
      fun _ => ?_
  · -- Nothing is pending: an empty batch.
    have hlogged := hbusy.live.logged
    exact .inl ⟨rfl, ⟨⟨⟨hlogged.rule, hlogged.stored, Nat.zero_le 64⟩, hbusy.live.sound,
      fresh_link hclear'.1 hclear'.2 rfl rfl⟩, hbusy.phase, hbusy.configured⟩, rfl⟩
  refine .writes hbusy.broken
    (fun w done hw => ⟨fun _ => (book_quiet hw).symm ▸ hclear',
    fun _ => (hbusy.quiet hw).live.sound⟩) (fun w hw => .fault hw (by decide)) fun w e' hw => ?_
  have hw' := hbusy.quiet hw
  have hacked := hw'.heard (.write .tileMaster (tile &&& ~~~masterEnable) true)
    (fun _ => (book_quiet hw).symm ▸ hclear') (not_fails_write hw'.live.sound.1 _ _)
    (fun _ => rfl) e'
  have hopen : ∀ x, Quiet Asks (w.heard (.write .tileMaster (tile &&& ~~~masterEnable) true) e') x →
      (book x.log).Clear := fun x hx =>
    (book_quiet hx).symm ▸ ((book_quiet hw).symm ▸ hclear' : (book w.log).Clear)
  refine .reads hacked.broken (fun x v hx => ⟨hopen x hx, fun h => h.elim⟩)
    (fun x hx => .fault hx (by decide)) fun x master e'' hx hmaster => ?_
  have hx' := hacked.quiet hx
  exact gather_spec ⟨hx'.live.logged.heard (.read .gfxMaster (some master))
    ⟨hopen x hx, fun h => h.elim⟩ e'',
    hx'.live.sound.heard _ (not_fails_read hx'.live.sound.1 _ hmaster) e'', hx'.phase,
    hx'.configured, (hopen x hx).1, rfl⟩

end Capturing

section HandingOut

variable {E : Type} {io : Backend E} {s t u : World E}

theorem queue_nil {m : Memory} (h : m.eventCount ≤ m.nextEvent) : m.queue = [] := by
  unfold Memory.queue
  rw [Nat.sub_eq_zero_of_le h]
  rfl

theorem queue_pop (m : Memory) (h : m.nextEvent < m.eventCount) :
    m.queue = m.events m.nextEvent :: m.pop.queue := by
  unfold Memory.queue Memory.pop
  dsimp only
  rw [show m.eventCount - m.nextEvent = m.eventCount - (m.nextEvent + 1) + 1 by omega,
    List.range_succ_eq_map, List.map_cons, List.map_map]
  refine congrArg₂ _ rfl (List.map_congr_left fun i _ => ?_)
  change m.events (m.nextEvent + (i + 1)) = _
  rw [Nat.add_right_comm, Nat.add_assoc]

/-- The last thing since `t` was a handing out that was answered with `more`. -/
def Again (t s : World E) : Prop :=
  ∃ l before, s.log = l :: before ∧ t.log <:+ before ∧
    ((∃ epoch id, l.event = .identity epoch id .more ∧ s.obj.queue.head? = some id) ∨
      ∃ epoch, l.event = .otherMaster epoch s.obj.other .more ∧ s.obj.queue = [])

theorem Again.since (h : Again u s) (hlog : t.log <:+ u.log) : Again t s := by
  rcases h with ⟨l, before, hs, hu, hl⟩
  exact ⟨l, before, hs, hlog.trans hu, hl⟩

/-- Everything drained, more to come, or a fault. -/
def Handled (t : World E) (done : Memory → Prop) (a : Option Status)
    (s : World E) : Prop :=
  (Busy s ∧ s.obj.batchReady = true ∧
      ((a = none ∧ done s.obj.mem) ∨ a = some .pending ∧ Again t s)) ∨
    (Dead s ∧ ∃ st, a = some st ∧ Ill st)

variable {done : Memory → Prop}

theorem fail_handled {status : Status} (ht : Broken t) (hne : Ill status) :
    Ends io t (do return some (← fail status)) (Handled u done) :=
  .seq (.fails ht (Q := fun a s => a = status ∧ Dead s) fun _ hs => ⟨rfl, hs⟩) fun a _ hs =>
    .ret (.inr ⟨hs.2, a, rfl, hs.1 ▸ hne⟩)

theorem Handled.since {a : Option Status} (h : Handled u done a s) (hlog : t.log <:+ u.log) :
    Handled t done a s :=
  h.imp_left fun h => ⟨h.1, h.2.1, h.2.2.imp_right fun h => ⟨h.1, h.2.since hlog⟩⟩

theorem hand_due (ht : Busy t) (hlt : t.obj.nextEvent < t.obj.eventCount) (epoch : Nat)
    (answer : Handling) :
    Due t.obj t.log (.identity epoch (t.obj.events t.obj.nextEvent) answer) := by
  have hlink := ht.live.link
  have hpop := queue_pop t.obj.mem hlt
  refine ⟨hlink.decoded _ (hpop ▸ List.mem_cons_self), t.obj.pop.queue.map Identity.capture, ?_, ?_⟩
  · rw [hlink.owed, hpop]
    rfl
  · have hsorted := hlink.sorted
    rw [hpop] at hsorted
    exact hsorted

theorem drained_busy (ht : Busy t) (hlt : t.obj.nextEvent < t.obj.eventCount) (epoch : Nat)
    (e : E) :
    Busy ((t.heard (.identity epoch (t.obj.events t.obj.nextEvent) .drained) e).put
      { t.obj with mem := t.obj.mem.pop }) := by
  have hlogged := ht.live.logged.heard _ ⟨hand_due ht hlt epoch .drained, fun _ => ht.live.sound⟩ e
  have hsound := ht.live.sound.heard
    (.identity epoch (t.obj.events t.obj.nextEvent) .drained)
    (fun hf => hf.elim ht.live.sound.1 nofun) e
  have hlink := ht.live.link
  have hpop := queue_pop t.obj.mem hlt
  have hsorted := hlink.sorted
  rw [hpop, List.map_cons] at hsorted
  refine ⟨⟨⟨hlogged.rule, hlogged.stored, hlogged.room⟩, hsound, ?_, hlink.other,
    (List.pairwise_cons.mp hsorted).2, fun id hid => ?_, hlt⟩, ht.phase, ht.configured⟩
  · change (book t.log).captured = ((book t.log).drained ++ [_]) ++ _
    rw [hlink.owed, hpop, List.append_assoc]
    rfl
  · exact hlink.decoded id (hpop ▸ List.mem_cons_of_mem _ hid)

theorem deliver_spec (fuel : Nat) (ht : Busy t) (hready : t.obj.batchReady = true)
    (hfuel : t.obj.eventCount ≤ t.obj.nextEvent + fuel) :
    Ends io t (deliver fuel) (Handled t fun m => m.queue = []) := by
  induction fuel generalizing t with
  | zero => exact .ret (.inl ⟨ht, hready, .inl ⟨rfl, queue_nil hfuel⟩⟩)
  | succ fuel ih =>
    refine .looks (.cond (fun hlt => .admits fun b u hu => .cond (fun _ =>
      fail_handled (ht.quiet hu).broken (by decide)) fun _ => ?_) fun hge =>
        .ret (.inl ⟨ht, hready, .inl ⟨rfl, queue_nil (Nat.le_of_not_lt hge)⟩⟩))
    have hbusy := ht.quiet hu
    rw [← hu.obj] at hlt hfuel hready ⊢
    have hdue := hand_due hbusy hlt u.obj.config.epoch
    have hlog := (stayed_quiet hu).suffix
    refine .asks rfl fun a e => ?_
    cases a with
    | more =>
      refine .ret (.inl ⟨hbusy.heard _ (hdue .more) (fun hf => hf.elim hbusy.live.sound.1 nofun)
        (fun _ => rfl) e, hready, .inr ⟨rfl, _, _, rfl, hlog, .inl ⟨_, _, rfl, ?_⟩⟩⟩)
      exact congrArg List.head? (queue_pop u.obj.mem hlt)
    | failed =>
      exact fail_handled (hbusy.broken.heard _ ⟨hdue .failed, fun _ => hbusy.live.sound⟩ e)
        (by decide)
    | drained =>
      have hleft : u.obj.eventCount ≤ u.obj.nextEvent + 1 + fuel := by omega
      refine .records ((ih (drained_busy hbusy hlt _ e) hready hleft).mono fun _ _ hs => ?_)
      exact hs.since (hlog.trans (List.suffix_cons _ _))

theorem deliverOther_spec (ht : Busy t) (hready : t.obj.batchReady = true)
    (hqueue : t.obj.queue = []) :
    Ends io t deliverOther (Handled t fun m => m.queue = [] ∧ m.other = 0) := by
  refine .looks (.cond (fun hother => .admits fun b u hu => .cond (fun _ =>
    fail_handled (ht.quiet hu).broken (by decide)) fun _ => ?_) fun hother =>
      .ret (.inl ⟨ht, hready, .inl ⟨rfl, hqueue, not_not.mp hother⟩⟩))
  have hbusy := ht.quiet hu
  rw [← hu.obj] at hother hqueue hready ⊢
  have hlink := hbusy.live.link
  have hdrained : (book u.log).captured = (book u.log).drained := by
    rw [hlink.owed, hqueue]
    exact List.append_nil _
  have hdue : ∀ a, Due u.obj u.log (.otherMaster u.obj.config.epoch u.obj.other a) :=
    fun a => ⟨hdrained, hlink.other.symm, hother⟩
  refine .asks rfl fun a e => ?_
  cases a with
  | more =>
    exact .ret (.inl ⟨hbusy.heard _ (hdue .more) (fun hf => hf.elim hbusy.live.sound.1 nofun)
      (fun _ => rfl) e, hready,
      .inr ⟨rfl, _, _, rfl, (stayed_quiet hu).suffix, .inr ⟨_, rfl, hqueue⟩⟩⟩)
  | failed =>
    exact fail_handled (hbusy.broken.heard _ ⟨hdue .failed, fun _ => hbusy.live.sound⟩ e)
      (by decide)
  | drained =>
    have hlogged := hbusy.live.logged.heard _ ⟨hdue .drained, fun _ => hbusy.live.sound⟩ e
    have hsound := hbusy.live.sound.heard (.otherMaster u.obj.config.epoch u.obj.other .drained)
      (fun hf => hf.elim hbusy.live.sound.1 nofun) e
    exact .records (.ret (.inl ⟨⟨⟨⟨hlogged.rule, hlogged.stored, hlogged.room⟩, hsound,
      ⟨hlink.owed, rfl, hlink.sorted, hlink.decoded, hlink.inside⟩⟩, hbusy.phase,
      hbusy.configured⟩, hready, .inl ⟨rfl, hqueue, rfl⟩⟩))

end HandingOut

section Calls

variable {E : Type} {io : Backend E} {s t u : World E}

theorem Resting.quiet (h : Resting t) (hq : Quiet Asks t s) : Resting s := by
  refine ⟨h.live.quiet hq, ?_, ?_, ?_⟩
  · rw [hq.obj]
    exact h.ready
  · rw [hq.obj]
    exact h.clear
  · rw [hq.obj]
    exact h.configured

theorem Resting.heard (h : Resting s) (ev : Event) (hdue : Due s.obj s.log ev)
    (hf : ¬Fails ⟨s.obj, ev⟩) (hadd : ∀ k : Book, k.add ev = k) (e : E) : Resting (s.heard ev e) :=
  ⟨h.live.heard ev hdue hf ((hadd _).symm ▸ h.live.link) e, h.ready, h.clear, h.configured⟩

theorem Resting.broken (h : Resting s) (hp : s.obj.phase ≠ .stopped) : Broken s :=
  ⟨h.live.logged, h.configured hp⟩

def Settled (s : World E) : Prop := Resting s ∨ Dead s

/-- How `service` ends: drained and enabled, idle, more to come, or a fault. -/
def Served (t : World E) (a : Status) (s : World E) : Prop :=
  (Resting s ∧ (a = .ok ∧ s.obj.phase = .armed ∧ (book s.log).Clear ∨
    a = .empty ∧ t.obj.phase ≠ .masked ∧ t.obj.phase ≠ .workloop ∨ a = .pending ∧ Again t s)) ∨
    Ill a ∧ Dead s

theorem Live.phase (h : Live t) {p : Phase} (hp : p ≠ .fault) :
    Live (t.put { t.obj with phase := p }) :=
  ⟨⟨h.logged.rule, h.logged.stored, h.logged.room⟩, ⟨hp, h.sound.2⟩, h.link⟩

/-- Delivery is enabled where nothing is held. -/
theorem rearm_spec (ht : Live t) (hconfigured : t.obj.configured = true)
    (hready : t.obj.batchReady = false) (hqueue : t.obj.queue = [])
    (hother : t.obj.other = 0) : Ends io t rearm (Served s) := by
  have hclear : (book t.log).Clear := by
    refine ⟨?_, ht.link.other.trans hother⟩
    rw [ht.link.owed, hqueue]
    exact List.append_nil _
  have harmed : Resting (t.put { t.obj with phase := .armed }) :=
    ⟨ht.phase nofun, fun h => absurd (hready.symm.trans h) nofun, fun _ => ⟨hqueue, hother⟩,
      fun _ => hconfigured⟩
  have hdue : ∀ u done, Quiet Asks (t.put { t.obj with phase := .armed }) u →
      Due u.obj u.log (.write .tileMaster masterEnable done) := fun u done hq _ => by
    rw [book_quiet hq]
    exact hclear
  refine .stores (.writes ⟨harmed.live.logged, hconfigured⟩
    (fun u done hq => ⟨hdue u done hq, fun _ => (harmed.quiet hq).live.sound⟩)
    (fun u hu => .fails hu fun s hs => .inr ⟨by decide, hs⟩) fun u e hq => .loads ?_)
  have hu := harmed.quiet hq
  have henabled := hu.heard _ (hdue u true hq) (not_fails_write hu.live.sound.1 _ _)
    (fun _ => rfl) e
  -- Alone, nothing has moved the state since.
  have hphase : (u.heard (.write .tileMaster masterEnable true) e).obj.phase = .armed :=
    congrArg Controller.phase hq.obj
  rw [hphase]
  refine .ret (.inl ⟨henabled, .inl ⟨rfl, hphase, ?_⟩⟩)
  exact (book_quiet hq).symm ▸ hclear

theorem Busy.resting (h : Busy t) (hready : t.obj.batchReady = true) : Resting t :=
  ⟨h.live, fun _ => h.phase, fun hno => absurd (hno.symm.trans hready) nofun, fun _ => h.configured⟩

theorem Handled.served {done : Memory → Prop} {st : Status} (h : Handled t done (some st) s) :
    Served t st s := by
  rcases h with ⟨hb, hr, ⟨hno, _⟩ | ⟨hp, hagain⟩⟩ | ⟨hd, _, ⟨⟩, hill⟩
  · cases hno
  · exact .inl ⟨hb.resting hr, .inr (.inr ⟨Option.some.inj hp, hagain⟩)⟩
  · exact .inr ⟨hill, hd⟩

theorem Handled.all {done : Memory → Prop} (h : Handled t done none s) :
    Busy s ∧ s.obj.batchReady = true ∧ done s.obj.mem := by
  rcases h with ⟨hb, hr, ⟨_, hdone⟩ | ⟨hno, _⟩⟩ | ⟨_, st, hno, _⟩
  · exact ⟨hb, hr, hdone⟩
  · cases hno
  · cases hno

theorem handOut_spec (ht : Busy t) (hready : t.obj.batchReady = true)
    (hlog : s.log <:+ t.log) : Ends io t handOut (Served s) := by
  have hfuel : t.obj.eventCount ≤ t.obj.nextEvent +
      (t.obj.eventCount - t.obj.nextEvent) := by omega
  refine .looks (.seq (deliver_spec _ ht hready hfuel).adds fun a u hu => ?_)
  cases a with
  | some st => exact .ret (hu.1.since hlog).served
  | none =>
    rcases hu.1.all with ⟨hb, hr, hqueue⟩
    refine .seq (deliverOther_spec hb hr hqueue) fun a w hw => ?_
    cases a with
    | some st => exact .ret (hw.since (hlog.trans hu.2)).served
    | none =>
      rcases hw.all with ⟨hb, hr, hqueue, hother⟩
      have hlink := hb.live.link
      have hclosed := hb.record { w.obj.mem with batchReady := false }
        ⟨hlink.owed, hlink.other, hlink.sorted, hlink.decoded, hlink.inside⟩ hb.live.logged.room
        hb.configured
      exact .records (rearm_spec hclosed.live hb.configured rfl hqueue hother)

theorem service_spec (ht : Settled t) : Ends io t service (Served t) := by
  refine .loads ?_
  rcases ht with ht | ht
  case inr =>
    rw [if_pos ht.fault]
    exact .ret (.inr ⟨by decide, ht⟩)
  rw [if_neg ht.live.sound.1]
  refine .cond (fun hidle => .ret (.inl ⟨ht, .inr (.inl ⟨rfl, hidle⟩)⟩)) fun hphase => ?_
  have hconfigured : t.obj.configured = true := by
    refine ht.configured fun hstopped => hphase ?_
    rw [hstopped]
    exact ⟨nofun, nofun⟩
  refine .admits fun b v hv => .cond (fun _ => .fails
    ⟨(ht.quiet hv).live.logged, hv.obj ▸ hconfigured⟩ fun s hs => .inr ⟨by decide, hs⟩)
    fun _ => .stores ?_
  have hrest := ht.quiet hv
  rw [← hv.obj] at hconfigured
  have hlog := (stayed_quiet hv).suffix
  have hbusy : Busy (v.put { v.obj with phase := .workloop }) :=
    ⟨hrest.live.phase nofun, rfl, hconfigured⟩
  refine .looks (.cond (fun hno => ?_) fun hyes => ?_)
  · have hready : (!v.obj.batchReady) = true := hno
    rcases hrest.clear (by simpa using hready) with ⟨hqueue, hother⟩
    refine .checks (K := fun w => Collection w ∧ t.log <:+ w.log) ?_
      (fun a s ha hs => .inr ⟨ha, hs⟩)
      fun w hw => handOut_spec hw.1.1 hw.1.2 hw.2
    refine (collect_spec hbusy hqueue hother).adds.mono fun a w hw => hw.1.imp_left fun h => ?_
    exact ⟨h.1, h.2, hlog.trans hw.2⟩
  · have hready : v.obj.batchReady = true := by
      by_contra h
      exact hyes (by change (!v.obj.batchReady) = true; simpa using h)
    exact handOut_spec hbusy hready hlog

theorem start_spec (ht : Settled t) : Ends io t start (fun _ => Settled) := by
  refine .looks
    (.cond (fun _ => .ret ht) fun hconf => .loads (.cond (fun _ => .ret ht) fun hstopped => ?_))
  have hconfigured : t.obj.configured = true := by simpa using hconf
  have hrest : Resting t :=
    ht.resolve_right fun h => absurd (h.fault.symm.trans (not_not.mp hstopped)) nofun
  have hready : t.obj.batchReady = false := Bool.eq_false_iff.mpr fun h =>
    absurd ((hrest.ready h).symm.trans (not_not.mp hstopped)) nofun
  refine .admits fun b v hv => .cond (fun _ => .ret (.inl (hrest.quiet hv))) fun _ => ?_
  have hv' := hrest.quiet hv
  rw [← hv.obj] at hready hconfigured
  rcases hv'.clear hready with ⟨hqueue, hother⟩
  exact (rearm_spec (s := v) hv'.live hconfigured hready hqueue hother).mono fun a s hs =>
    hs.imp And.left And.right

theorem fail_settled (hbroken : Broken t) (answer : Bool) :
    Ends io t (do
      let _ ← fail .ioFailure
      return answer) (fun _ => Settled) :=
  .seq (.fails hbroken (Q := fun _ => Dead) fun _ hs => hs) fun _ _ hs => .ret (.inr hs)

theorem exchange_spec (ht : t.obj.phase = .armed) :
    Ends io t (perform (.compareExchange .armed .masked))
      (fun b s => b = true ∧ s = t.put { t.obj with phase := .masked }) := by
  have hrun : Op.run io (.compareExchange .armed .masked) t =
      (true, t.put { t.obj with phase := .masked }) := by
    change (if t.obj.phase = .armed then _ else _ : Prog Controller E Event Bool) t = _
    rw [if_pos ht]
    rfl
  change (Op.run io (.compareExchange .armed .masked) t).1 = true ∧
    (Op.run io (.compareExchange .armed .masked) t).2 = _
  rw [hrun]
  exact ⟨rfl, rfl⟩

/-- `filter` from where it has seen `state_` armed. -/
theorem masking_spec (ht : Resting t) (harmed : t.obj.phase = .armed) :
    Ends io t (do
      match ← read .tileMaster with
      | none =>
        let _ ← fail .ioFailure
        return true
      | some level =>
        if level &&& 1 = 0 then return false
        if !(← perform (.compareExchange .armed .masked)) then return false
        if !(← write .tileMaster 0) then
          let _ ← fail .ioFailure
        return true) (fun _ => Settled) := by
  have hread : ∀ (s : World E) v, s.obj.phase = .armed →
      Rule ⟨s.obj, .read .tileMaster v⟩ s.log := fun s v hs =>
    ⟨fun hw => absurd (hs.symm.trans hw) nofun, fun h => h.elim⟩
  refine .reads (ht.broken (by rw [harmed]; nofun)) (fun w v hw => hread w v (hw.obj ▸ harmed))
    (fun u hu => fail_settled hu true) fun w level e hw hones => ?_
  have hwr := ht.quiet hw
  have hwa : w.obj.phase = .armed := hw.obj ▸ harmed
  have hseen := hwr.heard _ (hread w (some level) hwa).1
    (not_fails_read hwr.live.sound.1 _ hones) (fun _ => rfl) e
  refine .cond (fun _ => .ret (.inl hseen)) fun _ => .seq (exchange_spec hwa) ?_
  rintro b x ⟨rfl, rfl⟩
  have hmasked : Resting ((w.heard (.read .tileMaster (some level)) e).put
      { w.obj with phase := .masked }) :=
    ⟨hseen.live.phase nofun, fun h => absurd ((hseen.ready h).symm.trans hwa) nofun,
      hseen.clear, fun _ => hseen.configured (by change w.obj.phase ≠ _; rw [hwa]; nofun)⟩
  refine .writes (hmasked.broken nofun) (fun z done _ => rule_mask z.obj done z.log)
    (fun u hu => fail_settled hu true) fun z e' hz => .ret (.inl ?_)
  have hzr := hmasked.quiet hz
  exact hzr.heard _ (rule_mask z.obj true z.log).1 (not_fails_write hzr.live.sound.1 _ _)
    (fun _ => rfl) e'

theorem filter_spec (ht : Settled t) : Ends io t filter (fun _ => Settled) := by
  refine .loads (.cond (fun _ => .ret ht) fun hne => ?_)
  have harmed : t.obj.phase = .armed := not_not.mp hne
  have hrest : Resting t := ht.resolve_right fun h => absurd (h.fault.symm.trans harmed) nofun
  exact .admits fun b v hv => .cond (fun _ => .ret (.inl (hrest.quiet hv))) fun _ =>
    masking_spec (hrest.quiet hv) (hv.obj ▸ harmed)

structure Setting (s : World E) : Prop where
  resting : Resting s
  phase : s.obj.phase = .stopped
  configured : s.obj.configured = true

theorem Setting.quiet (h : Setting t) (hq : Quiet Asks t s) : Setting s :=
  ⟨h.resting.quiet hq, hq.obj ▸ h.phase, hq.obj ▸ h.configured⟩

theorem Setting.heard (h : Setting s) (ev : Event) (hdue : Due s.obj s.log ev)
    (hf : ¬Fails ⟨s.obj, ev⟩) (hadd : ∀ k : Book, k.add ev = k) (e : E) : Setting (s.heard ev e) :=
  ⟨h.resting.heard ev hdue hf hadd e, h.phase, h.configured⟩

theorem Setting.broken (h : Setting s) : Broken s := ⟨h.resting.live.logged, h.configured⟩

def Updated (b : Bool) (s : World E) : Prop :=
  (b = true ∧ Setting s) ∨ (b = false ∧ Broken s)

theorem update_spec (ht : Setting t) (offset : Nat) (mask bits : Word) :
    Ends io t (update (.control offset) mask bits) Updated := by
  refine .admits fun b u hu => .cond (fun _ => .ret (.inr ⟨rfl, (ht.quiet hu).broken⟩)) fun _ =>
    .asks rfl fun a e => ?_
  have hu' := ht.quiet hu
  cases a with
  | none =>
    exact .ret (.inr ⟨rfl, hu'.broken.heard (.read (.control offset) none) ⟨trivial, False.elim⟩ e⟩)
  | some v =>
    have hset := hu'.heard (.read (.control offset) (some v)) trivial
      (fun hf => hf.elim hu'.resting.live.sound.1 nofun) (fun _ => rfl) e
    refine (write_spec _ _ _).mono ?_
    rintro done s ⟨x, hx, ⟨rfl, rfl⟩ | ⟨e', rfl⟩⟩
    · exact .inr ⟨rfl, (hset.quiet hx).broken⟩
    have hx' := hset.quiet hx
    cases done with
    | true =>
      exact .inl ⟨rfl, hx'.heard (.write (.control offset) _ true) trivial
        (not_fails_write hx'.resting.live.sound.1 _ _) (fun _ => rfl) e'⟩
    | false =>
      exact .inr ⟨rfl, hx'.broken.heard (.write (.control offset) _ false) ⟨trivial, False.elim⟩ e'⟩

theorem updateAll_spec (rows : List (Reg × Word × Word)) (ht : Setting t)
    (hrows : ∀ r ∈ rows, ∃ offset, r.1 = .control offset) : Ends io t (updateAll rows) Updated := by
  induction rows generalizing t with
  | nil => exact .ret (.inl ⟨rfl, ht⟩)
  | cons r rows ih =>
    rcases r with ⟨reg, mask, bits⟩
    rcases hrows _ List.mem_cons_self with ⟨offset, rfl⟩
    refine .seq (update_spec ht offset mask bits) ?_
    rintro b u (⟨rfl, hset⟩ | ⟨rfl, hbroken⟩)
    · exact ih hset fun r hr => hrows r (List.mem_cons_of_mem _ hr)
    · exact .ret (.inr ⟨rfl, hbroken⟩)

theorem setup_control (c : Configuration) : ∀ r ∈ setup c, ∃ offset, r.1 = .control offset := by
  unfold setup
  simp only [List.forall_mem_cons, Reg.control.injEq, exists_eq', List.not_mem_nil, false_implies,
    implies_true, and_self]

/-- `configure` from its first write on. -/
theorem setup_spec (c : Configuration) (ht : Setting t) :
    Ends io t (do
      if !(← write .tileMaster 0) then fail .ioFailure
      else match ← read .tileMaster with
        | none => fail .ioFailure
        | some posted =>
          if posted &&& masterEnable ≠ 0 then fail .ioFailure
          else if !(← updateAll (setup c)) then fail .ioFailure
          else if !(← admitted) then fail .ioFailure
          else match ← perform (.read32 (.control 0x1900e8)) with
            | none => fail .ioFailure
            | some _ => return .ok) (fun _ => Settled) := by
  have hfail : ∀ u : World E, Broken u →
      Ends io u (fail .ioFailure) (fun _ => Settled) := fun u hu => .fails hu fun s hs => .inr hs
  refine .writes ht.broken (fun u done _ => rule_mask u.obj done u.log) hfail fun u e hq => ?_
  have hu := ht.quiet hq
  have hmasked := hu.heard (.write .tileMaster 0 true) (rule_mask u.obj true u.log).1
    (not_fails_write hu.resting.live.sound.1 _ _) (fun _ => rfl) e
  have hdue : ∀ (w : World E) v, w.obj.phase = .stopped →
      Due w.obj w.log (.read .tileMaster v) := fun w v hp hwork =>
    absurd (hp.symm.trans hwork) nofun
  refine .reads hmasked.broken (fun w v hw => ⟨hdue w v (hmasked.quiet hw).phase, fun h => h.elim⟩)
    hfail fun w posted e' hw hne => ?_
  have hw' := hmasked.quiet hw
  have hposted := hw'.heard _ (hdue w (some posted) hw'.phase)
    (not_fails_read hw'.resting.live.sound.1 _ hne) (fun _ => rfl) e'
  refine .cond (fun _ => hfail _ hposted.broken) fun _ =>
    .seq (updateAll_spec _ hposted (setup_control c)) ?_
  rintro b x (⟨rfl, hset⟩ | ⟨rfl, hbroken⟩)
  case inr => exact hfail x hbroken
  refine .admits fun b y hy => .cond (fun _ => hfail y (hset.quiet hy).broken) fun _ =>
    .asks rfl fun a e => ?_
  have hy' := hset.quiet hy
  cases a with
  | none =>
    exact hfail _ (hy'.broken.heard (.read (.control 0x1900e8) none) ⟨trivial, False.elim⟩ e)
  | some v =>
    exact .ret (.inl (hy'.resting.heard (.read (.control 0x1900e8) (some v)) trivial
      (fun hf => hf.elim hy'.resting.live.sound.1 nofun) (fun _ => rfl) e))

theorem Live.record (h : Live t) {m : Memory} (hqueue : m.queue = t.obj.queue)
    (hother : m.other = t.obj.other) (hinside : m.nextEvent ≤ m.eventCount)
    (hroom : m.eventCount ≤ 64) : Live (t.put { t.obj with mem := m }) := by
  refine ⟨⟨h.logged.rule, h.logged.stored, hroom⟩, h.sound, ?_⟩
  have hlink := h.link
  exact ⟨hqueue ▸ hlink.owed, hother ▸ hlink.other, hqueue ▸ hlink.sorted,
    hqueue ▸ hlink.decoded, hinside⟩

theorem configure_spec (c : Configuration) (complete : Bool) (ht : Settled t) :
    Ends io t (configure c complete) (fun _ => Settled) := by
  refine .looks (.cond (fun _ => .ret ht) fun hvalid => .records ?_)
  have hconf : t.obj.configured ≠ true := fun h => hvalid (.inl h)
  have hrest : Resting t := ht.resolve_right fun h => hconf h.configured
  have hstopped : t.obj.phase = .stopped := by
    by_contra hp
    exact hconf (hrest.configured hp)
  have hbound : Resting (t.put { t.obj with config := c, bound := true }) :=
    ⟨hrest.live.record rfl rfl hrest.live.link.inside hrest.live.logged.room,
      hrest.ready, hrest.clear, hrest.configured⟩
  refine .admits fun b u hu => .cond (fun _ => .ret (.inl (hbound.quiet hu))) fun _ => .records ?_
  have hr := hbound.quiet hu
  exact setup_spec c ⟨⟨hr.live.record rfl rfl hr.live.link.inside hr.live.logged.room,
    hr.ready, hr.clear,
    fun _ => rfl⟩, (congrArg Controller.phase hu.obj).trans hstopped, rfl⟩

theorem step_sound (c : Call) : Spec (Settled (E := E)) (step io c) (fun _ => Settled) := by
  cases c with
  | configure c complete => exact fun t ht => configure_spec c complete ht
  | start => exact fun t ht => start_spec ht
  | filter => exact spec_bind (fun t ht => filter_spec ht) fun _ => spec_pure _ fun _ hs => hs
  | service =>
    intro t ht
    have hserved : Served t (step io .service t).1 (step io .service t).2 := service_spec ht
    exact hserved.imp And.left And.right

end Calls

structure Delivers (io : Backend E) (s : World E) : Prop where
  /-- Every event of the log was due when it came. -/
  rule : Chron Rule s.log
  /-- Never more than 64 events are stored. -/
  stored : s.obj.eventCount ≤ 64 ∧ ∀ l ∈ s.log, l.obj.eventCount ≤ 64
  /-- What was captured and not drained is what the controller holds. -/
  held : s.obj.phase ≠ .fault →
    (book s.log).captured = (book s.log).drained ++ s.obj.queue.map Identity.capture
  /-- A `service` that returns `pending` was just told that there is more. -/
  handed : (step io .service s).1 = .pending → Again s (step io .service s).2
  /-- One that returns `ok` has drained everything, and enabled delivery. -/
  rearmed : (step io .service s).1 = .ok → (step io .service s).2.obj.phase = .armed ∧
    (book (step io .service s).2.log).Clear
  /-- One that has nothing to do was not called for. -/
  idle : (step io .service s).1 = .empty → s.obj.phase ≠ .masked ∧ s.obj.phase ≠ .workloop
  /-- A `service` that does not end well leaves a fault. -/
  failed : (step io .service s).1 ≠ .ok → (step io .service s).1 ≠ .empty →
    (step io .service s).1 ≠ .pending → (step io .service s).2.obj.phase = .fault

theorem start_settled {E : Type} (env : E) : Settled (⟨{}, env, []⟩ : World E) := by
  have hlink : Link {} {} := fresh_link rfl rfl rfl rfl
  have hsound : Sound (⟨{}, env, []⟩ : World E) :=
    ⟨nofun, fun _ hl => absurd hl List.not_mem_nil⟩
  exact .inl ⟨⟨⟨trivial, fun _ hl => absurd hl List.not_mem_nil, Nat.zero_le 64⟩, hsound, hlink⟩,
    nofun, fun _ => ⟨rfl, rfl⟩, fun h => absurd rfl h⟩

/-- Interrupts are delivered exactly once and in order, over every sequence of
    calls. -/
theorem run_delivers {E : Type} (io : Backend E) (calls : List Call) (env : E) :
    Delivers io (run io calls env) := by
  have hsettled : Settled (run io calls env) :=
    spec_runAll (step io) step_sound calls _ (start_settled env)
  have hserved : Served (run io calls env) (step io .service (run io calls env)).1
      (step io .service (run io calls env)).2 := service_spec hsettled
  constructor
  case rule => exact hsettled.elim (fun h => h.live.logged.rule) fun h => h.logged.rule
  case stored =>
    exact hsettled.elim (fun h => ⟨h.live.logged.room, h.live.logged.stored⟩)
      fun h => ⟨h.logged.room, h.logged.stored⟩
  case held =>
    exact fun hne => hsettled.elim (fun h => h.live.link.owed) fun h => absurd h.fault hne
  case handed =>
    intro ha
    rw [ha] at hserved
    rcases hserved with ⟨_, ⟨⟨⟩, _⟩ | ⟨⟨⟩, _⟩ | ⟨_, hagain⟩⟩ | ⟨hill, _⟩
    · exact hagain
    · exact absurd rfl hill.2.2
  case rearmed =>
    intro ha
    rw [ha] at hserved
    rcases hserved with ⟨_, ⟨_, hclear⟩ | ⟨⟨⟩, _⟩ | ⟨⟨⟩, _⟩⟩ | ⟨hill, _⟩
    · exact hclear
    · exact absurd rfl hill.1
  case idle =>
    intro ha
    rw [ha] at hserved
    rcases hserved with ⟨_, ⟨⟨⟩, _⟩ | ⟨_, hidle⟩ | ⟨⟨⟩, _⟩⟩ | ⟨hill, _⟩
    · exact hidle
    · exact absurd rfl hill.2.1
  case failed =>
    intro hok hempty hpending
    rcases hserved with ⟨_, ⟨h, _⟩ | ⟨h, _⟩ | ⟨h, _⟩⟩ | ⟨_, hdead⟩
    · exact absurd h hok
    · exact absurd h hempty
    · exact absurd h hpending
    · exact hdead.fault

end Mellow.Interrupt
