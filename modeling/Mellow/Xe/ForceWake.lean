import Mathlib.Tactic.Common
import Mellow.Lib.Logs

/-!
# Force Wake

The model of `Mellow/XeMmioAccess.cpp`. The kernel holds a domain awake by a bit
of a control register, and reads an acknowledge register until the device has
followed. The object counts who wants a domain awake. The device may answer
anything, and the clock may run backwards; all ones is a device that has gone.
Where the object cannot know what was last asked of the device, it is faulted
and writes nothing again.

## Main definitions

* `Wake`: the fields of the class.
* `acquire`: one more user of a domain.
* `release`: one less.
* `WakeSafe`: what holds after any calls.

## Theorems

* `run_wakeSafe`: every reachable state is safe.
-/

namespace Mellow.ForceWake

open Lib Function

inductive MmioStatus where
  | ok | invalid | unsupportedIp | unavailable | ioFailure | timeout | busy | faulted
  | clockRegression
  deriving DecidableEq, Repr

inductive WakeDomain where
  | gt | render
  deriving DecidableEq, Repr

structure GraphicsIp where
  architecture : Nat
  release : Nat
  deriving DecidableEq, Repr

/-- Which of the four callbacks an access comes with. -/
structure MmioAccess where
  read32 : Bool
  write32 : Bool
  nowMicros : Bool
  delayMicros : Bool
  deriving DecidableEq, Repr

def MmioAccess.complete (a : MmioAccess) : Bool :=
  a.read32 && a.write32 && a.nowMicros && a.delayMicros

/-- The callbacks. A read that fails has no value. -/
structure Ops (E : Type) where
  read32 : Nat → E → Option Nat × E
  write32 : Nat → Nat → E → Bool × E
  nowMicros : E → Nat × E
  delayMicros : Nat → E → Unit × E

inductive Event where
  | read (reg : Nat) (value : Option Nat)
  | wrote (reg value : Nat) (ok : Bool)
  | now (t : Nat)
  | delayed (micros : Nat)
  deriving DecidableEq, Repr

structure Wake where
  ip : GraphicsIp
  refs : WakeDomain → Nat
  initialized : Bool
  faulted : Bool

/-- A wake with its environment and its log. -/
abbrev World (E : Type) := Sys Wake E Event

abbrev Log := List (Entry Wake Event)

abbrev Op (E α : Type) := Prog Wake E Event α

def gmdId : Nat := 0xD8C

def control : WakeDomain → Nat
  | .gt => 0xA188
  | .render => 0xA278

def ack : WakeDomain → Nat
  | .gt => 0xDFC
  | .render => 0xD84

def kernelBit : Nat := 1

def kernelMask : Nat := 1 <<< 16

def allOnes : Nat := 0xFFFFFFFF

def refsMax : Nat := 0xFFFFFFFF

def domain? : Nat → Option WakeDomain
  | 0 => some .gt
  | 1 => some .render
  | _ => none

/-- The fields of the graphics IP register that a check reads. -/
def decodeIp (raw : Nat) : GraphicsIp := ⟨raw >>> 22 % 65536, raw >>> 14 &&& 255⟩

section Calls

variable {E : Type} (io : Ops E)

def read32 (reg : Nat) : Op E (Option Nat) := ask (io.read32 reg) (.read reg)

def write32 (reg value : Nat) : Op E Bool := ask (io.write32 reg value) (.wrote reg value)

def nowMicros : Op E Nat := ask io.nowMicros .now

def delayMicros (micros : Nat) : Op E Unit := ask (io.delayMicros micros) fun _ => .delayed micros

/-- The body of the polling loop. -/
def poll (reg : Nat) (awake : Bool) (start previous : Nat) (last : Bool)
    (next : Nat → Op E MmioStatus) : Op E MmioStatus := do
  match ← read32 io reg with
  | none => return .ioFailure
  | some value =>
    if value = allOnes then return .ioFailure
    else if (value &&& kernelBit != 0) = awake then return .ok
    else do
      let now ← nowMicros io
      if now < previous then return .clockRegression
      else if now - start ≥ 50000 ∨ last = true then return .timeout
      else do
        delayMicros io 50
        next now

def pollLoop (reg : Nat) (awake : Bool) (start : Nat) : Nat → Nat → Op E MmioStatus
  | 0, previous => poll io reg awake start previous true fun _ => return .timeout
  | n + 1, previous => poll io reg awake start previous false (pollLoop reg awake start n)

def wait (reg : Nat) (awake : Bool) : Op E MmioStatus := do
  let start ← nowMicros io
  pollLoop io reg awake start 1000 start

def setRefs (d : WakeDomain) (n : Nat) : Op E Unit :=
  edit fun w => { w with refs := update w.refs d n }

def setFaulted : Op E Unit := edit fun w => { w with faulted := true }

def initializeWake (access : MmioAccess) : Op E MmioStatus := do
  let w ← look
  if w.initialized then return .busy
  else if !access.complete then return .unavailable
  else
    match ← read32 io gmdId with
    | none => return .ioFailure
    | some raw =>
      if raw = allOnes then return .ioFailure
      else if (decodeIp raw).architecture ≠ 12 ∨ (decodeIp raw).release ≠ 70 then
        return .unsupportedIp
      else do
        edit fun w => { w with ip := decodeIp raw, initialized := true }
        return .ok

def Wake.canDetach (w : Wake) : Bool := w.refs .gt = 0 ∧ w.refs .render = 0 ∧ w.faulted = false

def shutdown : Op E MmioStatus := do
  let w ← look
  if !w.canDetach then return .busy
  else do
    edit fun w => { w with ip := ⟨0, 0⟩, initialized := false }
    return .ok

def rollback (d : WakeDomain) (result : MmioStatus) : Op E MmioStatus := do
  let cleared ← write32 io (control d) kernelMask
  if !cleared then do
    setFaulted
    return result
  else do
    if (← wait io (ack d) false) ≠ .ok then do
      setFaulted
      return result
    else return result

def wake (d : WakeDomain) : Op E MmioStatus := do
  match ← read32 io (ack d) with
  | none => return .ioFailure
  | some value =>
    if value = allOnes then return .ioFailure
    else if value &&& kernelBit ≠ 0 then return .busy
    else do
      if !(← write32 io (control d) (kernelMask ||| kernelBit)) then do
        setFaulted
        return .ioFailure
      else do
        let result ← wait io (ack d) true
        if result ≠ .ok then rollback io d result
        else do
          setRefs d 1
          return .ok

def acquire (index : Nat) : Op E MmioStatus :=
  match domain? index with
  | none => return .invalid
  | some d => do
    let w ← look
    if w.initialized = false then return .unavailable
    else if w.faulted then return .faulted
    else if d = .render ∧ w.refs .gt = 0 then return .busy
    else if w.refs d = refsMax then return .busy
    else if w.refs d ≠ 0 then do
      setRefs d (w.refs d + 1)
      return .ok
    else wake io d

def doze (d : WakeDomain) : Op E MmioStatus := do
  if !(← write32 io (control d) kernelMask) then do
    setFaulted
    return .ioFailure
  else do
    let result ← wait io (ack d) false
    if result ≠ .ok then do
      setFaulted
      return result
    else do
      setRefs d 0
      return .ok

def release (index : Nat) : Op E MmioStatus :=
  match domain? index with
  | none => return .invalid
  | some d => do
    let w ← look
    if w.initialized = false then return .unavailable
    else if w.faulted then return .faulted
    else if w.refs d = 0 ∨ (d = .gt ∧ w.refs d = 1 ∧ w.refs .render ≠ 0) then return .busy
    else if w.refs d > 1 then do
      setRefs d (w.refs d - 1)
      return .ok
    else doze io d

end Calls

def Wake.held (w : Wake) (index : Nat) : Bool :=
  match domain? index with
  | none => false
  | some d => w.initialized && !w.faulted && w.refs d != 0

inductive Call where
  | initializeWake (access : MmioAccess)
  | shutdown
  | acquire (index : Nat)
  | release (index : Nat)
  deriving DecidableEq, Repr

def step {E : Type} (io : Ops E) : Call → Op E MmioStatus
  | .initializeWake access => initializeWake io access
  | .shutdown => shutdown
  | .acquire index => acquire io index
  | .release index => release io index

def start {E : Type} (e : E) : World E := ⟨⟨⟨0, 0⟩, fun _ => 0, false, false⟩, e, []⟩

def run {E : Type} (io : Ops E) (e : E) (cs : List Call) : World E :=
  (runAll (step io) cs (start e)).2

section Requests

/-- Whether an event asks for the kernel bit of a domain to be set. -/
def Event.request (d : WakeDomain) : Event → Option Bool
  | .wrote reg value _ => if reg = control d then some (value &&& kernelBit != 0) else none
  | .read _ _ => none
  | .now _ => none
  | .delayed _ => none

/-- Whether an event leaves the clearing of a domain open, or shows it done. -/
def Event.clears (d : WakeDomain) : Event → Option Bool
  | .wrote reg value _ => if reg = control d ∧ value &&& kernelBit = 0 then some false else none
  | .read reg (some value) =>
    if reg = ack d ∧ value ≠ allOnes ∧ value &&& kernelBit = 0 then some true else none
  | .read _ none => none
  | .now _ => none
  | .delayed _ => none

def Event.isWrite : Event → Bool
  | .wrote _ _ _ => true
  | .read _ _ => false
  | .now _ => false
  | .delayed _ => false

def request (d : WakeDomain) (log : Log) : Option Bool :=
  latest (Event.request d) log

/-- No clearing of a domain is left that was not seen done. -/
def Confirmed (d : WakeDomain) (log : Log) : Prop :=
  latest (Event.clears d) log ≠ some false

/-- A bit is set where it was seen clear, and cleared where it was set. -/
def WakeRule (l : Entry Wake Event) (before : Log) : Prop :=
  match l.event with
  | .wrote reg value _ => l.obj.faulted = false ∧ ∃ d, reg = control d ∧
      ((value = kernelMask ||| kernelBit ∧ ∃ seen rest, seen &&& kernelBit = 0 ∧ seen ≠ allOnes ∧
          before = ⟨l.obj, .read (ack d) (some seen)⟩ :: rest) ∨
        (value = kernelMask ∧ request d before = some true))
  | .read _ _ => True
  | .now _ => True
  | .delayed _ => True

end Requests

section Polling

variable {E : Type} {io : Ops E} {t : World E}

/-- Between two writes nothing is asked of the device. -/
abbrev Idle (t s : World E) : Prop := Quiet (fun ev => ev.isWrite = false) t s

theorem idle_read (t : World E) (reg : Nat) (v : Option Nat) (e : E) :
    Idle t (t.heard (.read reg v) e) :=
  Quiet.heard (q := fun ev => ev.isWrite = false) (Quiet.refl t) rfl e

/-- A poll that succeeds ends with a read of what it waited for. -/
def Polled (reg : Nat) (awake : Bool) (t : World E) (r : MmioStatus) (s : World E) :
    Prop :=
  Idle t s ∧ (r = .ok → ∃ value rest, s.log = ⟨t.obj, .read reg (some value)⟩ :: rest ∧
    value ≠ allOnes ∧ (value &&& kernelBit != 0) = awake)

theorem poll_spec {reg start previous : Nat} {awake last : Bool} {next : Nat → Op E MmioStatus}
    (hnext : ∀ now, Spec (Idle t) (next now) (Polled reg awake t)) :
    Spec (Idle t) (poll io reg awake start previous last next) (Polled reg awake t) := by
  have hread : Spec (Idle t) (read32 io reg) (fun v s => Idle t s ∧
      ∃ rest, s.log = ⟨t.obj, .read reg v⟩ :: rest) :=
    spec_ask _ _ fun s v e hs => ⟨hs.heard rfl e, s.log, by rw [← hs.obj]; rfl⟩
  refine spec_bind hread fun v => ?_
  cases v with
  | none => exact spec_pure _ fun s hs => ⟨hs.1, nofun⟩
  | some value =>
    refine spec_unless (fun s hs => ⟨hs.1, nofun⟩) fun hones => ?_
    refine spec_ite (fun hbit => spec_pure _ fun s hs => ?_) fun _ => ?_
    · rcases hs.2 with ⟨rest, hlog⟩
      exact ⟨hs.1, fun _ => ⟨value, rest, hlog, hones, hbit⟩⟩
    · refine spec_pre (fun s hs => hs.1) ?_
      refine spec_bind (quiet_ask _ fun _ => rfl) fun now => ?_
      refine spec_guard (fun s hs => ⟨hs, nofun⟩) ?_
      refine spec_guard (fun s hs => ⟨hs, nofun⟩) ?_
      exact spec_bind (quiet_ask _ fun _ => rfl) fun _ => hnext now

theorem pollLoop_spec {reg start : Nat} {awake : Bool} (n previous : Nat) :
    Spec (Idle t) (pollLoop io reg awake start n previous) (Polled reg awake t) := by
  induction n generalizing previous with
  | zero => exact poll_spec fun _ => spec_pure _ fun s hs => ⟨hs, nofun⟩
  | succ n ih => exact poll_spec ih

theorem wait_spec (reg : Nat) (awake : Bool) :
    Spec (Idle t) (wait io reg awake) (Polled reg awake t) :=
  spec_bind (quiet_ask _ fun _ => rfl) fun _ => pollLoop_spec 1000 _

theorem wait_from (u : World E) (reg : Nat) (awake : Bool) :
    Spec (fun s => s = u) (wait io reg awake) (Polled reg awake u) := by
  refine spec_pre (fun s hs => ?_) (wait_spec reg awake)
  rw [hs]
  exact Quiet.refl u

end Polling

section Invariant

variable {E : Type}

/-- What holds whether or not the object is faulted. -/
structure Base (s : World E) : Prop where
  nested : s.obj.refs .render ≠ 0 → s.obj.refs .gt ≠ 0
  bounded : ∀ d, s.obj.refs d ≤ refsMax
  rule : Chron WakeRule s.log

/-- Nothing that was asked of the device is in doubt. -/
structure Certain (s : World E) : Prop where
  up : s.obj.faulted = false
  written : ∀ l ∈ s.log, ∀ reg value, l.event ≠ .wrote reg value false
  confirmed : ∀ d, Confirmed d s.log

/-- The count of a domain and what was last asked of it. -/
def Agrees (s : World E) (d : WakeDomain) : Prop :=
  request d s.log = some true ↔ s.obj.refs d ≠ 0

structure Sound (s : World E) : Prop where
  base : Base s
  certain : s.obj.faulted = false → Certain s
  agrees : s.obj.faulted = false → ∀ d, Agrees s d

/-- One domain was asked to change, and its count need not say so yet. -/
structure Asked (d : WakeDomain) (awake : Bool) (s : World E) : Prop where
  base : Base s
  certain : Certain s
  others : ∀ d', d' ≠ d → Agrees s d'
  asked : request d s.log = some awake

end Invariant

section Frame

variable {E : Type} {s t : World E} {d : WakeDomain}

theorem control_inj {d d' : WakeDomain} (h : control d = control d') : d = d' := by
  cases d <;> cases d' <;> first | rfl | cases h

theorem idle_request (h : Idle t s) (d : WakeDomain) : request d s.log = request d t.log := by
  refine h.latest fun ev hev => ?_
  cases ev with
  | wrote reg value ok => cases hev
  | read | now | delayed => rfl

theorem idle_base (h : Idle t s) (ht : Base t) : Base s where
  nested := by rw [h.obj]; exact ht.nested
  bounded := by rw [h.obj]; exact ht.bounded
  rule := by
    refine h.chron (fun l before hl => ?_) ht.rule
    rcases l with ⟨obj, ev⟩
    cases ev with
    | wrote reg value ok => cases hl
    | read | now | delayed => trivial

theorem idle_written (h : Idle t s)
    (ht : ∀ l ∈ t.log, ∀ reg value, l.event ≠ .wrote reg value false) :
    ∀ l ∈ s.log, ∀ reg value, l.event ≠ .wrote reg value false := by
  refine h.forall_mem (fun l hl reg value hev => ?_) ht
  rw [hev] at hl
  cases hl

theorem idle_confirmed (h : Idle t s) (ht : Confirmed d t.log) : Confirmed d s.log := by
  refine h.latest_ne (fun ev hev => ?_) ht
  cases ev with
  | wrote reg value ok => cases hev
  | read reg value =>
    cases value with
    | none => exact nofun
    | some value =>
      rw [Event.clears]
      split_ifs <;> exact nofun
  | now | delayed => exact nofun

theorem idle_certain (h : Idle t s) (ht : Certain t) : Certain s where
  up := by rw [h.obj]; exact ht.up
  written := idle_written h ht.written
  confirmed := fun d => idle_confirmed h (ht.confirmed d)

theorem idle_agrees (h : Idle t s) (ht : Agrees t d) : Agrees s d := by
  unfold Agrees
  rw [idle_request h, h.obj]
  exact ht

theorem idle_sound (h : Idle t s) (ht : Sound t) : Sound s where
  base := idle_base h ht.base
  certain := fun hup => idle_certain h (ht.certain (h.obj ▸ hup))
  agrees := fun hup d => idle_agrees h (ht.agrees (h.obj ▸ hup) d)

theorem idle_asked {awake : Bool} (h : Idle t s) (ht : Asked d awake t) : Asked d awake s where
  base := idle_base h ht.base
  certain := idle_certain h ht.certain
  others := fun d' hd => idle_agrees h (ht.others d' hd)
  asked := (idle_request h d).trans ht.asked

end Frame

section Writes

variable {E : Type} {s t : World E} {d : WakeDomain}

theorem request_wrote (d d' : WakeDomain) (value : Nat) (ok : Bool) (e : E) :
    request d' (s.heard (.wrote (control d) value ok) e).log =
      if d = d' then some (value &&& kernelBit != 0) else request d' s.log := by
  by_cases hd : d = d'
  · have hsome : Event.request d' (.wrote (control d) value ok) = some (value &&& kernelBit != 0) :=
      if_pos (congrArg control hd)
    rw [if_pos hd]
    exact latest_cons_some hsome s.log
  · have hnone : Event.request d' (.wrote (control d) value ok) = none :=
      if_neg fun h => hd (control_inj h)
    rw [if_neg hd]
    exact latest_cons_none hnone s.log

theorem base_wrote {reg value : Nat} {ok : Bool} (h : Base s)
    (hrule : WakeRule ⟨s.obj, .wrote reg value ok⟩ s.log) (e : E) :
    Base (s.heard (.wrote reg value ok) e) :=
  ⟨h.nested, h.bounded, hrule, h.rule⟩

theorem written_wrote {reg value : Nat}
    (h : ∀ l ∈ s.log, ∀ reg value, l.event ≠ .wrote reg value false)
    (e : E) : ∀ l ∈ (s.heard (.wrote reg value true) e).log, ∀ reg value,
      l.event ≠ .wrote reg value false := by
  intro l hl
  rcases List.mem_cons.mp hl with rfl | hl
  · exact fun _ _ => nofun
  · exact h l hl

theorem setRule {seen : Nat} {rest : Log} (hup : s.obj.faulted = false)
    (hlog : s.log = ⟨s.obj, .read (ack d) (some seen)⟩ :: rest) (hones : seen ≠ allOnes)
    (hseen : seen &&& kernelBit = 0) (ok : Bool) :
    WakeRule ⟨s.obj, .wrote (control d) (kernelMask ||| kernelBit) ok⟩ s.log :=
  ⟨hup, d, rfl, .inl ⟨rfl, seen, rest, hseen, hones, hlog⟩⟩

theorem clearRule (h : Asked d true s) (ok : Bool) :
    WakeRule ⟨s.obj, .wrote (control d) kernelMask ok⟩ s.log :=
  ⟨h.certain.up, d, rfl, .inr ⟨rfl, h.asked⟩⟩

theorem asked_set {seen : Nat} {rest : Log} (h : Sound s)
    (hup : s.obj.faulted = false) (hlog : s.log = ⟨s.obj, .read (ack d) (some seen)⟩ :: rest)
    (hones : seen ≠ allOnes) (hseen : seen &&& kernelBit = 0) (e : E) :
    Asked d true (s.heard (.wrote (control d) (kernelMask ||| kernelBit) true) e) where
  base := base_wrote h.base (setRule hup hlog hones hseen true) e
  certain := by
    refine ⟨hup, written_wrote (h.certain hup).written e, fun d' => ?_⟩
    have hnone : Event.clears d' (.wrote (control d) (kernelMask ||| kernelBit) true) = none :=
      if_neg fun hclears => absurd hclears.2 (by decide)
    unfold Confirmed
    rw [Sys.heard, latest_cons_none hnone]
    exact (h.certain hup).confirmed d'
  others := by
    intro d' hd
    unfold Agrees
    rw [request_wrote, if_neg (Ne.symm hd)]
    exact h.agrees hup d'
  asked := by
    rw [request_wrote, if_pos rfl]
    rfl

theorem asked_cleared {e : E} {u : World E} (h : Asked d true s)
    (hpolled : Polled (ack d) false (s.heard (.wrote (control d) kernelMask true) e) .ok u) :
    Asked d false u := by
  rcases hpolled with ⟨hidle, hok⟩
  rcases hok rfl with ⟨value, rest, hlog, hones, hbit⟩
  have hclear : value &&& kernelBit = 0 := by simpa using hbit
  have hbase := base_wrote h.base (clearRule h true) e
  refine ⟨idle_base hidle hbase, ⟨?_, ?_, fun d' => ?_⟩, fun d' hd => ?_, ?_⟩
  · rw [hidle.obj]
    exact h.certain.up
  · exact idle_written hidle (written_wrote h.certain.written e)
  · by_cases hd : d' = d
    · subst hd
      have hseen : Event.clears d' (.read (ack d') (some value)) = some true :=
        if_pos ⟨rfl, hones, hclear⟩
      unfold Confirmed
      rw [hlog, latest_cons_some hseen]
      exact nofun
    · refine idle_confirmed hidle ?_
      have hnone : Event.clears d' (.wrote (control d) kernelMask true) = none :=
        if_neg fun hclears => hd (control_inj hclears.1).symm
      unfold Confirmed
      rw [Sys.heard, latest_cons_none hnone]
      exact h.certain.confirmed d'
  · refine idle_agrees hidle ?_
    unfold Agrees
    rw [request_wrote, if_neg (Ne.symm hd)]
    exact h.others d' hd
  · rw [idle_request hidle, request_wrote, if_pos rfl]
    rfl

theorem sound_faulted (h : Base s) : Sound (s.put { s.obj with faulted := true }) :=
  ⟨⟨h.nested, h.bounded, h.rule⟩, nofun, nofun⟩

theorem sound_setRefs {awake : Bool} {n : Nat} (h : Asked d awake s) (hn : n ≤ refsMax)
    (hawake : awake = true ↔ n ≠ 0)
    (hnested : update s.obj.refs d n .render ≠ 0 → update s.obj.refs d n .gt ≠ 0) :
    Sound (s.put { s.obj with refs := update s.obj.refs d n }) where
  base := by
    refine ⟨hnested, fun d' => ?_, h.base.rule⟩
    by_cases hd : d' = d
    · subst hd
      change update s.obj.refs d' n d' ≤ refsMax
      rwa [update_self]
    · change update s.obj.refs d n d' ≤ refsMax
      rw [update_of_ne hd]
      exact h.base.bounded d'
  certain := fun _ => ⟨h.certain.up, h.certain.written, h.certain.confirmed⟩
  agrees := by
    intro _ d'
    unfold Agrees
    by_cases hd : d' = d
    · subst hd
      change request d' s.log = some true ↔ update s.obj.refs d' n d' ≠ 0
      rw [h.asked, update_self, ← hawake, Option.some_inj]
    · change request d' s.log = some true ↔ update s.obj.refs d n d' ≠ 0
      rw [update_of_ne hd]
      exact h.others d' hd

end Writes

section Steps

variable {E : Type} {io : Ops E} {d : WakeDomain} {o : Wake}

/-- Clearing a bit: the object is faulted, or the bit was seen clear. -/
theorem clear_spec {r : MmioStatus} {f : MmioStatus → MmioStatus} {k : Op E MmioStatus}
    (hk : Spec (fun s => Asked d false s ∧ s.obj = o) k (fun _ => Sound)) :
    Spec (fun s => Asked d true s ∧ s.obj = o)
      (write32 io (control d) kernelMask >>= fun ok =>
        if (!ok) = true then setFaulted >>= fun _ => pure r
        else wait io (ack d) false >>= fun result =>
          if result ≠ .ok then setFaulted >>= fun _ => pure (f result) else k)
      (fun _ => Sound) := by
  refine spec_each fun t ht => ?_
  have hwrite : Spec (fun s => s = t) (write32 io (control d) kernelMask)
      (fun ok s => ∃ e, s = t.heard (.wrote (control d) kernelMask ok) e) :=
    spec_ask _ _ fun s ok e hs => ⟨e, by rw [hs]⟩
  have hfault : ∀ r : MmioStatus, Spec (Base (E := E)) (setFaulted >>= fun _ => pure r)
      (fun _ => Sound) := fun r =>
    spec_bind (spec_edit (T := fun _ => Sound) _ fun s hs => sound_faulted hs) fun _ =>
      spec_pure _ fun _ hs => hs
  refine spec_bind hwrite fun ok => ?_
  cases ok with
  | false =>
    refine spec_pre (fun s hs => ?_) (hfault r)
    rcases hs with ⟨e, rfl⟩
    exact base_wrote ht.1.base (clearRule ht.1 false) e
  | true =>
    refine spec_each fun u hu => ?_
    rcases hu with ⟨e, rfl⟩
    refine spec_bind (wait_from _ (ack d) false) fun result => ?_
    refine spec_ite (fun _ => spec_pre (fun s hs => ?_) (hfault _)) fun hok => ?_
    · exact idle_base hs.1 (base_wrote ht.1.base (clearRule ht.1 true) e)
    · refine spec_pre (fun s hs => ?_) hk
      have hresult : result = .ok := not_not.mp hok
      rw [hresult] at hs
      exact ⟨asked_cleared ht.1 hs, hs.1.obj.trans ht.2⟩

/-- Undoing a request leaves the count at zero, which it was. -/
theorem rollback_spec (hzero : o.refs d = 0) (result : MmioStatus) :
    Spec (fun s => Asked d true s ∧ s.obj = o) (rollback io d result) (fun _ => Sound) := by
  refine clear_spec (spec_pure _ fun s hs => ?_)
  rcases hs with ⟨hasked, rfl⟩
  refine ⟨hasked.base, fun _ => hasked.certain, fun _ d' => ?_⟩
  by_cases hd : d' = d
  · simp [hasked.asked, Agrees, *]
  · exact hasked.others d' hd

theorem wake_spec (hup : o.faulted = false) (hzero : o.refs d = 0)
    (hnested : d = .render → o.refs .gt ≠ 0) :
    Spec (fun s => Sound s ∧ s.obj = o) (wake io d) (fun _ => Sound) := by
  refine spec_each fun t ht => ?_
  have hread : Spec (fun s => s = t) (read32 io (ack d))
      (fun v s => Idle t s ∧ s.log = ⟨t.obj, .read (ack d) v⟩ :: t.log) :=
    spec_ask _ _ fun s v e hs => by
      rw [hs]
      exact ⟨idle_read t (ack d) v e, rfl⟩
  refine spec_bind hread fun v => ?_
  cases v with
  | none => exact spec_pure _ fun s hs => idle_sound hs.1 ht.1
  | some seen =>
    refine spec_unless (fun s hs => idle_sound hs.1 ht.1) fun hones => ?_
    refine spec_unless (fun s hs => idle_sound hs.1 ht.1) fun hseen => ?_
    have hclear : seen &&& kernelBit = 0 := not_not.mp hseen
    refine spec_each fun u hu => ?_
    have hsound := idle_sound hu.1 ht.1
    have hobj : u.obj = o := hu.1.obj.trans ht.2
    have hlog : u.log = ⟨u.obj, .read (ack d) (some seen)⟩ :: t.log := by
      rw [hu.1.obj]
      exact hu.2
    have hup' : u.obj.faulted = false := by rw [hobj, hup]
    have hwrite : Spec (fun s => s = u) (write32 io (control d) (kernelMask ||| kernelBit))
        (fun ok s => ∃ e, s = u.heard (.wrote (control d) (kernelMask ||| kernelBit) ok) e) :=
      spec_ask _ _ fun s ok e hs => ⟨e, by rw [hs]⟩
    refine spec_bind hwrite fun ok => ?_
    cases ok with
    | false =>
      refine spec_bind (spec_edit (T := fun _ => Sound) _ fun s hs => ?_) fun _ =>
        spec_pure _ fun _ hs => hs
      rcases hs with ⟨e, rfl⟩
      exact sound_faulted (base_wrote hsound.base (setRule hup' hlog hones hclear false) e)
    | true =>
      refine spec_each fun w hw => ?_
      rcases hw with ⟨e, rfl⟩
      have hasked := asked_set hsound hup' hlog hones hclear e
      refine spec_bind (wait_from _ (ack d) true) fun result => ?_
      refine spec_ite (fun _ => spec_pre (fun s hs => ?_) (rollback_spec hzero result))
        fun _ => ?_
      · exact ⟨idle_asked hs.1 hasked, hs.1.obj.trans hobj⟩
      · refine spec_bind (spec_edit (T := fun _ => Sound) _ fun s hs => ?_) fun _ =>
          spec_pure _ fun _ hs => hs
        have hobj' : s.obj = o := hs.1.obj.trans hobj
        refine sound_setRefs (idle_asked hs.1 hasked) (by decide) (by decide) ?_
        rw [hobj']
        cases d with
        | gt => exact fun _ => by rw [update_self]; decide
        | render => simp [*]

theorem doze_spec (hcount : o.refs d ≠ 0) (hup : o.faulted = false)
    (hnested : d = .gt → o.refs .render = 0) :
    Spec (fun s => Sound s ∧ s.obj = o) (doze io d) (fun _ => Sound) := by
  have hasked : ∀ s : World E, Sound s ∧ s.obj = o → Asked d true s ∧ s.obj = o := by
    rintro s ⟨hs, rfl⟩
    exact ⟨⟨hs.base, hs.certain hup, fun d' _ => hs.agrees hup d', (hs.agrees hup d).mpr hcount⟩,
      rfl⟩
  refine spec_pre hasked (clear_spec ?_)
  refine spec_bind (spec_edit (T := fun _ => Sound) _ fun s hs => ?_) fun _ =>
    spec_pure _ fun _ hs => hs
  rcases hs with ⟨hs, rfl⟩
  refine sound_setRefs hs (Nat.zero_le _) (by decide) ?_
  cases d with
  | gt => simp [*]
  | render =>
    rw [update_self]
    exact fun h => absurd rfl h

/-- One hold more, or one less, of a domain that is awake. -/
theorem recount_spec {n : Nat} (hup : o.faulted = false) (hcount : o.refs d ≠ 0) (hn : n ≠ 0)
    (hmax : o.refs d ≤ refsMax → n ≤ refsMax) (r : MmioStatus) :
    Spec (fun s : World E => Sound s ∧ s.obj = o) (setRefs d n >>= fun _ => pure r)
      (fun _ => Sound) := by
  refine spec_bind (spec_edit (T := fun _ => Sound) _ fun s hs => ?_) fun _ =>
    spec_pure _ fun _ hs => hs
  rcases hs with ⟨hs, rfl⟩
  have hasked : Asked d true s :=
    ⟨hs.base, hs.certain hup, fun d' _ => hs.agrees hup d', (hs.agrees hup d).mpr hcount⟩
  refine sound_setRefs hasked (hmax (hs.base.bounded d)) ⟨fun _ => hn, fun _ => rfl⟩ ?_
  cases d with
  | gt => exact fun _ => by rw [update_self]; exact hn
  | render =>
    intro _
    rw [update_of_ne (by decide)]
    exact hs.base.nested hcount

theorem domain_spec {index : Nat} {f : WakeDomain → Op E MmioStatus} {r : MmioStatus}
    (h : ∀ d, Spec Sound (f d) (fun _ => Sound)) :
    Spec Sound (match domain? index with | none => pure r | some d => f d) (fun _ => Sound) := by
  cases domain? index with
  | none => exact spec_pure _ fun _ hs => hs
  | some d => exact h d

theorem acquire_sound (index : Nat) : Spec Sound (acquire io index) (fun _ => Sound) := by
  refine domain_spec fun d => ?_
  refine spec_bind spec_look fun w =>
    spec_pre (fun s hs => (⟨hs.1, hs.2.symm⟩ : Sound s ∧ s.obj = w)) ?_
  refine spec_guard (fun _ hs => hs.1) ?_
  refine spec_unless (fun _ hs => hs.1) fun hup => ?_
  refine spec_unless (fun _ hs => hs.1) fun hgt => ?_
  refine spec_unless (fun _ hs => hs.1) fun hmax => ?_
  have hup' : w.faulted = false := Bool.eq_false_iff.mpr hup
  refine spec_ite (fun hcount => ?_) fun hzero => ?_
  · exact recount_spec hup' hcount (Nat.succ_ne_zero _) (by omega) .ok
  · refine wake_spec hup' (not_not.mp hzero) ?_
    rintro rfl
    exact fun hzero => hgt ⟨rfl, hzero⟩

theorem release_sound (index : Nat) : Spec Sound (release io index) (fun _ => Sound) := by
  refine domain_spec fun d => ?_
  refine spec_bind spec_look fun w =>
    spec_pre (fun s hs => (⟨hs.1, hs.2.symm⟩ : Sound s ∧ s.obj = w)) ?_
  refine spec_guard (fun _ hs => hs.1) ?_
  refine spec_unless (fun _ hs => hs.1) fun hup => ?_
  refine spec_unless (fun _ hs => hs.1) fun hfree => ?_
  have hup' : w.faulted = false := Bool.eq_false_iff.mpr hup
  rcases not_or.mp hfree with ⟨hcount, hlast⟩
  refine spec_ite (fun hmore => ?_) fun hone => ?_
  · exact recount_spec hup' hcount (by omega) (by omega) .ok
  · refine doze_spec hcount hup' ?_
    rintro rfl
    refine Decidable.byContradiction fun hrender => hlast ⟨rfl, ?_, hrender⟩
    omega

theorem initializeWake_sound (access : MmioAccess) :
    Spec Sound (initializeWake io access) (fun _ => Sound) := by
  refine spec_bind spec_look fun w => ?_
  refine spec_guard (fun _ hs => hs.1) ?_
  refine spec_guard (fun _ hs => hs.1) ?_
  have hread : Spec (fun s => Sound s ∧ w = s.obj) (read32 io gmdId) (fun _ => Sound) :=
    spec_ask _ _ fun s v e hs => idle_sound (idle_read s gmdId v e) hs.1
  refine spec_bind hread fun v => ?_
  cases v with
  | none => exact spec_pure _ fun _ hs => hs
  | some raw =>
    refine spec_guard (fun _ hs => hs) ?_
    refine spec_guard (fun _ hs => hs) ?_
    refine spec_bind (spec_edit (T := fun _ => Sound) _ fun s hs => ?_) fun _ =>
      spec_pure _ fun _ hs => hs
    exact ⟨⟨hs.base.nested, hs.base.bounded, hs.base.rule⟩,
      fun hup => ⟨hup, (hs.certain hup).written, (hs.certain hup).confirmed⟩, hs.agrees⟩

theorem shutdown_sound : Spec (E := E) Sound shutdown (fun _ => Sound) := by
  refine spec_bind spec_look fun w => ?_
  refine spec_guard (fun _ hs => hs.1) ?_
  refine spec_bind (spec_edit (T := fun _ => Sound) _ fun s hs => ?_) fun _ =>
    spec_pure _ fun _ hs => hs
  rcases hs with ⟨hs, _⟩
  exact ⟨⟨hs.base.nested, hs.base.bounded, hs.base.rule⟩,
    fun hup => ⟨hup, (hs.certain hup).written, (hs.certain hup).confirmed⟩, hs.agrees⟩

theorem step_sound (c : Call) : Spec Sound (step io c) (fun _ => Sound) := by
  cases c with
  | initializeWake access => exact initializeWake_sound access
  | shutdown => exact shutdown_sound
  | acquire index => exact acquire_sound index
  | release index => exact release_sound index

end Steps

section Faults

variable {E : Type} {io : Ops E} {t : World E}

/-- The object is faulted, and has not written since `t`. -/
def Stuck (t s : World E) : Prop :=
  s.obj.faulted = true ∧ ∃ lines, s.log = lines ++ t.log ∧ ∀ l ∈ lines, l.event.isWrite = false

theorem stuck_read (reg : Nat) : Spec (Stuck t) (read32 io reg) (fun _ => Stuck t) := by
  refine spec_ask _ _ fun s v e hs => ?_
  rcases hs with ⟨hfault, lines, hlog, hlines⟩
  refine ⟨hfault, ⟨s.obj, .read reg v⟩ :: lines, by rw [Sys.heard, hlog]; rfl, fun l hl => ?_⟩
  rcases List.mem_cons.mp hl with rfl | hl
  · rfl
  · exact hlines l hl

theorem shutdown_busy {s : World E} (h : s.obj.faulted = true) : shutdown s = (.busy, s) := by
  have hno : (!s.obj.canDetach) = true := by
    simp [Wake.canDetach, h]
  unfold shutdown
  rw [look_bind, if_pos hno]
  rfl

/-- The calls that would write ask first. -/
theorem refused_spec {index : Nat} {r₁ r₂ r₃ : MmioStatus}
    {k : WakeDomain → Wake → Op E MmioStatus} : Spec (Stuck t)
      (match domain? index with
        | none => pure r₁
        | some d => look >>= fun w =>
          if w.initialized = false then pure r₂ else if w.faulted = true then pure r₃ else k d w)
      (fun _ => Stuck t) := by
  cases domain? index with
  | none => exact spec_pure _ fun _ hs => hs
  | some d =>
    intro s hs
    dsimp only
    rw [look_bind, hs.1, if_pos rfl]
    split_ifs
    · exact hs
    · exact hs

theorem step_stuck (c : Call) : Spec (Stuck t) (step io c) (fun _ => Stuck t) := by
  have hdone : ∀ r : MmioStatus, Spec (Stuck t) (pure r : Op E MmioStatus) (fun _ => Stuck t) :=
    fun r => spec_pure _ fun _ hs => hs
  cases c with
  | initializeWake access =>
    refine spec_bind spec_look fun w => spec_pre (fun s hs => hs.1) ?_
    refine spec_ite (fun _ => hdone _) fun _ => spec_ite (fun _ => hdone _) fun _ => ?_
    refine spec_bind (stuck_read gmdId) fun v => ?_
    cases v with
    | none => exact hdone _
    | some raw =>
      refine spec_ite (fun _ => hdone _) fun _ => spec_ite (fun _ => hdone _) fun _ => ?_
      exact spec_bind (spec_edit (T := fun _ => Stuck t) _ fun s hs => hs) fun _ => hdone _
  | shutdown =>
    intro s hs
    change Stuck t (shutdown s).2
    rw [shutdown_busy hs.1]
    exact hs
  | acquire | release => exact refused_spec

theorem held_faulted {w : Wake} (h : w.faulted = true) (index : Nat) : w.held index = false := by
  unfold Wake.held
  cases domain? index with
  | none => rfl
  | some d => simp [*]

end Faults

structure WakeSafe {E : Type} (s : World E) : Prop where
  /-- The bit of a domain was last asked to be set where its count is not zero. -/
  requested : s.obj.faulted = false → ∀ d, request d s.log = some true ↔ s.obj.refs d ≠ 0
  nested : s.obj.refs .render ≠ 0 → s.obj.refs .gt ≠ 0
  rule : Chron WakeRule s.log
  /-- A write that failed, or a clearing that was never seen done, is a fault. -/
  uncertain : ((∃ l ∈ s.log, ∃ reg value, l.event = .wrote reg value false) ∨
    ∃ d, ¬Confirmed d s.log) → s.obj.faulted = true

theorem start_sound {E : Type} (e : E) : Sound (start e) where
  base := ⟨fun h => h, fun _ => Nat.zero_le _, trivial⟩
  certain := fun _ => ⟨rfl, nofun, fun _ => nofun⟩
  agrees := fun _ _ => ⟨nofun, fun h => absurd rfl h⟩

theorem Sound.wakeSafe {E : Type} {s : World E} (h : Sound s) : WakeSafe s where
  requested := h.agrees
  nested := h.base.nested
  rule := h.base.rule
  uncertain := by
    intro hdoubt
    cases hup : s.obj.faulted with
    | true => rfl
    | false =>
      rcases hdoubt with ⟨l, hl, reg, value, hev⟩ | ⟨d, hopen⟩
      · exact absurd hev ((h.certain hup).written l hl reg value)
      · exact absurd ((h.certain hup).confirmed d) hopen

/-- Counts, requests and faults over every sequence of calls. -/
theorem run_wakeSafe {E : Type} (io : Ops E) (e : E) (cs : List Call) :
    WakeSafe (run io e cs) ∧
      ((run io e cs).obj.faulted = true → ∀ cs',
        (run io e (cs ++ cs')).obj.faulted = true ∧
        (∃ lines, (run io e (cs ++ cs')).log = lines ++ (run io e cs).log ∧
          ∀ l ∈ lines, l.event.isWrite = false) ∧
        (∀ index, (run io e (cs ++ cs')).obj.held index = false) ∧
        (shutdown (run io e (cs ++ cs'))).1 = .busy) := by
  have hsound : Sound (run io e cs) := spec_runAll (step io) step_sound cs _ (start_sound e)
  refine ⟨hsound.wakeSafe, fun hfault cs' => ?_⟩
  have hstuck : Stuck (run io e cs) (run io e (cs ++ cs')) := by
    unfold run
    rw [runAll_append]
    exact spec_runAll (step io) step_stuck cs' _ ⟨hfault, [], rfl, nofun⟩
  refine ⟨hstuck.1, hstuck.2, held_faulted hstuck.1, ?_⟩
  rw [shutdown_busy hstuck.1]

end Mellow.ForceWake
