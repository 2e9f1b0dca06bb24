import Mathlib.Data.List.FinRange
import Mathlib.Tactic.Ring
import Mellow.Lib.Prog
import Mellow.Xe.Firmware

/-!
# The Submission Queue

`MellowXe::SubmissionQueue` from `Mellow/XeSubmission.cpp` gives each batch a
fence token, retains the memory it names for as long as the hardware may touch
it, and decides from observations which batches are over. Nothing is assumed of
the backend's answers, and the clock may go backwards.

Bounded arrays with their counts are lists, and the empty list stands for a null
pointer too. Two lines of the log are not callbacks: `handed`, when the caller's
token is written, and `completed`, when a job completes.

## Main definitions

* `Queue`: the fields of the class.
* `SubmissionBackend`: the callbacks.
* `submit`: sending a batch.
* `run`: any calls.
-/

namespace Mellow.MellowXe

open Lib

inductive SubmitError where
  | none | unsupportedBackend | notReady | invalidArgument | invalidCommand
  | ownership | invalidMapping | resourceBusy | capacity | rejected
  | acceptanceUnknown | staleGeneration | invalidObservation | quiesceFailed
  | sequenceExhausted | clockRegression
  deriving DecidableEq, Repr

inductive JobState where
  | free | submitted | acceptanceUnknown | completed | timedOut | reset
  deriving DecidableEq, Repr

inductive QueueState where
  | inactive | ready | needsReset
  deriving DecidableEq, Repr

inductive BackendAcceptance where
  | accepted | rejected | unknown
  deriving DecidableEq, Repr

def maxJobs : Nat := 32
def maxResources : Nat := 8
def maxBatchWords : Nat := 64
def miNoop : Nat := 0x00000000
def miBatchBufferEnd : Nat := 0x05000000

/-- A bootstrap batch is a run of no-ops and one end marker, the last word. -/
def bootstrapWords : List Nat → SubmitError
  | [] => .invalidCommand
  | w :: rest =>
    if w = miBatchBufferEnd then (if rest = [] then .none else .invalidCommand)
    else if w ≠ miNoop then .invalidCommand
    else bootstrapWords rest

def validateBootstrapBatch (words : List Nat) : SubmitError :=
  if words = [] ∨ words.length > maxBatchWords then .invalidArgument else bootstrapWords words

structure Resource where
  id : Nat
  owner : Nat
  mappingGeneration : Nat
  gpuAddress : Nat
  bytes : Nat
  gpuReadable : Bool
  pinned : Bool
  deriving DecidableEq, Repr

structure FenceToken where
  generation : Nat
  sequence : Nat
  deriving DecidableEq, Repr

structure BatchSnapshot where
  fence : FenceToken
  owner : Nat
  context : Nat
  deadline : Nat
  engine : Nat
  words : List Nat
  resources : List Resource
  deriving DecidableEq, Repr

def requiredReadyBits : Nat := (1 <<< 8) - 1

structure Readiness where
  generation : Nat
  owner : Nat
  context : Nat
  engine : Nat
  flags : Nat
  deriving DecidableEq, Repr

structure FenceObservation where
  generation : Nat
  owner : Nat
  context : Nat
  engine : Nat
  completedSequence : Nat
  valid : Bool
  acquireOrdered : Bool
  deriving DecidableEq, Repr

/-- The context a callback is made for: generation, owner, context, engine. -/
structure Target where
  generation : Nat
  owner : Nat
  context : Nat
  engine : Nat
  deriving DecidableEq, Repr

structure SubmissionBackend (E : Type) where
  readiness : FirmwareInfo → Target → E → (SubmitError × Readiness) × E
  retain : Resource → E → Bool × E
  release : Resource → E → E
  submit : BatchSnapshot → E → BackendAcceptance × E
  readFence : Target → E → (SubmitError × FenceObservation) × E
  quiesce : Target → E → Bool × E

/-- A callback, a token handed to the caller, or a completion. -/
inductive Event where
  | readiness (firmware : FirmwareInfo) (target : Target) (result : SubmitError) (ready : Readiness)
  | retain (r : Resource) (ok : Bool)
  | release (r : Resource)
  | submit (batch : BatchSnapshot) (answer : BackendAcceptance)
  | readFence (target : Target) (result : SubmitError) (observation : FenceObservation)
  | quiesce (target : Target) (ok : Bool)
  | handed (token : FenceToken)
  | completed (job : Fin maxJobs)
  deriving DecidableEq, Repr

structure Job extends batch : BatchSnapshot where
  state : JobState
  held : Bool
  deriving DecidableEq, Repr

def Job.empty : Job :=
  { batch := { fence := ⟨0, 0⟩, owner := 0, context := 0, deadline := 0, engine := 0, words := [],
               resources := [] },
    state := .free, held := false }

structure Queue where
  jobs : Fin maxJobs → Job
  owner : Nat
  context : Nat
  engine : Nat
  generation : Nat
  lastTime : Nat
  nextSequence : Nat
  lastSubmitted : Nat
  lastObserved : Nat
  exhausted : Bool
  state : QueueState
  /-- `completeBackend`: no callback is null. -/
  complete : Bool

namespace Queue

def fresh (owner context engine : Nat) (complete : Bool) : Queue :=
  { jobs := fun _ => Job.empty, owner := owner, context := context, engine := engine,
    generation := 1, lastTime := 0, nextSequence := 1, lastSubmitted := 0, lastObserved := 0,
    exhausted := false, state := .inactive, complete := complete }

variable (q : Queue)

def target : Target := ⟨q.generation, q.owner, q.context, q.engine⟩

def setJob (i : Fin maxJobs) (job : Job) : Queue :=
  { q with jobs := Function.update q.jobs i job }

def find (token : FenceToken) : Option (Fin maxJobs) :=
  (List.finRange maxJobs).find? fun i =>
    (q.jobs i).state ≠ .free ∧ (q.jobs i).fence = token

/-- The job `submit` fills in: the first free one. -/
def freeJob : Option (Fin maxJobs) :=
  (List.finRange maxJobs).find? fun i => (q.jobs i).state = .free

def snapshot (words : List Nat) (resources : List Resource) (deadline : Nat) : BatchSnapshot :=
  { fence := ⟨q.generation, q.nextSequence⟩, owner := q.owner, context := q.context,
    deadline := deadline, engine := q.engine, words := words, resources := resources }

def Overdue (now : Nat) (job : Job) : Prop := job.state = .submitted ∧ now ≥ job.deadline
  deriving Decidable

def expired (now : Nat) : Queue :=
  { q with
    jobs := fun i => if Overdue now (q.jobs i) then { q.jobs i with state := .timedOut }
                     else q.jobs i
    state := if ∃ i, Overdue now (q.jobs i) then .needsReset else q.state }

def advanced : Queue :=
  { q with lastSubmitted := q.nextSequence,
           exhausted := if q.nextSequence = 0xFFFFFFFF then true else q.exhausted,
           nextSequence := if q.nextSequence = 0xFFFFFFFF then q.nextSequence
                           else q.nextSequence + 1 }

/-- The observation that `onInterrupt` accepts. -/
def Accepts (o : FenceObservation) : Prop :=
  o.valid = true ∧ o.acquireOrdered = true ∧ o.generation = q.generation ∧ o.owner = q.owner ∧
    o.context = q.context ∧ o.engine = q.engine ∧ q.lastObserved ≤ o.completedSequence ∧
    o.completedSequence ≤ q.lastSubmitted
  deriving Decidable

def restarted : Queue :=
  { q with generation := q.generation + 1, nextSequence := 1, lastSubmitted := 0,
           lastObserved := 0, exhausted := false, state := .inactive }

end Queue

/-- The resource names something of this owner. -/
def Resource.Owned (r : Resource) (owner : Nat) : Prop := r.id ≠ 0 ∧ r.owner = owner
  deriving Decidable

/-- The resource is a pinned, readable mapping inside the 48-bit space. -/
def Resource.Mapped (r : Resource) : Prop :=
  r.mappingGeneration ≠ 0 ∧ r.bytes ≠ 0 ∧ r.pinned = true ∧ r.gpuReadable = true ∧
    r.gpuAddress &&& 3 = 0 ∧ r.gpuAddress < 1 <<< 48 ∧ r.bytes ≤ (1 <<< 48) - r.gpuAddress
  deriving Decidable

/-- The resource loop of `submit`, with the resources already passed. -/
def checkResources (owner : Nat) : List Resource → List Resource → SubmitError
  | _, [] => .none
  | seen, r :: rest =>
    if ¬ r.Owned owner then .ownership
    else if ¬ r.Mapped then .invalidMapping
    else if ∃ p ∈ seen, p.id = r.id then .invalidArgument
    else checkResources owner (r :: seen) rest

/-- A queue with its environment and its log. -/
abbrev World (E : Type) := Sys Queue E Event

abbrev Log := List (Entry Queue Event)

abbrev Op (E α : Type) := Prog Queue E Event α

variable {E : Type}

section Callbacks

def setJob (i : Fin maxJobs) (f : Job → Job) : Op E Unit :=
  edit fun q => q.setJob i (f (q.jobs i))

variable (io : SubmissionBackend E)

def askRetain (r : Resource) : Op E Bool :=
  ask (io.retain r) fun ok => .retain r ok

def askRelease (r : Resource) : Op E Unit :=
  ask (fun e => ((), io.release r e)) fun _ => .release r

/-- Retain one after another until one is refused, latest first. -/
def retainEach (io : SubmissionBackend E) :
    List Resource → List Resource → Op E (Bool × List Resource)
  | got, [] => return (true, got)
  | got, r :: rest => do
    if ← askRetain io r then retainEach io (r :: got) rest else return (false, got)

def releaseEach (io : SubmissionBackend E) : List Resource → Op E Unit
  | [] => return ()
  | r :: rest => do
    askRelease io r
    releaseEach io rest

def releaseJob (i : Fin maxJobs) : Op E Unit := do
  let job := (← look).jobs i
  if job.held then
    releaseEach io job.resources.reverse
    setJob i fun job => { job with held := false }

end Callbacks

section Operations

def tick (now : Nat) : Op E Bool := do
  if now < (← look).lastTime then return false
  edit fun q => { q with lastTime := now }
  return true

def FirmwareInfo.Usable (f : FirmwareInfo) : Prop :=
  f.release.major = 70 ∧ gucMinimumRelease ≤ f.release.packed ∧ f.ucodeBytes ≠ 0 ∧ f.rsaBytes ≠ 0
  deriving Decidable

/-- The readiness report is for this context and misses nothing. -/
def Readiness.Full (r : Readiness) (target : Target) : Prop :=
  r.generation = target.generation ∧ r.owner = target.owner ∧ r.context = target.context ∧
    r.engine = target.engine ∧ r.flags &&& requiredReadyBits = requiredReadyBits
  deriving Decidable

variable (io : SubmissionBackend E)

def activate (firmware : FirmwareInfo) : Op E SubmitError := do
  let q ← look
  if !q.complete then return .unsupportedBackend
  if q.owner = 0 ∨ q.context = 0 ∨ q.state ≠ .inactive then return .notReady
  if ¬ firmware.Usable then return .invalidArgument
  let (error, ready) ← ask (io.readiness firmware q.target)
    fun r => .readiness firmware q.target r.1 r.2
  if error ≠ .none then return error
  if ¬ ready.Full q.target then return .notReady
  edit fun q => { q with state := .ready }
  return .none

variable (i : Fin maxJobs)

/-- What `submit` makes of the backend's answer. -/
def conclude (token : FenceToken) :
    BackendAcceptance → Op E SubmitError
  | .rejected => do
    releaseJob io i
    setJob i fun _ => Job.empty
    return .rejected
  | .accepted => do
    note (.handed token)
    edit Queue.advanced
    setJob i fun job => { job with state := .submitted }
    return .none
  | .unknown => do
    note (.handed token)
    edit Queue.advanced
    setJob i fun job => { job with state := .acceptanceUnknown }
    edit fun q => { q with state := .needsReset }
    return .acceptanceUnknown

def publish (batch : BatchSnapshot) :
    Op E SubmitError := do
  setJob i fun job => { job with held := true }
  let answer ← ask (io.submit batch) fun a => .submit batch a
  conclude io i batch.fence answer

/-- The part of `submit` that retains the resources. -/
def hold (batch : BatchSnapshot) :
    Op E SubmitError := do
  let (all, got) ← retainEach io [] batch.resources
  if all then publish io i batch
  else
    releaseEach io got
    setJob i fun _ => Job.empty
    return .resourceBusy

def place (batch : BatchSnapshot) :
    Op E SubmitError := do
  -- The caller's bytes are frozen before they are looked at.
  setJob i fun _ => { Job.empty with batch := batch }
  if validateBootstrapBatch batch.words ≠ .none then return validateBootstrapBatch batch.words
  if checkResources batch.owner [] batch.resources ≠ .none then
    return checkResources batch.owner [] batch.resources
  hold io i batch

/-- `submit`. The token goes to the caller where the log says `handed`. -/
def submit (words : List Nat) (resources : List Resource) (now deadline : Nat) :
    Op E SubmitError := do
  let q ← look
  if !q.complete then return .unsupportedBackend
  if q.state ≠ .ready then return .notReady
  if !(← tick now) then return .clockRegression
  if deadline ≤ now ∨ resources = [] ∨ resources.length > maxResources then
    return .invalidArgument
  if words = [] ∨ words.length > maxBatchWords then return .invalidArgument
  let q ← look
  if q.exhausted then return .sequenceExhausted
  match q.freeJob with
  | none => return .capacity
  | some i => place io i (q.snapshot words resources deadline)

def expire (now : Nat) : Op E SubmitError := do
  if !(← tick now) then return .clockRegression
  edit fun q => q.expired now
  return .none

def Queue.Covers (q : Queue) (job : Job) : Prop :=
  job.fence.generation = q.generation ∧ job.fence.sequence ≤ q.lastObserved
  deriving Decidable

/-- What `onInterrupt` does with one job. -/
def settleJob : Op E Unit := do
  let q ← look
  if ¬ q.Covers (q.jobs i) then return ()
  if (q.jobs i).state = .submitted then
    note (.completed i)
    setJob i fun job => { job with state := .completed }
    releaseJob io i
  else if (q.jobs i).state = .timedOut ∨ (q.jobs i).state = .acceptanceUnknown then
    releaseJob io i
  else return ()

def settleJobs (io : SubmissionBackend E) : List (Fin maxJobs) → Op E Unit
  | [] => return ()
  | i :: rest => do
    settleJob io i
    settleJobs io rest

def onInterrupt (irqGeneration now : Nat) : Op E SubmitError := do
  let q ← look
  if irqGeneration ≠ q.generation then return .staleGeneration
  if !q.complete then return .unsupportedBackend
  if q.state = .inactive then return .notReady
  let e ← expire now
  if e ≠ .none then return e
  let q ← look
  let (e, observation) ← ask (io.readFence q.target) fun r => .readFence q.target r.1 r.2
  if e ≠ .none then return e
  if ¬ q.Accepts observation then return .invalidObservation
  edit fun q => { q with lastObserved := observation.completedSequence }
  settleJobs io (List.finRange maxJobs)
  return .none

def Job.interrupted (job : Job) : Job :=
  if job.state = .submitted ∨ job.state = .acceptanceUnknown then { job with state := .reset }
  else job

def resetJobs (io : SubmissionBackend E) : List (Fin maxJobs) → Op E Unit
  | [] => return ()
  | i :: rest => do
    setJob i Job.interrupted
    releaseJob io i
    resetJobs io rest

def reset (now : Nat) : Op E SubmitError := do
  if !(← look).complete then return .unsupportedBackend
  if !(← tick now) then return .clockRegression
  edit fun q => { q with state := .needsReset }
  let q ← look
  if q.generation = 2 ^ 64 - 1 then return .sequenceExhausted
  if !(← ask (io.quiesce q.target) fun ok => .quiesce q.target ok) then return .quiesceFailed
  resetJobs io (List.finRange maxJobs)
  edit Queue.restarted
  return .none

def retire (token : FenceToken) : Op E SubmitError := do
  let q ← look
  match q.find token with
  | none => return .staleGeneration
  | some i =>
    if (q.jobs i).held ∨ (q.jobs i).state = .submitted then return .resourceBusy
    setJob i fun _ => Job.empty
    return .none

end Operations

section Calls

inductive Call where
  | activate (firmware : FirmwareInfo)
  | submit (words : List Nat) (resources : List Resource) (now deadline : Nat)
  | expire (now : Nat)
  | onInterrupt (irqGeneration now : Nat)
  | reset (now : Nat)
  | retire (token : FenceToken)
  deriving DecidableEq, Repr

def step (io : SubmissionBackend E) : Call → Op E SubmitError
  | .activate firmware => activate io firmware
  | .submit words resources now deadline => submit io words resources now deadline
  | .expire now => expire now
  | .onInterrupt irqGeneration now => onInterrupt io irqGeneration now
  | .reset now => reset io now
  | .retire token => retire token

def start (owner context engine : Nat) (complete : Bool) (env : E) : World E :=
  { obj := Queue.fresh owner context engine complete, env := env, log := [] }

def run (io : SubmissionBackend E) (calls : List Call) (s : World E) :
    World E :=
  (runAll (step io) calls s).2

end Calls

end Mellow.MellowXe
