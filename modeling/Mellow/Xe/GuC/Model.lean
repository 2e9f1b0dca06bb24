import Mellow.Lib.Prog
import Mellow.Lib.Ring
import Mellow.Xe.Firmware
import Mellow.Xe.GuC.Actions

/-!
# The GuC Transport

`XeGuC::Transport` from `Mellow/XeGuCTransport.cpp`: two rings in memory shared
with the GuC. The host publishes actions in the first, keeps a table of the
replies it waits for, and reads the second.

The GuC runs at the same time: before every access to a ring the environment may
make any number of moves. It takes a unit from the host's ring, changes the
other ring, sets a status, or does something a GuC should not. The rings lie
apart, which `attach` insists on. Reply words past the count of the latest reply
are not kept.

## Main definitions

* `Transport`: the host's object.
* `Link`: the object and both rings.
* `turn`: the moves of the peer.
* `send`: sending an action.
* `receive`: reading a message.
* `run`: any calls.
-/

namespace Mellow.XeGuC

open Lib Function

def maxHxgWords : Nat := 255
def maxPending : Nat := 32
def requiredSubmissionAbi : Nat := 0x011a00

structure Ring where
  descriptor : Nat
  words : Nat
  count : Nat
  deriving DecidableEq, Repr

structure Port where
  head : Nat
  tail : Nat
  status : Nat
  words : Nat → Nat

structure Cookie where
  epoch : Nat
  fence : Nat
  deriving DecidableEq, Repr

def Cookie.zero : Cookie := ⟨0, 0⟩

inductive ReplyState where
  | pending | busy | success | failure | retry | timedOut | sentUnconfirmed
  deriving DecidableEq, Repr

structure Message where
  fence : Nat
  hxg : List Nat
  deriving DecidableEq, Repr

namespace Message

def empty : Message := ⟨0, []⟩

def count (m : Message) : Nat := m.hxg.length

/-- A word of the message, zero beyond its end. -/
def word (m : Message) (i : Nat) : Nat := m.hxg.getD i 0

def kind (m : Message) : Nat := (m.word 0 >>> 28) &&& 7

end Message

structure Reply where
  cookie : Cookie
  state : ReplyState
  hxg : List Nat
  late : Bool
  creditsHeld : Bool
  deriving DecidableEq, Repr

structure Pending extends reply : Reply where
  deadline : Nat
  action : Nat
  context : Nat
  mode : Nat
  reservation : Nat
  used : Bool
  terminalReceived : Bool
  deriving DecidableEq, Repr

def Pending.empty : Pending :=
  { reply := { cookie := Cookie.zero, state := .pending, hxg := [], late := false,
               creditsHeld := false },
    deadline := 0, action := 0, context := 0, mode := 0, reservation := 0, used := false,
    terminalReceived := false }

structure Transport where
  h2g : Ring
  g2h : Ring
  pending : Fin maxPending → Pending
  epoch : Nat
  lastTime : Nat
  hTail : Nat
  gHead : Nat
  credits : Nat
  maxCredits : Nat
  nextFence : Nat
  attached : Bool
  broken : Bool

def Transport.fresh : Transport :=
  { h2g := ⟨0, 0, 0⟩, g2h := ⟨0, 0, 0⟩, pending := fun _ => Pending.empty, epoch := 0,
    lastTime := 0, hTail := 0, gHead := 0, credits := 0, maxCredits := 0, nextFence := 0,
    attached := false, broken := false }

structure Link extends host : Transport where
  hPort : Port
  gPort : Port

/-- One thing the peer may do between two accesses of the host. -/
inductive PeerMove where
  /-- Take the next unit of the host's ring. -/
  | take
  /-- Set the status of the host's ring. -/
  | h2gStatus (status : Nat)
  /-- Change its own ring. -/
  | g2h (f : Port → Port)
  /-- Change the host's ring. -/
  | corrupt (f : Port → Port)

/-- What the platform answers, and what the peer does meanwhile. -/
structure Ops (E : Type) where
  admitted : Nat → E → Bool × E
  authorizeAction : Nat → Action → E → Bool × E
  acquire : E → Bool × E
  release : E → Bool × E
  notify : E → Bool × E
  peer : E → List PeerMove × E

/-- A callback, a unit the peer took, or what the host did. -/
inductive Event where
  | admitted (epoch : Nat) (ok : Bool)
  | authorized (epoch : Nat) (a : Action) (ok : Bool)
  | acquire (ok : Bool)
  | release (ok : Bool)
  | notify (ok : Bool)
  | decoded (m : Message)
  | skipped
  | wrote (index value : Nat)
  | published (tail : Nat) (m : Option Message)
  | issued (slot : Fin maxPending) (cookie : Cookie) (reserve : Nat)
  | replied (slot : Fin maxPending) (m : Message) (result : Status)
  | misread (header available : Nat)
  | refused (m : Message) (result : Status)
  | consumed (head : Nat)
  deriving DecidableEq

/-- A link with its environment and its log. -/
abbrev World (E : Type) := Sys Link E Event

abbrev Log := List (Entry Link Event)

abbrev Op (E α : Type) := Prog Link E Event α

def sub32 (a b : Nat) : Nat := (a + 2 ^ 32 - b) % 2 ^ 32

section Peer

/-- Skip a word of padding, or decode a message that is there in full. -/
def Port.take (count : Nat) (p : Port) : Option (Option Message × Port) :=
  if p.head = p.tail then none
  else if p.words p.head = 0 then some (none, { p with head := (p.head + 1) % count })
  else
    let len := p.words p.head &&& 255
    if len + 1 > distance count p.head p.tail then none
    else some (some ⟨p.words p.head >>> 16,
        (List.range len).map fun i => p.words ((p.head + 1 + i) % count)⟩,
      { p with head := (p.head + 1 + len) % count })

def Port.drain (count : Nat) : Nat → Port → List Message
  | 0, _ => []
  | fuel + 1, p => match p.take count with
    | none => []
    | some (none, p) => p.drain count fuel
    | some (some m, p) => m :: p.drain count fuel

variable {E : Type}

/-- The line of a unit that was taken: a word of padding, or a message. -/
def unitEvent : Option Message → Event
  | none => .skipped
  | some m => .decoded m

/-- The unit the peer takes next, none before the transport is attached. -/
def Link.next (l : Link) : Option (Option Message × Port) :=
  if l.attached = true then l.hPort.take l.h2g.count else none

def peerTake : Op E Unit := do
  let l ← look
  match l.next with
  | none => return ()
  | some (u, p) => do
    note (unitEvent u)
    edit fun l => { l with hPort := p }

def peerMove : PeerMove → Op E Unit
  | .take => peerTake
  | .h2gStatus status => edit fun l => { l with hPort := { l.hPort with status := status } }
  | .g2h f => edit fun l => { l with gPort := f l.gPort }
  | .corrupt f => edit fun l => { l with hPort := f l.hPort }

def peerMoves : List PeerMove → Op E Unit
  | [] => return ()
  | x :: xs => do
    peerMove x
    peerMoves xs

/-- The peer's turn, before the host's next access to a ring. -/
def turn (io : Ops E) : Op E Unit := do
  let xs ← draw io.peer
  peerMoves xs

end Peer

variable {E : Type}

section Access

variable (io : Ops E)

def readPort {α : Type} (f : Link → α) : Op E α := do
  turn io
  return f (← look)

def anyOf (io : Ops E) : List (Link → Bool) → Op E Bool
  | [] => return false
  | f :: fs => do
    let yes ← readPort io f
    if yes then return true
    anyOf io fs

def store (i v : Nat) : Op E Unit := do
  turn io
  note (.wrote i v)
  edit fun l => { l with hPort := { l.hPort with words := update l.hPort.words i v } }

def storeAll (io : Ops E) : Nat → List Nat → Op E Unit
  | _, [] => return ()
  | i, v :: vs => do
    store io i v
    storeAll io (i + 1) vs

def publishTail (tail : Nat) (m : Option Message) : Op E Unit := do
  turn io
  note (.published tail m)
  edit fun l => { l with hTail := tail, hPort := { l.hPort with tail := tail } }

def publishHead (head : Nat) : Op E Unit := do
  turn io
  note (.consumed head)
  edit fun l => { l with gHead := head, gPort := { l.gPort with head := head } }

def readAll (io : Ops E) : List Nat → Op E (List Nat)
  | [] => return []
  | i :: is => do
    let v ← readPort io fun l => l.gPort.words i
    let vs ← readAll io is
    return v :: vs

def askAdmitted (epoch : Nat) : Op E Bool :=
  ask (io.admitted epoch) fun ok => .admitted epoch ok

def askAuthorize (epoch : Nat) (a : Action) : Op E Bool :=
  ask (io.authorizeAction epoch a) fun ok => .authorized epoch a ok

def askAcquire : Op E Bool := ask io.acquire fun ok => .acquire ok
def askRelease (io : Ops E) : Op E Bool := ask io.release fun ok => .release ok
def askNotify (io : Ops E) : Op E Bool := ask io.notify fun ok => .notify ok

def editHost (f : Transport → Transport) : Op E Unit := edit fun l => { l with host := f l.host }

def fault (s : Status) : Op E Status := do
  editHost fun t => { t with broken := true }
  return s

/-- `clock`: whether time went forward. -/
def clock (now : Nat) : Op E Bool := do
  let l ← look
  if now < l.lastTime then return false
  editHost fun t => { t with lastTime := now }
  return true

def checkDescriptors : Op E Status := do
  let l ← look
  if l.attached = false then return .unavailable
  if l.broken = true then return .corrupt
  let admitted ← askAdmitted io l.epoch
  if admitted = false then return ← fault .unavailable
  let acquired ← askAcquire io
  if acquired = false then return ← fault .ioFailure
  let bad ← anyOf io [
    fun l => l.hPort.status ≠ 0, fun l => l.gPort.status ≠ 0, fun l => l.hPort.tail ≠ l.hTail,
    fun l => l.gPort.head ≠ l.gHead, fun l => l.hPort.head ≥ l.h2g.count,
    fun l => l.gPort.tail ≥ l.g2h.count]
  if bad then return ← fault .corrupt
  return .ok

end Access

section Attach

def ringValid (r : Ring) : Prop :=
  r.descriptor ≠ 0 ∧ r.words ≠ 0 ∧ r.descriptor &&& 3 = 0 ∧ r.words &&& 3 = 0 ∧
    1024 ≤ r.count ∧ r.count ≤ 1 <<< 20 ∧ r.count &&& (r.count - 1) = 0
  deriving Decidable

/-- The spans of two rings: start and length of each descriptor and buffer. -/
def spans (h g : Ring) : List (Nat × Nat) :=
  [(h.descriptor, 64), (h.words, h.count * 4), (g.descriptor, 64), (g.words, g.count * 4)]

def spansValid : List (Nat × Nat) → List (Nat × Nat) → Prop
  | _, [] => True
  | seen, (start, bytes) :: rest =>
    bytes ≤ 2 ^ 64 - 1 - start ∧
      (∀ x ∈ seen, ¬ (start < x.1 + x.2 ∧ x.1 < start + bytes)) ∧
      spansValid ((start, bytes) :: seen) rest

instance decidableSpansValid : ∀ seen rest, Decidable (spansValid seen rest)
  | _, [] => isTrue trivial
  | seen, (start, bytes) :: rest =>
    have := decidableSpansValid ((start, bytes) :: seen) rest
    inferInstanceAs (Decidable (_ ∧ _ ∧ _))

def ringsValid (h g : Ring) : Prop := ringValid h ∧ ringValid g ∧ spansValid [] (spans h g)
  deriving Decidable

def abiValid (f : MellowXe.FirmwareInfo) : Prop :=
  f.release.packed = MellowXe.gucRecommendedRelease ∧ f.submission.packed = requiredSubmissionAbi
  deriving Decidable

def Transport.attachedTo (t : Transport) (h g : Ring) (epoch : Nat) : Transport :=
  { t with h2g := h, g2h := g, epoch := epoch, maxCredits := g.count - 1 - g.count / 2,
           credits := g.count - 1 - g.count / 2, attached := true }

/-- `attach`. `complete` says that no callback is null. -/
def attach (io : Ops E) (h g : Ring) (complete : Bool) (epoch : Nat)
    (f : MellowXe.FirmwareInfo) : Op E Status := do
  let l ← look
  if l.attached = true ∨ epoch = 0 ∨ ¬ ringsValid h g ∨ ¬ abiValid f then return .invalid
  if complete = false then return .unavailable
  let admitted ← askAdmitted io epoch
  if admitted = false then return .unavailable
  let acquired ← askAcquire io
  if acquired = false then return .ioFailure
  let bad ← anyOf io [
    fun l => l.hPort.head ≠ 0, fun l => l.hPort.tail ≠ 0, fun l => l.hPort.status ≠ 0,
    fun l => l.gPort.head ≠ 0, fun l => l.gPort.tail ≥ g.count, fun l => l.gPort.status ≠ 0]
  if bad then return .corrupt
  editHost fun t => t.attachedTo h g epoch
  return .ok

end Attach

section Table

namespace Transport

variable (t : Transport)

/-- `find`: the first slot in use with the cookie. -/
def find (c : Cookie) : Option (Fin maxPending) :=
  (List.finRange maxPending).find? fun i =>
    (t.pending i).used = true ∧ (t.pending i).cookie = c

/-- The slot `send` fills in: the last one that is not in use. -/
def unused : Option (Fin maxPending) :=
  ((List.finRange maxPending).filter fun i => (t.pending i).used = false).getLast?

/-- The request waits to be enabled, disabled or deregistered. -/
def Transition (p : Pending) (context : Nat) : Prop :=
  p.used = true ∧ p.creditsHeld = true ∧ p.context = context ∧
    (p.action = 0x1001 ∨ p.action = 0x4503)
  deriving Decidable

/-- Why `send` turned an action away before it looked at the ring. -/
inductive Refusal where
  | overlap | full | credits
  deriving DecidableEq, Repr

/-- The scan of `send`. It compares contexts with the action's second word. -/
def scan (a : Action) : Except Refusal (Fin maxPending) :=
  if ¬ a.Request ∧ ∃ i, Transition (t.pending i) (a.words 1) then .error .overlap
  else match t.unused with
    | none => .error .full
    | some slot => if a.reserve ≠ 0 ∧ t.credits ≤ a.reserve then .error .credits else .ok slot

def nextCookie (a : Action) : Cookie :=
  ⟨t.epoch, (t.nextFence ||| (if a.Request then 0 else 0x8000)) % 2 ^ 16⟩

def filled (a : Action) (deadline : Nat) : Pending :=
  { reply := { cookie := t.nextCookie a,
               state := if a.reserve ≠ 0 then .pending else .sentUnconfirmed,
               hxg := [], late := false, creditsHeld := decide (a.reserve ≠ 0) },
    deadline := deadline, action := a.words 0, context := a.words 1, mode := a.words 2,
    reservation := a.reserve, used := true, terminalReceived := false }

def issue (slot : Fin maxPending) (a : Action) (deadline : Nat) : Transport :=
  { t with pending := update t.pending slot (t.filled a deadline),
           nextFence := t.nextFence + 1, credits := t.credits - a.reserve }

def Overdue (now : Nat) (p : Pending) : Prop :=
  p.used = true ∧ p.creditsHeld = true ∧ now ≥ p.deadline ∧ p.state ≠ .timedOut
  deriving Decidable

def expired (now : Nat) : Transport :=
  { t with pending := fun i =>
      if Overdue now (t.pending i) then
        { t.pending i with state := .timedOut }
      else t.pending i }

end Transport

end Table

section Dispatch

/-- The action an event answers: a mode change or a deregistration. -/
def answeredBy (action : Nat) : Nat := if action = 0x1002 then 0x1001 else 0x4503

def eventCount (action : Nat) : Nat := if action = 0x1002 then 3 else 2

variable (t : Transport)

def Transport.awaiting (context action : Nat) : Option (Fin maxPending) :=
  ((List.finRange maxPending).filter fun i =>
    (t.pending i).used = true ∧ (t.pending i).creditsHeld = true ∧
      (t.pending i).context = context ∧ (t.pending i).action = action).getLast?

/-- The first part of `dispatch`, for an event. -/
def Transport.routeEvent (m : Message) : Except Status (Option (Fin maxPending)) :=
  let action := m.word 0 &&& 0xffff
  if action ≠ 0x1002 ∧ action ≠ 0x4600 then .ok none
  else if m.word 0 &&& 0x0fff0000 ≠ 0 ∨ m.count ≠ eventCount action ∨
      ¬ idValid (m.word 1) then .error .corrupt
  else match t.awaiting (m.word 1) (answeredBy action) with
    | none => .error .corrupt
    | some i =>
      if action = 0x1002 ∧ m.word 2 ≠ (t.pending i).mode then .error .corrupt else .ok (some i)

/-- The first part of `dispatch`, for a response: the slot with its fence. -/
def Transport.routeResponse (m : Message) : Except Status (Option (Fin maxPending)) :=
  if m.kind ≠ 3 ∧ m.kind ≠ 5 ∧ m.kind ≠ 6 ∧ m.kind ≠ 7 then .error .corrupt
  else if m.kind ≠ 7 ∧ m.count ≠ 1 then .error .corrupt
  else match t.find ⟨t.epoch, m.fence⟩ with
    | none => .error .unknownCookie
    | some i =>
      if m.fence &&& 0x8000 ≠ 0 ∧ m.kind ≠ 6 then .error .corrupt
      else if m.fence &&& 0x8000 = 0 ∧ (t.pending i).creditsHeld = false then
        .error .corrupt
      else .ok (some i)

/-- The first part of `dispatch`: which slot the message is for. -/
def Transport.route (m : Message) : Except Status (Option (Fin maxPending)) :=
  if m.word 0 &&& 0x80000000 = 0 then .error .corrupt
  else if m.kind = 1 then t.routeEvent m
  else t.routeResponse m

def finalState (kind : Nat) : ReplyState :=
  if kind = 6 then .failure else if kind = 5 then .retry else .success

def Pending.busied (p : Pending) (m : Message) : Pending :=
  { p with hxg := m.hxg, state := if p.state = .timedOut then .timedOut else .busy }

def Pending.concluded (p : Pending) (m : Message) : Pending :=
  { p with
    hxg := m.hxg
    creditsHeld := false
    late := if p.state = .timedOut then true else p.late
    state := if p.state = .timedOut then .timedOut else finalState m.kind
    terminalReceived := true }

/-- The second part of `dispatch`: record the reply in its slot. -/
def Transport.settle (i : Fin maxPending) (m : Message) : Status × Transport :=
  let p := t.pending i
  if p.terminalReceived = true then (.corrupt, { t with broken := true })
  else if m.kind = 3 then
    (.ok, { t with pending := update t.pending i (p.busied m) })
  else if p.creditsHeld = true ∧ p.reservation > t.maxCredits - t.credits then
    (.corrupt, { t with
      broken := true
      pending := update t.pending i { p with hxg := m.hxg } })
  else
    (.ok, { t with
      credits := if p.creditsHeld = true then t.credits + p.reservation else t.credits
      pending := update t.pending i (p.concluded m) })

def dispatch (m : Message) : Op E Status := do
  let l ← look
  match l.route m with
  | .error s => do
    note (.refused m s)
    fault s
  | .ok none => return .ok
  | .ok (some i) => do
    note (.replied i m (l.settle i m).1)
    editHost fun t => (t.settle i m).2
    return (l.settle i m).1

end Dispatch

section Operations

/-- The words of an action as they go out. -/
def Action.hxg (a : Action) : List Nat :=
  match a.payload with
  | [] => []
  | w :: ws => (w ||| (if a.Request then 0 else 0x20000000)) :: ws

def ctHeader (m : Message) : Nat := (m.fence <<< 16) ||| m.count

def Message.wire (m : Message) : List Nat := ctHeader m :: m.hxg

variable (io : Ops E)

def announce : Op E Bool := askRelease io <&&> askNotify io

/-- Fill a slot in, and give out its cookie. -/
def fillSlot (slot : Fin maxPending) (a : Action) (deadline : Nat) : Op E Cookie := do
  let l ← look
  note (.issued slot (l.nextCookie a) a.reserve)
  editHost fun t => t.issue slot a deadline
  return l.nextCookie a

def place (a : Action) (deadline : Nat) (slot : Fin maxPending) :
    Op E (Status × Cookie) := do
  let cookie ← fillSlot slot a deadline
  let l ← look
  storeAll io l.hTail (Message.wire ⟨cookie.fence, a.hxg⟩)
  let ordered ← askRelease io
  if ordered = false then return (← fault .publishedUnknown, cookie)
  publishTail io ((l.hTail + (a.count + 1)) &&& (l.h2g.count - 1))
    (some ⟨cookie.fence, a.hxg⟩)
  let announced ← announce io
  if announced = false then return (← fault .publishedUnknown, cookie)
  return (.ok, cookie)

/-- The middle part of `send`: fill the end of the ring with padding. -/
def pad : Op E Bool := do
  let l ← look
  storeAll io l.hTail (List.replicate (l.h2g.count - l.hTail) 0)
  let ordered ← askRelease io
  if ordered = false then
    let _ ← fault .ioFailure
    return false
  publishTail io 0 none
  let announced ← announce io
  if announced = false then
    let _ ← fault .ioFailure
    return false
  return true

def sendAt (a : Action) (deadline : Nat) (slot : Fin maxPending) :
    Op E (Status × Cookie) := do
  let head ← readPort io fun l => l.hPort.head
  let l ← look
  let space := sub32 (sub32 head l.hTail) 1 &&& (l.h2g.count - 1)
  if space < a.count + 1 then return (.busy, Cookie.zero)
  if l.hTail + (a.count + 1) > l.h2g.count then
    let padded ← pad io
    if padded = false then return (.ioFailure, Cookie.zero)
    if space - (l.h2g.count - l.hTail) < a.count + 1 then return (.busy, Cookie.zero)
    place io a deadline slot
  else place io a deadline slot

def send (a : Action) (now deadline : Nat) : Op E (Status × Cookie) := do
  if validateAction a ≠ .ok ∨ deadline ≤ now then return (.invalid, Cookie.zero)
  let forward ← clock now
  if forward = false then return (.invalid, Cookie.zero)
  let s ← checkDescriptors io
  if s ≠ .ok then return (s, Cookie.zero)
  let l ← look
  let authorized ← askAuthorize io l.epoch a
  if authorized = false then return (.unavailable, Cookie.zero)
  if l.nextFence ≥ 0x8000 then return (.exhausted, Cookie.zero)
  match l.scan a with
  | .error _ => return (.busy, Cookie.zero)
  | .ok slot => sendAt io a deadline slot

def expire (now : Nat) : Op E Status := do
  let forward ← clock now
  if forward = false then return .invalid
  editHost fun t => t.expired now
  return .ok

/-- The last part of `receive`: settle the message, then move the head. -/
def finish (m : Message) : Op E (Status × Message) := do
  let s ← dispatch m
  if s ≠ .ok then return (s, m)
  let ordered ← askRelease io
  if ordered = false then return (← fault .ioFailure, m)
  let l ← look
  publishHead io ((l.gHead + 1 + m.count) &&& (l.g2h.count - 1))
  let ordered ← askRelease io
  if ordered = false then return (← fault .ioFailure, m)
  return (.ok, m)

/-- The header of a message that cannot be one, or is not there in full. -/
def HeaderBad (header available : Nat) : Prop :=
  header &&& 0xff00 ≠ 0 ∨ header &&& 255 = 0 ∨ (header &&& 255) + 1 > available
  deriving Decidable

def misread (header available : Nat) : Op E (Status × Message) := do
  note (.misread header available)
  return (← fault .corrupt, Message.empty)

def readMessage (available : Nat) : Op E (Status × Message) := do
  let l ← look
  let header ← readPort io fun l => l.gPort.words l.gHead
  if HeaderBad header available then return ← misread header available
  let hxg ← readAll io ((List.range (header &&& 255)).map fun i =>
    (l.gHead + 1 + i) &&& (l.g2h.count - 1))
  finish io ⟨(header >>> 16) % 2 ^ 16, hxg⟩

def receive (epoch now : Nat) : Op E (Status × Message) := do
  let l ← look
  if epoch ≠ l.epoch then return (.staleEpoch, Message.empty)
  let s ← expire now
  if s ≠ .ok then return (.invalid, Message.empty)
  let s ← checkDescriptors io
  if s ≠ .ok then return (s, Message.empty)
  let tail ← readPort io fun l => l.gPort.tail
  let acquired ← askAcquire io
  if acquired = false then return (← fault .ioFailure, Message.empty)
  let l ← look
  let available := sub32 tail l.gHead &&& (l.g2h.count - 1)
  if available = 0 then return (.empty, Message.empty)
  readMessage io available

def retire (c : Cookie) : Op E Status := do
  let l ← look
  if c.epoch ≠ l.epoch then return .staleEpoch
  match l.find c with
  | none => return .unknownCookie
  | some i => do
    if (l.pending i).creditsHeld = true then return .busy
    editHost fun t => { t with pending := update t.pending i Pending.empty }
    return .ok

end Operations

section Calls

inductive Call where
  | attach (h g : Ring) (complete : Bool) (epoch : Nat) (f : MellowXe.FirmwareInfo)
  | send (a : Action) (now deadline : Nat)
  | receive (epoch now : Nat)
  | expire (now : Nat)
  | retire (c : Cookie)
  deriving DecidableEq

inductive Answer where
  | status (s : Status)
  | sent (s : Status) (c : Cookie)
  | received (s : Status) (m : Message)
  deriving DecidableEq, Repr

def step (io : Ops E) : Call → Op E Answer
  | .attach h g complete epoch f => do return .status (← attach io h g complete epoch f)
  | .send a now deadline => do
    let r ← send io a now deadline
    return .sent r.1 r.2
  | .receive epoch now => do
    let r ← receive io epoch now
    return .received r.1 r.2
  | .expire now => do return .status (← expire now)
  | .retire c => do return .status (← retire c)

def start (h g : Port) (env : E) : World E :=
  { obj := { host := Transport.fresh, hPort := h, gPort := g }, env := env, log := [] }

def run (io : Ops E) (calls : List Call) (s : World E) : List Answer × World E :=
  runAll (step io) calls s

end Calls

end Mellow.XeGuC
