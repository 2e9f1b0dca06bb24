import Mathlib.Data.List.FinRange
import Mellow.Lib.Prog
import Mellow.Xe.Encoding

/-!
# The GGTT Manager

`XeGgtt::Manager` from `Mellow/XeGgtt.cpp`: it hands out slots of address space,
publishes pinned memory into them by writing page table entries, and takes the
entries down before the memory may be released.

One function answers every `Query`, so a run is quantified over it. The hardware
table is beside the manager: only the manager's writes change it, and whether
one takes effect is an answer of its own. A `Backing` names its array of DMA
addresses by pointer, whose contents are fixed while it is retained. Addresses
stay below `2 ^ 32`, and `serial` wraps explicitly.

## Main definitions

* `Manager`: the fields of the class.
* `Backend`: the callbacks.
* `publish`: writing the entries of a slot.
* `retire`: taking them down.
* `run`: any calls.
-/

namespace Mellow.Ggtt

open Lib

inductive Status where
  | ok | invalid | wrongOwner | wrongEpoch | notFound | noSpace
  | busy | unavailable | io | quarantined
  deriving DecidableEq, Repr

inductive State where
  | free | reserved | published | quarantined
  deriving DecidableEq, Repr

structure Range where
  address : Nat
  bytes : Nat
  deriving DecidableEq, Repr

structure Handle where
  slot : Nat
  generation : Nat
  deriving DecidableEq, Repr

/-- Pinned memory offered for publication. -/
structure Backing where
  cookie : Nat
  cpu : Nat
  dmaPages : Nat
  pageCount : Nat
  identity : Nat
  deriving DecidableEq, Repr

def maxRanges : Nat := 32
def maxMappings : Nat := 64
def maxPages : Nat := 16384

inductive Query where
  | admitted (epoch : Nat)
  | acquireSpace (epoch : Nat) (ranges : List Range)
  | releaseSpace (epoch : Nat)
  | retainBacking (owner epoch : Nat) (b : Backing)
  | ownsBacking (owner epoch : Nat) (b : Backing)
  | releaseBacking (owner epoch : Nat) (b : Backing)
  | patReady (epoch pat : Nat)
  | readPte (epoch address : Nat)
  | writePte (epoch address pte : Nat)
  | invalidate (epoch : Nat)
  | retired (owner epoch : Nat) (h : Handle)
  deriving DecidableEq, Repr

/-- Answers, whether a write lands, and the DMA page arrays. -/
structure Backend (E : Type) where
  answer : Query → E → Bool × E
  lands : Nat → Nat → E → Bool
  dma : Nat → Nat → Nat

structure Mapping where
  state : State
  owner : Nat
  epoch : Nat
  generation : Nat
  range : Range
  backing : Backing
  pat : Nat
  users : Nat
  deriving DecidableEq, Repr

structure Slot extends m : Mapping where
  held : Bool
  touched : Bool
  cleared : Bool
  deriving DecidableEq, Repr

def Slot.empty : Slot :=
  { m := { state := .free, owner := 0, epoch := 0, generation := 0, range := ⟨0, 0⟩,
           backing := ⟨0, 0, 0, 0, 0⟩, pat := 0, users := 0 },
    held := false, touched := false, cleared := false }

structure Manager where
  slots : Fin maxMappings → Slot
  ranges : List Range
  epoch : Nat
  serial : Nat
  started : Bool
  closed : Bool

def Manager.fresh : Manager :=
  { slots := fun _ => Slot.empty, ranges := [], epoch := 0, serial := 1,
    started := false, closed := false }

structure Hw extends mgr : Manager where
  pte : Nat → Nat

/-- A callback with its answer, or a slot handed back (`s={}`). -/
inductive Event where
  | call (q : Query) (answer : Bool)
  | freed (slot : Fin maxMappings)
  deriving DecidableEq, Repr

/-- A table with its environment and its log. -/
abbrev World (E : Type) := Sys Hw E Event

abbrev Log := List (Entry Hw Event)

abbrev Op (E α : Type) := Prog Hw E Event α

section Ranges

def Range.Valid (r : Range) : Prop :=
  r.bytes ≠ 0 ∧ r.address % pageSize = 0 ∧ r.bytes % pageSize = 0 ∧
    r.bytes ≤ 1 <<< 32 ∧ r.address ≤ (1 <<< 32) - r.bytes
  deriving Decidable

def Range.Overlap (a b : Range) : Prop :=
  a.address < b.address + b.bytes ∧ b.address < a.address + a.bytes
  deriving Decidable

/-- The containment test of `fits`. -/
def Range.Within (r outer : Range) : Prop :=
  r.address ≥ outer.address ∧ r.address + r.bytes ≤ outer.address + outer.bytes
  deriving Decidable

/-- `fits`: valid, not too long, granted and clear of every slot in use. -/
def Manager.Fits (m : Manager) (r : Range) : Prop :=
  r.Valid ∧ r.bytes / pageSize ≤ maxPages ∧ (∃ g ∈ m.ranges, r.Within g) ∧
    ∀ i, (m.slots i).state ≠ .free → ¬ r.Overlap (m.slots i).range
  deriving Decidable

def Slot.entry (s : Slot) (page : Nat) : Nat := s.range.address + page * pageSize

end Ranges

section Updates

def Manager.setSlot (m : Manager) (i : Fin maxMappings) (s : Slot) : Manager :=
  { m with slots := Function.update m.slots i s }

def Hw.setSlot (hw : Hw) (i : Fin maxMappings) (s : Slot) : Hw :=
  { hw with mgr := hw.mgr.setSlot i s }

def Slot.withState (s : Slot) (state : State) : Slot := { s with state := state }

def Slot.withUsers (s : Slot) (users : Nat) : Slot := { s with users := users }

def Slot.hold (s : Slot) (b : Backing) (pat : Nat) : Slot :=
  { s with backing := b, pat := pat, held := true }

/-- The table after a write that may or may not have landed. -/
def Hw.store (hw : Hw) (landed : Bool) (address pte : Nat) : Hw :=
  if landed then { hw with pte := Function.update hw.pte address pte } else hw

end Updates

variable {E : Type}

section Callbacks

def consult (io : Backend E) (q : Query) : Op E Bool := ask (io.answer q) (fun a => .call q a)

def mgr : Op E Manager := do return (← look).mgr

def slot (i : Fin maxMappings) : Op E Slot := do return (← look).mgr.slots i

def setSlot (i : Fin maxMappings) (f : Slot → Slot) : Op E Unit :=
  edit fun hw => hw.setSlot i (f (hw.slots i))

/-- The system after a write that may have landed. -/
def stored (s : World E) (landed ok : Bool) (address pte : Nat) (env : E) :
    World E :=
  (s.heard (.call (.writePte s.obj.epoch address pte) ok) env).put
    (s.obj.store landed address pte)

/-- Write an entry. It may land, whatever the callback reports. -/
def writePte (io : Backend E) (address pte : Nat) : Op E Bool := fun s =>
  let r := io.answer (.writePte s.obj.epoch address pte) s.env
  (r.1, stored s (io.lands address pte s.env) r.1 address pte r.2)

def live (io : Backend E) : Op E Bool := do
  let m ← mgr
  if m.started && !m.closed then consult io (.admitted m.epoch) else return false

def read (io : Backend E) (address : Nat) : Op E (Option Nat) := do
  let ok ← live io <&&> (do consult io (.readPte (← mgr).epoch address))
  if ok then return some ((← look).pte address) else return none

end Callbacks

section Lookup

/-- `get`: resolve a handle to its slot. -/
def Manager.get (m : Manager) (owner epoch : Nat) (h : Handle) :
    Except Status (Fin maxMappings) :=
  if !m.started || m.closed then .error .unavailable
  else if epoch ≠ m.epoch then .error .wrongEpoch
  else if hs : h.slot < maxMappings then
    if h.generation = 0 then .error .notFound
    else
      let s := (m.slots ⟨h.slot, hs⟩).m
      if s.state = .free ∨ s.generation ≠ h.generation then .error .notFound
      else if owner = 0 ∨ s.owner ≠ owner then .error .wrongOwner
      else .ok ⟨h.slot, hs⟩
  else .error .notFound

/-- `expected`: the entry a slot should hold for one of its pages. -/
def expected (io : Backend E) (s : Slot) (page : Nat) : Option Nat :=
  (PortedXe.encodeGgtt (io.dma s.backing.dmaPages page) s.pat false 46).toOption

end Lookup

section Reserve

def Manager.freeSlot (m : Manager) : Option (Fin maxMappings) :=
  (List.finRange maxMappings).find? fun i => (m.slots i).state = .free

def Slot.reserve (s : Slot) (owner epoch generation : Nat) (r : Range) : Slot :=
  { s with
    state := .reserved, owner := owner, epoch := epoch, generation := generation, range := r }

/-- The manager with the range in the slot, under the next generation. -/
def Manager.enter (m : Manager) (i : Fin maxMappings) (owner : Nat) (r : Range) : Manager :=
  { m.setSlot i ((m.slots i).reserve owner m.epoch m.serial r) with
    serial := (m.serial + 1) % 2 ^ 64 }

/-- `insert`. The generation counter refuses once it has wrapped. -/
def Manager.insert (m : Manager) (owner : Nat) (r : Range) : Except Status (Handle × Manager) :=
  if m.serial = 0 then .error .noSpace
  else match m.freeSlot with
    | none => .error .noSpace
    | some i => .ok (⟨i, m.serial⟩, m.enter i owner r)

def insert (owner : Nat) (r : Range) : Op E (Except Status Handle) := do
  match (← mgr).insert owner r with
  | .error e => return .error e
  | .ok (h, m) =>
    edit fun hw => { hw with mgr := m }
    return .ok h

/-- Past every slot the candidate overlaps, or nowhere. -/
def Manager.nextPlace (m : Manager) (base bytes alignment : Nat) : Nat :=
  (List.finRange maxMappings).foldl (fun next i =>
    let s := (m.slots i).m
    if s.state ≠ .free ∧ (Range.mk base bytes).Overlap s.range then
      max next (alignUp (s.range.address + s.range.bytes) alignment)
    else next) base

/-- The attempts `reserve` makes inside one granted range ending at `stop`. -/
def Manager.search (m : Manager) (bytes alignment stop : Nat) : Nat → Nat → Option Nat
  | 0, _ => none
  | k + 1, base =>
    if base < stop ∧ bytes ≤ stop - base then
      let next := m.nextPlace base bytes alignment
      if next = base then some base else m.search bytes alignment stop k next
    else none

def Manager.place (m : Manager) (bytes alignment : Nat) : Option Nat :=
  m.ranges.findSome? fun g =>
    m.search bytes alignment (g.address + g.bytes) (maxMappings + 1) (alignUp g.address alignment)

def reserveAt (io : Backend E) (owner epoch : Nat) (r : Range) : Op E (Except Status Handle) := do
  if epoch ≠ (← mgr).epoch then return .error .wrongEpoch
  if !(← live io) then return .error .unavailable
  if owner = 0 ∨ ¬ r.Valid ∨ r.bytes / pageSize > maxPages then return .error .invalid
  if ¬ (← mgr).Fits r then return .error .noSpace
  insert owner r

def reserve (io : Backend E) (owner epoch bytes alignment : Nat) :
    Op E (Except Status Handle) := do
  if epoch ≠ (← mgr).epoch then return .error .wrongEpoch
  if !(← live io) then return .error .unavailable
  if owner = 0 ∨ bytes = 0 ∨ bytes % pageSize ≠ 0 ∨ bytes / pageSize > maxPages ∨
      alignment < pageSize ∨ alignment > 1 <<< 32 ∨ alignment &&& (alignment - 1) ≠ 0 then
    return .error .invalid
  match (← mgr).place bytes alignment with
  | none => return .error .noSpace
  | some base => insert owner ⟨base, bytes⟩

end Reserve

section Teardown

/-- `verify`. While clearing, a zero entry is accepted too. -/
def verify (io : Backend E) (s : Slot) (clearing : Bool) : List Nat → Op E Bool
  | [] => return true
  | page :: rest => do
    match expected io s page with
    | none => return false
    | some want =>
      match ← read io (s.entry page) with
      | none => return false
      | some actual =>
        if (if clearing then actual ≠ 0 ∧ actual ≠ want else actual ≠ want) then return false
        else verify io s clearing rest

def Slot.pages (s : Slot) : List Nat := List.range s.backing.pageCount

def clearPages (io : Backend E) (s : Slot) : List Nat → Op E Bool
  | [] => return true
  | page :: rest => do
    let wrote ← live io <&&> writePte io (s.entry page) 0
    if !wrote then return false
    match ← read io (s.entry page) with
    | some 0 => clearPages io s rest
    | _ => return false

def readZero (io : Backend E) (s : Slot) : List Nat → Op E Bool
  | [] => return true
  | page :: rest => do
    match ← read io (s.entry page) with
    | some 0 => readZero io s rest
    | _ => return false

/-- The part of `teardown` that runs while entries may still be set. -/
def clearEntries (io : Backend E) (i : Fin maxMappings) : Op E Bool := do
  let s ← slot i
  let epoch := (← mgr).epoch
  consult io (.ownsBacking s.owner epoch s.backing) <&&>
    consult io (.retired s.owner epoch ⟨i, s.generation⟩) <&&>
    verify io s true s.pages <&&> clearPages io s s.pages <&&> live io <&&>
    consult io (.invalidate epoch) <&&> readZero io s s.pages

def dropBacking (io : Backend E) (i : Fin maxMappings) : Op E Status := do
  let s ← slot i
  let dropped ← if s.held then
      consult io (.releaseBacking s.owner (← mgr).epoch s.backing)
    else pure true
  if !dropped then return .quarantined
  note (.freed i)
  setSlot i fun _ => Slot.empty
  return .ok

def teardown (io : Backend E) (i : Fin maxMappings) : Op E Status := do
  if !(← live io) then return .quarantined
  let s ← slot i
  if s.users ≠ 0 then return .quarantined
  if s.touched && !s.cleared then
    if !(← clearEntries io i) then return .quarantined
    setSlot i fun s => { s with cleared := true }
    dropBacking io i
  else dropBacking io i

end Teardown

section Publish

/-- The argument check of `publish`. -/
def Backing.Usable (b : Backing) (s : Slot) (pat : Nat) : Prop :=
  b.cookie ≠ 0 ∧ b.cpu ≠ 0 ∧ b.dmaPages ≠ 0 ∧ b.identity ≠ 0 ∧
    b.pageCount = s.range.bytes / pageSize ∧ pat ≤ 3
  deriving Decidable

/-- How the writing loop of `publish` ends. -/
inductive Written where
  | refused | failed | done
  deriving DecidableEq, Repr

def writePages (io : Backend E) (i : Fin maxMappings) : List Nat → Op E Written
  | [] => return .done
  | page :: rest => do
    if !(← live io) then return .refused
    let s ← slot i
    match expected io s page with
    | none => return .refused
    | some pte =>
      setSlot i fun s => { s with touched := true }
      if !(← writePte io (s.entry page) pte) then return .failed
      match ← read io (s.entry page) with
      | none => return .failed
      | some actual => if actual ≠ pte then return .failed else writePages io i rest

def quarantine (i : Fin maxMappings) : Op E Unit := setSlot i fun s => s.withState .quarantined

/-- Tear down, reporting `status` when that leaves nothing behind. -/
def abandon (io : Backend E) (i : Fin maxMappings) (status : Status) : Op E Status := do
  if (← teardown io i) = .ok then return status else return .quarantined

def install (io : Backend E) (i : Fin maxMappings) (owner : Nat) (b : Backing) : Op E Status := do
  let epoch := (← mgr).epoch
  let owns ← consult io (.ownsBacking owner epoch b)
  let s ← slot i
  if !(owns && s.pages.all fun page => (expected io s page).isSome) then
    quarantine i
    abandon io i .invalid
  else if !(← readZero io s s.pages) then
    quarantine i
    return .quarantined
  else
    quarantine i
    match ← writePages io i s.pages with
    | .refused => return .quarantined
    | .failed => abandon io i .io
    | .done =>
      let s ← slot i
      let sealed ← live io <&&> consult io (.invalidate epoch) <&&> verify io s false s.pages
      if !sealed then abandon io i .io
      else
        setSlot i fun s => s.withState .published
        return .ok

def publish (io : Backend E) (owner epoch : Nat) (h : Handle) (b : Backing) (pat : Nat) :
    Op E Status := do
  match (← mgr).get owner epoch h with
  | .error e => return e
  | .ok i =>
    let s ← slot i
    if s.state ≠ .reserved then
      return if s.state = .quarantined then .quarantined else .busy
    if !(← live io) then return .unavailable
    if ¬ b.Usable s pat then return .invalid
    let epoch := (← mgr).epoch
    if !(← consult io (.patReady epoch pat)) then return .unavailable
    if !(← consult io (.retainBacking owner epoch b)) then return .unavailable
    setSlot i fun s => s.hold b pat
    install io i owner b

end Publish

section Users

/-- `published`, returning the slot it vouched for. -/
def published (io : Backend E) (owner epoch : Nat) (h : Handle) (b : Backing) :
    Op E (Except Status (Fin maxMappings)) := do
  match (← mgr).get owner epoch h with
  | .error e => return .error e
  | .ok i =>
    let s ← slot i
    if s.state ≠ .published then return .error .quarantined
    if s.backing ≠ b then return .error .invalid
    let epoch := (← mgr).epoch
    let good ← live io <&&> consult io (.ownsBacking owner epoch b) <&&>
      consult io (.patReady epoch s.pat) <&&> verify io s false s.pages
    if !good then
      quarantine i
      return .error .quarantined
    return .ok i

def retain (io : Backend E) (owner epoch : Nat) (h : Handle) (b : Backing) : Op E Status := do
  match ← published io owner epoch h b with
  | .error e => return e
  | .ok i =>
    let s ← slot i
    if s.users = 2 ^ 32 - 1 then return .busy
    setSlot i fun s => s.withUsers (s.users + 1)
    return .ok

def release (io : Backend E) (owner epoch : Nat) (h : Handle) : Op E Status := do
  match (← mgr).get owner epoch h with
  | .error e => return e
  | .ok i =>
    let s ← slot i
    if s.users = 0 then return .invalid
    let quiet ← live io <&&> (do consult io (.retired owner (← mgr).epoch h))
    if !quiet then return .busy
    setSlot i fun s => s.withUsers (s.users - 1)
    return .ok

def retire (io : Backend E) (owner epoch : Nat) (h : Handle) : Op E Status := do
  match (← mgr).get owner epoch h with
  | .error e => return e
  | .ok i =>
    let s ← slot i
    if s.users ≠ 0 then return .busy
    if !(← live io) then
      quarantine i
      return .quarantined
    if s.state = .quarantined ∧ s.held ∧ ¬ s.touched then return .quarantined
    quarantine i
    teardown io i

end Users

section Lifetime

/-- The argument check of `initializeManager`. -/
def Grant (epoch : Nat) (ranges : List Range) (complete : Bool) : Prop :=
  epoch ≠ 0 ∧ ranges ≠ [] ∧ ranges.length ≤ maxRanges ∧ complete = true ∧
    (∀ r ∈ ranges, r.Valid) ∧ ranges.Pairwise fun a b => ¬ b.Overlap a

instance (epoch : Nat) (ranges : List Range) (complete : Bool) :
    Decidable (Grant epoch ranges complete) :=
  inferInstanceAs (Decidable (_ ∧ _))

/-- `initializeManager`. A null range pointer is the empty list. -/
def initializeManager (io : Backend E) (epoch : Nat) (ranges : List Range) (complete : Bool) :
    Op E Status := do
  if (← mgr).started then return .busy
  if ¬ Grant epoch ranges complete then return .invalid
  if !(← consult io (.admitted epoch)) then return .unavailable
  if !(← consult io (.acquireSpace epoch ranges)) then return .unavailable
  edit fun hw =>
    { hw with epoch := epoch, ranges := ranges, started := true }
  return .ok

def close (io : Backend E) : Op E Status := do
  if !(← live io) then return .unavailable
  let m ← mgr
  if ∃ i, (m.slots i).state ≠ .free then return .busy
  if !(← consult io (.releaseSpace m.epoch)) then return .quarantined
  edit fun hw => { hw with closed := true }
  return .ok

end Lifetime

inductive Call where
  | initializeManager (epoch : Nat) (ranges : List Range) (complete : Bool)
  | reserve (owner epoch bytes alignment : Nat)
  | reserveAt (owner epoch : Nat) (r : Range)
  | publish (owner epoch : Nat) (h : Handle) (b : Backing) (pat : Nat)
  | published (owner epoch : Nat) (h : Handle) (b : Backing)
  | retain (owner epoch : Nat) (h : Handle) (b : Backing)
  | release (owner epoch : Nat) (h : Handle)
  | retire (owner epoch : Nat) (h : Handle)
  | close
  deriving DecidableEq, Repr

def statusOf {α : Type} : Except Status α → Status
  | .ok _ => .ok
  | .error e => e

def step (io : Backend E) : Call → Op E Status
  | .initializeManager epoch ranges complete => initializeManager io epoch ranges complete
  | .reserve owner epoch bytes alignment => do
    return statusOf (← reserve io owner epoch bytes alignment)
  | .reserveAt owner epoch r => do
    return statusOf (← reserveAt io owner epoch r)
  | .publish owner epoch h b pat => publish io owner epoch h b pat
  | .published owner epoch h b => do
    return statusOf (← published io owner epoch h b)
  | .retain owner epoch h b => retain io owner epoch h b
  | .release owner epoch h => release io owner epoch h
  | .retire owner epoch h => retire io owner epoch h
  | .close => close io

def start (pte : Nat → Nat) (env : E) : World E :=
  { obj := { mgr := Manager.fresh, pte := pte }, env := env, log := [] }

def run (io : Backend E) (calls : List Call) (pte : Nat → Nat) (env : E) : World E :=
  (runAll (step io) calls (start pte env)).2

end Mellow.Ggtt
