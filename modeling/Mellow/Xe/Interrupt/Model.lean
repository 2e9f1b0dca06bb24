import Mathlib.Logic.Function.Basic
import Mellow.Lib.Code

/-!
# The Interrupt Controller

The model of `Mellow/XeInterrupt.cpp`. `filter` runs at interrupt time, between
any two steps of the other methods. The two sides meet in the atomic `state_`
and in the tile master register. What the operations do is said by `Op.run` for
a method that runs alone, and in `Interrupt.Race` for methods that interleave.

A read of all ones is a device that has gone, except in `update`, since mask
registers may read so. `bound` says that `ops_` holds callbacks; `admitted` is
false while there are none.

## Main definitions

* `Op`: the operations that are indivisible.
* `Memory`: the plain fields.
* `filter`: the interrupt side.
* `service`: the workloop.
* `run`: any calls, each alone.
-/

namespace Mellow.Interrupt

open Lib

inductive Status where
  | ok | empty | pending | invalid | unavailable | ioFailure | timeout | unsupported | faulted
  deriving DecidableEq, Repr

inductive Handling where
  | drained | more | failed
  deriving DecidableEq, Repr

abbrev Word := BitVec 32

structure Identity where
  raw : Word
  bank : Nat
  bit : Nat
  engineClass : Nat
  inst : Nat
  vector : Nat
  deriving DecidableEq

inductive Reg where
  | tileMaster
  | gfxMaster
  | bankStatus (bank : Nat)
  | identityRegister (bank : Nat)
  | selectorRegister (bank : Nat)
  /-- The enable and mask registers that `configure` sets up. -/
  | control (offset : Nat)
  deriving DecidableEq

def masterEnable : Word := 0x80000000#32
def identityValid : Word := 0x80000000#32
def allOnes : Word := 0xffffffff#32

def engineUser : Word := 1
def engineFlush : Word := 16

def single (bit : Nat) : Word := 1#32 <<< bit

structure Configuration where
  epoch : Nat := 0
  vendor : Nat := 0
  device : Nat := 0
  ccsMask : BitVec 8 := 0
  render : Bool := false
  copy : Bool := false

/-- `state_`: 0 to 4 in this order. -/
inductive Phase where
  | stopped | armed | masked | workloop | fault
  deriving DecidableEq, Repr

structure Memory where
  config : Configuration := {}
  bound : Bool := false
  events : Nat → Identity := fun _ => ⟨0, 0, 0, 0, 0, 0⟩
  eventCount : Nat := 0
  nextEvent : Nat := 0
  other : Word := 0
  configured : Bool := false
  batchReady : Bool := false

structure Controller extends mem : Memory where
  phase : Phase := .stopped

inductive Op where
  | load
  | store (p : Phase)
  | compareExchange (expected desired : Phase)
  | admitted (epoch : Nat)
  | read32 (reg : Reg)
  | write32 (reg : Reg) (value : Word)
  | nowMicros
  | identity (epoch : Nat) (id : Identity)
  | otherMaster (epoch : Nat) (bits : Word)
  | fields
  | record (f : Memory → Memory)

abbrev Op.Answer : Op → Type
  | .load => Phase
  | .store _ => Unit
  | .compareExchange _ _ => Bool
  | .admitted _ => Bool
  | .read32 _ => Option Word
  | .write32 _ _ => Bool
  | .nowMicros => Nat
  | .identity _ _ => Handling
  | .otherMaster _ _ => Handling
  | .fields => Memory
  | .record _ => Unit

abbrev Ctl (α : Type) : Type := Code Op Op.Answer α

section Access

def perform (o : Op) : Ctl o.Answer := Code.perform o

def fields : Ctl Memory := perform .fields

def record (f : Memory → Memory) : Ctl Unit := perform (.record f)

def admitted : Ctl Bool := do
  let m ← fields
  if !m.bound then return false
  perform (.admitted m.config.epoch)

def read (reg : Reg) : Ctl (Option Word) := do
  if !(← admitted) then return none
  match ← perform (.read32 reg) with
  | none => return none
  | some v => return if v = allOnes then none else some v

def write (reg : Reg) (v : Word) : Ctl Bool := do
  if !(← admitted) then return false
  perform (.write32 reg v)

def update (reg : Reg) (mask bits : Word) : Ctl Bool := do
  if !(← admitted) then return false
  match ← perform (.read32 reg) with
  | none => return false
  | some v => write reg ((v &&& ~~~mask) ||| (bits &&& mask))

def fail (status : Status) : Ctl Status := do
  perform (.store .fault)
  if ← admitted then
    let _ ← write .tileMaster 0
  return status

end Access

section Setup

def irqs : Word := engineUser ||| engineFlush

/-- The enable and mask registers, with what `configure` puts there. -/
def setup (c : Configuration) : List (Reg × Word × Word) :=
  let engineBits := (if c.render then irqs <<< 16 else 0) ||| (if c.copy then irqs else 0)
  [(.control 0x190030, 0x00110011#32, engineBits),
   (.control 0x190090, irqs <<< 16, if c.render then 0 else irqs <<< 16),
   (.control 0x1900a0, irqs <<< 16, if c.copy then 0 else irqs <<< 16),
   (.control 0x190048, irqs <<< 16, if c.ccsMask ≠ 0 then irqs <<< 16 else 0),
   (.control 0x190100, (irqs <<< 16) ||| irqs, if c.ccsMask ≠ 0 then 0 else (irqs <<< 16) ||| irqs),
   (.control 0x190038, 0x80000000#32, 0x80000000#32),
   (.control 0x1900e8, 0x80000000#32, 0)]

def updateAll : List (Reg × Word × Word) → Ctl Bool
  | [] => return true
  | (reg, mask, bits) :: rest => do
    if !(← update reg mask bits) then return false
    updateAll rest

/-- `complete`: every callback is there. -/
def configure (c : Configuration) (complete : Bool) : Ctl Status := do
  if (← fields).configured ∨ c.epoch = 0 ∨ c.vendor ≠ 0x8086 ∨ c.device ≠ 0x7d41 ∨
      c.ccsMask &&& ~~~1 ≠ 0 ∨ !complete then
    return .invalid
  record fun m => { m with config := c, bound := true }
  if !(← admitted) then return .unavailable
  record fun m => { m with configured := true }
  if !(← write .tileMaster 0) then fail .ioFailure
  else match ← read .tileMaster with
    | none => fail .ioFailure
    | some posted =>
      if posted &&& masterEnable ≠ 0 then fail .ioFailure
      else if !(← updateAll (setup c)) then fail .ioFailure
      else if !(← admitted) then fail .ioFailure
      else match ← perform (.read32 (.control 0x1900e8)) with
        | none => fail .ioFailure
        | some _ => return .ok

end Setup

section Filter

def rearm : Ctl Status := do
  perform (.store .armed)
  if !(← write .tileMaster masterEnable) then fail .ioFailure
  else
    -- The filter may have masked delivery before the enable went out.
    let after ← perform .load
    if after ≠ .armed then
      if !(← write .tileMaster 0) then fail .ioFailure
      else return if after = .fault then .faulted else .ok
    else return .ok

def start : Ctl Status := do
  if !(← fields).configured then return .invalid
  if (← perform .load) ≠ .stopped then return .invalid
  if !(← admitted) then return .unavailable
  rearm

def filter : Ctl Bool := do
  if (← perform .load) ≠ .armed then return false
  if !(← admitted) then return false
  match ← read .tileMaster with
  | none =>
    let _ ← fail .ioFailure
    return true
  | some level =>
    if level &&& 1 = 0 then return false
    if !(← perform (.compareExchange .armed .masked)) then return false
    if !(← write .tileMaster 0) then
      let _ ← fail .ioFailure
    return true

end Filter

section Collect

def Identity.of (raw : Word) (bank bit : Nat) : Identity where
  raw := raw
  bank := bank
  bit := bit
  engineClass := ((raw >>> 16) &&& 7).toNat
  inst := ((raw >>> 20) &&& 63).toNat
  vector := (raw.setWidth 16).toNat

def pollAttempts : Nat := 10000
def pollMicros : Nat := 100

/-- Waits for a valid identity. The outer `none` is a failed read. -/
def poll (bank began : Nat) : Nat → Ctl (Option (Option Word))
  | 0 => return some none
  | left + 1 => do
    match ← read (.identityRegister bank) with
    | none => return none
    | some v =>
      if v &&& identityValid ≠ 0 then return some (some v)
      let now ← perform .nowMicros
      if now < began ∨ now - began ≥ pollMicros then return some none
      poll bank began left

def Memory.push (m : Memory) (id : Identity) : Memory :=
  { m with events := Function.update m.events m.eventCount id, eventCount := m.eventCount + 1 }

def Memory.pop (m : Memory) : Memory := { m with nextEvent := m.nextEvent + 1 }

def captureBit (bank bit : Nat) : Ctl Status := do
  if !(← write (.selectorRegister bank) (single bit)) then fail .ioFailure
  else
    let began ← perform .nowMicros
    match ← poll bank began pollAttempts with
    | none => fail .ioFailure
    | some none => fail .timeout
    | some (some v) =>
      if !(← write (.identityRegister bank) v) then fail .ioFailure
      else
        record (·.push (.of v bank bit))
        return .ok

def captureBits (bank : Nat) (dw : Word) : List Nat → Ctl Status
  | [] => return .ok
  | bit :: bits => do
    if dw &&& single bit = 0 then captureBits bank dw bits
    else
      let s ← captureBit bank bit
      if s ≠ .ok then return s
      captureBits bank dw bits

def captureBank (master : Word) (bank : Nat) : Ctl Status := do
  if master &&& single bank = 0 then return .ok
  else match ← read (.bankStatus bank) with
    | none => fail .ioFailure
    | some dw =>
      let s ← captureBits bank dw (List.range 32)
      if s ≠ .ok then return s
      if !(← write (.bankStatus bank) dw) then fail .ioFailure
      else return .ok

def captureBanks (master : Word) : List Nat → Ctl Status
  | [] => return .ok
  | bank :: banks => do
    let s ← captureBank master bank
    if s ≠ .ok then return s
    captureBanks master banks

def collect : Ctl Status := do
  match ← read .tileMaster with
  | none => fail .ioFailure
  | some tile =>
    if tile &&& masterEnable ≠ 0 then fail .ioFailure
    else if tile &&& ~~~masterEnable &&& ~~~1 ≠ 0 then fail .unsupported
    else if tile &&& 1 = 0 then
      record fun m => { m with eventCount := 0, nextEvent := 0, other := 0, batchReady := true }
      return .ok
    else if !(← write .tileMaster (tile &&& ~~~masterEnable)) then fail .ioFailure
    else match ← read .gfxMaster with
      | none => fail .ioFailure
      | some master =>
        if !(← write .gfxMaster master) then fail .ioFailure
        else
          record fun m => { m with
            eventCount := 0, nextEvent := 0, other := master &&& ~~~(masterEnable ||| 3) }
          let s ← captureBanks master (List.range 2)
          if s ≠ .ok then return s
          record fun m => { m with batchReady := true }
          return .ok

end Collect

section Service

/-- Hands out captured events, up to `fuel` of them. A status ends `service`. -/
def deliver : Nat → Ctl (Option Status)
  | 0 => return none
  | fuel + 1 => do
    let m ← fields
    if m.nextEvent < m.eventCount then
      if !(← admitted) then return some (← fail .unavailable)
      match ← perform (.identity m.config.epoch (m.events m.nextEvent)) with
      | .more => return some .pending
      | .failed => return some (← fail .unsupported)
      | .drained =>
        record Memory.pop
        deliver fuel
    else return none

def deliverOther : Ctl (Option Status) := do
  let m ← fields
  if m.other ≠ 0 then
    if !(← admitted) then return some (← fail .unavailable)
    match ← perform (.otherMaster m.config.epoch m.other) with
    | .more => return some .pending
    | .failed => return some (← fail .unsupported)
    | .drained =>
      record fun m => { m with other := 0 }
      return none
  else return none

/-- `service` from where the batch is ready. -/
def handOut : Ctl Status := do
  let m ← fields
  match ← deliver (m.eventCount - m.nextEvent) with
  | some s => return s
  | none =>
    match ← deliverOther with
    | some s => return s
    | none =>
      record fun m => { m with batchReady := false }
      rearm

def service : Ctl Status := do
  let state ← perform .load
  if state = .fault then return .faulted
  else if state ≠ .masked ∧ state ≠ .workloop then return .empty
  else if !(← admitted) then fail .unavailable
  else
    perform (.store .workloop)
    if !(← fields).batchReady then
      let s ← collect
      if s ≠ .ok then return s
      handOut
    else handOut

end Service

inductive Event where
  | admitted (yes : Bool)
  | read (reg : Reg) (value : Option Word)
  | write (reg : Reg) (value : Word) (done : Bool)
  | time (now : Nat)
  | identity (epoch : Nat) (id : Identity) (answer : Handling)
  | otherMaster (epoch : Nat) (bits : Word) (answer : Handling)

structure Backend (E : Type) where
  admitted : Nat → E → Bool × E
  read32 : Reg → E → Option Word × E
  write32 : Reg → Word → E → Bool × E
  nowMicros : E → Nat × E
  identity : Nat → Identity → E → Handling × E
  otherMaster : Nat → Word → E → Handling × E

/-- A controller with its environment and its log. -/
abbrev World (E : Type) := Sys Controller E Event

abbrev Log := List (Entry Controller Event)

variable {E : Type}

def Op.run (io : Backend E) : (o : Op) → Prog Controller E Event o.Answer
  | .load => do return (← look).phase
  | .store p => edit fun c => { c with phase := p }
  | .compareExchange expected desired => do
    if (← look).phase = expected then
      edit fun c => { c with phase := desired }
      return true
    else return false
  | .admitted epoch => ask (io.admitted epoch) .admitted
  | .read32 reg => ask (io.read32 reg) (.read reg)
  | .write32 reg v => ask (io.write32 reg v) (.write reg v)
  | .nowMicros => ask io.nowMicros .time
  | .identity epoch id => ask (io.identity epoch id) (.identity epoch id)
  | .otherMaster epoch bits => ask (io.otherMaster epoch bits) (.otherMaster epoch bits)
  | .fields => do return (← look).mem
  | .record f => edit fun c => { c with mem := f c.mem }

def alone {α : Type} (io : Backend E) (c : Ctl α) : Prog Controller E Event α := c.exec (Op.run io)

inductive Call where
  | configure (c : Configuration) (complete : Bool)
  | start
  | filter
  | service

def step (io : Backend E) : Call → Prog Controller E Event Status
  | .configure c complete => alone io (configure c complete)
  | .start => alone io start
  | .filter => do
    let _ ← alone io filter
    return .ok
  | .service => alone io service

def run (io : Backend E) (calls : List Call) (env : E) : World E :=
  (runAll (step io) calls ⟨{}, env, []⟩).2

end Mellow.Interrupt
