import Mellow.Nvidia.Encoding

/-!
# What a Pushbuffer Does

The meaning of a pushbuffer for a channel of class C56F with a copy engine of
class C6B5 on its subchannel 4, as far as memory goes. Most methods set a
register; a launch starts what the registers describe. For anything else the
machine records `unknown`, which may write anywhere.

## Main definitions

* `Effect`: what is done to memory.
* `Machine`: the registers.
* `effects`: what a list of words does.
-/

namespace Mellow.MellowNvidia

inductive Effect
  | copy (source destination bytes : Nat)
  | waitIdle
  | systemBarrier
  | release (address payload : Nat)
  | unknown
deriving DecidableEq, Repr

def Effect.Writes : Effect → Nat → Prop
  | .copy _ destination bytes, a => destination ≤ a ∧ a < destination + bytes
  | .release address _, a => address ≤ a ∧ a < address + 4
  | .waitIdle, _ => False
  | .systemBarrier, _ => False
  | .unknown, _ => True

/-- The registers, and the methods whose values are still to come. -/
structure Machine where
  regs : Nat → Nat → Nat
  subchannel : Nat
  method : Nat
  count : Nat
  effects : List Effect

/-- An address in two registers, the upper one of 17 bits. -/
def address49 (upper lower : Nat) : Nat := upper % 2 ^ 17 * 2 ^ 32 + lower

/-- Bits 0-1: transfer; 2: flush; 3-4: semaphore; 7-8: pitch layouts. -/
def launch (regs : Nat → Nat) (v : Nat) : List Effect :=
  if v / 512 ≠ 0 ∨ v / 32 % 4 ≠ 0 then [.unknown]
  else
    (if v % 4 = 0 then []
      else if v % 4 = 2 ∧ v / 128 % 4 = 3 then
        [.copy (address49 (regs 0x400) (regs 0x404)) (address49 (regs 0x408) (regs 0x40C))
          (regs 0x418)]
      else [.unknown]) ++
    (if v / 8 % 4 = 0 then []
      else if v / 8 % 4 = 1 then [.release (address49 (regs 0x240) (regs 0x244)) (regs 0x248)]
      else [.unknown])

def hostMethod (regs : Nat → Nat) (method v : Nat) : List Effect :=
  if method = 0x78 then [.waitIdle]
  else if method = 0x28 ∨ method = 0x2C ∨ method = 0x30 then []
  else if method = 0x34 then
    if v / 2 ^ 27 = 5 ∧ regs 0x30 % 8 = 0 then [.systemBarrier] else [.unknown]
  else [.unknown]

def copyMethod (regs : Nat → Nat) (method v : Nat) : List Effect :=
  if method = 0x300 then launch regs v
  else if method = 0x25C ∨ method = 0x400 ∨ method = 0x404 ∨ method = 0x408 ∨ method = 0x40C ∨
      method = 0x418 ∨ method = 0x240 ∨ method = 0x244 ∨ method = 0x248 then []
  else [.unknown]

def methodEffects (subchannel : Nat) (regs : Nat → Nat) (method v : Nat) : List Effect :=
  if subchannel = 0 then hostMethod regs method v
  else if subchannel = 4 then copyMethod regs method v
  else [.unknown]

def Machine.apply (m : Machine) (v : Nat) : Machine where
  regs := Function.update m.regs m.subchannel (Function.update (m.regs m.subchannel) m.method v)
  subchannel := m.subchannel
  method := m.method + 4
  count := m.count - 1
  effects := m.effects ++ methodEffects m.subchannel (m.regs m.subchannel) m.method v

/-- Bits 29-31: mode; 16-28: count; 13-15: subchannel; then the method. -/
def Machine.announce (m : Machine) (w : Nat) : Machine :=
  if w / 2 ^ 29 = 1 ∧ w / 2 ^ 12 % 2 = 0 then
    { m with subchannel := w / 2 ^ 13 % 8, method := w % 2 ^ 12 * 4, count := w / 2 ^ 16 % 2 ^ 13 }
  else { m with effects := m.effects ++ [.unknown] }

def feed (m : Machine) (w : Nat) : Machine := if m.count = 0 then m.announce w else m.apply w

def idle (regs : Nat → Nat → Nat) : Machine := ⟨regs, 0, 0, 0, []⟩

/-- What the words of a pushbuffer do, whatever the registers hold before. -/
def effects (regs : Nat → Nat → Nat) (words : List Nat) : List Effect :=
  (words.foldl feed (idle regs)).effects

end Mellow.MellowNvidia
