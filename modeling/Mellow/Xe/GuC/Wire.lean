import Mathlib.Data.List.ReduceOption
import Mellow.Xe.GuC.Model

/-!
# Messages in the Ring

What is in the ring is a list of units, messages and words of padding, each
contiguous. A message starts with a header that is never zero and says how long
it is.

## Main definitions

* `Order`: what a message means to the peer.
* `Stands`: the ring holds a list of units, with room left.

## Theorems

* `order_eq`: the message of an action means that action.
* `take_cons`: the peer reads the first unit.
-/

namespace Mellow.XeGuC

open Lib

section Orders

/-- What a message tells the peer. -/
structure Order where
  fence : Nat
  kind : Nat
  words : List Nat
  deriving DecidableEq, Repr

/-- The message without the type in its first word, bits 28 to 30. -/
def Message.payload (m : Message) : List Nat :=
  match m.hxg with
  | [] => []
  | w :: ws => (w &&& 0x8fffffff) :: ws

def Message.order (m : Message) : Order := ⟨m.fence, m.kind, m.payload⟩

/-- The order an action is: type 0 for a request, otherwise type 2. -/
def Action.order (a : Action) (c : Cookie) : Order :=
  ⟨c.fence, if a.Request then 0 else 2, a.payload⟩

variable {a : Action}

theorem payload_length (h : validateAction a = .ok) : a.payload.length = a.count := by
  have := (valid_count h).2
  rw [Action.payload, List.length_take, List.length_ofFn]
  omega

theorem payload_cons (h : validateAction a = .ok) : ∃ ws, a.payload = a.words 0 :: ws := by
  have hpos := (valid_count h).1
  refine ⟨(List.ofFn fun i => a.words (Fin.succ i)).take (a.count - 1), ?_⟩
  rw [Action.payload, List.ofFn_succ]
  conv_lhs => rw [show a.count = (a.count - 1) + 1 by omega]
  rw [List.take_succ_cons]

theorem hxg_length (h : validateAction a = .ok) : a.hxg.length = a.count := by
  rcases payload_cons h with ⟨ws, hws⟩
  have hlen := payload_length h
  unfold Action.hxg
  rw [hws] at hlen ⊢
  exact hlen

/-- Every code is below the bits of the type. -/
theorem typed_word {w : Nat} (hw : w = 0x4502 ∨ w = 0x1000 ∨ w = 0x4503 ∨ w = 0x1001) :
    ((w ||| 0x20000000) >>> 28) &&& 7 = 2 ∧ (w ||| 0x20000000) &&& 0x8fffffff = w := by
  rcases hw with rfl | rfl | rfl | rfl <;> decide

theorem order_eq (h : validateAction a = .ok) (c : Cookie) :
    Message.order ⟨c.fence, a.hxg⟩ = a.order c := by
  rcases payload_cons h with ⟨ws, hws⟩
  have hmeans : ∀ w, Message.order ⟨c.fence, w :: ws⟩
      = ⟨c.fence, (w >>> 28) &&& 7, (w &&& 0x8fffffff) :: ws⟩ := fun _ => rfl
  unfold Action.hxg Action.order
  rw [hws]
  dsimp only
  rw [hmeans]
  by_cases hreq : a.Request
  · have hword : a.words 0 = 0x4000 := hreq
    rw [if_pos hreq, if_pos hreq, hword, show (0x4000 ||| 0) >>> 28 &&& 7 = 0 by decide,
      show (0x4000 ||| 0) &&& 0x8fffffff = 0x4000 by decide]
  · have hword := typed_word (w := a.words 0) (by
      rcases valid_cases h with ⟨hw, _⟩ | ⟨hw | hw, _⟩ | ⟨hw, _⟩ | ⟨hw, _⟩
      · exact Or.inl hw
      · exact Or.inr (Or.inl hw)
      · exact Or.inr (Or.inr (Or.inl hw))
      · exact Or.inr (Or.inr (Or.inr hw))
      · exact absurd hw hreq)
    rw [if_neg hreq, if_neg hreq, hword.1, hword.2]

end Orders

section Units

/-- A unit as it stands in the ring: a word of padding, or a message. -/
def unitWords : Option Message → List Nat
  | none => [0]
  | some m => m.wire

/-- The header has room for the length, which is not zero. -/
def Message.Formed (m : Message) : Prop := 0 < m.count ∧ m.count ≤ maxHxgWords

variable {m : Message}

theorem ctHeader_eq (h : m.Formed) : ctHeader m = m.fence * 2 ^ 16 + m.count := by
  have hlt : m.count < 2 ^ 16 := by
    have := h.2
    unfold maxHxgWords at this
    omega
  unfold ctHeader
  rw [← Nat.shiftLeft_add_eq_or_of_lt hlt, Nat.shiftLeft_eq]

theorem ctHeader_ne_zero (h : m.Formed) : ctHeader m ≠ 0 := by
  have := h.1
  rw [ctHeader_eq h]
  omega

theorem ctHeader_count (h : m.Formed) : ctHeader m &&& 255 = m.count := by
  have := h.2
  unfold maxHxgWords at this
  rw [ctHeader_eq h, show 255 = 2 ^ 8 - 1 from rfl, Nat.and_two_pow_sub_one_eq_mod]
  omega

theorem ctHeader_fence (h : m.Formed) : ctHeader m >>> 16 = m.fence := by
  have := h.2
  unfold maxHxgWords at this
  rw [ctHeader_eq h, Nat.shiftRight_eq_div_pow]
  omega

theorem wire_length (m : Message) : m.wire.length = m.count + 1 := rfl

/-- The ring of `n` words holds the units, and has room for more words. -/
structure Stands (n room : Nat) (units : List (Option Message)) (p : Port) : Prop where
  head : p.head < n
  tail : p.tail = (p.head + total (units.map unitWords)) % n
  room : total (units.map unitWords) + room < n
  laid : Laid p.words n p.head (units.map unitWords)
  formed : ∀ m, some m ∈ units → m.Formed

variable {n room : Nat} {units rest : List (Option Message)} {u : Option Message} {p : Port}

namespace Stands

theorem distance_total (h : Stands n room units p) :
    distance n p.head p.tail = total (units.map unitWords) := by
  have := h.room
  rw [h.tail, distance_eq h.head (by omega)]

theorem meet (h : Stands n room units p) (hmeet : p.head = p.tail) : units = [] := by
  have hroom := h.room
  have hzero := ends_meet h.head (by omega) (h.tail.symm.trans hmeet.symm)
  cases units with
  | nil => rfl
  | cons u rest =>
    rw [List.map_cons, total_cons] at hzero
    cases u <;> simp [unitWords, Message.wire] at hzero

theorem take_nil (h : Stands n room [] p) : p.take n = none := by
  have hmeet : p.head = p.tail := by
    rw [h.tail]
    exact (Nat.mod_eq_of_lt h.head).symm
  exact if_pos hmeet

theorem tail_units (h : Stands n room (u :: rest) p) :
    Stands n room rest { p with head := (p.head + (unitWords u).length) % n } := by
  have hroom := h.room
  rw [List.map_cons, total_cons] at hroom
  refine ⟨Nat.mod_lt _ (by omega), ?_, by omega, h.laid.2.2, fun m hm => ?_⟩
  · simp [h.tail, List.map_cons, total_cons, Nat.mod_add_mod, Nat.add_assoc]
  · exact h.formed m (List.mem_cons_of_mem u hm)

theorem take_cons (h : Stands n room (u :: rest) p) :
    p.take n = some (u, { p with head := (p.head + (unitWords u).length) % n }) := by
  have hne : p.head ≠ p.tail := fun hmeet => by cases h.meet hmeet
  have hdist := h.distance_total
  rcases h.laid with ⟨hfit, hwords, _⟩
  rw [List.map_cons, total_cons] at hdist
  unfold Port.take
  rw [if_neg hne]
  cases u with
  | none =>
    have hzero : p.words p.head = 0 := (List.cons_eq_cons.mp hwords).1
    rw [if_pos hzero]
    rfl
  | some m =>
    have hform := h.formed m List.mem_cons_self
    have hlen : (unitWords (some m)).length = m.count + 1 := rfl
    rw [hlen] at hfit hwords hdist
    -- The words of the message are the header and what follows it.
    rw [slice_succ] at hwords
    rcases List.cons_eq_cons.mp hwords with ⟨hheader, hbody⟩
    have hread : (List.range m.count).map (fun i => p.words ((p.head + 1 + i) % n)) = m.hxg := by
      rw [← hbody]
      refine List.map_congr_left fun i hi => ?_
      have := List.mem_range.mp hi
      rw [Nat.mod_eq_of_lt (by omega)]
    rw [hheader, if_neg (ctHeader_ne_zero hform)]
    dsimp only
    rw [ctHeader_count hform, if_neg (by omega), ctHeader_fence hform, hread, hlen,
      Nat.add_assoc, Nat.add_comm 1]

/-- Taking one unit after the other gives all messages. -/
theorem drain : ∀ (units : List (Option Message)) (fuel : Nat) (p : Port),
    Stands n room units p → units.length ≤ fuel → p.drain n fuel = units.reduceOption := by
  intro units
  induction units with
  | nil =>
    intro fuel p h _
    cases fuel with
    | zero => rfl
    | succ fuel =>
      unfold Port.drain
      rw [h.take_nil]
      rfl
  | cons u rest ih =>
    intro fuel p h hfuel
    cases fuel with
    | zero => cases hfuel
    | succ fuel =>
      have hrest := ih fuel _ h.tail_units (Nat.le_of_succ_le_succ hfuel)
      unfold Port.drain
      rw [h.take_cons]
      cases u with
      | none => exact hrest
      | some m => exact congrArg (m :: ·) hrest

theorem length_lt (h : Stands n room units p) : units.length < n := by
  have hle : ∀ us : List (Option Message), us.length ≤ total (us.map unitWords) := by
    intro us
    induction us with
    | nil => exact Nat.le_refl 0
    | cons u us ih =>
      have hpos : 1 ≤ (unitWords u).length := by
        cases u with
        | none => exact Nat.le_refl 1
        | some m => exact Nat.succ_le_succ (Nat.zero_le _)
      rw [List.map_cons, total_cons, List.length_cons]
      omega
  have := hle units
  have := h.room
  omega

theorem free (h : Stands n room units p) {i k : Nat} (hi : i = p.tail + k) (hk : k < room)
    (hfit : i < n) : ¬ Occupied n p.head (distance n p.head p.tail) i := by
  have := h.room
  rw [h.distance_total]
  rw [h.tail] at hi
  subst hi
  exact not_occupied_ahead (by omega) hfit

theorem write (h : Stands n room units p) {i k : Nat} (hi : i = p.tail + k) (hk : k < room)
    (hfit : i < n) (v : Nat) :
    Stands n room units { p with words := Function.update p.words i v } := by
  have hfree := h.free hi hk hfit
  rw [h.distance_total] at hfree
  exact ⟨h.head, h.tail, h.room, laid_update v _ _ hfree h.laid, h.formed⟩

theorem publish (h : Stands n room units p) {more : List (Option Message)} {tail : Nat}
    (hmore : Laid p.words n p.tail (more.map unitWords))
    (hroom : total (more.map unitWords) ≤ room) (hformed : ∀ m, some m ∈ more → m.Formed)
    (htail : tail = (p.tail + total (more.map unitWords)) % n) :
    Stands n (room - total (more.map unitWords)) (units ++ more) { p with tail := tail } := by
  have hold := h.room
  rw [h.tail] at hmore
  refine ⟨h.head, ?_, ?_, ?_, fun m hm => ?_⟩
  · simp [htail, h.tail, List.map_append, total_append, Nat.mod_add_mod, Nat.add_assoc]
  · rw [List.map_append, total_append]
    omega
  · rw [List.map_append]
    exact laid_append _ _ h.head h.laid hmore
  · rcases List.mem_append.mp hm with hm | hm
    · exact h.formed m hm
    · exact hformed m hm

end Stands

end Units

end Mellow.XeGuC
