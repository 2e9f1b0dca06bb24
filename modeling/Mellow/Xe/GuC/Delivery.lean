import Mellow.Xe.GuC.Replies
import Mellow.Xe.GuC.Traffic

/-!
# What the Peer Reads

The ring from the host to the GuC is written and read at the same time. A
message never goes around the end: the host fills the end with zero words,
publishes those, and starts over at the front, perhaps without room for the
message any more.

The room is what `send` computed from a head it read once; the peer can only
make it larger. A send that could not tell whether the peer was notified breaks
the object, so nothing can follow it.

## Main definitions

* `Ringed`: the units in the ring, a draft behind the tail, and the room left.
* `Outcome`: what a send leaves.
* `Delivered`: what holds after any calls.

## Theorems

* `run_delivered`: what was accepted is decoded, once and in order.
-/

namespace Mellow.XeGuC

open Lib

variable {E : Type}

section Space

def Sized (n : Nat) : Prop := 1024 ≤ n ∧ ∃ k ≤ 20, n = 2 ^ k

theorem ringValid_sized {r : Ring} (h : ringValid r) : Sized r.count := by
  rcases h with ⟨_, _, _, _, hmin, hmax, hpow⟩
  rcases (Nat.and_sub_one_eq_zero_iff_isPowerOfTwo (by omega)).mp hpow with ⟨k, hk⟩
  refine ⟨hmin, k, ?_, hk⟩
  rw [hk, Nat.one_shiftLeft] at hmax
  exact (Nat.pow_le_pow_iff_right (by decide)).mp hmax

variable {n : Nat}

theorem Sized.and_eq_mod (h : Sized n) (x : Nat) : x &&& (n - 1) = x % n := by
  rcases h.2 with ⟨k, _, rfl⟩
  exact Nat.and_two_pow_sub_one_eq_mod x k

theorem Sized.dvd (h : Sized n) : n ∣ 2 ^ 32 := by
  rcases h.2 with ⟨k, hk, rfl⟩
  exact Nat.pow_dvd_pow 2 (by omega)

theorem sub32_modEq (h : Sized n) {a b : Nat} (hb : b ≤ 2 ^ 32) : sub32 a b + b ≡ a [MOD n] := by
  have hwrap : sub32 a b ≡ a + 2 ^ 32 - b [MOD n] := Nat.mod_mod_of_dvd _ h.dvd
  calc sub32 a b + b
      ≡ a + 2 ^ 32 - b + b [MOD n] := hwrap.add_right b
    _ = a + 2 ^ 32 := by omega
    _ ≡ a + 0 [MOD n] := ((Nat.modEq_zero_iff_dvd).mpr h.dvd).add_left a

/-- The space `send` computes is what the units leave, but for one word. -/
theorem space_eq (h : Sized n) {head tail len : Nat} (hlen : len < n)
    (htail : tail = (head + len) % n) :
    sub32 (sub32 head tail) 1 &&& (n - 1) = n - 1 - len := by
  have hn := Nat.le_of_dvd (by decide) h.dvd
  have hlt : tail < n := by
    rw [htail]
    exact Nat.mod_lt _ (by omega)
  -- Going on from the space, over the spare word and the units, is a full round.
  have hround : sub32 (sub32 head tail) 1 + 1 + len ≡ 0 [MOD n] := by
    refine Nat.ModEq.add_right_cancel' head ?_
    calc sub32 (sub32 head tail) 1 + 1 + len + head
        = sub32 (sub32 head tail) 1 + 1 + (head + len) := by omega
      _ ≡ sub32 head tail + (head + len) [MOD n] := (sub32_modEq h (by decide)).add_right _
      _ ≡ sub32 head tail + tail [MOD n] := by
          refine Nat.ModEq.add_left _ ?_
          rw [htail]
          exact (Nat.mod_modEq _ _).symm
      _ ≡ head [MOD n] := sub32_modEq h (by omega)
      _ = 0 + head := (Nat.zero_add head).symm
  rw [h.and_eq_mod]
  have hrest : sub32 (sub32 head tail) 1 % n + 1 + len ≡ 0 [MOD n] :=
    (((Nat.mod_modEq _ n).add_right 1).add_right len).trans hround
  have hmod : sub32 (sub32 head tail) 1 % n < n := Nat.mod_lt _ (by omega)
  have := Nat.eq_of_dvd_of_lt_two_mul (by omega) ((Nat.modEq_zero_iff_dvd).mp hrest) (by omega)
  omega

end Space

section Ring

/-- Published is decoded or in the ring, and `draft` stands behind the tail. -/
structure Ringed (n tail room : Nat) (draft : List Nat) (sent : List Message)
    (s : World E) : Prop where
  attached : s.obj.attached = true
  count : s.obj.h2g.count = n
  hostTail : s.obj.hTail = tail
  portTail : s.obj.hPort.tail = tail
  out : published s.log = sent
  held : ∃ units, Stands n room units s.obj.hPort ∧ decoded s.log ++ units.reduceOption = sent ∧
    taken s.log + total (units.map unitWords) = added s.log
  drafted : slice s.obj.hPort.words tail draft.length = draft
  lines : ∀ x ∈ s.log, RingRule x

variable {io : Ops E} {n tail room : Nat} {draft : List Nat} {sent : List Message}
  {s t : World E}

theorem Ringed.still (h : Ringed n tail room draft sent s) (hst : Still s t) :
    Ringed n tail room draft sent t := by
  constructor
  case attached => exact hst.attached.trans h.attached
  case count => exact (congrArg Ring.count hst.ring).trans h.count
  case hostTail => exact hst.own.trans h.hostTail
  case portTail => exact hst.tail.trans h.portTail
  case out => exact hst.log.published.trans h.out
  case held =>
    rcases h.held with ⟨units, hstands, hdec, hwords⟩
    refine ⟨units, ⟨?_, ?_, hstands.room, ?_, hstands.formed⟩, ?_, ?_⟩
    · rw [hst.head]
      exact hstands.head
    · rw [hst.tail, hst.head]
      exact hstands.tail
    · rw [hst.words, hst.head]
      exact hstands.laid
    · rw [hst.log.decoded]
      exact hdec
    · rw [hst.log.taken, hst.log.added]
      exact hwords
  case drafted =>
    rw [hst.words]
    exact h.drafted
  case lines => exact hst.log.lines h.lines

theorem Ringed.take (h : Ringed n tail room draft sent s) {u : Option Message} {p : Port}
    (hnext : s.obj.next = some (u, p)) :
    Ringed n tail room draft sent
      ((s.heard (unitEvent u) s.env).put { s.obj with hPort := p }) := by
  rcases h.held with ⟨units, hstands, hdec, hwords⟩
  have hport : s.obj.hPort.take n = some (u, p) := by
    rw [← h.count, ← hnext]
    exact (if_pos h.attached).symm
  cases units with
  | nil =>
    rw [hstands.take_nil] at hport
    cases hport
  | cons v rest =>
    rw [hstands.take_cons] at hport
    cases hport
    rw [List.map_cons, total_cons] at hwords
    constructor
    case attached => exact h.attached
    case count => exact h.count
    case hostTail => exact h.hostTail
    case portTail => exact h.portTail
    case out =>
      change published (_ :: s.log) = _
      rw [published_cons]
      cases u <;> exact (List.append_nil _).trans h.out
    case held =>
      refine ⟨rest, hstands.tail_units, ?_, ?_⟩
      · change decoded (_ :: s.log) ++ _ = _
        rw [decoded_cons, ← hdec, List.append_assoc]
        cases u <;> rfl
      · change taken (_ :: s.log) + _ = added (_ :: s.log)
        rw [taken_cons, added_cons]
        cases u with
        | none =>
          change 1 + taken s.log + _ = 0 + added s.log
          rw [show (unitWords none).length = 1 from rfl] at hwords
          omega
        | some m =>
          change m.wire.length + taken s.log + _ = 0 + added s.log
          rw [show (unitWords (some m)).length = m.wire.length from rfl] at hwords
          omega
    case drafted => exact h.drafted
    case lines =>
      intro x hx
      rcases List.mem_cons.mp hx with rfl | hx
      · cases u <;> exact ⟨nofun, nofun⟩
      · exact h.lines x hx

theorem ringed_steady (hio : Consumer io) : Steady io (Ringed n tail room draft sent) := by
  intro s t hcalm h
  rcases calm_cases hio hcalm with hst | ⟨u, p, hnext, rfl⟩
  · exact h.still hst
  · exact h.take hnext

/-- The end of a call: nothing is reserved and nothing is drafted. -/
theorem Ringed.rest (h : Ringed n tail room draft sent s) : Ringed n tail 0 [] sent s := by
  rcases h.held with ⟨units, hstands, hdec, hwords⟩
  refine ⟨h.attached, h.count, h.hostTail, h.portTail, h.out, ⟨units, ?_, hdec, hwords⟩,
    rfl, h.lines⟩
  have := hstands.room
  exact ⟨hstands.head, hstands.tail, by omega, hstands.laid, hstands.formed⟩

/-- Room for as many words as the ring has left, but for one. -/
theorem Ringed.reserve (h : Ringed n tail room draft sent s) (hn : Sized n) :
    Ringed n tail (sub32 (sub32 s.obj.hPort.head tail) 1 &&& (n - 1)) draft sent s := by
  rcases h.held with ⟨units, hstands, hdec, hwords⟩
  refine ⟨h.attached, h.count, h.hostTail, h.portTail, h.out, ⟨units, ?_, hdec, hwords⟩,
    h.drafted, h.lines⟩
  have hroom := hstands.room
  have hspace := space_eq hn (by omega) (h.portTail.symm.trans hstands.tail)
  exact ⟨hstands.head, hstands.tail, by omega, hstands.laid, hstands.formed⟩

theorem Ringed.tail_lt (h : Ringed n tail room draft sent s) : tail < n := by
  rcases h.held with ⟨units, hstands, _⟩
  have := hstands.room
  rw [← h.portTail, hstands.tail]
  exact Nat.mod_lt _ (by omega)

theorem Ringed.write (h : Ringed n tail room draft sent s) (hk : draft.length < room)
    (hfit : tail + draft.length < n) (v : Nat) :
    Ringed n tail room (draft ++ [v]) sent
      ((s.heard (.wrote (tail + draft.length) v) s.env).put { s.obj with
        hPort := { s.obj.hPort with
          words := Function.update s.obj.hPort.words (tail + draft.length) v } }) := by
  rcases h.held with ⟨units, hstands, hdec, hwords⟩
  have hport := h.portTail
  constructor
  case attached => exact h.attached
  case count => exact h.count
  case hostTail => exact h.hostTail
  case portTail => exact hport
  case out =>
    change published (_ :: s.log) = _
    rw [published_cons]
    exact (List.append_nil _).trans h.out
  case held =>
    refine ⟨units, hstands.write (congrArg (· + _) hport.symm) hk hfit v, ?_, ?_⟩
    · change decoded (_ :: s.log) ++ _ = _
      rw [decoded_cons]
      exact (congrArg (· ++ _) (List.append_nil _)).trans hdec
    · change taken (_ :: s.log) + _ = added (_ :: s.log)
      rw [taken_cons, added_cons]
      change 0 + taken s.log + _ = 0 + added s.log
      omega
  case drafted =>
    change slice (Function.update s.obj.hPort.words (tail + draft.length) v) tail _ = _
    rw [List.length_append, List.length_singleton, slice_concat, Function.update_self,
      slice_update _ _ (Or.inr (Nat.le_refl _)), h.drafted]
  case lines =>
    intro x hx
    rcases List.mem_cons.mp hx with rfl | hx
    · refine ⟨fun i w heq => ?_, nofun⟩
      cases heq
      have hfree := hstands.free (congrArg (· + _) hport.symm) hk hfit
      unfold Link.Unread
      dsimp only
      rw [h.count]
      exact ⟨hfit, hfree⟩
    · exact h.lines x hx

theorem Ringed.publish (h : Ringed n tail room draft sent s) (more : List (Option Message))
    (m : Option Message) (next : Nat) (hmore : Laid s.obj.hPort.words n tail (more.map unitWords))
    (hroom : total (more.map unitWords) ≤ room) (hformed : ∀ m, some m ∈ more → m.Formed)
    (hnext : next = (tail + total (more.map unitWords)) % n) (hm : more.reduceOption = m.toList)
    (hwhole : ∀ m', m = some m' → Whole s.obj m' next) :
    Ringed n next (room - total (more.map unitWords)) [] (sent ++ m.toList)
      ((s.heard (.published next m) s.env).put { s.obj with
        hTail := next, hPort := { s.obj.hPort with tail := next } }) := by
  rcases h.held with ⟨units, hstands, hdec, hwords⟩
  have hport := h.portTail
  have hbound := hstands.room
  constructor
  case attached => exact h.attached
  case count => exact h.count
  case hostTail => rfl
  case portTail => rfl
  case out =>
    change published (_ :: s.log) = _
    rw [published_cons]
    exact congrArg (· ++ _) h.out
  case held =>
    refine ⟨units ++ more, hstands.publish (hport ▸ hmore) hroom hformed (hport ▸ hnext), ?_, ?_⟩
    · change decoded (_ :: s.log) ++ _ = _
      rw [decoded_cons, List.reduceOption_append, hm, ← hdec, ← List.append_assoc]
      exact congrArg (· ++ _ ++ _) (List.append_nil _)
    · change taken (_ :: s.log) + _ = added (_ :: s.log)
      rw [taken_cons, added_cons, List.map_append, total_append]
      change 0 + taken s.log + _ = distance s.obj.h2g.count s.obj.hPort.tail next + added s.log
      rw [h.count, hport, hnext, distance_eq h.tail_lt (by omega)]
      omega
  case drafted => rfl
  case lines =>
    intro x hx
    rcases List.mem_cons.mp hx with rfl | hx
    · refine ⟨nofun, fun next' m' heq => ?_⟩
      cases heq
      exact hwhole m' rfl
    · exact h.lines x hx

end Ring

section Sending

variable {io : Ops E} (hio : Consumer io) {n tail room : Nat} {draft : List Nat}
  {sent : List Message}

include hio

theorem storeAll_ringed (vs : List Nat) : ∀ draft : List Nat, draft.length + vs.length ≤ room →
    tail + (draft.length + vs.length) ≤ n →
    Spec (Ringed n tail room draft sent) (storeAll io (tail + draft.length) vs)
      (fun _ => Ringed n tail room (draft ++ vs) sent) := by
  induction vs with
  | nil =>
    intro draft _ _
    rw [List.append_nil]
    exact spec_pure () (fun _ ht => ht)
  | cons v vs ih =>
    intro draft hroom hfit
    rw [List.length_cons] at hroom hfit
    have hfirst : Spec (Ringed n tail room draft sent) (store io (tail + draft.length) v)
        (fun _ => Ringed n tail room (draft ++ [v]) sent) := by
      refine spec_bind (turn_steady (ringed_steady hio)) fun _ => ?_
      exact fun s hs => hs.write (by omega) (by omega) v
    have hrest := ih (draft ++ [v])
    rw [List.length_append, List.length_singleton, List.append_assoc] at hrest
    exact spec_bind hfirst (fun _ => hrest (by omega) (by omega))

theorem publishMessage_ringed {m : Message} {next : Nat} (hform : m.Formed)
    (hroom : m.wire.length ≤ room) (hfit : tail + m.wire.length ≤ n)
    (hnext : next = (tail + m.wire.length) % n) :
    Spec (Ringed n tail room m.wire sent) (publishTail io next (some m))
      (fun _ => Ringed n next (room - m.wire.length) [] (sent ++ [m])) := by
  refine spec_bind (turn_steady (ringed_steady hio)) fun _ => ?_
  intro s hs
  have htotal : total ([some m].map unitWords) = m.wire.length := rfl
  have hadded := hs.publish [some m] (some m) next
    ⟨hfit, hs.drafted, trivial⟩ (htotal ▸ hroom)
    (fun m' hm' => by cases List.mem_singleton.mp hm'; exact hform) (htotal ▸ hnext) rfl
    (fun m' hm' => by
      cases hm'
      refine ⟨?_, ?_, ?_⟩
      · rw [hs.portTail, hs.count]
        exact hfit
      · rw [hs.portTail]
        exact hs.drafted
      · rw [hs.portTail, hs.count]
        exact hnext)
  exact hadded

theorem publishPadding_ringed (htail : tail ≤ n) (hroom : n - tail ≤ room) :
    Spec (Ringed n tail room (List.replicate (n - tail) 0) sent) (publishTail io 0 none)
      (fun _ => Ringed n 0 (room - (n - tail)) [] sent) := by
  refine spec_bind (turn_steady (ringed_steady hio)) fun _ => ?_
  intro s hs
  have hunits : (List.replicate (n - tail) (none : Option Message)).map unitWords
      = List.replicate (n - tail) [0] := List.map_replicate
  have htotal : total ((List.replicate (n - tail) (none : Option Message)).map unitWords)
      = n - tail := by
    rw [hunits, total_replicate, List.length_singleton, Nat.mul_one]
  have hdraft := hs.drafted
  rw [List.length_replicate] at hdraft
  have hlaid := laid_replicate (n := n) (n - tail) tail (by omega) hdraft
  rw [Nat.mod_eq_of_lt hs.tail_lt, ← hunits] at hlaid
  have hadded := hs.publish _ none 0 hlaid (htotal.le.trans hroom)
    (fun m' hm' => by cases (List.mem_replicate.mp hm').2) ?_ List.reduceOption_replicate_none
    nofun
  · rw [htotal] at hadded
    rw [Option.toList_none, List.append_nil] at hadded
    exact hadded
  · rw [htotal, Nat.add_sub_cancel' htail, Nat.mod_self]

omit hio in
theorem fillSlot_ringed (slot : Fin maxPending) (a : Action) (deadline : Nat) :
    Spec (Ringed (E := E) n tail room draft sent) (fillSlot slot a deadline)
      (fun _ => Ringed n tail room draft sent) := by
  intro s hs
  exact hs.still ⟨rfl, rfl, rfl, rfl, rfl, rfl, .cons trivial⟩

/-- Nothing was published, or the action was and the answer tells. -/
def Outcome (n : Nat) (a : Action) (sent : List Message) (r : Status × Cookie)
    (t : World E) : Prop :=
  ∃ tail, (Ringed n tail 0 [] sent t ∧ r.1 ≠ .ok) ∨
    (Ringed n tail 0 [] (sent ++ [⟨r.2.fence, a.hxg⟩]) t ∧ validateAction a = .ok ∧
      (r.1 = .ok ∨ (r.1 = .publishedUnknown ∧ t.obj.broken = true)))

omit hio in
theorem outcome_none {a : Action} {r : Status × Cookie} {t : World E}
    (h : Ringed n tail room draft sent t) (hr : r.1 ≠ .ok) : Outcome n a sent r t :=
  ⟨tail, Or.inl ⟨h.rest, hr⟩⟩

theorem place_outcome {a : Action} (hvalid : validateAction a = .ok) (hn : Sized n)
    (deadline : Nat) (slot : Fin maxPending) (hroom : a.count + 1 ≤ room)
    (hfit : tail + (a.count + 1) ≤ n) :
    Spec (Ringed n tail room [] sent) (place io a deadline slot) (Outcome n a sent) := by
  have hform : ∀ f, Message.Formed ⟨f, a.hxg⟩ := by
    intro f
    have := valid_count hvalid
    unfold Message.Formed Message.count maxHxgWords
    dsimp only
    rw [hxg_length hvalid]
    omega
  have hlen : ∀ f, (Message.wire ⟨f, a.hxg⟩).length = a.count + 1 :=
    fun f => congrArg (· + 1) (hxg_length hvalid)
  refine spec_bind (fillSlot_ringed slot a deadline) fun cookie => ?_
  refine spec_each (fun s hs => spec_bind_look_at ?_)
  rw [hs.hostTail, hs.count]
  refine spec_at hs ?_
  have hwrite : Spec (Ringed n tail room [] sent)
      (storeAll io tail (Message.wire ⟨cookie.fence, a.hxg⟩))
      (fun _ => Ringed n tail room (Message.wire ⟨cookie.fence, a.hxg⟩) sent) :=
    storeAll_ringed hio _ [] (by rw [hlen, List.length_nil]; omega)
      (by rw [hlen, List.length_nil]; omega)
  refine spec_bind hwrite fun _ => ?_
  refine spec_bind (callback_steady (ringed_steady hio) _ _ (fun _ => trivial)) fun ordered => ?_
  refine spec_ite (fun _ => spec_bind (fault_steady (ringed_steady hio) _)
    (fun r => spec_pure _ (fun t ht => outcome_none ht.2.1 (ht.1 ▸ nofun)))) (fun _ => ?_)
  refine spec_bind (publishMessage_ringed hio (hform _) (by rw [hlen]; exact hroom)
    (by rw [hlen]; exact hfit) (by rw [hlen]; exact hn.and_eq_mod _)) (fun _ => ?_)
  refine spec_bind (announce_steady (ringed_steady hio)) fun announced => ?_
  refine spec_ite (fun _ => spec_bind (fault_steady (ringed_steady hio) _)
    (fun r => spec_pure _ (fun t ht => ?_))) (fun _ => spec_pure _ (fun t ht => ?_))
  · exact ⟨_, Or.inr ⟨ht.2.1.rest, hvalid, Or.inr ⟨ht.1, ht.2.2⟩⟩⟩
  · exact ⟨_, Or.inr ⟨ht.rest, hvalid, Or.inl rfl⟩⟩

/-- Padding leads to the start of the ring, or stops. -/
theorem pad_ringed (htail : tail ≤ n) (hroom : n - tail ≤ room) :
    Spec (Ringed n tail room [] sent) (pad io) (fun ok t =>
      if ok = true then Ringed n 0 (room - (n - tail)) [] sent t
      else ∃ tail, Ringed n tail 0 [] sent t) := by
  have hfail : ∀ (tl rm : Nat) (d : List Nat), Spec (Ringed n tl rm d sent) (do
      let _ ← fault .ioFailure
      return false : Op E Bool) (fun ok t =>
      if ok = true then Ringed n 0 (room - (n - tail)) [] sent t
      else ∃ tail, Ringed n tail 0 [] sent t) := by
    intro tl rm d
    refine spec_bind (fault_steady (ringed_steady hio) _) (fun r => spec_pure _ (fun t ht => ?_))
    rw [if_neg (by decide)]
    exact ⟨tl, ht.2.1.rest⟩
  refine spec_each (fun s hs => spec_bind_look_at ?_)
  rw [hs.hostTail, hs.count]
  refine spec_at hs ?_
  have hwrite : Spec (Ringed n tail room [] sent) (storeAll io tail (List.replicate (n - tail) 0))
      (fun _ => Ringed n tail room (List.replicate (n - tail) 0) sent) :=
    storeAll_ringed hio _ [] (by rw [List.length_replicate, List.length_nil]; omega)
      (by rw [List.length_replicate, List.length_nil]; omega)
  refine spec_bind hwrite fun _ => ?_
  refine spec_bind (callback_steady (ringed_steady hio) _ _ (fun _ => trivial)) fun ordered => ?_
  refine spec_ite (fun _ => hfail _ _ _) fun _ => ?_
  refine spec_bind (publishPadding_ringed hio htail hroom) fun _ => ?_
  refine spec_bind (announce_steady (ringed_steady hio)) fun announced => ?_
  refine spec_ite (fun _ => hfail _ _ _) (fun _ => spec_pure _ (fun t ht => ?_))
  rw [if_pos rfl]
  exact ht

theorem sendAt_outcome {a : Action} (hvalid : validateAction a = .ok) (hn : Sized n)
    (deadline : Nat) (slot : Fin maxPending) :
    Spec (Ringed n tail 0 [] sent) (sendAt io a deadline slot) (Outcome n a sent) := by
  refine spec_bind (readPort_steady (ringed_steady hio) _) fun head => ?_
  refine spec_each fun s hs => ?_
  rcases hs with ⟨hs, rfl⟩
  refine spec_bind_look_at ?_
  have hres := hs.reserve hn
  have htail := hs.tail_lt
  have hcount := valid_count hvalid
  rw [hs.hostTail, hs.count]
  -- From here on only the room that was read matters, whatever the peer does.
  generalize sub32 (sub32 s.obj.hPort.head tail) 1 &&& (n - 1) = space at hres
  refine spec_at hres ?_
  refine spec_unless (fun t ht => outcome_none ht nofun) fun hspace => ?_
  refine spec_ite (fun hwrap => ?_)
    (fun hwrap => place_outcome hio hvalid hn deadline slot (by omega) (by omega))
  refine spec_bind (pad_ringed hio (by omega) (by omega)) fun padded => ?_
  cases padded with
  | false =>
    refine spec_unless (fun t ht => ?_) (fun hno => absurd rfl hno)
    rw [if_neg (by decide)] at ht
    rcases ht with ⟨tl, ht⟩
    exact outcome_none ht nofun
  | true =>
    refine spec_ite nofun fun _ => ?_
    refine spec_pre (fun t ht => (if_pos rfl).mp ht) ?_
    refine spec_unless (fun t ht => outcome_none ht nofun) fun hleft => ?_
    have := hn.1
    exact place_outcome hio hvalid hn deadline slot (by omega) (by omega)

theorem send_outcome (hn : Sized n) (a : Action) (now deadline : Nat) :
    Spec (Ringed n tail 0 [] sent) (send io a now deadline) (Outcome n a sent) := by
  refine spec_unless (fun t ht => outcome_none ht nofun) fun hargs => ?_
  have hvalid : validateAction a = .ok := not_not.mp fun hne => hargs (Or.inl hne)
  refine spec_bind (clock_steady (ringed_steady hio) now) fun forward => ?_
  refine spec_guard (fun t ht => outcome_none ht nofun) ?_
  refine spec_bind (checkDescriptors_steady (ringed_steady hio)) fun st => ?_
  refine spec_ite (fun hst => spec_pure _ (fun t ht => outcome_none ht.1 hst)) fun _ => ?_
  refine spec_bind spec_look (fun l => spec_pre (fun t ht => ht.1.1) ?_)
  refine spec_bind (callback_steady (ringed_steady hio) _ _ (fun _ => trivial)) fun ok => ?_
  refine spec_guard (fun t ht => outcome_none ht nofun) ?_
  refine spec_guard (fun t ht => outcome_none ht nofun) ?_
  cases l.scan a with
  | error e => exact spec_pure _ (fun t ht => outcome_none ht nofun)
  | ok slot => exact sendAt_outcome hio hvalid hn deadline slot

end Sending

section Before

variable {io : Ops E} {P : World E → Prop} (hP : Steady io P)
  (hatt : ∀ s, P s → s.obj.attached = false)

include hP hatt

theorem send_before (a : Action) (now deadline : Nat) :
    Spec P (send io a now deadline) (fun r t => P t ∧ r.1 ≠ .ok) := by
  refine spec_guard (fun t ht => ⟨ht, nofun⟩) ?_
  refine spec_bind (clock_steady hP now) fun forward => ?_
  refine spec_guard (fun t ht => ⟨ht, nofun⟩) ?_
  refine spec_bind (checkDescriptors_steady hP) fun st => ?_
  refine spec_ite (fun hst => spec_pure _ (fun t ht => ⟨ht.1, hst⟩)) fun hst => ?_
  intro t ht
  exact absurd ((hatt t ht.1).symm.trans (ht.2.1 (not_not.mp hst))) nofun

end Before

section Attaching

/-- The object before it is attached: the ring is not in use yet. -/
structure Idle (head tail : Nat) (s : World E) : Prop where
  attached : s.obj.attached = false
  hostTail : s.obj.hTail = 0
  head : s.obj.hPort.head = head
  tail : s.obj.hPort.tail = tail
  traffic : SameTraffic [] s.log

variable {io : Ops E} (hio : Consumer io) {head tail : Nat}

include hio

theorem idle_steady : Steady io (Idle head tail) := by
  intro s t hcalm h
  rcases calm_cases hio hcalm with hst | ⟨u, p, hnext, _⟩
  · exact ⟨hst.attached.trans h.attached, hst.own.trans h.hostTail, hst.head.trans h.head,
      hst.tail.trans h.tail, h.traffic.trans hst.log⟩
  · -- There is nothing to take yet.
    unfold Link.next at hnext
    rw [h.attached, if_neg (by decide)] at hnext
    cases hnext

omit hio in
theorem Idle.ringed {s : World E} (h : Idle 0 0 s) {r g : Ring} {epoch : Nat}
    (hvalid : ringsValid r g) :
    Ringed r.count 0 0 [] [] (setHost s (s.obj.attachedTo r g epoch)) := by
  have hsize := (ringValid_sized hvalid.1).1
  constructor
  case attached => rfl
  case count => rfl
  case hostTail => exact h.hostTail
  case portTail => exact h.tail
  case out => exact h.traffic.published
  case held =>
    refine ⟨[], ⟨?_, ?_, ?_, trivial, fun m hm => absurd hm List.not_mem_nil⟩, ?_, ?_⟩
    · change s.obj.hPort.head < _
      rw [h.head]
      omega
    · change s.obj.hPort.tail = (s.obj.hPort.head + 0) % r.count
      rw [h.head, h.tail, Nat.zero_mod]
    · change 0 + 0 < r.count
      omega
    · rw [List.reduceOption_nil, List.append_nil]
      exact h.traffic.decoded
    · change taken s.log + 0 = added s.log
      rw [h.traffic.taken, h.traffic.added]
      rfl
  case drafted => rfl
  case lines => exact h.traffic.lines (fun x hx => absurd hx List.not_mem_nil)

theorem attach_idle (r g : Ring) (complete : Bool) (epoch : Nat) (f : MellowXe.FirmwareInfo) :
    Spec (Idle head tail) (attach io r g complete epoch f) (fun _ t =>
      Idle head tail t ∨ (Sized r.count ∧ Ringed r.count 0 0 [] [] t)) := by
  refine attach_steady (idle_steady hio) complete f ?_
  rintro t ht hvalid ⟨u, hu, hhead⟩ ⟨v, hv, htail⟩ _
  rw [hu.head] at hhead
  rw [hv.tail] at htail
  subst hhead htail
  exact ⟨ringValid_sized hvalid.1, ht.ringed hvalid⟩

theorem send_idle (a : Action) (now deadline : Nat) :
    Spec (Idle head tail) (send io a now deadline)
      (fun r t => Idle head tail t ∧ r.1 ≠ .ok) :=
  send_before (idle_steady hio) (fun _ h => h.attached) a now deadline

end Attaching

section Runs

def sendOf (want : Status) : Call → Answer → List Order
  | .send a _ _, .sent st c => if st = want then [a.order c] else []
  | _, _ => []

def sendsWith (want : Status) (calls : List Call) (answers : List Answer) : List Order :=
  (calls.zip answers).flatMap fun x => sendOf want x.1 x.2

/-- What the peer would decode from here on, if nothing more were sent. -/
def Link.inFlight (l : Link) : List Message :=
  if l.attached = true then l.hPort.drain l.h2g.count l.h2g.count else []

/-- What holds of the host's ring after calls and their answers. -/
structure Delivered (io : Ops E) (calls : List Call) (answers : List Answer)
    (s : World E) : Prop where
  /-- The peer decodes what was sent, and perhaps one that was in doubt. -/
  order : ∃ last, (last = [] ∨ ∃ x ∈ sendsWith .publishedUnknown calls answers, last = [x]) ∧
    (decoded s.log ++ s.obj.inFlight).map Message.order = sendsWith .ok calls answers ++ last
  /-- It always finds a whole unit, unless it has caught up. -/
  ready : s.obj.attached = true → s.obj.hPort.head ≠ s.obj.hPort.tail →
    (s.obj.hPort.take s.obj.h2g.count).isSome = true
  /-- The words between both ends are those published and not passed, -/
  outstanding : s.obj.attached = true →
    taken s.log + distance s.obj.h2g.count s.obj.hPort.head s.obj.hPort.tail = added s.log
  /-- and the ends meet only when there are none. -/
  empty : s.obj.attached = true → s.obj.hPort.head = s.obj.hPort.tail →
    taken s.log = added s.log ∧ s.obj.inFlight = []
  /-- No word is written that was published and not passed. -/
  safe : ∀ x ∈ s.log, ∀ i v, x.event = .wrote i v →
    i < x.obj.h2g.count ∧ ¬ x.obj.Unread i
  /-- Every message is published in one piece. -/
  whole : ∀ x ∈ s.log, ∀ tail m, x.event = .published tail (some m) → Whole x.obj m tail
  /-- A send that reports busy has used up no cookie, slot or credit. -/
  busy : ∀ a now deadline, (send io a now deadline s).1.1 = .busy →
    Kept s.obj.host (send io a now deadline s).2.obj.host

def Flowing (s : World E) : Prop :=
  (∃ head tail, Idle head tail s) ∨ ∃ n tail sent, Sized n ∧ Ringed n tail 0 [] sent s

def Growth (c : Call) (r : Answer) (s t : World E) : Prop :=
  (published t.log = published s.log ∧ sendOf .ok c r = []) ∨
    ∃ m, published t.log = published s.log ++ [m] ∧
      (sendOf .ok c r = [m.order] ∨
        (sendOf .ok c r = [] ∧ sendOf .publishedUnknown c r = [m.order] ∧
          t.obj.broken = true))

variable {io : Ops E} {s t : World E}

/-- Every call but attaching and sending is made of calm moves. -/
theorem calm_flow (hio : Consumer io) (hpath : Relation.ReflTransGen (Calm io) s t)
    (h : Flowing s) : Flowing t ∧ published t.log = published s.log := by
  rcases h with ⟨head, tail, h⟩ | ⟨n, tail, sent, hn, h⟩
  · have ht := (idle_steady hio).path hpath h
    exact ⟨Or.inl ⟨head, tail, ht⟩, ht.traffic.published.trans h.traffic.published.symm⟩
  · have ht := (ringed_steady hio).path hpath h
    exact ⟨Or.inr ⟨n, tail, sent, hn, ht⟩, ht.out.trans h.out.symm⟩

theorem send_flow (hio : Consumer io) (a : Action) (now deadline : Nat) (h : Flowing s) :
    Flowing (send io a now deadline s).2 ∧
      Growth (.send a now deadline) (.sent (send io a now deadline s).1.1
        (send io a now deadline s).1.2) s (send io a now deadline s).2 := by
  rcases h with ⟨head, tail, h⟩ | ⟨n, tail, sent, hn, h⟩
  · rcases send_idle hio a now deadline s h with ⟨ht, hne⟩
    refine ⟨Or.inl ⟨head, tail, ht⟩, Or.inl ⟨?_, if_neg hne⟩⟩
    exact ht.traffic.published.trans h.traffic.published.symm
  · rcases send_outcome hio hn a now deadline s h with ⟨tail', ⟨ht, hne⟩ | ⟨ht, hvalid, hanswer⟩⟩
    · exact ⟨Or.inr ⟨n, tail', sent, hn, ht⟩, Or.inl ⟨ht.out.trans h.out.symm, if_neg hne⟩⟩
    · refine ⟨Or.inr ⟨n, tail', _, hn, ht⟩, Or.inr ⟨_, ht.out.trans (by rw [h.out]), ?_⟩⟩
      rw [order_eq hvalid]
      rcases hanswer with hok | ⟨hunknown, hbroken⟩
      · exact Or.inl (if_pos hok)
      · refine Or.inr ⟨if_neg ?_, if_pos hunknown, hbroken⟩
        rw [hunknown]
        exact nofun

theorem attach_flow (hio : Consumer io) (r g : Ring) (complete : Bool) (epoch : Nat)
    (f : MellowXe.FirmwareInfo) (h : Flowing s) :
    Flowing (attach io r g complete epoch f s).2 ∧
      published (attach io r g complete epoch f s).2.log = published s.log := by
  rcases h with ⟨head, tail, h⟩ | ⟨n, tail, sent, hn, h⟩
  · have hold := h.traffic.published
    rcases attach_idle hio r g complete epoch f s h with ht | ⟨hn, ht⟩
    · exact ⟨Or.inl ⟨head, tail, ht⟩, ht.traffic.published.trans hold.symm⟩
    · exact ⟨Or.inr ⟨_, 0, [], hn, ht⟩, ht.out.trans hold.symm⟩
  · -- It refuses to attach again.
    have hrefused : Spec (fun t => t = s) (attach io r g complete epoch f) (fun _ t => t = s) := by
      refine spec_bind_look_at ?_
      exact spec_unless (fun u hu => hu)
        (fun hno => absurd (Or.inl h.attached) hno)
    rw [hrefused s rfl]
    exact ⟨Or.inr ⟨n, tail, sent, hn, h⟩, rfl⟩

theorem step_flow (hio : Consumer io) (c : Call) (h : Flowing s) :
    Flowing (step io c s).2 ∧ Growth c (step io c s).1 s (step io c s).2 := by
  have hcalm : ∀ t, Relation.ReflTransGen (Calm io) s t →
      Flowing t ∧ published t.log = published s.log := fun t hpath => calm_flow hio hpath h
  cases c with
  | attach r g complete epoch f =>
    rcases attach_flow hio r g complete epoch f h with ⟨hflow, hsame⟩
    exact ⟨hflow, Or.inl ⟨hsame, rfl⟩⟩
  | send a now deadline => exact send_flow hio a now deadline h
  | receive epoch now =>
    rcases receive_reach (fun _ _ hc => hc) epoch now s ⟨.refl, rfl⟩ with ⟨_, hreach, _⟩
    rcases hcalm _ hreach.1 with ⟨hflow, hsame⟩
    exact ⟨hflow, Or.inl ⟨hsame, rfl⟩⟩
  | expire now =>
    have hpath : Relation.ReflTransGen (Calm io) s (expire now s).2 := by
      have hreach := expire_reach (calm_self io) now s ⟨.refl, rfl⟩
      dsimp only at hreach
      split at hreach <;> exact hreach.1
    rcases hcalm _ hpath with ⟨hflow, hsame⟩
    exact ⟨hflow, Or.inl ⟨hsame, rfl⟩⟩
  | retire cookie =>
    rcases retire_reach (calm_self io) cookie s ⟨.refl, rfl⟩ with ⟨_, hreach⟩
    rcases hcalm _ hreach.1 with ⟨hflow, hsame⟩
    exact ⟨hflow, Or.inl ⟨hsame, rfl⟩⟩

/-- What was published is what was accepted, and at most one in doubt. -/
def Booked (accepted doubtful : List Order) (s : World E) : Prop :=
  ∃ last, (published s.log).map Message.order = accepted ++ last ∧
    (last = [] ∨ ((∃ x ∈ doubtful, last = [x]) ∧ s.obj.broken = true))

theorem published_stuck (hstuck : Stuck s t) : published t.log = published s.log := by
  rcases hstuck.log with ⟨new, hlog, hnew⟩
  rw [hlog]
  clear hlog hstuck
  induction new with
  | nil => rfl
  | cons x new ih =>
    have hnone : publishedOf x = none := by
      have hquiet := hnew x List.mem_cons_self
      rcases x with ⟨o, ev⟩
      cases ev <;> first | rfl | exact absurd trivial hquiet
    rw [List.cons_append, published_cons, hnone, Option.toList_none, List.append_nil]
    exact ih (fun y hy => hnew y (List.mem_cons_of_mem x hy))

theorem step_booked (hio : Consumer io) (c : Call) (hflow : Flowing s)
    {accepted doubtful : List Order} (h : Booked accepted doubtful s) :
    Booked (accepted ++ sendOf .ok c (step io c s).1)
      (doubtful ++ sendOf .publishedUnknown c (step io c s).1) (step io c s).2 := by
  rcases h with ⟨last, hall, hlast⟩
  have hgrowth := (step_flow hio c hflow).2
  rcases hlast with rfl | ⟨⟨x, hx, rfl⟩, hbroken⟩
  · rw [List.append_nil] at hall
    rcases hgrowth with ⟨hsame, hnone⟩ | ⟨m, hmore, hok | ⟨hnone, hdoubt, hbroken⟩⟩
    · refine ⟨[], ?_, Or.inl rfl⟩
      rw [hsame, hall, hnone, List.append_nil, List.append_nil]
    · refine ⟨[], ?_, Or.inl rfl⟩
      rw [hmore, List.map_append, hall, hok, List.append_nil]
      rfl
    · refine ⟨[m.order], ?_, Or.inr ⟨⟨m.order, ?_, rfl⟩, hbroken⟩⟩
      · simp [*]
      · simp [hdoubt]
  · -- After a send in doubt nothing is published, so nothing is accepted.
    have hstuck : Stuck s (step io c s).2 := moves_stuck (step_moves c s) hbroken
    have hsame := published_stuck hstuck
    have hnone : sendOf .ok c (step io c s).1 = [] := by
      rcases hgrowth with ⟨_, hnone⟩ | ⟨m, hmore, _⟩
      · exact hnone
      · rw [hsame] at hmore
        exact absurd hmore.symm (by simp)
    refine ⟨[x], ?_, Or.inr ⟨⟨x, List.mem_append_left _ hx, rfl⟩, hstuck.broken⟩⟩
    rw [hsame, hall, hnone, List.append_nil]

theorem run_booked (hio : Consumer io) (calls : List Call) :
    ∀ (s : World E) (accepted doubtful : List Order), Flowing s →
      Booked accepted doubtful s → Flowing (run io calls s).2 ∧
        Booked (accepted ++ sendsWith .ok calls (run io calls s).1)
          (doubtful ++ sendsWith .publishedUnknown calls (run io calls s).1)
            (run io calls s).2 := by
  induction calls with
  | nil =>
    intro s accepted doubtful hflow h
    refine ⟨hflow, ?_⟩
    change Booked (accepted ++ []) (doubtful ++ []) s
    rw [List.append_nil, List.append_nil]
    exact h
  | cons c calls ih =>
    intro s accepted doubtful hflow h
    have hrest := ih _ _ _ (step_flow hio c hflow).1 (step_booked hio c hflow h)
    rw [List.append_assoc, List.append_assoc] at hrest
    exact hrest

/-- For every peer that takes one unit after the other, and however it takes
    turns with the host: it reads what was sent. -/
theorem run_delivered (io : Ops E) (hio : Consumer io) (calls : List Call) (h g : Port) (env : E) :
    Delivered io calls (run io calls (start h g env)).1 (run io calls (start h g env)).2 := by
  have hstart : Flowing (start h g env) :=
    Or.inl ⟨h.head, h.tail, rfl, rfl, rfl, rfl, SameTraffic.refl []⟩
  rcases run_booked hio calls (start h g env) [] [] hstart ⟨[], rfl, Or.inl rfl⟩
    with ⟨hflow, last, hall, hlast⟩
  rw [List.nil_append] at hall hlast
  have hbusy : ∀ a now deadline, (send io a now deadline (run io calls (start h g env)).2).1.1
      = .busy → Kept (run io calls (start h g env)).2.obj.host
        (send io a now deadline (run io calls (start h g env)).2).2.obj.host := by
    intro a now deadline hb
    rcases send_reach (fun _ _ hm _ => hm) a now deadline (run io calls (start h g env)).2
      ⟨.refl, rfl⟩ with ⟨h', hpath, hkept⟩
    rw [hpath.2]
    exact hkept hb
  have hlast' : last = [] ∨
      ∃ x ∈ sendsWith .publishedUnknown calls (run io calls (start h g env)).1, last = [x] := by
    rcases hlast with hnil | ⟨hone, _⟩
    · exact Or.inl hnil
    · exact Or.inr hone
  generalize run io calls (start h g env) = r at *
  rcases hflow with ⟨head, tail, hidle⟩ | ⟨n, tail, sent, hn, hring⟩
  · have hoff : ¬ r.2.obj.attached = true := by
      rw [hidle.attached]
      decide
    have hlines := hidle.traffic.lines (fun x hx => absurd hx List.not_mem_nil)
    constructor
    case order =>
      refine ⟨last, hlast', ?_⟩
      unfold Link.inFlight
      rw [if_neg hoff, List.append_nil, hidle.traffic.decoded, ← hall, hidle.traffic.published]
      rfl
    case ready => exact fun hatt => absurd hatt hoff
    case outstanding => exact fun hatt => absurd hatt hoff
    case empty => exact fun hatt => absurd hatt hoff
    case safe => exact fun x hx => (hlines x hx).wrote
    case whole => exact fun x hx => (hlines x hx).published
    case busy => exact hbusy
  · rcases hring.held with ⟨units, hstands, hdec, hwords⟩
    have hflight : r.2.obj.inFlight = units.reduceOption := by
      unfold Link.inFlight
      rw [if_pos hring.attached, hring.count]
      exact Stands.drain units n _ hstands (Nat.le_of_lt hstands.length_lt)
    constructor
    case order =>
      refine ⟨last, hlast', ?_⟩
      rw [hflight, hdec, ← hall, hring.out]
    case ready =>
      intro _ hne
      rw [hring.count]
      cases units with
      | nil =>
        refine absurd ?_ hne
        rw [hstands.tail]
        exact (Nat.mod_eq_of_lt hstands.head).symm
      | cons u rest =>
        rw [hstands.take_cons]
        rfl
    case outstanding =>
      intro _
      rw [hring.count, hstands.distance_total]
      exact hwords
    case empty =>
      intro _ hmeet
      have hnone := hstands.meet hmeet
      rw [hflight]
      subst hnone
      exact ⟨hwords, rfl⟩
    case safe => exact fun x hx => (hring.lines x hx).wrote
    case whole => exact fun x hx => (hring.lines x hx).published
    case busy => exact hbusy

/-- Everything is agreed to, and a unit is taken whenever possible. -/
def eager : Ops Unit where
  admitted _ e := (true, e)
  authorizeAction _ _ e := (true, e)
  acquire e := (true, e)
  release e := (true, e)
  notify e := (true, e)
  peer e := ([.take], e)

def Port.blank : Port := ⟨0, 0, 0, fun _ => 0⟩

/-- Attaching two rings of the smallest size. -/
def attachSmallest : Call :=
  .attach ⟨0x1000, 0x2000, 1024⟩ ⟨0x4000, 0x5000, 1024⟩ true 1 ⟨⟨70, 53, 0⟩, ⟨1, 26, 0⟩, 0, 0⟩

/-- One context is enabled, and the peer reads that it is. -/
def enableFive : List Call := [attachSmallest, .send (encodeMode 5 true).2 0 10, .receive 1 1]

theorem run_delivered_enable :
    Consumer eager ∧
      Delivered eager enableFive (run eager enableFive (start Port.blank Port.blank ())).1
        (run eager enableFive (start Port.blank Port.blank ())).2 ∧
      decoded (run eager enableFive (start Port.blank Port.blank ())).2.log
        = [⟨0x8000, [0x20001001, 5, 1]⟩] := by
  have hio : Consumer eager := by
    intro e f hf
    cases List.mem_singleton.mp hf
  exact ⟨hio, run_delivered eager hio enableFive Port.blank Port.blank (), by decide⟩

end Runs

end Mellow.XeGuC
