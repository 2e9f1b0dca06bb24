import Mellow.Xe.GuC.Delivery

/-!
# What the Host Reads

The ring from the GuC to the host. The peer puts messages in whenever it likes,
and a message may go around the end. Between two accesses of the host the
message at the head stays the same, so the words that `receive` reads belong
together.

## Main definitions

* `Carries`: the messages that stand in the ring.
* `Producer`: a peer that only adds messages behind them.
* `stream`: what was consumed and what still stands.

## Theorems

* `receive_fed`: a message that is received is the first of the stream.
* `step_inbound`: the stream only grows.
-/

namespace Mellow.XeGuC

open Lib

variable {E : Type}

section Contents

def wires (ms : List Message) : List Nat := ms.flatMap Message.wire

/-- The header has room for the length and for the fence. -/
def Message.Sendable (m : Message) : Prop := m.Formed ∧ m.fence < 2 ^ 16

/-- The messages stand in a ring of `n` words from the head on, up to the
    tail. -/
structure Carries (n : Nat) (ms : List Message) (p : Port) : Prop where
  head : p.head < n
  tail : p.tail = (p.head + (wires ms).length) % n
  room : (wires ms).length < n
  words : ∀ i w, (wires ms)[i]? = some w → p.words ((p.head + i) % n) = w
  formed : ∀ m ∈ ms, m.Sendable

variable {n : Nat} {ms rest : List Message} {m : Message} {p : Port}

theorem and_shiftLeft_of_lt {a b k : Nat} (h : a < 2 ^ k) : a &&& b <<< k = 0 := by
  refine Nat.eq_of_testBit_eq fun i => ?_
  rw [Nat.testBit_and, Nat.testBit_shiftLeft, Nat.zero_testBit]
  by_cases hi : k ≤ i
  · rw [Nat.testBit_lt_two_pow (Nat.lt_of_lt_of_le h (Nat.pow_le_pow_right (by decide) hi)),
      Bool.false_and]
  · simp [*]

theorem ctHeader_low (h : m.Formed) : ctHeader m &&& 0xff00 = 0 := by
  have hfence : m.fence <<< 16 &&& 0xff00 = 0 := by
    rw [Nat.and_comm]
    exact and_shiftLeft_of_lt (by decide)
  have hcount : m.count &&& 0xff00 = 0 :=
    and_shiftLeft_of_lt (b := 0xff) (k := 8) (Nat.lt_succ_of_le h.2)
  unfold ctHeader
  rw [Nat.and_or_distrib_right, hfence, hcount]
  rfl

theorem Message.map_word (m : Message) : (List.range m.count).map m.word = m.hxg := by
  refine List.ext_getElem (by rw [List.length_map, List.length_range]; rfl) fun i _ hi => ?_
  rw [List.getElem_map, List.getElem_range]
  change m.hxg.getD i 0 = _
  rw [List.getD_eq_getElem?_getD, List.getElem?_eq_getElem hi]
  rfl

theorem wires_cons (m : Message) (ms : List Message) : wires (m :: ms) = m.wire ++ wires ms := rfl

namespace Carries

theorem header (h : Carries n (m :: rest) p) : p.words p.head = ctHeader m := by
  have hword := h.words 0 (ctHeader m) rfl
  rwa [Nat.add_zero, Nat.mod_eq_of_lt h.head] at hword

/-- The words of the first message, around the end. -/
theorem body (h : Carries n (m :: rest) p) {i : Nat} (hi : i < m.count) :
    p.words ((p.head + 1 + i) % n) = m.word i := by
  have hget : (wires (m :: rest))[i + 1]? = some (m.word i) := by
    have hbody : m.hxg[i]? = some m.hxg[i] := List.getElem?_eq_getElem hi
    rw [wires_cons, List.getElem?_append_left (by rw [wire_length]; omega)]
    change m.hxg[i]? = some (m.hxg.getD i 0)
    rw [List.getD_eq_getElem?_getD, hbody]
    rfl
  rw [← h.words (i + 1) _ hget, Nat.add_assoc, Nat.add_comm 1 i]

theorem hxg_eq (h : Carries n (m :: rest) p) :
    (List.range m.count).map (fun i => p.words ((p.head + 1 + i) % n)) = m.hxg := by
  rw [← m.map_word]
  exact List.map_congr_left fun i hi => h.body (List.mem_range.mp hi)

theorem advance (h : Carries n (m :: rest) p) :
    Carries n rest { p with head := (p.head + (1 + m.count)) % n } := by
  have hlen : (wires (m :: rest)).length = 1 + m.count + (wires rest).length := by
    rw [wires_cons, List.length_append, wire_length, Nat.add_comm m.count]
  have hroom := h.room
  refine ⟨Nat.mod_lt _ (by omega), ?_, by omega, fun i w hw => ?_,
    fun m' hm' => h.formed m' (List.mem_cons_of_mem m hm')⟩
  · simp [h.tail, hlen, Nat.mod_add_mod, Nat.add_assoc p.head]
  · have hget : (wires (m :: rest))[1 + m.count + i]? = some w := by
      rw [wires_cons, List.getElem?_append_right (by rw [wire_length]; omega), wire_length,
        show 1 + m.count + i - (m.count + 1) = i by omega, hw]
    change p.words (((p.head + (1 + m.count)) % n + i) % n) = w
    rw [Nat.mod_add_mod, Nat.add_assoc p.head, h.words _ _ hget]

/-- The peer's own way of reading a ring agrees. -/
theorem take_cons (h : Carries n (m :: rest) p) :
    p.take n = some (some m, { p with head := (p.head + (1 + m.count)) % n }) := by
  have hlen : (wires (m :: rest)).length = 1 + m.count + (wires rest).length := by
    rw [wires_cons, List.length_append, wire_length, Nat.add_comm m.count]
  have hdist : distance n p.head p.tail = (wires (m :: rest)).length := by
    rw [h.tail, distance_eq h.head h.room]
  have hne : p.head ≠ p.tail := by
    intro hmeet
    have hzero := ends_meet h.head h.room (h.tail.symm.trans hmeet.symm)
    omega
  have hform := (h.formed m List.mem_cons_self).1
  unfold Port.take
  rw [if_neg hne, h.header, if_neg (ctHeader_ne_zero hform)]
  dsimp only
  rw [ctHeader_count hform, if_neg (by omega), ctHeader_fence hform, h.hxg_eq, Nat.add_assoc]

theorem drain : ∀ (ms : List Message) (fuel : Nat) (p : Port), Carries n ms p → ms.length ≤ fuel →
    p.drain n fuel = ms := by
  intro ms
  induction ms with
  | nil =>
    intro fuel p h _
    have hmeet : p.head = p.tail := by
      rw [h.tail]
      exact (Nat.mod_eq_of_lt h.head).symm
    cases fuel with
    | zero => rfl
    | succ fuel =>
      unfold Port.drain Port.take
      rw [if_pos hmeet]
  | cons m rest ih =>
    intro fuel p h hfuel
    cases fuel with
    | zero => cases hfuel
    | succ fuel =>
      have hrest := ih fuel _ h.advance (Nat.le_of_succ_le_succ hfuel)
      unfold Port.drain
      rw [h.take_cons]
      exact congrArg (m :: ·) hrest

theorem length_le : ∀ ms : List Message, ms.length ≤ (wires ms).length := by
  intro ms
  induction ms with
  | nil => exact Nat.le_refl 0
  | cons m rest ih =>
    rw [wires_cons, List.length_append, wire_length, List.length_cons]
    omega

end Carries

end Contents

section Logs

/-- The message that stands at the head. -/
def Link.front (l : Link) : Message :=
  let header := l.gPort.words l.gHead
  ⟨(header >>> 16) % 2 ^ 16, (List.range (header &&& 255)).map fun i =>
    l.gPort.words ((l.gHead + 1 + i) % l.g2h.count)⟩

def consumedOf (x : Entry Link Event) : Option Message :=
  match x.event with
  | .consumed _ => some x.obj.front
  | _ => none

/-- The messages the head was moved over, in this order. -/
def consumed (log : Log) : List Message := (log.filterMap consumedOf).reverse

def Link.unread (l : Link) : List Message := l.gPort.drain l.g2h.count l.g2h.count

/-- Every message that was in the ring since it was attached. -/
def stream (s : World E) : List Message := consumed s.log ++ s.obj.unread

def Link.Vacant (l : Link) : Prop := l.gPort.tail = l.gHead
  deriving Decidable

/-- Memory could not be ordered after a head had been moved. -/
def Unordered (log : Log) : Prop :=
  ∃ new x y before head, log = new ++ y :: x :: before ∧ x.event = .consumed head ∧
    y.event = .release false

/-- The peer adds whole messages to its ring, behind those that are there. -/
def Producer (n : Nat) (io : Ops E) : Prop :=
  ∀ e f, PeerMove.g2h f ∈ (io.peer e).1 → ∀ ms p, Carries n ms p →
    (f p).head = p.head ∧ ∃ more, Carries n (ms ++ more) (f p)

theorem consumed_none {x : Entry Link Event} (h : x.event.head? = none)
    (log : Log) : consumed (x :: log) = consumed log := by
  have hof : consumedOf x = none := by
    unfold consumedOf
    cases hx : x.event with
    | consumed head =>
      rw [hx] at h
      cases h
    | _ => rfl
  rw [consumed, List.filterMap_cons_none hof, consumed]

theorem consumed_some {x : Entry Link Event} {head : Nat} (h : x.event = .consumed head)
    (log : Log) : consumed (x :: log) = consumed log ++ [x.obj.front] := by
  have hof : consumedOf x = some x.obj.front := by
    unfold consumedOf
    rw [h]
  rw [consumed, List.filterMap_cons_some hof, List.reverse_cons, consumed]

theorem consumed_stuck {s t : World E} (h : Stuck s t) :
    consumed t.log = consumed s.log := by
  rcases h.log with ⟨new, hlog, hnew⟩
  have hnone : new.filterMap consumedOf = [] := by
    refine List.filterMap_eq_nil_iff.mpr fun x hx => ?_
    unfold consumedOf
    cases hev : x.event with
    | consumed head => exact absurd (show x.event.Active by rw [hev]; trivial) (hnew x hx)
    | _ => rfl
  rw [consumed, hlog, List.filterMap_append, hnone, List.nil_append, consumed]

theorem Unordered.append {log : Log} (h : Unordered log)
    (new : Log) : Unordered (new ++ log) := by
  rcases h with ⟨new', x, y, before, head, rfl, hx, hy⟩
  exact ⟨new ++ new', x, y, before, head, (List.append_assoc _ _ _).symm, hx, hy⟩

end Logs

section Feeding

/-- An attached link whose ring holds the messages. -/
structure Fed (n : Nat) (ms : List Message) (l : Link) : Prop where
  attached : l.attached = true
  sized : Sized n
  ring : l.g2h.count = n
  own : l.gHead = l.gPort.head
  holds : Carries n ms l.gPort

/-- A link that is not attached yet. -/
structure Unfed (n head : Nat) (ms : List Message) (l : Link) : Prop where
  attached : l.attached = false
  ring : l.g2h.count = 0
  own : l.gHead = 0
  head : l.gPort.head = head
  holds : Carries n ms l.gPort

variable {n : Nat} {ms rest : List Message} {m : Message} {l : Link} {io : Ops E}
  {s t u : World E}

theorem Fed.unread (h : Fed n ms l) : l.unread = ms := by
  have := Carries.length_le ms
  have := h.holds.room
  unfold Link.unread
  rw [h.ring]
  exact h.holds.drain ms n l.gPort (by omega)

theorem Unfed.unread {head : Nat} (h : Unfed n head ms l) : l.unread = [] := by
  unfold Link.unread
  rw [h.ring]
  rfl

theorem Fed.front (h : Fed n (m :: rest) l) : l.front = m := by
  have hsend := h.holds.formed m List.mem_cons_self
  unfold Link.front
  rw [h.own, h.holds.header]
  dsimp only
  rw [ctHeader_count hsend.1, ctHeader_fence hsend.1, Nat.mod_eq_of_lt hsend.2, h.ring,
    h.holds.hxg_eq]

/-- The host leaves the ring alone; the peer may have added to it. -/
structure Apart (io : Ops E) (s t : World E) : Prop where
  attached : t.obj.attached = s.obj.attached
  ring : t.obj.g2h = s.obj.g2h
  own : t.obj.gHead = s.obj.gHead
  port : t.obj.gPort = s.obj.gPort ∨
    ∃ e f, PeerMove.g2h f ∈ (io.peer e).1 ∧ t.obj.gPort = f s.obj.gPort
  log : consumed t.log = consumed s.log

theorem not_headless (head : Nat) (o : Link) (e : E) :
    ¬ Headless s ((s.heard (.consumed head) e).put o) := by
  intro h
  have hlen := congrArg List.length h
  change (head :: s.log.filterMap fun x => x.event.head?).length = _ at hlen
  rw [List.length_cons] at hlen
  omega

/-- Only an object in use moves the head. -/
theorem calm_apart (hcalm : Calm io s t) (hless : s.obj.Running → Headless s t) :
    Apart io s t := by
  cases hcalm with
  | drew e => exact ⟨rfl, rfl, rfl, .inl rfl, rfl⟩
  | heard ev e hev =>
    refine ⟨rfl, rfl, rfl, .inl rfl, consumed_none ?_ s.log⟩
    cases ev <;> first | rfl | exact hev.elim
  | peer x hx =>
    cases x with
    | take =>
      change Apart io s (peerTake s).2
      rcases peerTake_cases s with ⟨_, heq⟩ | ⟨u, p, hnext, heq⟩ <;> rw [heq]
      · exact ⟨rfl, rfl, rfl, .inl rfl, rfl⟩
      · refine ⟨rfl, rfl, rfl, .inl rfl, consumed_none ?_ s.log⟩
        cases u <;> rfl
    | g2h f =>
      rcases hx with ⟨e, he⟩
      exact ⟨rfl, rfl, rfl, .inr ⟨e, f, he, rfl⟩, rfl⟩
    | h2gStatus | corrupt => exact ⟨rfl, rfl, rfl, .inl rfl, rfl⟩
  | ticked | expired | broke | retired => exact ⟨rfl, rfl, rfl, .inl rfl, rfl⟩
  | misread | refused => exact ⟨rfl, rfl, rfl, .inl rfl, consumed_none rfl s.log⟩
  | replied m i _ _ _ =>
    rcases settle_frame s.obj.host i m with ⟨hown, hatt, hring, _⟩
    exact ⟨hatt, hring, hown, .inl rfl, consumed_none rfl s.log⟩
  | consumed head hrun => exact absurd (hless hrun) (not_headless head _ _)

theorem move_apart (hmove : Move io s t) (hless : Headless s t)
    (hatt : s.obj.attached = true) : Apart io s t := by
  cases hmove with
  | calm hcalm => exact calm_apart hcalm fun _ => hless
  | attached h g epoch hnew _ _ => exact absurd (hatt.symm.trans hnew) nofun
  | issued | wrote | published => exact ⟨rfl, rfl, rfl, .inl rfl, consumed_none rfl s.log⟩

theorem Apart.carries (h : Apart io s t) (hio : Producer n io) (hs : Carries n ms s.obj.gPort) :
    t.obj.gPort.head = s.obj.gPort.head ∧ ∃ more, Carries n (ms ++ more) t.obj.gPort := by
  rcases h.port with heq | ⟨e, f, hf, heq⟩
  · rw [heq]
    exact ⟨rfl, [], (List.append_nil ms).symm ▸ hs⟩
  · rw [heq]
    exact hio e f hf ms s.obj.gPort hs

theorem Apart.fed (h : Apart io s t) (hio : Producer n io) (hs : Fed n ms s.obj) :
    ∃ more, Fed n (ms ++ more) t.obj := by
  rcases h.carries hio hs.holds with ⟨hhead, more, hmore⟩
  exact ⟨more, h.attached.trans hs.attached, hs.sized, (congrArg Ring.count h.ring).trans hs.ring,
    h.own.trans (hs.own.trans hhead.symm), hmore⟩

theorem Apart.unfed {head : Nat} (h : Apart io s t) (hio : Producer n io)
    (hs : Unfed n head ms s.obj) : ∃ more, Unfed n head (ms ++ more) t.obj := by
  rcases h.carries hio hs.holds with ⟨hhead, more, hmore⟩
  exact ⟨more, h.attached.trans hs.attached, (congrArg Ring.count h.ring).trans hs.ring,
    h.own.trans hs.own, hhead.trans hs.head, hmore⟩

/-- Nothing is consumed, and the ring stays in order. -/
def Feeds (n : Nat) (s t : World E) : Prop :=
  ∀ ms, Fed n ms s.obj → ∃ more, Fed n (ms ++ more) t.obj ∧ consumed t.log = consumed s.log

theorem Feeds.refl (s : World E) : Feeds n s s :=
  fun ms h => ⟨[], (List.append_nil ms).symm ▸ h, rfl⟩

theorem Feeds.trans (h : Feeds n s t) (h' : Feeds n t u) : Feeds n s u := by
  intro ms hs
  rcases h ms hs with ⟨more, ht, hlog⟩
  rcases h' _ ht with ⟨more', hu, hlog'⟩
  exact ⟨more ++ more', (List.append_assoc ms more more').symm ▸ hu, hlog'.trans hlog⟩

theorem Feeds.path (h : Relation.ReflTransGen (Feeds n) s t) : Feeds n s t := by
  induction h with
  | refl => exact Feeds.refl s
  | tail _ hstep ih => exact ih.trans hstep

/-- A move that publishes no head keeps the ring in order. -/
theorem move_feeds (hio : Producer n io) (s t : World E) (hmove : Move io s t)
    (hless : Headless s t) : Feeds n s t := by
  intro ms hs
  have hapart := move_apart hmove hless hs.attached
  rcases hapart.fed hio hs with ⟨more, hmore⟩
  exact ⟨more, hmore, hapart.log⟩

end Feeding

section Receiving

variable {n : Nat} {ms rest more : List Message} {m : Message} {io : Ops E}
  {s t u : World E} {h : Transport} {r : Status × Message}

/-- How `receive` ends: without a message, or with the first one. -/
def Received (n : Nat) (ms : List Message) (s : World E) (r : Status × Message)
    (t : World E) : Prop :=
  (r.1 ≠ .ok ∧ (∃ more, Fed n (ms ++ more) t.obj) ∧ consumed t.log = consumed s.log ∧
    (r.1 = .empty → t.obj.Vacant)) ∨
  ∃ rest more, ms ++ more = r.2 :: rest ∧ Fed n rest t.obj ∧
    consumed t.log = consumed s.log ++ [r.2] ∧
    (r.1 = .ok ∨ r.1 = .ioFailure ∧ t.obj.broken = true ∧ Unordered t.log)

theorem Received.later (h : Received n (ms ++ more) u r t)
    (hlog : consumed u.log = consumed s.log) : Received n ms s r t := by
  rcases h with ⟨hne, ⟨more', hfed⟩, hsame, hempty⟩ | ⟨rest, more', hms, hfed, hgrow, hend⟩
  · exact .inl ⟨hne, ⟨more ++ more', (List.append_assoc ms more more') ▸ hfed⟩,
      hsame.trans hlog, hempty⟩
  · exact .inr ⟨rest, more ++ more', (List.append_assoc ms more more') ▸ hms, hfed,
      hlog ▸ hgrow, hend⟩

theorem received_none (hs : Fed n ms s.obj) (ht : Reach (Feeds n) s h t) (hok : r.1 ≠ .ok)
    (hempty : r.1 ≠ .empty) : Received n ms s r t := by
  rcases Feeds.path ht.1 ms hs with ⟨more, hfed, hlog⟩
  exact .inl ⟨hok, ⟨more, hfed⟩, hlog, fun he => absurd he hempty⟩

variable (hio : Producer n io)

include hio

theorem calm_feeds : Allows io (Feeds n) := calm_move (move_feeds hio)

theorem readAll_fixed (is : List Nat)
    (hfix : ∀ i ∈ is, ∀ t, Reach (Feeds n) s h t → t.obj.gPort.words i = s.obj.gPort.words i) :
    Spec (Reach (Feeds n) s h) (readAll io is)
      (fun vs t => Reach (Feeds n) s h t ∧ vs = is.map s.obj.gPort.words) := by
  refine spec_post (readAll_value (calm_feeds hio) is) fun vs t ht => ⟨ht.1, ?_⟩
  have hread := ht.2
  clear ht
  induction hread with
  | nil => rfl
  | cons hfirst _ ih =>
    rcases hfirst with ⟨u, hu, rfl⟩
    rw [List.map_cons, ← ih fun i hi => hfix i (List.mem_cons_of_mem _ hi),
      hfix _ List.mem_cons_self u hu]

theorem publishHead_fed (hs : Fed n (m :: rest) s.obj) {head : Nat}
    (hhead : head = (h.gHead + 1 + m.count) % n) :
    Spec (Reach (Feeds n) s h) (publishHead io head) (fun _ t => ∃ x before more,
      t.log = x :: before ∧ x.event = .consumed head ∧ Fed n (rest ++ more) t.obj ∧
      consumed t.log = consumed s.log ++ [m]) := by
  refine spec_bind (turn_reach (calm_feeds hio)) fun _ => ?_
  intro t ht
  rcases Feeds.path ht.1 _ hs with ⟨more, hfed, hlog⟩
  rw [List.cons_append] at hfed
  refine ⟨⟨t.obj, .consumed head⟩, t.log, more, rfl, rfl, ?_, ?_⟩
  · have hnew : head = (t.obj.gPort.head + (1 + m.count)) % n := by
      rw [hhead, ← ht.2, hfed.own, Nat.add_assoc]
    refine ⟨hfed.attached, hfed.sized, hfed.ring, rfl, ?_⟩
    change Carries n (rest ++ more) { t.obj.gPort with head := head }
    rw [hnew]
    exact hfed.holds.advance
  · change consumed (⟨t.obj, .consumed head⟩ :: t.log) = _
    rw [consumed_some rfl, hlog, hfed.front]

/-- The last part of `receive`: once the head has moved the message is gone. -/
theorem finish_fed (hs : Fed n (m :: rest) s.obj) (hrun : h.Running) (hlen : m.count ≤ maxHxgWords)
    (hring : h.g2h.count = n) :
    Spec (Reach (Feeds n) s h) (finish io m) (Received n (m :: rest) s) := by
  have hR := calm_feeds hio
  have hsome : Spec (Reach (Feeds n) s h) (dispatch m) (fun st _ => st ≠ .empty) :=
    fun t _ => dispatch_ne_empty m t
  refine spec_bind (spec_and (dispatch_reach hR m hrun hlen) hsome) fun st => ?_
  refine spec_ite (fun hst => spec_pure _ fun t ht => ?_) fun hst => spec_each fun t ht => ?_
  · rcases ht with ⟨⟨h', hreach, _⟩, hempty⟩
    exact received_none hs hreach hst hempty
  rcases ht with ⟨⟨h', hreach, hgHead, hg2h, _⟩, _⟩
  refine spec_at hreach ?_
  refine spec_bind (callback_reach hR _ _ fun _ => trivial) fun ordered => ?_
  refine spec_ite (fun _ => spec_bind (fault_reach hR _) fun st => spec_pure _ fun u hu => ?_)
    fun _ => ?_
  · exact received_none hs hu.2 (hu.1 ▸ nofun) (hu.1 ▸ nofun)
  refine spec_each fun u hu => spec_bind_look_at ?_
  refine spec_at hu ?_
  refine spec_bind (publishHead_fed hio hs ?_) fun _ => spec_each fun v hv => ?_
  · rw [hu.2, hg2h, hring, hs.sized.and_eq_mod]
  rcases hv with ⟨x, before, more, hlog, hx, hfed, hgrow⟩
  refine spec_bind (R := fun ordered w => ∃ e, w = v.heard (.release ordered) e)
    (spec_ask _ _ fun w ordered e hw => ⟨e, hw ▸ rfl⟩) fun ordered => ?_
  have hgrow' : ∀ b e, consumed (v.heard (.release b) e).log = consumed s.log ++ [m] := fun b e =>
    (consumed_none rfl v.log).trans hgrow
  cases ordered with
  | true =>
    refine spec_ite (fun hno => absurd hno nofun) fun _ => spec_pure _ ?_
    rintro w ⟨e, rfl⟩
    exact .inr ⟨rest ++ more, more, rfl, hfed, hgrow' true e, .inl rfl⟩
  | false =>
    refine spec_ite (fun _ => ?_) fun hno => absurd rfl hno
    rintro w ⟨e, rfl⟩
    refine .inr ⟨rest ++ more, more, rfl,
      ⟨hfed.attached, hfed.sized, hfed.ring, hfed.own, hfed.holds⟩,
      hgrow' false e, .inr ⟨rfl, rfl, [], x, ⟨v.obj, .release false⟩, before, _, ?_, hx, rfl⟩⟩
    exact congrArg (_ :: ·) hlog

theorem readMessage_fed (hs : Fed n (m :: rest) s.obj) (hrun : s.obj.Running) :
    Spec (fun t => t = s) (readMessage io (wires (m :: rest)).length)
    (Received n (m :: rest) s) := by
  have hR := calm_feeds hio
  have hsend := hs.holds.formed m List.mem_cons_self
  have hstart : ∀ t, t = s → Reach (Feeds n) s s.obj.host t := fun t ht => ht ▸ ⟨.refl, rfl⟩
  refine spec_bind_look_at (spec_pre hstart ?_)
  refine spec_bind (readPort_value hR _) fun header => spec_each fun t ht => ?_
  -- While the head stays, so does the first message.
  have hfirst : ∀ t, Reach (Feeds n) s s.obj.host t → ∃ more, Fed n (m :: (rest ++ more)) t.obj ∧
      t.obj.gPort.head = s.obj.gPort.head := by
    intro t ht
    rcases Feeds.path ht.1 _ hs with ⟨more, hfed, _⟩
    exact ⟨more, hfed, by rw [← hfed.own, ht.2, hs.own]⟩
  have hheader : header = ctHeader m := by
    rcases hfirst t ht.1 with ⟨more, hfed, _⟩
    rw [ht.2, hfed.own, hfed.holds.header]
  have hcount := ctHeader_count hsend.1
  refine spec_ite (fun hbad => ?_) fun _ => ?_
  · exfalso
    rcases hbad with h | h | h <;> rw [hheader] at h
    · exact h (ctHeader_low hsend.1)
    · rw [hcount] at h
      exact absurd h (Nat.ne_of_gt hsend.1.1)
    · rw [hcount, wires_cons, List.length_append, wire_length] at h
      omega
  have hwords : ∀ i ∈ (List.range (header &&& 255)).map (fun i =>
      (s.obj.gHead + 1 + i) &&& (s.obj.g2h.count - 1)), ∀ t,
      Reach (Feeds n) s s.obj.host t → t.obj.gPort.words i = s.obj.gPort.words i := by
    intro j hj t ht
    rcases List.mem_map.mp hj with ⟨i, hi, rfl⟩
    rw [hheader, hcount] at hi
    have hi := List.mem_range.mp hi
    rcases hfirst t ht with ⟨more, hfed, hhead⟩
    rw [hs.ring, hs.sized.and_eq_mod, hs.own, hs.holds.body hi, ← hhead, hfed.holds.body hi]
  refine spec_bind (spec_at ht.1
    (readAll_fixed hio _ hwords)) fun hxg => spec_given fun hread => ?_
  have hm : (⟨(header >>> 16) % 2 ^ 16, hxg⟩ : Message) = m := by
    have hbody : ((List.range m.count).map fun i =>
        (s.obj.gHead + 1 + i) &&& (s.obj.g2h.count - 1)).map s.obj.gPort.words = m.hxg := by
      rw [List.map_map, ← hs.holds.hxg_eq]
      refine List.map_congr_left fun i _ => ?_
      rw [Function.comp_apply, hs.ring, hs.sized.and_eq_mod, hs.own]
    rw [hread, hheader, hcount, ctHeader_fence hsend.1, Nat.mod_eq_of_lt hsend.2, hbody]
  rw [hm]
  exact finish_fed hio hs hrun hsend.1.2 hs.ring

omit hio in
theorem available_eq {l : Link} (h : Fed n ms l) :
    sub32 l.gPort.tail l.gHead &&& (l.g2h.count - 1) = (wires ms).length := by
  have hroom := h.holds.room
  have hhead := h.holds.head
  have hle : n ≤ 2 ^ 32 := Nat.le_of_dvd (by decide) h.sized.dvd
  have hmod := sub32_modEq h.sized (a := l.gPort.tail) (b := l.gPort.head) (by omega)
  rw [h.own, h.ring, h.sized.and_eq_mod]
  rw [h.holds.tail] at hmod ⊢
  have hlen : sub32 ((l.gPort.head + (wires ms).length) % n) l.gPort.head + l.gPort.head ≡
      (wires ms).length + l.gPort.head [MOD n] := by
    rw [Nat.add_comm (wires ms).length]
    exact hmod.trans (Nat.mod_modEq _ n)
  have hlen : sub32 _ l.gPort.head % n = (wires ms).length % n := Nat.ModEq.add_right_cancel' _ hlen
  rw [hlen, Nat.mod_eq_of_lt hroom]

theorem receive_fed (hs : Fed n ms s.obj) (epoch now : Nat) :
    Spec (fun t => t = s) (receive io epoch now) (Received n ms s) := by
  refine spec_pre (fun t ht => (ht ▸ ⟨.refl, rfl⟩ : Reach (Feeds n) s s.obj.host t))
    (receiveBy_spec (calm_feeds hio) epoch now
      (fun st h' t ht hok hempty _ => received_none hs ht hok hempty) fun u e hu _ => ?_)
  rcases Feeds.path hu.reach.1 ms hs with ⟨more, hfed, hlog⟩
  have hsame : consumed (u.heard (.acquire true) e).log = consumed s.log :=
    (consumed_none rfl u.log).trans hlog
  rw [Link.available, available_eq hfed]
  refine ⟨fun hzero => ?_, fun hpos => ?_⟩
  · -- The tail that was read is the head, so there was nothing.
    have hvacant : u.obj.Vacant := by
      change u.obj.gPort.tail = u.obj.gHead
      rw [hfed.own, hfed.holds.tail, hzero]
      exact Nat.mod_eq_of_lt hfed.holds.head
    exact .inl ⟨nofun, ⟨more, hfed⟩, hsame, fun _ => hvacant⟩
  · cases hms : ms ++ more with
    | nil =>
      rw [hms] at hpos
      exact absurd rfl hpos
    | cons m rest =>
      rw [hms] at hfed
      refine spec_post (readMessage_fed hio (s := u.heard (.acquire true) e) hfed
        (hu.reach.2.symm ▸ hu.running)) fun r w hw => ?_
      have hw' : Received n (ms ++ more) (u.heard (.acquire true) e) r w := hms.symm ▸ hw
      exact hw'.later hsame

end Receiving

section Waiting

variable {n head : Nat} {io : Ops E} {s t : World E}

/-- Nothing is read before the ring is attached. -/
def Waiting (n head : Nat) (s : World E) : Prop :=
  (∃ ms, Unfed n head ms s.obj) ∧ consumed s.log = []

theorem Waiting.attached (h : Waiting n head s) : s.obj.attached = false :=
  h.1.choose_spec.attached

variable (hio : Producer n io)

include hio

theorem waiting_steady : Steady io (Waiting n head) := by
  rintro s t hcalm ⟨⟨ms, hs⟩, hlog⟩
  have hapart := calm_apart hcalm fun hrun => absurd (hs.attached.symm.trans hrun.1) nofun
  rcases hapart.unfed hio hs with ⟨more, hmore⟩
  exact ⟨⟨ms ++ more, hmore⟩, hapart.log.trans hlog⟩

theorem receive_waiting (epoch now : Nat) :
    Spec (Waiting n head) (receive io epoch now)
      (fun r t => Waiting n head t ∧ r.1 ≠ .ok ∧ r.1 ≠ .empty) := by
  have hP : Steady io (Waiting n head) := waiting_steady hio
  refine spec_bind spec_look fun l => spec_pre (fun t ht => ht.1) ?_
  refine spec_guard (fun t ht => ⟨ht, nofun, nofun⟩) ?_
  refine spec_bind (steady_spec hP fun s => ?_) fun st => ?_
  · have hreach := expire_reach (calm_self io) now s ⟨.refl, rfl⟩
    dsimp only at hreach
    split at hreach <;> exact ⟨_, hreach⟩
  refine spec_guard (fun t ht => ⟨ht, nofun, nofun⟩) ?_
  refine spec_bind (checkDescriptors_steady hP) fun st => ?_
  refine spec_ite (fun hst => spec_pure _ fun t ht => ⟨ht.1, hst, ht.2.2⟩) fun hst => ?_
  intro t ht
  exact absurd (ht.1.attached.symm.trans (ht.2.1 (not_not.mp hst))) nofun

theorem attach_waiting {g : Ring} (hg : g.count = n) (r : Ring) (complete : Bool) (epoch : Nat)
    (f : MellowXe.FirmwareInfo) :
    Spec (Waiting n head) (attach io r g complete epoch f) (fun _ t =>
      Waiting n head t ∨ (∃ ms, Fed n ms t.obj) ∧ consumed t.log = []) := by
  refine attach_steady (waiting_steady hio) complete f ?_
  rintro t ⟨⟨ms, hms⟩, hlog⟩ hvalid _ _ ⟨u, ⟨⟨_, hu⟩, _⟩, hzero⟩
  rw [hu.head] at hzero
  refine ⟨⟨ms, rfl, hg ▸ ringValid_sized hvalid.2.1, hg, ?_, hms.holds⟩, hlog⟩
  exact hms.own.trans (hzero.symm.trans hms.head.symm)

end Waiting

section Calls

variable {n : Nat} {io : Ops E} {s t : World E}

/-- The ring from the peer is in order. -/
def Inbound (n : Nat) (s : World E) : Prop :=
  (∃ head, Waiting n head s) ∨ ∃ ms, Fed n ms s.obj

theorem Waiting.stream {head : Nat} (h : Waiting n head s) : XeGuC.stream s = [] := by
  rcases h with ⟨⟨ms, hms⟩, hlog⟩
  rw [XeGuC.stream, hlog, hms.unread]
  rfl

/-- The calls of others, who do not read. -/
def Call.Fits (n : Nat) : Call → Prop
  | .attach _ g _ _ _ => g.count = n
  | .receive _ _ => False
  | _ => True

/-- What one `receive` consumes, against its answer. -/
def Takes (s : World E) (r : Status × Message) (t : World E) : Prop :=
  (r.1 ≠ .ok ∧ consumed t.log = consumed s.log ∧ (r.1 = .empty → t.obj.Vacant)) ∨
    (consumed t.log = consumed s.log ++ [r.2] ∧
      (r.1 = .ok ∨ r.1 = .ioFailure ∧ t.obj.broken = true ∧ Unordered t.log))

variable (hio : Producer n io)

include hio

/-- Every `receive` takes the next message of the stream, or none. -/
theorem receive_takes (h : Inbound n s) (epoch now : Nat) :
    Inbound n (receive io epoch now s).2 ∧ stream s <+: stream (receive io epoch now s).2 ∧
      Takes s (receive io epoch now s).1 (receive io epoch now s).2 := by
  rcases h with ⟨head, h⟩ | ⟨ms, h⟩
  · rcases receive_waiting hio epoch now s h with ⟨ht, hok, hempty⟩
    refine ⟨.inl ⟨head, ht⟩, ?_, .inl ⟨hok, ht.2.trans h.2.symm, fun he => absurd he hempty⟩⟩
    rw [h.stream]
    exact ⟨_, rfl⟩
  · rcases receive_fed hio h epoch now s rfl with
      ⟨hne, ⟨more, ht⟩, hlog, hempty⟩ | ⟨rest, more, hms, ht, hlog, hend⟩
    · refine ⟨.inr ⟨_, ht⟩, ⟨more, ?_⟩, .inl ⟨hne, hlog, hempty⟩⟩
      rw [stream, stream, hlog, h.unread, ht.unread, List.append_assoc]
    · refine ⟨.inr ⟨_, ht⟩, ⟨more, ?_⟩, .inr ⟨hlog, hend⟩⟩
      rw [stream, stream, hlog, h.unread, ht.unread, List.append_assoc, List.append_assoc, hms]
      rfl

/-- Once attached, only `receive` moves the head. -/
theorem step_feeds {c : Call} (hc : ∀ epoch now, c ≠ .receive epoch now) :
    Feeds n s (step io c s).2 := by
  have hR := move_feeds hio
  have hstart : Reach (Feeds n) s s.obj.host s := ⟨.refl, rfl⟩
  cases c with
  | attach r g complete epoch f =>
    rcases attach_reach hR r g complete epoch f s hstart with ⟨_, hreach⟩
    exact Feeds.path hreach.1
  | send a now deadline =>
    rcases send_reach hR a now deadline s hstart with ⟨_, hreach, _⟩
    exact Feeds.path hreach.1
  | receive epoch now => exact absurd rfl (hc epoch now)
  | expire now =>
    have hreach := expire_reach (calm_move hR) now s hstart
    dsimp only at hreach
    split at hreach <;> exact Feeds.path hreach.1
  | retire cookie =>
    rcases retire_reach (calm_move hR) cookie s hstart with ⟨_, hreach⟩
    exact Feeds.path hreach.1

/-- The other calls leave what is in the ring there. -/
theorem step_inbound (h : Inbound n s) {c : Call} (hc : c.Fits n) :
    Inbound n (step io c s).2 ∧ consumed (step io c s).2.log = consumed s.log ∧
      stream s <+: stream (step io c s).2 := by
  have hwaiting : ∀ head, Waiting n head s → ∀ t : World E, Waiting n head t →
      Inbound n t ∧ consumed t.log = consumed s.log ∧ stream s <+: stream t := by
    intro head hs t ht
    refine ⟨.inl ⟨head, ht⟩, ht.2.trans hs.2.symm, ?_⟩
    rw [hs.stream]
    exact ⟨_, rfl⟩
  rcases h with ⟨head, h⟩ | ⟨ms, h⟩
  · have hP : Steady io (Waiting n head) := waiting_steady hio
    have hpath : ∀ {t}, Relation.ReflTransGen (Calm io) s t → Waiting n head t :=
      fun ht => hP.path ht h
    cases c with
    | attach r g complete epoch f =>
      rcases attach_waiting hio hc r complete epoch f s h with ht | ⟨ht, hlog⟩
      · exact hwaiting head h _ ht
      · refine ⟨.inr ht, hlog.trans h.2.symm, ?_⟩
        rw [h.stream]
        exact ⟨_, rfl⟩
    | send a now deadline =>
      exact hwaiting head h _ (send_before hP (fun _ ht => ht.attached) a now deadline s h).1
    | receive epoch now => exact hc.elim
    | expire now =>
      have hreach := expire_reach (calm_self io) now s ⟨.refl, rfl⟩
      dsimp only at hreach
      split at hreach <;> exact hwaiting head h _ (hpath hreach.1)
    | retire cookie =>
      rcases retire_reach (calm_self io) cookie s ⟨.refl, rfl⟩ with ⟨_, hreach⟩
      exact hwaiting head h _ (hpath hreach.1)
  · have hfeeds : Feeds n s (step io c s).2 := by
      refine step_feeds hio fun epoch now hreceive => ?_
      rw [hreceive] at hc
      exact hc
    rcases hfeeds ms h with ⟨more, hmore, hlog⟩
    refine ⟨.inr ⟨_, hmore⟩, hlog, more, ?_⟩
    rw [stream, stream, hlog, h.unread, hmore.unread, List.append_assoc]

end Calls

end Mellow.XeGuC
