import Mellow.Xe.GuC.Stream

/-!
# Reception, Word by Word

`receive` trusts nothing it finds in the ring. Which words a call looks at is no
part of its result, so `receiveSeen` is `receive` with a list of them beside the
answer. With a peer that leaves the words between head and tail alone, the
message in the answer is the one that stood at the head.

## Main definitions

* `receiveSeen`: `receive` and the words it looks at.
* `Respects`: a peer that leaves unread words alone.
* `Exact`: what a call answers, reads and leaves.

## Theorems

* `receive_exact`: every call is exact, for every content of the ring.
-/

namespace Mellow.XeGuC

open Lib

variable {E : Type}

section Seen

def readMessageSeen (io : Ops E) (available : Nat) : Op E ((Status × Message) × List Nat) := do
  let l ← look
  let header ← readPort io fun l => l.gPort.words l.gHead
  if HeaderBad header available then
    let r ← misread header available
    return (r, [l.gHead])
  let is := (List.range (header &&& 255)).map fun i =>
    (l.gHead + 1 + i) &&& (l.g2h.count - 1)
  let hxg ← readAll io is
  let r ← finish io ⟨(header >>> 16) % 2 ^ 16, hxg⟩
  return (r, l.gHead :: is)

def receiveSeen (io : Ops E) (epoch now : Nat) : Op E ((Status × Message) × List Nat) := do
  let l ← look
  if epoch ≠ l.epoch then return ((.staleEpoch, Message.empty), [])
  let s ← expire now
  if s ≠ .ok then return ((.invalid, Message.empty), [])
  let s ← checkDescriptors io
  if s ≠ .ok then return ((s, Message.empty), [])
  let tail ← readPort io fun l => l.gPort.tail
  let acquired ← askAcquire io
  if acquired = false then
    let s ← fault .ioFailure
    return ((s, Message.empty), [])
  let l ← look
  let available := sub32 tail l.gHead &&& (l.g2h.count - 1)
  if available = 0 then return ((.empty, Message.empty), [])
  readMessageSeen io available

/-- The two programs do the same and answer the same. -/
def Erases {α β : Type} (x : Op E α) (y : Op E (α × β)) : Prop :=
  ∀ s, x s = ((y s).1.1, (y s).2)

theorem erases_bind {α β γ : Type} (x : Op E α) {f : α → Op E β} {g : α → Op E (β × γ)}
    (h : ∀ a, Erases (f a) (g a)) : Erases (x >>= f) (x >>= g) :=
  fun s => h (x s).1 (x s).2

theorem erases_ite {α β : Type} {c : Prop} [Decidable c] {x x' : Op E α} {y y' : Op E (α × β)}
    (h : Erases x y) (h' : Erases x' y') : Erases (if c then x else x') (if c then y else y') := by
  by_cases hc : c
  · rw [if_pos hc, if_pos hc]
    exact h
  · rw [if_neg hc, if_neg hc]
    exact h'

theorem receive_seen (io : Ops E) (epoch now : Nat) :
    Erases (receive io epoch now) (receiveSeen io epoch now) := by
  refine erases_bind _ fun l => erases_ite (fun s => rfl) ?_
  refine erases_bind _ fun st => erases_ite (fun s => rfl) ?_
  refine erases_bind _ fun st => erases_ite (fun s => rfl) ?_
  refine erases_bind _ fun tail => erases_bind _ fun acquired => erases_ite (fun s => rfl) ?_
  refine erases_bind _ fun l => erases_ite (fun s => rfl) ?_
  refine erases_bind _ fun l => erases_bind _ fun header => erases_ite (fun s => rfl) ?_
  exact erases_bind _ fun hxg s => rfl

end Seen

section Keeping

variable {n : Nat} {io : Ops E} {s t u : World E} {h : Transport}

/-- The peer leaves what it has published as it is, and takes nothing back. -/
def Respects (n : Nat) (io : Ops E) : Prop :=
  ∀ e f, PeerMove.g2h f ∈ (io.peer e).1 → ∀ p : Port, (f p).head = p.head ∧
    distance n p.head p.tail ≤ distance n p.head (f p).tail ∧
    ∀ i, Occupied n p.head (distance n p.head p.tail) i → (f p).words i = p.words i

/-- What is published in the first ring is published in the second. -/
structure Extends (n : Nat) (p q : Port) : Prop where
  head : q.head = p.head
  length : distance n p.head p.tail ≤ distance n q.head q.tail
  words : ∀ i, Occupied n p.head (distance n p.head p.tail) i → q.words i = p.words i

theorem Occupied.mono {p k k' i : Nat} (h : Occupied n p k i) (hk : k ≤ k') :
    Occupied n p k' i := by
  rcases h with ⟨j, hj, rfl⟩
  exact ⟨j, by omega, rfl⟩

theorem Extends.refl (p : Port) : Extends n p p := ⟨rfl, Nat.le_refl _, fun _ _ => rfl⟩

theorem Extends.trans {p q r : Port} (h : Extends n p q) (h' : Extends n q r) : Extends n p r := by
  refine ⟨h'.head.trans h.head, Nat.le_trans h.length h'.length, fun i hi => ?_⟩
  have hmore : Occupied n q.head (distance n q.head q.tail) i := by
    have hlength := h.length
    rw [h.head] at hlength ⊢
    exact Occupied.mono hi hlength
  rw [h'.words i hmore, h.words i hi]

/-- The line is not about a word the host wrote. -/
def Event.NoWrite (ev : Event) : Prop := ∀ i v, ev ≠ .wrote i v

/-- A step without a new head. The host writes nothing there. -/
structure Keeps (n : Nat) (io : Ops E) (s t : World E) : Prop where
  attached : t.obj.attached = s.obj.attached
  ring : t.obj.g2h = s.obj.g2h
  own : t.obj.gHead = s.obj.gHead
  headless : Headless s t
  log : consumed t.log = consumed s.log
  port : Respects n io → Extends n s.obj.gPort t.obj.gPort
  unwritten : Grows Event.NoWrite s.log t.log

theorem Keeps.refl (s : World E) : Keeps n io s s :=
  ⟨rfl, rfl, rfl, rfl, rfl, fun _ => Extends.refl _, Grows.refl s.log⟩

theorem Keeps.trans (h : Keeps n io s t) (h' : Keeps n io t u) : Keeps n io s u :=
  ⟨h'.attached.trans h.attached, h'.ring.trans h.ring, h'.own.trans h.own,
    h'.headless.trans h.headless, h'.log.trans h.log,
    fun hio => (h.port hio).trans (h'.port hio), h.unwritten.trans h'.unwritten⟩

theorem Keeps.path (h : Relation.ReflTransGen (Keeps n io) s t) : Keeps n io s t := by
  induction h with
  | refl => exact Keeps.refl s
  | tail _ hstep ih => exact ih.trans hstep

/-- A calm move adds at most one line, and that is no word written. -/
theorem calm_unwritten (hcalm : Calm io s t) : Grows Event.NoWrite s.log t.log := by
  have hnone : Grows Event.NoWrite s.log s.log := Grows.refl s.log
  have hone : ∀ ev : Event, ev.NoWrite → Grows Event.NoWrite s.log (⟨s.obj, ev⟩ :: s.log) :=
    fun ev hev => Grows.line hev s.log
  cases hcalm with
  | heard ev e hev =>
    refine hone ev fun i v heq => ?_
    rw [heq] at hev
    exact hev
  | peer x _ =>
    rcases peer_log x s with heq | ⟨u, heq⟩ <;> rw [heq]
    · exact hnone
    · exact hone _ fun i v => by cases u <;> exact nofun
  | misread | refused | replied | consumed => exact hone _ nofun
  | _ => exact hnone

/-- Every step of `receive` but one keeps the head. -/
theorem calm_keeps (s t : World E) (hcalm : Calm io s t) (hless : Headless s t) :
    Keeps n io s t := by
  have hapart := calm_apart hcalm fun _ => hless
  refine ⟨hapart.attached, hapart.ring, hapart.own, hless, hapart.log, fun hio => ?_,
    calm_unwritten hcalm⟩
  rcases hapart.port with heq | ⟨e, f, hf, heq⟩ <;> rw [heq]
  · exact Extends.refl _
  · rcases hio e f hf s.obj.gPort with ⟨hhead, hlength, hwords⟩
    exact ⟨hhead, hhead.symm ▸ hlength, hwords⟩

theorem Keeps.sized (h : Keeps n io s t) (hn : s.obj.g2h.count = n) :
    t.obj.g2h.count = n :=
  (congrArg Ring.count h.ring).trans hn

end Keeping

section Words

variable {n : Nat} {io : Ops E} {s t u v : World E} {h : Transport} {m : Message}

/-- Each word of the message stood in its place at some time after `u`. -/
structure Reads (n : Nat) (io : Ops E) (u : World E) (m : Message) : Prop where
  header : ∃ v, Keeps n io u v ∧ m.fence = (v.obj.gPort.words u.obj.gHead >>> 16) % 2 ^ 16 ∧
    m.count = v.obj.gPort.words u.obj.gHead &&& 255
  body : ∀ i < m.count, ∃ v, Keeps n io u v ∧
    m.word i = v.obj.gPort.words ((u.obj.gHead + 1 + i) % n)

/-- The message that was read in pieces is the one in front. -/
theorem Reads.front (h : Reads n io u m) (hio : Respects n io) (hn : u.obj.g2h.count = n)
    (hhead : u.obj.gHead = u.obj.gPort.head) (hlt : u.obj.gHead < n)
    (hfits : m.count + 1 ≤ distance n u.obj.gHead u.obj.gPort.tail) (hv : Keeps n io u v) :
    v.obj.front = m := by
  have hsame : ∀ w, Keeps n io u w → ∀ k < m.count + 1,
      w.obj.gPort.words ((u.obj.gHead + k) % n) = v.obj.gPort.words ((u.obj.gHead + k) % n) := by
    intro w hw k hk
    have hin : Occupied n u.obj.gPort.head (distance n u.obj.gPort.head u.obj.gPort.tail)
        ((u.obj.gHead + k) % n) := ⟨k, hhead ▸ (by omega), hhead ▸ rfl⟩
    rw [(hw.port hio).words _ hin, (hv.port hio).words _ hin]
  rcases h.header with ⟨w, hw, hfence, hcount⟩
  have hfirst := hsame w hw 0 (Nat.succ_pos _)
  rw [Nat.add_zero, Nat.mod_eq_of_lt hlt] at hfirst
  rw [hfirst] at hfence hcount
  unfold Link.front
  rw [hv.own]
  dsimp only
  rw [← hfence, ← hcount, hv.sized hn]
  have hbody : (List.range m.count).map (fun i =>
      v.obj.gPort.words ((u.obj.gHead + 1 + i) % n)) = m.hxg := by
    rw [← m.map_word]
    refine List.map_congr_left fun i hi => ?_
    have hi := List.mem_range.mp hi
    rcases h.body i hi with ⟨w, hw, hword⟩
    rw [hword, Nat.add_assoc, hsame w hw (1 + i) (by omega)]
  rw [hbody]

theorem sub32_distance (hn : Sized n) {head tail : Nat} (hlt : head < n) :
    sub32 tail head &&& (n - 1) = distance n head tail := by
  have hle : n ≤ 2 ^ 32 := Nat.le_of_dvd (by decide) hn.dvd
  have hpos : 0 < n := by omega
  rw [hn.and_eq_mod, distance]
  refine Nat.ModEq.add_right_cancel' head ?_
  calc sub32 tail head + head
      ≡ tail [MOD n] := sub32_modEq hn (by omega)
    _ ≡ tail + n [MOD n] := (Nat.add_mod_right tail n).symm
    _ = tail + n - head + head := by omega

end Words

section Exactness

variable {n : Nat} {io : Ops E} {s t u v : World E} {h : Transport} {m : Message}
  {r : Status × Message}

/-- The head moves over one message, and the message is what was in front. -/
structure Advances (n : Nat) (io : Ops E) (s : World E) (m : Message)
    (t : World E) : Prop where
  formed : m.Formed
  read : ∃ u, Keeps n io s u ∧ m.count + 1 ≤ distance n s.obj.gHead u.obj.gPort.tail ∧
    Reads n io u m
  attached : s.obj.attached = true ∧ t.obj.attached = true
  ring : t.obj.g2h = s.obj.g2h
  own : t.obj.gHead = (s.obj.gHead + 1 + m.count) % n
  port : t.obj.gPort.head = t.obj.gHead
  heads : t.log.filterMap (fun x => x.event.head?) =
    t.obj.gHead :: s.log.filterMap fun x => x.event.head?
  front : Respects n io → consumed t.log = consumed s.log ++ [m]
  unwritten : Grows Event.NoWrite s.log t.log

/-- How a call ends: with the head where it was, or past one message. -/
def Ends (n : Nat) (io : Ops E) (s : World E) (r : Status × Message)
    (t : World E) : Prop :=
  (r.1 ≠ .ok ∧ Keeps n io s t) ∨
    (Advances n io s r.2 t ∧ (r.1 = .ok ∨ r.1 = .ioFailure ∧ t.obj.broken = true))

theorem Ends.later (h : Ends n io u r t) (hu : Keeps n io s u) : Ends n io s r t := by
  rcases h with ⟨hne, ht⟩ | ⟨ht, hend⟩
  · exact .inl ⟨hne, hu.trans ht⟩
  · refine .inr ⟨⟨ht.formed, ?_, hu.attached ▸ ht.attached, ht.ring.trans hu.ring, ?_, ht.port, ?_,
      fun hio => ?_, hu.unwritten.trans ht.unwritten⟩, hend⟩
    · rcases ht.read with ⟨v, hv, hfits, hread⟩
      exact ⟨v, hu.trans hv, hu.own ▸ hfits, hread⟩
    · rw [ht.own, hu.own]
    · rw [ht.heads, hu.headless]
    · rw [ht.front hio, hu.log]

theorem Advances.heard (h : Advances n io s m t) (ok : Bool) (e : E) :
    Advances n io s m (t.heard (.release ok) e) := by
  refine ⟨h.formed, h.read, h.attached, h.ring, h.own, h.port, ?_, fun hio => ?_,
    h.unwritten.trans (Grows.line nofun t.log)⟩
  · exact (headless_heard rfl e).trans h.heads
  · exact (consumed_none rfl t.log).trans (h.front hio)

theorem publishHead_advances (hatt : u.obj.attached = true) (hn : u.obj.g2h.count = n)
    (hlt : u.obj.gHead < n)
    (hhead : Respects n io → u.obj.gPort.head = u.obj.gHead) (hform : m.Formed)
    (hfits : m.count + 1 ≤ distance n u.obj.gHead u.obj.gPort.tail) (hread : Reads n io u m) :
    Spec (Reach (Keeps n io) u h) (publishHead io ((u.obj.gHead + 1 + m.count) % n))
      (fun _ => Advances n io u m) := by
  refine spec_bind (turn_reach calm_keeps) fun _ => ?_
  intro t ht
  have hkeeps := Keeps.path ht.1
  refine ⟨hform, ⟨u, Keeps.refl u, hfits, hread⟩, ⟨hatt, hkeeps.attached.trans hatt⟩,
    hkeeps.ring, rfl, rfl, ?_, fun hio => ?_, ?_⟩
  · exact congrArg (_ :: ·) hkeeps.headless
  · change consumed (⟨t.obj, .consumed _⟩ :: t.log) = _
    rw [consumed_some rfl, hkeeps.log, hread.front hio hn (hhead hio).symm hlt hfits hkeeps]
  · exact hkeeps.unwritten.trans (Grows.line nofun t.log)

theorem finish_ends (hsize : Sized n) (hn : u.obj.g2h.count = n) (hlt : u.obj.gHead < n)
    (hhead : Respects n io → u.obj.gPort.head = u.obj.gHead) (hrun : u.obj.Running)
    (hform : m.Formed) (hfits : m.count + 1 ≤ distance n u.obj.gHead u.obj.gPort.tail)
    (hread : Reads n io u m) :
    Spec (Reach (Keeps n io) u u.obj.host) (finish io m)
    (fun r t => r.2 = m ∧ Ends n io u r t) := by
  have hR : Allows io (Keeps n io) := calm_keeps
  refine spec_bind (dispatch_reach hR m hrun hform.2) fun st => ?_
  refine spec_ite (fun hst => spec_pure _ fun t ht => ?_) fun hst => spec_each fun t ht => ?_
  · rcases ht with ⟨_, hreach, _⟩
    exact ⟨rfl, .inl ⟨hst, Keeps.path hreach.1⟩⟩
  rcases ht with ⟨h', hreach, _⟩
  refine spec_at hreach ?_
  refine spec_bind (callback_reach hR _ _ fun _ => trivial) fun ordered => ?_
  refine spec_ite (fun _ => spec_bind (fault_reach hR _) fun st => spec_pure _ fun v hv => ?_)
    fun _ => ?_
  · exact ⟨rfl, .inl ⟨hv.1 ▸ nofun, Keeps.path hv.2.1⟩⟩
  refine spec_each fun v hv => spec_bind_look_at ?_
  refine spec_at hv ?_
  have hkeeps := Keeps.path hv.1
  rw [hkeeps.own, hkeeps.sized hn, hsize.and_eq_mod]
  refine spec_bind (publishHead_advances hrun.1 hn hlt hhead hform hfits hread) fun _ => ?_
  refine spec_bind (R := fun _ => Advances n io u m) (spec_ask _ _ fun w ok e hw => hw.heard ok e)
    fun ordered => ?_
  refine spec_ite (fun _ w hw => ?_) fun _ => spec_pure _ fun w hw => ⟨rfl, .inr ⟨hw, .inl rfl⟩⟩
  exact ⟨rfl, .inr ⟨⟨hw.formed, hw.read, hw.attached, hw.ring, hw.own, hw.port, hw.heads, hw.front,
    hw.unwritten⟩, .inr ⟨rfl, rfl⟩⟩⟩

/-- The guarantees for one call, given its answer and the words it looked at. -/
structure Exact (n : Nat) (io : Ops E) (s : World E) (y : (Status × Message) × List Nat)
    (t : World E) : Prop where
  ends : Ends n io s y.1 t
  short : y.1.2.count ≤ maxHxgWords
  seen : ∃ u, Keeps n io s u ∧
    ∀ i ∈ y.2, Occupied n s.obj.gHead (distance n s.obj.gHead u.obj.gPort.tail) i

variable {y : (Status × Message) × List Nat}

theorem Exact.later (h : Exact n io u y t) (hu : Keeps n io s u) : Exact n io s y t := by
  rcases h.seen with ⟨v, hv, hseen⟩
  exact ⟨h.ends.later hu, h.short, v, hu.trans hv, hu.own ▸ hseen⟩

theorem exact_none {st : Status} (hst : st ≠ .ok) (ht : Keeps n io s t) :
    Exact n io s ((st, Message.empty), []) t :=
  ⟨.inl ⟨hst, ht⟩, Nat.zero_le _, s, Keeps.refl s, fun _ hi => absurd hi List.not_mem_nil⟩

/-- Every word that is looked at lies before the tail, whatever the header is. -/
theorem readMessageSeen_exact (hsize : Sized n) (hn : u.obj.g2h.count = n)
    (hlt : u.obj.gHead < n) (hhead : Respects n io → u.obj.gPort.head = u.obj.gHead)
    (hrun : u.obj.Running) (hpos : distance n u.obj.gHead u.obj.gPort.tail ≠ 0) :
    Spec (fun t => t = u)
      (readMessageSeen io (distance n u.obj.gHead u.obj.gPort.tail)) (Exact n io u) := by
  have hR : Allows io (Keeps n io) := calm_keeps
  have hstart : ∀ t, t = u → Reach (Keeps n io) u u.obj.host t := fun t ht => ht ▸ ⟨.refl, rfl⟩
  have hzero : Occupied n u.obj.gHead (distance n u.obj.gHead u.obj.gPort.tail)
      u.obj.gHead := ⟨0, by omega, (Nat.mod_eq_of_lt hlt).symm⟩
  refine spec_bind_look_at (spec_pre hstart ?_)
  refine spec_bind (readPort_value hR _) fun header => spec_each fun t ht => ?_
  have hword : header = t.obj.gPort.words u.obj.gHead := by rw [ht.2, ht.1.2]
  refine spec_at ht.1 ?_
  refine spec_ite (fun _ => ?_) fun hgood => ?_
  · have hmisread : Spec (Reach (Keeps n io) u u.obj.host)
        (misread header (distance n u.obj.gHead u.obj.gPort.tail)) (fun r v =>
          r = (.corrupt, Message.empty) ∧
            Reach (Keeps n io) u { u.obj.host with broken := true } v) :=
      fun v hv => ⟨rfl, (misread_reach hR header _ hrun v hv).1⟩
    refine spec_bind hmisread fun r => spec_pure _ fun v hv => ?_
    rcases hv with ⟨rfl, hv⟩
    refine ⟨.inl ⟨nofun, Keeps.path hv.1⟩, Nat.zero_le _, u, Keeps.refl u, fun i hi => ?_⟩
    rw [List.mem_singleton.mp hi]
    exact hzero
  simp only [HeaderBad, not_or, not_not, not_lt] at hgood
  rcases hgood with ⟨_, hcount, hfits⟩
  refine spec_bind (readAll_value hR _) fun hxg => spec_given fun hread => ?_
  have hlen : hxg.length = header &&& 255 := by
    rw [← hread.length_eq, List.length_map, List.length_range]
  have hreads : Reads n io u ⟨(header >>> 16) % 2 ^ 16, hxg⟩ := by
    refine ⟨⟨t, Keeps.path ht.1.1, by rw [hword], by rw [← hword]; exact hlen⟩, fun i hi => ?_⟩
    have hi' : i < header &&& 255 := hlen ▸ hi
    rcases hread.get (i := i) (by rw [List.length_map, List.length_range]; exact hi') hi with
      ⟨v, hv, hval⟩
    refine ⟨v, Keeps.path hv.1, ?_⟩
    rw [List.get_eq_getElem, List.get_eq_getElem, List.getElem_map, List.getElem_range, hn,
      hsize.and_eq_mod] at hval
    change hxg.getD i 0 = _
    rw [List.getD_eq_getElem?_getD, List.getElem?_eq_getElem hi, ← hval]
    rfl
  have hform : Message.Formed ⟨(header >>> 16) % 2 ^ 16, hxg⟩ := by
    change 0 < hxg.length ∧ hxg.length ≤ 255
    rw [hlen]
    exact ⟨Nat.pos_of_ne_zero hcount, Nat.and_le_right⟩
  have hfits' : Message.count ⟨(header >>> 16) % 2 ^ 16, hxg⟩ + 1 ≤
      distance n u.obj.gHead u.obj.gPort.tail := by
    change hxg.length + 1 ≤ _
    rw [hlen]
    exact hfits
  refine spec_bind (finish_ends hsize hn hlt hhead hrun hform hfits' hreads) fun r =>
    spec_pure _ fun v hv => ⟨hv.2, hv.1 ▸ hform.2, u, Keeps.refl u, fun i hi => ?_⟩
  rcases List.mem_cons.mp hi with rfl | hi
  · exact hzero
  · rcases List.mem_map.mp hi with ⟨k, hk, rfl⟩
    have hk := List.mem_range.mp hk
    exact ⟨1 + k, by omega, by rw [hn, hsize.and_eq_mod, Nat.add_assoc]⟩

def Sound (s : World E) : Prop :=
  if s.obj.attached = true then
    Sized s.obj.g2h.count ∧ s.obj.gHead < s.obj.g2h.count
  else s.obj.gHead = 0

theorem receiveSeen_exact (hs : Sound s) (epoch now : Nat) :
    Spec (fun t => t = s) (receiveSeen io epoch now) (Exact s.obj.g2h.count io s) := by
  refine spec_pre
    (fun t ht => (ht ▸ ⟨.refl, rfl⟩ : Reach (Keeps s.obj.g2h.count io) s s.obj.host t))
    (receiveBy_spec calm_keeps epoch now (Q := Exact s.obj.g2h.count io s)
      (fun st h' t ht hok _ _ => exact_none hok (Keeps.path ht.1)) fun u e hu hheard => ?_)
  have hkeeps := Keeps.path hu.reach.1
  have hatt : s.obj.attached = true := hu.running.1
  rw [Sound, if_pos hatt] at hs
  have hlt : u.obj.gHead < s.obj.g2h.count := hkeeps.own ▸ hs.2
  rw [Link.available, hkeeps.sized rfl, sub32_distance hs.1 hlt]
  refine ⟨fun _ => exact_none (by decide) (Keeps.path hheard.1), fun hpos => ?_⟩
  -- Where the peer respects the ring, the head is where the checks saw it.
  have hhead : Respects s.obj.g2h.count io → u.obj.gPort.head = u.obj.gHead := by
    intro hio
    rcases hu.agreed with ⟨w, hw, hwhead⟩
    rw [(hkeeps.port hio).head, ← ((Keeps.path hw.1).port hio).head, hwhead, hkeeps.own]
    rfl
  refine spec_post (readMessageSeen_exact (u := u.heard (.acquire true) e) hs.1
    (hkeeps.sized rfl) hlt hhead (hu.reach.2.symm ▸ hu.running) hpos) fun y w hy => ?_
  exact hy.later (Keeps.path hheard.1)

end Exactness

section Runs

variable {n : Nat} {io : Ops E} {s t : World E}

def delivered (answers : List Answer) : List Message :=
  answers.filterMap fun
    | .received .ok m => some m
    | _ => none

theorem delivered_ok (m : Message) : delivered [.received .ok m] = [m] := rfl

theorem delivered_ne {st : Status} (h : st ≠ .ok) (m : Message) :
    delivered [.received st m] = [] := by
  cases st <;> first | rfl | exact absurd rfl h

/-- What is given out is consumed; a message that is lost breaks the object. -/
theorem step_taken (hio : Producer n io) {ms : List Message} (h : Fed n ms s.obj) (c : Call) :
    (∃ ms', Fed n ms' (step io c s).2.obj) ∧ stream s <+: stream (step io c s).2 ∧
      (consumed (step io c s).2.log = consumed s.log ++ delivered [(step io c s).1] ∨
        ∃ m, delivered [(step io c s).1] = [] ∧
          consumed (step io c s).2.log = consumed s.log ++ [m] ∧
          (step io c s).2.obj.broken = true) := by
  by_cases hc : ∃ epoch now, c = .receive epoch now
  · rcases hc with ⟨epoch, now, rfl⟩
    have hstream := (receive_takes hio (.inr ⟨ms, h⟩) epoch now).2.1
    rcases receive_fed hio h epoch now s rfl with
      ⟨hne, ⟨more, ht⟩, hlog, _⟩ | ⟨rest, more, hms, ht, hlog, hend⟩
    · refine ⟨⟨_, ht⟩, hstream, .inl ?_⟩
      change consumed (receive io epoch now s).2.log = _ ++ delivered [.received _ _]
      rw [delivered_ne hne, List.append_nil, hlog]
    · refine ⟨⟨_, ht⟩, hstream, ?_⟩
      change consumed (receive io epoch now s).2.log = _ ++ delivered [.received _ _] ∨
        ∃ m, delivered [.received _ _] = [] ∧ _
      rcases hend with hok | ⟨hfail, hbroken, _⟩
      · rw [hok, delivered_ok]
        exact .inl hlog
      · exact .inr ⟨_, delivered_ne (hfail ▸ nofun) _, hlog, hbroken⟩
  · rcases step_feeds hio (fun epoch now hreceive => hc ⟨epoch, now, hreceive⟩) ms h with
      ⟨more, ht, hlog⟩
    refine ⟨⟨_, ht⟩, ⟨more, ?_⟩, .inl ?_⟩
    · rw [stream, stream, hlog, h.unread, ht.unread, List.append_assoc]
    · have hnone : delivered [(step io c s).1] = [] := by
        cases c with
        | receive epoch now => exact absurd ⟨epoch, now, rfl⟩ hc
        | _ => rfl
      rw [hnone, List.append_nil, hlog]

/-- The messages given out so far, against those consumed. -/
structure Tally (n : Nat) (s₀ : World E) (given : List Message) (s : World E) :
    Prop where
  fed : ∃ ms, Fed n ms s.obj
  grown : stream s₀ <+: stream s
  taken : ∃ lost, consumed s.log = consumed s₀.log ++ given ++ lost ∧
    (lost = [] ∨ (∃ m, lost = [m]) ∧ s.obj.broken = true)

theorem step_tally (hio : Producer n io) {s₀ : World E} {given : List Message}
    (h : Tally n s₀ given s) (c : Call) :
    Tally n s₀ (given ++ delivered [(step io c s).1]) (step io c s).2 := by
  rcases h.fed with ⟨ms, hms⟩
  rcases step_taken hio hms c with ⟨hfed, hgrown, htaken⟩
  refine ⟨hfed, h.grown.trans hgrown, ?_⟩
  rcases h.taken with ⟨lost, hall, rfl | ⟨⟨m, rfl⟩, hbroken⟩⟩
  · rw [List.append_nil] at hall
    rcases htaken with hsame | ⟨m, hnone, hmore, hbroken⟩
    · simp [*]
    · simp [*]
  · -- Nothing is consumed after the loss, so nothing is given out either.
    have hstuck : Stuck s (step io c s).2 := moves_stuck (step_moves c s) hbroken
    have hsame := consumed_stuck hstuck
    have hnone : delivered [(step io c s).1] = [] := by
      rcases htaken with hgiven | ⟨_, hnone, _⟩
      · rw [hsame] at hgiven
        exact List.self_eq_append_right.mp hgiven
      · exact hnone
    refine ⟨[m], ?_, .inr ⟨⟨m, rfl⟩, hstuck.broken⟩⟩
    rw [hsame, hall, hnone, List.append_nil]

theorem run_tally (hio : Producer n io) {s₀ : World E} (calls : List Call) :
    ∀ (s : World E) (given : List Message), Tally n s₀ given s →
      Tally n s₀ (given ++ delivered (run io calls s).1) (run io calls s).2 := by
  induction calls with
  | nil =>
    intro s given h
    change Tally n s₀ (given ++ []) s
    rw [List.append_nil]
    exact h
  | cons c calls ih =>
    intro s given h
    have hrest := ih _ _ (step_tally hio h c)
    rw [List.append_assoc, delivered, delivered, ← List.filterMap_append] at hrest
    exact hrest

/-- The messages given out are those the peer put in, in this order. -/
theorem run_receives (hio : Producer n io) {ms : List Message} (h : Fed n ms s.obj)
    (calls : List Call) : ∃ lost more,
      delivered (run io calls s).1 ++ lost ++ (run io calls s).2.obj.unread = ms ++ more ∧
      (lost = [] ∨ (∃ m, lost = [m]) ∧ (run io calls s).2.obj.broken = true) := by
  have hstart : Tally n s [] s := ⟨⟨ms, h⟩, ⟨[], List.append_nil _⟩, [], by
    rw [List.append_nil, List.append_nil], .inl rfl⟩
  rcases run_tally hio calls s [] hstart with ⟨_, ⟨more, hgrown⟩, lost, htaken, hlost⟩
  refine ⟨lost, more, ?_, hlost⟩
  rw [stream, stream, htaken, h.unread, List.nil_append, List.append_assoc, List.append_assoc,
    List.append_assoc] at hgrown
  rw [List.append_assoc]
  exact (List.append_cancel_left hgrown).symm

/-- For every content of the ring and every peer, a call of `receive` looks at
    nothing but what is published and moves the head over a message or not at
    all. Over a peer that puts messages in, the calls give out these messages. -/
theorem receive_exact (io : Ops E) (s : World E) (hs : Sound s) (epoch now : Nat) :
    receive io epoch now s =
        ((receiveSeen io epoch now s).1.1, (receiveSeen io epoch now s).2) ∧
      Exact s.obj.g2h.count io s (receiveSeen io epoch now s).1 (receiveSeen io epoch now s).2 ∧
      ∀ n ms, Producer n io → Fed n ms s.obj → ∀ calls, ∃ lost more,
        delivered (run io calls s).1 ++ lost ++ (run io calls s).2.obj.unread = ms ++ more ∧
        (lost = [] ∨ (∃ m, lost = [m]) ∧ (run io calls s).2.obj.broken = true) :=
  ⟨receive_seen io epoch now s, receiveSeen_exact hs epoch now s rfl,
    fun _ _ hio h calls => run_receives hio h calls⟩

def wrapped : World Unit where
  obj := { host := { Transport.fresh with h2g := ⟨0, 0, 1024⟩, g2h := ⟨0, 0, 1024⟩, epoch := 1,
                                          gHead := 1022, attached := true }
           hPort := Port.blank
           gPort := ⟨1022, 2, 0, fun i =>
             if i = 1022 then 0x00070003 else if i = 1023 then 0x90001234 else 5 + i⟩ }
  env := ()
  log := []

theorem receive_exact_wrapped : (receive eager 1 0 wrapped).1 = (.ok, ⟨7, [0x90001234, 5, 6]⟩) ∧
    Exact 1024 eager wrapped (receiveSeen eager 1 0 wrapped).1 (receiveSeen eager 1 0 wrapped).2 :=
  ⟨by decide,
    (receive_exact eager wrapped ⟨⟨by decide, 10, by decide, rfl⟩, by decide⟩ 1 0).2.1⟩

end Runs

end Mellow.XeGuC
