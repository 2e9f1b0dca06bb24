import Mellow.Lib.Slots
import Mellow.Xe.Ggtt.Paths

/-!
# No Stale Entries

An entry must not outlive its backing, whatever the callbacks answer: a write
may report failure and still land, and any operation may be left half done. A
slot that is touched and not cleared answers for its range. Slots in use are
disjoint, so one handed back with nothing touched, or everything cleared, owns
no entry that is set.

The rules are about the moment a line is written, so they are stated of the
manager and the table that the line carries.

## Main definitions

* `Tracked`: an entry that may be live lies in a slot that answers for it.
* `Balanced`: every retain is matched by a release or by a slot that holds.
* `Rule`: what each line owes to those before it.

## Theorems

* `move_inv`: the moves keep both.
* `run_noStale`: no reachable state has a stale entry.
* `run_shares`: backing is retained as often as it is held and released.
-/

namespace Mellow.Ggtt

open Lib Function

variable {E : Type}

section Rules

def Range.Has (r : Range) (a : Nat) : Prop := r.address ≤ a ∧ a < r.address + r.bytes

def Wrote (a : Nat) (log : Log) : Prop := ∃ e ∈ log, e.event.Writes a

def Invalidated (a : Nat) (log : Log) : Prop :=
  ∃ newer e older, log = newer ++ e :: older ∧ e.event.Flush ∧ ∀ n ∈ newer, ¬ n.event.Writes a

def retains (owner epoch : Nat) (b : Backing) (log : Log) : Nat :=
  log.countP fun e => e.event = .call (.retainBacking owner epoch b) true

def releases (owner epoch : Nat) (b : Backing) (log : Log) : Nat :=
  log.countP fun e => e.event = .call (.releaseBacking owner epoch b) true

/-- An entry that is set lies in a slot whose backing is retained. -/
def Covered (hw : Hw) (log : Log) : Prop :=
  ∀ a, Wrote a log → hw.pte a ≠ 0 → ∃ i, (hw.slots i).state ≠ .free ∧
    (hw.slots i).range.Has a ∧ (hw.slots i).held = true ∧
    releases (hw.slots i).owner hw.epoch (hw.slots i).backing log
      < retains (hw.slots i).owner hw.epoch (hw.slots i).backing log

/-- No users, and every entry ever written is zero and invalidated since. -/
def Clean (hw : Hw) (log : Log) (i : Fin maxMappings) : Prop :=
  (hw.slots i).users = 0 ∧
    ∀ a, (hw.slots i).range.Has a → Wrote a log → hw.pte a = 0 ∧ Invalidated a log

/-- What must hold when a line is logged. -/
structure Rule (e : Entry Hw Event) (before : Log) : Prop where
  writes : ∀ a, e.event.Writes a →
    ∃ i, (e.obj.slots i).state ≠ .free ∧ (e.obj.slots i).range.Has a
  freed : ∀ i, e.event = .freed i → Clean e.obj before i
  released : ∀ owner epoch b, e.event = .call (.releaseBacking owner epoch b) true →
    ∃ i, (e.obj.slots i).held = true ∧ (e.obj.slots i).owner = owner ∧
      (e.obj.slots i).backing = b ∧ Clean e.obj before i
  covered : Covered e.obj before

/-- The manager has left no stale entry, now or at any earlier callback. -/
structure NoStale (s : World E) : Prop where
  rules : Chron Rule s.log
  covered : Covered s.obj s.log
  closed : s.obj.closed = true → ∀ a, Wrote a s.log → s.obj.pte a = 0

/-- A slot in use is still so, or was handed back in between. -/
def Accounted (s t : World E) : Prop :=
  ∃ recent, t.log = recent ++ s.log ∧ ∀ i, (s.obj.slots i).state ≠ .free →
    ((t.obj.slots i).state ≠ .free ∧
      (t.obj.slots i).generation = (s.obj.slots i).generation) ∨
    ∃ e ∈ recent, e.event = .freed i ∧
      (e.obj.slots i).generation = (s.obj.slots i).generation

end Rules

section Log

variable {a : Nat} {log : Log}

theorem wrote_cons {e : Entry Hw Event} : Wrote a (e :: log) ↔ e.event.Writes a ∨ Wrote a log := by
  simp only [Wrote, List.mem_cons, exists_eq_or_imp]

/-- A written address that is flushed was invalidated after its last write. -/
theorem invalidated_of_flushed (hw : Wrote a log) (hf : Flushed a log) : Invalidated a log := by
  induction log with
  | nil =>
    rcases hw with ⟨e, he, _⟩
    cases he
  | cons e before ih =>
    rcases hf with hf | ⟨hquiet, hf⟩
    · exact ⟨[], e, before, rfl, hf, fun n hn => absurd hn List.not_mem_nil⟩
    · have hw := (wrote_cons.mp hw).resolve_left hquiet
      rcases ih hw hf with ⟨newer, f, older, rfl, hflush, hnew⟩
      refine ⟨e :: newer, f, older, rfl, hflush, fun n hn => ?_⟩
      rcases List.mem_cons.mp hn with rfl | hn
      · exact hquiet
      · exact hnew n hn

end Log

section Tracking

variable {a : Nat} {x : Slot} {i : Fin maxMappings} {s : World E}

/-- The address is one of those the slot may have written and not yet
    cleared. -/
def Slot.Up (x : Slot) (a : Nat) : Prop :=
  x.touched = true ∧ x.cleared = false ∧ x.range.Has a

def Apart (slots : Fin maxMappings → Slot) : Prop :=
  ∀ i j, (slots i).state ≠ .free → (slots j).state ≠ .free → i ≠ j →
    ¬ (slots i).range.Overlap (slots j).range

/-- The flags of the slots account for the hardware table. -/
structure Tracked (s : World E) : Prop where
  aligned : ∀ a, Wrote a s.log → a % pageSize = 0
  dirty : ∀ a, Wrote a s.log → s.obj.pte a ≠ 0 → ∃ i, (s.obj.slots i).Up a
  unflushed : ∀ a, Flushed a s.log ∨ ∃ i, (s.obj.slots i).Up a

theorem overlap_of_has {r t : Range} (hr : r.Has a) (ht : t.Has a) : r.Overlap t :=
  ⟨Nat.lt_of_le_of_lt hr.1 ht.2, Nat.lt_of_le_of_lt ht.1 hr.2⟩

theorem up_live (hw : x.Wf) (h : x.Up a) : x.state ≠ .free := by
  intro hfree
  rw [hw.free hfree] at h
  exact absurd h.1 (by decide)

theorem up_update {slots : Fin maxMappings → Slot}
    (hx : (slots i).Up a → x.Up a) (h : ∃ j, (slots j).Up a) :
    ∃ j, (update slots i x j).Up a := by
  rcases h with ⟨j, hj⟩
  refine ⟨j, ?_⟩
  by_cases hji : j = i
  · subst hji
    rw [update_self]
    exact hx hj
  · rw [update_of_ne hji]
    exact hj

theorem tracked_heard (ev : Event) (e : E) (hev : ∀ a, ¬ ev.Writes a)
    (h : Tracked s) : Tracked (s.heard ev e) where
  aligned a ha := h.aligned a ((wrote_cons.mp ha).resolve_left (hev a))
  dirty a ha := h.dirty a ((wrote_cons.mp ha).resolve_left (hev a))
  unflushed a := (h.unflushed a).imp_left (fun hf => Or.inr ⟨hev a, hf⟩)

/-- The table stays tracked when no address is lost from sight. -/
theorem tracked_setSlot
    (hx : ∀ a, (s.obj.slots i).Up a → x.Up a) (h : Tracked s) :
    Tracked (s.put (s.obj.setSlot i x)) where
  aligned := h.aligned
  dirty a ha hne := up_update (hx a) (h.dirty a ha hne)
  unflushed a := (h.unflushed a).imp_right (up_update (hx a))

/-- The entries of a slot are the page addresses of its range. -/
theorem has_entry (hw : x.Wf) (hheld : x.held = true) (hlive : x.state ≠ .free)
    {page : Nat} (hpage : page < x.backing.pageCount) :
    x.range.Has (x.entry page) ∧ x.entry page % pageSize = 0 := by
  rcases hw.placed hlive with ⟨_, haddr, _, _, _⟩
  rw [hw.covers hheld] at hpage
  simp only [pageSize] at hpage haddr
  simp only [Range.Has, Slot.entry, pageSize]
  omega

theorem entry_of_has (hw : x.Wf) (hheld : x.held = true) (hlive : x.state ≠ .free)
    (ha : x.range.Has a) (halign : a % pageSize = 0) :
    ∃ page < x.backing.pageCount, x.entry page = a := by
  rcases hw.placed hlive with ⟨_, haddr, hbytes, _, _⟩
  rw [hw.covers hheld]
  refine ⟨(a - x.range.address) / pageSize, ?_, ?_⟩
  · simp only [Range.Has] at ha
    simp only [pageSize] at haddr hbytes halign ⊢
    omega
  · simp only [Range.Has] at ha
    simp only [Slot.entry, pageSize] at haddr halign ⊢
    omega

theorem tracked_write {page : Nat}
    (hw : (s.obj.slots i).Wf) (hq : (s.obj.slots i).state = .quarantined)
    (htouch : (s.obj.slots i).touched = true) (hclear : (s.obj.slots i).cleared = false)
    (hpage : page < (s.obj.slots i).backing.pageCount) (pte : Nat) (landed ok : Bool) (e : E)
    (h : Tracked s) : Tracked (stored s landed ok ((s.obj.slots i).entry page) pte e) := by
  have hlive : (s.obj.slots i).state ≠ .free := by rw [hq]; decide
  rcases has_entry hw (hw.touched htouch) hlive hpage with ⟨hhas, halign⟩
  have hwrote : ∀ a, Wrote a (stored s landed ok ((s.obj.slots i).entry page) pte e).log ↔
      (s.obj.slots i).entry page = a ∨ Wrote a s.log := fun a => wrote_cons
  refine { aligned := fun a ha => ?_, dirty := fun a ha hne => ?_, unflushed := fun a => ?_ }
  · rcases (hwrote a).mp ha with rfl | ha
    · exact halign
    · exact h.aligned a ha
  · rw [stored_mgr]
    rcases (hwrote a).mp ha with rfl | ha
    · exact ⟨i, htouch, hclear, hhas⟩
    · by_cases hsame : (s.obj.slots i).entry page = a
      · exact ⟨i, htouch, hclear, hsame ▸ hhas⟩
      · refine h.dirty a ha (fun hz => hne ?_)
        cases landed with
        | false => exact hz
        | true => exact (update_of_ne (Ne.symm hsame) _ _).trans hz
  · rw [stored_mgr]
    by_cases hsame : (s.obj.slots i).entry page = a
    · exact Or.inr ⟨i, htouch, hclear, hsame ▸ hhas⟩
    · exact (h.unflushed a).imp_left (fun hf => Or.inr ⟨hsame, hf⟩)

/-- Once its entries read zero and are flushed, a slot may be marked cleared. -/
theorem tracked_clear
    (hw : (s.obj.slots i).Wf) (htouch : (s.obj.slots i).touched = true)
    (hzero : ∀ page < (s.obj.slots i).backing.pageCount,
      s.obj.pte ((s.obj.slots i).entry page) = 0)
    (hflush : ∀ a, Flushed a s.log) (h : Tracked s) :
    Tracked (s.put (s.obj.setSlot i { s.obj.slots i with cleared := true })) where
  aligned := h.aligned
  dirty a ha hne := by
    rcases h.dirty a ha hne with ⟨j, hj⟩
    by_cases hji : j = i
    · -- The slot's own entries are zero, so none of them is dirty.
      subst hji
      rcases entry_of_has hw (hw.touched htouch) (up_live hw hj) hj.2.2 (h.aligned a ha)
        with ⟨page, hpage, rfl⟩
      exact absurd (hzero page hpage) hne
    · refine ⟨j, ?_⟩
      rw [show (s.put (s.obj.setSlot i { s.obj.slots i with cleared := true })).obj.slots j
        = s.obj.slots j from update_of_ne hji _ _]
      exact hj
  unflushed a := Or.inl (hflush a)

theorem clean_of_tracked (hw : Wf s)
    (hapart : Apart s.obj.slots) (hlive : (s.obj.slots i).state ≠ .free)
    (husers : (s.obj.slots i).users = 0)
    (hdone : (s.obj.slots i).touched = true → (s.obj.slots i).cleared = true)
    (h : Tracked s) : Clean s.obj s.log i := by
  refine ⟨husers, fun a ha hwrote => ?_⟩
  -- An address of this slot can only be up in this slot, and nothing is.
  have hnone : ¬ ∃ j, (s.obj.slots j).Up a := by
    rintro ⟨j, hj⟩
    by_cases hij : i = j
    · subst hij
      exact absurd (hdone hj.1) (Bool.eq_false_iff.mp hj.2.1)
    · exact hapart i j hlive (up_live (hw.slots j) hj) hij (overlap_of_has ha hj.2.2)
  refine ⟨?_, invalidated_of_flushed hwrote ((h.unflushed a).resolve_right hnone)⟩
  by_contra hne
  exact hnone (h.dirty a hwrote hne)

end Tracking

section Ledger

variable {s : World E} {i : Fin maxMappings}

/-- What the slot holds of a backing: one share or none. -/
def Slot.share (now owner epoch : Nat) (b : Backing) (x : Slot) : Nat :=
  if x.held = true ∧ x.owner = owner ∧ now = epoch ∧ x.backing = b then 1 else 0

/-- Every retained share is released or still held. -/
def Balanced (s : World E) : Prop :=
  ∀ owner epoch b, retains owner epoch b s.log
    = releases owner epoch b s.log
      + tally (Slot.share s.obj.epoch owner epoch b) s.obj.slots

/-- The line moves no share. -/
def Event.Idle (ev : Event) : Prop :=
  (∀ owner epoch b, ev ≠ .call (.retainBacking owner epoch b) true) ∧
    ∀ owner epoch b, ev ≠ .call (.releaseBacking owner epoch b) true

theorem idle_of_benign {q : Query} {a : Bool} (h : q.Benign a) : Event.Idle (.call q a) := by
  constructor <;>
  · rintro owner epoch b heq
    injection heq with hq ha
    subst hq ha
    cases h

theorem share_of_not_held {x : Slot} (h : x.held = false) (now owner epoch : Nat) (b : Backing) :
    x.share now owner epoch b = 0 := by
  rw [Slot.share, if_neg]
  rintro ⟨hheld, _⟩
  rw [h] at hheld
  cases hheld

theorem balanced_heard (ev : Event) (e : E) (hev : ev.Idle)
    (h : Balanced s) : Balanced (s.heard ev e) := by
  intro owner epoch b
  have hret : retains owner epoch b (s.heard ev e).log = retains owner epoch b s.log :=
    List.countP_cons_of_neg (by simpa only [decide_eq_true_eq] using hev.1 owner epoch b)
  have hrel : releases owner epoch b (s.heard ev e).log = releases owner epoch b s.log :=
    List.countP_cons_of_neg (by simpa only [decide_eq_true_eq] using hev.2 owner epoch b)
  rw [hret, hrel]
  exact h owner epoch b

theorem balanced_setSlot {x : Slot}
    (hx : ∀ now owner epoch b,
      x.share now owner epoch b = (s.obj.slots i).share now owner epoch b)
    (h : Balanced s) : Balanced (s.put (s.obj.setSlot i x)) := by
  intro owner epoch b
  rw [show (s.put (s.obj.setSlot i x)).obj.slots
    = update s.obj.slots i x from rfl, tally_update_eq _ _ _ _ (hx _ _ _ _)]
  exact h owner epoch b

theorem share_of_held {x : Slot} (h : x.held = true) (now owner epoch : Nat) (b : Backing) :
    x.share now owner epoch b
      = if x.owner = owner ∧ now = epoch ∧ x.backing = b then 1 else 0 := by
  simp only [Slot.share, h, true_and]

/-- A retain or a release together with the slot it is for. -/
theorem Balanced.call (h : Balanced s) {q : Query} {x : Slot} (e : E)
    (hq : ∀ owner epoch b, retains owner epoch b [⟨s.obj, .call q true⟩] +
        (s.obj.slots i).share s.obj.epoch owner epoch b =
      releases owner epoch b [⟨s.obj, .call q true⟩] + x.share s.obj.epoch owner epoch b) :
    Balanced ((s.heard (.call q true) e).put (s.obj.setSlot i x)) := by
  intro owner epoch b
  have hold := h owner epoch b
  have htally := tally_update (Slot.share s.obj.epoch owner epoch b) s.obj.slots i x
  have hcall := hq owner epoch b
  change retains owner epoch b ([_] ++ s.log) = releases owner epoch b ([_] ++ s.log)
    + tally (Slot.share s.obj.epoch owner epoch b) (update s.obj.slots i x)
  rw [retains, releases, List.countP_append, List.countP_append]
  unfold retains releases at hold hcall
  omega

theorem balanced_hold (b : Backing) (pat : Nat) (e : E)
    (hheld : (s.obj.slots i).held = false) (h : Balanced s) :
    Balanced ((s.heard (.call (.retainBacking (s.obj.slots i).owner s.obj.epoch b) true)
      e).put (s.obj.setSlot i ((s.obj.slots i).hold b pat))) := by
  refine h.call e fun owner epoch b' => ?_
  rw [share_of_not_held hheld, share_of_held rfl]
  simp [retains, releases, List.countP_cons, Slot.hold]
  congr

theorem balanced_drop (e : E)
    (hheld : (s.obj.slots i).held = true) (h : Balanced s) :
    Balanced ((s.heard (.call (.releaseBacking (s.obj.slots i).owner s.obj.epoch
      (s.obj.slots i).backing) true) e).put (s.obj.setSlot i Slot.empty)) := by
  refine h.call e fun owner epoch b => ?_
  rw [share_of_held hheld, share_of_not_held rfl]
  simp [retains, releases, List.countP_cons]

/-- A slot that holds backing accounts for a retain that was not released. -/
theorem releases_lt_retains
    (hheld : (s.obj.slots i).held = true) (h : Balanced s) :
    releases (s.obj.slots i).owner s.obj.epoch (s.obj.slots i).backing s.log
      < retains (s.obj.slots i).owner s.obj.epoch (s.obj.slots i).backing s.log := by
  have hshare := le_tally (Slot.share s.obj.epoch (s.obj.slots i).owner s.obj.epoch
    (s.obj.slots i).backing) s.obj.slots i
  rw [share_of_held hheld, if_pos ⟨rfl, rfl, rfl⟩] at hshare
  rw [h]
  omega

end Ledger

section Invariant

variable {i : Fin maxMappings} {s : World E}

structure Inv (s : World E) : Prop where
  wf : Wf s
  apart : Apart s.obj.slots
  dormant : s.obj.started = false ∨ s.obj.closed = true →
    ∀ i, (s.obj.slots i).state = .free
  tracked : Tracked s
  balanced : Balanced s
  rules : Chron Rule s.log

/-- A slot with the same range and use keeps the slots apart. -/
theorem apart_update {slots : Fin maxMappings → Slot} {x : Slot}
    (hx : x.state ≠ .free → ∀ j, j ≠ i → (slots j).state ≠ .free →
      ¬ x.range.Overlap (slots j).range) (h : Apart slots) :
    Apart (update slots i x) := by
  intro j k hj hk hjk
  by_cases hji : j = i
  · subst hji
    rw [update_self] at hj ⊢
    rw [update_of_ne (Ne.symm hjk)] at hk ⊢
    exact hx hj k (Ne.symm hjk) hk
  · rw [update_of_ne hji] at hj ⊢
    by_cases hki : k = i
    · subst hki
      rw [update_self] at hk ⊢
      exact fun hover => hx hk j hjk hj ⟨hover.2, hover.1⟩
    · rw [update_of_ne hki] at hk ⊢
      exact h j k hj hk hjk

theorem apart_keep {slots : Fin maxMappings → Slot} {x : Slot}
    (hlive : (slots i).state ≠ .free) (hrange : x.range = (slots i).range)
    (h : Apart slots) : Apart (update slots i x) := by
  refine apart_update (fun _ j hji hj => ?_) h
  rw [hrange]
  exact h i j hlive hj (Ne.symm hji)

theorem Inv.covered (h : Inv s) : Covered s.obj s.log := by
  intro a hwrote hne
  rcases h.tracked.dirty a hwrote hne with ⟨i, hi⟩
  have hheld := (h.wf.slots i).touched hi.1
  exact ⟨i, up_live (h.wf.slots i) hi, hi.2.2, hheld, releases_lt_retains hheld h.balanced⟩

theorem rule_quiet (h : Inv s) {ev : Event} (hw : ∀ a, ¬ ev.Writes a)
    (hi : ev.Idle) (hf : ∀ i, ev ≠ .freed i) : Rule ⟨s.obj, ev⟩ s.log where
  writes a ha := absurd ha (hw a)
  freed i hev := absurd hev (hf i)
  released owner epoch b hev := absurd hev (hi.2 owner epoch b)
  covered := h.covered

theorem inv_heard (h : Inv s) (ev : Event) (e : E) (hw : ∀ a, ¬ ev.Writes a)
    (hi : ev.Idle) (hf : ∀ i, ev ≠ .freed i) : Inv (s.heard ev e) where
  wf := ⟨h.wf.slots, h.wf.granted⟩
  apart := h.apart
  dormant := h.dormant
  tracked := tracked_heard ev e hw h.tracked
  balanced := balanced_heard ev e hi h.balanced
  rules := ⟨rule_quiet h hw hi hf, h.rules⟩

/-- A slot with the same range, flags and backing keeps the invariant. -/
theorem inv_setSlot (h : Inv s) {x : Slot}
    (hlive : (s.obj.slots i).state ≠ .free) (hx : x.Wf)
    (hrange : x.range = (s.obj.slots i).range)
    (howner : x.owner = (s.obj.slots i).owner)
    (hbacking : x.backing = (s.obj.slots i).backing)
    (hheld : x.held = (s.obj.slots i).held)
    (htracked : Tracked (s.put (s.obj.setSlot i x))) : Inv (s.put (s.obj.setSlot i x)) where
  wf := ⟨wf_update h.wf.slots hx, h.wf.granted⟩
  apart := apart_keep hlive hrange h.apart
  dormant hshut := absurd (h.dormant hshut i) hlive
  tracked := htracked
  balanced := by
    refine balanced_setSlot (fun now owner epoch b => ?_) h.balanced
    rw [Slot.share, Slot.share, howner, hbacking, hheld]
  rules := h.rules

theorem tracked_empty
    (hdone : (s.obj.slots i).touched = true → (s.obj.slots i).cleared = true)
    (h : Tracked s) : Tracked (s.put (s.obj.setSlot i Slot.empty)) :=
  tracked_setSlot (fun _ hup => absurd (hdone hup.1) (Bool.eq_false_iff.mp hup.2.1)) h

theorem inv_start (h : Inv s) (epoch : Nat) (ranges : List Range) (e : E)
    (hnew : s.obj.started = false) (hgrant : Grant epoch ranges true) :
    Inv ((s.heard (.call (.acquireSpace epoch ranges) true) e).put
      { s.obj with epoch := epoch, ranges := ranges, started := true }) := by
  have hline := inv_heard h (.call (.acquireSpace epoch ranges) true) e (fun _ => id)
    ⟨nofun, nofun⟩ nofun
  have hnone : ∀ i, (s.obj.slots i).held = false := fun i => by
    rw [(h.wf.slots i).free (h.dormant (Or.inl hnew) i)]
    rfl
  refine
    { wf := ⟨h.wf.slots, hgrant.2.2.2.2.1⟩
      apart := h.apart
      dormant := fun hshut => h.dormant (Or.inl hnew)
      tracked := ⟨hline.tracked.aligned, hline.tracked.dirty, hline.tracked.unflushed⟩
      balanced := fun owner ep b => ?_
      rules := hline.rules }
  -- Nothing is held yet, so the change of epoch moves no share.
  have hzero : ∀ now, tally (Slot.share now owner ep b) s.obj.slots = 0 := fun now =>
    (tally_eq_zero_iff _ _).mpr (fun i => share_of_not_held (hnone i) _ _ _ _)
  have hold := hline.balanced owner ep b
  change _ = _ + tally (Slot.share s.obj.epoch owner ep b) s.obj.slots at hold
  change retains owner ep b (_ :: s.log) = releases owner ep b (_ :: s.log)
    + tally (Slot.share epoch owner ep b) s.obj.slots
  rw [hzero] at hold ⊢
  exact hold

theorem inv_reserve (h : Inv s) (owner : Nat) {r : Range}
    (hfree : (s.obj.slots i).state = .free) (hfits : s.obj.Fits r)
    (hopen : s.obj.started = true ∧ s.obj.closed = false)
    (hwf : Wf (s.put { s.obj with mgr := s.obj.mgr.enter i owner r })) :
    Inv (s.put { s.obj with mgr := s.obj.mgr.enter i owner r }) := by
  have hempty := (h.wf.slots i).free hfree
  have htracked : Tracked (s.put (s.obj.setSlot i
      ((s.obj.slots i).reserve owner s.obj.epoch s.obj.serial r))) := by
    refine tracked_setSlot (fun a hup => ?_) h.tracked
    exact absurd hfree (up_live (h.wf.slots i) hup)
  have hbalanced : Balanced (s.put (s.obj.setSlot i
      ((s.obj.slots i).reserve owner s.obj.epoch s.obj.serial r))) := by
    refine balanced_setSlot (fun now o ep b => ?_) h.balanced
    rw [hempty, share_of_not_held rfl, share_of_not_held rfl]
  refine
    { wf := hwf
      apart := apart_update (fun _ j _ hj => hfits.2.2.2 j hj) h.apart
      dormant := fun hshut => ?_
      tracked := ⟨htracked.aligned, htracked.dirty, htracked.unflushed⟩
      balanced := hbalanced
      rules := h.rules }
  rcases hshut with hshut | hshut
  · exact absurd (hshut.symm.trans hopen.1) (by decide)
  · exact absurd (hshut.symm.trans hopen.2) (by decide)

theorem inv_write (h : Inv s) {page : Nat} (pte : Nat)
    (landed ok : Bool) (e : E) (hq : (s.obj.slots i).state = .quarantined)
    (htouch : (s.obj.slots i).touched = true) (hclear : (s.obj.slots i).cleared = false)
    (hpage : page < (s.obj.slots i).backing.pageCount) :
    Inv (stored s landed ok ((s.obj.slots i).entry page) pte e) := by
  have hlive : (s.obj.slots i).state ≠ .free := by rw [hq]; decide
  have hslot := h.wf.slots i
  have hline : Balanced (s.heard (.call (.writePte s.obj.epoch
      ((s.obj.slots i).entry page) pte) ok) e) := balanced_heard _ e ⟨nofun, nofun⟩ h.balanced
  refine
    { wf := ?_, apart := ?_, dormant := ?_, balanced := ?_
      tracked := tracked_write hslot hq htouch hclear hpage pte landed ok e h.tracked
      rules := ⟨?_, h.rules⟩ }
  · constructor <;> rw [stored_mgr]
    · exact h.wf.slots
    · exact h.wf.granted
  · rw [stored_mgr]
    exact h.apart
  · rw [stored_mgr]
    exact h.dormant
  · intro owner epoch b
    rw [stored_mgr]
    exact hline owner epoch b
  · refine
      { writes := fun a ha => ⟨i, hlive, ?_⟩
        freed := nofun
        released := nofun
        covered := h.covered }
    rw [← show (s.obj.slots i).entry page = a from ha]
    exact (has_entry hslot (hslot.touched htouch) hlive hpage).1

theorem rule_freed {hw : Hw} {log : Log}
    (hclean : Clean hw log i) (hcovered : Covered hw log) : Rule ⟨hw, .freed i⟩ log where
  writes _ ha := absurd ha id
  freed j hj := by
    injection hj with hj
    exact hj ▸ hclean
  released _ _ _ hev := by cases hev
  covered := hcovered

theorem inv_free (h : Inv s)
    (hlive : (s.obj.slots i).state ≠ .free) (hheld : (s.obj.slots i).held = false)
    (husers : (s.obj.slots i).users = 0) :
    Inv ((s.heard (.freed i) s.env).put (s.obj.setSlot i Slot.empty)) := by
  have hdone : (s.obj.slots i).touched = true → (s.obj.slots i).cleared = true := by
    intro htouch
    rw [(h.wf.slots i).touched htouch] at hheld
    cases hheld
  have hclean := clean_of_tracked h.wf h.apart hlive husers hdone h.tracked
  have htracked := tracked_heard (.freed i) s.env (fun _ => id) h.tracked
  have hbalanced := balanced_heard (.freed i) s.env ⟨nofun, nofun⟩ h.balanced
  exact
    { wf := ⟨wf_update h.wf.slots empty_wf, h.wf.granted⟩
      apart := apart_update (fun hne => absurd rfl hne) h.apart
      dormant := fun hshut => absurd (h.dormant hshut i) hlive
      tracked := tracked_empty (s := s.heard (.freed i) s.env) hdone htracked
      balanced := balanced_setSlot (s := s.heard (.freed i) s.env) (fun now owner epoch b =>
        (share_of_not_held rfl _ _ _ _).trans (share_of_not_held hheld _ _ _ _).symm) hbalanced
      rules := ⟨rule_freed hclean h.covered, h.rules⟩ }

theorem inv_drop (h : Inv s) (e : E)
    (hheld : (s.obj.slots i).held = true) (husers : (s.obj.slots i).users = 0)
    (hdone : (s.obj.slots i).touched = true → (s.obj.slots i).cleared = true) :
    Inv (((s.heard (.call (.releaseBacking (s.obj.slots i).owner s.obj.epoch
      (s.obj.slots i).backing) true) e).heard (.freed i) e).put
        (s.obj.setSlot i Slot.empty)) := by
  have hlive : (s.obj.slots i).state ≠ .free := by
    intro hfree
    rw [(h.wf.slots i).free hfree] at hheld
    cases hheld
  have hclean := clean_of_tracked h.wf h.apart hlive husers hdone h.tracked
  -- The system between the two lines, and the one it is about to become.
  let u := s.heard (.call (.releaseBacking (s.obj.slots i).owner s.obj.epoch
    (s.obj.slots i).backing) true) e
  have htracked : Tracked u := tracked_heard _ e (fun _ => id) h.tracked
  have hcleanU : Clean u.obj u.log i :=
    clean_of_tracked (s := u) ⟨h.wf.slots, h.wf.granted⟩ h.apart hlive husers hdone htracked
  have hgone : Inv (u.put (s.obj.setSlot i Slot.empty)) :=
    { wf := ⟨wf_update h.wf.slots empty_wf, h.wf.granted⟩
      apart := apart_update (fun hne => absurd rfl hne) h.apart
      dormant := fun hshut => absurd (h.dormant hshut i) hlive
      tracked := tracked_empty (s := u) hdone htracked
      balanced := balanced_drop e hheld h.balanced
      rules := ⟨⟨fun _ => False.elim, nofun, fun owner epoch b hev => by
        injection hev with hq
        injection hq with howner _ hb
        exact ⟨i, hheld, howner, hb, hclean⟩, h.covered⟩, h.rules⟩ }
  -- What is dirty lies in another slot, so its cover survives the release.
  have hcovered : Covered u.obj u.log := by
    intro a hwrote hne
    rcases hgone.covered a hwrote hne with ⟨j, hj⟩
    have hji : j ≠ i := by
      rintro rfl
      exact hj.1 (by rw [show (u.put (s.obj.setSlot j Slot.empty)).obj.slots j = Slot.empty
        from update_self ..]; rfl)
    rw [show (u.put (s.obj.setSlot i Slot.empty)).obj.slots j = s.obj.slots j
      from update_of_ne hji _ _] at hj
    exact ⟨j, hj⟩
  exact
    { wf := ⟨hgone.wf.slots, hgone.wf.granted⟩
      apart := hgone.apart
      dormant := hgone.dormant
      tracked := tracked_empty (s := u.heard (.freed i) e) hdone
        (tracked_heard (.freed i) e (fun _ => id) htracked)
      balanced := balanced_heard (s := u.put (s.obj.setSlot i Slot.empty)) (.freed i) e
        ⟨nofun, nofun⟩ hgone.balanced
      rules := ⟨rule_freed hcleanU hcovered, hgone.rules⟩ }

theorem inv_hold (h : Inv s) (b : Backing) (pat : Nat)
    (e : E) (hres : (s.obj.slots i).state = .reserved)
    (hheld : (s.obj.slots i).held = false) (huse : b.Usable (s.obj.slots i) pat) :
    Inv ((s.heard (.call (.retainBacking (s.obj.slots i).owner s.obj.epoch b) true)
      e).put (s.obj.setSlot i ((s.obj.slots i).hold b pat))) := by
  have hlive : (s.obj.slots i).state ≠ .free := by rw [hres]; decide
  let u := s.heard (.call (.retainBacking (s.obj.slots i).owner s.obj.epoch b) true) e
  have htracked : Tracked u := tracked_heard _ e (fun _ => id) h.tracked
  exact
    { wf := ⟨wf_update h.wf.slots (hold_wf (h.wf.slots i) hres huse), h.wf.granted⟩
      apart := apart_keep hlive rfl h.apart
      dormant := fun hshut => absurd (h.dormant hshut i) hlive
      tracked := tracked_setSlot (s := u) (fun _ hup => hup) htracked
      balanced := balanced_hold b pat e hheld h.balanced
      rules := ⟨⟨fun _ => False.elim, nofun, nofun, h.covered⟩, h.rules⟩ }

theorem inv_close (h : Inv s) (e : E)
    (hfree : ∀ i, (s.obj.slots i).state = .free) :
    Inv ((s.heard (.call (.releaseSpace s.obj.epoch) true) e).put
      { s.obj with closed := true }) := by
  have hline := inv_heard h (.call (.releaseSpace s.obj.epoch) true) e (fun _ => id)
    ⟨nofun, nofun⟩ nofun
  exact
    { wf := ⟨h.wf.slots, h.wf.granted⟩
      apart := h.apart
      dormant := fun _ => hfree
      tracked := ⟨hline.tracked.aligned, hline.tracked.dirty, hline.tracked.unflushed⟩
      balanced := hline.balanced
      rules := hline.rules }

theorem move_inv {t : World E} (hm : Move s t) (h : Inv s) : Inv t := by
  have hslot := h.wf.slots
  have hwf := move_wf hm h.wf
  cases hm with
  | hear q a e hb =>
    exact inv_heard h _ e (not_writes_of_benign hb) (idle_of_benign hb) nofun
  | start epoch ranges e hnew hgrant => exact inv_start h epoch ranges e hnew hgrant
  | quarantine i hlive =>
    exact inv_setSlot h hlive (quarantine_wf (hslot i) hlive) rfl rfl rfl rfl
      (tracked_setSlot (fun _ hup => hup) h.tracked)
  | touch i hq hheld hclear =>
    exact inv_setSlot h (by rw [hq]; decide) (touch_wf (hslot i) hq hheld hclear) rfl rfl rfl rfl
      (tracked_setSlot (fun _ hup => ⟨rfl, hup.2⟩) h.tracked)
  | write i page pte landed ok e hq htouch hclear hpage => simp [inv_write, *]
  | clear i htouch hq husers hzero hflush =>
    exact inv_setSlot h (by rw [hq]; decide) (clear_wf (hslot i) htouch hq husers) rfl rfl rfl rfl
      (tracked_clear (hslot i) htouch hzero hflush h.tracked)
  | publish i hq htouch hclear =>
    exact inv_setSlot h (by rw [hq]; decide) (publish_wf (hslot i) hq htouch hclear)
      rfl rfl rfl rfl (tracked_setSlot (fun _ hup => hup) h.tracked)
  | drop i e hheld husers hdone => exact inv_drop h e hheld husers hdone
  | free i hlive hheld husers => exact inv_free h hlive hheld husers
  | use i hpub =>
    exact inv_setSlot h (by rw [hpub]; decide)
      (withUsers_wf (hslot i) ((hslot i).published hpub) _) rfl rfl rfl rfl
      (tracked_setSlot (fun _ hup => hup) h.tracked)
  | unuse i husers =>
    have hup := (hslot i).users husers
    have hlive : (s.obj.slots i).state ≠ .free := by
      intro hfree
      rw [(hslot i).free hfree] at husers
      exact husers rfl
    exact inv_setSlot h hlive (withUsers_wf (hslot i) hup _) rfl rfl rfl rfl
      (tracked_setSlot (fun _ hup => hup) h.tracked)
  | close e hfree => exact inv_close h e hfree

theorem reaches_inv {t : World E} (hpath : Reaches s t) (h : Inv s) : Inv t := by
  induction hpath with
  | refl => exact h
  | tail _ hstep ih =>
    cases hstep with
    | move hm => exact move_inv hm ih
    | hold i b pat e hres hheld huse => exact inv_hold ih b pat e hres hheld huse
    | reserve i owner r hfree hfits hserial hopen =>
      exact inv_reserve ih owner hfree hfits hopen
        (step_wf (.reserve _ i owner r hfree hfits hserial hopen) ih.wf)

theorem start_inv (pte : Nat → Nat) (env : E) : Inv (start pte env) where
  wf := start_wf pte env
  apart _ _ hi := absurd rfl hi
  dormant _ _ := rfl
  tracked :=
    { aligned := fun _ ⟨_, he, _⟩ => absurd he List.not_mem_nil
      dirty := fun _ ⟨_, he, _⟩ => absurd he List.not_mem_nil
      unflushed := fun _ => Or.inl trivial }
  balanced owner epoch b := by
    have hzero := (tally_eq_zero_iff (Slot.share 0 owner epoch b)
      (fun _ : Fin maxMappings => Slot.empty)).mpr (fun _ => share_of_not_held rfl _ _ _ _)
    change 0 = 0 + tally (Slot.share 0 owner epoch b) (fun _ => Slot.empty)
    rw [hzero]
  rules := trivial

theorem Inv.noStale (h : Inv s) : NoStale s where
  rules := h.rules
  covered := h.covered
  closed hclosed a hwrote := by
    by_contra hne
    rcases h.covered a hwrote hne with ⟨i, hlive, _⟩
    exact hlive (h.dormant (Or.inr hclosed) i)

end Invariant

section HandedBack

variable {s t : World E}

theorem accounted_update {i : Fin maxMappings} {x : Slot}
    (recent : Log) (hlog : t.log = recent ++ s.log)
    (hslots : t.obj.slots = update s.obj.slots i x)
    (hx : (s.obj.slots i).state ≠ .free → x.state ≠ .free ∧
      x.generation = (s.obj.slots i).generation) : Accounted s t := by
  refine ⟨recent, hlog, fun j hj => Or.inl ?_⟩
  rw [hslots]
  by_cases hji : j = i
  · subst hji
    rw [update_self]
    exact hx hj
  · rw [update_of_ne hji]
    exact ⟨hj, rfl⟩

theorem accounted_empty {i j : Fin maxMappings}
    {recent : Log} (hline : ⟨s.obj, .freed i⟩ ∈ recent)
    (hj : (s.obj.slots j).state ≠ .free) :
    ((update s.obj.slots i Slot.empty j).state ≠ .free ∧
      (update s.obj.slots i Slot.empty j).generation
        = (s.obj.slots j).generation) ∨
    ∃ e ∈ recent, e.event = .freed j ∧
      (e.obj.slots j).generation = (s.obj.slots j).generation := by
  by_cases hji : j = i
  · subst hji
    exact Or.inr ⟨_, hline, rfl, rfl⟩
  · rw [update_of_ne hji]
    exact Or.inl ⟨hj, rfl⟩

theorem move_accounted (hm : Move s t) : Accounted s t := by
  cases hm with
  | hear | start => exact ⟨[_], rfl, fun j hj => Or.inl ⟨hj, rfl⟩⟩
  | quarantine i hlive => exact accounted_update [] rfl rfl (fun _ => ⟨nofun, rfl⟩)
  | touch i hq hheld hclear => exact accounted_update [] rfl rfl (fun hne => ⟨hne, rfl⟩)
  | write i page pte landed ok e hq htouch hclear hpage =>
    refine ⟨[_], rfl, fun j hj => Or.inl ?_⟩
    rw [stored_mgr]
    exact ⟨hj, rfl⟩
  | clear i htouch hq husers hzero hflush =>
    exact accounted_update [] rfl rfl (fun hne => ⟨hne, rfl⟩)
  | publish i hq htouch hclear => exact accounted_update [] rfl rfl (fun _ => ⟨nofun, rfl⟩)
  | drop i e hheld husers hdone =>
    exact ⟨[_, _], rfl, fun j hj => accounted_empty List.mem_cons_self hj⟩
  | free i hlive hheld husers =>
    exact ⟨[_], rfl, fun j hj => accounted_empty List.mem_cons_self hj⟩
  | use | unuse => exact accounted_update [] rfl rfl (fun hne => ⟨hne, rfl⟩)
  | close e hfree => exact ⟨[_], rfl, fun j hj => Or.inl ⟨hj, rfl⟩⟩

theorem step_accounted (h : Step s t) : Accounted s t := by
  cases h with
  | move hm => exact move_accounted hm
  | hold i b pat e hres hheld huse =>
    exact accounted_update [_] rfl rfl (fun hne => ⟨hne, rfl⟩)
  | reserve i owner r hfree hfits hserial hopen =>
    exact accounted_update [] rfl rfl (fun hne => absurd hfree hne)

theorem accounted_trans {u : World E} (hst : Accounted s t) (htu : Accounted t u) :
    Accounted s u := by
  rcases hst with ⟨early, hearly, hst⟩
  rcases htu with ⟨late, hlate, htu⟩
  refine ⟨late ++ early, by rw [hlate, hearly, List.append_assoc], fun i hi => ?_⟩
  rcases hst i hi with ⟨hlive, hgen⟩ | ⟨e, he, hev, hgen⟩
  · rcases htu i hlive with ⟨hlive', hgen'⟩ | ⟨e, he, hev, hgen'⟩
    · exact Or.inl ⟨hlive', hgen'.trans hgen⟩
    · exact Or.inr ⟨e, List.mem_append_left _ he, hev, hgen'.trans hgen⟩
  · exact Or.inr ⟨e, List.mem_append_right _ he, hev, hgen⟩

theorem reaches_accounted (h : Reaches s t) : Accounted s t := by
  induction h with
  | refl => exact ⟨[], rfl, fun i hi => Or.inl ⟨hi, rfl⟩⟩
  | tail _ hstep ih => exact accounted_trans ih (step_accounted hstep)

end HandedBack

/-- `close` reports success only when it has closed the manager. -/
theorem close_ok (io : Backend E) :
    Spec (fun _ => True) (close io) (fun r s => r = .ok → s.obj.closed = true) := by
  have htop : Stable (E := E) (fun _ => True) := fun _ _ _ _ _ _ => trivial
  refine spec_bind (live_spec htop) fun up => ?_
  refine spec_guard nofun ?_
  refine spec_bind (R := fun _ _ => True) (fun _ _ => trivial) fun m => ?_
  refine spec_guard nofun ?_
  refine spec_bind (R := fun _ _ => True) (fun _ _ => trivial) fun got => ?_
  refine spec_guard nofun ?_
  exact fun _ _ _ => rfl

/-- No stale entries. After any calls and any callback answers, every write the
    manager issued fell into a slot in use, every slot handed back and every
    backing released was clean at that moment, and every entry still set lies
    in a slot in use whose backing is retained. A slot only stops being in use
    under a line that says it was handed back, and once `close` has succeeded
    no entry is left. -/
theorem run_noStale (io : Backend E) (calls : List Call) (pte : Nat → Nat) (env : E) :
    NoStale (run io calls pte env) ∧
      (∀ c, Accounted (run io calls pte env) (step io c (run io calls pte env)).2) ∧
      ((close io (run io calls pte env)).1 = .ok →
        (close io (run io calls pte env)).2.obj.closed = true) := by
  rcases run_reaches io calls pte env with ⟨hpath, hwf, hidle⟩
  refine ⟨(reaches_inv hpath (start_inv pte env)).noStale, fun c => ?_, ?_⟩
  · exact reaches_accounted (step_reaches io hwf hidle c).1
  · exact close_ok io _ trivial

/-- No backing is lost or given back twice. At any time a backing has been
    retained as often as it was released and as there are slots that hold it,
    and once the manager is closed, exactly as often as it was released. -/
theorem run_shares (io : Backend E) (calls : List Call) (pte : Nat → Nat) (env : E) :
    let s := run io calls pte env
    ∀ owner epoch b,
      retains owner epoch b s.log = releases owner epoch b s.log +
        tally (Slot.share s.obj.epoch owner epoch b) s.obj.slots ∧
      (s.obj.closed = true → retains owner epoch b s.log = releases owner epoch b s.log) := by
  intro s owner epoch b
  have hinv : Inv s := reaches_inv (run_reaches io calls pte env).1 (start_inv pte env)
  have hbalanced := hinv.balanced owner epoch b
  refine ⟨hbalanced, fun hclosed => ?_⟩
  -- A closed manager has no slot in use, and a free slot holds nothing.
  have hnone : tally (Slot.share s.obj.epoch owner epoch b) s.obj.slots = 0 := by
    refine (tally_eq_zero_iff _ _).mpr fun i => ?_
    rw [(hinv.wf.slots i).free (hinv.dormant (.inr hclosed) i)]
    rfl
  rw [hbalanced, hnone, Nat.add_zero]

end Mellow.Ggtt
