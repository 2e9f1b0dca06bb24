import Mellow.Xe.Ggtt.Model

/-!
# What the GGTT Manager Can Do in One Step

The atomic moves the operations are made of, each with the guard under which the
code makes it. `clear` is only taken once every entry of the slot reads zero and
nothing was written since the last invalidation; `drop` only once an entry that
was ever written has been cleared. That the code respects the guards is proved
beside the operations.

## Main definitions

* `Move`: the moves.
* `Slot.Wf`: which states and flags occur together.
* `Kept`: what no move changes.

## Theorems

* `move_wf`: the moves keep slots well formed.
* `reaches_wf`: so do paths.
-/

namespace Mellow.Ggtt

open Lib Function

variable {E : Type} {s : Slot} {t : World E}

def Event.Writes (a : Nat) : Event → Prop
  | .call (.writePte _ address _) _ => address = a
  | _ => False

def Event.Flush : Event → Prop
  | .call (.invalidate _) true => True
  | _ => False

/-- No write to `a` since the last completed invalidation. -/
def Flushed (a : Nat) : Log → Prop
  | [] => True
  | e :: before => e.event.Flush ∨ (¬ e.event.Writes a ∧ Flushed a before)

/-- Not a write, and not a grant that the code acts on at once. -/
def Query.Benign : Query → Bool → Prop
  | .writePte .., _ => False
  | .acquireSpace .., a => a = false
  | .releaseSpace _, a => a = false
  | .retainBacking .., a => a = false
  | .releaseBacking .., a => a = false
  | _, _ => True

/-- The atomic moves of the manager, reserving and taking on backing apart. -/
inductive Move : World E → World E → Prop where
  | hear (s : World E) (q : Query) (a : Bool) (e : E) (h : q.Benign a) :
      Move s (s.heard (.call q a) e)
  | start (s : World E) (epoch : Nat) (ranges : List Range) (e : E)
      (hnew : s.obj.started = false) (hgrant : Grant epoch ranges true) :
      Move s ((s.heard (.call (.acquireSpace epoch ranges) true) e).put
        { s.obj with epoch := epoch, ranges := ranges, started := true })
  | quarantine (s : World E) (i : Fin maxMappings)
      (hlive : (s.obj.slots i).state ≠ .free) :
      Move s (s.put (s.obj.setSlot i ((s.obj.slots i).withState .quarantined)))
  | touch (s : World E) (i : Fin maxMappings)
      (hq : (s.obj.slots i).state = .quarantined) (hheld : (s.obj.slots i).held)
      (hclear : (s.obj.slots i).cleared = false) :
      Move s (s.put (s.obj.setSlot i { s.obj.slots i with touched := true }))
  | write (s : World E) (i : Fin maxMappings) (page pte : Nat) (landed ok : Bool) (e : E)
      (hq : (s.obj.slots i).state = .quarantined) (htouch : (s.obj.slots i).touched)
      (hclear : (s.obj.slots i).cleared = false)
      (hpage : page < (s.obj.slots i).backing.pageCount) :
      Move s (stored s landed ok ((s.obj.slots i).entry page) pte e)
  | clear (s : World E) (i : Fin maxMappings)
      (htouch : (s.obj.slots i).touched) (hq : (s.obj.slots i).state = .quarantined)
      (husers : (s.obj.slots i).users = 0)
      (hzero : ∀ page < (s.obj.slots i).backing.pageCount,
        s.obj.pte ((s.obj.slots i).entry page) = 0)
      (hflush : ∀ a, Flushed a s.log) :
      Move s (s.put (s.obj.setSlot i { s.obj.slots i with cleared := true }))
  | publish (s : World E) (i : Fin maxMappings)
      (hq : (s.obj.slots i).state = .quarantined)
      (htouch : (s.obj.slots i).touched)
      (hclear : (s.obj.slots i).cleared = false) :
      Move s (s.put (s.obj.setSlot i ((s.obj.slots i).withState .published)))
  | drop (s : World E) (i : Fin maxMappings) (e : E)
      (hheld : (s.obj.slots i).held) (husers : (s.obj.slots i).users = 0)
      (hdone : (s.obj.slots i).touched → (s.obj.slots i).cleared) :
      Move s (((s.heard (.call (.releaseBacking (s.obj.slots i).owner s.obj.epoch
          (s.obj.slots i).backing) true) e).heard (.freed i) e).put
        (s.obj.setSlot i Slot.empty))
  | free (s : World E) (i : Fin maxMappings)
      (hlive : (s.obj.slots i).state ≠ .free) (hheld : (s.obj.slots i).held = false)
      (husers : (s.obj.slots i).users = 0) :
      Move s ((s.heard (.freed i) s.env).put (s.obj.setSlot i Slot.empty))
  | use (s : World E) (i : Fin maxMappings)
      (hpub : (s.obj.slots i).state = .published) :
      Move s (s.put (s.obj.setSlot i
        ((s.obj.slots i).withUsers ((s.obj.slots i).users + 1))))
  | unuse (s : World E) (i : Fin maxMappings)
      (husers : (s.obj.slots i).users ≠ 0) :
      Move s (s.put (s.obj.setSlot i
        ((s.obj.slots i).withUsers ((s.obj.slots i).users - 1))))
  | close (s : World E) (e : E) (hfree : ∀ i, (s.obj.slots i).state = .free) :
      Move s ((s.heard (.call (.releaseSpace s.obj.epoch) true) e).put
        { s.obj with closed := true })

/-- The moves with taking on backing and reserving, which are kept apart. -/
inductive Step : World E → World E → Prop where
  | move {s t : World E} (h : Move s t) : Step s t
  | hold (s : World E) (i : Fin maxMappings) (b : Backing) (pat : Nat) (e : E)
      (hres : (s.obj.slots i).state = .reserved) (hheld : (s.obj.slots i).held = false)
      (huse : b.Usable (s.obj.slots i) pat) :
      Step s ((s.heard (.call (.retainBacking (s.obj.slots i).owner s.obj.epoch b) true)
        e).put (s.obj.setSlot i ((s.obj.slots i).hold b pat)))
  | reserve (s : World E) (i : Fin maxMappings) (owner : Nat) (r : Range)
      (hfree : (s.obj.slots i).state = .free) (hfits : s.obj.Fits r)
      (hserial : s.obj.serial ≠ 0)
      (hopen : s.obj.started = true ∧ s.obj.closed = false) :
      Step s (s.put { s.obj with mgr := s.obj.mgr.enter i owner r })

abbrev Reaches : World E → World E → Prop := Relation.ReflTransGen Step

/-- The combinations of state and flags that occur in a slot. -/
structure Slot.Wf (s : Slot) : Prop where
  free : s.state = .free → s = Slot.empty
  reserved : s.state = .reserved → s.touched = false
  published : s.state = .published → s.touched = true ∧ s.cleared = false
  touched : s.touched = true → s.held = true
  cleared : s.cleared = true → s.touched = true ∧ s.state = .quarantined
  users : s.users ≠ 0 → s.touched = true ∧ s.cleared = false
  covers : s.held = true → s.backing.pageCount = s.range.bytes / pageSize
  placed : s.state ≠ .free → s.range.Valid

/-- Every slot is well formed, and so is every granted range. -/
structure Wf (s : World E) : Prop where
  slots : ∀ i, (s.obj.slots i).Wf
  granted : ∀ g ∈ s.obj.ranges, g.Valid

theorem empty_wf : Slot.empty.Wf where
  free _ := rfl
  reserved h := by simp only [Slot.empty, reduceCtorEq] at h
  published h := by simp only [Slot.empty, reduceCtorEq] at h
  touched h := by simp only [Slot.empty, Bool.false_eq_true] at h
  cleared h := by simp only [Slot.empty, Bool.false_eq_true] at h
  users h := absurd rfl h
  covers h := by simp only [Slot.empty, Bool.false_eq_true] at h
  placed h := absurd rfl h

theorem setSlot_slots (hw : Hw) (i : Fin maxMappings) (x : Slot) :
    (hw.setSlot i x).mgr.slots = update hw.slots i x := rfl

theorem stored_mgr (s : World E) (landed ok : Bool) (address pte : Nat) (e : E) :
    (stored s landed ok address pte e).obj.mgr = s.obj.mgr := by
  cases landed <;> rfl

theorem flushed_heard {a : Nat} {s : World E} {q : Query} {b : Bool} (e : E)
    (h : ¬ Event.Writes a (.call q b)) (hf : Flushed a s.log) :
    Flushed a (s.heard (.call q b) e).log :=
  Or.inr ⟨h, hf⟩

theorem not_writes_of_benign {q : Query} {b : Bool} (h : q.Benign b) (a : Nat) :
    ¬ Event.Writes a (.call q b) := by
  cases q <;> simp only [Event.Writes, not_false_eq_true]
  exact absurd h id

variable {slots : Fin maxMappings → Slot}

theorem wf_update {i : Fin maxMappings} {x : Slot} (hs : ∀ j, (slots j).Wf) (hx : x.Wf)
    (j : Fin maxMappings) : (update slots i x j).Wf := by
  by_cases hj : j = i
  · rw [hj, update_self]
    exact hx
  · rw [update_of_ne hj]
    exact hs j

theorem reserve_wf (h : s.Wf) (hfree : s.state = .free) (owner epoch g : Nat)
    {r : Range} (hr : r.Valid) : (s.reserve owner epoch g r).Wf := by
  have he := h.free hfree
  subst he
  exact
    { free := fun h => by simp only [Slot.reserve, reduceCtorEq] at h
      reserved := fun _ => rfl
      published := fun h => by simp only [Slot.reserve, reduceCtorEq] at h
      touched := fun h => by simp only [Slot.reserve, Slot.empty, Bool.false_eq_true] at h
      cleared := fun h => by simp only [Slot.reserve, Slot.empty, Bool.false_eq_true] at h
      users := fun h => absurd rfl h
      covers := fun h => by simp only [Slot.reserve, Slot.empty, Bool.false_eq_true] at h
      placed := fun _ => hr }

theorem hold_wf (h : s.Wf) (hres : s.state = .reserved) {b : Backing} {pat : Nat}
    (huse : b.Usable s pat) : (s.hold b pat).Wf where
  free hf := by rw [show (s.hold b pat).state = s.state from rfl, hres] at hf; cases hf
  reserved _ := h.reserved hres
  published hf := by rw [show (s.hold b pat).state = s.state from rfl, hres] at hf; cases hf
  touched _ := rfl
  cleared hf := h.cleared hf
  users hf := h.users hf
  covers _ := huse.2.2.2.2.1
  placed := h.placed

theorem quarantine_wf (h : s.Wf) (hlive : s.state ≠ .free) :
    (s.withState .quarantined).Wf where
  free hf := by cases hf
  reserved hf := by cases hf
  published hf := by cases hf
  touched := h.touched
  cleared hf := ⟨(h.cleared hf).1, rfl⟩
  users := h.users
  covers := h.covers
  placed _ := h.placed hlive

theorem touch_wf (h : s.Wf) (hq : s.state = .quarantined) (hheld : s.held)
    (hclear : s.cleared = false) : Slot.Wf { s with touched := true } where
  free hf := by rw [hq] at hf; cases hf
  reserved hf := by rw [hq] at hf; cases hf
  published hf := by rw [hq] at hf; cases hf
  touched _ := hheld
  cleared hf := by rw [hclear] at hf; cases hf
  users _ := ⟨rfl, hclear⟩
  covers := h.covers
  placed := h.placed

theorem clear_wf (h : s.Wf) (htouch : s.touched) (hq : s.state = .quarantined)
    (husers : s.users = 0) : Slot.Wf { s with cleared := true } where
  free hf := by rw [hq] at hf; cases hf
  reserved hf := by rw [hq] at hf; cases hf
  published hf := by rw [hq] at hf; cases hf
  touched := h.touched
  cleared _ := ⟨htouch, hq⟩
  users hf := absurd husers hf
  covers := h.covers
  placed := h.placed

theorem publish_wf (h : s.Wf) (hq : s.state = .quarantined) (htouch : s.touched)
    (hclear : s.cleared = false) : (s.withState .published).Wf where
  free hf := by cases hf
  reserved hf := by cases hf
  published _ := ⟨htouch, hclear⟩
  touched := h.touched
  cleared hf := by rw [show (s.withState .published).cleared = s.cleared from rfl, hclear] at hf
                   cases hf
  users := h.users
  covers := h.covers
  placed _ := h.placed (by rw [hq]; decide)

/-- The user count may change freely while the slot's entries are up. -/
theorem withUsers_wf (h : s.Wf) (hup : s.touched = true ∧ s.cleared = false) (n : Nat) :
    (s.withUsers n).Wf where
  free hf := by
    have he := h.free hf
    rw [he] at hup
    exact absurd hup.1 (by decide)
  reserved := h.reserved
  published := h.published
  touched := h.touched
  cleared := h.cleared
  users _ := hup
  covers := h.covers
  placed := h.placed

theorem move_wf {s : World E} (h : Move s t) (hw : Wf s) : Wf t := by
  have hs := hw.slots
  cases h with
  | hear q a e hb => exact ⟨hs, hw.granted⟩
  | start epoch ranges e hnew hgrant => exact ⟨hs, hgrant.2.2.2.2.1⟩
  | quarantine i hlive => exact ⟨wf_update hs (quarantine_wf (hs i) hlive), hw.granted⟩
  | touch i hq hheld hclear =>
    exact ⟨wf_update hs (touch_wf (hs i) hq hheld hclear), hw.granted⟩
  | write i page pte landed ok e hq htouch hclear hpage =>
    constructor
    · intro j
      rw [stored_mgr]
      exact hs j
    · rw [stored_mgr]
      exact hw.granted
  | clear i htouch hq husers hzero hflush =>
    exact ⟨wf_update hs (clear_wf (hs i) htouch hq husers), hw.granted⟩
  | publish i hq htouch hclear =>
    exact ⟨wf_update hs (publish_wf (hs i) hq htouch hclear), hw.granted⟩
  | drop | free => exact ⟨wf_update hs empty_wf, hw.granted⟩
  | use i hpub =>
    exact ⟨wf_update hs (withUsers_wf (hs i) ((hs i).published hpub) _), hw.granted⟩
  | unuse i husers =>
    exact ⟨wf_update hs (withUsers_wf (hs i) ((hs i).users husers) _), hw.granted⟩
  | close e hfree => exact ⟨hs, hw.granted⟩

theorem step_wf {s : World E} (h : Step s t) (hw : Wf s) : Wf t := by
  cases h with
  | move hm => exact move_wf hm hw
  | hold i b pat e hres hheld huse =>
    exact ⟨wf_update hw.slots (hold_wf (hw.slots i) hres huse), hw.granted⟩
  | reserve i owner r hfree hfits hserial hopen =>
    exact ⟨wf_update hw.slots (reserve_wf (hw.slots i) hfree _ _ _ hfits.1), hw.granted⟩

theorem reaches_wf {s : World E} (h : Reaches s t) (hw : Wf s) : Wf t := by
  induction h with
  | refl => exact hw
  | tail _ hstep ih => exact step_wf hstep ih

/-- No slot is reserved and held at once. This holds between operations. -/
def Idle (s : World E) : Prop :=
  ∀ i, (s.obj.slots i).state = .reserved → (s.obj.slots i).held = false

theorem idle_update {i : Fin maxMappings} {x : Slot}
    (hs : ∀ j, (slots j).state = .reserved → (slots j).held = false)
    (hx : x.state = .reserved → x.held = false) (j : Fin maxMappings) :
    (update slots i x j).state = .reserved →
      (update slots i x j).held = false := by
  by_cases hj : j = i
  · rw [hj, update_self]
    exact hx
  · rw [update_of_ne hj]
    exact hs j

/-- Only taking on backing leaves a slot reserved and held. -/
theorem move_idle {s : World E} (h : Move s t) (hi : Idle s) : Idle t := by
  cases h with
  | hear | start => exact hi
  | quarantine i hlive => exact idle_update hi nofun
  | touch i hq hheld hclear => exact idle_update hi (hi i)
  | write i page pte landed ok e hq htouch hclear hpage =>
    intro j
    rw [stored_mgr]
    exact hi j
  | clear i htouch hq husers hzero hflush => exact idle_update hi (hi i)
  | publish | drop | free => exact idle_update hi nofun
  | use i hpub => exact idle_update hi (hi i)
  | unuse i husers => exact idle_update hi (hi i)
  | close e hfree => exact hi

/-- No slot has a new generation. -/
def Kept (s t : World E) : Prop :=
  ∀ i, (t.obj.slots i).generation = 0 ∨
    (t.obj.slots i).generation = (s.obj.slots i).generation

theorem Kept.trans {s u : World E} (hst : Kept s t) (htu : Kept t u) : Kept s u := by
  intro i
  rcases htu i with hzero | hsame
  · exact .inl hzero
  · rw [hsame]
    exact hst i

theorem kept_update {i : Fin maxMappings} {x : Slot}
    (hx : x.generation = 0 ∨ x.generation = (slots i).generation) (j : Fin maxMappings) :
    (update slots i x j).generation = 0 ∨
      (update slots i x j).generation = (slots j).generation := by
  by_cases hj : j = i
  · rw [hj, update_self]
    exact hx
  · rw [update_of_ne hj]
    exact .inr rfl

theorem move_kept {s : World E} (h : Move s t) : Kept s t := by
  cases h with
  | hear | start | close => exact fun _ => .inr rfl
  | write i page pte landed ok e hq htouch hclear hpage =>
    intro j
    rw [stored_mgr]
    exact .inr rfl
  | drop | free => exact kept_update (.inl rfl)
  | quarantine | touch | clear | publish | use | unuse => exact kept_update (.inr rfl)

end Mellow.Ggtt
