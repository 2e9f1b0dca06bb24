import Mellow.Xe.Ggtt.Place

/-!
# Operations Are Paths of Moves

Every operation, whatever its callbacks answer, takes the system along a path of
the moves in `Step`. This is where the guards of those moves are earned. Between
taking on backing and quarantining the slot, `publish` is in a state no other
operation is ever in; `quarantine_then` confines it.

## Main definitions

* `Over`: the system has come from a state with the same manager.
* `Writing`: the loop invariant of `publish`.

## Theorems

* `step_reaches`: a call is a path.
* `run_reaches`: so is a run.
-/

namespace Mellow.Ggtt

open Lib Function

variable {E : Type} {s t : World E}

/-- Paths that reserve nothing and take on no backing. -/
abbrev Moves : World E → World E → Prop := Relation.ReflTransGen Move

theorem reaches_of_moves (h : Moves s t) : Reaches s t :=
  Relation.ReflTransGen.mono (fun _ _ hm => Step.move hm) _ _ h

theorem moves_wf (h : Moves s t) (hw : Wf s) : Wf t :=
  reaches_wf (reaches_of_moves h) hw

theorem moves_idle (h : Moves s t) (hi : Idle s) : Idle t := by
  induction h with
  | refl => exact hi
  | tail _ hmove ih => exact move_idle hmove ih

theorem moves_kept (h : Moves s t) : Kept s t := by
  induction h with
  | refl => exact fun _ => .inr rfl
  | tail _ hmove ih => exact ih.trans (move_kept hmove)

/-- Where an operation that reserves nothing may end. -/
structure Quiet (s t : World E) : Prop where
  path : Reaches s t
  idle : Idle t
  kept : Kept s t

theorem quiet_of_moves (hidle : Idle s) (h : Moves s t) : Quiet s t :=
  ⟨reaches_of_moves h, moves_idle h hidle, moves_kept h⟩

/-- The predicate survives a callback that moves nothing. -/
def Stable (P : World E → Prop) : Prop :=
  ∀ s q a e, q.Benign a → P s → P (s.heard (.call q a) e)

def At (s₀ : World E) (hw : Hw) (s : World E) : Prop := Moves s₀ s ∧ s.obj = hw

/-- Reached from `s₀`, with the manager still `m`; the table may have moved. -/
def Over (s₀ : World E) (m : Manager) (s : World E) : Prop :=
  Moves s₀ s ∧ s.obj.mgr = m

theorem over_stable (s₀ : World E) (m : Manager) : Stable (Over s₀ m) :=
  fun s q a e hb hs => ⟨hs.1.tail (.hear s q a e hb), hs.2⟩

theorem at_stable (s₀ : World E) (hw : Hw) : Stable (At s₀ hw) :=
  fun s q a e hb hs => ⟨hs.1.tail (.hear s q a e hb), hs.2⟩

section Callbacks

variable {io : Backend E} {P : World E → Prop} {α : Type} {Q : α → World E → Prop}
variable {m : Manager}

theorem bind_mgr {f : Manager → Op E α} (hm : ∀ s, P s → s.obj.mgr = m)
    (h : Spec P (f m) Q) : Spec P (mgr >>= f) Q := by
  intro s hs
  change Q (f s.obj.mgr s).1 (f s.obj.mgr s).2
  rw [hm s hs]
  exact h s hs

theorem bind_slot {i : Fin maxMappings} {f : Slot → Op E α}
    (hm : ∀ s, P s → s.obj.mgr = m) (h : Spec P (f (m.slots i)) Q) :
    Spec P (slot i >>= f) Q := by
  intro s hs
  change Q (f (s.obj.slots i) s).1 (f (s.obj.slots i) s).2
  rw [hm s hs]
  exact h s hs

theorem over_mgr {s₀ : World E} {f : Manager → Op E α} (h : Spec (Over s₀ m) (f m) Q) :
    Spec (Over s₀ m) (mgr >>= f) Q :=
  bind_mgr (fun _ h => h.2) h

theorem over_slot {s₀ : World E} {i : Fin maxMappings} {f : Slot → Op E α}
    (h : Spec (Over s₀ m) (f (m.slots i)) Q) : Spec (Over s₀ m) (slot i >>= f) Q :=
  bind_slot (fun _ h => h.2) h

theorem bind_slot_any {i : Fin maxMappings} {f : Slot → Op E α}
    (h : ∀ sl, Spec (fun s => P s ∧ s.obj.slots i = sl) (f sl) Q) : Spec P (slot i >>= f) Q :=
  fun s hs => h (s.obj.slots i) s ⟨hs, rfl⟩

theorem consult_spec (hP : Stable P) (q : Query) (hq : ∀ a, q.Benign a) :
    Spec P (consult io q) (fun _ => P) :=
  spec_ask _ _ (fun s a e hs => hP s q a e (hq a) hs)

/-- A refusal keeps the predicate, and a yes found it holding. -/
theorem grant_bind (hP : Stable P) {q : Query} {f : Bool → Op E α} (hq : q.Benign false)
    (hno : Spec P (f false) Q) (hyes : ∀ u e, P u →
      Q (f true (u.heard (.call q true) e)).1 (f true (u.heard (.call q true) e)).2) :
    Spec P (consult io q >>= f) Q := by
  refine spec_bind (R := fun b t => (b = false → P t) ∧
    (b = true → ∃ u e, P u ∧ t = u.heard (.call q true) e)) (spec_ask _ _ fun u a e hu => ?_)
    fun b => ?_
  · exact ⟨fun ha => hP u q a e (ha ▸ hq) hu, fun ha => ⟨u, e, hu, ha ▸ rfl⟩⟩
  · cases b with
    | false => exact spec_pre (fun t ht => ht.1 rfl) hno
    | true =>
      intro t ht
      rcases ht.2 rfl with ⟨u, e, hu, rfl⟩
      exact hyes u e hu

theorem live_spec (hP : Stable P) : Spec P (live io) (fun _ => P) := by
  intro s hs
  change P ((if (s.obj.started && !s.obj.closed) = true
    then consult io (.admitted s.obj.epoch) else pure false : Op E Bool) s).2
  by_cases hup : (s.obj.started && !s.obj.closed) = true
  · rw [if_pos hup]
    exact consult_spec hP (.admitted _) (fun _ => trivial) s hs
  · rw [if_neg hup]
    exact hs

/-- Liveness is only ever reported of an open manager. -/
theorem live_open (hP : Stable P) (hm : ∀ s, P s → s.obj.mgr = m) :
    Spec P (live io) (fun up s => P s ∧ (up = true → m.started = true ∧ m.closed = false)) := by
  intro s hs
  refine ⟨live_spec hP s hs, fun hup => ?_⟩
  rw [← hm s hs]
  change ((if (s.obj.started && !s.obj.closed) = true
    then consult io (.admitted s.obj.epoch) else pure false : Op E Bool) s).1 = true at hup
  by_cases hopen : (s.obj.started && !s.obj.closed) = true
  · simpa only [Bool.and_eq_true, Bool.not_eq_true'] using hopen
  · rw [if_neg hopen] at hup
    cases hup

theorem read_spec (hP : Stable P) (a : Nat) :
    Spec P (read io a) (fun r s => P s ∧ ∀ v, r = some v → v = s.obj.pte a) := by
  refine spec_bind (R := fun _ => P) (spec_andM (live_spec hP) (fun _ hs => hs) ?_) fun ok => ?_
  · intro s hs
    exact consult_spec hP (.readPte s.obj.epoch a) (fun _ => trivial) s hs
  · cases ok with
    | false => exact spec_pure _ (fun s hs => ⟨hs, nofun⟩)
    | true => exact fun s hs => ⟨hs, fun v hv => (Option.some.inj hv).symm⟩

theorem writePte_spec {Q : Bool → World E → Prop} (a v : Nat)
    (h : ∀ s landed ok e, P s → Q ok (stored s landed ok a v e)) : Spec P (writePte io a v) Q :=
  fun s hs => h s _ _ _ hs

theorem verify_spec (hP : Stable P) (sl : Slot) (clearing : Bool) (pages : List Nat) :
    Spec P (verify io sl clearing pages) (fun _ => P) := by
  induction pages with
  | nil => exact spec_pure _ (fun _ hs => hs)
  | cons page rest ih =>
    unfold verify
    cases expected io sl page with
    | none => exact spec_pure _ (fun _ hs => hs)
    | some want =>
      refine spec_bind (spec_post (read_spec hP _) (fun _ _ h => h.1)) fun r => ?_
      cases r with
      | none => exact spec_pure _ (fun _ hs => hs)
      | some actual => exact spec_unless (fun _ hs => hs) (fun _ => ih)

/-- When every page reads zero, the table is zero there. -/
theorem readZero_spec (hP : Stable P) {hw : Hw} (hobj : ∀ s, P s → s.obj = hw) (sl : Slot)
    (pages : List Nat) :
    Spec P (readZero io sl pages)
      (fun ok s => P s ∧ (ok = true → ∀ page ∈ pages, hw.pte (sl.entry page) = 0)) := by
  induction pages with
  | nil => exact spec_pure _ (fun s hs => ⟨hs, fun _ page hpage => absurd hpage List.not_mem_nil⟩)
  | cons page rest ih =>
    unfold readZero
    refine spec_bind (read_spec hP _) fun r => ?_
    rcases r with _ | v
    · simp [spec_pure]
    · cases v with
      | succ n => exact spec_pure _ (fun s hs => ⟨hs.1, nofun⟩)
      | zero =>
        intro s hs
        have hzero : hw.pte (sl.entry page) = 0 := by
          rw [← hobj s hs.1]
          exact (hs.2 0 rfl).symm
        rcases ih s hs.1 with ⟨hP', hrest⟩
        refine ⟨hP', fun hok p hp => ?_⟩
        rcases List.mem_cons.mp hp with rfl | hmem
        · exact hzero
        · exact hrest hok p hmem

end Callbacks

section Teardown

variable {io : Backend E} {s₀ : World E} {m : Manager} {i : Fin maxMappings}

/-- The clearing loop only writes entries of its own slot. -/
theorem clearPages_spec (hq : (m.slots i).state = .quarantined) (htouch : (m.slots i).touched)
    (hclear : (m.slots i).cleared = false) (pages : List Nat)
    (hpages : ∀ page ∈ pages, page < (m.slots i).backing.pageCount) :
    Spec (Over s₀ m) (clearPages io (m.slots i) pages) (fun _ => Over s₀ m) := by
  induction pages with
  | nil => exact spec_pure _ (fun _ hs => hs)
  | cons page rest ih =>
    have hstable := over_stable s₀ m
    unfold clearPages
    refine spec_bind (R := fun _ => Over s₀ m)
      (spec_andM (live_spec hstable) (fun _ hs => hs) (writePte_spec _ _ ?_)) fun wrote => ?_
    · rintro s landed ok e ⟨hpath, rfl⟩
      refine ⟨hpath.tail ?_, stored_mgr s landed ok _ _ e⟩
      exact .write s i page 0 landed ok e hq htouch hclear (hpages page List.mem_cons_self)
    · refine spec_guard (fun _ hs => hs) ?_
      refine spec_bind (spec_post (read_spec hstable _) (fun _ _ h => h.1)) fun r => ?_
      rcases r with _ | v
      · exact spec_pure _ (fun _ hs => hs)
      · cases v with
        | succ n => exact spec_pure _ (fun _ hs => hs)
        | zero => exact ih (fun p hp => hpages p (List.mem_cons_of_mem _ hp))

/-- Zero entries, and no write since the last completed invalidation. -/
def Cleared (sl : Slot) (s : World E) : Prop :=
  (∀ page < sl.backing.pageCount, s.obj.pte (sl.entry page) = 0) ∧ ∀ a, Flushed a s.log

theorem clearEntries_spec (hq : (m.slots i).state = .quarantined) (htouch : (m.slots i).touched)
    (hclear : (m.slots i).cleared = false) :
    Spec (Over s₀ m) (clearEntries io i)
      (fun ok s => Over s₀ m s ∧ (ok = true → Cleared (m.slots i) s)) := by
  have hstable := over_stable s₀ m
  have hno : ∀ s, Over s₀ m s →
      Over s₀ m s ∧ (false = true → Cleared (m.slots i) s) := fun s hs => ⟨hs, nofun⟩
  have hbody : Spec (Over s₀ m)
      (consult io (.ownsBacking (m.slots i).owner m.epoch (m.slots i).backing) <&&>
        consult io (.retired (m.slots i).owner m.epoch ⟨i, (m.slots i).generation⟩) <&&>
        verify io (m.slots i) true (m.slots i).pages <&&>
        clearPages io (m.slots i) (m.slots i).pages <&&> live io <&&>
        consult io (.invalidate m.epoch) <&&> readZero io (m.slots i) (m.slots i).pages)
      (fun ok s => Over s₀ m s ∧ (ok = true → Cleared (m.slots i) s)) := by
    refine spec_andM (consult_spec hstable _ (fun _ => trivial)) hno ?_
    refine spec_andM (consult_spec hstable _ (fun _ => trivial)) hno ?_
    refine spec_andM (verify_spec hstable _ _ _) hno ?_
    refine spec_andM (clearPages_spec hq htouch hclear _ (fun p hp => List.mem_range.mp hp)) hno ?_
    refine spec_andM (live_spec hstable) hno ?_
    -- The completed invalidation flushes every address at once.
    refine spec_andM (R := fun b s => Over s₀ m s ∧ (b = true → ∀ a, Flushed a s.log)) ?_
      (fun s hs => hno s hs.1) ?_
    · refine spec_ask _ _ (fun s a e hs => ⟨hstable s _ a e trivial hs, fun ha b => Or.inl ?_⟩)
      subst ha
      trivial
    · intro s hs
      have hpin : Stable (fun t => Over s₀ m t ∧ t.obj = s.obj ∧ ∀ a, Flushed a t.log) :=
        fun t q a e hb ht => ⟨hstable t q a e hb ht.1, ht.2.1,
          fun x => flushed_heard e (not_writes_of_benign hb x) (ht.2.2 x)⟩
      rcases readZero_spec hpin (fun t ht => ht.2.1) (m.slots i) (m.slots i).pages s
        ⟨hs.1, rfl, hs.2 rfl⟩ with ⟨⟨hover, hobj, hflush⟩, hzero⟩
      refine ⟨hover, fun hok => ⟨fun page hpage => ?_, hflush⟩⟩
      rw [hobj]
      exact hzero hok page (List.mem_range.mpr hpage)
  rintro s ⟨hpath, rfl⟩
  exact hbody s ⟨hpath, rfl⟩

theorem dropBacking_spec (hq : (m.slots i).state = .quarantined)
    (husers : (m.slots i).users = 0)
    (hdone : (m.slots i).touched → (m.slots i).cleared) :
    Spec (Over s₀ m) (dropBacking io i) (fun _ => Moves s₀) := by
  have hlive : (m.slots i).state ≠ .free := by rw [hq]; decide
  refine over_slot ?_
  by_cases hheld : (m.slots i).held = true
  · rw [if_pos hheld]
    refine over_mgr ?_
    -- Dropping the backing and handing the slot back are one move.
    refine grant_bind (over_stable s₀ m) rfl (spec_pure _ fun t ht => ht.1) ?_
    rintro u e ⟨hu, rfl⟩
    exact hu.tail (.drop u i e hheld husers hdone)
  · rw [if_neg hheld]
    rintro u ⟨hu, rfl⟩
    exact hu.tail (.free u i hlive (Bool.eq_false_iff.mpr hheld) husers)

theorem setSlot_self (m : Manager) (i : Fin maxMappings) (x : Slot) :
    (m.setSlot i x).slots i = x := by
  simp only [Manager.setSlot, update_self]

theorem setSlot_spec {P : World E → Prop} {f : Slot → Slot}
    (hP : ∀ s, P s → Over s₀ m s ∧ Move s (s.put (s.obj.setSlot i (f (s.obj.slots i))))) :
    Spec P (setSlot i f) (fun _ => Over s₀ (m.setSlot i (f (m.slots i)))) := by
  intro s hs
  rcases hP s hs with ⟨⟨hpath, rfl⟩, hmove⟩
  exact ⟨hpath.tail hmove, rfl⟩

theorem teardown_spec (hq : (m.slots i).state = .quarantined) :
    Spec (Over s₀ m) (teardown io i) (fun _ => Moves s₀) := by
  refine spec_bind (live_spec (over_stable s₀ m)) fun up => ?_
  refine spec_guard (fun _ hs => hs.1) ?_
  refine over_slot ?_
  refine spec_unless (fun _ hs => hs.1) fun husers => ?_
  have husers : (m.slots i).users = 0 := not_not.mp husers
  refine spec_ite (fun hdirty => ?_) fun hclean => ?_
  · simp only [Bool.and_eq_true, Bool.not_eq_true'] at hdirty
    refine spec_bind (clearEntries_spec hq hdirty.1 hdirty.2) fun ok => ?_
    cases ok with
    | false => exact spec_pure _ (fun _ hs => hs.1.1)
    | true =>
      refine spec_bind (R := fun _ => Over s₀ (m.setSlot i { m.slots i with cleared := true }))
        (setSlot_spec ?_) fun _ => ?_
      · rintro s ⟨hover, hcleared⟩
        refine ⟨hover, ?_⟩
        rcases hover with ⟨_, rfl⟩
        exact .clear s i hdirty.1 hq husers (hcleared rfl).1 (hcleared rfl).2
      · refine dropBacking_spec ?_ ?_ fun _ => ?_
        · rw [setSlot_self]
          exact hq
        · rw [setSlot_self]
          exact husers
        · rw [setSlot_self]
  · refine dropBacking_spec hq husers fun htouch => ?_
    simpa only [htouch, Bool.true_and, Bool.not_eq_true', Bool.not_eq_false] using hclean

end Teardown

section Publish

variable {io : Backend E} {s₀ : World E} {i : Fin maxMappings} {mm : Mapping} {m : Manager}

/-- The slot is quarantined, holds backing and is not cleared. -/
structure Writing (s₀ : World E) (i : Fin maxMappings) (mm : Mapping) (t : Bool)
    (s : World E) : Prop where
  path : Moves s₀ s
  mapping : (s.obj.slots i).m = mm
  held : (s.obj.slots i).held = true
  cleared : (s.obj.slots i).cleared = false
  touched : t = true → (s.obj.slots i).touched = true

theorem writing_stable (t : Bool) : Stable (Writing s₀ i mm t) :=
  fun s q a e hb hs => { hs with path := hs.path.tail (.hear s q a e hb) }

theorem Writing.weaken {t : Bool} {s : World E} (h : Writing s₀ i mm true s) :
    Writing s₀ i mm t s := { h with touched := fun _ => h.touched rfl }

theorem touch_writing {t : Bool} (hq : mm.state = .quarantined) :
    Spec (Writing s₀ i mm t) (setSlot i fun s => { s with touched := true })
      (fun _ => Writing s₀ i mm true) := by
  intro s hs
  have hmove : Move s (s.put (s.obj.setSlot i { s.obj.slots i with touched := true })) :=
    .touch s i (by rw [hs.mapping]; exact hq) hs.held hs.cleared
  have hslot : ((s.put (s.obj.setSlot i { s.obj.slots i with touched := true })).obj.slots
      i) = { s.obj.slots i with touched := true } := setSlot_self _ _ _
  change Writing s₀ i mm true (s.put (s.obj.setSlot i { s.obj.slots i with touched := true }))
  refine ⟨hs.path.tail hmove, ?_, ?_, ?_, fun _ => ?_⟩
  · rw [hslot]; exact hs.mapping
  · rw [hslot]; exact hs.held
  · rw [hslot]; exact hs.cleared
  · rw [hslot]

theorem writePte_writing (hq : mm.state = .quarantined) {page : Nat}
    (hpage : page < mm.backing.pageCount) (pte : Nat) :
    Spec (Writing s₀ i mm true) (writePte io (mm.range.address + page * pageSize) pte)
      (fun _ => Writing s₀ i mm true) := by
  refine writePte_spec _ _ fun s landed ok e hs => ?_
  have hentry : (s.obj.slots i).entry page = mm.range.address + page * pageSize := by
    rw [Slot.entry, hs.mapping]
  have hmove := Move.write s i page pte landed ok e (by rw [hs.mapping]; exact hq)
    (hs.touched rfl) hs.cleared (by rw [hs.mapping]; exact hpage)
  rw [hentry] at hmove
  have hslot := congrFun (congrArg Manager.slots
    (stored_mgr s landed ok (mm.range.address + page * pageSize) pte e)) i
  refine ⟨hs.path.tail hmove, ?_, ?_, ?_, fun _ => ?_⟩
  · rw [hslot]; exact hs.mapping
  · rw [hslot]; exact hs.held
  · rw [hslot]; exact hs.cleared
  · rw [hslot]; exact hs.touched rfl

/-- The writing loop touches the slot as soon as there is a page to write. -/
theorem writePages_spec (hq : mm.state = .quarantined) (pages : List Nat)
    (hpages : ∀ page ∈ pages, page < mm.backing.pageCount) : ∀ t,
    Spec (Writing s₀ i mm t) (writePages io i pages)
      (fun r s => Writing s₀ i mm t s ∧ (r = .done → pages ≠ [] → Writing s₀ i mm true s)) := by
  induction pages with
  | nil => exact fun t => spec_pure _ (fun s hs => ⟨hs, fun _ hne => absurd rfl hne⟩)
  | cons page rest ih =>
    intro t
    have hpage := hpages page List.mem_cons_self
    unfold writePages
    refine spec_bind (live_spec (writing_stable t)) fun up => ?_
    refine spec_guard (fun s hs => ⟨hs, nofun⟩) ?_
    refine bind_slot_any fun sl => ?_
    cases expected io sl page with
    | none => exact spec_pure _ (fun s hs => ⟨hs.1, nofun⟩)
    | some pte =>
      rintro s ⟨hs, rfl⟩
      have hentry : (s.obj.slots i).entry page = mm.range.address + page * pageSize := by
        rw [Slot.entry, hs.mapping]
      rw [hentry]
      -- From the first write on the slot counts as touched.
      dsimp only
      refine (spec_bind (touch_writing hq) (fun _ => ?_) :
        Spec _ _ (fun r s => Writing s₀ i mm t s ∧
          (r = Written.done → page :: rest ≠ [] → Writing s₀ i mm true s))) s hs
      refine spec_bind (writePte_writing hq hpage pte) fun ok => ?_
      refine spec_guard (fun s hs => ⟨hs.weaken, nofun⟩) ?_
      refine spec_bind (spec_post (read_spec (writing_stable true) _) (fun _ _ h => h.1))
        fun r => ?_
      cases r with
      | none => exact spec_pure _ (fun s hs => ⟨hs.weaken, nofun⟩)
      | some actual =>
        refine spec_ite
          (fun _ => spec_pure _ (fun s hs => ⟨hs.weaken, nofun⟩)) fun _ => ?_
        exact spec_post (ih (fun p hp => hpages p (List.mem_cons_of_mem _ hp)) true)
          (fun r s h => ⟨h.1.weaken, fun _ _ => h.1⟩)

theorem abandon_spec (hq : (m.slots i).state = .quarantined) (status : Status) :
    Spec (Over s₀ m) (abandon io i status) (fun _ => Moves s₀) := by
  refine spec_bind (teardown_spec hq) fun r => ?_
  exact spec_unless (fun _ hs => hs) (fun _ => spec_pure _ (fun _ hs => hs))

theorem install_write_spec (hq : mm.state = .quarantined) (hpages : 0 < mm.backing.pageCount)
    (epoch : Nat) :
    Spec (Writing s₀ i mm false)
      (writePages io i (List.range mm.backing.pageCount) >>= fun r =>
        match r with
        | .refused => pure .quarantined
        | .failed => abandon io i .io
        | .done => slot i >>= fun s =>
          (live io <&&> consult io (.invalidate epoch) <&&> verify io s false s.pages) >>=
            fun ok => if (!ok) = true then abandon io i .io
              else setSlot i (fun s => s.withState .published) >>= fun _ => pure .ok)
      (fun _ => Moves s₀) := by
  have habandon : ∀ t, Spec (Writing s₀ i mm t) (abandon io i .io) (fun _ => Moves s₀) := by
    intro t s hs
    exact abandon_spec (m := s.obj.mgr) (by rw [hs.mapping]; exact hq) .io s ⟨hs.path, rfl⟩
  refine spec_bind (writePages_spec hq _ (fun p hp => List.mem_range.mp hp) false) fun r => ?_
  cases r with
  | refused => exact spec_pure _ (fun s hs => hs.1.path)
  | failed => exact spec_pre (fun s hs => hs.1) (habandon false)
  | done =>
    have hne : List.range mm.backing.pageCount ≠ [] := by
      rw [Ne, List.range_eq_nil]
      omega
    refine spec_pre (P := Writing s₀ i mm true) (fun s hs => hs.2 rfl hne) ?_
    refine bind_slot_any (fun sl => spec_pre (fun s hs => hs.1) ?_)
    have hstable : Stable (Writing s₀ i mm true) := writing_stable true
    refine spec_bind (R := fun _ => Writing s₀ i mm true)
      (spec_andM (live_spec hstable) (fun _ hs => hs)
        (spec_andM (consult_spec hstable (.invalidate epoch) (fun _ => trivial)) (fun _ hs => hs)
          (verify_spec hstable sl false sl.pages))) (fun ok => ?_)
    refine spec_ite (fun _ => habandon true) fun _ => ?_
    intro s hs
    exact hs.path.tail (.publish s i (by rw [hs.mapping]; exact hq) (hs.touched rfl) hs.cleared)

/-- After quarantining the slot, the rest is a path from an idle state. -/
theorem quarantine_then {α : Type} {x : Op E α}
    (hlive : (m.slots i).state ≠ .free)
    (hidle : ∀ j, j ≠ i → (m.slots j).state = .reserved → (m.slots j).held = false)
    (hx : ∀ s₁ : World E,
      s₁.obj.mgr = m.setSlot i ((m.slots i).withState .quarantined) → Moves s₁ (x s₁).2) :
    Spec (Over s₀ m) (quarantine i >>= fun _ => x) (fun _ s => Moves s₀ s ∧ Idle s) := by
  rintro s ⟨hpath, rfl⟩
  have hmove : Move s (s.put (s.obj.setSlot i
      ((s.obj.slots i).withState .quarantined))) := .quarantine s i hlive
  have hpath' := hpath.tail hmove
  have hidle' : Idle (s.put (s.obj.setSlot i ((s.obj.slots i).withState .quarantined))) := by
    intro j hj
    by_cases hji : j = i
    · subst hji
      rw [Sys.put, setSlot_slots, update_self] at hj
      cases hj
    · rw [Sys.put, setSlot_slots, update_of_ne hji] at hj ⊢
      exact hidle j hji hj
  have hrest := hx (s.put (s.obj.setSlot i ((s.obj.slots i).withState .quarantined))) rfl
  exact ⟨hpath'.trans hrest, moves_idle hrest hidle'⟩

theorem install_spec (hstate : (m.slots i).state = .reserved)
    (hheld : (m.slots i).held = true) (hclear : (m.slots i).cleared = false)
    (hpages : 0 < (m.slots i).backing.pageCount)
    (hidle : ∀ j, j ≠ i → (m.slots j).state = .reserved → (m.slots j).held = false)
    (owner : Nat) (b : Backing) :
    Spec (Over s₀ m) (install io i owner b) (fun _ s => Moves s₀ s ∧ Idle s) := by
  have hstable := over_stable s₀ m
  have hlive : (m.slots i).state ≠ .free := by rw [hstate]; decide
  have hquar : ((m.setSlot i ((m.slots i).withState .quarantined)).slots i).state
      = .quarantined := by rw [setSlot_self]; rfl
  refine over_mgr ?_
  refine spec_bind (consult_spec hstable _ (fun _ => trivial)) fun owns => ?_
  refine over_slot ?_
  refine spec_ite (fun _ => ?_) fun _ => ?_
  · refine quarantine_then hlive hidle fun s₁ hs₁ => ?_
    exact abandon_spec hquar .invalid s₁ ⟨.refl, hs₁⟩
  · refine spec_bind (R := fun _ => Over s₀ m) ?_ fun free => ?_
    · rintro s ⟨hpath, rfl⟩
      have hpin := at_stable s₀ s.obj
      rcases readZero_spec hpin (fun _ h => h.2) (s.obj.slots i) (s.obj.slots i).pages s
        ⟨hpath, rfl⟩ with ⟨⟨hpath', hobj⟩, _⟩
      exact ⟨hpath', congrArg Hw.mgr hobj⟩
    · refine spec_ite (fun _ => ?_) fun _ => ?_
      · exact quarantine_then hlive hidle (fun s₁ _ => .refl)
      · refine quarantine_then hlive hidle fun s₁ hs₁ => ?_
        have hslot : s₁.obj.slots i = (m.slots i).withState .quarantined := by
          rw [hs₁, setSlot_self]
        have hwriting : Writing s₁ i ((m.slots i).withState .quarantined).m false s₁ :=
          ⟨.refl, by rw [hslot], by rw [hslot]; exact hheld, by rw [hslot]; exact hclear,
            nofun⟩
        have hspec := @install_write_spec E io s₁ i ((m.slots i).withState .quarantined).m rfl
          hpages m.epoch s₁ hwriting
        exact hspec

theorem get_ok {owner epoch : Nat} {h : Handle}
    (hget : m.get owner epoch h = .ok i) :
    m.started = true ∧ m.closed = false ∧ (m.slots i).state ≠ .free ∧
      (m.slots i).generation = h.generation ∧ (m.slots i).owner = owner ∧
      owner ≠ 0 ∧ epoch = m.epoch ∧ h.slot = i := by
  unfold Manager.get at hget
  split at hget
  · cases hget
  rename_i hup
  split at hget
  · cases hget
  rename_i hepoch
  split at hget
  · split at hget
    · cases hget
    dsimp only at hget
    split at hget
    · cases hget
    rename_i hslot
    split at hget
    · cases hget
    rename_i howner
    injection hget with hget
    subst hget
    simp only [Bool.or_eq_true, Bool.not_eq_true', not_or, Bool.not_eq_false,
      Bool.not_eq_true] at hup
    rw [not_or] at hslot howner
    exact ⟨hup.1, hup.2, hslot.1, not_not.mp hslot.2, not_not.mp howner.2, howner.1,
      not_not.mp hepoch, rfl⟩
  · cases hget

theorem Slot.Wf.pages_pos {s : Slot} (h : s.Wf) (hlive : s.state ≠ .free) :
    0 < s.range.bytes / pageSize := by
  rcases h.placed hlive with ⟨hne, _, hmod, _⟩
  have hdm := Nat.div_add_mod s.range.bytes pageSize
  rw [hmod] at hdm
  rcases Nat.eq_zero_or_pos (s.range.bytes / pageSize) with hz | hpos
  · rw [hz] at hdm
    omega
  · exact hpos

theorem publish_spec (hwf : Wf s₀) (hidle : Idle s₀) (owner epoch : Nat) (h : Handle)
    (b : Backing) (pat : Nat) :
    Quiet s₀ (publish io owner epoch h b pat s₀).2 := by
  have hquiet : ∀ s, Over s₀ s₀.obj.mgr s → Quiet s₀ s := fun s hs => quiet_of_moves hidle hs.1
  suffices h : Spec (Over s₀ s₀.obj.mgr) (publish io owner epoch h b pat) (fun _ => Quiet s₀) from
    h s₀ ⟨.refl, rfl⟩
  have hstable := over_stable s₀ s₀.obj.mgr
  refine over_mgr ?_
  cases hget : s₀.obj.get owner epoch h with
  | error e => exact spec_pure _ hquiet
  | ok i =>
    rcases get_ok hget with ⟨_, _, hlive, _, rfl, _⟩
    refine over_slot ?_
    refine spec_unless hquiet fun hres => ?_
    have hres : (s₀.obj.slots i).state = .reserved := not_not.mp hres
    refine spec_bind (live_spec hstable) fun up => ?_
    refine spec_guard hquiet ?_
    refine spec_unless hquiet fun huse => ?_
    have huse : b.Usable (s₀.obj.slots i) pat := not_not.mp huse
    refine over_mgr ?_
    refine spec_bind (consult_spec hstable _ (fun _ => trivial)) fun ready => ?_
    refine spec_guard hquiet ?_
    -- Retaining the backing and recording it are one move.
    refine grant_bind hstable rfl (spec_pure _ hquiet) ?_
    rintro u e ⟨hpath, hmgr⟩
    have hidleU : Idle u := moves_idle hpath hidle
    rw [← hmgr] at hres huse hlive ⊢
    let v := (u.heard (.call (.retainBacking (u.obj.slots i).owner u.obj.epoch b) true)
      e).put (u.obj.setSlot i ((u.obj.slots i).hold b pat))
    have hstep : Step u v := .hold u i b pat e hres (hidleU i hres) huse
    have hwfU : Wf u := moves_wf hpath hwf
    have hclean : (u.obj.slots i).cleared = false := by
      rcases hc : (u.obj.slots i).cleared with _ | _
      · rfl
      · have hcq := ((hwfU.slots i).cleared hc).2
        rw [hres] at hcq
        cases hcq
    have hslot := setSlot_self u.obj.mgr i ((u.obj.slots i).hold b pat)
    have hcount : b.pageCount = (u.obj.slots i).range.bytes / pageSize :=
      huse.2.2.2.2.1
    have hrest := @install_spec E io v i
      (u.obj.mgr.setSlot i ((u.obj.slots i).hold b pat))
      (by rw [hslot]; exact hres) (by rw [hslot]; rfl) (by rw [hslot]; exact hclean)
      (by
        rw [hslot]
        change 0 < b.pageCount
        rw [hcount]
        exact (hwfU.slots i).pages_pos hlive)
      (by
        intro j hji hj
        have hother : (u.obj.mgr.setSlot i ((u.obj.slots i).hold b pat)).slots j
            = u.obj.slots j := update_of_ne hji _ _
        rw [hother] at hj ⊢
        exact hidleU j hj)
      (u.obj.slots i).owner b _ ⟨.refl, rfl⟩
    have hkept : Kept u v := kept_update (.inr rfl)
    exact ⟨((reaches_of_moves hpath).tail hstep).trans (reaches_of_moves hrest.1), hrest.2,
      (moves_kept hpath).trans (hkept.trans (moves_kept hrest.1))⟩

end Publish

section Operations

variable {io : Backend E} {s₀ : World E}

/-- A vouched-for slot is still published and is the one the handle names. -/
theorem published_spec (owner epoch : Nat) (h : Handle) (b : Backing) :
    Spec (Over s₀ s₀.obj.mgr) (published io owner epoch h b)
      (fun r s => Moves s₀ s ∧ ∀ i, r = .ok i →
        s.obj.mgr = s₀.obj.mgr ∧ (s₀.obj.slots i).state = .published) := by
  have hstable := over_stable s₀ s₀.obj.mgr
  refine over_mgr ?_
  cases hget : s₀.obj.get owner epoch h with
  | error e => exact spec_pure _ (fun s hs => ⟨hs.1, nofun⟩)
  | ok i =>
    rcases get_ok hget with ⟨_, _, hlive, _⟩
    refine over_slot ?_
    refine spec_unless (fun s hs => ⟨hs.1, nofun⟩)
      fun hpub => ?_
    refine spec_guard (fun s hs => ⟨hs.1, nofun⟩) ?_
    refine over_mgr ?_
    refine spec_bind (R := fun _ => Over s₀ s₀.obj.mgr)
      (spec_andM (live_spec hstable) (fun _ hs => hs)
        (spec_andM (consult_spec hstable (.ownsBacking _ _ _) (fun _ => trivial)) (fun _ hs => hs)
          (spec_andM (consult_spec hstable (.patReady _ _) (fun _ => trivial)) (fun _ hs => hs)
            (verify_spec hstable _ _ _)))) (fun good => ?_)
    refine spec_ite (fun _ => ?_) fun _ => ?_
    · rintro s ⟨hpath, hmgr⟩
      rw [← hmgr] at hlive
      exact ⟨hpath.tail (.quarantine s i hlive), nofun⟩
    · refine spec_pure _ (fun s hs => ⟨hs.1, fun j hj => ⟨hs.2, ?_⟩⟩)
      injection hj with hj
      subst hj
      exact not_not.mp hpub

theorem retain_spec (owner epoch : Nat) (h : Handle) (b : Backing) :
    Spec (Over s₀ s₀.obj.mgr) (retain io owner epoch h b) (fun _ => Moves s₀) := by
  refine spec_bind (published_spec owner epoch h b) fun r => ?_
  cases r with
  | error e => exact spec_pure _ (fun _ hs => hs.1)
  | ok i =>
    refine bind_slot (fun s hs => (hs.2 i rfl).1) ?_
    refine spec_guard (fun _ hs => hs.1) ?_
    intro s hs
    rcases hs.2 i rfl with ⟨hmgr, hpub⟩
    rw [← hmgr] at hpub
    exact hs.1.tail (.use s i hpub)

theorem release_spec (owner epoch : Nat) (h : Handle) :
    Spec (Over s₀ s₀.obj.mgr) (release io owner epoch h) (fun _ => Moves s₀) := by
  have hstable := over_stable s₀ s₀.obj.mgr
  refine over_mgr ?_
  cases s₀.obj.get owner epoch h with
  | error e => exact spec_pure _ (fun _ hs => hs.1)
  | ok i =>
    refine over_slot ?_
    refine spec_unless (fun _ hs => hs.1) fun husers => ?_
    refine spec_bind (R := fun _ => Over s₀ s₀.obj.mgr)
      (spec_andM (live_spec hstable) (fun _ hs => hs)
        (over_mgr (consult_spec hstable (.retired _ _ _) (fun _ => trivial))))
      fun quiet => ?_
    refine spec_guard (fun _ hs => hs.1) ?_
    rintro s ⟨hpath, hmgr⟩
    rw [← hmgr] at husers
    exact hpath.tail (.unuse s i husers)

theorem retire_spec (owner epoch : Nat) (h : Handle) :
    Spec (Over s₀ s₀.obj.mgr) (retire io owner epoch h) (fun _ => Moves s₀) := by
  refine over_mgr ?_
  cases hget : s₀.obj.get owner epoch h with
  | error e => exact spec_pure _ (fun _ hs => hs.1)
  | ok i =>
    rcases get_ok hget with ⟨_, _, hlive, _⟩
    have hquar : ∀ s, Over s₀ s₀.obj.mgr s → Over s₀ s₀.obj.mgr s ∧
        Move s (s.put (s.obj.setSlot i ((s.obj.slots i).withState .quarantined))) := by
      intro s hs
      refine ⟨hs, .quarantine s i ?_⟩
      rw [hs.2]
      exact hlive
    refine over_slot ?_
    refine spec_guard (fun _ hs => hs.1) ?_
    refine spec_bind (live_spec (over_stable s₀ s₀.obj.mgr)) fun up => ?_
    refine spec_ite (fun _ => ?_) fun _ => ?_
    · exact spec_bind (setSlot_spec hquar) (fun _ => spec_pure _ (fun _ hs => hs.1))
    · refine spec_guard (fun _ hs => hs.1) ?_
      refine spec_bind (setSlot_spec hquar) (fun _ => teardown_spec ?_)
      rw [setSlot_self]
      rfl

theorem live_then {m : Manager} {α : Type} {x y : Op E α} {Q : α → World E → Prop}
    (hx : Spec (Over s₀ m) x Q)
    (hy : m.started = true ∧ m.closed = false → Spec (Over s₀ m) y Q) :
    Spec (Over s₀ m) (live io >>= fun up => if (!up) = true then x else y) Q := by
  refine spec_bind (live_open (over_stable s₀ m) (fun _ h => h.2)) fun up => ?_
  cases up with
  | false => exact spec_pre (fun _ h => h.1) hx
  | true => exact fun s hs => hy (hs.2 rfl) s hs.1

theorem over_reaches {m : Manager} (hidle : Idle s₀) (hs : Over s₀ m s) : Reaches s₀ s ∧ Idle s :=
  ⟨reaches_of_moves hs.1, moves_idle hs.1 hidle⟩

theorem insert_spec {m : Manager} (hwf : Wf s₀) (hidle : Idle s₀) (owner : Nat) {r : Range}
    (hfits : m.Fits r) (hopen : m.started = true ∧ m.closed = false) :
    Spec (Over s₀ m) (insert owner r : Op E (Except Status Handle))
      (fun _ s => Reaches s₀ s ∧ Idle s) := by
  refine over_mgr ?_
  unfold Manager.insert
  by_cases hserial : m.serial = 0
  · rw [if_pos hserial]
    exact spec_pure _ (fun _ => over_reaches hidle)
  · rw [if_neg hserial]
    cases hslot : m.freeSlot with
    | none => exact spec_pure _ (fun _ => over_reaches hidle)
    | some i =>
      have hfree : (m.slots i).state = .free := by
        simpa only [decide_eq_true_eq] using List.find?_some hslot
      rintro s ⟨hpath, rfl⟩
      refine ⟨(reaches_of_moves hpath).tail (.reserve s i owner r hfree hfits hserial hopen), ?_⟩
      refine idle_update (moves_idle hpath hidle) fun _ => ?_
      rw [((moves_wf hpath hwf).slots i).free hfree]
      rfl

theorem reserveAt_spec (hwf : Wf s₀) (hidle : Idle s₀) (owner epoch : Nat) (r : Range) :
    Spec (Over s₀ s₀.obj.mgr) (reserveAt io owner epoch r) (fun _ s => Reaches s₀ s ∧ Idle s) := by
  refine over_mgr ?_
  refine spec_guard (fun _ => over_reaches hidle) ?_
  refine live_then (spec_pure _ (fun _ => over_reaches hidle)) fun hopen => ?_
  refine spec_guard (fun _ => over_reaches hidle) ?_
  refine over_mgr ?_
  refine spec_unless (fun _ => over_reaches hidle) fun hfits => ?_
  exact insert_spec hwf hidle owner (not_not.mp hfits) hopen

theorem reserve_spec (hwf : Wf s₀) (hidle : Idle s₀) (owner epoch bytes alignment : Nat) :
    Spec (Over s₀ s₀.obj.mgr) (reserve io owner epoch bytes alignment)
      (fun _ s => Reaches s₀ s ∧ Idle s) := by
  refine over_mgr ?_
  refine spec_guard (fun _ => over_reaches hidle) ?_
  refine live_then (spec_pure _ (fun _ => over_reaches hidle)) fun hopen => ?_
  refine spec_unless (fun _ => over_reaches hidle) fun hargs => ?_
  simp only [not_or, not_not, Nat.not_lt, gt_iff_lt] at hargs
  rcases hargs with ⟨_, hbytes, hpages, hmax, hlo, hhi, hpow⟩
  refine over_mgr ?_
  cases hplace : s₀.obj.place bytes alignment with
  | none => exact spec_pure _ (fun _ => over_reaches hidle)
  | some base =>
    exact insert_spec hwf hidle owner (place_fits (fun i => (hwf.slots i).placed) hwf.granted
      hbytes hlo hhi hpow hpages hmax hplace) hopen

theorem initializeManager_spec (epoch : Nat) (ranges : List Range) (complete : Bool) :
    Spec (Over s₀ s₀.obj.mgr) (initializeManager io epoch ranges complete)
      (fun _ => Moves s₀) := by
  have hstable := over_stable s₀ s₀.obj.mgr
  refine over_mgr ?_
  refine spec_unless (fun _ hs => hs.1) fun hnew => ?_
  refine spec_unless (fun _ hs => hs.1) fun hgrant => ?_
  have hgrant : Grant epoch ranges complete := not_not.mp hgrant
  refine spec_bind (consult_spec hstable (.admitted _) (fun _ => trivial)) fun up => ?_
  refine spec_guard (fun _ hs => hs.1) ?_
  refine grant_bind hstable rfl (spec_pure _ fun t ht => ht.1) ?_
  rintro u e ⟨hpath, hmgr⟩
  rw [← hmgr] at hnew
  rw [hgrant.2.2.2.1] at hgrant
  exact hpath.tail (.start u epoch ranges e (Bool.eq_false_iff.mpr hnew) hgrant)

theorem close_spec : Spec (Over s₀ s₀.obj.mgr) (close io) (fun _ => Moves s₀) := by
  have hstable := over_stable s₀ s₀.obj.mgr
  refine spec_bind (live_spec hstable) fun up => ?_
  refine spec_guard (fun _ hs => hs.1) ?_
  refine over_mgr ?_
  refine spec_unless (fun _ hs => hs.1) fun hbusy => ?_
  refine grant_bind hstable rfl (spec_pure _ fun t ht => ht.1) ?_
  rintro u e ⟨hpath, hmgr⟩
  rw [← hmgr] at hbusy ⊢
  refine hpath.tail (.close u e (fun i => ?_))
  by_contra hne
  exact hbusy ⟨i, hne⟩

/-- A call that takes on no backing keeps the system idle. -/
theorem quiet_of_spec {α : Type} {x : Op E α} (hidle : Idle s₀)
    (h : Spec (Over s₀ s₀.obj.mgr) x (fun _ => Moves s₀)) : Quiet s₀ (x s₀).2 :=
  quiet_of_moves hidle (h s₀ ⟨.refl, rfl⟩)

theorem spec_status {α : Type} {x : Op E (Except Status α)} {P Q : World E → Prop}
    (h : Spec P x (fun _ => Q)) :
    Spec P (do return statusOf (← x)) (fun _ => Q) :=
  spec_bind h (fun _ => spec_pure _ (fun _ hs => hs))

def Call.reserves : Call → Bool
  | .reserve .. | .reserveAt .. => true
  | _ => false

/-- Every call but a reservation is quiet. -/
theorem step_quiet (io : Backend E) (hwf : Wf s₀) (hidle : Idle s₀) {c : Call}
    (hc : c.reserves = false) : Quiet s₀ (step io c s₀).2 := by
  cases c with
  | initializeManager epoch ranges complete =>
    exact quiet_of_spec hidle (initializeManager_spec epoch ranges complete)
  | reserve | reserveAt => cases hc
  | publish owner epoch h b pat => exact publish_spec hwf hidle owner epoch h b pat
  | published owner epoch h b =>
    exact quiet_of_spec hidle
      (spec_status (spec_post (published_spec owner epoch h b) (fun _ _ hs => hs.1)))
  | retain owner epoch h b => exact quiet_of_spec hidle (retain_spec owner epoch h b)
  | release owner epoch h => exact quiet_of_spec hidle (release_spec owner epoch h)
  | retire owner epoch h => exact quiet_of_spec hidle (retire_spec owner epoch h)
  | close => exact quiet_of_spec hidle close_spec

/-- Every call is a path of moves that ends idle. -/
theorem step_reaches (io : Backend E) (hwf : Wf s₀) (hidle : Idle s₀) (c : Call) :
    Reaches s₀ (step io c s₀).2 ∧ Idle (step io c s₀).2 := by
  by_cases hc : c.reserves = false
  · have hquiet := step_quiet io hwf hidle hc
    exact ⟨hquiet.path, hquiet.idle⟩
  · cases c with
    | reserve owner epoch bytes alignment =>
      exact spec_status (reserve_spec hwf hidle owner epoch bytes alignment) s₀ ⟨.refl, rfl⟩
    | reserveAt owner epoch r =>
      exact spec_status (reserveAt_spec hwf hidle owner epoch r) s₀ ⟨.refl, rfl⟩
    | _ => exact absurd rfl hc

end Operations

theorem start_wf (pte : Nat → Nat) (env : E) : Wf (start pte env) :=
  ⟨fun _ => empty_wf, fun _ hg => absurd hg List.not_mem_nil⟩

theorem start_idle (pte : Nat → Nat) (env : E) : Idle (start pte env) :=
  fun _ h => by cases h

/-- Every run is a path of moves, and ends well formed and idle. -/
theorem run_reaches (io : Backend E) (calls : List Call) (pte : Nat → Nat) (env : E) :
    Reaches (start pte env) (run io calls pte env) ∧ Wf (run io calls pte env) ∧
      Idle (run io calls pte env) := by
  suffices h : Spec (fun s => Reaches (start pte env) s ∧ Wf s ∧ Idle s)
      (runAll (step io) calls) (fun _ s => Reaches (start pte env) s ∧ Wf s ∧ Idle s) from
    h (start pte env) ⟨.refl, start_wf pte env, start_idle pte env⟩
  refine spec_runAll _ (fun c s hs => ?_) calls
  rcases step_reaches io hs.2.1 hs.2.2 c with ⟨hpath, hidle⟩
  exact ⟨hs.1.trans hpath, reaches_wf hpath hs.2.1, hidle⟩

end Mellow.Ggtt
