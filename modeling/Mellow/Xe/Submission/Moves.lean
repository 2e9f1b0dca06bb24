import Mellow.Xe.Submission.Model

/-!
# What the Submission Queue Can Do in One Step

The atomic moves the operations are made of, with their guards. Callbacks in a
row without a decision in between are one move. A release is set off by a line
of the log: an accepted observation that covers the job, or a successful
quiesce.

## Main definitions

* `Move`: the moves.
* `cause`: the line that set a release off.

## Theorems

* `step_moves`: a call is a path of moves.
* `run_moves`: so is a run.
-/

namespace Mellow.MellowXe

open Lib Function

variable {E : Type}

section Chains

/-- The resources were retained one after the other, none refused. -/
def Retained (io : SubmissionBackend E) : List Resource → E → E → Prop
  | [], e, e' => e' = e
  | r :: rest, e, e' => ∃ e₁, io.retain r e = (true, e₁) ∧ Retained io rest e₁ e'

/-- The environment after releasing the resources one after the other. -/
def releases (io : SubmissionBackend E) (rs : List Resource) (e : E) : E :=
  rs.foldl (fun e r => io.release r e) e

def retainLines (rs : List Resource) : List Event := rs.reverse.map fun r => .retain r true

/-- The lines of releasing the resources, last one first. -/
def releaseLines (rs : List Resource) : List Event := rs.map Event.release

/-- The newest line that is neither a release nor a completion. -/
def cause : Log → Option (Entry Queue Event)
  | [] => none
  | e :: before => match e.event with
    | .release _ | .completed _ => cause before
    | _ => some e

/-- The latest news is an accepted observation. -/
def Seen (s : World E) : Prop :=
  ∃ q target o, cause s.log = some ⟨q, .readFence target .none o⟩ ∧ q.Accepts o ∧
    o.generation = s.obj.generation ∧ o.completedSequence = s.obj.lastObserved

/-- The latest news is that the hardware has been stopped. -/
def Quieted (s : World E) : Prop :=
  ∃ q target, cause s.log = some ⟨q, .quiesce target true⟩

end Chains

/-- The queue after the batch of job `i` went out, or may have. -/
def Queue.taken (q : Queue) (i : Fin maxJobs) (answer : BackendAcceptance) : Queue :=
  { q.advanced.setJob i { q.jobs i with
      held := true
      state := if answer = .accepted then .submitted else .acceptanceUnknown } with
    state := if answer = .accepted then q.state else .needsReset }

/-- The system after job `i` has let go of its resources. -/
def drained (io : SubmissionBackend E) (s : World E) (i : Fin maxJobs) :
    World E :=
  (s.heardAll (releaseLines (s.obj.jobs i).resources)
    (releases io (s.obj.jobs i).resources.reverse s.env)).put
    (s.obj.setJob i { s.obj.jobs i with held := false })

/-- The job has nothing out: the state every job is in when a reset ends. -/
def Job.Idle (job : Job) : Prop :=
  job.held = false ∧ job.state ≠ .submitted ∧ job.state ≠ .acceptanceUnknown

inductive Move (io : SubmissionBackend E) : World E → World E → Prop where
  -- Questions that change nothing by themselves.
  | readinessAsked (s : World E) (firmware : FirmwareInfo) :
      Move io s (s.heard (.readiness firmware s.obj.target
        (io.readiness firmware s.obj.target s.env).1.1
        (io.readiness firmware s.obj.target s.env).1.2)
        (io.readiness firmware s.obj.target s.env).2)
  | fenceAsked (s : World E) :
      Move io s (s.heard (.readFence s.obj.target (io.readFence s.obj.target s.env).1.1
        (io.readFence s.obj.target s.env).1.2) (io.readFence s.obj.target s.env).2)
  | quiesceAsked (s : World E) :
      Move io s (s.heard (.quiesce s.obj.target (io.quiesce s.obj.target s.env).1)
        (io.quiesce s.obj.target s.env).2)
  -- The clock and the state of the queue.
  | ticked (s : World E) (now : Nat) (h : s.obj.lastTime ≤ now) :
      Move io s (s.put { s.obj with lastTime := now })
  | activated (s : World E) (h : s.obj.state = .inactive) :
      Move io s (s.put { s.obj with state := .ready })
  | stopped (s : World E) : Move io s (s.put { s.obj with state := .needsReset })
  -- One submission, from the frozen batch to the four ways it can end.
  | loaded (s : World E) (i : Fin maxJobs) (batch : BatchSnapshot)
      (hfree : (s.obj.jobs i).state = .free) :
      Move io s (s.put (s.obj.setJob i { Job.empty with batch := batch }))
  | rolledBack (s : World E) (i : Fin maxJobs) (got : List Resource) (r : Resource)
      (e₁ e₂ : E) (hfree : (s.obj.jobs i).state = .free) (hret : Retained io got s.env e₁)
      (hno : io.retain r e₁ = (false, e₂)) :
      Move io s ((s.heardAll (releaseLines got ++ .retain r false :: retainLines got)
        (releases io got.reverse e₂)).put (s.obj.setJob i Job.empty))
  | rejected (s : World E) (i : Fin maxJobs) (e₁ e₂ : E)
      (hfree : (s.obj.jobs i).state = .free)
      (hret : Retained io (s.obj.jobs i).resources s.env e₁)
      (hsub : io.submit (s.obj.jobs i).batch e₁ = (.rejected, e₂)) :
      Move io s ((((s.heardAll (retainLines (s.obj.jobs i).resources) e₁).put
        (s.obj.setJob i { s.obj.jobs i with held := true })).heardAll
          (releaseLines (s.obj.jobs i).resources ++ [.submit (s.obj.jobs i).batch .rejected])
          (releases io (s.obj.jobs i).resources.reverse e₂)).put
        (s.obj.setJob i Job.empty))
  | taken (s : World E) (i : Fin maxJobs) (answer : BackendAcceptance) (e₁ e₂ : E)
      (hans : answer ≠ .rejected) (hfree : (s.obj.jobs i).state = .free)
      (hready : s.obj.state = .ready) (hroom : s.obj.exhausted = false)
      (hfence : (s.obj.jobs i).fence = ⟨s.obj.generation, s.obj.nextSequence⟩)
      (hgood : checkResources (s.obj.jobs i).owner [] (s.obj.jobs i).resources = .none)
      (hret : Retained io (s.obj.jobs i).resources s.env e₁)
      (hsub : io.submit (s.obj.jobs i).batch e₁ = (answer, e₂)) :
      Move io s ((((s.heardAll (retainLines (s.obj.jobs i).resources) e₁).put
        (s.obj.setJob i { s.obj.jobs i with held := true })).heardAll
          [.handed (s.obj.jobs i).fence, .submit (s.obj.jobs i).batch answer] e₂).put
        (s.obj.taken i answer))
  -- What becomes of jobs that are out.
  | expired (s : World E) : Move io s (s.put (s.obj.expired s.obj.lastTime))
  | observed (s : World E) (o : FenceObservation)
      (hlog : ∃ target before, s.log = ⟨s.obj, .readFence target .none o⟩ :: before)
      (hacc : s.obj.Accepts o) :
      Move io s (s.put { s.obj with lastObserved := o.completedSequence })
  | completed (s : World E) (i : Fin maxJobs)
      (hstate : (s.obj.jobs i).state = .submitted) (hcover : s.obj.Covers (s.obj.jobs i))
      (hseen : Seen s) (htime : s.obj.lastTime < (s.obj.jobs i).deadline) :
      Move io s ((s.heard (.completed i) s.env).put
        (s.obj.setJob i { s.obj.jobs i with state := .completed }))
  | drained (s : World E) (i : Fin maxJobs) (hheld : (s.obj.jobs i).held = true)
      (hcause : Seen s ∧ s.obj.Covers (s.obj.jobs i) ∨ Quieted s) :
      Move io s (drained io s i)
  | interrupted (s : World E) (i : Fin maxJobs) (hquiet : Quieted s) :
      Move io s (s.put (s.obj.setJob i (s.obj.jobs i).interrupted))
  | restarted (s : World E) (hidle : ∀ i, (s.obj.jobs i).Idle) :
      Move io s (s.put s.obj.restarted)
  | retired (s : World E) (i : Fin maxJobs) (hheld : (s.obj.jobs i).held = false)
      (hstate : (s.obj.jobs i).state ≠ .submitted) :
      Move io s (s.put (s.obj.setJob i Job.empty))

abbrev Moves (io : SubmissionBackend E) : World E → World E → Prop :=
  Relation.ReflTransGen (Move io)

/-- Started in `s`, the operation is a path of moves. -/
abbrev Walks {α : Type} (io : SubmissionBackend E) (s : World E) (x : Op E α) : Prop :=
  Spec (fun t => t = s) x fun _ => Moves io s

theorem stays {io : SubmissionBackend E} {s : World E} : ∀ t, t = s → Moves io s t :=
  fun _ ht => ht ▸ .refl

section Runs

variable (io : SubmissionBackend E)

theorem cause_releases (q : Queue) (rs : List Resource) (log : Log) :
    cause ((releaseLines rs).map (Entry.mk q) ++ log) = cause log := by
  induction rs with
  | nil => rfl
  | cons r rest ih => exact ih

theorem releaseEach_eq (rs : List Resource) : ∀ s : World E,
    (releaseEach io rs s).2 = s.heardAll (releaseLines rs.reverse) (releases io rs s.env) := by
  induction rs with
  | nil => intro s; rfl
  | cons r rest ih =>
    intro s
    change (releaseEach io rest (s.heard (.release r) (io.release r s.env))).2 = _
    rw [ih]
    simp [Sys.heardAll, Sys.heard, releaseLines, releases]

/-- Letting go is one step, or none for a job that holds nothing. -/
theorem releaseJob_eq (i : Fin maxJobs) (s : World E) :
    (releaseJob io i s).2 = if (s.obj.jobs i).held = true then drained io s i else s := by
  change ((if (s.obj.jobs i).held = true then
      releaseEach io (s.obj.jobs i).resources.reverse >>= fun _ =>
        setJob i fun job => { job with held := false }
    else pure () : Op E Unit) s).2 = _
  by_cases hheld : (s.obj.jobs i).held = true
  · rw [if_pos hheld, if_pos hheld]
    change ((setJob i fun job => { job with held := false } : Op E Unit)
      (releaseEach io (s.obj.jobs i).resources.reverse s).2).2 = _
    rw [releaseEach_eq, List.reverse_reverse]
    rfl
  · rw [if_neg hheld, if_neg hheld]
    rfl

/-- A prefix was retained: all of them, or the next one was refused. -/
theorem retainEach_eq (rest : List Resource) : ∀ (got : List Resource) (s : World E),
    ∃ pre e₁, Retained io pre s.env e₁ ∧
      (rest = pre ∧ retainEach io got rest s
          = ((true, pre.reverse ++ got), s.heardAll (retainLines pre) e₁) ∨
        ∃ r e₂, io.retain r e₁ = (false, e₂) ∧ retainEach io got rest s
          = ((false, pre.reverse ++ got),
              s.heardAll (.retain r false :: retainLines pre) e₂)) := by
  induction rest with
  | nil => exact fun got s => ⟨[], s.env, rfl, Or.inl ⟨rfl, rfl⟩⟩
  | cons r rest ih =>
    intro got s
    rcases hr : io.retain r s.env with ⟨ok, e⟩
    have hstep : retainEach io got (r :: rest) s
        = (if ok = true then retainEach io (r :: got) rest else pure (false, got) :
            Op E (Bool × List Resource)) (s.heard (.retain r ok) e) := by
      change (if (io.retain r s.env).1 = true then _ else _ : Op E (Bool × List Resource))
        (s.heard (.retain r (io.retain r s.env).1) (io.retain r s.env).2) = _
      rw [hr]
    rw [hstep]
    cases ok with
    | false => exact ⟨[], s.env, rfl, Or.inr ⟨r, e, hr, rfl⟩⟩
    | true =>
      rw [if_pos rfl]
      rcases ih (r :: got) (s.heard (.retain r true) e) with ⟨pre, e₁, hret, hend⟩
      refine ⟨r :: pre, e₁, ⟨e, hr, hret⟩, ?_⟩
      rcases hend with ⟨hall, heq⟩ | ⟨r', e₂, hno, heq⟩
      · refine Or.inl ⟨by rw [hall], ?_⟩
        rw [heq]
        simp [Sys.heardAll, Sys.heard, retainLines]
      · refine Or.inr ⟨r', e₂, hno, ?_⟩
        rw [heq]
        simp [Sys.heardAll, Sys.heard, retainLines]

end Runs

section Submit

variable {io : SubmissionBackend E} {s : World E} {i : Fin maxJobs}

theorem setJob_self (q : Queue) (i : Fin maxJobs) (job : Job) : (q.setJob i job).jobs i = job := by
  simp only [Queue.setJob, update_self]

theorem setJob_setJob (q : Queue) (i : Fin maxJobs) (a b : Job) :
    (q.setJob i a).setJob i b = q.setJob i b := by
  simp only [Queue.setJob, update_idem]

/-- Job `i` is free, its batch is frozen and checked, and it has the next token. -/
structure Loaded (s : World E) (i : Fin maxJobs) : Prop where
  free : (s.obj.jobs i).state = .free
  ready : s.obj.state = .ready
  room : s.obj.exhausted = false
  fence : (s.obj.jobs i).fence = ⟨s.obj.generation, s.obj.nextSequence⟩
  good : checkResources (s.obj.jobs i).owner [] (s.obj.jobs i).resources = .none

theorem publish_moves {e₁ : E} (h : Loaded s i)
    (hret : Retained io (s.obj.jobs i).resources s.env e₁) :
    Moves io s (publish io i (s.obj.jobs i).batch
      (s.heardAll (retainLines (s.obj.jobs i).resources) e₁)).2 := by
  rcases hsub : io.submit (s.obj.jobs i).batch e₁ with ⟨answer, e₂⟩
  -- The system when the answer arrives, with the job marked as holding.
  let u : World E := ((s.heardAll (retainLines (s.obj.jobs i).resources) e₁).put
    (s.obj.setJob i { s.obj.jobs i with held := true })).heard
      (.submit (s.obj.jobs i).batch answer) e₂
  have hjob : u.obj.jobs i = { s.obj.jobs i with held := true } := setJob_self _ _ _
  have hstep : publish io i (s.obj.jobs i).batch
      (s.heardAll (retainLines (s.obj.jobs i).resources) e₁)
      = conclude io i (s.obj.jobs i).fence answer u := by
    change conclude io i _ (io.submit (s.obj.jobs i).batch e₁).1 (Sys.heard _
      (.submit _ (io.submit (s.obj.jobs i).batch e₁).1) (io.submit (s.obj.jobs i).batch e₁).2) = _
    rw [hsub]
    rfl
  rw [hstep]
  cases answer with
  | rejected =>
    have hmove := Move.rejected s i e₁ e₂ h.free hret hsub
    convert Relation.ReflTransGen.single hmove using 1
    change (releaseJob io i u).2.put ((releaseJob io i u).2.obj.setJob i Job.empty) = _
    rw [releaseJob_eq, if_pos (by rw [hjob])]
    unfold drained
    rw [hjob]
    simp [u, Sys.heardAll, Sys.heard, Sys.put, setJob_setJob]
  | accepted =>
    have hmove := Move.taken s i .accepted e₁ e₂ (by decide) h.free h.ready h.room
      h.fence h.good hret hsub
    convert Relation.ReflTransGen.single hmove using 1
    change (u.heard (.handed (s.obj.jobs i).fence) u.env).put
      (u.obj.advanced.setJob i { u.obj.jobs i with state := .submitted }) = _
    rw [hjob]
    simp [u, Sys.heardAll, Sys.heard, Sys.put, Queue.taken, Queue.advanced, Queue.setJob,
      update_idem]
  | unknown =>
    have hmove := Move.taken s i .unknown e₁ e₂ (by decide) h.free h.ready h.room
      h.fence h.good hret hsub
    convert Relation.ReflTransGen.single hmove using 1
    change (u.heard (.handed (s.obj.jobs i).fence) u.env).put { u.obj.advanced.setJob i
      { u.obj.jobs i with state := .acceptanceUnknown } with state := .needsReset } = _
    rw [hjob]
    simp [u, Sys.heardAll, Sys.heard, Sys.put, Queue.taken, Queue.advanced, Queue.setJob,
      update_idem]

/-- Retaining for a job whose batch is frozen, and what follows. -/
theorem hold_moves (h : Loaded s i) : Moves io s (hold io i (s.obj.jobs i).batch s).2 := by
  have hstep : hold io i (s.obj.jobs i).batch s
      = (if (retainEach io [] (s.obj.jobs i).resources s).1.1 then
            publish io i (s.obj.jobs i).batch
          else do
            releaseEach io (retainEach io [] (s.obj.jobs i).resources s).1.2
            setJob i fun _ => Job.empty
            return .resourceBusy : Op E SubmitError)
        (retainEach io [] (s.obj.jobs i).resources s).2 := rfl
  rw [hstep]
  rcases retainEach_eq io (s.obj.jobs i).resources [] s with ⟨pre, e₁, hret, hend⟩
  rcases hend with ⟨hall, heq⟩ | ⟨r, e₂, hno, heq⟩
  · rw [heq]
    rw [← hall] at hret ⊢
    exact publish_moves h hret
  · -- One was refused: the ones before it are released, latest first.
    rw [heq]
    have hmove := Move.rolledBack s i pre r e₁ e₂ h.free hret hno
    convert Relation.ReflTransGen.single hmove using 1
    change ((releaseEach io (pre.reverse ++ []) _).2).put _ = _
    rw [releaseEach_eq]
    simp [Sys.heardAll, Sys.put]

theorem place_moves {batch : BatchSnapshot}
    (hfree : (s.obj.jobs i).state = .free) (hready : s.obj.state = .ready)
    (hroom : s.obj.exhausted = false)
    (hfence : batch.fence = ⟨s.obj.generation, s.obj.nextSequence⟩) :
    Walks io s (place io i batch) := by
  -- The system with the caller's bytes frozen into the job.
  let u : World E := s.put (s.obj.setJob i { Job.empty with batch := batch })
  have hload : Moves io s u := .single (.loaded s i batch hfree)
  have hjob : u.obj.jobs i = { Job.empty with batch := batch } := setJob_self _ _ _
  refine spec_bind (R := fun _ t => t = u) (spec_edit _ (fun t ht => ht ▸ rfl)) fun _ => ?_
  refine spec_guard (fun t ht => ht ▸ hload) ?_
  refine spec_unless (fun t ht => ht ▸ hload) fun hgood => ?_
  intro t ht
  subst ht
  refine hload.trans ?_
  have hpath : Moves io u (hold io i (u.obj.jobs i).batch u).2 :=
    hold_moves ⟨by rw [hjob]; rfl, hready, hroom, by rw [hjob]; exact hfence,
      by rw [hjob]; exact not_not.mp hgood⟩
  rw [hjob] at hpath
  exact hpath

/-- The clock either refuses, leaving everything, or moves on. -/
theorem tick_spec (s : World E) (now : Nat) :
    Spec (fun t => t = s) (tick now) (fun ok t => if ok = true then
      t = s.put { s.obj with lastTime := now } ∧ s.obj.lastTime ≤ now else t = s) := by
  refine spec_bind_look_at ?_
  refine spec_unless (fun t ht => ht) fun hle => ?_
  intro t ht
  subst ht
  exact ⟨rfl, Nat.le_of_not_lt hle⟩

theorem freeJob_some {q : Queue} (h : q.freeJob = some i) :
    (q.jobs i).state = .free := by
  have htest := List.find?_some h
  simpa only [decide_eq_true_eq] using htest

theorem submit_moves (s : World E) (words : List Nat) (resources : List Resource)
    (now deadline : Nat) :
    Walks io s (submit io words resources now deadline) := by
  refine spec_bind_look_at ?_
  refine spec_guard stays ?_
  refine spec_unless stays fun hready => ?_
  refine spec_bind (tick_spec s now) fun ok => ?_
  cases ok with
  | false => exact spec_pure _ stays
  | true =>
    -- From here on the clock has moved, whatever comes of the submission.
    refine spec_each fun t ht => ?_
    rcases ht with ⟨ht, hle⟩
    have htick : Moves io s t := by
      rw [ht]
      exact .single (.ticked s now hle)
    have hready : t.obj.state = .ready := by
      rw [ht]
      exact not_not.mp hready
    have hstay : ∀ v, v = t → Moves io s v := fun v hv => hv ▸ htick
    refine spec_ite nofun fun _ => ?_
    refine spec_guard hstay ?_
    refine spec_guard hstay ?_
    refine spec_bind_look_at ?_
    refine spec_unless hstay fun hroom => ?_
    cases hjob : t.obj.freeJob with
    | none => exact spec_pure _ hstay
    | some i =>
      exact spec_post (place_moves (freeJob_some hjob) hready (Bool.eq_false_iff.mpr hroom) rfl)
        (fun _ v hv => htick.trans hv)

end Submit

section Settle

variable {io : SubmissionBackend E} {s₀ : World E}

/-- No job that is still waited for is past its deadline. -/
def Fresh (s : World E) : Prop :=
  ∀ i, (s.obj.jobs i).state = .submitted → s.obj.lastTime < (s.obj.jobs i).deadline

theorem expire_moves (io : SubmissionBackend E) (s : World E) (now : Nat) :
    Spec (fun t => t = s) (expire now)
      (fun r t => Moves io s t ∧ (r = SubmitError.none → Fresh t)) := by
  refine spec_bind (tick_spec s now) fun ok => ?_
  cases ok with
  | false => exact spec_pure _ (fun t ht => ⟨ht ▸ .refl, nofun⟩)
  | true =>
    intro t ht
    rcases ht with ⟨rfl, hle⟩
    refine ⟨(Relation.ReflTransGen.single (.ticked s now hle)).tail (.expired _), fun _ i => ?_⟩
    -- Whatever was overdue has just been timed out.
    change (if Queue.Overdue now (s.obj.jobs i) then _ else s.obj.jobs i : Job).state
        = .submitted →
      now < (if Queue.Overdue now (s.obj.jobs i) then _ else s.obj.jobs i : Job).deadline
    by_cases hover : Queue.Overdue now (s.obj.jobs i)
    · rw [if_pos hover]
      exact nofun
    · rw [if_neg hover]
      intro hstate
      by_contra hlate
      exact hover ⟨hstate, Nat.le_of_not_lt hlate⟩

def Watching (io : SubmissionBackend E) (s₀ s : World E) : Prop :=
  Moves io s₀ s ∧ Seen s ∧ Fresh s

theorem Fresh.setJob {s : World E} (h : Fresh s) {t : World E}
    {i : Fin maxJobs} {job : Job} (hobj : t.obj = s.obj.setJob i job)
    (hjob : job.state = .submitted → s.obj.lastTime < job.deadline) : Fresh t := by
  intro j
  rw [hobj]
  change (update s.obj.jobs i job j).state = .submitted →
    s.obj.lastTime < (update s.obj.jobs i job j).deadline
  by_cases hj : j = i
  · subst hj
    rw [update_self]
    exact hjob
  · rw [update_of_ne hj]
    exact h j

theorem drained_watching {s : World E} {i : Fin maxJobs} (h : Watching io s₀ s)
    (hcover : s.obj.Covers (s.obj.jobs i)) :
    Watching io s₀ (if (s.obj.jobs i).held = true then drained io s i else s) := by
  by_cases hheld : (s.obj.jobs i).held = true
  · rw [if_pos hheld]
    rcases h with ⟨hpath, hseen, hfresh⟩
    refine ⟨hpath.tail (.drained s i hheld (Or.inl ⟨hseen, hcover⟩)), ?_, hfresh.setJob rfl
      (hfresh i)⟩
    rcases hseen with ⟨q, target, o, hcause, hrest⟩
    exact ⟨q, target, o, (cause_releases _ _ _).trans hcause, hrest⟩
  · rw [if_neg hheld]
    exact h

theorem settleJob_spec (i : Fin maxJobs) :
    Spec (Watching io s₀) (settleJob io i) (fun _ => Watching io s₀) := by
  intro s hs
  have hspec : Spec (fun t => t = s) (settleJob io i) (fun _ => Watching io s₀) := by
    refine spec_bind_look_at ?_
    refine spec_unless (fun t ht => ht ▸ hs) fun hcover => ?_
    have hcover : s.obj.Covers (s.obj.jobs i) := not_not.mp hcover
    refine spec_ite (fun hstate => ?_) (fun _ => spec_ite (fun _ => ?_)
      (fun _ => spec_pure _ (fun t ht => ht ▸ hs)))
    · -- The job is complete, then it lets go.
      intro t ht
      subst ht
      rcases hs with ⟨hpath, hseen, hfresh⟩
      let u : World E := (t.heard (.completed i) t.env).put
        (t.obj.setJob i { t.obj.jobs i with state := .completed })
      have hu : Watching io s₀ u :=
        ⟨hpath.tail (.completed t i hstate hcover hseen (hfresh i hstate)), hseen,
          hfresh.setJob rfl nofun⟩
      have hcover' : u.obj.Covers (u.obj.jobs i) := by
        rw [show u.obj.jobs i = { t.obj.jobs i with state := .completed } from setJob_self _ _ _]
        exact hcover
      change Watching io s₀ (releaseJob io i u).2
      rw [releaseJob_eq]
      exact drained_watching hu hcover'
    · intro t ht
      subst ht
      rw [releaseJob_eq]
      exact drained_watching hs hcover
  exact hspec s rfl

theorem settleJobs_spec (l : List (Fin maxJobs)) :
    Spec (Watching io s₀) (settleJobs io l) (fun _ => Watching io s₀) := by
  induction l with
  | nil => exact spec_pure _ (fun _ hs => hs)
  | cons i rest ih => exact spec_bind (settleJob_spec i) (fun _ => ih)

theorem onInterrupt_moves (s : World E) (irqGeneration now : Nat) :
    Walks io s (onInterrupt io irqGeneration now) := by
  refine spec_bind_look_at ?_
  refine spec_guard stays ?_
  refine spec_guard stays ?_
  refine spec_guard stays ?_
  refine spec_bind (expire_moves io s now) fun r => ?_
  refine spec_unless (fun t ht => ht.1) fun hr => ?_
  refine spec_each fun t ht => ?_
  rcases ht with ⟨hpath, hfresh⟩
  have hfresh := hfresh (not_not.mp hr)
  -- The observation, for the queue as `expire` left it.
  refine spec_bind_look_at ?_
  refine spec_bind (R := fun r v => Moves io s v ∧ ∃ e, v = t.heard
    (.readFence t.obj.target r.1 r.2) e) ?_ (fun r => ?_)
  · refine spec_asked _ _ fun v hv => ?_
    subst hv
    exact ⟨hpath.tail (.fenceAsked v), _, rfl⟩
  · rcases r with ⟨error, o⟩
    refine spec_unless (fun v hv => hv.1) fun herr => ?_
    have herr : error = .none := not_not.mp herr
    refine spec_unless (fun v hv => hv.1) fun hacc => ?_
    have hacc : t.obj.Accepts o := not_not.mp hacc
    subst herr
    refine spec_bind (R := fun _ => Watching io s) (spec_edit _ (fun v hv => ?_)) fun _ => ?_
    · rcases hv with ⟨hpath', e, rfl⟩
      refine ⟨hpath'.tail (.observed _ o ⟨_, _, rfl⟩ hacc), ?_, hfresh⟩
      exact ⟨t.obj, t.obj.target, o, rfl, hacc, hacc.2.2.1, rfl⟩
    · exact spec_bind (settleJobs_spec _) (fun _ => spec_pure _ (fun v hv => hv.1))

end Settle

section Reset

variable {io : SubmissionBackend E} {s₀ : World E}

theorem interrupted_state (job : Job) :
    job.interrupted.state ≠ .submitted ∧ job.interrupted.state ≠ .acceptanceUnknown := by
  unfold Job.interrupted
  by_cases h : job.state = .submitted ∨ job.state = .acceptanceUnknown
  · rw [if_pos h]
    exact ⟨nofun, nofun⟩
  · rw [if_neg h]
    exact not_or.mp h

/-- One job of the loop of `reset`: it ends idle and the others are left. -/
theorem resetJob_step {s : World E} (i : Fin maxJobs) (hpath : Moves io s₀ s)
    (hquiet : Quieted s) :
    ∃ t, (setJob i Job.interrupted >>= fun _ => releaseJob io i : Op E Unit) s = ((), t) ∧
      Moves io s₀ t ∧ Quieted t ∧ (t.obj.jobs i).Idle ∧
      ∀ j, j ≠ i → t.obj.jobs j = s.obj.jobs j := by
  let u : World E := s.put (s.obj.setJob i (s.obj.jobs i).interrupted)
  have hu : Moves io s₀ u := hpath.tail (.interrupted s i hquiet)
  have hjob : u.obj.jobs i = (s.obj.jobs i).interrupted := setJob_self _ _ _
  have hother : ∀ j, j ≠ i → u.obj.jobs j = s.obj.jobs j := fun j hj =>
    update_of_ne hj _ _
  have hstate := interrupted_state (s.obj.jobs i)
  refine ⟨(releaseJob io i u).2, rfl, ?_⟩
  rw [releaseJob_eq]
  by_cases hheld : (u.obj.jobs i).held = true
  · rw [if_pos hheld]
    have hquiet' : Quieted (drained io u i) := by
      rcases hquiet with ⟨q, target, hcause⟩
      exact ⟨q, target, (cause_releases _ _ _).trans hcause⟩
    refine ⟨hu.tail (.drained u i hheld (Or.inr hquiet)), hquiet', ?_, ?_⟩
    · rw [show (drained io u i).obj.jobs i = { u.obj.jobs i with held := false } from
        setJob_self _ _ _, hjob]
      exact ⟨rfl, hstate⟩
    · intro j hj
      rw [show (drained io u i).obj.jobs j = u.obj.jobs j from update_of_ne hj _ _]
      exact hother j hj
  · rw [if_neg hheld]
    refine ⟨hu, hquiet, ⟨Bool.eq_false_iff.mpr hheld, ?_⟩, hother⟩
    rw [hjob]
    exact hstate

theorem resetJobs_spec (l : List (Fin maxJobs)) :
    Spec (fun s => Moves io s₀ s ∧ Quieted s ∧ ∀ i, i ∉ l → (s.obj.jobs i).Idle)
      (resetJobs io l) (fun _ s => Moves io s₀ s ∧ ∀ i, (s.obj.jobs i).Idle) := by
  induction l with
  | nil => exact spec_pure _ (fun s hs => ⟨hs.1, fun i => hs.2.2 i List.not_mem_nil⟩)
  | cons i rest ih =>
    intro s hs
    rcases hs with ⟨hpath, hquiet, hidle⟩
    rcases resetJob_step i hpath hquiet with ⟨t, hstep, hpath', hquiet', hdone, hother⟩
    have hrun : resetJobs io (i :: rest) s
        = resetJobs io rest ((setJob i Job.interrupted >>= fun _ => releaseJob io i :
            Op E Unit) s).2 := rfl
    rw [hrun, hstep]
    refine ih t ⟨hpath', hquiet', fun j hj => ?_⟩
    by_cases hji : j = i
    · rw [hji]
      exact hdone
    · simp [*]

theorem reset_moves (s : World E) (now : Nat) :
    Walks io s (reset io now) := by
  refine spec_bind_look_at ?_
  refine spec_guard stays ?_
  refine spec_bind (tick_spec s now) fun ok => ?_
  cases ok with
  | false => exact spec_pure _ stays
  | true =>
    -- The queue as it stands when the hardware is asked to stop.
    let u : World E := s.put { s.obj with lastTime := now, state := .needsReset }
    refine spec_bind (R := fun _ t => t = u ∧ Moves io s u) (spec_edit _ (fun t ht => ?_))
      fun _ => ?_
    · rcases ht with ⟨rfl, hle⟩
      exact ⟨rfl, (Relation.ReflTransGen.single (.ticked s now hle)).tail (.stopped _)⟩
    · refine spec_bind_look (o := u.obj) (fun t ht => congrArg Sys.obj ht.1) ?_
      refine spec_guard (fun t ht => ht.1 ▸ ht.2) ?_
      refine spec_bind (R := fun ok t => Moves io s t ∧ (ok = true → Quieted t)) ?_ fun ok => ?_
      · refine spec_asked _ _ fun t ht => ?_
        rcases ht with ⟨rfl, hpath⟩
        refine ⟨hpath.tail (.quiesceAsked u), fun hok => ⟨u.obj, u.obj.target, ?_⟩⟩
        rw [← hok]
        rfl
      · cases ok with
        | false => exact spec_pure _ (fun t ht => ht.1)
        | true =>
          refine spec_bind (R := fun _ t => Moves io s t ∧ ∀ i, (t.obj.jobs i).Idle)
            (spec_pre ?_ (resetJobs_spec _)) fun _ => ?_
          · simp
          · exact spec_bind (R := fun _ => Moves io s)
              (spec_edit _ (fun t ht => ht.1.tail (.restarted t ht.2)))
              (fun _ => spec_pure _ (fun t ht => ht))

theorem activate_moves (s : World E) (firmware : FirmwareInfo) :
    Walks io s (activate io firmware) := by
  refine spec_bind_look_at ?_
  refine spec_guard stays ?_
  refine spec_unless stays fun hinactive => ?_
  refine spec_guard stays ?_
  have hstate : s.obj.state = .inactive := by
    simp only [not_or, ne_eq, not_not] at hinactive
    exact hinactive.2.2
  refine spec_bind (R := fun _ t => Moves io s t ∧ t.obj = s.obj)
    (spec_asked _ _ (fun t ht => ?_)) fun r => ?_
  · subst ht
    exact ⟨.single (.readinessAsked t firmware), rfl⟩
  · rcases r with ⟨error, ready⟩
    refine spec_guard (fun t ht => ht.1) ?_
    refine spec_guard (fun t ht => ht.1) ?_
    refine spec_bind (R := fun _ => Moves io s) (spec_edit _ (fun t ht => ?_))
      (fun _ => spec_pure _ (fun t ht => ht))
    exact ht.1.tail (.activated t (by rw [ht.2]; exact hstate))

theorem retire_moves (s : World E) (token : FenceToken) :
    Walks io s (retire token) := by
  refine spec_bind_look_at ?_
  cases s.obj.find token with
  | none => exact spec_pure _ stays
  | some i =>
    refine spec_unless stays fun hdone => ?_
    simp only [not_or, Bool.not_eq_true] at hdone
    refine spec_bind (R := fun _ => Moves io s) (spec_edit _ (fun t ht => ?_))
      (fun _ => spec_pure _ (fun t ht => ht))
    subst ht
    exact .single (.retired t i hdone.1 hdone.2)

theorem step_moves (s : World E) (c : Call) : Moves io s (step io c s).2 := by
  have hspec : Walks io s (step io c) := by
    cases c with
    | activate firmware => exact activate_moves s firmware
    | submit words resources now deadline => exact submit_moves s words resources now deadline
    | expire now => exact spec_post (expire_moves io s now) (fun _ _ h => h.1)
    | onInterrupt irqGeneration now => exact onInterrupt_moves s irqGeneration now
    | reset now => exact reset_moves s now
    | retire token => exact retire_moves s token
  exact hspec s rfl

theorem run_moves (io : SubmissionBackend E) (calls : List Call) (s : World E) :
    Moves io s (run io calls s) :=
  spec_runAll (P := Moves io s) (step io) (fun c _ ht => ht.trans (step_moves _ c)) calls s .refl

end Reset

end Mellow.MellowXe
