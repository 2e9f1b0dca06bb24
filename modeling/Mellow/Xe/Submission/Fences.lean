import Mellow.Lib.Slots
import Mellow.Xe.Submission.Moves

/-!
# Fences, Completions and Held Resources

What the queue promises, over histories in which late fences, timeouts, doubtful
submissions and resets race. Within a generation sequences only go up, and a
reset starts a new generation, so no token is handed out twice. Jobs are
recycled, so what holds of a job over time is said of its token.

## Main definitions

* `Tokens`: tokens are distinct.
* `Books`: a resource is retained as often as it is released and held.
* `Progress`: what can become of a job.
* `Guarantees`: what holds after any calls.

## Theorems

* `move_books`: the moves keep the books.
* `run_guarantees`: every reachable state keeps the guarantees.
-/

namespace Mellow.MellowXe

open Lib Function

variable {E : Type}

section Accounts

def tokens : Log → List FenceToken
  | [] => []
  | e :: before => match e.event with
    | .handed token => token :: tokens before
    | _ => tokens before

def timesRetained (r : Resource) (log : Log) : Nat :=
  log.countP fun e => e.event = .retain r true

def timesReleased (r : Resource) (log : Log) : Nat :=
  log.countP fun e => e.event = .release r

def Job.share (r : Resource) (job : Job) : Nat :=
  if job.held = true then job.resources.count r else 0

/-- What a release of `r` may answer to: a refused retain of the same
    submission, a rejected batch that names `r`, an accepted observation that
    covers a job holding `r`, or a successful quiesce while a job holds it. -/
def Caused (q : Queue) (r : Resource) : Option (Entry Queue Event) → Prop
  | some ⟨_, .retain _ false⟩ => True
  | some ⟨_, .submit batch .rejected⟩ => r ∈ batch.resources
  | some ⟨seen, .readFence _ .none o⟩ => seen.Accepts o ∧ ∃ i, (q.jobs i).held = true ∧
      r ∈ (q.jobs i).resources ∧ (q.jobs i).fence.generation = o.generation ∧
      (q.jobs i).fence.sequence ≤ o.completedSequence
  | some ⟨_, .quiesce _ true⟩ => ∃ i, (q.jobs i).held = true ∧ r ∈ (q.jobs i).resources
  | _ => False

/-- A job may complete: it is waited for, its deadline has not come, and the
    latest news is an accepted observation of this generation that has reached
    its sequence number. The time is that of the call in which the observation
    was made, the last the queue has seen. -/
def Completes (q : Queue) (job : Job) : Option (Entry Queue Event) → Prop
  | some ⟨seen, .readFence _ .none o⟩ => seen.Accepts o ∧ o.generation = q.generation ∧
      job.fence.generation = o.generation ∧
      job.fence.sequence ≤ o.completedSequence ∧ job.state = .submitted ∧
      q.lastTime < job.deadline
  | _ => False

/-- What a line of the log satisfies against the lines before it. -/
def Rule (e : Entry Queue Event) (before : Log) : Prop :=
  match e.event with
  | .release r => timesReleased r before < timesRetained r before ∧ Caused e.obj r (cause before)
  | .completed i => Completes e.obj (e.obj.jobs i) (cause before)
  | .handed token => token ∉ tokens before
  | _ => True

def Doomed (state : JobState) : Prop :=
  state = .timedOut ∨ state = .acceptanceUnknown ∨ state = .reset

structure Guarantees (s : World E) : Prop where
  /-- Every token is handed out once. -/
  once : (tokens s.log).Nodup
  /-- Every release has its cause, and every completion its observation. -/
  lines : Chron Rule s.log
  /-- A complete job was completed, as the log has it. -/
  completed : ∀ i, (s.obj.jobs i).state = .completed →
    ∃ e ∈ s.log, e.event = .completed i ∧ (e.obj.jobs i).batch = (s.obj.jobs i).batch
  /-- A resource has been released as often as retained, but for what is held. -/
  balanced : ∀ r, timesRetained r s.log
    = timesReleased r s.log + tally (Job.share r) s.obj.jobs
  inactive : s.obj.state = .inactive → ∀ i, (s.obj.jobs i).held = false

end Accounts

section Lines

variable {q : Queue} {log : Log}

@[simp]
theorem tokens_append (l log : Log) :
    tokens (l ++ log) = tokens l ++ tokens log := by
  induction l with
  | nil => rfl
  | cons e l ih =>
    rw [List.cons_append, tokens, tokens, ih]
    split
    · rfl
    · rfl

@[simp]
theorem tokens_releases (q : Queue) (rs : List Resource) :
    tokens ((releaseLines rs).map (Entry.mk q)) = [] := by
  induction rs with
  | nil => rfl
  | cons r rest ih => exact ih

@[simp]
theorem tokens_retains (q : Queue) (rs : List Resource) :
    tokens ((retainLines rs).map (Entry.mk q)) = [] := by
  unfold retainLines
  induction rs.reverse with
  | nil => rfl
  | cons r rest ih => exact ih

@[simp]
theorem timesRetained_append (r : Resource) (l log : Log) :
    timesRetained r (l ++ log) = timesRetained r l + timesRetained r log := List.countP_append

@[simp]
theorem timesReleased_append (r : Resource) (l log : Log) :
    timesReleased r (l ++ log) = timesReleased r l + timesReleased r log := List.countP_append

@[simp]
theorem timesRetained_cons (r : Resource) (e : Entry Queue Event) (log : Log) :
    timesRetained r (e :: log)
      = timesRetained r log + if e.event = .retain r true then 1 else 0 := by
  rw [timesRetained, List.countP_cons]
  simp only [decide_eq_true_eq]
  rfl

@[simp]
theorem timesReleased_cons (r : Resource) (e : Entry Queue Event) (log : Log) :
    timesReleased r (e :: log) = timesReleased r log + if e.event = .release r then 1 else 0 := by
  rw [timesReleased, List.countP_cons]
  simp only [decide_eq_true_eq]
  rfl

@[simp]
theorem timesRetained_releases (q : Queue) (r : Resource) (rs : List Resource) :
    timesRetained r ((releaseLines rs).map (Entry.mk q)) = 0 := by
  simp [timesRetained, releaseLines, List.countP_eq_zero]

@[simp]
theorem timesReleased_retains (q : Queue) (r : Resource) (rs : List Resource) :
    timesReleased r ((retainLines rs).map (Entry.mk q)) = 0 := by
  simp [timesReleased, retainLines, List.countP_eq_zero]

@[simp]
theorem timesReleased_releases (q : Queue) (r : Resource) (rs : List Resource) :
    timesReleased r ((releaseLines rs).map (Entry.mk q)) = rs.count r := by
  simp [timesReleased, releaseLines, List.countP_map, List.count, Function.comp_def, beq_eq_decide]

@[simp]
theorem timesRetained_retains (q : Queue) (r : Resource) (rs : List Resource) :
    timesRetained r ((retainLines rs).map (Entry.mk q)) = rs.count r := by
  simp [timesRetained, retainLines, List.countP_map, List.count, Function.comp_def, beq_eq_decide]

/-- Releases obey the rule when each has its cause, within the holds. -/
theorem chron_releases (rs : List Resource) (hlog : Chron Rule log)
    (hcaused : ∀ r ∈ rs, Caused q r (cause log))
    (hcount : ∀ r, timesReleased r log + rs.count r ≤ timesRetained r log) :
    Chron Rule ((releaseLines rs).map (Entry.mk q) ++ log) := by
  induction rs with
  | nil => exact hlog
  | cons r rest ih =>
    have hrest : ∀ x, timesReleased x log + rest.count x ≤ timesRetained x log := by
      intro x
      have := hcount x
      have := List.count_le_count_cons (a := x) (b := r) (l := rest)
      omega
    refine ⟨⟨?_, ?_⟩, ih (fun x hx => hcaused x (List.mem_cons_of_mem _ hx)) hrest⟩
    · have hhere := hcount r
      rw [List.count_cons_self] at hhere
      change timesReleased r ((releaseLines rest).map (Entry.mk q) ++ log)
        < timesRetained r ((releaseLines rest).map (Entry.mk q) ++ log)
      simp only [timesReleased_append, timesRetained_append, timesReleased_releases,
        timesRetained_releases]
      omega
    · change Caused q r (cause ((releaseLines rest).map (Entry.mk q) ++ log))
      rw [cause_releases]
      exact hcaused r List.mem_cons_self

theorem chron_retains (rs : List Resource) (hlog : Chron Rule log) :
    Chron Rule ((retainLines rs).map (Entry.mk q) ++ log) := by
  unfold retainLines
  induction rs.reverse with
  | nil => exact hlog
  | cons r rest ih => exact ⟨trivial, ih⟩

end Lines

section Jobs

inductive Progress : JobState → JobState → Prop where
  | same (state : JobState) : Progress state state
  | completed : Progress .submitted .completed
  | timedOut : Progress .submitted .timedOut
  | reset : Progress .submitted .reset
  | givenUp : Progress .acceptanceUnknown .reset

/-- A job is freed, or goes on with the same batch. -/
def Job.Next (a b : Job) : Prop :=
  b.state = .free ∨ a.state ≠ .free ∧ b.batch = a.batch ∧ Progress a.state b.state

theorem next_refl (a : Job) : a.Next a := by
  by_cases h : a.state = .free
  · exact Or.inl h
  · exact Or.inr ⟨h, rfl, .same _⟩

theorem next_setJob {q : Queue} {i : Fin maxJobs} {job : Job} (h : (q.jobs i).Next job)
    (j : Fin maxJobs) : (q.jobs j).Next ((q.setJob i job).jobs j) := by
  by_cases hj : j = i
  · subst hj
    rw [setJob_self]
    exact h
  · rw [show (q.setJob i job).jobs j = q.jobs j from update_of_ne hj _ _]
    exact next_refl _

theorem interrupted_next (a : Job) : a.Next a.interrupted := by
  unfold Job.interrupted
  by_cases h : a.state = .submitted ∨ a.state = .acceptanceUnknown
  · rw [if_pos h]
    rcases h with h | h
    · exact Or.inr ⟨by rw [h]; decide, rfl, by rw [h]; exact .reset⟩
    · exact Or.inr ⟨by rw [h]; decide, rfl, by rw [h]; exact .givenUp⟩
  · rw [if_neg h]
    exact next_refl a

theorem completed_next {a : Job} (h : a.state = .submitted) :
    a.Next { a with state := .completed } := by
  refine Or.inr ⟨?_, rfl, ?_⟩
  · rw [h]
    decide
  · rw [h]
    exact .completed

theorem released_next (a : Job) : a.Next { a with held := false } := by
  by_cases h : a.state = .free
  · exact Or.inl h
  · exact Or.inr ⟨h, rfl, .same _⟩

theorem expired_next (q : Queue) (now : Nat) (i : Fin maxJobs) :
    (q.jobs i).Next ((q.expired now).jobs i) := by
  change (q.jobs i).Next (if Queue.Overdue now (q.jobs i) then _ else q.jobs i)
  by_cases h : Queue.Overdue now (q.jobs i)
  · rw [if_pos h]
    exact Or.inr ⟨by rw [h.1]; decide, rfl, by rw [h.1]; exact .timedOut⟩
  · rw [if_neg h]
    exact next_refl _

variable {io : SubmissionBackend E} {s t : World E}

/-- Each job goes on, or one free job has just been sent. -/
theorem move_jobs (h : Move io s t) :
    (∀ i, (s.obj.jobs i).Next (t.obj.jobs i)) ∨
      ∃ i answer, t.obj = s.obj.taken i answer ∧ s.obj.exhausted = false ∧
        (s.obj.jobs i).fence = ⟨s.obj.generation, s.obj.nextSequence⟩ := by
  cases h with
  | loaded | rolledBack | rejected => exact Or.inl (next_setJob (Or.inl rfl))
  | taken i answer e₁ e₂ hans hfree hready hroom hfence hgood hret hsub =>
    exact Or.inr ⟨i, answer, rfl, hroom, hfence⟩
  | expired => exact Or.inl (expired_next s.obj s.obj.lastTime)
  | completed i hstate hcover hseen htime =>
    exact Or.inl (next_setJob (completed_next hstate))
  | drained i hheld hcause => exact Or.inl (next_setJob (released_next _))
  | interrupted i hquiet => exact Or.inl (next_setJob (interrupted_next _))
  | retired i hheld hstate => exact Or.inl (next_setJob (Or.inl rfl))
  | _ => exact Or.inl (fun i => next_refl _)

end Jobs

section Tokens

variable {io : SubmissionBackend E} {s t : World E}

structure Tokens (s : World E) : Prop where
  once : (tokens s.log).Nodup
  bound : ∀ token ∈ tokens s.log, token.generation ≤ s.obj.generation ∧
    (token.generation = s.obj.generation → token.sequence ≤ s.obj.lastSubmitted)
  counter : s.obj.exhausted = false → s.obj.lastSubmitted < s.obj.nextSequence
  live : ∀ i, (s.obj.jobs i).state ≠ .free → (s.obj.jobs i).fence ∈ tokens s.log
  apart : ∀ i j, (s.obj.jobs i).state ≠ .free → (s.obj.jobs j).state ≠ .free →
    (s.obj.jobs i).fence = (s.obj.jobs j).fence → i = j

theorem Tokens.next_fresh (h : Tokens s) (hroom : s.obj.exhausted = false) :
    (⟨s.obj.generation, s.obj.nextSequence⟩ : FenceToken) ∉ tokens s.log := by
  intro hmem
  have hle := (h.bound _ hmem).2 rfl
  have hlt := h.counter hroom
  dsimp only at hle
  omega

theorem Tokens.frame (h : Tokens s) (hlog : tokens t.log = tokens s.log)
    (hgen : t.obj.generation = s.obj.generation)
    (hlast : t.obj.lastSubmitted = s.obj.lastSubmitted)
    (hnext : t.obj.nextSequence = s.obj.nextSequence)
    (hexh : t.obj.exhausted = s.obj.exhausted)
    (hjobs : ∀ i, (s.obj.jobs i).Next (t.obj.jobs i)) : Tokens t := by
  constructor
  case once => rw [hlog]; exact h.once
  case bound => rw [hlog, hgen, hlast]; exact h.bound
  case counter => rw [hexh, hlast, hnext]; exact h.counter
  case live =>
    intro i hlive
    rcases hjobs i with hfree | ⟨hold, hbatch, _⟩
    · exact absurd hfree hlive
    · rw [hlog, hbatch]
      exact h.live i hold
  case apart =>
    intro i j hi hj hsame
    rcases hjobs i with hfree | ⟨hi', hbi, _⟩
    · exact absurd hfree hi
    · rcases hjobs j with hfree | ⟨hj', hbj, _⟩
      · exact absurd hfree hj
      · rw [hbi, hbj] at hsame
        exact h.apart i j hi' hj' hsame

/-- A new token: it is past every earlier one of its generation. -/
theorem taken_tokens {i : Fin maxJobs} {answer : BackendAcceptance} (h : Tokens s)
    (hroom : s.obj.exhausted = false)
    (hfence : (s.obj.jobs i).fence = ⟨s.obj.generation, s.obj.nextSequence⟩)
    (hlog : tokens t.log = (s.obj.jobs i).fence :: tokens s.log)
    (hobj : t.obj = s.obj.taken i answer) : Tokens t := by
  have hlt := h.counter hroom
  have hself : (t.obj.jobs i).fence = (s.obj.jobs i).fence := by
    rw [hobj, show (s.obj.taken i answer).jobs i = _ from setJob_self _ _ _]
  have hother : ∀ j, j ≠ i → t.obj.jobs j = s.obj.jobs j := by
    intro j hj
    rw [hobj]
    exact update_of_ne hj _ _
  -- No other live job has the new token, since theirs are out already.
  have hne : ∀ j, j ≠ i → (t.obj.jobs j).state ≠ .free →
      (t.obj.jobs j).fence ≠ (s.obj.jobs i).fence := by
    intro j hj hlive hsame
    rw [hother j hj] at hlive hsame
    have hfresh := h.next_fresh hroom
    rw [← hfence, ← hsame] at hfresh
    exact hfresh (h.live j hlive)
  constructor
  case once =>
    rw [hlog, hfence]
    exact List.nodup_cons.mpr ⟨h.next_fresh hroom, h.once⟩
  case bound =>
    intro token hmem
    rw [hlog, hfence] at hmem
    rw [hobj]
    change token.generation ≤ s.obj.generation ∧
      (token.generation = s.obj.generation → token.sequence ≤ s.obj.nextSequence)
    rcases List.mem_cons.mp hmem with rfl | hold
    · exact ⟨le_refl _, fun _ => le_refl _⟩
    · rcases h.bound token hold with ⟨hg, hs⟩
      exact ⟨hg, fun heq => le_trans (hs heq) (Nat.le_of_lt hlt)⟩
  case counter =>
    rw [hobj]
    -- The last sequence number is not followed by another.
    change (if s.obj.nextSequence = 0xFFFFFFFF then true else s.obj.exhausted) = false →
      s.obj.nextSequence < (if s.obj.nextSequence = 0xFFFFFFFF then s.obj.nextSequence
        else s.obj.nextSequence + 1)
    by_cases hlast : s.obj.nextSequence = 0xFFFFFFFF
    · rw [if_pos hlast]
      exact nofun
    · simp [*]
  case live =>
    intro j hlive
    rw [hlog]
    by_cases hji : j = i
    · rw [hji, hself]
      exact List.mem_cons_self
    · rw [hother j hji] at hlive ⊢
      exact List.mem_cons_of_mem _ (h.live j hlive)
  case apart =>
    intro j k hj hk hsame
    by_cases hji : j = i
    · by_cases hki : k = i
      · rw [hji, hki]
      · rw [hji, hself] at hsame
        exact absurd hsame.symm (hne k hki hk)
    · by_cases hki : k = i
      · rw [hki, hself] at hsame
        exact absurd hsame (hne j hji hj)
      · rw [hother j hji] at hj hsame
        rw [hother k hki] at hk hsame
        exact h.apart j k hj hk hsame

theorem restarted_tokens (h : Tokens s) : Tokens (s.put s.obj.restarted) where
  once := h.once
  bound token hmem := by
    have hle := (h.bound token hmem).1
    change token.generation ≤ s.obj.generation + 1 ∧
      (token.generation = s.obj.generation + 1 → token.sequence ≤ 0)
    omega
  counter _ := Nat.zero_lt_one
  live i hlive := h.live i hlive
  apart := h.apart

theorem move_tokens (hmove : Move io s t) (h : Tokens s) : Tokens t := by
  cases hmove with
  | loaded i batch hfree => exact h.frame rfl rfl rfl rfl rfl (next_setJob (Or.inl rfl))
  | rolledBack i got r e₁ e₂ hfree hret hno =>
    refine h.frame ?_ rfl rfl rfl rfl (next_setJob (Or.inl rfl))
    simp [Sys.heardAll, Sys.put, tokens]
  | rejected i e₁ e₂ hfree hret hsub =>
    refine h.frame ?_ rfl rfl rfl rfl (next_setJob (Or.inl rfl))
    simp [Sys.heardAll, Sys.put, tokens]
  | taken i answer e₁ e₂ hans hfree hready hroom hfence hgood hret hsub =>
    refine taken_tokens h hroom hfence ?_ rfl
    simp [Sys.heardAll, Sys.put, tokens]
  | expired => exact h.frame rfl rfl rfl rfl rfl (expired_next _ _)
  | completed i hstate hcover hseen htime =>
    exact h.frame rfl rfl rfl rfl rfl (next_setJob (completed_next hstate))
  | drained i hheld hcause =>
    refine h.frame ?_ rfl rfl rfl rfl (next_setJob (released_next _))
    simp [drained, Sys.heardAll, Sys.put]
  | interrupted i hquiet => exact h.frame rfl rfl rfl rfl rfl (next_setJob (interrupted_next _))
  | restarted hidle => exact restarted_tokens h
  | retired i hheld hstate => exact h.frame rfl rfl rfl rfl rfl (next_setJob (Or.inl rfl))
  | _ => exact h.frame rfl rfl rfl rfl rfl (fun i => next_refl _)

end Tokens

section Books

variable {io : SubmissionBackend E} {s t : World E} {i : Fin maxJobs}

/-- The invariant behind the resources and the completions. -/
structure Books (s : World E) : Prop where
  lines : Chron Rule s.log
  balanced : ∀ r, timesRetained r s.log
    = timesReleased r s.log + tally (Job.share r) s.obj.jobs
  idle : ∀ i, (s.obj.jobs i).state = .free → (s.obj.jobs i).held = false
  inactive : s.obj.state = .inactive → ∀ i, (s.obj.jobs i).held = false
  completed : ∀ i, (s.obj.jobs i).state = .completed →
    ∃ e ∈ s.log, e.event = .completed i ∧ (e.obj.jobs i).batch = (s.obj.jobs i).batch

theorem share_of_not_held {job : Job} (h : job.held = false) (r : Resource) : job.share r = 0 := by
  unfold Job.share
  rw [if_neg (by rw [h]; decide)]

theorem share_of_held {job : Job} (h : job.held = true) (r : Resource) :
    job.share r = job.resources.count r := if_pos h

/-- A job that changes neither what it holds nor its batch keeps its share. -/
theorem share_eq {a b : Job} (hheld : b.held = a.held) (hbatch : b.batch = a.batch)
    (r : Resource) : b.share r = a.share r := by
  unfold Job.share
  rw [hheld, hbatch]

/-- A held job's resources have been retained and not released. -/
theorem Books.held_le (h : Books s) (hheld : (s.obj.jobs i).held = true)
    (r : Resource) :
    timesReleased r s.log + (s.obj.jobs i).resources.count r ≤ timesRetained r s.log := by
  have hbal := h.balanced r
  have hle := le_tally (Job.share r) s.obj.jobs i
  rw [share_of_held hheld] at hle
  omega

/-- A move of one job makes up for the change of what it holds. -/
theorem Books.update (h : Books s) {job : Job}
    (hjobs : t.obj.jobs = update s.obj.jobs i job) (hlines : Chron Rule t.log)
    (hgrow : ∀ e ∈ s.log, e ∈ t.log)
    (hbalance : ∀ r, timesRetained r t.log + timesReleased r s.log + (s.obj.jobs i).share r
      = timesReleased r t.log + timesRetained r s.log + job.share r)
    (hidle : job.state = .free → job.held = false)
    (hinactive : t.obj.state = .inactive → s.obj.state = .inactive ∧ job.held = false)
    (hdone : job.state = .completed → ∃ e ∈ t.log, e.event = .completed i ∧
      (e.obj.jobs i).batch = job.batch) : Books t := by
  constructor
  case lines => exact hlines
  case balanced =>
    intro r
    have hold := h.balanced r
    have hnew := hbalance r
    have htally := tally_update (Job.share r) s.obj.jobs i job
    rw [hjobs]
    omega
  case idle =>
    rw [hjobs]
    exact (forall_update_iff _ fun _ (job : Job) => job.state = .free → job.held = false).mpr
      ⟨hidle, fun j _ => h.idle j⟩
  case inactive =>
    intro hstate
    rcases hinactive hstate with ⟨hold, hnew⟩
    rw [hjobs]
    exact (forall_update_iff _ fun _ (job : Job) => job.held = false).mpr
      ⟨hnew, fun j _ => h.inactive hold j⟩
  case completed =>
    rw [hjobs]
    refine (forall_update_iff _ fun j (job : Job) => job.state = .completed → ∃ e ∈ t.log,
      e.event = .completed j ∧ (e.obj.jobs j).batch = job.batch).mpr ⟨hdone, fun j _ hstate => ?_⟩
    rcases h.completed j hstate with ⟨e, he, hev⟩
    exact ⟨e, hgrow e he, hev⟩

theorem Books.frame (h : Books s) (hjobs : t.obj.jobs = s.obj.jobs) (hlines : Chron Rule t.log)
    (hgrow : ∀ e ∈ s.log, e ∈ t.log)
    (hret : ∀ r, timesRetained r t.log = timesRetained r s.log)
    (hrel : ∀ r, timesReleased r t.log = timesReleased r s.log)
    (hinactive : t.obj.state = .inactive → ∀ i, (s.obj.jobs i).held = false) : Books t := by
  constructor
  case lines => exact hlines
  case balanced => intro r; rw [hret, hrel, hjobs]; exact h.balanced r
  case idle => rw [hjobs]; exact h.idle
  case inactive => rw [hjobs]; exact hinactive
  case completed =>
    rw [hjobs]
    intro i hstate
    rcases h.completed i hstate with ⟨e, he, hev⟩
    exact ⟨e, hgrow e he, hev⟩

theorem Books.put (h : Books s) {q : Queue} (hjobs : q.jobs = s.obj.jobs)
    (hinactive : q.state = .inactive → ∀ i, (s.obj.jobs i).held = false) : Books (s.put q) :=
  h.frame hjobs h.lines (fun _ he => he) (fun _ => rfl) (fun _ => rfl) hinactive

theorem Books.within (h : Books s) (r : Resource) :
    timesReleased r s.log ≤ timesRetained r s.log := by
  rw [h.balanced r]
  exact Nat.le_add_right _ _

theorem Books.heard (h : Books s) (ev : Event) (e : E) (hret : ∀ r, ev ≠ .retain r true)
    (hrel : ∀ r, ev ≠ .release r) (hrule : Rule ⟨s.obj, ev⟩ s.log) : Books (s.heard ev e) := by
  refine h.frame rfl ⟨hrule, h.lines⟩ (fun x hx => List.mem_cons_of_mem _ hx) (fun r => ?_)
    (fun r => ?_) h.inactive
  · change timesRetained r (⟨s.obj, ev⟩ :: s.log) = _
    rw [timesRetained_cons, if_neg (hret r), Nat.add_zero]
  · change timesReleased r (⟨s.obj, ev⟩ :: s.log) = _
    rw [timesReleased_cons, if_neg (hrel r), Nat.add_zero]

theorem loaded_books (h : Books s) {batch : BatchSnapshot}
    (hfree : (s.obj.jobs i).state = .free) :
    Books (s.put (s.obj.setJob i { Job.empty with batch := batch })) := by
  refine h.update rfl h.lines (fun _ he => he) (fun r => ?_) (fun _ => rfl) (fun hs => ⟨hs, rfl⟩)
    nofun
  rw [share_of_not_held (h.idle i hfree), share_of_not_held rfl]
  exact Nat.add_right_cancel_iff.mpr (Nat.add_comm _ _)

theorem rolledBack_books (h : Books s) {got : List Resource} {r : Resource}
    {e : E} (hfree : (s.obj.jobs i).state = .free) :
    Books ((s.heardAll (releaseLines got ++ .retain r false :: retainLines got) e).put
      (s.obj.setJob i Job.empty)) := by
  refine h.update rfl ?_ (fun e he => List.mem_append_right _ he) (fun x => ?_) (fun _ => rfl)
    (fun hs => ⟨hs, rfl⟩) nofun
  · -- The releases answer to the refused retain just before them.
    change Chron Rule ((releaseLines got ++ .retain r false :: retainLines got).map _ ++ s.log)
    rw [List.map_append, List.append_assoc]
    refine chron_releases got ⟨trivial, chron_retains got h.lines⟩ (fun _ _ => trivial)
      fun x => ?_
    have := h.within x
    simp
    omega
  · rw [share_of_not_held (h.idle i hfree), share_of_not_held rfl]
    simp [Sys.heardAll, Sys.put]
    omega

theorem rejected_books (h : Books s) {e₁ e₂ : E}
    (hfree : (s.obj.jobs i).state = .free) :
    Books ((((s.heardAll (retainLines (s.obj.jobs i).resources) e₁).put
      (s.obj.setJob i { s.obj.jobs i with held := true })).heardAll
        (releaseLines (s.obj.jobs i).resources ++ [.submit (s.obj.jobs i).batch .rejected])
        e₂).put (s.obj.setJob i Job.empty)) := by
  refine h.update rfl ?_ (fun e he => List.mem_append_right _ (List.mem_append_right _ he))
    (fun x => ?_) (fun _ => rfl) (fun hs => ⟨hs, rfl⟩) nofun
  · -- The releases answer to the rejection, which names what they release.
    change Chron Rule ((releaseLines _ ++ [_]).map _ ++ ((retainLines _).map _ ++ s.log))
    rw [List.map_append, List.append_assoc]
    refine chron_releases _ ⟨trivial, chron_retains _ h.lines⟩ (fun x hx => hx) fun x => ?_
    have := h.within x
    simp
    omega
  · rw [share_of_not_held (h.idle i hfree), share_of_not_held rfl]
    simp [Sys.heardAll, Sys.put]
    omega

/-- The job holds what was retained, and its token is new. -/
theorem taken_books (h : Books s) (htok : Tokens s)
    {answer : BackendAcceptance} {e₁ e₂ : E} (hfree : (s.obj.jobs i).state = .free)
    (hready : s.obj.state = .ready) (hroom : s.obj.exhausted = false)
    (hfence : (s.obj.jobs i).fence = ⟨s.obj.generation, s.obj.nextSequence⟩) :
    Books ((((s.heardAll (retainLines (s.obj.jobs i).resources) e₁).put
      (s.obj.setJob i { s.obj.jobs i with held := true })).heardAll
        [.handed (s.obj.jobs i).fence, .submit (s.obj.jobs i).batch answer] e₂).put
      (s.obj.taken i answer)) := by
  have hstate : ∀ st, st = JobState.free ∨ st = JobState.completed →
      (if answer = .accepted then JobState.submitted else JobState.acceptanceUnknown) ≠ st := by
    intro st hst
    split <;> rcases hst with rfl | rfl <;> decide
  refine h.update rfl ?_ (fun e he => List.mem_append_right _ (List.mem_append_right _ he))
    (fun r => ?_) (fun hf => absurd hf (hstate _ (Or.inl rfl))) (fun hf => ?_)
    (fun hf => absurd hf (hstate _ (Or.inr rfl)))
  · refine ⟨?_, trivial, chron_retains _ h.lines⟩
    change (s.obj.jobs i).fence ∉ tokens (_ :: ((retainLines _).map _ ++ s.log))
    rw [hfence, tokens, tokens_append, tokens_retains]
    exact htok.next_fresh hroom
  · rw [share_of_not_held (h.idle i hfree), share_of_held rfl]
    simp [Sys.heardAll, Sys.put]
    omega
  · change (if answer = .accepted then s.obj.state else QueueState.needsReset) = .inactive at hf
    rw [hready] at hf
    split at hf <;> cases hf

/-- The job keeps its batch and holds, and a new state is neither free nor completed. -/
def Job.Kept (a b : Job) : Prop :=
  b.held = a.held ∧ b.batch = a.batch ∧ (b.state = a.state ∨ b.state ≠ .free ∧ b.state ≠ .completed)

theorem Job.Kept.free {a b : Job} (h : a.Kept b) (hb : b.state = .free) : a.state = .free :=
  h.2.2.elim (fun hsame => hsame.symm.trans hb) fun hne => absurd hb hne.1

theorem Job.Kept.completed {a b : Job} (h : a.Kept b) (hb : b.state = .completed) :
    a.state = .completed :=
  h.2.2.elim (fun hsame => hsame.symm.trans hb) fun hne => absurd hb hne.2

theorem expired_kept (q : Queue) (now : Nat) (i : Fin maxJobs) :
    (q.jobs i).Kept ((q.expired now).jobs i) := by
  change (q.jobs i).Kept (if Queue.Overdue now (q.jobs i) then _ else q.jobs i)
  split
  · exact ⟨rfl, rfl, .inr ⟨nofun, nofun⟩⟩
  · exact ⟨rfl, rfl, .inl rfl⟩

theorem interrupted_kept (job : Job) : job.Kept job.interrupted := by
  unfold Job.interrupted
  split
  · exact ⟨rfl, rfl, .inr ⟨nofun, nofun⟩⟩
  · exact ⟨rfl, rfl, .inl rfl⟩

theorem expired_books (h : Books s) (now : Nat) : Books (s.put (s.obj.expired now)) := by
  constructor
  case lines => exact h.lines
  case balanced =>
    intro r
    have hshare : tally (Job.share r) (s.obj.expired now).jobs = tally (Job.share r) s.obj.jobs :=
      tally_congr (Job.share r) (fun i =>
        share_eq (expired_kept s.obj now i).1 (expired_kept s.obj now i).2.1 r)
    change timesRetained r s.log
      = timesReleased r s.log + tally (Job.share r) (s.obj.expired now).jobs
    rw [hshare]
    exact h.balanced r
  case idle =>
    intro i hfree
    have hkept := expired_kept s.obj now i
    exact hkept.1.trans (h.idle i (hkept.free hfree))
  case inactive =>
    intro hinactive i
    refine (expired_kept s.obj now i).1.trans (h.inactive ?_ i)
    change (if _ then QueueState.needsReset else s.obj.state) = .inactive at hinactive
    split at hinactive
    · cases hinactive
    · exact hinactive
  case completed =>
    intro i hdone
    have hkept := expired_kept s.obj now i
    rcases h.completed i (hkept.completed hdone) with ⟨e, he, hev, hbatch⟩
    exact ⟨e, he, hev, hbatch.trans hkept.2.1.symm⟩

/-- A job completes on the observation just made. -/
theorem completed_books (h : Books s)
    (hstate : (s.obj.jobs i).state = .submitted) (hcover : s.obj.Covers (s.obj.jobs i))
    (hseen : Seen s) (htime : s.obj.lastTime < (s.obj.jobs i).deadline) :
    Books ((s.heard (.completed i) s.env).put
      (s.obj.setJob i { s.obj.jobs i with state := .completed })) := by
  refine h.update rfl ⟨?_, h.lines⟩ (fun e he => List.mem_cons_of_mem _ he) (fun r => ?_) nofun
    (fun hs => ⟨hs, h.inactive hs i⟩) (fun _ => ⟨_, List.mem_cons_self, rfl, rfl⟩)
  · change Completes s.obj (s.obj.jobs i) (cause s.log)
    rcases hseen with ⟨q, target, o, hcause, hacc, hgen, hseq⟩
    rw [hcause]
    refine ⟨hacc, hgen, hcover.1.trans hgen.symm, ?_, hstate, htime⟩
    rw [hseq]
    exact hcover.2
  · change timesRetained r (_ :: s.log) + _ + (s.obj.jobs i).share r
      = timesReleased r (_ :: s.log) + _ + (s.obj.jobs i).share r
    rw [timesRetained_cons, timesReleased_cons, if_neg nofun, if_neg nofun]
    omega

theorem drained_books (h : Books s) (hheld : (s.obj.jobs i).held = true)
    (hcause : Seen s ∧ s.obj.Covers (s.obj.jobs i) ∨ Quieted s) : Books (drained io s i) := by
  refine h.update rfl ?_ (fun e he => List.mem_append_right _ he) (fun r => ?_) (fun _ => rfl)
    (fun hs => ⟨hs, rfl⟩) fun hs => ?_
  · refine chron_releases _ h.lines (fun r hr => ?_) (h.held_le hheld)
    rcases hcause with ⟨⟨q, target, o, hline, hacc, hgen, hseq⟩, hcover⟩ | ⟨q, target, hline⟩
    · rw [hline]
      refine ⟨hacc, i, hheld, hr, hcover.1.trans hgen.symm, ?_⟩
      rw [hseq]
      exact hcover.2
    · rw [hline]
      exact ⟨i, hheld, hr⟩
  · rw [share_of_held hheld, share_of_not_held rfl]
    simp [drained, Sys.heardAll, Sys.put]
    omega
  · rcases h.completed i hs with ⟨e, he, hev⟩
    exact ⟨e, List.mem_append_right _ he, hev⟩

/-- A change of one job's state that keeps its batch and holds. -/
theorem interrupted_books (h : Books s) (i : Fin maxJobs) :
    Books (s.put (s.obj.setJob i (s.obj.jobs i).interrupted)) := by
  have hkept := interrupted_kept (s.obj.jobs i)
  refine h.update rfl h.lines (fun _ he => he) (fun r => ?_)
    (fun hfree => hkept.1.trans (h.idle i (hkept.free hfree)))
    (fun hs => ⟨hs, hkept.1.trans (h.inactive hs i)⟩) fun hdone => ?_
  · rw [share_eq hkept.1 hkept.2.1]
    exact Nat.add_right_cancel_iff.mpr (Nat.add_comm _ _)
  · rw [hkept.2.1]
    exact h.completed i (hkept.completed hdone)

theorem retired_books (h : Books s) (hheld : (s.obj.jobs i).held = false) :
    Books (s.put (s.obj.setJob i Job.empty)) := by
  refine h.update rfl h.lines (fun _ he => he) (fun r => ?_) (fun _ => rfl) (fun hs => ⟨hs, rfl⟩)
    nofun
  rw [share_of_not_held hheld, share_of_not_held rfl]
  exact Nat.add_right_cancel_iff.mpr (Nat.add_comm _ _)

theorem move_books (hmove : Move io s t) (htok : Tokens s) (h : Books s) : Books t := by
  cases hmove with
  | readinessAsked | fenceAsked | quiesceAsked => exact h.heard _ _ nofun nofun trivial
  | ticked | observed => exact h.put rfl h.inactive
  | activated | stopped => exact h.put rfl nofun
  | loaded i batch hfree => exact loaded_books h hfree
  | rolledBack i got r e₁ e₂ hfree hret hno => exact rolledBack_books h hfree
  | rejected i e₁ e₂ hfree hret hsub => exact rejected_books h hfree
  | taken i answer e₁ e₂ hans hfree hready hroom hfence hgood hret hsub =>
    exact taken_books h htok hfree hready hroom hfence
  | expired => exact expired_books h _
  | completed i hstate hcover hseen htime => exact completed_books h hstate hcover hseen htime
  | drained i hheld hcause => exact drained_books h hheld hcause
  | interrupted i hquiet => exact interrupted_books h i
  | restarted hidle => exact h.put rfl fun _ i => (hidle i).1
  | retired i hheld hstate => exact retired_books h hheld

end Books

section Histories

variable {io : SubmissionBackend E} {s t : World E} {token : FenceToken}

/-- The token is out, and no job that carries it can complete any more. -/
def Lost (token : FenceToken) (s : World E) : Prop :=
  token ∈ tokens s.log ∧ ∀ i, (s.obj.jobs i).state ≠ .free →
    (s.obj.jobs i).fence = token → Doomed (s.obj.jobs i).state

theorem Progress.doomed {a b : JobState} (h : Progress a b) (ha : Doomed a) : Doomed b := by
  cases h with
  | same => exact ha
  | givenUp => exact Or.inr (Or.inr rfl)
  | _ => rcases ha with h | h | h <;> cases h

theorem move_tokens_mem (hmove : Move io s t) (h : token ∈ tokens s.log) :
    token ∈ tokens t.log := by
  cases hmove <;>
    simp [Sys.heard, Sys.heardAll, Sys.put, drained, tokens, h]

/-- A lost token stays lost. -/
theorem move_lost (hmove : Move io s t) (htok : Tokens s)
    (h : Lost token s) : Lost token t := by
  refine ⟨move_tokens_mem hmove h.1, fun i hlive hfence => ?_⟩
  rcases move_jobs hmove with hnext | ⟨j, answer, hobj, hroom, hnew⟩
  · rcases hnext i with hfree | ⟨hold, hbatch, hprog⟩
    · exact absurd hfree hlive
    · rw [hbatch] at hfence
      exact hprog.doomed (h.2 i hold hfence)
  · rw [hobj] at hlive hfence ⊢
    by_cases hij : i = j
    · -- The new job carries a token that was not out before.
      subst hij
      rw [show (s.obj.taken i answer).jobs i = _ from setJob_self _ _ _] at hfence
      have hfresh := htok.next_fresh hroom
      rw [← hnew] at hfresh
      exact absurd (show (s.obj.jobs i).fence ∈ tokens s.log from hfence ▸ h.1) hfresh
    · rw [show (s.obj.taken j answer).jobs i = s.obj.jobs i from
        update_of_ne hij _ _] at hlive hfence ⊢
      exact h.2 i hlive hfence

theorem moves_inv (hpath : Moves io s t) (htok : Tokens s) (hbooks : Books s) :
    Tokens t ∧ Books t := by
  induction hpath with
  | refl => exact ⟨htok, hbooks⟩
  | tail _ hmove ih => exact ⟨move_tokens hmove ih.1, move_books hmove ih.1 ih.2⟩

theorem moves_lost (hpath : Moves io s t) (htok : Tokens s)
    (h : Lost token s) : Lost token t := by
  have hboth : Tokens t ∧ Lost token t := by
    induction hpath with
    | refl => exact ⟨htok, h⟩
    | tail _ hmove ih => exact ⟨move_tokens hmove ih.1, move_lost hmove ih.1 ih.2⟩
  exact hboth.2

theorem start_tokens (owner context engine : Nat) (complete : Bool) (env : E) :
    Tokens (start owner context engine complete env) where
  once := List.nodup_nil
  bound _ h := absurd h List.not_mem_nil
  counter _ := Nat.zero_lt_one
  live _ h := absurd rfl h
  apart _ _ h := absurd rfl h

theorem start_books (owner context engine : Nat) (complete : Bool) (env : E) :
    Books (start owner context engine complete env) where
  lines := trivial
  balanced r := by
    have hzero : tally (Job.share r) (start owner context engine complete env).obj.jobs = 0 :=
      (tally_eq_zero_iff _ _).mpr (fun _ => rfl)
    rw [hzero]
    rfl
  idle _ _ := rfl
  inactive _ _ := rfl
  completed _ h := by cases h

theorem guarantees_of_inv (htok : Tokens s) (h : Books s) : Guarantees s :=
  ⟨htok.once, h.lines, h.completed, h.balanced, h.inactive⟩

/-- A doomed job is the only one its token has, so the token is lost. -/
theorem lost_of_doomed (htok : Tokens s) {i : Fin maxJobs} (h : Doomed (s.obj.jobs i).state) :
    Lost (s.obj.jobs i).fence s := by
  have hlive : (s.obj.jobs i).state ≠ .free := by
    intro hfree
    rw [hfree] at h
    rcases h with h | h | h <;> cases h
  refine ⟨htok.live i hlive, fun j hj hfence => ?_⟩
  rw [htok.apart j i hj hlive hfence]
  exact h

/-- Whatever is called, whatever the hardware answers and whatever the clock
    says, the queue keeps its promises; and a job that has timed out, been
    doubted or been reset is never completed by anything that follows. -/
theorem run_guarantees (io : SubmissionBackend E) (calls more : List Call)
    (owner context engine : Nat) (complete : Bool) (env : E) :
    Guarantees (run io calls (start owner context engine complete env)) ∧
      ∀ i j, Doomed ((run io calls (start owner context engine complete env)).obj.jobs i).state →
        ((run io more (run io calls (start owner context engine complete env))).obj.jobs j).state
          = .completed →
        ((run io more (run io calls (start owner context engine complete env))).obj.jobs
            j).fence
          ≠ ((run io calls (start owner context engine complete env)).obj.jobs i).fence := by
  generalize hs : run io calls (start owner context engine complete env) = s
  have hpath := run_moves io calls (start owner context engine complete env)
  rw [hs] at hpath
  rcases moves_inv hpath (start_tokens owner context engine complete env)
    (start_books owner context engine complete env) with ⟨htok, hbooks⟩
  refine ⟨guarantees_of_inv htok hbooks, fun i j hdoomed hdone hsame => ?_⟩
  have hlost := moves_lost (run_moves io more s) htok (lost_of_doomed htok hdoomed)
  have hlive : ((run io more s).obj.jobs j).state ≠ .free := by
    rw [hdone]
    decide
  have hstill := hlost.2 j hlive hsame
  rw [hdone] at hstill
  rcases hstill with h | h | h <;> cases h

end Histories

end Mellow.MellowXe
