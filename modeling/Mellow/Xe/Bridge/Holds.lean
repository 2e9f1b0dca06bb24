import Mellow.Xe.Bridge.Counting
import Mellow.Xe.Submission.Fences

/-!
# What a Held Job Holds

The queue remembers which resources a job holds, and the address space counts
uses. Nothing but the bridge connects the two, and they agree all the same.

No release ever fails: the descriptor resolves because an allocation with a use
is left in place, and the count is not zero because the job is one of those
counted. The other clients only release what they took.

## Main definitions

* `Linked`: the uses of a handle are those of the held jobs and those taken
  outside.
* `Secure`: what holds after any calls.

## Theorems

* `run_secure`: every reachable state is secure.
-/

namespace Mellow.XeMemory

open Lib MellowXe

namespace Bridge

open VirtualMemory

variable {V T : Type}

section Linked

variable {i : Fin maxJobs}

def jobUses (h : Handle) (job : Job) : Nat := if job.held then share h job.resources else 0

def holds (q : Queue) (h : Handle) : Nat := tally (jobUses h) q.jobs

/-- The jobs, the address space and the other clients agree. -/
structure Linked (s : Sys Queue (Bridge V T) MellowXe.Event) (outside : Handle → Nat) :
    Prop where
  good : Good s.env
  tokens : Tokens s
  books : Books s
  counted : ∀ h, uses s.env.vm.obj h = holds s.obj h + outside h
  mapped : ∀ i, (s.obj.jobs i).held = true →
    ∀ r ∈ (s.obj.jobs i).resources, Mapped s.env.vm.obj r
  distinct : ∀ i, (s.obj.jobs i).held = true →
    ((s.obj.jobs i).resources.map handleOf).Nodup

variable {s t : Sys Queue (Bridge V T) MellowXe.Event} {outside : Handle → Nat}

theorem Linked.frame (h : Linked s outside) (htok : Tokens t) (hbooks : Books t)
    (hjobs : ∀ i, (t.obj.jobs i).held = (s.obj.jobs i).held ∧
      ((s.obj.jobs i).held = true → (t.obj.jobs i).batch = (s.obj.jobs i).batch))
    (hrec : Recounts s.env t.env) (huses : ∀ k, uses t.env.vm.obj k = uses s.env.vm.obj k) :
    Linked t outside where
  good := hrec.good
  tokens := htok
  books := hbooks
  counted k := by
    have hsame : holds t.obj k = holds s.obj k := by
      refine tally_congr (jobUses k) fun i => ?_
      unfold jobUses
      rw [(hjobs i).1]
      by_cases hheld : (s.obj.jobs i).held = true
      · rw [(hjobs i).2 hheld]
      · rw [if_neg hheld, if_neg hheld]
    rw [huses, h.counted, hsame]
  mapped i hi := by
    rw [(hjobs i).1] at hi
    rw [(hjobs i).2 hi]
    exact fun r hr => hrec.mapped r (h.mapped i hi r hr)
  distinct i hi := by
    rw [(hjobs i).1] at hi
    rw [(hjobs i).2 hi]
    exact h.distinct i hi

theorem Linked.update (h : Linked s outside) (htok : Tokens t) (hbooks : Books t)
    {job : Job} (hjobs : t.obj.jobs = Function.update s.obj.jobs i job)
    (hrec : Recounts s.env t.env)
    (huses : ∀ k, uses t.env.vm.obj k + jobUses k (s.obj.jobs i)
      = uses s.env.vm.obj k + jobUses k job)
    (hmapped : job.held = true → ∀ r ∈ job.resources, Mapped t.env.vm.obj r)
    (hdistinct : job.held = true → (job.resources.map handleOf).Nodup) :
    Linked t outside where
  good := hrec.good
  tokens := htok
  books := hbooks
  counted k := by
    have htally := tally_update (jobUses k) s.obj.jobs i job
    have hcount := h.counted k
    have hmove := huses k
    unfold holds at *
    rw [hjobs]
    omega
  mapped j hj := by
    rw [hjobs] at hj ⊢
    by_cases hji : j = i
    · subst hji
      rw [Function.update_self] at hj ⊢
      exact hmapped hj
    · rw [Function.update_of_ne hji] at hj ⊢
      exact fun r hr => hrec.mapped r (h.mapped j hj r hr)
  distinct j hj := by
    rw [hjobs] at hj ⊢
    by_cases hji : j = i
    · subst hji
      rw [Function.update_self] at hj ⊢
      exact hdistinct hj
    · rw [Function.update_of_ne hji] at hj ⊢
      exact h.distinct j hj

theorem Linked.share_le (h : Linked s outside)
    (hheld : (s.obj.jobs i).held = true) (k : Handle) :
    share k (s.obj.jobs i).resources ≤ uses s.env.vm.obj k := by
  have hle := le_tally (jobUses k) s.obj.jobs i
  have hcount := h.counted k
  unfold holds at hcount
  rw [jobUses, if_pos hheld] at hle
  omega

/-- Resources that pass the checks of `submit` stand for different handles. -/
theorem checkResources_distinct {owner : Nat} : ∀ (rs seen : List Resource),
    checkResources owner seen rs = .none →
    (rs.map handleOf).Nodup ∧ ∀ r ∈ rs, r.id ≠ 0 ∧ ∀ p ∈ seen, p.id ≠ r.id := by
  intro rs
  induction rs with
  | nil => exact fun seen _ => ⟨List.nodup_nil, fun r hr => absurd hr List.not_mem_nil⟩
  | cons r rs ih =>
    intro seen hcheck
    unfold checkResources at hcheck
    split at hcheck
    · cases hcheck
    · rename_i howned
      split at hcheck
      · cases hcheck
      · split at hcheck
        · cases hcheck
        · rename_i hnew
          rcases ih (r :: seen) hcheck with ⟨hnodup, hrest⟩
          have hid : r.id ≠ 0 := (not_not.mp howned).1
          refine ⟨List.nodup_cons.mpr ⟨?_, hnodup⟩, ?_⟩
          · -- Both identifiers are positive, so the slots differ as they do.
            intro hmem
            rcases List.mem_map.mp hmem with ⟨x, hx, heq⟩
            have hslot : x.id - 1 = r.id - 1 := congrArg Handle.slot heq
            have hx0 := (hrest x hx).1
            have hne := (hrest x hx).2 r List.mem_cons_self
            omega
          · intro x hx
            rcases List.mem_cons.mp hx with rfl | hx
            · exact ⟨hid, fun p hp heq => hnew ⟨p, hp, heq⟩⟩
            · exact ⟨(hrest x hx).1, fun p hp => (hrest x hx).2 p (List.mem_cons_of_mem r hp)⟩

variable (transport : MellowXe.SubmissionBackend T)

theorem jobUses_of_not_held {job : Job} (h : job.held = false) (k : Handle) :
    jobUses k job = 0 := by
  unfold jobUses
  rw [h]
  rfl

theorem Linked.vacate (h : Linked s outside) (htok : Tokens t) (hbooks : Books t)
    {job : Job} (hjobs : t.obj.jobs = Function.update s.obj.jobs i job)
    (hold : (s.obj.jobs i).held = false) (hnew : job.held = false)
    (hrec : Recounts s.env t.env) (huses : ∀ k, uses t.env.vm.obj k = uses s.env.vm.obj k) :
    Linked t outside := by
  refine h.update htok hbooks hjobs hrec (fun k => ?_) (fun hc => ?_) fun hc => ?_
  · rw [jobUses_of_not_held hold, jobUses_of_not_held hnew, huses]
  · rw [hnew] at hc
    cases hc
  · rw [hnew] at hc
    cases hc

/-- The moves of the queue keep both sides in step. -/
theorem move_linked (hmove : Move (backend transport) s t) (h : Linked s outside) :
    Linked t outside ∧ t.env.vm.log = s.env.vm.log := by
  have htok := move_tokens hmove h.tokens
  have hbooks := move_books hmove h.tokens h.books
  have hstay : Recounts s.env s.env := h.good.recounts
  cases hmove with
  | readinessAsked firmware =>
    have hrec : Recounts s.env ((backend transport).readiness firmware s.obj.target s.env).2 ∧
        ((backend transport).readiness firmware s.obj.target s.env).2.vm = s.env.vm := by
      change Recounts s.env (if s.env.faulted = true then _ else forward _ s.env).2 ∧
        (if s.env.faulted = true then _ else forward _ s.env).2.vm = _
      rw [if_neg (by rw [h.good.sound]; decide)]
      exact forward_recounts _ h.good
    refine ⟨h.frame htok hbooks (fun i => ⟨rfl, fun _ => rfl⟩) hrec.1 (fun k => ?_), hrec.1.log⟩
    exact congrArg (fun vm => uses vm.obj k) hrec.2
  | fenceAsked =>
    have hrec := forward_recounts (transport.readFence s.obj.target) h.good
    exact ⟨h.frame htok hbooks (fun i => ⟨rfl, fun _ => rfl⟩) hrec.1 (fun k => rfl), rfl⟩
  | quiesceAsked =>
    have hrec := forward_recounts (transport.quiesce s.obj.target) h.good
    exact ⟨h.frame htok hbooks (fun i => ⟨rfl, fun _ => rfl⟩) hrec.1 (fun k => rfl), rfl⟩
  | ticked now _ =>
    exact ⟨h.frame htok hbooks (fun i => ⟨rfl, fun _ => rfl⟩) hstay (fun k => rfl), rfl⟩
  | activated _ =>
    exact ⟨h.frame htok hbooks (fun i => ⟨rfl, fun _ => rfl⟩) hstay (fun k => rfl), rfl⟩
  | stopped =>
    exact ⟨h.frame htok hbooks (fun i => ⟨rfl, fun _ => rfl⟩) hstay (fun k => rfl), rfl⟩
  | loaded i batch hfree =>
    exact ⟨h.vacate htok hbooks rfl (h.books.idle i hfree) rfl hstay (fun k => rfl), rfl⟩
  | rolledBack i got r e₁ e₂ hfree hret hno =>
    -- The refused retain changed nothing, so what was retained is there to be released.
    have hsame := retain_false hno
    subst hsame
    have hgood := (retained_uses transport got s.env h.good hret).1.good
    rcases undone_recounts transport h.good hret hgood.recounts rfl with ⟨hrec, huses⟩
    exact ⟨h.vacate htok hbooks rfl (h.books.idle i hfree) rfl hrec huses, hrec.log⟩
  | rejected i e₁ e₂ hfree hret hsub =>
    have hgood := (retained_uses transport _ s.env h.good hret).1.good
    rcases submit_recounts transport hgood hsub with ⟨hrec₁, hvm⟩
    rcases undone_recounts transport h.good hret hrec₁ hvm with ⟨hrec, huses⟩
    exact ⟨h.vacate htok hbooks rfl (h.books.idle i hfree) rfl hrec huses, hrec.log⟩
  | taken i answer e₁ e₂ hans hfree hready hroom hfence hgood hret hsub =>
    rcases retained_uses transport _ s.env h.good hret with ⟨hrec₁, hmapped, hcount⟩
    rcases submit_recounts transport hrec₁.good hsub with ⟨hrec₂, hvm⟩
    have hrec := hrec₁.trans hrec₂
    refine ⟨h.update htok hbooks rfl hrec (fun k => ?_) (fun _ r hr => ?_) (fun _ => ?_),
      hrec.log⟩
    · change uses e₂.vm.obj k + _ = _ + share k (s.obj.jobs i).resources
      rw [jobUses_of_not_held (h.books.idle i hfree), hvm, hcount]
      rfl
    · exact hrec₂.mapped r (hmapped r hr)
    · exact (checkResources_distinct _ _ hgood).1
  | expired =>
    refine ⟨h.frame htok hbooks (fun i => ?_) hstay (fun k => rfl), rfl⟩
    have hjob := expired_kept s.obj s.obj.lastTime i
    exact ⟨hjob.1, fun _ => hjob.2.1⟩
  | observed o _ _ =>
    exact ⟨h.frame htok hbooks (fun i => ⟨rfl, fun _ => rfl⟩) hstay (fun k => rfl), rfl⟩
  | completed i hstate hcover hseen htime =>
    refine ⟨h.update htok hbooks rfl hstay (fun k => rfl) (fun hheld => ?_) (fun hheld => ?_), rfl⟩
    · exact h.mapped i hheld
    · exact h.distinct i hheld
  | drained i hheld hcause =>
    rcases releases_uses transport (s.obj.jobs i).resources.reverse s.env h.good
      (fun r hr => h.mapped i hheld r (List.mem_reverse.mp hr))
      (fun k => by
        rw [share_reverse]
        exact h.share_le hheld k) with ⟨hrec, hcount⟩
    refine ⟨h.update htok hbooks rfl hrec (fun k => ?_) (fun hc => ?_) (fun hc => ?_), hrec.log⟩
    · have hnone : jobUses k { s.obj.jobs i with held := false } = 0 :=
        jobUses_of_not_held rfl k
      rw [hnone, jobUses, if_pos hheld, hcount k, share_reverse]
      rfl
    · cases hc
    · cases hc
  | interrupted i hquiet =>
    have hjob : (s.obj.jobs i).interrupted.held = (s.obj.jobs i).held ∧
        (s.obj.jobs i).interrupted.batch = (s.obj.jobs i).batch := by
      unfold Job.interrupted
      split <;> exact ⟨rfl, rfl⟩
    refine ⟨h.update htok hbooks rfl hstay (fun k => ?_) (fun hheld => ?_) (fun hheld => ?_), rfl⟩
    · unfold jobUses
      rw [hjob.1, hjob.2]
      rfl
    · rw [hjob.1] at hheld
      rw [hjob.2]
      exact h.mapped i hheld
    · rw [hjob.1] at hheld
      rw [hjob.2]
      exact h.distinct i hheld
  | restarted hidle =>
    exact ⟨h.frame htok hbooks (fun i => ⟨rfl, fun _ => rfl⟩) hstay (fun k => rfl), rfl⟩
  | retired i hheld hstate =>
    exact ⟨h.vacate htok hbooks rfl hheld rfl hstay (fun k => rfl), rfl⟩

theorem moves_linked (hpath : Moves (backend transport) s t) (h : Linked s outside) :
    Linked t outside ∧ t.env.vm.log = s.env.vm.log := by
  induction hpath with
  | refl => exact ⟨h, rfl⟩
  | tail _ hmove ih =>
    rcases move_linked transport hmove ih.1 with ⟨hlinked, hlog⟩
    exact ⟨hlinked, hlog.trans ih.2⟩

/-- Somebody else kept count and left the resources in place. -/
theorem Linked.setVm (h : Linked s outside) {vm : Sys VirtualMemory V VirtualMemory.Event}
    {outside' : Handle → Nat} (hinv : Inv vm)
    (hcount : ∀ k, uses vm.obj k + outside k = uses s.env.vm.obj k + outside' k)
    (hmapped : ∀ r, Mapped s.env.vm.obj r → uses s.env.vm.obj (handleOf r) ≠ 0 →
      Mapped vm.obj r) :
    Linked { s with env := { s.env with vm := vm } } outside' where
  good := ⟨hinv, h.good.sound⟩
  tokens := ⟨h.tokens.once, h.tokens.bound, h.tokens.counter, h.tokens.live, h.tokens.apart⟩
  books := ⟨h.books.lines, h.books.balanced, h.books.idle, h.books.inactive, h.books.completed⟩
  counted k := by
    have h₁ := h.counted k
    have h₂ := hcount k
    change uses vm.obj k = holds s.obj k + outside' k
    omega
  mapped i hi r hr := by
    refine hmapped r (h.mapped i hi r hr) ?_
    -- The job itself is one of the uses.
    have hle := h.share_le hi (handleOf r)
    have hone : 0 < share (handleOf r) (s.obj.jobs i).resources :=
      List.countP_pos_iff.mpr ⟨r, hr, decide_eq_true rfl⟩
    omega
  distinct := h.distinct

end Linked

section Clients

variable {s : Sys Queue (Bridge V T) MellowXe.Event} {outside : Handle → Nat}

/-- A call that counts no use, or did not, leaves the clients' books alone. -/
theorem recounted_of_not_counted {c : VirtualMemory.Call} {result : Status}
    (h : c.Quiet ∨ result ≠ .ok) : Joint.recounted outside c result = outside := by
  cases c with
  | retainUse | releaseUse =>
    rcases h with h | h
    · exact absurd h id
    · cases result <;> first | rfl | exact absurd rfl h
  | _ => rfl

theorem Linked.recount (h : Linked s outside) {k : Handle} {n m : Nat}
    (hgen : (s.env.vm.obj.slots k.slot).generation = k.generation)
    (hstate : (s.env.vm.obj.slots k.slot).state = .bound ∨
      (s.env.vm.obj.slots k.slot).state = .retiring)
    (hnm : n + outside k = uses s.env.vm.obj k + m) :
    Linked { s with env := { s.env with
        vm := turned s.env.vm k.slot []
          { s.env.vm.obj.slots k.slot with activeUses := n } s.env.vm.env } }
      (Function.update outside k m) := by
  have hlive : (s.env.vm.obj.slots k.slot).state ≠ .free := by
    rcases hstate with h | h <;> rw [h] <;> decide
  refine h.setVm (recount_inv hstate h.good.inv) (fun x => ?_) fun r hm _ => ?_
  · rw [uses_recount _ _ _ hlive, hgen]
    change Function.update (uses s.env.vm.obj) k n x + _ = _
    by_cases hx : x = k
    · simp [*]
    · simp [*]
  · exact hm.keeps (recount_keeps s.env.vm k.slot n _ hm.state)

/-- A call by another client keeps both sides in step. -/
theorem memory_linked (io : VirtualMemory.Backend V) (h : Linked s outside)
    (c : VirtualMemory.Call) (hc : ¬ Joint.Unowned outside c) :
    Linked { s with env := { s.env with vm := (VirtualMemory.step io c s.env.vm).2 } }
        (Joint.recounted outside c (VirtualMemory.step io c s.env.vm).1) ∧
      ∃ new, (VirtualMemory.step io c s.env.vm).2.log = new ++ s.env.vm.log ∧ ∀ x ∈ new,
        uses x.obj = uses s.env.vm.obj ∧
          (x.event.Ends → (x.obj.slots x.event.slot).activeUses = 0) := by
  have hnone : ∃ new, s.env.vm.log = new ++ s.env.vm.log ∧ ∀ x ∈ new,
      uses x.obj = uses s.env.vm.obj ∧
        (x.event.Ends → (x.obj.slots x.event.slot).activeUses = 0) :=
    ⟨[], rfl, fun x hx => absurd hx List.not_mem_nil⟩
  by_cases hquiet : c.Quiet
  · have hpath : VirtualMemory.Moves s.env.vm (VirtualMemory.step io c s.env.vm).2 :=
      VirtualMemory.step_moves c hquiet
    rcases moves_lines hpath h.good.inv with ⟨huses, hlines⟩
    refine ⟨?_, hlines⟩
    rw [recounted_of_not_counted (Or.inl hquiet)]
    refine h.setVm (VirtualMemory.moves_inv hpath h.good.inv) (fun k => by rw [huses])
      (fun r hm hbusy => hm.keeps (moves_keep hpath h.good.inv ?_))
    exact fun hzero => hbusy (usesAs_zero hzero _)
  · cases c with
    | retainUse owner k =>
      change Linked { s with env := { s.env with vm := (retainUse owner k s.env.vm).2 } }
          (Joint.recounted outside (.retainUse owner k) (retainUse owner k s.env.vm).1) ∧
        ∃ new, (retainUse owner k s.env.vm).2.log = new ++ s.env.vm.log ∧ _
      rcases retainUse_result owner k s.env.vm with ⟨hl, hbound, hres⟩ | ⟨hne, hsame⟩
      · rw [hres]
        refine ⟨h.recount (lookup_ok hl).2.2.2.1 (Or.inl hbound) ?_, hnone⟩
        rw [uses_of_lookup hl]
        omega
      · simp [recounted_of_not_counted (Or.inr hne), *]
    | releaseUse owner k =>
      change Linked { s with env := { s.env with vm := (releaseUse owner k s.env.vm).2 } }
          (Joint.recounted outside (.releaseUse owner k) (releaseUse owner k s.env.vm).1) ∧
        ∃ new, (releaseUse owner k s.env.vm).2.log = new ++ s.env.vm.log ∧ _
      have htook : outside k ≠ 0 := hc
      rcases releaseUse_result owner k s.env.vm with ⟨hl, hstate, hne, hres⟩ | ⟨hne, hsame⟩
      · rw [hres]
        refine ⟨h.recount (lookup_ok hl).2.2.2.1 hstate ?_, hnone⟩
        rw [uses_of_lookup hl]
        omega
      · simp [recounted_of_not_counted (Or.inr hne), *]
    | _ => exact absurd trivial hquiet

end Clients

end Bridge

namespace Joint

open Bridge VirtualMemory

variable {V T : Type}

/-- The job is held and names the allocation. -/
def Names (job : Job) (h : Handle) : Prop :=
  job.held = true ∧ ∃ r ∈ job.resources, handleOf r = h
  deriving Decidable

/-- The guarantees about what held jobs hold. -/
structure Secure (io : VirtualMemory.Backend V) (transport : MellowXe.SubmissionBackend T)
    (j : Joint V T) : Prop where
  /-- An allocation's uses are the held jobs naming it and the uses outside. -/
  counted : ∀ i, (j.vm.obj.slots i).state ≠ .free →
    (j.vm.obj.slots i).activeUses
      = (Finset.univ.filter fun k =>
          Names (j.queue.obj.jobs k) ⟨i, (j.vm.obj.slots i).generation⟩).card
        + j.outside ⟨i, (j.vm.obj.slots i).generation⟩
  /-- No release has failed. -/
  sound : j.queue.env.faulted = false
  /-- Every allocation a held job names is still there. -/
  mapped : ∀ k, (j.queue.obj.jobs k).held = true →
    ∀ r ∈ (j.queue.obj.jobs k).resources, Mapped j.vm.obj r
  /-- Only what no held job names is unbound, unpinned or freed next. -/
  spared : ∀ a, ∃ new, (act io transport j a).vm.log = new ++ j.vm.log ∧ ∀ x ∈ new,
    x.event.Ends → ∀ k, ¬ Names (j.queue.obj.jobs k)
      ⟨x.event.slot, (x.obj.slots x.event.slot).generation⟩

variable {j : Joint V T}

/-- Descriptors of different handles name each handle at most once. -/
theorem share_of_nodup {rs : List Resource} (hd : (rs.map handleOf).Nodup) (h : Handle) :
    share h rs = if ∃ r ∈ rs, handleOf r = h then 1 else 0 := by
  have hcount : share h rs = (rs.map handleOf).count h := by
    unfold share
    rw [List.count, List.countP_map]
    exact List.countP_congr (fun r _ => by simp)
  rw [hcount, hd.count]
  simp only [List.mem_map]

/-- The uses the jobs account for are the jobs that name the allocation. -/
theorem holds_eq_card (h : Linked j.queue j.outside) (k : Handle) :
    holds j.queue.obj k = (Finset.univ.filter fun i => Names (j.queue.obj.jobs i) k).card := by
  unfold holds tally
  rw [Finset.card_filter]
  refine Finset.sum_congr rfl fun i _ => ?_
  unfold jobUses
  by_cases hheld : (j.queue.obj.jobs i).held = true
  · rw [if_pos hheld, share_of_nodup (h.distinct i hheld)]
    by_cases hnames : Names (j.queue.obj.jobs i) k
    · rw [if_pos hnames, if_pos hnames.2]
    · rw [if_neg hnames, if_neg (fun hr => hnames ⟨hheld, hr⟩)]
  · have hnames : ¬ Names (j.queue.obj.jobs i) k := fun hn => hheld hn.1
    rw [if_neg hheld, if_neg hnames]

theorem not_names_of_uses (h : Linked j.queue j.outside) {k : Handle}
    (hzero : uses j.vm.obj k = 0) (i : Fin maxJobs) : ¬ Names (j.queue.obj.jobs i) k := by
  rintro ⟨hheld, r, hr, hrk⟩
  have hle := h.share_le hheld k
  have hone : 0 < share k (j.queue.obj.jobs i).resources :=
    List.countP_pos_iff.mpr ⟨r, hr, decide_eq_true hrk⟩
  change _ ≤ uses j.vm.obj k at hle
  omega

variable (io : VirtualMemory.Backend V) (transport : MellowXe.SubmissionBackend T)

/-- One act keeps the invariant, and what it ends is named by no held job. -/
theorem act_linked (a : Act) (h : Linked j.queue j.outside) :
    Linked (act io transport j a).queue (act io transport j a).outside ∧
      ∃ new, (act io transport j a).vm.log = new ++ j.vm.log ∧ ∀ x ∈ new, x.event.Ends →
        ∀ i, ¬ Names (j.queue.obj.jobs i)
          ⟨x.event.slot, (x.obj.slots x.event.slot).generation⟩ := by
  cases a with
  | queue c =>
    -- The queue changes counts and nothing else.
    rcases moves_linked transport (MellowXe.step_moves j.queue c) h with ⟨hlinked, hlog⟩
    exact ⟨hlinked, [], hlog, fun x hx => absurd hx List.not_mem_nil⟩
  | memory c =>
    by_cases hc : Unowned j.outside c
    · have hact : act io transport j (.memory c) = j := if_pos hc
      rw [hact]
      exact ⟨h, [], rfl, fun x hx => absurd hx List.not_mem_nil⟩
    · have hact : act io transport j (.memory c) = j.setVm (VirtualMemory.step io c j.vm).2
          (recounted j.outside c (VirtualMemory.step io c j.vm).1) := if_neg hc
      rw [hact]
      rcases memory_linked io h c hc with ⟨hlinked, new, hlog, hlines⟩
      refine ⟨hlinked, new, hlog, fun x hx hends i => ?_⟩
      rcases hlines x hx with ⟨huses, hzero⟩
      refine not_names_of_uses h ?_ i
      change uses j.queue.env.vm.obj _ = 0
      rw [← huses]
      exact usesAs_zero (hzero hends) _

theorem secure_of_linked (h : Linked j.queue j.outside) :
    Secure io transport j where
  counted i hlive := by
    have hcount := h.counted ⟨i, (j.vm.obj.slots i).generation⟩
    rw [holds_eq_card h] at hcount
    rw [← hcount]
    exact (usesAs_self hlive).symm
  sound := h.good.sound
  mapped := h.mapped
  spared a := (act_linked io transport a h).2

theorem start_linked (owner context engine : Nat) (complete : Bool) (env : V) (transport : T) :
    Linked (start owner context engine complete env transport).queue
      (start owner context engine complete env transport).outside where
  good := ⟨VirtualMemory.start_inv env, rfl⟩
  tokens := start_tokens _ _ _ _ _
  books := start_books _ _ _ _ _
  counted h := by
    have hzero : holds (start owner context engine complete env transport).queue.obj h = 0 :=
      (tally_eq_zero_iff _ _).mpr (fun _ => rfl)
    rw [hzero]
    exact usesAs_free rfl _
  mapped i hi := by cases hi
  distinct i hi := by cases hi

theorem run_linked (acts : List Act) (h : Linked j.queue j.outside) :
    Linked (run io transport acts j).queue (run io transport acts j).outside := by
  induction acts generalizing j with
  | nil => exact h
  | cons a acts ih => exact ih (act_linked io transport a h).1

/-- However the calls of the queue and of the other clients follow each other,
    and whatever the transport and the memory backend answer: uses are held
    jobs plus outside uses, no release fails, what a held job names is still
    there, and no act unbinds, unpins or frees it. -/
theorem run_secure (io : VirtualMemory.Backend V) (transport : MellowXe.SubmissionBackend T)
    (acts : List Act) (owner context engine : Nat) (complete : Bool) (env : V) (tenv : T) :
    Secure io transport
      (run io transport acts (start owner context engine complete env tenv)) :=
  secure_of_linked io transport
    (run_linked io transport acts (start_linked owner context engine complete env tenv))

end Joint

end Mellow.XeMemory
