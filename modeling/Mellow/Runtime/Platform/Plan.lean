import Mathlib.Data.List.GetD
import Mellow.Runtime.Platform.Model

/-!
# What a Plan Is

The search is an instance of `Lib.Backtrack`: level `k` is step `k`, and a
provider fits there when it supports the step and every dependency into the step
can be carried. Those come from earlier steps. The store has stale entries of
steps that were given up.

## Main definitions

* `Carries`: what a mode of transfer stands for.
* `Feasible`: each step is supported and each dependency carried.
* `Settled`: the entries that steps below `k` rely on are not stale.
* `Planned`: what holds of every answer.

## Theorems

* `planWorkload_planned`: the planner finds a feasible assignment if there is
  one.
-/

namespace Mellow.Platform

open Backtrack Function

/-- A contract that is verified, for these providers and this resource. -/
structure Covers (c : TransferContract) (a b : Provider) (d : Dependency) (mode : TransferMode) :
    Prop where
  producer : c.producerProvider = a.id ∧ c.producerEpoch = a.resetEpoch
  consumer : c.consumerProvider = b.id ∧ c.consumerEpoch = b.resetEpoch
  resource : c.resource = d.resource
  mode : c.mode = mode
  verified : c.resourceCompatibilityVerified = true ∧ c.orderingVerified = true ∧
    c.contentsPreservedVerified = true ∧ c.validationRecord ≠ 0

namespace Search

variable (s : Search)

/-- Some contract covers `d` between the providers that `a` chose. -/
def Contracted (a : Nat → Nat) (d : Dependency) (mode : TransferMode) : Prop :=
  ∃ c ∈ s.contracts, Covers c (s.provider (a d.producer)) (s.provider (a d.consumer)) d mode

/-- How `d` is carried under the assignment `a`. -/
def Carries (a : Nat → Nat) (d : Dependency) : TransferMode → Prop
  | .none => a d.producer = a d.consumer
  | .sharedResource => a d.producer ≠ a d.consumer ∧ s.Contracted a d .sharedResource
  | .explicitCopy => a d.producer ≠ a d.consumer ∧ ¬s.Contracted a d .sharedResource ∧
      d.policy = .sharedOrExplicitCopy ∧ s.Contracted a d .explicitCopy

structure Feasible (a : Nat → Nat) : Prop where
  supported : ∀ k < s.steps.length, a k < s.providers.length ∧
    supports (s.provider (a k)) (s.step k) s.reference = true
  carried : ∀ d ∈ s.dependencies, ∃ mode, s.Carries a d mode

structure Checked : Prop where
  distinct : ∀ i j, i < s.providers.length → j < s.providers.length →
    (s.provider i).id = (s.provider j).id → i = j
  ordered : ∀ d ∈ s.dependencies, d.producer < d.consumer ∧ d.consumer < s.steps.length

variable {s}

section Transfer

variable {d : Dependency} {mode : TransferMode} {a : Nat → Nat}

theorem covers_iff {c : TransferContract} {a b : Provider} :
    covers c a b d mode = true ↔ Covers c a b d mode := by
  unfold covers
  simp only [Bool.and_eq_true, decide_eq_true_eq]
  constructor
  · rintro ⟨⟨⟨⟨⟨hp, hc, hr, hpe, hce, hm⟩, hcompat⟩, hord⟩, hcont⟩, hval⟩
    exact ⟨⟨hp, hpe⟩, ⟨hc, hce⟩, hr, hm, hcompat, hord, hcont, hval⟩
  · rintro ⟨⟨hp, hpe⟩, ⟨hc, hce⟩, hr, hm, hcompat, hord, hcont, hval⟩
    exact ⟨⟨⟨⟨⟨hp, hc, hr, hpe, hce, hm⟩, hcompat⟩, hord⟩, hcont⟩, hval⟩

theorem any_covers_iff :
    (s.contracts.any fun c => covers c (s.provider (a d.producer))
      (s.provider (a d.consumer)) d mode) = true ↔ s.Contracted a d mode := by
  rw [List.any_eq_true]
  exact exists_congr fun c => and_congr_right fun _ => covers_iff

theorem transfer_congr {b : Nat → Nat} (hp : a d.producer = b d.producer)
    (hc : a d.consumer = b d.consumer) : s.transfer a d = s.transfer b d := by
  unfold transfer
  rw [hp, hc]

theorem transfer_eq
    (hid : (s.provider (a d.producer)).id = (s.provider (a d.consumer)).id ↔
      a d.producer = a d.consumer) :
    s.transfer a d = some mode ↔ s.Carries a d mode := by
  unfold transfer pass
  dsimp only
  by_cases hsame : a d.producer = a d.consumer
  · rw [if_pos (hid.mpr hsame)]
    cases mode with
    | none => exact ⟨fun _ => hsame, fun _ => rfl⟩
    | sharedResource | explicitCopy => exact ⟨nofun, fun h => absurd hsame h.1⟩
  · rw [if_neg (mt hid.mp hsame), if_neg (fun h => nomatch h.1)]
    by_cases hshared : s.Contracted a d .sharedResource
    · rw [if_pos (any_covers_iff.mpr hshared), Option.some_or]
      cases mode with
      | none => exact ⟨nofun, fun h => absurd h hsame⟩
      | sharedResource => exact ⟨fun _ => ⟨hsame, hshared⟩, fun _ => rfl⟩
      | explicitCopy => exact ⟨nofun, fun h => absurd hshared h.2.1⟩
    · rw [if_neg (mt any_covers_iff.mp hshared), Option.none_or]
      by_cases hpolicy : d.policy = .sharedOrExplicitCopy
      · rw [if_neg fun h => h.2 hpolicy]
        by_cases hcopy : s.Contracted a d .explicitCopy
        · rw [if_pos (any_covers_iff.mpr hcopy)]
          cases mode with
          | none => exact ⟨nofun, fun h => absurd h hsame⟩
          | sharedResource => exact ⟨nofun, fun h => absurd h.2 hshared⟩
          | explicitCopy => exact ⟨fun _ => ⟨hsame, hshared, hpolicy, hcopy⟩, fun _ => rfl⟩
        · rw [if_neg (mt any_covers_iff.mp hcopy)]
          refine ⟨nofun, fun h => ?_⟩
          cases mode with
          | none => exact absurd h hsame
          | sharedResource => exact absurd h.2 hshared
          | explicitCopy => exact absurd h.2.2.2 hcopy
      · rw [if_pos ⟨rfl, hpolicy⟩]
        refine ⟨nofun, fun h => ?_⟩
        cases mode with
        | none => exact absurd h hsame
        | sharedResource => exact absurd h.2 hshared
        | explicitCopy => exact absurd h.2.2.1 hpolicy

theorem Checked.id_iff (hs : s.Checked) {i j : Nat} (hi : i < s.providers.length)
    (hj : j < s.providers.length) : (s.provider i).id = (s.provider j).id ↔ i = j :=
  ⟨hs.distinct i j hi hj, fun h => by rw [h]⟩

end Transfer

section Edges

/-- Dependencies into `k` can be carried. -/
def linked (s : Search) (k : Nat) (a : Nat → Nat) (ds : List Dependency) : Bool :=
  ds.all fun d => decide (d.consumer ≠ k) || (s.transfer a d).isSome

theorem linked_iff {k : Nat} {a : Nat → Nat} {ds : List Dependency} :
    s.linked k a ds = true ↔ ∀ d ∈ ds, d.consumer = k → ∃ m, s.transfer a d = some m := by
  unfold linked
  rw [List.all_eq_true]
  refine forall₂_congr fun d _ => ?_
  rw [Bool.or_eq_true, decide_eq_true_eq, Option.isSome_iff_exists]
  exact imp_iff_not_or.symm

theorem connect_selected (k edge : Nat) (ds : List Dependency) (c : Choices) :
    (s.connect k edge ds c).2.selected = c.selected := by
  induction ds generalizing edge c with
  | nil => rfl
  | cons d ds ih =>
    unfold connect
    by_cases hk : d.consumer = k
    · rw [if_pos hk]
      cases s.transfer c.selected d with
      | none => rfl
      | some m => exact ih ..
    · rw [if_neg hk]
      exact ih ..

theorem connect_ok (k edge : Nat) (ds : List Dependency) (c : Choices) :
    (s.connect k edge ds c).1 = s.linked k c.selected ds := by
  induction ds generalizing edge c with
  | nil => rfl
  | cons d ds ih =>
    unfold connect linked
    rw [List.all_cons]
    by_cases hk : d.consumer = k
    · rw [if_pos hk, decide_eq_false (not_not.mpr hk), Bool.false_or]
      cases s.transfer c.selected d with
      | none => rfl
      | some m => exact ih ..
    · rw [if_neg hk, decide_eq_true hk, Bool.true_or, Bool.true_and]
      exact ih ..

/-- Edges before the list, and edges into other steps, keep their mode. -/
theorem connect_modes (k edge : Nat) (ds : List Dependency) (c : Choices) (e : Nat)
    (he : ∀ d, edge ≤ e → ds[e - edge]? = some d → d.consumer ≠ k) :
    (s.connect k edge ds c).2.modes e = c.modes e := by
  induction ds generalizing edge c with
  | nil => rfl
  | cons d ds ih =>
    have htail : ∀ d', edge + 1 ≤ e → ds[e - (edge + 1)]? = some d' → d'.consumer ≠ k := by
      intro d' hle hd'
      refine he d' (by omega) ?_
      rw [show e - edge = e - (edge + 1) + 1 by omega, List.getElem?_cons_succ]
      exact hd'
    unfold connect
    by_cases hk : d.consumer = k
    · rw [if_pos hk]
      cases s.transfer c.selected d with
      | none => rfl
      | some m =>
        refine (ih (edge + 1) _ htail).trans (update_of_ne (fun heq => ?_) _ _)
        subst heq
        exact he d (Nat.le_refl e) (by rw [Nat.sub_self]; rfl) hk
    · rw [if_neg hk]
      exact ih (edge + 1) c htail

theorem connect_found (k edge : Nat) (ds : List Dependency) (c : Choices)
    (hok : (s.connect k edge ds c).1 = true) {n : Nat} {d : Dependency} (hd : ds[n]? = some d)
    (hk : d.consumer = k) :
    s.transfer c.selected d = some ((s.connect k edge ds c).2.modes (edge + n)) := by
  induction ds generalizing edge c n with
  | nil => cases hd
  | cons d' ds ih =>
    rw [connect] at hok ⊢
    by_cases hk' : d'.consumer = k
    · rw [if_pos hk'] at hok ⊢
      cases ht : s.transfer c.selected d' with
      | none =>
        rw [ht] at hok
        cases hok
      | some m =>
        rw [ht] at hok
        dsimp only at hok ⊢
        cases n with
        | zero =>
          cases hd
          -- Later edges have other indices.
          rw [connect_modes _ _ _ _ _ fun _ hle => absurd hle (by omega), Nat.add_zero]
          rw [ht]
          exact congrArg some (update_self edge m c.modes).symm
        | succ n =>
          rw [show edge + (n + 1) = edge + 1 + n by omega]
          exact ih (edge + 1) _ hok hd
    · rw [if_neg hk'] at hok ⊢
      cases n with
      | zero =>
        cases hd
        exact absurd hk hk'
      | succ n =>
        rw [show edge + (n + 1) = edge + 1 + n by omega]
        exact ih (edge + 1) c hok hd

end Edges

section Levels

variable {c : Choices}

/-- It supports the step, and what comes into the step can be carried. -/
def fits (s : Search) (k : Nat) (a : Nat → Nat) : Bool :=
  supports (s.provider (a k)) (s.step k) s.reference && s.linked k a s.dependencies

theorem fits_upTo (hs : s.Checked) (k : Nat) (a b : Nat → Nat) (h : Agree (k + 1) a b) :
    s.fits k a = s.fits k b := by
  have hlinked : s.linked k a s.dependencies = true ↔ s.linked k b s.dependencies = true := by
    rw [linked_iff, linked_iff]
    refine forall₃_congr fun d hd hk => ?_
    have hlt := (hs.ordered d hd).1
    rw [transfer_congr (h _ (by omega)) (h _ (by omega))]
  unfold fits
  rw [h k (Nat.lt_succ_self k), Bool.eq_iff_iff.mpr hlinked]

/-- The search as a problem of `Lib.Backtrack`. -/
def problem (s : Search) (hs : s.Checked) : Problem where
  count := s.providers.length
  depth := s.steps.length
  fits := s.fits
  upTo := fits_upTo hs

/-- Edges into steps below `k` have the mode that the choices call for. -/
def Settled (s : Search) (k : Nat) (c : Choices) : Prop :=
  ∀ e d, s.dependencies[e]? = some d → d.consumer < k →
    s.transfer c.selected d = some (c.modes e)

theorem attempt_ok (k i : Nat) (c : Choices) :
    (s.attempt k i c).1 = s.fits k (update c.selected k i) := by
  unfold attempt fits
  rw [update_self]
  cases supports (s.provider i) (s.step k) s.reference with
  | false => rfl
  | true => exact connect_ok ..

/-- Choices above a level survive what is tried there. -/
theorem attempt_selected (k i : Nat) (c : Choices) :
    Agree k c.selected (s.attempt k i c).2.selected := by
  unfold attempt
  cases supports (s.provider i) (s.step k) s.reference with
  | false => exact fun _ _ => rfl
  | true =>
    intro j hj
    have hsel := connect_selected (s := s) k 0 s.dependencies
      { c with selected := update c.selected k i }
    exact (agree_update k i c.selected j hj).trans (congrFun hsel j).symm

theorem attempt_modes {k i : Nat} {e : Nat} {d : Dependency}
    (hd : s.dependencies[e]? = some d) (hk : d.consumer ≠ k) :
    (s.attempt k i c).2.modes e = c.modes e := by
  unfold attempt
  cases supports (s.provider i) (s.step k) s.reference with
  | false => rfl
  | true =>
    refine connect_modes _ _ _ _ _ fun d' _ hd' => ?_
    rw [Nat.sub_zero, hd] at hd'
    cases hd'
    exact hk

theorem attempt_settled (hs : s.Checked) {k i : Nat} (h : s.Settled k c) :
    s.Settled k (s.attempt k i c).2 := by
  intro e d hd hlt
  have hord := hs.ordered d (List.mem_of_getElem? hd)
  have hsel := (attempt_selected (s := s) k i c).symm
  rw [attempt_modes hd (Nat.ne_of_lt hlt), transfer_congr (hsel _ (by omega)) (hsel _ hlt)]
  exact h e d hd hlt

theorem attempt_placed (hs : s.Checked) {k i : Nat} (h : s.Settled k c)
    (hok : (s.attempt k i c).1 = true) :
    s.Settled (k + 1) (s.attempt k i c).2 ∧
      (s.attempt k i c).2.selected = update c.selected k i := by
  have hbelow := attempt_settled hs (i := i) h
  revert hbelow hok
  unfold attempt
  cases supports (s.provider i) (s.step k) s.reference with
  | false => nofun
  | true =>
    intro hok hbelow
    have hsel := connect_selected (s := s) k 0 s.dependencies
      { c with selected := update c.selected k i }
    refine ⟨fun e d hd hlt => ?_, hsel⟩
    by_cases hk : d.consumer = k
    · have hfound := connect_found k 0 s.dependencies _ hok hd hk
      rw [Nat.zero_add] at hfound
      exact (congrArg (s.transfer · d) hsel).trans hfound
    · exact hbelow e d hd (by omega)

/-- Stale entries do no harm. -/
theorem attempt_faithful (hs : s.Checked) :
    Faithful (s.problem hs) s.attempt Choices.selected s.Settled where
  verdict := fun _ i _ => attempt_ok _ i _
  kept := fun h i => ⟨attempt_settled hs h, attempt_selected _ i _⟩
  placed := fun h i hok => by
    rcases attempt_placed hs h hok with ⟨hset, hsel⟩
    exact ⟨hset, fun j _ => congrFun hsel j⟩
  weaken := fun h e d hd hlt => h e d hd (Nat.lt_succ_of_lt hlt)

end Levels

section Meaning

variable {a : Nat → Nat} {budget : Nat}

variable (hs : s.Checked)

theorem Feasible.solves (h : s.Feasible a) : (s.problem hs).Solves a := by
  intro k _ hk
  rcases h.supported k hk with ⟨hlt, hsup⟩
  refine ⟨hlt, Bool.and_eq_true_iff.mpr ⟨hsup, linked_iff.mpr fun d hd hdk => ?_⟩⟩
  rcases h.carried d hd with ⟨m, hm⟩
  rcases hs.ordered d hd with ⟨hprod, hcons⟩
  exact ⟨m, (transfer_eq (hs.id_iff (h.supported _ (Nat.lt_trans hprod hcons)).1
    (h.supported _ hcons).1)).mpr hm⟩

theorem feasible_iff : s.Feasible a ↔ (s.problem hs).Solves a := by
  refine ⟨fun h => h.solves hs, fun h => ?_⟩
  have hsup : ∀ k < s.steps.length, a k < s.providers.length ∧ s.fits k a = true :=
    fun k hk => h k (Nat.zero_le k) hk
  refine ⟨fun k hk => ⟨(hsup k hk).1, (Bool.and_eq_true_iff.mp (hsup k hk).2).1⟩, fun d hd => ?_⟩
  rcases hs.ordered d hd with ⟨hprod, hcons⟩
  rcases linked_iff.mp (Bool.and_eq_true_iff.mp (hsup _ hcons).2).2 d hd rfl with ⟨m, hm⟩
  exact ⟨m, (transfer_eq (hs.id_iff (hsup _ (Nat.lt_trans hprod hcons)).1 (hsup _ hcons).1)).mp hm⟩

theorem Feasible.exists_supports (h : s.Feasible a) {x : Step} (hx : x ∈ s.steps) :
    ∃ p ∈ s.providers, supports p x s.reference = true := by
  rcases List.getElem_of_mem hx with ⟨k, hk, rfl⟩
  rcases h.supported k hk with ⟨hlt, hsup⟩
  unfold provider step at hsup
  rw [List.getD_eq_getElem _ _ hlt, List.getD_eq_getElem _ _ hk] at hsup
  exact ⟨_, List.getElem_mem hlt, hsup⟩

def run (s : Search) (budget : Nat) : Bool × Walk Choices :=
  s.choose budget s.steps.length 0 ⟨{}, 0, false⟩

/-- How many providers have to be tried. -/
def needed (s : Search) (hs : s.Checked) : Nat :=
  (explore (s.problem hs) s.steps.length 0 fun _ => 0).2

theorem run_ran (budget : Nat) :
    Ran budget 0 (0 + s.steps.length) Choices.selected s.Settled (fun _ => 0) 0
      (explore (s.problem hs) s.steps.length 0 fun _ => 0) (s.run budget) :=
  dive_ran (attempt_faithful hs) (w := ⟨{}, 0, false⟩)
    (fun _ _ _ hlt => absurd hlt (Nat.not_lt_zero _))
    nofun (Nat.zero_le budget) rfl

/-- A search that ended in time has tried as many as needed. -/
theorem run_decided (h : s.needed hs ≤ budget) :
    (s.run budget).2.limitReached = false ∧ (s.run budget).2.attempts = s.needed hs := by
  rcases (run_ran hs budget).decided (by rwa [Nat.zero_add]) with ⟨_, hlim, hatt, _⟩
  exact ⟨hlim, hatt.trans (Nat.zero_add _)⟩

theorem run_stopped (h : budget < s.needed hs) :
    (s.run budget).1 = false ∧ (s.run budget).2.limitReached = true ∧
      (s.run budget).2.attempts = budget :=
  (run_ran hs budget).stopped (by rwa [Nat.zero_add])

theorem needed_le (h : (s.run budget).2.limitReached = false) : s.needed hs ≤ budget := by
  by_contra hlt
  rw [(run_stopped hs (Nat.lt_of_not_le hlt)).2.1] at h
  cases h

/-- What is found is the first feasible assignment, with its modes. -/
theorem run_found (hs : s.Checked) (h : (s.run budget).1 = true) :
    s.Feasible (s.run budget).2.store.selected ∧
      (∀ b, s.Feasible b → Problem.Before s.steps.length (s.run budget).2.store.selected b) ∧
      ∀ e d, s.dependencies[e]? = some d →
        s.Carries (s.run budget).2.store.selected d ((s.run budget).2.store.modes e) := by
  have hdecided : s.needed hs ≤ budget := by
    by_contra hlt
    rw [(run_stopped hs (Nat.lt_of_not_le hlt)).1] at h
    cases h
  rcases (run_ran hs budget).decided (by rwa [Nat.zero_add]) with ⟨hok, _, _, _, _, hsome⟩
  rcases Option.isSome_iff_exists.mp (hok.symm.trans h) with ⟨b, hb⟩
  rcases hsome b hb with ⟨hset, hagree⟩
  rw [Nat.zero_add] at hset hagree
  have hfirst := (explore_first hb).congr hagree
  have hfeas := (feasible_iff hs).mpr hfirst.1
  refine ⟨hfeas, fun c hc => hfirst.2 c (hc.solves hs), fun e d hd => ?_⟩
  rcases hs.ordered d (List.mem_of_getElem? hd) with ⟨hprod, hcons⟩
  exact (transfer_eq (hs.id_iff (hfeas.supported _ (Nat.lt_trans hprod hcons)).1
    (hfeas.supported _ hcons).1)).mp (hset e d hd hcons)

theorem run_empty (hs : s.Checked) (h : (s.run budget).1 = false)
    (hlim : (s.run budget).2.limitReached = false) (a : Nat → Nat) : ¬s.Feasible a := by
  intro ha
  have hdecided := (run_ran hs budget).decided (by rw [Nat.zero_add]; exact needed_le hs hlim)
  have hnone : (explore (s.problem hs) s.steps.length 0 fun _ => 0).1 = none :=
    Option.not_isSome_iff_eq_none.mp (by rw [← hdecided.1, h]; decide)
  exact explore_empty hnone (ha.solves hs)

end Meaning

end Search

def searchOf (providers : Span Provider) (steps : Span Step) (dependencies : Span Dependency)
    (contracts : Span TransferContract) (options : PlanOptions) : Search :=
  ⟨providers.toList, steps.toList, dependencies.toList, contracts.toList, options.referenceOnly⟩

/-- Inputs that pass every check. -/
structure Accepted (providers : Span Provider) (steps : Span Step) (dependencies : Span Dependency)
    (contracts : Span TransferContract) (options : PlanOptions) : Prop where
  counted : validCounts providers steps dependencies contracts options = true
  distinct : validProviders providers.toList = true
  known : steps.toList.all validStep = true
  ordered : dependencies.toList.all (validDependency steps.toList.length) = true

/-- What a plan says. -/
structure Planned (s : Search) (budget : Nat) (accepted : Prop) (plan : RoutePlan) : Prop where
  /-- Inputs are refused only where a check fails. -/
  refused : plan.status = .invalidInput → ¬accepted
  /-- A plan that is ready is the first feasible assignment. -/
  ready : plan.status = .ready → ∃ a, s.Feasible a ∧
    (∀ b, s.Feasible b → Problem.Before s.steps.length a b) ∧
    (∀ k < s.steps.length, plan.providers k = (s.provider (a k)).id) ∧
    ∀ e d, s.dependencies[e]? = some d → s.Carries a d (plan.transfers e)
  unsupported : plan.status = .unsupportedFeatures →
    ∃ x ∈ s.steps, ∀ p ∈ s.providers, supports p x s.reference = false
  unavailable : plan.status = .transferUnavailable → ∀ a, ¬s.Feasible a
  /-- The budget ran out, and every search that is decided takes more. -/
  limit : plan.status = .searchLimit → plan.searchAttempts = budget ∧
    (∃ b, (s.run b).2.limitReached = false) ∧
    ∀ b, (s.run b).2.limitReached = false → budget < (s.run b).2.attempts
  /-- Only the budget keeps a feasible assignment from being found. -/
  complete : accepted → ∀ a, s.Feasible a → plan.status = .ready ∨ plan.status = .searchLimit

section Plans

variable {providers : Span Provider} {steps : Span Step} {dependencies : Span Dependency}
  {contracts : Span TransferContract} {options : PlanOptions}

theorem validProviders_distinct {ps : List Provider} (h : validProviders ps = true) {i j : Nat}
    (hi : i < ps.length) (hji : j < i) : (ps.getD j {}).id ≠ (ps.getD i {}).id := by
  have hi' := List.all_eq_true.mp h i (List.mem_range.mpr hi)
  have hj := List.all_eq_true.mp (Bool.and_eq_true_iff.mp hi').2 j (List.mem_range.mpr hji)
  exact of_decide_eq_true hj

theorem Accepted.checked (h : Accepted providers steps dependencies contracts options) :
    (searchOf providers steps dependencies contracts options).Checked where
  distinct := fun i j hi hj hid => by
    rcases Nat.lt_trichotomy i j with hlt | heq | hlt
    · exact absurd hid (validProviders_distinct h.distinct hj hlt)
    · exact heq
    · exact absurd hid.symm (validProviders_distinct h.distinct hi hlt)
  ordered := fun d hd => by
    rcases of_decide_eq_true (List.all_eq_true.mp h.ordered d hd) with ⟨_, hlt, hstep, _⟩
    exact ⟨hlt, hstep⟩

theorem planWorkload_cases :
    (¬Accepted providers steps dependencies contracts options ∧
      planWorkload providers steps dependencies contracts options = {}) ∨
    (Accepted providers steps dependencies contracts options ∧
      planWorkload providers steps dependencies contracts options =
        { status := .unsupportedFeatures } ∧
      ∃ x ∈ steps.toList, ∀ p ∈ providers.toList, supports p x options.referenceOnly = false) ∨
    (Accepted providers steps dependencies contracts options ∧
      planWorkload providers steps dependencies contracts options =
        (searchOf providers steps dependencies contracts options).report
          ((searchOf providers steps dependencies contracts options).run
            options.searchBudget)) := by
  unfold planWorkload
  dsimp only
  cases hcounts : validCounts providers steps dependencies contracts options with
  | false => exact .inl ⟨fun h => Bool.false_ne_true (hcounts.symm.trans h.counted), rfl⟩
  | true =>
    cases hproviders : validProviders providers.toList with
    | false => exact .inl ⟨fun h => Bool.false_ne_true (hproviders.symm.trans h.distinct), rfl⟩
    | true =>
      cases hsteps : steps.toList.all validStep with
      | false => exact .inl ⟨fun h => Bool.false_ne_true (hsteps.symm.trans h.known), rfl⟩
      | true =>
        cases hdeps : dependencies.toList.all (validDependency steps.toList.length) with
        | false => exact .inl ⟨fun h => Bool.false_ne_true (hdeps.symm.trans h.ordered), rfl⟩
        | true =>
          refine .inr ?_
          have haccepted : Accepted providers steps dependencies contracts options :=
            ⟨hcounts, hproviders, hsteps, hdeps⟩
          cases hsup : steps.toList.all
              (fun x => providers.toList.any fun p => supports p x options.referenceOnly) with
          | false =>
            refine .inl ⟨haccepted, rfl, ?_⟩
            rcases List.all_eq_false.mp hsup with ⟨x, hx, hnone⟩
            exact ⟨x, hx, fun p hp => List.any_eq_false.mp (Bool.eq_false_iff.mpr hnone) p hp
              |> Bool.eq_false_iff.mpr⟩
          | true => exact .inr ⟨haccepted, rfl⟩

theorem report_planned {s : Search} (hs : s.Checked) (budget : Nat) (accepted : Prop) :
    Planned s budget accepted (s.report (s.run budget)) := by
  unfold Search.report
  cases hfound : (s.run budget).1 with
  | true =>
    rcases Search.run_found hs hfound with ⟨hfeas, hfirst, hmodes⟩
    refine ⟨nofun, fun _ => ⟨_, hfeas, hfirst, fun k hk => if_pos hk, fun e d hd => ?_⟩,
      nofun, nofun, nofun, fun _ _ _ => .inl rfl⟩
    rcases List.getElem?_eq_some_iff.mp hd with ⟨he, _⟩
    change s.Carries _ d
      (if e < s.dependencies.length then (s.run budget).2.store.modes e else .none)
    rw [if_pos he]
    exact hmodes e d hd
  | false =>
    cases hlim : (s.run budget).2.limitReached with
    | true =>
      -- A decided search has a verdict, and this one has none.
      have hlt : budget < s.needed hs := by
        by_contra hle
        rw [(Search.run_decided hs (Nat.le_of_not_lt hle)).1] at hlim
        cases hlim
      refine ⟨nofun, nofun, nofun, nofun, fun _ => ⟨(Search.run_stopped hs hlt).2.2,
        ⟨s.needed hs, (Search.run_decided hs (Nat.le_refl _)).1⟩, fun b hb => ?_⟩,
        fun _ _ _ => .inr rfl⟩
      rw [(Search.run_decided hs (Search.needed_le hs hb)).2]
      exact hlt
    | false =>
      have hempty := Search.run_empty hs hfound hlim
      exact ⟨nofun, nofun, nofun, fun _ => hempty, nofun, fun _ a ha => absurd ha (hempty a)⟩

/-- Plans are sound, first, and complete within budget. -/
theorem planWorkload_planned (providers : Span Provider) (steps : Span Step)
    (dependencies : Span Dependency) (contracts : Span TransferContract) (options : PlanOptions) :
    Planned (searchOf providers steps dependencies contracts options) options.searchBudget
      (Accepted providers steps dependencies contracts options)
      (planWorkload providers steps dependencies contracts options) := by
  rcases planWorkload_cases with ⟨hbad, heq⟩ | ⟨hok, heq, x, hx, hnone⟩ | ⟨hok, heq⟩
  · rw [heq]
    exact ⟨fun _ => hbad, nofun, nofun, nofun, nofun, fun h => absurd h hbad⟩
  · rw [heq]
    refine ⟨nofun, nofun, fun _ => ⟨x, hx, hnone⟩, nofun, nofun, fun _ a ha => ?_⟩
    rcases ha.exists_supports hx with ⟨p, hp, hsup⟩
    exact absurd hsup (Bool.eq_false_iff.mp (hnone p hp))
  · rw [heq]
    exact report_planned hok.checked options.searchBudget _

end Plans

end Mellow.Platform
