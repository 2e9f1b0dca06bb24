import Mellow.Lib.Backtrack

/-!
# Provider Planning

`planWorkload` of `PlatformRuntime.cpp` gives each step of a workload a
provider, such that every dependency between two steps stays inside one provider
or is covered by a transfer contract. Its search is budgeted backtracking,
`Backtrack.dive` around `attempt`.

Raw bytes that name nothing in an enumeration are its constructor `other`. A
caller's array is a pointer and a count; `Span.null` is a null pointer.

## Main definitions

* `supports`: a provider supports a step.
* `attempt`: the body of the loop of `Search::choose`.
* `planWorkload`: the planner.
-/

namespace Mellow.Platform

inductive Api where
  | openGL | openCL | native | cpuReference | other (raw : Nat)
  deriving DecidableEq

inductive ProviderKind where
  | host | mellow | reference | other (raw : Nat)
  deriving DecidableEq

inductive Execution where
  | hardware | software | other (raw : Nat)
  deriving DecidableEq

inductive Workload where
  | compute | render | blit | other (raw : Nat)
  deriving DecidableEq

inductive WorkloadInput where
  | metalSemantics | openClC | other (raw : Nat)
  deriving DecidableEq

inductive IdentityScope where
  | reportedPci | openClDeviceObject | other (raw : Nat)
  deriving DecidableEq

inductive TransferPolicy where
  | sharedOnly | sharedOrExplicitCopy | other (raw : Nat)
  deriving DecidableEq

inductive TransferMode where
  | none | sharedResource | explicitCopy
  deriving DecidableEq

abbrev Features := BitVec 64

inductive Feature where
  | compute | render | blit | computeTranslation | renderTranslation | managedStorage
  | textureRgba8 | argumentBuffersTier2 | sharedEvents | simdGroupOperations | meshShaders
  | rayTracing | orderedQueue
  deriving DecidableEq

def bit : Feature → Features
  | .compute => 1 <<< 0
  | .render => 1 <<< 1
  | .blit => 1 <<< 2
  | .computeTranslation => 1 <<< 3
  | .renderTranslation => 1 <<< 4
  | .managedStorage => 1 <<< 5
  | .textureRgba8 => 1 <<< 6
  | .argumentBuffersTier2 => 1 <<< 7
  | .sharedEvents => 1 <<< 8
  | .simdGroupOperations => 1 <<< 9
  | .meshShaders => 1 <<< 10
  | .rayTracing => 1 <<< 11
  | .orderedQueue => 1 <<< 12

def knownFeatures : Features := (1 <<< 13) - 1

structure DeviceIdentity where
  vendorId : Nat := 0
  deviceId : Nat := 0
  revision : Nat := 0
  instanceId : Nat := 0
  scope : IdentityScope := .reportedPci
  apiVendorId : Nat := 0

structure Provider where
  id : Nat := 0
  device : DeviceIdentity := {}
  api : Api := .cpuReference
  kind : ProviderKind := .reference
  execution : Execution := .software
  apiMajor : Nat := 0
  apiMinor : Nat := 0
  resetEpoch : Nat := 0
  evidenceEpoch : Nat := 0
  validationRecord : Nat := 0
  advertised : Features := 0
  verified : Features := 0

structure Step where
  workload : Workload := .compute
  required : Features := 0
  requiredProvider : Nat := 0
  input : WorkloadInput := .metalSemantics

structure Dependency where
  producer : Nat := 0
  consumer : Nat := 0
  resource : Nat := 0
  policy : TransferPolicy := .sharedOnly

structure TransferContract where
  producerProvider : Nat := 0
  consumerProvider : Nat := 0
  resource : Nat := 0
  producerEpoch : Nat := 0
  consumerEpoch : Nat := 0
  mode : TransferMode := .none
  resourceCompatibilityVerified : Bool := false
  orderingVerified : Bool := false
  contentsPreservedVerified : Bool := false
  validationRecord : Nat := 0

def maxProviders : Nat := 8
def maxSteps : Nat := 8
def maxDependencies : Nat := 16
def maxTransfers : Nat := 32
def maxSearchAttempts : Nat := 8192

inductive PlanStatus where
  | ready | invalidInput | unsupportedFeatures | transferUnavailable | searchLimit
  deriving DecidableEq

structure PlanOptions where
  referenceOnly : Bool := false
  searchBudget : Nat := maxSearchAttempts

structure RoutePlan where
  status : PlanStatus := .invalidInput
  stepCount : Nat := 0
  dependencyCount : Nat := 0
  providers : Nat → Nat := fun _ => 0
  transfers : Nat → TransferMode := fun _ => .none
  referenceOnly : Bool := false
  searchAttempts : Nat := 0

section Checks

def validProvider (p : Provider) : Bool :=
  if p.id = 0 ∨ p.device.instanceId = 0 ∨ p.resetEpoch = 0 ∨ p.evidenceEpoch ≠ p.resetEpoch ∨
      p.validationRecord = 0 ∨ p.verified &&& ~~~p.advertised ≠ 0 ∨
      p.advertised &&& ~~~knownFeatures ≠ 0 then false
  else if p.device.scope = .openClDeviceObject then
    decide (p.api = .openCL ∧ p.kind = .host ∧ p.execution = .hardware ∧
      p.device.apiVendorId ≠ 0 ∧ p.device.deviceId = 0 ∧ p.device.revision = 0 ∧
      (p.device.vendorId = 0 ∨ p.device.vendorId = p.device.apiVendorId))
  else if p.device.scope ≠ .reportedPci ∨ p.device.apiVendorId ≠ 0 then false
  else if p.api = .cpuReference then decide (p.kind = .reference ∧ p.execution = .software)
  else if p.api ≠ .openGL ∧ p.api ≠ .openCL ∧ p.api ≠ .native then false
  else decide ((p.kind = .host ∨ p.kind = .mellow) ∧
    (p.execution = .hardware ∨ p.execution = .software) ∧
    p.device.vendorId ≠ 0 ∧ p.device.deviceId ≠ 0)

def versionAtLeast (p : Provider) (major minor : Nat) : Bool :=
  decide (p.apiMajor > major ∨ p.apiMajor = major ∧ p.apiMinor ≥ minor)

def baseline : Workload → Features
  | .compute => bit .compute ||| bit .computeTranslation
  | .render => bit .render ||| bit .renderTranslation
  | .blit => bit .blit
  | .other _ => 0

def supports (p : Provider) (s : Step) (reference : Bool) : Bool :=
  if s.requiredProvider ≠ 0 ∧ s.requiredProvider ≠ p.id then false
  else if reference = true ∧ p.api ≠ .cpuReference then false
  else if reference = false ∧ (p.execution ≠ .hardware ∨ p.api = .cpuReference) then false
  else if s.input = .openClC ∧ (p.api ≠ .openCL ∨ s.workload ≠ .compute) then false
  else
    let operations := if s.input = .openClC then bit .compute else baseline s.workload
    let needed := operations ||| s.required ||| bit .orderedQueue
    if p.verified &&& needed ≠ needed then false
    else if p.api = .openGL then
      -- Compute shaders arrived in 4.3.
      if s.workload = .compute then versionAtLeast p 4 3 else versionAtLeast p 4 1
    else if p.api = .openCL then decide (s.workload ≠ .render) && versionAtLeast p 1 2
    else true

end Checks

structure Search where
  providers : List Provider
  steps : List Step
  dependencies : List Dependency
  contracts : List TransferContract
  reference : Bool

structure Choices where
  selected : Nat → Nat := fun _ => 0
  modes : Nat → TransferMode := fun _ => .none

namespace Search

def provider (s : Search) (i : Nat) : Provider := s.providers.getD i {}

def step (s : Search) (k : Nat) : Step := s.steps.getD k {}

def covers (c : TransferContract) (a b : Provider) (d : Dependency) (wanted : TransferMode) :
    Bool :=
  decide (c.producerProvider = a.id ∧ c.consumerProvider = b.id ∧ c.resource = d.resource ∧
    c.producerEpoch = a.resetEpoch ∧ c.consumerEpoch = b.resetEpoch ∧ c.mode = wanted) &&
  c.resourceCompatibilityVerified && c.orderingVerified && c.contentsPreservedVerified &&
  decide (c.validationRecord ≠ 0)

def pass (s : Search) (a b : Provider) (d : Dependency) (wanted : TransferMode) :
    Option TransferMode :=
  if wanted = .explicitCopy ∧ d.policy ≠ .sharedOrExplicitCopy then none
  else if s.contracts.any fun c => covers c a b d wanted then some wanted
  else none

def transfer (s : Search) (selected : Nat → Nat) (d : Dependency) : Option TransferMode :=
  let a := s.provider (selected d.producer)
  let b := s.provider (selected d.consumer)
  if a.id = b.id then some .none
  else (s.pass a b d .sharedResource).or (s.pass a b d .explicitCopy)

def connect (s : Search) (k : Nat) : Nat → List Dependency → Choices → Bool × Choices
  | _, [], c => (true, c)
  | edge, d :: ds, c =>
    if d.consumer = k then
      match s.transfer c.selected d with
      | none => (false, c)
      | some mode => s.connect k (edge + 1) ds { c with modes := Function.update c.modes edge mode }
    else s.connect k (edge + 1) ds c

def attempt (s : Search) (k i : Nat) (c : Choices) : Bool × Choices :=
  if !supports (s.provider i) (s.step k) s.reference then (false, c)
  else s.connect k 0 s.dependencies { c with selected := Function.update c.selected k i }

def choose (s : Search) (budget left k : Nat) :
    Backtrack.Walk Choices → Bool × Backtrack.Walk Choices :=
  Backtrack.dive budget s.providers.length s.attempt left k

end Search

inductive Span (α : Type) where
  | null (count : Nat)
  | items (xs : List α)

namespace Span

variable {α : Type}

def isNull : Span α → Bool
  | .null _ => true
  | .items _ => false

def count : Span α → Nat
  | .null n => n
  | .items xs => xs.length

def toList : Span α → List α
  | .null _ => []
  | .items xs => xs

end Span

section Plan

def validProviders (ps : List Provider) : Bool :=
  (List.range ps.length).all fun i => validProvider (ps.getD i {}) &&
    (List.range i).all fun j => decide ((ps.getD j {}).id ≠ (ps.getD i {}).id)

def validStep (s : Step) : Bool :=
  decide (baseline s.workload ≠ 0 ∧ s.required &&& ~~~knownFeatures = 0 ∧
    (s.input = .metalSemantics ∨ s.input = .openClC))

def validDependency (stepCount : Nat) (d : Dependency) : Bool :=
  decide (d.resource ≠ 0 ∧ d.producer < d.consumer ∧ d.consumer < stepCount ∧
    (d.policy = .sharedOnly ∨ d.policy = .sharedOrExplicitCopy))

def validCounts (providers : Span Provider) (steps : Span Step) (dependencies : Span Dependency)
    (contracts : Span TransferContract) (options : PlanOptions) : Bool :=
  !(providers.isNull || providers.count == 0 || decide (providers.count > maxProviders) ||
    steps.isNull || steps.count == 0 || decide (steps.count > maxSteps) ||
    decide (dependencies.count > maxDependencies) || decide (contracts.count > maxTransfers) ||
    (dependencies.count != 0 && dependencies.isNull) ||
      (contracts.count != 0 && contracts.isNull) ||
    options.searchBudget == 0 || decide (options.searchBudget > maxSearchAttempts))

def Search.report (s : Search) (out : Bool × Backtrack.Walk Choices) : RoutePlan :=
  if !out.1 then
    { status := if out.2.limitReached then .searchLimit else .transferUnavailable
      searchAttempts := out.2.attempts }
  else
    { status := .ready
      stepCount := s.steps.length
      dependencyCount := s.dependencies.length
      referenceOnly := s.reference
      searchAttempts := out.2.attempts
      providers := fun i =>
        if i < s.steps.length then (s.provider (out.2.store.selected i)).id else 0
      transfers := fun i => if i < s.dependencies.length then out.2.store.modes i else .none }

def planWorkload (providers : Span Provider) (steps : Span Step) (dependencies : Span Dependency)
    (contracts : Span TransferContract) (options : PlanOptions) : RoutePlan :=
  let s : Search := ⟨providers.toList, steps.toList, dependencies.toList, contracts.toList,
    options.referenceOnly⟩
  if !validCounts providers steps dependencies contracts options then {}
  else if !validProviders s.providers then {}
  else if !s.steps.all validStep then {}
  else if !s.dependencies.all (validDependency s.steps.length) then {}
  else if !s.steps.all (fun x => s.providers.any fun p => supports p x s.reference) then
    { status := .unsupportedFeatures }
  else s.report (s.choose options.searchBudget s.steps.length 0 ⟨{}, 0, false⟩)

end Plan

end Mellow.Platform
