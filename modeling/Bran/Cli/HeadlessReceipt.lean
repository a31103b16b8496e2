import Bran.Agent.Billing
import Bran.Cli.Dispatch
import Bran.Cli.EvidenceStore

/-!
# Headless receipts

A request from the command line is grounded, given to the coordinator, and grounded again with fewer
sources when the SQZ stage has lost the anchors of the sources.  The environment, the repository and
the ports are calls: each turn of the loop may find another repository.
-/

namespace Bran.Cli

open Text Validation Adapters Agent Program

/-! ## Settings -/

inductive ConnectedSetupFailure
  | missingConnectedSettings
  | missingProviderDescriptor
  | invalidProviderDescriptor
  | missingProviderHost
  | invalidProviderHost
  | missingAuthReference
  | missingSqz
  | invalidSqz
  | projectTrustRequired
  | groundingFailed
  | runtimeInvariant
  | resultStoreFailed
  deriving DecidableEq

inductive OperatingProfile
  | offlineCore
  | coreSqz
  | connectedAgent
  deriving DecidableEq

/-- `Settings`, as far as they are read. -/
structure Settings where
  profile : OperatingProfile
  sqz : Bool
  deriving DecidableEq

def connectedProjectSettings (settings : Option Settings) : Option Settings :=
  settings.filter fun settings => settings.profile = .connectedAgent

/-- `ExperimentalControls::max_sources`. -/
def ExperimentalControls.maxSourcesOf (controls : ExperimentalControls) : ℕ :=
  (controls.effectiveMaxSources.or controls.maxSources).getD queryResultLimit

/-- The controls with another effective number of sources. -/
def ExperimentalControls.withEffective (controls : ExperimentalControls) (limit : ℕ) :
    ExperimentalControls :=
  { controls with effectiveMaxSources := some limit }

/-! ## Registries -/

/-- `ConfiguredAgentDescriptor::registry`, of the profile of the descriptor. -/
def registryOf (profile : AgentProfile) : AgentProfileRegistry where
  providers := {profile.provider}
  models := .ofList [(profile.provider, {profile.model})]
  profiles := .ofList [(profile.name, profile)]

/-- `ConfiguredAgentDescriptor::registry_for_tui_request`: the profile takes the name that is
requested, and the model that is requested is one of the provider's. -/
def registryForTuiRequest (profile : AgentProfile) (request : DelegationRequest) :
    AgentProfileRegistry where
  providers := {profile.provider}
  models := .ofList [(profile.provider, {profile.model} ∪ request.modelOverride.toList.toFinset)]
  profiles := .ofList [(request.profile,
    { profile with
      name := request.profile
      valid := ⟨request.validProfile, profile.valid.2⟩ })]

def offlineRegistry (request : DelegationRequest) : AgentProfileRegistry :=
  registryOf {
    name := request.profile
    provider := "offline".toList
    model := "offline".toList
    accountHandle := "offline".toList
    defaultReasoningLevel := .off
    toolPolicy := .readOnlyDefault
    valid := ⟨request.validProfile, by decide +kernel, by decide +kernel, by decide +kernel,
      by decide +kernel⟩ }

/-! ## Calls -/

/-- A call of `production_headless_receipt_at`; `K` is the type of the credentials. -/
inductive HeadlessCall (K : Type) where
  /-- `ConfiguredAgentDescriptor::from_environment`. -/
  | descriptor
  /-- `ConnectedConfig::from_environment`. -/
  | configuration (profile : AgentProfile) (sqzEnabled : Bool)
  /-- `FilesystemResultStore::open`. -/
  | openResults
  /-- `wall_tick`. -/
  | wallTick
  /-- `grounded_request_with`, on the repository as it is then. -/
  | groundedRequest (request : DelegationRequest) (controls : ExperimentalControls)
  /-- `ConnectedCancellation::is_cancelled`. -/
  | isCancelled
  /-- `cancelled_receipt`. -/
  | cancelledReceipt (request : DelegationRequest) (profiles : AgentProfileRegistry)
  /-- A call of the ports that the coordinator is given. -/
  | agent (call : AgentCall K)

def HeadlessCall.Answer {K : Type} : HeadlessCall K → Type
  | .descriptor => Except ConnectedSetupFailure AgentProfile
  | .configuration _ _ => Except ConnectedSetupFailure Unit
  | .openResults => Except ResultStoreError Unit
  | .wallTick => ℕ
  | .groundedRequest _ _ => Except ConnectedSetupFailure DelegationRequest
  | .isCancelled => Bool
  | .cancelledReceipt _ _ => Except ConnectedSetupFailure DelegationReceipt
  | .agent call => call.Answer

/-- A program over these calls. -/
abbrev Headless (K ε α : Type) := Program (HeadlessCall K) HeadlessCall.Answer ε α

/-- A call with its answer. -/
abbrev HeadlessEvent (K : Type) := Program.Event (HeadlessCall K) HeadlessCall.Answer

section Calls

variable {K ε : Type}

def askDescriptor : Headless K ConnectedSetupFailure AgentProfile := do
  let answered : Except ConnectedSetupFailure AgentProfile ←
    Program.call (A := HeadlessCall K) .descriptor
  ofExcept answered

def askConfiguration (profile : AgentProfile) (sqzEnabled : Bool) :
    Headless K ConnectedSetupFailure Unit := do
  let answered : Except ConnectedSetupFailure Unit ←
    Program.call (A := HeadlessCall K) (.configuration profile sqzEnabled)
  ofExcept answered

/-- The result store of the root. -/
def askOpenResults : Headless K ConnectedSetupFailure Unit := do
  let answered : Except ResultStoreError Unit ← Program.call (A := HeadlessCall K) .openResults
  ofExcept (answered.mapError fun _ => .resultStoreFailed)

def askWallTick : Headless K ε ℕ := Program.call (A := HeadlessCall K) .wallTick

/-- The request, grounded in the current repository. -/
def askGroundedRequest (request : DelegationRequest) (controls : ExperimentalControls) :
    Headless K ConnectedSetupFailure DelegationRequest := do
  let answered : Except ConnectedSetupFailure DelegationRequest ←
    Program.call (A := HeadlessCall K) (.groundedRequest request controls)
  ofExcept answered

def askCancelled (cancellable : Bool) : Headless K ε Bool :=
  if cancellable then Program.call (A := HeadlessCall K) .isCancelled else pure false

def askCancelledReceipt (request : DelegationRequest) (profiles : AgentProfileRegistry) :
    Headless K ConnectedSetupFailure DelegationReceipt := do
  let answered : Except ConnectedSetupFailure DelegationReceipt ←
    Program.call (A := HeadlessCall K) (.cancelledReceipt request profiles)
  ofExcept answered

/-- `CancellableResultStore::put_batch`. -/
def putCancellable (cancellable : Bool) (payloads : List (List UInt8)) (nowTick : ℕ) :
    Headless K ε (Except ResultStoreError (List ResultId)) := do
  let cancelled ← askCancelled cancellable
  if cancelled = true then pure (.error .unavailable)
  else Program.call (A := HeadlessCall K) (.agent (.putBatch payloads nowTick))

/-- The ports of an invocation: the store is a `CancellableResultStore`. -/
def runtimePorts (cancellable : Bool) : (call : AgentCall K) → Headless K ε call.Answer
  | .putBatch payloads nowTick => putCancellable cancellable payloads nowTick
  | call => Program.call (A := HeadlessCall K) (.agent call)

end Calls

/-! ## The retry -/

/-- The outcome is the incomplete one of a failure. -/
def failedBy (failure : AgentFailure) : InvocationOutcome → Bool
  | .incomplete actual _ => actual == failure
  | .complete _ => false

/-- The input stage has lost anchors, all of them of sources. -/
def lostSourceAnchors (input : SqzReceipt) : Bool :=
  input.failureReason == some .missingFidelityAnchors &&
    !input.missingFidelityAnchorIds.isEmpty &&
    input.missingFidelityAnchorIds.all fun anchor => "source-".toList.isPrefixOf anchor

def nextSqzFidelitySourceLimit (receipt : DelegationReceipt) (currentLimit : ℕ) : Option ℕ :=
  if currentLimit ≤ 1 ∨ failedBy .groundingFailed receipt.outcome = false then none
  else
    match receipt.sqz.input with
    | none => none
    | some input => if lostSourceAnchors input then some (max (currentLimit / 2) 1) else none

theorem nextSqzFidelitySourceLimit_eq_some {receipt : DelegationReceipt}
    {currentLimit nextLimit : ℕ}
    (h : nextSqzFidelitySourceLimit receipt currentLimit = some nextLimit) :
    1 ≤ nextLimit ∧ nextLimit < currentLimit ∧ FailedInput receipt := by
  unfold nextSqzFidelitySourceLimit at h
  split_ifs at h with hstop
  rw [not_or, not_le, Bool.not_eq_false] at hstop
  obtain ⟨hlimit, hfailed⟩ := hstop
  cases hinput : receipt.sqz.input with
  | none =>
      rw [hinput] at h
      cases h
  | some input =>
      rw [hinput] at h
      dsimp only at h
      split_ifs at h with hlost
      rw [← Option.some.inj h]
      refine ⟨by omega, by omega, ?_⟩
      cases houtcome : receipt.outcome with
      | complete metrics =>
          rw [houtcome] at hfailed
          cases hfailed
      | incomplete failure metrics =>
          refine ⟨failure, metrics, input, houtcome, hinput, ?_⟩
          rw [lostSourceAnchors, Bool.and_eq_true, Bool.and_eq_true, beq_iff_eq] at hlost
          rw [hlost.1.1]
          exact Option.some_ne_none _

/-- What a later turn of the loop starts with: fewer sources, and another prompt. -/
structure NextTurn (limit : ℕ) (grounded : DelegationRequest) where
  controls : ExperimentalControls
  request : DelegationRequest
  positive : 1 ≤ controls.maxSourcesOf
  fewer : controls.maxSourcesOf < limit
  changed : request.prompt ≠ grounded.prompt

/-- A turn with fewer sources than some has fewer than more. -/
def NextTurn.weaken {limit limit' : ℕ} {grounded : DelegationRequest} (h : limit ≤ limit')
    (next : NextTurn limit grounded) : NextTurn limit' grounded :=
  { next with fewer := next.fewer.trans_le h }

section Loop

variable {K : Type} (request : DelegationRequest)

def nextChangedGroundedRequest (receipt : DelegationReceipt) (grounded : DelegationRequest)
    (controls : ExperimentalControls) :
    Headless K ConnectedSetupFailure (Option (NextTurn controls.maxSourcesOf grounded)) :=
  match hnext : nextSqzFidelitySourceLimit receipt controls.maxSourcesOf with
  | none => pure none
  | some nextLimit => do
      have hlimit := nextSqzFidelitySourceLimit_eq_some hnext
      let nextGrounded ← askGroundedRequest request (controls.withEffective nextLimit)
      if hchanged : nextGrounded.prompt ≠ grounded.prompt then
        pure (some ⟨controls.withEffective nextLimit, nextGrounded, hlimit.1, hlimit.2.1, hchanged⟩)
      else do
        let found ← nextChangedGroundedRequest receipt grounded (controls.withEffective nextLimit)
        pure (found.map (NextTurn.weaken hlimit.2.1.le))
termination_by controls.maxSourcesOf
decreasing_by exact hlimit.2.1

variable (cancellable : Bool) (authority : AgentRuntimeAuthority)
  (profiles : AgentProfileRegistry) (nowTick : ℕ)

/-- `AgentRuntime::invoke` with the ports of the command. -/
def invokeRuntime (grounded : DelegationRequest) :
    Headless K ConnectedSetupFailure DelegationReceipt :=
  ((invoke ⟨true, 8, bounded_max⟩ grounded authority profiles nowTick).through
    (runtimePorts cancellable)).conclude fun outcome => outcome.mapError fun _ => .runtimeInvariant

/-- The loop of `production_headless_receipt_at`.  The result holds the controls as it leaves
them. -/
def headlessLoop (controls : ExperimentalControls) (grounded : DelegationRequest) :
    Headless K ConnectedSetupFailure (DelegationReceipt × ExperimentalControls) := do
  let receipt ← invokeRuntime cancellable authority profiles nowTick grounded
  let cancelled ← askCancelled cancellable
  if cancelled = true ∧ failedBy .cancelled receipt.outcome = false then do
    let receipt ← askCancelledReceipt grounded profiles
    pure (receipt, controls)
  else do
    let found ← nextChangedGroundedRequest request receipt grounded controls
    match found with
    | none => pure (receipt, controls)
    | some next => headlessLoop next.controls next.request
termination_by controls.maxSourcesOf
decreasing_by exact next.fewer

end Loop

/-- What the loop of a connected request starts with. -/
structure Connected where
  profiles : AgentProfileRegistry
  nowTick : ℕ
  grounded : DelegationRequest

/-- The connected part of `production_headless_receipt_at` up to its loop. -/
def connect {K : Type} (request : DelegationRequest) (settings : Option Settings)
    (trustCurrentRoot allowTuiSelection : Bool) (controls : ExperimentalControls) :
    Headless K ConnectedSetupFailure Connected := do
  let settings ← ofExcept ((connectedProjectSettings settings).elim
    (.error .missingConnectedSettings) .ok)
  ofExcept (failIf (trustCurrentRoot = false) .projectTrustRequired)
  let descriptor ← askDescriptor
  let profiles := if allowTuiSelection then registryForTuiRequest descriptor request
    else registryOf descriptor
  let profile ← ofExcept ((profiles.get request.profile).elim
    (.error .invalidProviderDescriptor) .ok)
  askConfiguration profile settings.sqz
  askOpenResults
  let nowTick ← askWallTick
  let grounded ← askGroundedRequest request controls
  pure ⟨profiles, nowTick, grounded⟩

def productionHeadlessReceiptAt {K : Type} (request : DelegationRequest) (offline : Bool)
    (settings : Option Settings) (trustCurrentRoot allowTuiSelection cancellable : Bool)
    (controls : ExperimentalControls) :
    Headless K ConnectedSetupFailure (DelegationReceipt × ExperimentalControls) :=
  if offline then do
    let receipt ← invokeRuntime false ⟨true, false, false⟩ (offlineRegistry request) 0 request
    pure (receipt, controls)
  else do
    let connected ← connect request settings trustCurrentRoot allowTuiSelection controls
    headlessLoop request cancellable ⟨false, trustCurrentRoot, false⟩ connected.profiles
      connected.nowTick controls connected.grounded

end Bran.Cli
