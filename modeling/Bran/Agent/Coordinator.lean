import Bran.Agent.Delegate

/-!
# The coordinator

`AgentRuntime::invoke` of `agent/coordinator.rs`.  Every early `return incomplete(..)` of the source
is an `Exit` here, and so is the internal error; `invoke` turns the exit that was taken into a
receipt.
-/

namespace Bran.Agent

open Text Validation Adapters Packet Program AgentCall

/-! ## Configuration -/

structure AgentRuntimeConfig where
  enabled : Bool
  maxDelegationDepth : ℕ
  bounded : 1 ≤ maxDelegationDepth ∧ maxDelegationDepth ≤ 8
  deriving DecidableEq

theorem bounded_max : 1 ≤ 8 ∧ 8 ≤ 8 := by decide

structure AgentRuntimeAuthority where
  explicitOffline : Bool
  projectTrusted : Bool
  mutationAuthorized : Bool
  deriving DecidableEq

inductive AgentRuntimeInternalError where
  | receiptInvariant
  deriving DecidableEq

/-! ## The checks of a run -/

def unavailableEffective (toolPolicy : ToolPolicy) : EffectiveExecution :=
  ⟨.unavailable, .unavailable, .unavailable, .unavailable, toolPolicy⟩

def attestOption {α : Type} : Option α → Attestation α
  | some value => .attested value
  | none => .unavailable

def providerEffective (profile : AgentProfile) (provider : Str) (output : ProviderOutput)
    (toolPolicy : ToolPolicy) (registry : AgentProfileRegistry) : EffectiveExecution where
  profile := attestOption <|
    if output.effectiveProfile = some profile.name then some profile else none
  provider := attestOption <|
    if output.effectiveProvider = some provider then some provider else none
  model := attestOption <| output.effectiveModel.filter fun model =>
    registry.hasModel provider model
  reasoning := attestOption <| output.effectiveReasoning.bind ReasoningLevel.parse
  toolPolicy := toolPolicy

def deniedTool (request profile : ToolPolicy) : Bool :=
  decide (∃ tool ∈ request.allow, profile.allows tool = false)

def mutationRequested (policy : ToolPolicy) : Bool :=
  ["write", "edit", "shell", "network"].any fun tool => policy.allows tool.toList

def sqzFailure (code : AgentSqzFailureCode) (stage : SqzStage) : AgentFailure :=
  match code, stage with
  | .invalidOutput, .output => .invalidOutput
  | _, .input => .sqzInputFailed
  | _, _ => .sqzOutputFailed

def providerFailure : ProviderError → AgentFailure
  | .timeout => .timeout
  | .cancelled => .cancelled
  | .invalidOutput => .invalidOutput
  | .unavailable => .providerUnavailable
  | .failed => .providerFailed

/-- `String::from_utf8_lossy`, as far as a search for ASCII text can tell: every byte outside ASCII
is a replacement character. -/
def fromUtf8Lossy (bytes : List UInt8) : Str :=
  bytes.map fun byte => if byte < 128 then Char.ofNat byte.toNat else '\uFFFD'

/-- `public_dlp_findings` of an artifact. -/
def publicDlpFindings (bytes : List UInt8) : List Str := dlpFindings (fromUtf8Lossy bytes)

def ProviderClaim.texts (claim : ProviderClaim) : List Str :=
  [claim.id, claim.text, claim.locator, claim.contentDigest, claim.support]

def safeProviderSurfaces (output : ProviderOutput) : Bool :=
  ((output.citations ++ output.providerRunId.toList ++ output.effectiveProfile.toList ++
    output.effectiveProvider.toList ++ output.effectiveModel.toList ++
    output.effectiveReasoning.toList ++ output.claims.flatMap ProviderClaim.texts).all
      fun text => (dlpFindings text).isEmpty) &&
  output.artifacts.all fun artifact =>
    artifact.id == ResultId.sha256 artifact.bytes && (publicDlpFindings artifact.bytes).isEmpty

/-- `accepted_sqz` of the coordinator. -/
def acceptedSqz (receipt : SqzReceipt) (payload : Str) : Bool :=
  passedSqz receipt && receipt.returnedBytes == byteLen payload &&
    sqzStatusAccepted receipt fun id => id.algorithm == resultIdAlgorithm &&
      id.value == (ResultId.sha256 (bytes payload)).value

section Checks

variable (request : DelegationRequest)

def groundingInputAccepted (output : AgentSqzOutput) : Bool :=
  match request.groundingContract with
  | none => true
  | some contract => contract.preservationAnchors.all fun anchor =>
      containsStr output.payload anchor.value &&
        decide (anchor.id ∈ output.receipt.requiredFidelityAnchorIds) &&
        decide (anchor.id ∉ output.receipt.missingFidelityAnchorIds)

def groundedCitationsAccepted (citations : List Str) : Bool :=
  match request.groundingContract with
  | none => true
  | some contract => !citations.isEmpty && citations.all fun citation =>
      isPublicDlpSafe citation && contract.admitsCitation citation

/-- Two attestations of one value. -/
def attestsEqual {α : Type} [DecidableEq α] : Attestation α → Attestation α → Bool
  | .attested requested, .attested effective => requested == effective
  | _, _ => false

def groundingExecutionAttested (requested : RequestedExecution) (effective : EffectiveExecution) :
    Bool :=
  (match effective.profile with
    | .attested profile => profile.name == requested.profileName
    | .unavailable => false) &&
  attestsEqual requested.provider effective.provider &&
  attestsEqual requested.model effective.model &&
  attestsEqual requested.reasoning effective.reasoning

/-- A claim in `grounded_claims_accepted`. -/
def groundedClaim (output : ProviderOutput) (claim : ProviderClaim) : Bool :=
  claim.material && claim.text == claim.support && decide (claim.locator ∈ output.citations)

/-- `grounded_claims_accepted`; it answers `true` where this ends. -/
def groundedClaimsAccepted {K : Type} (output : ProviderOutput) : Coordination K Unit Unit :=
  match request.groundingContract with
  | none => pure ()
  | some contract => do
      ofExcept (failIf (contract.hasVerifiableEvidence = false ∨ output.claims = [] ∨
        output.answer ≠ join ['\n'] (output.claims.map fun claim => claim.text) ∨
        output.claims.all (groundedClaim output) = false) ())
      verifiesSupport contract (output.claims.map fun claim =>
        ⟨claim.locator, claim.contentDigest, claim.support⟩)

def enforcedTokenBudget (output : ProviderOutput) : Except AgentFailure Unit :=
  match request.hardTotalTokenCeiling with
  | none => .ok ()
  | some ceiling => do
      failIf (output.enforcedTokenCeiling ≠ some ceiling) .tokenBudgetUnattested
      let knownTotal ← checkedAdd (output.actualInputTokens.getD 0)
        (output.actualOutputTokens.getD 0) .tokenCeilingExceeded
      failIf (knownTotal > ceiling) .tokenCeilingExceeded

end Checks

/-! ## Exits -/

/-- How a run ends without a complete receipt. -/
inductive Exit where
  | internal
  | incomplete (requested : RequestedExecution) (effective : EffectiveExecution)
      (failure : AgentFailure) (input output : Option SqzReceipt) (inputBytes outputBytes : ℕ)

/-- `map_err(|_| AgentRuntimeInternalError::ReceiptInvariant)?`. -/
def internally {ε α : Type} (outcome : Except ε α) : Except Exit α :=
  outcome.mapError fun _ => .internal

/-- `requested`. -/
def requestedOf (request : DelegationRequest) (profile : Option AgentProfile)
    (provider model : Option Str) : Except Exit RequestedExecution :=
  internally <| RequestedExecution.withAttestations request.profile
    (attestOption <| provider.or <| request.providerOverride.or <|
      profile.map AgentProfile.provider)
    (attestOption <| model.or <| request.modelOverride.or <| profile.map AgentProfile.model)
    (attestOption <| request.reasoningOverride.or <|
      profile.map AgentProfile.defaultReasoningLevel)
    request.toolPolicy

/-- `ok_or` of an optional value. -/
def orExit {α : Type} (value : Option α) (exit : Exit) : Except Exit α :=
  match value with
  | some result => .ok result
  | none => .error exit

/-! ## The stages of a run -/

/-- What the checks before the first call have found. -/
structure Selected where
  profile : AgentProfile
  provider : Str
  model : Str
  reasoning : ReasoningLevel
  requested : RequestedExecution

section Invoke

variable {K : Type} (config : AgentRuntimeConfig) (request : DelegationRequest)
  (authority : AgentRuntimeAuthority) (registry : AgentProfileRegistry)

/-- An exit before anything was selected. -/
def Exit.early (requested : RequestedExecution) (failure : AgentFailure) : Exit :=
  .incomplete requested (unavailableEffective request.toolPolicy) failure none none 0 0

/-- The return of `DeniedTool`, whose receipt names the profile. -/
def refuseTool (profile : AgentProfile) (denied : Bool) : Except Exit Unit :=
  if denied then do
    let requested ← requestedOf request (some profile) none none
    .error (.early request requested .deniedTool)
  else .ok ()

/-- `invoke` up to the call of the factory. -/
def preflight : Except Exit Selected := do
  let provisional ← requestedOf request none none none
  failIf (config.enabled = false) (.early request provisional .agentDisabled)
  failIf (authority.explicitOffline = true) (.early request provisional .explicitOffline)
  failIf (authority.projectTrusted = false) (.early request provisional .projectUntrusted)
  failIf (request.delegationDepth > config.maxDelegationDepth)
    (.early request provisional .depthExceeded)
  let profile ← orExit (registry.get request.profile)
    (.early request provisional .unknownProfile)
  refuseTool request profile (deniedTool request.toolPolicy profile.toolPolicy)
  refuseTool request profile
    (!authority.mutationAuthorized && mutationRequested request.toolPolicy)
  let provider := request.providerOverride.getD profile.provider
  let model := request.modelOverride.getD profile.model
  let reasoning := request.reasoningOverride.getD profile.defaultReasoningLevel
  let requested ← requestedOf request (some profile) (some provider) (some model)
  failIf (registry.hasProvider provider = false) (.early request requested .unknownProvider)
  failIf (registry.hasModel provider model = false) (.early request requested .unknownModel)
  .ok ⟨profile, provider, model, reasoning, requested⟩

/-- The provider request with the token budget of the delegation. -/
def providerRequest (selected : Selected) (input : AgentSqzOutput) :
    Except ProviderRequestError ProviderRequest := do
  let made ← ProviderRequest.new selected.provider selected.model selected.reasoning
    request.toolPolicy input.payload request.maxOutputBytes request.delegationDepth
  let made := made.withNoSession request.noSession
  match request.hardTotalTokenCeiling, request.maxOutputTokens with
  | some ceiling, some output => made.withTokenBudget ceiling output
  | some ceiling, none => made.withTotalTokenCeiling ceiling
  | none, none => .ok made
  | none, some _ => .error .invalidTokenBudget

/-- An exit after the provider and the model were selected. -/
def Exit.selected (selected : Selected) (failure : AgentFailure)
    (input : Option SqzReceipt) (inputBytes : ℕ) : Exit :=
  .incomplete selected.requested (unavailableEffective request.toolPolicy) failure input none
    inputBytes 0

/-- What the provider is asked with. -/
structure Prepared where
  credential : K
  input : AgentSqzOutput
  providerRequest : ProviderRequest
  lifecycle : InvocationLifecycle

/-- `invoke` from the call of the factory to the call of the provider. -/
def prepare (selected : Selected) : Coordination K Exit (Prepared (K := K)) := do
  makePorts
  let resolved ← askAccount selected.profile.accountHandle
  let credential ← ofExcept <| resolved.mapError fun _ =>
    Exit.selected request selected .missingAuth none 0
  let anchors := (request.groundingContract.map fun contract =>
    contract.preservationAnchors).getD []
  let evaluated ← askSqzWithAnchors .input request.prompt request.maxOutputBytes anchors
  let input ← ofExcept <| evaluated.mapError fun error =>
    Exit.selected request selected (sqzFailure error.code .input) error.receipt 0
  let inputBytes := byteLen input.payload
  ofExcept <| failIf (groundingInputAccepted request input = false)
    (Exit.selected request selected .groundingFailed (some input.receipt) inputBytes)
  ofExcept <| failIf (acceptedSqz input.receipt input.payload = false)
    (Exit.selected request selected .sqzInputFailed (some input.receipt) 0)
  let made ← ofExcept <| (providerRequest request selected input).mapError fun _ =>
    Exit.selected request selected .sqzInputFailed (some input.receipt) inputBytes
  let lifecycle ← ofExcept <| internally (InvocationLifecycle.configured.advance .packetReady)
  let lifecycle ← ofExcept <| internally (lifecycle.advance .running)
  pure ⟨credential, input, made, lifecycle⟩

def Exit.answered (selected : Selected) (effective : EffectiveExecution) (input : AgentSqzOutput)
    (failure : AgentFailure) (output : Option SqzReceipt) (outputBytes : ℕ) : Exit :=
  .incomplete selected.requested effective failure (some input.receipt) output
    (byteLen input.payload) outputBytes

/-- What the provider has answered, and what is known about it. -/
structure Answered where
  output : ProviderOutput
  effective : EffectiveExecution
  lifecycle : InvocationLifecycle

/-- `invoke` from the call of the provider to the check of the token budget. -/
def consult (selected : Selected) (prepared : Prepared (K := K)) :
    Coordination K Exit Answered := do
  let unavailable := unavailableEffective request.toolPolicy
  let answered ← askProvider prepared.providerRequest prepared.credential
  let output ← ofExcept <| answered.mapError fun error =>
    Exit.answered selected unavailable prepared.input (providerFailure error) none 0
  let lifecycle ← ofExcept <| internally (prepared.lifecycle.advance .validating)
  ofExcept <| failIf (safeProviderSurfaces output = false)
    (Exit.answered selected unavailable prepared.input .dlpRejected none 0)
  ofExcept <| failIf (groundedCitationsAccepted request output.citations = false)
    (Exit.answered selected unavailable prepared.input .groundingFailed none 0)
  let effective := providerEffective selected.profile selected.provider output request.toolPolicy
    registry
  ofExcept <| failIf (request.groundingContract.isSome = true ∧
    groundingExecutionAttested selected.requested effective = false)
    (Exit.answered selected effective prepared.input .invalidOutput none 0)
  (groundedClaimsAccepted request output).conclude fun outcome => outcome.mapError fun _ =>
    Exit.answered selected effective prepared.input .claimUnsupported none 0
  ofExcept <| (enforcedTokenBudget request output).mapError fun failure =>
    Exit.answered selected effective prepared.input failure none 0
  pure ⟨output, effective, lifecycle⟩

/-- The loop of `store_output` that reads the batch back. -/
def readBack (nowTick : ℕ) : List (ResultId × List UInt8) → Coordination K Unit Unit
  | [] => pure ()
  | (id, payload) :: rest => do
      let found ← askGet id nowTick
      ofExcept (failIf (found.toOption ≠ some payload) ())
      readBack nowTick rest

def admitsBatch (limits : ResultStoreLimits) (batch : List (List UInt8)) : Bool :=
  decide ((batch.map List.length).sum < 2 ^ 64) && limits.maxEntries != 0 &&
    limits.maxTotalBytes != 0 && limits.maxItemBytes != 0 && limits.maxAgeTicks != 0 &&
    decide (limits.maxItemBytes ≤ limits.maxTotalBytes) &&
    decide (batch.length ≤ limits.maxEntries) &&
    decide ((batch.map List.length).sum ≤ limits.maxTotalBytes) &&
    batch.all fun payload => decide (payload.length ≤ limits.maxItemBytes)

def storeOutput (inline : InlineResult) (artifacts : List LosslessArtifact) (nowTick : ℕ) :
    Coordination K Unit StoredResultRef := do
  let batch := inline.encodeCanonical :: artifacts.map fun artifact => artifact.bytes
  let limits ← askLimits
  ofExcept (failIf (admitsBatch limits batch = false) ())
  let put ← askPutBatch batch nowTick
  let storedIds ← ofOption put.toOption
  ofExcept (failIf (storedIds.length ≠ batch.length ∨
    storedIds.head? ≠ some (ResultId.sha256 inline.encodeCanonical)) ())
  readBack nowTick (storedIds.zip batch)
  let resultId ← ofOption storedIds.head?
  let artifactIds := storedIds.drop 1
  ofExcept (failIf (∃ entry ∈ artifactIds.zip artifacts, entry.1 ≠ entry.2.id) ())
  ofOption (StoredResultRef.new resultId artifactIds).toOption

/-- What a complete receipt is made of. -/
structure Finished where
  lifecycle : InvocationLifecycle
  requested : RequestedExecution
  effective : EffectiveExecution
  input : AgentSqzOutput
  output : AgentSqzOutput
  inline : InlineResult
  storedRef : StoredResultRef
  provider : ProviderOutput

/-- `invoke` from the second SQZ stage on. -/
def finish (selected : Selected) (prepared : Prepared (K := K)) (answered : Answered)
    (nowTick : ℕ) : Coordination K Exit Finished := do
  let exit := Exit.answered selected answered.effective prepared.input
  let evaluated ← askSqz .output answered.output.answer request.maxOutputBytes
  let output ← ofExcept <| evaluated.mapError fun error =>
    exit (sqzFailure error.code .output) error.receipt 0
  ofExcept <| failIf (acceptedSqz output.receipt output.payload = false)
    (exit .sqzOutputFailed (some output.receipt) 0)
  ofExcept <| failIf (request.groundingContract.isSome = true ∧
    output.payload ≠ answered.output.answer)
    (exit .claimUnsupported (some output.receipt) (byteLen output.payload))
  let inline ← ofExcept <| internally <|
    InlineResult.withClaims output.payload answered.output.citations answered.output.claims
  let storedRef ← (storeOutput inline answered.output.artifacts nowTick).conclude fun outcome =>
    outcome.mapError fun _ =>
      exit .resultStoreFailed (some output.receipt) (byteLen output.payload)
  pure ⟨answered.lifecycle, selected.requested, answered.effective, prepared.input, output, inline,
    storedRef, answered.output⟩

/-- The stages of `invoke`. -/
def stages (nowTick : ℕ) : Coordination K Exit Finished := do
  let selected ← ofExcept (preflight config request authority registry)
  let prepared ← prepare request selected
  let answered ← consult request registry selected prepared
  finish request selected prepared answered nowTick

/-- `map_err(|_| AgentRuntimeInternalError::ReceiptInvariant)` of a receipt. -/
def sealReceipt {ε α : Type} (outcome : Except ε α) : Except AgentRuntimeInternalError α :=
  outcome.mapError fun _ => .receiptInvariant

def incomplete (requested : RequestedExecution) (effective : EffectiveExecution)
    (failure : AgentFailure) (input output : Option SqzReceipt) (inputBytes outputBytes : ℕ)
    (noSession : Bool) : Except AgentRuntimeInternalError DelegationReceipt := do
  let _ ← sealReceipt InvocationLifecycle.configured.incomplete
  let outcome ← sealReceipt (InvocationOutcome.new .incomplete (some failure)
    ⟨none, none, inputBytes, outputBytes, 0⟩)
  sealReceipt (DelegationReceipt.new {
    outcome
    requested
    effective
    sqz := ⟨input, output⟩
    inlineResult := none
    storedRef := none
    noSession
    provenance := ["bran-agent-runtime".toList] })

def complete (finished : Finished) (noSession groundingValidated : Bool) :
    Except AgentRuntimeInternalError DelegationReceipt := do
  let _ ← sealReceipt finished.lifecycle.complete
  let outcome ← sealReceipt (InvocationOutcome.new .complete none
    ⟨finished.provider.actualInputTokens, finished.provider.actualOutputTokens,
      byteLen finished.input.payload, byteLen finished.output.payload, 0⟩)
  let receipt ← sealReceipt (DelegationReceipt.new {
    outcome
    requested := finished.requested
    effective := finished.effective
    sqz := ⟨some finished.input.receipt, some finished.output.receipt⟩
    inlineResult := some finished.inline
    storedRef := some finished.storedRef
    noSession
    provenance := "bran-agent-runtime".toList ::
      if groundingValidated then ["bran-grounding-validated".toList] else [] })
  sealReceipt (receipt.withProviderRunId (attestOption finished.provider.providerRunId))

def receiptOfRun (request : DelegationRequest) :
    Except Exit Finished → Except AgentRuntimeInternalError DelegationReceipt
  | .error .internal => .error .receiptInvariant
  | .error (.incomplete requested effective failure input output inputBytes outputBytes) =>
      incomplete requested effective failure input output inputBytes outputBytes request.noSession
  | .ok finished => complete finished request.noSession request.groundingContract.isSome

/-- `AgentRuntime::invoke`. -/
def invoke (nowTick : ℕ) : Coordination K AgentRuntimeInternalError DelegationReceipt :=
  (stages config request authority registry nowTick).conclude (receiptOfRun request)

end Invoke

end Bran.Agent
