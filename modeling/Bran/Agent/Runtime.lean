import Bran.Agent.Profiles

/-!
# Provider requests and outputs

The values of `agent/runtime.rs` that pass between the coordinator and a provider.  What a
constructor checks is a field of the value it builds.
-/

namespace Bran.Agent

open Text Validation

inductive AuthError where
  | missing
  | unavailable
  | locked
  deriving DecidableEq

/-! ## Requests -/

/-- The private `is_valid_name`. -/
def isValidName (s : Str) : Bool := validNameOf 64 identityChar s

inductive ProviderRequestError where
  | invalidProvider
  | invalidModel
  | blankPrompt
  | promptTooLarge
  | invalidMaxOutput
  | invalidTokenBudget
  | invalidDelegationDepth
  deriving DecidableEq

structure ProviderRequest where
  provider : Str
  model : Str
  requested : ReasoningLevel
  toolPolicy : ToolPolicy
  prompt : Str
  maxOutputBytes : ℕ
  noSession : Bool
  hardTotalTokenCeiling : Option ℕ
  maxOutputTokens : Option ℕ
  delegationDepth : ℕ
  deriving DecidableEq

namespace ProviderRequest

def new (provider model : Str) (requested : ReasoningLevel) (toolPolicy : ToolPolicy)
    (prompt : Str) (maxOutputBytes delegationDepth : ℕ) :
    Except ProviderRequestError ProviderRequest := do
  failIf (isValidName provider = false) .invalidProvider
  failIf (isValidName model = false) .invalidModel
  failIf (isBlank prompt = true) .blankPrompt
  failIf (byteLen prompt > 65536) .promptTooLarge
  failIf (maxOutputBytes < 1 ∨ 1048576 < maxOutputBytes) .invalidMaxOutput
  failIf (delegationDepth > 8) .invalidDelegationDepth
  .ok {
    provider
    model
    requested
    toolPolicy
    prompt
    maxOutputBytes
    noSession := false
    hardTotalTokenCeiling := none
    maxOutputTokens := none
    delegationDepth }

def withNoSession (request : ProviderRequest) (noSession : Bool) : ProviderRequest :=
  { request with noSession }

def withTokenBudget (request : ProviderRequest) (ceiling output : ℕ) :
    Except ProviderRequestError ProviderRequest := do
  failIf (ceiling = 0 ∨ output = 0 ∨ output > ceiling) .invalidTokenBudget
  .ok { request with hardTotalTokenCeiling := some ceiling, maxOutputTokens := some output }

def withTotalTokenCeiling (request : ProviderRequest) (ceiling : ℕ) :
    Except ProviderRequestError ProviderRequest := do
  failIf (ceiling = 0) .invalidTokenBudget
  .ok { request with hardTotalTokenCeiling := some ceiling }

end ProviderRequest

/-! ## Outputs -/

def validSha256 (value : Str) : Bool := isDigest value

def minClaimSupportBytes : ℕ := 12

inductive ProviderError where
  | unavailable
  | timeout
  | cancelled
  | failed
  | invalidOutput
  deriving DecidableEq

inductive ArtifactKind where
  | patch
  | json
  | validationReceipt
  | opaqueBytes
  deriving DecidableEq

def mediaTypeChar (c : Char) : Bool :=
  ('a' ≤ c && c ≤ 'z') || ('0' ≤ c && c ≤ '9') || c == '/' || c == '-' || c == '+' || c == '.' ||
    c == '_'

def validMediaType (mediaType : Str) : Prop :=
  isBlank mediaType = false ∧ byteLen mediaType ≤ 128 ∧ mediaType.all mediaTypeChar = true

instance : DecidablePred validMediaType := fun _ => inferInstanceAs (Decidable (_ ∧ _))

/-- `LosslessArtifact`; its identity is that of its bytes. -/
structure LosslessArtifact where
  kind : ArtifactKind
  mediaType : Str
  bytes : List UInt8
  id : ResultId
  sized : 1 ≤ bytes.length ∧ bytes.length ≤ 1048576
  typed : validMediaType mediaType
  identified : id = ResultId.sha256 bytes
  deriving DecidableEq

inductive LosslessArtifactError where
  | refused
  deriving DecidableEq

def LosslessArtifact.new (kind : ArtifactKind) (mediaType : Str) (bytes : List UInt8) :
    Except LosslessArtifactError LosslessArtifact :=
  if sized : 1 ≤ bytes.length ∧ bytes.length ≤ 1048576 then
    if typed : validMediaType mediaType then
      .ok { kind, mediaType, bytes, id := .sha256 bytes, sized, typed, identified := rfl }
    else .error .refused
  else .error .refused

theorem LosslessArtifact.new_eq_ok_iff {kind : ArtifactKind} {mediaType : Str}
    {bytes : List UInt8} {artifact : LosslessArtifact} :
    new kind mediaType bytes = .ok artifact ↔ artifact.kind = kind ∧
      artifact.mediaType = mediaType ∧ artifact.bytes = bytes := by
  constructor
  · intro h
    rw [new] at h
    split_ifs at h
    obtain rfl := Except.ok.inj h
    exact ⟨rfl, rfl, rfl⟩
  · intro h
    obtain ⟨kind, mediaType, bytes, id, sized, typed, identified⟩ := artifact
    obtain ⟨rfl, rfl, rfl⟩ := h
    subst identified
    rw [new, dif_pos sized, dif_pos typed]

/-- What `ProviderClaim::new` checks. -/
def ProviderClaim.Valid (id text locator contentDigest support : Str) : Prop :=
  isValidName id = true ∧ isBlank text = false ∧ byteLen text ≤ 65536 ∧ isBlank locator = false ∧
    byteLen locator ≤ 1024 ∧ validSha256 contentDigest = true ∧
    minClaimSupportBytes ≤ byteLen (trim support) ∧ byteLen support ≤ 65536

structure ProviderClaim where
  id : Str
  text : Str
  material : Bool
  locator : Str
  contentDigest : Str
  support : Str
  valid : ProviderClaim.Valid id text locator contentDigest support
  deriving DecidableEq

inductive ProviderOutputError where
  | refused
  deriving DecidableEq

instance ProviderClaim.decidableValid {id text locator contentDigest support : Str} :
    Decidable (ProviderClaim.Valid id text locator contentDigest support) :=
  inferInstanceAs (Decidable (_ ∧ _))

def ProviderClaim.new (id text : Str) (material : Bool) (locator contentDigest support : Str) :
    Except ProviderOutputError ProviderClaim :=
  if valid : ProviderClaim.Valid id text locator contentDigest support then
    .ok { id, text, material, locator, contentDigest, support, valid }
  else .error .refused

theorem ProviderClaim.new_eq_ok_iff {id text locator contentDigest support : Str}
    {material : Bool} {claim : ProviderClaim} :
    new id text material locator contentDigest support = .ok claim ↔ claim.id = id ∧
      claim.text = text ∧ claim.material = material ∧ claim.locator = locator ∧
      claim.contentDigest = contentDigest ∧ claim.support = support := by
  constructor
  · intro h
    rw [new] at h
    split_ifs at h
    obtain rfl := Except.ok.inj h
    exact ⟨rfl, rfl, rfl, rfl, rfl, rfl⟩
  · intro h
    obtain ⟨rfl, rfl, rfl, rfl, rfl, rfl⟩ := h
    rw [new, dif_pos claim.valid]

/-- A citation that an output may hold. -/
def validCitation (citation : Str) : Prop := isBlank citation = false ∧ byteLen citation ≤ 1024

/-- A name that an output may leave out. -/
def validOptionalName (name : Option Str) : Prop := ∀ value ∈ name, isValidName value = true

instance : DecidablePred validCitation := fun _ => inferInstanceAs (Decidable (_ ∧ _))

instance : DecidablePred validOptionalName := fun name =>
  inferInstanceAs (Decidable (∀ value ∈ name, isValidName value = true))

theorem validOptionalName_none : validOptionalName none := by
  intro value h
  cases h

/-- `ProviderTokenUsage`; the counts are `usize` values. -/
structure ProviderTokenUsage where
  actualInputTokens : Option ℕ
  actualOutputTokens : Option ℕ
  words : (∀ tokens ∈ actualInputTokens, tokens < 2 ^ 64) ∧
    ∀ tokens ∈ actualOutputTokens, tokens < 2 ^ 64

structure ProviderExecutionEvidence where
  effectiveProfile : Option Str
  effectiveProvider : Option Str
  effectiveModel : Option Str
  effectiveReasoning : Option Str
  validNames : validOptionalName effectiveProfile ∧ validOptionalName effectiveProvider ∧
    validOptionalName effectiveModel ∧ validOptionalName effectiveReasoning

def ProviderExecutionEvidence.new (effectiveProfile effectiveProvider effectiveModel
    effectiveReasoning : Option Str) : Except ProviderOutputError ProviderExecutionEvidence :=
  if validNames : validOptionalName effectiveProfile ∧ validOptionalName effectiveProvider ∧
      validOptionalName effectiveModel ∧ validOptionalName effectiveReasoning then
    .ok { effectiveProfile, effectiveProvider, effectiveModel, effectiveReasoning, validNames }
  else .error .refused

/-- `ProviderOutput`, with what `new`, `with_effective_execution`, `with_claims` and
`with_token_budget_attestation` check. -/
structure ProviderOutput where
  answer : Str
  citations : List Str
  claims : List ProviderClaim
  providerRunId : Option Str
  effectiveModel : Option Str
  effectiveReasoning : Option Str
  effectiveProfile : Option Str
  effectiveProvider : Option Str
  actualInputTokens : Option ℕ
  actualOutputTokens : Option ℕ
  enforcedTokenCeiling : Option ℕ
  artifacts : List LosslessArtifact
  validAnswer : isBlank answer = false ∧ byteLen answer ≤ 1048576
  validCitations : citations.length ≤ 128 ∧ ∀ citation ∈ citations, validCitation citation
  validClaims : claims.length ≤ 128 ∧ (claims.map ProviderClaim.id).Nodup
  validNames : validOptionalName providerRunId ∧ validOptionalName effectiveModel ∧
    validOptionalName effectiveReasoning ∧ validOptionalName effectiveProfile ∧
    validOptionalName effectiveProvider
  words : (∀ tokens ∈ actualInputTokens, tokens < 2 ^ 64) ∧
    ∀ tokens ∈ actualOutputTokens, tokens < 2 ^ 64
  validCeiling : ∀ ceiling ∈ enforcedTokenCeiling, ceiling ≠ 0
  validArtifacts : artifacts.length ≤ 64

theorem noCitations :
    ([] : List Str).length ≤ 128 ∧ ∀ citation ∈ ([] : List Str), validCitation citation := by
  simp

theorem noClaims :
    ([] : List ProviderClaim).length ≤ 128 ∧ (([] : List ProviderClaim).map (·.id)).Nodup := by
  simp

theorem noTokens : (∀ tokens ∈ (none : Option ℕ), tokens < 2 ^ 64) ∧
    ∀ tokens ∈ (none : Option ℕ), tokens < 2 ^ 64 := by
  simp

theorem noCeiling : ∀ ceiling ∈ (none : Option ℕ), ceiling ≠ 0 := by simp

theorem noArtifacts : ([] : List LosslessArtifact).length ≤ 64 := Nat.zero_le _

namespace ProviderOutput

def new (answer : Str) (citations : List Str)
    (providerRunId effectiveModel effectiveReasoning : Option Str) (usage : ProviderTokenUsage)
    (artifacts : List LosslessArtifact) : Except ProviderOutputError ProviderOutput :=
  if validAnswer : isBlank answer = false ∧ byteLen answer ≤ 1048576 then
    if validCitations : citations.length ≤ 128 ∧
        ∀ citation ∈ citations, validCitation citation then
      if validNames : validOptionalName providerRunId ∧ validOptionalName effectiveModel ∧
          validOptionalName effectiveReasoning then
        if validArtifacts : artifacts.length ≤ 64 then
          .ok {
            answer
            citations
            claims := []
            providerRunId
            effectiveModel
            effectiveReasoning
            effectiveProfile := none
            effectiveProvider := none
            actualInputTokens := usage.actualInputTokens
            actualOutputTokens := usage.actualOutputTokens
            enforcedTokenCeiling := none
            artifacts
            validAnswer
            validCitations
            validClaims := noClaims
            validNames := ⟨validNames.1, validNames.2.1, validNames.2.2, validOptionalName_none,
              validOptionalName_none⟩
            words := usage.words
            validCeiling := noCeiling
            validArtifacts }
        else .error .refused
      else .error .refused
    else .error .refused
  else .error .refused

/-- The output with the profile and the provider of some evidence, which has checked them. -/
def withEvidence (output : ProviderOutput) (evidence : ProviderExecutionEvidence) :
    ProviderOutput :=
  { output with
    effectiveProfile := evidence.effectiveProfile
    effectiveProvider := evidence.effectiveProvider
    validNames := ⟨output.validNames.1, output.validNames.2.1, output.validNames.2.2.1,
      evidence.validNames.1, evidence.validNames.2.1⟩ }

def withEffectiveExecution (answer : Str) (citations : List Str) (providerRunId : Option Str)
    (evidence : ProviderExecutionEvidence) (usage : ProviderTokenUsage)
    (artifacts : List LosslessArtifact) : Except ProviderOutputError ProviderOutput := do
  let output ← new answer citations providerRunId evidence.effectiveModel
    evidence.effectiveReasoning usage artifacts
  pure (output.withEvidence evidence)

def withClaims (output : ProviderOutput) (claims : List ProviderClaim) :
    Except ProviderOutputError ProviderOutput :=
  if validClaims : claims.length ≤ 128 ∧ (claims.map ProviderClaim.id).Nodup then
    .ok { output with claims, validClaims }
  else .error .refused

def withTokenBudgetAttestation (output : ProviderOutput) (ceiling : ℕ) :
    Except ProviderOutputError ProviderOutput :=
  if hzero : ceiling ≠ 0 then
    .ok { output with
      enforcedTokenCeiling := some ceiling
      validCeiling := fun _ h => Option.some.inj h ▸ hzero }
  else .error .refused

end ProviderOutput

/-! ## Invocations -/

inductive InvocationState where
  | configured
  | packetReady
  | running
  | validating
  | complete
  | incomplete
  deriving DecidableEq

inductive AgentFailure where
  | agentDisabled
  | explicitOffline
  | projectUntrusted
  | unknownProfile
  | unknownProvider
  | unknownModel
  | missingAuth
  | providerUnavailable
  | providerFailed
  | timeout
  | cancelled
  | depthExceeded
  | deniedTool
  | invalidOutput
  | dlpRejected
  | groundingFailed
  | claimUnsupported
  | tokenBudgetUnattested
  | tokenCeilingExceeded
  | sqzInputFailed
  | sqzOutputFailed
  | resultStoreFailed
  deriving DecidableEq

structure InvocationLifecycle where
  state : InvocationState
  deriving DecidableEq

namespace InvocationLifecycle

def configured : InvocationLifecycle := ⟨.configured⟩

def advance (lifecycle : InvocationLifecycle) (next : InvocationState) :
    Except AgentFailure InvocationLifecycle :=
  match lifecycle.state, next with
  | .configured, .packetReady | .packetReady, .running | .running, .validating => .ok ⟨next⟩
  | _, _ => .error .invalidOutput

def complete (lifecycle : InvocationLifecycle) : Except AgentFailure InvocationLifecycle :=
  if lifecycle.state = .validating then .ok ⟨.complete⟩ else .error .invalidOutput

def incomplete (lifecycle : InvocationLifecycle) : Except AgentFailure InvocationLifecycle :=
  if lifecycle.state = .complete ∨ lifecycle.state = .incomplete then .error .invalidOutput
  else .ok ⟨.incomplete⟩

end InvocationLifecycle

inductive Attestation (α : Type) where
  | attested (value : α)
  | unavailable
  deriving DecidableEq

structure InvocationMetrics where
  actualInputTokens : Option ℕ
  actualOutputTokens : Option ℕ
  inputBytes : ℕ
  outputBytes : ℕ
  latencyMs : ℕ
  deriving DecidableEq

inductive InvocationOutcome where
  | complete (metrics : InvocationMetrics)
  | incomplete (failure : AgentFailure) (metrics : InvocationMetrics)
  deriving DecidableEq

def InvocationOutcome.new (state : InvocationState) (failure : Option AgentFailure)
    (metrics : InvocationMetrics) : Except AgentFailure InvocationOutcome :=
  match state, failure with
  | .complete, none => .ok (.complete metrics)
  | .complete, some failure => .error failure
  | .incomplete, some failure => .ok (.incomplete failure metrics)
  | .incomplete, none => .error .invalidOutput
  | _, _ => .error .invalidOutput

end Bran.Agent
