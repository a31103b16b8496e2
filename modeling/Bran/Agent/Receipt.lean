import Bran.Agent.Runtime

/-!
# Delegation receipts

The values of `agent/receipt.rs` and the checks of `DelegationReceipt::new`.  The acceptance of an
SQZ receipt is written a second time here, without the payload that the coordinator has at hand.
-/

namespace Bran.Agent

open Text Validation Adapters

inductive ReceiptError where
  | rejected
  deriving DecidableEq

/-- `u64::MAX`. -/
def u64Max : ℕ := 2 ^ 64 - 1

/-- `is_valid_identity` of the receipts. -/
def Receipt.isValidIdentity (s : Str) : Bool := validNameOf 64 identityChar s

/-- An attested text that is not an identity. -/
def Attestation.refuses (valid : Str → Bool) : Attestation Str → Bool
  | .attested value => !valid value
  | .unavailable => false

structure RequestedExecution where
  profileName : Str
  provider : Attestation Str
  model : Attestation Str
  reasoning : Attestation ReasoningLevel
  toolPolicy : ToolPolicy
  deriving DecidableEq

def RequestedExecution.withAttestations (profileName : Str) (provider model : Attestation Str)
    (reasoning : Attestation ReasoningLevel) (toolPolicy : ToolPolicy) :
    Except ReceiptError RequestedExecution := do
  failIf (Receipt.isValidIdentity profileName = false ∨
    provider.refuses Receipt.isValidIdentity = true ∨
    model.refuses Receipt.isValidIdentity = true) .rejected
  .ok ⟨profileName, provider, model, reasoning, toolPolicy⟩

structure EffectiveExecution where
  profile : Attestation AgentProfile
  provider : Attestation Str
  model : Attestation Str
  reasoning : Attestation ReasoningLevel
  toolPolicy : ToolPolicy
  deriving DecidableEq

structure SqzStages where
  input : Option SqzReceipt
  output : Option SqzReceipt
  deriving DecidableEq

/-! ## Results -/

structure InlineResult where
  answer : Str
  citations : List Str
  claims : List ProviderClaim
  deriving DecidableEq

/-- `u64::to_be_bytes`. -/
def beBytes (n : ℕ) : List UInt8 :=
  (List.range 8).reverse.map fun index => UInt8.ofNat (n / 256 ^ index)

def encodeField (field : List UInt8) : List UInt8 := beBytes field.length ++ field

def encodeClaim (claim : ProviderClaim) : List UInt8 :=
  encodeField (bytes claim.id) ++ encodeField (bytes claim.text) ++
    [if claim.material then 1 else 0] ++ encodeField (bytes claim.locator) ++
    encodeField (bytes claim.contentDigest) ++ encodeField (bytes claim.support)

namespace InlineResult

def new (answer : Str) (citations : List Str) : Except ReceiptError InlineResult := do
  failIf (isBlank answer = true ∨ byteLen answer > 1048576) .rejected
  failIf (citations.length > 128) .rejected
  failIf (∃ citation ∈ citations, isBlank citation = true ∨ byteLen citation > 1024) .rejected
  .ok ⟨answer, citations, []⟩

def withClaims (answer : Str) (citations : List Str) (claims : List ProviderClaim) :
    Except ReceiptError InlineResult := do
  let result ← new answer citations
  failIf (claims.length > 128) .rejected
  .ok { result with claims }

def encodeCanonical (result : InlineResult) : List UInt8 :=
  bytes (if result.claims = [] then "bran-agent-result-v1".toList
    else "bran-agent-result-v2".toList) ++
    encodeField (bytes result.answer) ++ beBytes result.citations.length ++
    (result.citations.flatMap fun citation => encodeField (bytes citation)) ++
    if result.claims = [] then []
    else beBytes result.claims.length ++ result.claims.flatMap encodeClaim

end InlineResult

theorem withClaims_eq_ok_iff {answer : Str} {citations : List Str} {claims : List ProviderClaim}
    {inline : InlineResult} : InlineResult.withClaims answer citations claims = .ok inline ↔
      (isBlank answer = false ∧ byteLen answer ≤ 1048576) ∧ citations.length ≤ 128 ∧
        (∀ citation ∈ citations, validCitation citation) ∧ claims.length ≤ 128 ∧
        inline = ⟨answer, citations, claims⟩ := by
  unfold InlineResult.withClaims InlineResult.new
  rw [bind_eq_ok_iff]
  constructor
  · intro h
    obtain ⟨result, hresult, h⟩ := h
    rw [check_bind_eq_ok_iff, check_bind_eq_ok_iff, check_bind_eq_ok_iff, failIf_eq_ok_iff,
      failIf_eq_ok_iff, failIf_eq_ok_iff] at hresult
    rw [check_bind_eq_ok_iff, failIf_eq_ok_iff] at h
    obtain ⟨hanswer, hcount, hcitations, hresult⟩ := hresult
    obtain ⟨hclaims, hinline⟩ := h
    rw [not_or, Bool.not_eq_true, not_lt] at hanswer
    refine ⟨hanswer, not_lt.mp hcount, fun citation hcitation => ?_, not_lt.mp hclaims, ?_⟩
    · by_contra hinvalid
      rw [validCitation, not_and_or, Bool.not_eq_false, not_le] at hinvalid
      exact hcitations ⟨citation, hcitation, hinvalid⟩
    · cases hresult
      cases hinline
      rfl
  · intro h
    obtain ⟨hanswer, hcount, hcitations, hclaims, rfl⟩ := h
    refine ⟨⟨answer, citations, []⟩, ?_, ?_⟩
    · rw [check_bind_eq_ok_iff, check_bind_eq_ok_iff, check_bind_eq_ok_iff, failIf_eq_ok_iff,
        failIf_eq_ok_iff, failIf_eq_ok_iff, not_or, Bool.not_eq_true, not_lt]
      refine ⟨hanswer, not_lt.mpr hcount, ?_, rfl⟩
      intro hinvalid
      obtain ⟨citation, hcitation, hinvalid⟩ := hinvalid
      have hvalid := hcitations citation hcitation
      rcases hinvalid with hblank | hlong
      · exact absurd hblank (by rw [hvalid.1]; exact Bool.false_ne_true)
      · exact absurd hlong (not_lt.mpr hvalid.2)
    · rw [check_bind_eq_ok_iff, failIf_eq_ok_iff]
      exact ⟨not_lt.mpr hclaims, rfl⟩

structure StoredResultRef where
  resultId : ResultId
  artifactIds : List ResultId
  deriving DecidableEq

def StoredResultRef.new (resultId : ResultId) (artifactIds : List ResultId) :
    Except ReceiptError StoredResultRef := do
  failIf (artifactIds.length > 64) .rejected
  .ok ⟨resultId, artifactIds⟩

/-! ## Receipts -/

/-- What both versions of `accepted_sqz` ask of a receipt before they look at its status. -/
def passedSqz (receipt : SqzReceipt) : Bool :=
  receipt.failureReason.isNone && receipt.fidelityStatus == .passed &&
    receipt.dlpStatus == .passed && receipt.dlpFindings.isEmpty

/-- What both versions of `accepted_sqz` ask of the receipt of a stage that is off. -/
def offSqz (receipt : SqzReceipt) : Bool :=
  receipt.rawBytes == receipt.returnedBytes &&
    receipt.rawTokenEstimate == receipt.returnedTokenEstimate &&
    receipt.rawTokenEstimate == (receipt.rawBytes + 3) / 4 &&
    receipt.candidateCompressedBytes.isNone && receipt.candidateTokenEstimate.isNone &&
    receipt.actualInputTokens.isNone && receipt.actualOutputTokens.isNone &&
    receipt.returnedIdentity.isNone && receipt.sqzId.isNone

/-- The match on policy and status in `accepted_sqz`, with its test of the identity. -/
def sqzStatusAccepted (receipt : SqzReceipt) (accepts : SqzId → Bool) : Bool :=
  match receipt.policy, receipt.status with
  | .publicOff, .off => offSqz receipt
  | .publicOn, .applied | .publicOn, .notBeneficial | .internalLocked, .applied
  | .internalLocked, .notBeneficial => receipt.sqzId.any accepts
  | _, _ => false

/-- `accepted_sqz` of the receipts. -/
def Receipt.acceptedSqz (receipt : SqzReceipt) : Bool :=
  passedSqz receipt && sqzStatusAccepted receipt fun id =>
    id.algorithm == "sha256".toList && isDigest id.value

structure DelegationReceiptParts where
  outcome : InvocationOutcome
  requested : RequestedExecution
  effective : EffectiveExecution
  sqz : SqzStages
  inlineResult : Option InlineResult
  storedRef : Option StoredResultRef
  noSession : Bool
  provenance : List Str
  deriving DecidableEq

structure DelegationReceipt where
  schemaVersion : Str
  outcome : InvocationOutcome
  requested : RequestedExecution
  effective : EffectiveExecution
  sqz : SqzStages
  inlineResult : Option InlineResult
  storedRef : Option StoredResultRef
  noSession : Bool
  provenance : List Str
  providerRunId : Attestation Str
  deriving DecidableEq

namespace DelegationReceipt

/-- The identity in an SQZ receipt is that of a text. -/
def identifies (answer : Str) (id : SqzId) : Bool :=
  id.algorithm == resultIdAlgorithm && id.value == (ResultId.sha256 (bytes answer)).value

def checkComplete (parts : DelegationReceiptParts) : Except ReceiptError Unit :=
  match parts.inlineResult, parts.storedRef, parts.sqz.input, parts.sqz.output with
  | some inline, some stored, some input, some output =>
      failIf (Receipt.acceptedSqz input = false ∨ Receipt.acceptedSqz output = false ∨
        stored.resultId ≠ ResultId.sha256 inline.encodeCanonical ∨
        (output.status ≠ .off ∧ output.sqzId.any (identifies inline.answer) = false)) .rejected
  | _, _, _, _ => .error .rejected

def checkOutcome (parts : DelegationReceiptParts) : Except ReceiptError Unit :=
  match parts.outcome with
  | .complete _ => checkComplete parts
  | .incomplete _ _ => failIf (parts.storedRef.isSome = true) .rejected

def new (parts : DelegationReceiptParts) : Except ReceiptError DelegationReceipt := do
  failIf (parts.provenance.length > 128) .rejected
  failIf (∃ entry ∈ parts.provenance, Receipt.isValidIdentity entry = false) .rejected
  failIf (∃ receipt ∈ parts.sqz.input.toList ++ parts.sqz.output.toList,
    receipt.monotonicCallLatency > u64Max) .rejected
  checkOutcome parts
  .ok {
    schemaVersion := "bran-agent-receipt-v1".toList
    outcome := parts.outcome
    requested := parts.requested
    effective := parts.effective
    sqz := parts.sqz
    inlineResult := parts.inlineResult
    storedRef := parts.storedRef
    noSession := parts.noSession
    provenance := parts.provenance
    providerRunId := .unavailable }

def withProviderRunId (receipt : DelegationReceipt) (providerRunId : Attestation Str) :
    Except ReceiptError DelegationReceipt := do
  failIf (providerRunId.refuses Receipt.isValidIdentity = true) .rejected
  .ok { receipt with providerRunId }

end DelegationReceipt

end Bran.Agent
