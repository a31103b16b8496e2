import Bran.Agent.InvocationSafety

/-!
# The budgets of a request

A request bounds the bytes of its answer, the tokens of an exchange and the tokens of the output.
The coordinator enforces the second bound only: the other two pass through the provider request and
the SQZ stages to ports that may ignore them.  `AgentSqzAdapter` enforces the first one where its
policy is not off.
-/

namespace Bran.Agent

open Text Validation Adapters Packet Program AgentCall
open Except (ok.inj)

/-! ## The SQZ adapter of an agent -/

/-- `AgentSqzAdapter`, without its port. -/
structure AgentSqzAdapter where
  policy : SqzPolicy
  configuredMaxOutputBytes : ℕ

namespace AgentSqzAdapter

def stageAnchorId : SqzStage → Str
  | .input => "agent-input".toList
  | .output => "agent-output".toList

def stageFailure : SqzStage → AgentSqzFailureCode
  | .input => .inputFailed
  | .output => .outputFailed

variable (adapter : AgentSqzAdapter)

/-- The anchors of a stage: those that are asked for, or the beginning of the payload. -/
def anchorsFor (stage : SqzStage) (payload : Str) (preservationAnchors : List PreservationAnchor) :
    Except AgentSqzError (List PreservationAnchor) :=
  if preservationAnchors ≠ [] then .ok preservationAnchors
  else if adapter.policy = .publicOff then .ok []
  else (PreservationAnchor.new (stageAnchorId stage) (payload.take 128)).mapError
    (fun _ => ⟨.invalidOutput, none⟩) |>.map fun anchor => [anchor]

/-- `AgentSqzOutput::new`. -/
def outputOf (payload : Str) (receipt : SqzReceipt) : Except AgentSqzError AgentSqzOutput :=
  if h : isBlank payload = false ∧ byteLen payload ≤ 1048576 then .ok ⟨payload, receipt, h⟩
  else .error ⟨.invalidOutput, none⟩

variable {S : Type} (port : SqzPort S)

def evaluateWithAnchors (stage : SqzStage) (payload : Str) (maxOutputBytes : ℕ)
    (preservationAnchors : List PreservationAnchor) (session : SqzSession S) :
    Except AgentSqzError AgentSqzOutput × SqzSession S :=
  match adapter.anchorsFor stage payload preservationAnchors with
  | .error error => (.error error, session)
  | .ok anchors =>
      let inner : SqzAdapter :=
        ⟨⟨adapter.policy, SqzIdentity.approved, adapter.configuredMaxOutputBytes, anchors⟩⟩
      match inner.evaluate port (payloadPacket payload) maxOutputBytes session with
      | (.ok output, session) => (outputOf output.packet.payload output.receipt, session)
      | (.error error, session) => (.error ⟨stageFailure stage, some error.receipt⟩, session)

def evaluate (stage : SqzStage) (payload : Str) (maxOutputBytes : ℕ) :
    SqzSession S → Except AgentSqzError AgentSqzOutput × SqzSession S :=
  adapter.evaluateWithAnchors port stage payload maxOutputBytes []

end AgentSqzAdapter

/-- What an evaluation whose receipt names no failure has returned. -/
theorem evaluate_passed {S : Type} {adapter : SqzAdapter} {port : SqzPort S}
    {packet : ContextPacket} {requested : ℕ} {session after : SqzSession S}
    {evaluation : SqzEvaluation}
    (h : adapter.evaluate port packet requested session = (.ok evaluation, after))
    (hpassed : evaluation.receipt.failureReason = none) :
    if adapter.config.policy = .publicOff then evaluation.packet = packet
    else byteLen evaluation.packet.payload ≤ requested := by
  have hfailed {identity : Option SqzIdentity} {latency : ℕ} {candidate : Option Adapters.Candidate}
      {failure : SqzAdapter.Failure} :
      adapter.failed packet requested identity latency candidate failure ≠ .ok evaluation := by
    intro hfailed
    unfold SqzAdapter.failed at hfailed
    split_ifs at hfailed
    rw [← ok.inj hfailed] at hpassed
    cases hpassed
  rcases SqzAdapter.evaluate_cases adapter port packet requested session with
    ⟨outcome, hearly, heval⟩ | ⟨hearly, answer, latency, state, heval⟩
  · -- nothing was compressed
    rw [heval] at h
    obtain rfl : outcome = .ok evaluation := (Prod.mk.inj h).1
    unfold SqzAdapter.early at hearly
    split_ifs at hearly with hoff happroved
    · rw [if_pos hoff]
      split at hearly
      · exact absurd (Option.some.inj hearly) hfailed
      · rw [← ok.inj (Option.some.inj hearly)]
    · exact absurd (Option.some.inj hearly) hfailed
    · obtain ⟨failure, _, hfailure⟩ := Option.map_eq_some_iff.mp hearly
      exact absurd hfailure hfailed
  · rw [heval] at h
    have hjudge := (Prod.mk.inj h).1
    have hon : adapter.config.policy ≠ .publicOff := (SqzAdapter.screened_of_early hearly).1
    rw [if_neg hon]
    rcases SqzAdapter.judge_cases adapter packet requested latency answer with
      ⟨identity, candidate, failure, hresult, _⟩ | ⟨output, _, haccepted, hresult⟩
    · rw [hresult] at hjudge
      exact absurd hjudge hfailed
    have hbound : byteLen output.payload ≤ requested := le_trans haccepted.bounded (min_le_left _ _)
    rcases hresult with ⟨hraw, hresult⟩ | ⟨_, hresult⟩
    · rw [hresult] at hjudge
      rw [← ok.inj hjudge]
      exact le_trans hraw hbound
    · rw [hresult] at hjudge
      rw [← ok.inj hjudge]
      exact hbound

/-- What the adapter of an agent has returned, when the coordinator accepts its receipt. -/
theorem AgentSqzAdapter.evaluate_accepted {S : Type} {adapter : AgentSqzAdapter}
    {port : SqzPort S} {stage : SqzStage} {payload : Str} {maxOutputBytes : ℕ}
    {session after : SqzSession S} {output : AgentSqzOutput}
    (h : adapter.evaluate port stage payload maxOutputBytes session = (.ok output, after))
    (haccepted : acceptedSqz output.receipt output.payload = true) :
    if adapter.policy = .publicOff then output.payload = payload
    else byteLen output.payload ≤ maxOutputBytes := by
  unfold AgentSqzAdapter.evaluate AgentSqzAdapter.evaluateWithAnchors at h
  split at h
  · cases (Prod.mk.inj h).1
  rename_i anchors _
  dsimp only at h
  split at h
  · rename_i evaluation state heval
    have houtput := (Prod.mk.inj h).1
    unfold AgentSqzAdapter.outputOf at houtput
    split_ifs at houtput
    obtain rfl := ok.inj houtput
    rw [acceptedSqz, Bool.and_eq_true, Bool.and_eq_true, passedSqz] at haccepted
    have hpassed : evaluation.receipt.failureReason = none := by
      have hnone := haccepted.1.1
      simp only [Bool.and_eq_true] at hnone
      exact Option.isNone_iff_eq_none.mp hnone.1.1.1
    have hcases := evaluate_passed heval hpassed
    dsimp only at hcases
    split_ifs at hcases ⊢
    · exact congrArg ContextPacket.payload hcases
    · exact hcases
  · cases (Prod.mk.inj h).1

/-! ## Budgets -/

/-- What a request asks of the answer and of what the provider reports. -/
structure BudgetsKept (request : DelegationRequest) (inline : InlineResult)
    (provided : ProviderOutput) : Prop where
  bytes : byteLen inline.answer ≤ request.maxOutputBytes
  ceiling : ∀ ceiling ∈ request.hardTotalTokenCeiling,
    provided.enforcedTokenCeiling = some ceiling ∧
      provided.actualInputTokens.getD 0 + provided.actualOutputTokens.getD 0 ≤ ceiling
  outputTokens : ∀ limit ∈ request.maxOutputTokens, ∀ tokens ∈ provided.actualOutputTokens,
    tokens ≤ limit

variable {K : Type} {config : AgentRuntimeConfig} {request : DelegationRequest}
  {authority : AgentRuntimeAuthority} {registry : AgentProfileRegistry} {nowTick : ℕ}
  {trace : List (AgentEvent K)}

theorem enforcedTokenBudget_eq_ok_iff {output : ProviderOutput} :
    enforcedTokenBudget request output = .ok () ↔
      ∀ ceiling ∈ request.hardTotalTokenCeiling, output.enforcedTokenCeiling = some ceiling ∧
        output.actualInputTokens.getD 0 + output.actualOutputTokens.getD 0 < 2 ^ 64 ∧
        output.actualInputTokens.getD 0 + output.actualOutputTokens.getD 0 ≤ ceiling := by
  unfold enforcedTokenBudget
  cases request.hardTotalTokenCeiling with
  | none => exact ⟨fun _ ceiling h => (nomatch h), fun _ => rfl⟩
  | some ceiling =>
      dsimp only
      rw [check_bind_eq_ok_iff, failIf_eq_ok_iff, not_not, bind_eq_ok_iff]
      constructor
      · intro h found hfound
        cases hfound
        obtain ⟨hattested, total, htotal, hbound⟩ := h
        obtain ⟨hsmall, rfl⟩ := checkedAdd_eq_ok_iff.mp htotal
        exact ⟨hattested, hsmall, not_lt.mp (failIf_eq_ok_iff.mp hbound)⟩
      · intro h
        obtain ⟨hattested, hsmall, hbound⟩ := h ceiling rfl
        exact ⟨hattested, _, checkedAdd_eq_ok hsmall, failIf_eq_ok_iff.mpr (not_lt.mpr hbound)⟩

/-- The answer of an SQZ port is one of `AgentSqzAdapter`, in some state of its port. -/
def AdaptedEvent {S : Type} (adapter : AgentSqzAdapter) (port : SqzPort S) : AgentEvent K → Prop
  | ⟨.evaluate stage payload maxOutputBytes, answer⟩ =>
      ∃ session, (adapter.evaluate port stage payload maxOutputBytes session).1 = answer
  | _ => True

/-- What decides about the budgets of a complete run: the answer of the second SQZ stage and the
report of the provider. -/
structure WithinBudgets (request : DelegationRequest) (staged : AgentSqzOutput)
    (provided : ProviderOutput) : Prop where
  bytes : byteLen staged.payload ≤ request.maxOutputBytes
  outputTokens : ∀ limit ∈ request.maxOutputTokens, ∀ tokens ∈ provided.actualOutputTokens,
    tokens ≤ limit

/-- Where the budgets of a complete run are kept.  The SQZ stage that decides about the bytes does
so by itself under `AgentSqzAdapter`, unless its policy is off: then the provider does. -/
structure BudgetReport (request : DelegationRequest) (trace : List (AgentEvent K))
    (receipt : DelegationReceipt) (inline : InlineResult) (staged : AgentSqzOutput)
    (provided : ProviderOutput) : Prop where
  holdsInline : receipt.inlineResult = some inline
  answered : ∃ request credential,
    (⟨.provider request credential, Except.ok provided⟩ : AgentEvent K) ∈ trace
  stagedEvent : (⟨.evaluate .output provided.answer request.maxOutputBytes,
    Except.ok staged⟩ : AgentEvent K) ∈ trace
  kept : BudgetsKept request inline provided ↔ WithinBudgets request staged provided
  adapted : ∀ {S : Type} (adapter : AgentSqzAdapter) (port : SqzPort S),
    (∀ event ∈ trace, AdaptedEvent adapter port event) →
      (byteLen staged.payload ≤ request.maxOutputBytes ↔
        (adapter.policy = .publicOff → byteLen provided.answer ≤ request.maxOutputBytes))

end Bran.Agent
