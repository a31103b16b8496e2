import Bran.Agent.Invocation

/-!
# Safety of an invocation

`invoke` ends every run with a receipt: what the coordinator accepts, `DelegationReceipt::new`
accepts too, although it has predicates of its own for SQZ receipts and for identities.  No call is
made before the gates are open, a complete receipt rests on what the store returned, and an
incomplete one holds no result.
-/

namespace Bran.Agent

open Text Validation Adapters Packet Program AgentCall
open Except (ok.inj)

variable {K : Type} {config : AgentRuntimeConfig} {request : DelegationRequest}
  {authority : AgentRuntimeAuthority} {registry : AgentProfileRegistry} {nowTick : ℕ}
  {trace : List (AgentEvent K)}

variable {receipt : DelegationReceipt} {noSession : Bool} {finished : Finished}

/-! ## The acceptance of SQZ receipts -/

/-- A weaker test of the identity accepts more receipts. -/
theorem sqzStatusAccepted_mono {receipt : SqzReceipt} {accepts accepts' : SqzId → Bool}
    (hmono : ∀ id, accepts id = true → accepts' id = true)
    (h : sqzStatusAccepted receipt accepts = true) : sqzStatusAccepted receipt accepts' = true := by
  have hany : receipt.sqzId.any accepts = true → receipt.sqzId.any accepts' = true := by
    intro hid
    cases hsqz : receipt.sqzId with
    | none =>
        rw [hsqz] at hid
        cases hid
    | some id =>
        rw [hsqz] at hid
        exact hmono id hid
  unfold sqzStatusAccepted at h ⊢
  split at h
  · exact h
  · exact hany h
  · exact hany h
  · exact hany h
  · exact hany h
  · cases h

/-- A stage that is not off has an identity that passes the test. -/
theorem any_of_sqzStatusAccepted {receipt : SqzReceipt} {accepts : SqzId → Bool}
    (h : sqzStatusAccepted receipt accepts = true) (hoff : receipt.status ≠ .off) :
    receipt.sqzId.any accepts = true := by
  unfold sqzStatusAccepted at h
  split at h
  · rename_i _ hstatus
    exact absurd hstatus hoff
  · exact h
  · exact h
  · exact h
  · exact h
  · cases h

theorem acceptedSqz_receipt {receipt : SqzReceipt} {payload : Str}
    (h : acceptedSqz receipt payload = true) : Receipt.acceptedSqz receipt = true := by
  rw [acceptedSqz, Bool.and_eq_true, Bool.and_eq_true] at h
  rw [Receipt.acceptedSqz, Bool.and_eq_true]
  refine ⟨h.1.1, sqzStatusAccepted_mono (fun id hid => ?_) h.2⟩
  rw [Bool.and_eq_true, beq_iff_eq, beq_iff_eq] at hid
  rw [Bool.and_eq_true, beq_iff_eq, hid.2]
  exact ⟨hid.1, isDigest_sha256Value _⟩

theorem acceptedSqz_identifies {receipt : SqzReceipt} {payload : Str}
    (h : acceptedSqz receipt payload = true) (hoff : receipt.status ≠ .off) :
    receipt.sqzId.any (DelegationReceipt.identifies payload) = true := by
  rw [acceptedSqz, Bool.and_eq_true] at h
  exact any_of_sqzStatusAccepted h.2 hoff

/-! ## Receipts -/

theorem validIdentity_provenance (grounded : Bool) :
    ∀ entry ∈ "bran-agent-runtime".toList ::
      (if grounded then ["bran-grounding-validated".toList] else []),
      Receipt.isValidIdentity entry = true := by
  cases grounded <;> decide +kernel

/-- The receipt of a run that ended early. -/
def incompleteReceipt (requested : RequestedExecution) (effective : EffectiveExecution)
    (failure : AgentFailure) (input output : Option SqzReceipt) (inputBytes outputBytes : ℕ)
    (noSession : Bool) : DelegationReceipt where
  schemaVersion := "bran-agent-receipt-v1".toList
  outcome := .incomplete failure ⟨none, none, inputBytes, outputBytes, 0⟩
  requested := requested
  effective := effective
  sqz := ⟨input, output⟩
  inlineResult := none
  storedRef := none
  noSession := noSession
  provenance := ["bran-agent-runtime".toList]
  providerRunId := .unavailable

/-- The receipt that `DelegationReceipt::new` makes of its parts. -/
def receiptOfParts (parts : DelegationReceiptParts) : DelegationReceipt where
  schemaVersion := "bran-agent-receipt-v1".toList
  outcome := parts.outcome
  requested := parts.requested
  effective := parts.effective
  sqz := parts.sqz
  inlineResult := parts.inlineResult
  storedRef := parts.storedRef
  noSession := parts.noSession
  provenance := parts.provenance
  providerRunId := .unavailable

theorem eq_receiptOfParts {parts : DelegationReceiptParts}
    (h : DelegationReceipt.new parts = .ok receipt) : receipt = receiptOfParts parts := by
  unfold DelegationReceipt.new at h
  rw [check_bind_eq_ok_iff, check_bind_eq_ok_iff, check_bind_eq_ok_iff, check_bind_eq_ok_iff] at h
  exact (ok.inj h.2.2.2.2).symm

/-- Parts that `DelegationReceipt::new` accepts. -/
theorem new_eq_ok {parts : DelegationReceiptParts} (hlength : parts.provenance.length ≤ 128)
    (hprovenance : ∀ entry ∈ parts.provenance, Receipt.isValidIdentity entry = true)
    (hinput : ∀ receipt ∈ parts.sqz.input, SqzReceipt.Timed receipt)
    (houtput : ∀ receipt ∈ parts.sqz.output, SqzReceipt.Timed receipt)
    (houtcome : DelegationReceipt.checkOutcome parts = .ok ()) :
    DelegationReceipt.new parts = .ok (receiptOfParts parts) := by
  unfold DelegationReceipt.new
  rw [check_bind_eq_ok_iff, check_bind_eq_ok_iff, check_bind_eq_ok_iff, check_bind_eq_ok_iff,
    failIf_eq_ok_iff, failIf_eq_ok_iff, failIf_eq_ok_iff]
  refine ⟨not_lt.mpr hlength, ?_, ?_, houtcome, rfl⟩
  · intro hinvalid
    obtain ⟨entry, hentry, hfalse⟩ := hinvalid
    rw [hprovenance entry hentry] at hfalse
    cases hfalse
  · intro hlate
    obtain ⟨receipt, hreceipt, hlate⟩ := hlate
    have htimed : SqzReceipt.Timed receipt := by
      rcases List.mem_append.mp hreceipt with h | h
      · exact hinput receipt (Option.mem_toList.mp h)
      · exact houtput receipt (Option.mem_toList.mp h)
    exact absurd hlate (not_lt.mpr htimed)

theorem incomplete_eq_ok {requested : RequestedExecution} {effective : EffectiveExecution}
    {failure : AgentFailure} {input output : Option SqzReceipt} {inputBytes outputBytes : ℕ} (h :
    (Exit.incomplete requested effective failure input output inputBytes outputBytes).Receivable) :
    incomplete requested effective failure input output inputBytes outputBytes noSession =
      .ok (incompleteReceipt requested effective failure input output inputBytes outputBytes
        noSession) := by
  have hnew := @new_eq_ok ⟨.incomplete failure ⟨none, none, inputBytes, outputBytes, 0⟩, requested,
    effective, ⟨input, output⟩, none, none, noSession, ["bran-agent-runtime".toList]⟩
    (Nat.le_of_ble_eq_true rfl) (validIdentity_provenance false) h.1 h.2 rfl
  unfold incomplete sealReceipt
  rw [show InvocationLifecycle.configured.incomplete = .ok ⟨.incomplete⟩ from rfl,
    show InvocationOutcome.new .incomplete (some failure)
      ⟨none, none, inputBytes, outputBytes, 0⟩ =
        .ok (.incomplete failure ⟨none, none, inputBytes, outputBytes, 0⟩) from rfl]
  exact mapError_eq_ok_iff.mpr hnew

theorem eq_incompleteReceipt {requested : RequestedExecution} {effective : EffectiveExecution}
    {failure : AgentFailure} {input output : Option SqzReceipt} {inputBytes outputBytes : ℕ} (h :
    incomplete requested effective failure input output inputBytes outputBytes noSession = .ok
    receipt) :
    receipt = incompleteReceipt requested effective failure input output inputBytes outputBytes
      noSession := by
  unfold incomplete at h
  obtain ⟨_, _, h₁⟩ := bind_eq_ok_iff.mp h
  obtain ⟨outcome, houtcome, h₂⟩ := bind_eq_ok_iff.mp h₁
  rw [eq_receiptOfParts (mapError_eq_ok_iff.mp h₂),
    ← ok.inj (mapError_eq_ok_iff.mp houtcome)]
  rfl

/-- What `complete` can be given. -/
structure Finished.Sealable (finished : Finished) : Prop where
  validating : finished.lifecycle.state = .validating
  inputTimed : SqzReceipt.Timed finished.input.receipt
  outputTimed : SqzReceipt.Timed finished.output.receipt
  input : acceptedSqz finished.input.receipt finished.input.payload = true
  output : acceptedSqz finished.output.receipt finished.output.payload = true
  answer : finished.inline.answer = finished.output.payload
  stored : finished.storedRef.resultId = ResultId.sha256 finished.inline.encodeCanonical

def completeReceipt (finished : Finished) (noSession grounded : Bool) : DelegationReceipt where
  schemaVersion := "bran-agent-receipt-v1".toList
  outcome := .complete ⟨finished.provider.actualInputTokens, finished.provider.actualOutputTokens,
    byteLen finished.input.payload, byteLen finished.output.payload, 0⟩
  requested := finished.requested
  effective := finished.effective
  sqz := ⟨some finished.input.receipt, some finished.output.receipt⟩
  inlineResult := some finished.inline
  storedRef := some finished.storedRef
  noSession := noSession
  provenance := "bran-agent-runtime".toList ::
    if grounded then ["bran-grounding-validated".toList] else []
  providerRunId := attestOption finished.provider.providerRunId

def completeParts (finished : Finished) (noSession grounded : Bool) : DelegationReceiptParts where
  outcome := .complete ⟨finished.provider.actualInputTokens, finished.provider.actualOutputTokens,
    byteLen finished.input.payload, byteLen finished.output.payload, 0⟩
  requested := finished.requested
  effective := finished.effective
  sqz := ⟨some finished.input.receipt, some finished.output.receipt⟩
  inlineResult := some finished.inline
  storedRef := some finished.storedRef
  noSession := noSession
  provenance := "bran-agent-runtime".toList ::
    if grounded then ["bran-grounding-validated".toList] else []

theorem checkOutcome_completeParts {grounded : Bool} (h : finished.Sealable) :
    DelegationReceipt.checkOutcome (completeParts finished noSession grounded) = .ok () := by
  unfold completeParts DelegationReceipt.checkOutcome DelegationReceipt.checkComplete
  dsimp only
  rw [failIf_eq_ok_iff, acceptedSqz_receipt h.input, acceptedSqz_receipt h.output, h.stored,
    h.answer]
  intro hrefused
  rcases hrefused with hfalse | hfalse | hfalse | ⟨hoff, hfalse⟩
  · cases hfalse
  · cases hfalse
  · exact hfalse rfl
  · rw [acceptedSqz_identifies h.output hoff] at hfalse
    cases hfalse

theorem complete_eq_ok {grounded : Bool} (h : finished.Sealable) :
    complete finished noSession grounded = .ok (completeReceipt finished noSession grounded) := by
  have hlength : (completeParts finished noSession grounded).provenance.length ≤ 128 := by
    cases grounded
    · exact Nat.le_of_ble_eq_true rfl
    · exact Nat.le_of_ble_eq_true rfl
  have hnew := new_eq_ok hlength (validIdentity_provenance grounded) (timed_some h.inputTimed)
    (timed_some h.outputTimed) (checkOutcome_completeParts h)
  have hrun : (attestOption finished.provider.providerRunId).refuses Receipt.isValidIdentity =
      false := attestOption_refuses finished.provider.validNames.1
  have hlifecycle : finished.lifecycle.complete = .ok ⟨.complete⟩ := if_pos h.validating
  unfold complete sealReceipt
  rw [hlifecycle]
  refine bind_eq_ok_iff.mpr ⟨_, rfl, bind_eq_ok_iff.mpr ⟨_, rfl, bind_eq_ok_iff.mpr ⟨_,
    mapError_eq_ok_iff.mpr hnew, mapError_eq_ok_iff.mpr ?_⟩⟩⟩
  unfold DelegationReceipt.withProviderRunId
  rw [check_bind_eq_ok_iff, failIf_eq_ok_iff, hrun]
  exact ⟨Bool.false_ne_true, rfl⟩

theorem eq_completeReceipt {grounded : Bool}
    (h : complete finished noSession grounded = .ok receipt) :
    receipt = completeReceipt finished noSession grounded := by
  unfold complete at h
  obtain ⟨_, _, h₁⟩ := bind_eq_ok_iff.mp h
  obtain ⟨outcome, houtcome, h₂⟩ := bind_eq_ok_iff.mp h₁
  obtain ⟨made, hmade, h₃⟩ := bind_eq_ok_iff.mp h₂
  have hrun := mapError_eq_ok_iff.mp h₃
  unfold DelegationReceipt.withProviderRunId at hrun
  rw [check_bind_eq_ok_iff, eq_receiptOfParts (mapError_eq_ok_iff.mp hmade),
    ← ok.inj (mapError_eq_ok_iff.mp houtcome)] at hrun
  exact (ok.inj hrun.2).symm

/-! ## Runs -/

/-- A run that finishes has passed the gates and gone through all stages. -/
theorem stages_ok (h : Runs (stages config request authority registry nowTick) trace (.ok finished)) :
    ∃ profile prepared answered before middle after,
      Gates config request authority registry profile ∧ trace = before ++ (middle ++ after) ∧
        Runs (prepare request (selectedOf request profile)) before (.ok prepared) ∧
        Runs (consult request registry (selectedOf request profile) prepared) middle
          (.ok answered) ∧
        Runs (finish request (selectedOf request profile) prepared answered nowTick) after
          (.ok finished) := by
  unfold stages at h
  obtain ⟨selected, hselected, h₁⟩ := runs_ofExcept_bind_ok.mp h
  obtain ⟨profile, gates, rfl⟩ := preflight_eq_ok_iff.mp hselected
  obtain ⟨before, prepared, rest, rfl, hprepare, h₂⟩ := runs_bind_ok.mp h₁
  obtain ⟨middle, answered, after, rfl, hconsult, hfinish⟩ := runs_bind_ok.mp h₂
  exact ⟨profile, prepared, answered, before, middle, after, gates, rfl, hprepare, hconsult,
    hfinish⟩

/-- The complete receipts of `invoke` are those of the runs that finish. -/
theorem invoke_complete {metrics : InvocationMetrics}
    (h : Runs (invoke config request authority registry nowTick) trace (.ok receipt))
    (hcomplete : receipt.outcome = .complete metrics) :
    ∃ finished, Runs (stages config request authority registry nowTick) trace (.ok finished) ∧
      receipt = completeReceipt finished request.noSession request.groundingContract.isSome := by
  obtain ⟨ended, hended, hreceipt⟩ := runs_conclude.mp h
  match ended with
  | .error .internal => cases hreceipt
  | .error (.incomplete _ _ _ _ _ _ _) =>
      rw [eq_incompleteReceipt hreceipt.symm] at hcomplete
      cases hcomplete
  | .ok finished => exact ⟨finished, hended, eq_completeReceipt hreceipt.symm⟩

/-- The other receipts of `invoke` hold no result. -/
theorem invoke_incomplete {failure : AgentFailure} {metrics : InvocationMetrics}
    (h : Runs (invoke config request authority registry nowTick) trace (.ok receipt))
    (hincomplete : receipt.outcome = .incomplete failure metrics) :
    receipt.inlineResult = none ∧ receipt.storedRef = none := by
  obtain ⟨ended, _, hreceipt⟩ := runs_conclude.mp h
  match ended with
  | .error .internal => cases hreceipt
  | .error (.incomplete _ _ _ _ _ _ _) =>
      rw [eq_incompleteReceipt hreceipt.symm]
      exact ⟨rfl, rfl⟩
  | .ok finished =>
      rw [eq_completeReceipt hreceipt.symm] at hincomplete
      cases hincomplete

/-- The first SQZ stage of a timed run has a timed receipt. -/
theorem timed_input {selected : Selected} {prepared : Prepared (K := K)}
    (htimed : ∀ event ∈ preparedEvents request selected prepared, TimedEvent event) :
    SqzReceipt.Timed prepared.input.receipt := by
  have hevent := htimed ⟨.evaluateWithAnchors .input request.prompt request.maxOutputBytes
    (groundingAnchors request), Except.ok prepared.input⟩ (by simp [preparedEvents])
  exact hevent prepared.input.receipt rfl

/-- Every early exit of a timed run becomes a receipt. -/
theorem failsWith_stages :
    FailsWith TimedEvent Exit.Receivable
      (stages config request authority registry nowTick : Coordination K Exit Finished) := by
  unfold stages
  refine failsWith_ofExcept_bind receivable_preflight fun selected _ => ?_
  refine failsWith_bind failsWith_prepare fun before prepared htimed hprepare => ?_
  obtain ⟨rfl, hchecked⟩ := prepare_ok hprepare
  have hinput := timed_input htimed
  refine failsWith_bind (failsWith_consult hchecked.lifecycle hinput) fun _ answered _ _ => ?_
  exact failsWith_finish hinput

/-- A run that finishes can be sealed. -/
theorem sealable_of_stages (htimed : ∀ event ∈ trace, TimedEvent event)
    (h : Runs (stages config request authority registry nowTick) trace (.ok finished)) :
    finished.Sealable := by
  obtain ⟨profile, prepared, answered, before, middle, after, _, rfl, hprepare, hconsult,
    hfinish⟩ := stages_ok h
  obtain ⟨rfl, hprepared⟩ := prepare_ok hprepare
  obtain ⟨claims, rfl, _, hconsulted⟩ := consult_ok hconsult
  obtain ⟨rest, rfl, hstored, hfinished⟩ := finish_ok hfinish
  have hinput : SqzReceipt.Timed prepared.input.receipt :=
    timed_input fun event hevent => htimed event (List.mem_append_left _ hevent)
  have houtput : SqzReceipt.Timed finished.output.receipt :=
    htimed ⟨.evaluate .output answered.output.answer request.maxOutputBytes,
      Except.ok finished.output⟩ (by simp) finished.output.receipt rfl
  have hlifecycle := hconsulted.lifecycle
  rw [hprepared.lifecycle] at hlifecycle
  refine ⟨?_, ?_, houtput, ?_, hfinished.accepted, ?_, hstored.result⟩
  · rw [hfinished.lifecycle, ← ok.inj hlifecycle]
  · rw [hfinished.input]
    exact hinput
  · rw [hfinished.input]
    exact hprepared.accepted
  · rw [hfinished.inline]

/-- A timed run always ends with a receipt. -/
theorem invoke_receipt {outcome : Except AgentRuntimeInternalError DelegationReceipt}
    (h : Runs (invoke config request authority registry nowTick) trace outcome)
    (htimed : ∀ event ∈ trace, TimedEvent event) : ∃ receipt, outcome = .ok receipt := by
  obtain ⟨ended, hended, rfl⟩ := runs_conclude.mp h
  match ended with
  | .error .internal => exact absurd (failsWith_stages _ _ htimed hended) id
  | .error (.incomplete _ _ _ _ _ _ _) =>
      exact ⟨_, incomplete_eq_ok (failsWith_stages _ _ htimed hended)⟩
  | .ok finished => exact ⟨_, complete_eq_ok (sealable_of_stages htimed hended)⟩

/-- A run that makes a call has passed the gates. -/
theorem gates_of_call {outcome : Except AgentRuntimeInternalError DelegationReceipt}
    (h : Runs (invoke config request authority registry nowTick) trace outcome)
    (hcall : trace ≠ []) : ∃ profile, Gates config request authority registry profile := by
  obtain ⟨ended, hended, _⟩ := runs_conclude.mp h
  rcases runs_bind.mp hended with ⟨exit, hexit, _⟩ | ⟨before, selected, after, _, hselected, _⟩
  · exact absurd (runs_ofExcept.mp hexit).1 hcall
  · obtain ⟨profile, gates, _⟩ := preflight_eq_ok_iff.mp (runs_ofExcept.mp hselected).2.symm
    exact ⟨profile, gates⟩

/-! ## Safety -/

/-- What a complete receipt rests on: the store has returned the bytes of its result and of every
artifact of the provider, and both SQZ stages have passed. -/
structure CompleteSafe (nowTick : ℕ) (trace : List (AgentEvent K)) (receipt : DelegationReceipt)
    (inline : InlineResult) (storedRef : StoredResultRef) (provided : ProviderOutput)
    (input output : SqzReceipt) : Prop where
  holdsInline : receipt.inlineResult = some inline
  holdsRef : receipt.storedRef = some storedRef
  holdsStages : receipt.sqz = ⟨some input, some output⟩
  answered : ∃ request credential,
    (⟨.provider request credential, Except.ok provided⟩ : AgentEvent K) ∈ trace
  stored : StoredChecked nowTick trace inline provided.artifacts storedRef
  passed : Receipt.acceptedSqz input = true ∧ Receipt.acceptedSqz output = true

/-- What holds of every invocation. -/
structure InvocationSafe (config : AgentRuntimeConfig) (request : DelegationRequest)
    (authority : AgentRuntimeAuthority) (registry : AgentProfileRegistry) (nowTick : ℕ)
    (trace : List (AgentEvent K))
    (outcome : Except AgentRuntimeInternalError DelegationReceipt) : Prop where
  receipt : ∃ receipt, outcome = .ok receipt
  gates : trace ≠ [] → ∃ profile, Gates config request authority registry profile
  complete : ∀ receipt metrics, outcome = .ok receipt → receipt.outcome = .complete metrics →
    ∃ inline storedRef provided input output,
      CompleteSafe nowTick trace receipt inline storedRef provided input output
  incomplete : ∀ receipt failure metrics, outcome = .ok receipt →
    receipt.outcome = .incomplete failure metrics →
      receipt.inlineResult = none ∧ receipt.storedRef = none

theorem StoredChecked.mono {inline : InlineResult} {artifacts : List LosslessArtifact}
    {storedRef : StoredResultRef} {rest : List (AgentEvent K)}
    (h : StoredChecked nowTick rest inline artifacts storedRef)
    (hsub : ∀ event ∈ rest, event ∈ trace) :
    StoredChecked nowTick trace inline artifacts storedRef :=
  ⟨h.result, h.artifactIds, hsub _ h.returned, fun artifact hartifact =>
    hsub _ (h.returnedArtifacts artifact hartifact)⟩

theorem completeSafe
    (h : Runs (stages config request authority registry nowTick) trace (.ok finished)) :
    CompleteSafe nowTick trace
      (completeReceipt finished request.noSession request.groundingContract.isSome)
      finished.inline finished.storedRef finished.provider finished.input.receipt
      finished.output.receipt := by
  obtain ⟨profile, prepared, answered, before, middle, after, _, rfl, hprepare, hconsult,
    hfinish⟩ := stages_ok h
  obtain ⟨rfl, hprepared⟩ := prepare_ok hprepare
  obtain ⟨claims, rfl, _, _⟩ := consult_ok hconsult
  obtain ⟨rest, rfl, hstored, hfinished⟩ := finish_ok hfinish
  refine ⟨rfl, rfl, rfl, ⟨prepared.providerRequest, prepared.credential, ?_⟩, ?_, ?_,
    acceptedSqz_receipt hfinished.accepted⟩
  · rw [hfinished.provider]
    simp
  · rw [hfinished.provider]
    refine hstored.mono fun event hevent => ?_
    simp [hevent]
  · rw [hfinished.input]
    exact acceptedSqz_receipt hprepared.accepted

/-- No run of the coordinator is unsafe, whatever the stores and ports answer. -/
theorem invoke_safe {outcome : Except AgentRuntimeInternalError DelegationReceipt}
    (h : Runs (invoke config request authority registry nowTick) trace outcome)
    (htimed : ∀ event ∈ trace, TimedEvent event) :
    InvocationSafe config request authority registry nowTick trace outcome := by
  refine ⟨invoke_receipt h htimed, gates_of_call h, ?_, ?_⟩
  · rintro receipt metrics rfl hcomplete
    obtain ⟨finished, hfinished, rfl⟩ := invoke_complete h hcomplete
    exact ⟨_, _, _, _, _, completeSafe hfinished⟩
  · rintro receipt failure metrics rfl hincomplete
    exact invoke_incomplete h hincomplete

/-! ## A complete run -/

def readerProfile : AgentProfile where
  name := "reader".toList
  provider := "local".toList
  model := "small".toList
  accountHandle := "main".toList
  defaultReasoningLevel := .low
  toolPolicy := .readOnlyDefault
  valid := by unfold AgentProfile.Valid; decide +kernel

def readerRegistry : AgentProfileRegistry where
  providers := {"local".toList}
  models := .ofList [("local".toList, {"small".toList})]
  profiles := .ofList [("reader".toList, readerProfile)]

def readerRequest (maxOutputBytes : ℕ) (h : 1 ≤ maxOutputBytes ∧ maxOutputBytes ≤ 1048576) :
    DelegationRequest where
  profile := "reader".toList
  prompt := "count".toList
  providerOverride := none
  modelOverride := none
  reasoningOverride := none
  toolPolicy := .readOnlyDefault
  noSession := false
  maxOutputBytes := maxOutputBytes
  hardTotalTokenCeiling := none
  maxOutputTokens := none
  delegationDepth := 0
  groundingContract := none
  validProfile := by decide +kernel
  validPrompt := by decide +kernel
  validOverrides := by simp
  validMaxOutput := h
  validBudget := by simp
  validDepth := by simp

/-- What the provider answers to it. -/
def readerOutput : ProviderOutput where
  answer := "twelve".toList
  citations := []
  claims := []
  providerRunId := none
  effectiveModel := none
  effectiveReasoning := none
  effectiveProfile := none
  effectiveProvider := none
  actualInputTokens := none
  actualOutputTokens := none
  enforcedTokenCeiling := none
  artifacts := []
  validAnswer := by decide +kernel
  validCitations := noCitations
  validClaims := noClaims
  validNames := by simp [validOptionalName]
  words := noTokens
  validCeiling := noCeiling
  validArtifacts := noArtifacts

def offReceipt (payload : Str) (maxOutputBytes : ℕ) (anchors : List PreservationAnchor) :
    SqzReceipt where
  schemaVersion := sqzReceiptSchemaVersion
  configuredIdentity := .approved
  returnedIdentity := none
  policy := .publicOff
  status := .off
  failureReason := none
  monotonicCallLatency := 0
  rawBytes := byteLen payload
  candidateCompressedBytes := none
  returnedBytes := byteLen payload
  rawTokenEstimate := (byteLen payload + 3) / 4
  candidateTokenEstimate := none
  returnedTokenEstimate := (byteLen payload + 3) / 4
  actualInputTokens := none
  actualOutputTokens := none
  fidelityStatus := .passed
  requiredFidelityAnchorIds := anchorIds anchors
  missingFidelityAnchorIds := []
  dlpStatus := .passed
  dlpFindings := []
  requestedMaxOutputBytes := maxOutputBytes
  effectiveMaxOutputBytes := maxOutputBytes
  sqzId := none

/-- A stage that is off returns its payload. -/
def offStage (payload : Str) (maxOutputBytes : ℕ) (anchors : List PreservationAnchor) :
    Except AgentSqzError AgentSqzOutput :=
  if h : isBlank payload = false ∧ byteLen payload ≤ 1048576 then
    .ok ⟨payload, offReceipt payload maxOutputBytes anchors, h⟩
  else .error ⟨.invalidOutput, none⟩

/-- Ports with SQZ off, a provider that answers with `output` and a store that holds its result. -/
def plainPorts (output : ProviderOutput) : (call : AgentCall Unit) → call.Answer
  | .ports => ()
  | .resolve _ => Except.ok ()
  | .evaluateWithAnchors _ payload maxOutputBytes anchors => offStage payload maxOutputBytes anchors
  | .evaluate _ payload maxOutputBytes => offStage payload maxOutputBytes []
  | .provider _ _ => Except.ok output
  | .limits => ⟨16, 4194304, 1048576, 100, by decide⟩
  | .putBatch payloads _ => Except.ok (payloads.map ResultId.sha256)
  | .get _ _ => Except.ok (InlineResult.encodeCanonical ⟨output.answer, output.citations,
      output.claims⟩)
  | .symlinkMetadata _ | .openFile _ | .metadata _ => none
  | .canonicalize _ => none
  | .readToEnd _ => none

theorem timed_plainPorts (output : ProviderOutput) (call : AgentCall Unit) :
    TimedEvent ⟨call, plainPorts output call⟩ := by
  have hoff (payload : Str) (maxOutputBytes : ℕ) (anchors : List PreservationAnchor) :
      ∀ receipt ∈ sqzReceipt? (offStage payload maxOutputBytes anchors),
        SqzReceipt.Timed receipt := by
    unfold offStage
    split_ifs
    · exact timed_some (Nat.zero_le _)
    · exact timed_none
  cases call with
  | evaluateWithAnchors _ payload maxOutputBytes anchors =>
      exact hoff payload maxOutputBytes anchors
  | evaluate _ payload maxOutputBytes => exact hoff payload maxOutputBytes []
  | _ => trivial

/-- The run of the request with these ports, in a trusted project. -/
def plainRun (maxOutputBytes : ℕ) (h : 1 ≤ maxOutputBytes ∧ maxOutputBytes ≤ 1048576)
    (output : ProviderOutput) :
    List (AgentEvent Unit) × Except AgentRuntimeInternalError DelegationReceipt :=
  (invoke ⟨true, 8, by decide⟩ (readerRequest maxOutputBytes h) ⟨false, true, false⟩
    readerRegistry 0).record (plainPorts output)

/-- The outcome is a complete receipt. -/
def isComplete : Except AgentRuntimeInternalError DelegationReceipt → Bool
  | .ok ⟨_, .complete _, _, _, _, _, _, _, _, _⟩ => true
  | _ => false

/-- A receipt of a complete outcome. -/
theorem exists_of_isComplete {outcome : Except AgentRuntimeInternalError DelegationReceipt}
    (h : isComplete outcome = true) :
    ∃ receipt metrics, outcome = .ok receipt ∧ receipt.outcome = .complete metrics := by
  match outcome with
  | .error _ => cases h
  | .ok ⟨_, .incomplete _ _, _, _, _, _, _, _, _, _⟩ => cases h
  | .ok ⟨_, .complete metrics, _, _, _, _, _, _, _, _⟩ => exact ⟨_, metrics, rfl, rfl⟩

theorem isComplete_plainRun : isComplete (plainRun 64 (by decide) readerOutput).2 = true := by
  decide +kernel

/-- A safe run that is complete. -/
theorem invoke_safe_reader :
    isComplete (plainRun 64 (by decide) readerOutput).2 = true ∧
      InvocationSafe ⟨true, 8, by decide⟩ (readerRequest 64 (by decide)) ⟨false, true, false⟩
        readerRegistry 0 (plainRun 64 (by decide) readerOutput).1
        (plainRun 64 (by decide) readerOutput).2 :=
  ⟨isComplete_plainRun, invoke_safe (runs_record _ _) (forall_mem_record (timed_plainPorts _) _)⟩

end Bran.Agent
