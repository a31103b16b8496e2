import Bran.Agent.GroundedCompletion

/-!
# Billing

An invocation asks the provider at most once and stores at most one batch.  When its receipt says
that the input stage failed, it has done neither: once the provider is asked, every receipt holds
the accepted receipt of the input stage.
-/

namespace Bran.Agent

open Text Validation Adapters Packet Program AgentCall

variable {K : Type} {config : AgentRuntimeConfig} {request : DelegationRequest}
  {authority : AgentRuntimeAuthority} {registry : AgentProfileRegistry} {nowTick : ℕ}
  {trace : List (AgentEvent K)}

/-! ## The calls that are counted -/

def AgentCall.isProvider : AgentCall K → Bool
  | .provider _ _ => true
  | _ => false

def AgentCall.isPutBatch : AgentCall K → Bool
  | .putBatch _ _ => true
  | _ => false

/-- A count that only calls of the provider raise, by at most `provider`, and calls that store a
batch, by at most `putBatch`. -/
structure CountsBilled (counts : AgentCall K → Bool) (provider putBatch : ℕ) : Prop where
  unbilled : ∀ call : AgentCall K, call.Unbilled → counts call = false
  provider : ∀ asked credential,
    (if counts (.provider asked credential) then 1 else 0) ≤ provider
  putBatch : ∀ payloads tick, (if counts (.putBatch payloads tick) then 1 else 0) ≤ putBatch

theorem countsBilled_isProvider : CountsBilled (isProvider (K := K)) 1 0 where
  unbilled call h := by
    cases call with
    | provider _ _ => exact absurd h id
    | _ => rfl
  provider _ _ := le_rfl
  putBatch _ _ := le_rfl

theorem countsBilled_isPutBatch : CountsBilled (isPutBatch (K := K)) 0 1 where
  unbilled call h := by
    cases call with
    | putBatch _ _ => exact absurd h id
    | _ => rfl
  provider _ _ := le_rfl
  putBatch _ _ := le_rfl

section Counts

variable {counts : AgentCall K → Bool} {provider putBatch : ℕ}

theorem asksOnly_prepare {selected : Selected} :
    AsksOnly Unbilled (prepare request selected : Coordination K Exit _) := by
  refine asksOnly_call_bind trivial fun _ => asksOnly_call_bind trivial fun _ => ?_
  refine asksOnly_bind asksOnly_ofExcept fun _ => asksOnly_call_bind trivial fun _ => ?_
  refine asksOnly_bind asksOnly_ofExcept fun _ => asksOnly_bind asksOnly_ofExcept fun _ => ?_
  refine asksOnly_bind asksOnly_ofExcept fun _ => asksOnly_bind asksOnly_ofExcept fun _ => ?_
  refine asksOnly_bind asksOnly_ofExcept fun _ => asksOnly_bind asksOnly_ofExcept fun _ => ?_
  exact asksOnly_pure

theorem asksAtMost_consult (hcounts : CountsBilled counts provider putBatch)
    {selected : Selected} {prepared : Prepared (K := K)} :
    AsksAtMost counts provider (consult request registry selected prepared) := by
  have hafter {output : ProviderOutput} {failed : Unit → Exit} : AsksOnly Unbilled
      ((groundedClaimsAccepted request output : Coordination K Unit _).conclude fun outcome =>
        outcome.mapError failed) := asksOnly_conclude asksOnly_groundedClaimsAccepted
  refine asksAtMost_call_bind (hcounts.provider _ _) fun answered => AsksOnly.atMost ?_
  refine AsksOnly.mono ?_ hcounts.unbilled
  refine asksOnly_bind asksOnly_ofExcept fun output => ?_
  refine asksOnly_bind asksOnly_ofExcept fun _ => asksOnly_bind asksOnly_ofExcept fun _ => ?_
  refine asksOnly_bind asksOnly_ofExcept fun _ => asksOnly_bind asksOnly_ofExcept fun _ => ?_
  exact asksOnly_bind hafter fun _ => asksOnly_bind asksOnly_ofExcept fun _ => asksOnly_pure

theorem asksAtMost_storeOutput (hcounts : CountsBilled counts provider putBatch)
    {inline : InlineResult} {artifacts : List LosslessArtifact} :
    AsksAtMost counts putBatch (storeOutput inline artifacts nowTick : Coordination K Unit _) := by
  have hlimits : AsksOnly (fun call => counts call = false)
      (askLimits : Coordination K Unit _) := asksOnly_call (hcounts.unbilled _ trivial)
  refine hlimits.bind_atMost fun limits => asksOnly_ofExcept.bind_atMost fun _ => ?_
  refine asksAtMost_call_bind (hcounts.putBatch _ _) fun put => AsksOnly.atMost ?_
  refine AsksOnly.mono ?_ hcounts.unbilled
  refine asksOnly_bind asksOnly_ofOption fun _ => asksOnly_bind asksOnly_ofExcept fun _ => ?_
  refine asksOnly_bind asksOnly_readBack fun _ => asksOnly_bind asksOnly_ofOption fun _ => ?_
  exact asksOnly_bind asksOnly_ofExcept fun _ => asksOnly_ofOption

theorem asksAtMost_finish (hcounts : CountsBilled counts provider putBatch)
    {selected : Selected} {prepared : Prepared (K := K)} {answered : Answered} :
    AsksAtMost counts putBatch (finish request selected prepared answered nowTick) := by
  have hsqz : AsksOnly (fun call => counts call = false)
      (askSqz .output answered.output.answer request.maxOutputBytes : Coordination K Exit _) :=
    asksOnly_call (hcounts.unbilled _ trivial)
  refine hsqz.bind_atMost fun evaluated => asksOnly_ofExcept.bind_atMost fun output => ?_
  refine asksOnly_ofExcept.bind_atMost fun _ => asksOnly_ofExcept.bind_atMost fun _ => ?_
  refine asksOnly_ofExcept.bind_atMost fun inline => ?_
  exact asksAtMost_bind (asksAtMost_conclude (asksAtMost_storeOutput hcounts)) fun _ =>
    asksOnly_pure.atMost

/-- What an invocation asks is what its stages ask. -/
theorem asksAtMost_invoke (hcounts : CountsBilled counts provider putBatch) :
    AsksAtMost counts (provider + putBatch)
      (invoke config request authority registry nowTick : Coordination K _ _) := by
  refine asksAtMost_conclude (asksOnly_ofExcept.bind_atMost fun selected => ?_)
  refine (asksOnly_prepare.mono hcounts.unbilled).bind_atMost fun prepared => ?_
  exact asksAtMost_bind (asksAtMost_consult hcounts) fun _ => asksAtMost_finish hcounts

end Counts

/-! ## Receipts of a failed input stage -/

/-- The exit holds a receipt of the input stage. -/
def Exit.Holds (input : SqzReceipt) : Exit → Prop
  | .internal => True
  | .incomplete _ _ _ held _ _ _ => held = some input

/-- The exits of `consult` hold the receipt of the input stage. -/
theorem holds_consult {selected : Selected} {prepared : Prepared (K := K)} :
    FailsWith (fun _ => True) (Exit.Holds prepared.input.receipt)
      (consult request registry selected prepared) := by
  unfold consult
  refine failsWith_call_bind fun answered _ => ?_
  refine failsWith_ofExcept_bind (fun exit h => ?_) fun output _ => ?_
  · obtain ⟨_, _, rfl⟩ := mapError_eq_error_iff.mp h
    rfl
  refine failsWith_ofExcept_bind (fun exit h => ?_) fun lifecycle _ => ?_
  · obtain ⟨_, _, rfl⟩ := mapError_eq_error_iff.mp h
    trivial
  refine failsWith_failIf_bind rfl fun _ => ?_
  refine failsWith_failIf_bind rfl fun _ => ?_
  refine failsWith_failIf_bind rfl fun _ => ?_
  refine failsWith_bind (failsWith_conclude_mapError fun _ => rfl) fun _ _ _ _ => ?_
  refine failsWith_ofExcept_bind (fun exit h => ?_) fun _ _ => failsWith_pure
  obtain ⟨_, _, rfl⟩ := mapError_eq_error_iff.mp h
  rfl

/-- The exits of `finish` hold the receipt of the input stage. -/
theorem holds_finish {selected : Selected} {prepared : Prepared (K := K)} {answered : Answered} :
    FailsWith (fun _ => True) (Exit.Holds prepared.input.receipt)
      (finish request selected prepared answered nowTick) := by
  unfold finish
  refine failsWith_call_bind fun evaluated _ => ?_
  refine failsWith_ofExcept_bind (fun exit h => ?_) fun output _ => ?_
  · obtain ⟨_, _, rfl⟩ := mapError_eq_error_iff.mp h
    rfl
  refine failsWith_failIf_bind rfl fun _ => failsWith_failIf_bind rfl fun _ => ?_
  refine failsWith_ofExcept_bind (fun exit h => ?_) fun inline _ => ?_
  · obtain ⟨_, _, rfl⟩ := mapError_eq_error_iff.mp h
    trivial
  exact failsWith_bind (failsWith_conclude_mapError fun _ => rfl) fun _ _ _ _ => failsWith_pure

def FailedInput (receipt : DelegationReceipt) : Prop :=
  ∃ failure metrics input, receipt.outcome = .incomplete failure metrics ∧
    receipt.sqz.input = some input ∧ input.failureReason ≠ none

theorem failureReason_of_accepted {selected : Selected} {prepared : Prepared (K := K)}
    (h : PrepareChecked request selected prepared) :
    prepared.input.receipt.failureReason = none := by
  have haccepted := h.accepted
  rw [acceptedSqz, Bool.and_eq_true, Bool.and_eq_true, passedSqz, Bool.and_eq_true,
    Bool.and_eq_true, Bool.and_eq_true] at haccepted
  exact Option.isNone_iff_eq_none.mp haccepted.1.1.1.1.1

/-- An exit with the receipt of a failed input stage comes before the call of the provider. -/
theorem unbilled_of_stages {requested : RequestedExecution} {effective : EffectiveExecution}
    {failure : AgentFailure} {input : SqzReceipt} {output : Option SqzReceipt}
    {inputBytes outputBytes : ℕ} (hfailed : input.failureReason ≠ none)
    (h : Runs (stages config request authority registry nowTick) trace
      (.error (.incomplete requested effective failure (some input) output inputBytes
        outputBytes))) : ∀ event ∈ trace, Unbilled event.1 := by
  unfold stages at h
  rcases runs_bind.mp h with ⟨_, hruns, _⟩ | ⟨before, selected, rest, rfl, hselected, h₁⟩
  · exact asksOnly_ofExcept _ _ hruns
  obtain ⟨rfl, _⟩ := runs_ofExcept.mp hselected
  rcases runs_bind.mp h₁ with ⟨_, hruns, _⟩ | ⟨first, prepared, later, rfl, hprepare, h₂⟩
  · exact asksOnly_prepare _ _ hruns
  -- what follows holds an accepted receipt, whose reason is `none`
  exfalso
  have hprepared := (prepare_ok hprepare).2
  have hheld : (some input : Option SqzReceipt) = some prepared.input.receipt := by
    rcases runs_bind.mp h₂ with ⟨_, hruns, hexit⟩ | ⟨middle, answered, last, rfl, _, hfinish⟩
    · cases hexit
      exact holds_consult _ _ (fun _ _ => trivial) hruns
    · exact holds_finish _ _ (fun _ _ => trivial) hfinish
  rw [Option.some.inj hheld] at hfailed
  exact hfailed (failureReason_of_accepted hprepared)

/-- An invocation whose receipt is one of a failed input stage has asked neither the provider nor
for a batch to be stored. -/
theorem unbilled_of_failedInput {receipt : DelegationReceipt}
    (h : Runs (invoke config request authority registry nowTick) trace (.ok receipt))
    (hfailed : FailedInput receipt) : ∀ event ∈ trace, Unbilled event.1 := by
  obtain ⟨failure, metrics, input, houtcome, hinput, hreason⟩ := hfailed
  obtain ⟨ended, hended, hreceipt⟩ := runs_conclude.mp h
  match ended with
  | .error .internal => cases hreceipt
  | .error (.incomplete _ _ _ held _ _ _) =>
      rw [eq_incompleteReceipt hreceipt.symm] at hinput
      obtain rfl : held = some input := hinput
      exact unbilled_of_stages hreason hended
  | .ok finished =>
      rw [eq_completeReceipt hreceipt.symm] at houtcome
      cases houtcome

end Bran.Agent
