import Bran.Agent.Coordinator

/-!
# The runs of the coordinator

What each stage of `invoke` has seen and checked when it succeeds, and what an exit carries when it
does not.  The results are about every run: a call may be answered by any value of its type.
-/

namespace Bran.Agent

open Text Validation Adapters Packet Program AgentCall List

variable {K : Type} {config : AgentRuntimeConfig} {request : DelegationRequest}
  {authority : AgentRuntimeAuthority} {registry : AgentProfileRegistry} {nowTick : ℕ}
  {trace : List (AgentEvent K)}

variable {selected : Selected}

/-! ## Before the first call -/

/-- What has to hold before the coordinator makes a call. -/
structure Gates (config : AgentRuntimeConfig) (request : DelegationRequest)
    (authority : AgentRuntimeAuthority) (registry : AgentProfileRegistry)
    (profile : AgentProfile) : Prop where
  enabled : config.enabled = true
  online : authority.explicitOffline = false
  trusted : authority.projectTrusted = true
  depth : request.delegationDepth ≤ config.maxDelegationDepth
  registered : registry.get request.profile = some profile
  provider : registry.hasProvider (request.providerOverride.getD profile.provider) = true
  model : registry.hasModel (request.providerOverride.getD profile.provider)
    (request.modelOverride.getD profile.model) = true
  tools : ∀ tool ∈ request.toolPolicy.allow, profile.toolPolicy.allows tool = true
  mutation : authority.mutationAuthorized = true ∨
    ∀ tool ∈ ["write", "edit", "shell", "network"], request.toolPolicy.allows tool.toList = false

/-- What a delegation requests of a profile. -/
def requestedExecution (request : DelegationRequest) (profile : AgentProfile) :
    RequestedExecution where
  profileName := request.profile
  provider := .attested (request.providerOverride.getD profile.provider)
  model := .attested (request.modelOverride.getD profile.model)
  reasoning := .attested (request.reasoningOverride.getD profile.defaultReasoningLevel)
  toolPolicy := request.toolPolicy

/-- What the checks before the first call select. -/
def selectedOf (request : DelegationRequest) (profile : AgentProfile) : Selected where
  profile := profile
  provider := request.providerOverride.getD profile.provider
  model := request.modelOverride.getD profile.model
  reasoning := request.reasoningOverride.getD profile.defaultReasoningLevel
  requested := requestedExecution request profile

theorem attestOption_refuses {valid : Str → Bool} {value : Option Str}
    (h : ∀ name ∈ value, valid name = true) : (attestOption value).refuses valid = false := by
  cases value with
  | none => rfl
  | some name =>
      have hname := h name rfl
      rw [attestOption, Attestation.refuses, hname]
      rfl

/-- An optional value that one of two others stands for. -/
theorem forall_mem_or {α : Type} {P : α → Prop} {first second : Option α}
    (hfirst : ∀ value ∈ first, P value) (hsecond : ∀ value ∈ second, P value) :
    ∀ value ∈ first.or second, P value := by
  cases first with
  | none => exact hsecond
  | some found => exact hfirst

theorem forall_mem_map {α β : Type} {P : β → Prop} {f : α → β} {value : Option α}
    (h : ∀ found ∈ value, P (f found)) : ∀ found ∈ value.map f, P found := by
  cases value with
  | none => intro found hfound; cases hfound
  | some item =>
      intro found hfound
      cases hfound
      exact h item rfl

/-- Identities that a request and its profile hold are accepted by the receipts. -/
theorem requestedOf_eq_ok {profile : Option AgentProfile} {provider model : Option Str}
    (hprovider : ∀ name ∈ provider, isValidIdentity name = true)
    (hmodel : ∀ name ∈ model, isValidIdentity name = true) :
    requestedOf request profile provider model = .ok {
      profileName := request.profile
      provider := attestOption <| provider.or <| request.providerOverride.or <|
        profile.map AgentProfile.provider
      model := attestOption <| model.or <| request.modelOverride.or <|
        profile.map AgentProfile.model
      reasoning := attestOption <| request.reasoningOverride.or <|
        profile.map AgentProfile.defaultReasoningLevel
      toolPolicy := request.toolPolicy } := by
  have hprofile : Receipt.isValidIdentity request.profile = true := request.validProfile
  have hproviders : (attestOption <| provider.or <| request.providerOverride.or <|
      profile.map AgentProfile.provider).refuses Receipt.isValidIdentity = false :=
    attestOption_refuses <| forall_mem_or hprovider <|
      forall_mem_or request.validOverrides.1 (forall_mem_map fun found _ => found.valid.2.1)
  have hmodels : (attestOption <| model.or <| request.modelOverride.or <|
      profile.map AgentProfile.model).refuses Receipt.isValidIdentity = false :=
    attestOption_refuses <| forall_mem_or hmodel <|
      forall_mem_or request.validOverrides.2 (forall_mem_map fun found _ => found.valid.2.2.1)
  unfold requestedOf internally
  rw [mapError_eq_ok_iff, RequestedExecution.withAttestations, check_bind_eq_ok_iff,
    failIf_eq_ok_iff, hprofile, hproviders, hmodels]
  exact ⟨by simp, rfl⟩

theorem forall_mem_none {P : Str → Prop} : ∀ name ∈ (none : Option Str), P name := by
  intro name h
  cases h

theorem validIdentity_provider (profile : AgentProfile) :
    isValidIdentity (request.providerOverride.getD profile.provider) = true := by
  cases h : request.providerOverride with
  | none => exact profile.valid.2.1
  | some name => exact request.validOverrides.1 name h

theorem validIdentity_model (profile : AgentProfile) :
    isValidIdentity (request.modelOverride.getD profile.model) = true := by
  cases h : request.modelOverride with
  | none => exact profile.valid.2.2.1
  | some name => exact request.validOverrides.2 name h

theorem requestedOf_profile (profile : AgentProfile) :
    requestedOf request (some profile) (some (request.providerOverride.getD profile.provider))
      (some (request.modelOverride.getD profile.model)) =
        .ok (requestedExecution request profile) := by
  rw [requestedOf_eq_ok
    (fun name h => by cases h; exact validIdentity_provider profile)
    (fun name h => by cases h; exact validIdentity_model profile), requestedExecution]
  cases request.reasoningOverride <;> rfl

theorem deniedTool_eq_false_iff {requested profile : ToolPolicy} :
    deniedTool requested profile = false ↔
      ∀ tool ∈ requested.allow, profile.allows tool = true := by
  rw [deniedTool, decide_eq_false_iff_not]
  push Not
  exact forall₂_congr fun tool _ => by rw [ne_eq, Bool.not_eq_false]

theorem mutationRequested_eq_false_iff {policy : ToolPolicy} :
    mutationRequested policy = false ↔
      ∀ tool ∈ ["write", "edit", "shell", "network"], policy.allows tool.toList = false := by
  rw [mutationRequested, any_eq_false]
  exact forall₂_congr fun tool _ => by rw [Bool.not_eq_true]

theorem refuseTool_eq_ok_iff {profile : AgentProfile} {denied : Bool} :
    refuseTool request profile denied = .ok () ↔ denied = false := by
  cases denied with
  | false => exact ⟨fun _ => rfl, fun _ => rfl⟩
  | true =>
      rw [refuseTool, if_pos rfl, requestedOf_eq_ok forall_mem_none forall_mem_none]
      exact ⟨fun h => (by cases h), fun h => (by cases h)⟩

theorem orExit_eq_ok_iff {α : Type} {value : Option α} {exit : Exit} {result : α} :
    orExit value exit = .ok result ↔ value = some result := by
  cases value with
  | none => exact ⟨fun h => (by cases h), fun h => (by cases h)⟩
  | some found => exact ⟨fun h => (by cases h; rfl), fun h => (by cases h; rfl)⟩

/-- The checks before the first call pass exactly at open gates. -/
theorem preflight_eq_ok_iff :
    preflight config request authority registry = .ok selected ↔
      ∃ profile, Gates config request authority registry profile ∧
        selected = selectedOf request profile := by
  unfold preflight
  rw [requestedOf_eq_ok forall_mem_none forall_mem_none, ok_bind, check_bind_eq_ok_iff,
    check_bind_eq_ok_iff, check_bind_eq_ok_iff, check_bind_eq_ok_iff, failIf_eq_ok_iff,
    failIf_eq_ok_iff, failIf_eq_ok_iff, failIf_eq_ok_iff, bind_eq_ok_iff]
  constructor
  · intro h
    obtain ⟨henabled, honline, htrusted, hdepth, profile, hprofile, h⟩ := h
    rw [check_bind_eq_ok_iff, check_bind_eq_ok_iff, refuseTool_eq_ok_iff, refuseTool_eq_ok_iff] at h
    dsimp only at h
    rw [requestedOf_profile, ok_bind, check_bind_eq_ok_iff, check_bind_eq_ok_iff,
      failIf_eq_ok_iff, failIf_eq_ok_iff] at h
    obtain ⟨hdenied, hmutation, hprovider, hmodel, hselected⟩ := h
    refine ⟨profile, ⟨?_, ?_, ?_, ?_, ?_, ?_, ?_, ?_, ?_⟩, ?_⟩
    · simpa using henabled
    · simpa using honline
    · simpa using htrusted
    · omega
    · exact orExit_eq_ok_iff.mp hprofile
    · simpa using hprovider
    · simpa using hmodel
    · exact deniedTool_eq_false_iff.mp hdenied
    · rw [Bool.and_eq_false_iff, Bool.not_eq_false'] at hmutation
      exact hmutation.imp_right mutationRequested_eq_false_iff.mp
    · cases hselected
      rfl
  · intro h
    obtain ⟨profile, gates, rfl⟩ := h
    refine ⟨by simp [gates.enabled], by simp [gates.online], by simp [gates.trusted],
      by have := gates.depth; omega, profile, orExit_eq_ok_iff.mpr gates.registered, ?_⟩
    rw [check_bind_eq_ok_iff, check_bind_eq_ok_iff, refuseTool_eq_ok_iff, refuseTool_eq_ok_iff]
    dsimp only
    rw [requestedOf_profile, ok_bind, check_bind_eq_ok_iff, check_bind_eq_ok_iff,
      failIf_eq_ok_iff, failIf_eq_ok_iff]
    refine ⟨deniedTool_eq_false_iff.mpr gates.tools, ?_, by simp [gates.provider],
      by simp [gates.model], rfl⟩
    rw [Bool.and_eq_false_iff, Bool.not_eq_false']
    exact gates.mutation.imp_right mutationRequested_eq_false_iff.mpr

/-! ## Exits -/

/-- A latency that a receipt can hold. -/
def SqzReceipt.Timed (receipt : SqzReceipt) : Prop := receipt.monotonicCallLatency ≤ u64Max

/-- The receipt in an answer of the SQZ port. -/
def sqzReceipt? : Except AgentSqzError AgentSqzOutput → Option SqzReceipt
  | .ok output => some output.receipt
  | .error error => error.receipt

/-- An event whose SQZ receipt, if it has one, holds a latency below `2^64`. -/
def TimedEvent : AgentEvent K → Prop
  | ⟨.evaluateWithAnchors _ _ _ _, answer⟩ | ⟨.evaluate _ _ _, answer⟩ =>
      ∀ receipt ∈ sqzReceipt? answer, SqzReceipt.Timed receipt
  | _ => True

def Exit.Receivable : Exit → Prop
  | .internal => False
  | .incomplete _ _ _ input output _ _ =>
      (∀ receipt ∈ input, SqzReceipt.Timed receipt) ∧ ∀ receipt ∈ output, SqzReceipt.Timed receipt

theorem timed_none : ∀ receipt ∈ (none : Option SqzReceipt), SqzReceipt.Timed receipt := by
  intro receipt h
  cases h

theorem timed_some {receipt : SqzReceipt} (h : SqzReceipt.Timed receipt) :
    ∀ found ∈ some receipt, SqzReceipt.Timed found := by
  intro found hfound
  cases hfound
  exact h

theorem receivable_early (requested : RequestedExecution) (failure : AgentFailure) :
    (Exit.early request requested failure).Receivable := ⟨timed_none, timed_none⟩

theorem receivable_refuseTool {profile : AgentProfile} {denied : Bool} :
    ∀ exit, refuseTool request profile denied = .error exit → exit.Receivable := by
  cases denied with
  | false => intro exit h; cases h
  | true =>
      intro exit h
      rw [refuseTool, if_pos rfl, requestedOf_eq_ok forall_mem_none forall_mem_none] at h
      cases h
      exact receivable_early _ _

theorem receivable_orExit {α : Type} {value : Option α} {exit : Exit} (h : exit.Receivable) :
    ∀ found, orExit value exit = .error found → found.Receivable := by
  intro found hfound
  cases value with
  | none =>
      cases hfound
      exact h
  | some result => cases hfound

theorem receivable_preflight :
    ∀ exit, preflight config request authority registry = .error exit → exit.Receivable := by
  unfold preflight
  rw [requestedOf_eq_ok forall_mem_none forall_mem_none, ok_bind]
  refine forall_error_bind (forall_error_failIf (receivable_early _ _)) fun _ _ => ?_
  refine forall_error_bind (forall_error_failIf (receivable_early _ _)) fun _ _ => ?_
  refine forall_error_bind (forall_error_failIf (receivable_early _ _)) fun _ _ => ?_
  refine forall_error_bind (forall_error_failIf (receivable_early _ _)) fun _ _ => ?_
  refine forall_error_bind (receivable_orExit (receivable_early _ _)) fun profile _ => ?_
  refine forall_error_bind receivable_refuseTool fun _ _ => ?_
  refine forall_error_bind receivable_refuseTool fun _ _ => ?_
  dsimp only
  rw [requestedOf_profile, ok_bind]
  refine forall_error_bind (forall_error_failIf (receivable_early _ _)) fun _ _ => ?_
  refine forall_error_bind (forall_error_failIf (receivable_early _ _)) fun _ _ => ?_
  intro exit h
  cases h

/-! ## From the factory to the provider -/

/-- The anchors that the first SQZ stage preserves. -/
def groundingAnchors (request : DelegationRequest) : List PreservationAnchor :=
  (request.groundingContract.map fun contract => contract.preservationAnchors).getD []

/-- What `prepare` has asked. -/
def preparedEvents (request : DelegationRequest) (selected : Selected)
    (prepared : Prepared (K := K)) : List (AgentEvent K) :=
  [⟨.ports, ()⟩, ⟨.resolve selected.profile.accountHandle, Except.ok prepared.credential⟩,
    ⟨.evaluateWithAnchors .input request.prompt request.maxOutputBytes (groundingAnchors request),
      Except.ok prepared.input⟩]

/-- What `prepare` has checked. -/
structure PrepareChecked (request : DelegationRequest) (selected : Selected)
    (prepared : Prepared (K := K)) : Prop where
  grounded : groundingInputAccepted request prepared.input = true
  accepted : acceptedSqz prepared.input.receipt prepared.input.payload = true
  made : providerRequest request selected prepared.input = .ok prepared.providerRequest
  lifecycle : prepared.lifecycle = ⟨.running⟩

theorem prepare_ok {prepared : Prepared (K := K)}
    (h : Runs (prepare request selected) trace (.ok prepared)) :
    trace = preparedEvents request selected prepared ∧ PrepareChecked request selected prepared := by
  unfold prepare at h
  obtain ⟨_, trace₁, rfl, h₁⟩ := runs_call_bind_ok.mp h
  obtain ⟨resolved, trace₂, rfl, h₂⟩ := runs_call_bind_ok.mp h₁
  obtain ⟨credential, hcredential, h₃⟩ := runs_ofExcept_bind_ok.mp h₂
  obtain ⟨evaluated, trace₃, rfl, h₄⟩ := runs_call_bind_ok.mp h₃
  obtain ⟨input, hinput, h₅⟩ := runs_ofExcept_bind_ok.mp h₄
  obtain ⟨hgrounded, h₆⟩ := runs_failIf_bind_ok.mp h₅
  obtain ⟨haccepted, h₇⟩ := runs_failIf_bind_ok.mp h₆
  obtain ⟨made, hmade, h₈⟩ := runs_ofExcept_bind_ok.mp h₇
  obtain ⟨ready, hready, h₉⟩ := runs_ofExcept_bind_ok.mp h₈
  obtain ⟨running, hrunning, h₁₀⟩ := runs_ofExcept_bind_ok.mp h₉
  obtain ⟨rfl, hprepared⟩ := runs_pure.mp h₁₀
  cases hprepared
  cases hready
  cases hrunning
  rw [mapError_eq_ok_iff.mp hcredential, mapError_eq_ok_iff.mp hinput]
  refine ⟨rfl, ⟨?_, ?_, mapError_eq_ok_iff.mp hmade, rfl⟩⟩
  · simpa using hgrounded
  · simpa using haccepted

theorem receivable_selected {failure : AgentFailure} {input : Option SqzReceipt} {inputBytes : ℕ}
    (h : ∀ receipt ∈ input, SqzReceipt.Timed receipt) :
    (Exit.selected request selected failure input inputBytes).Receivable := ⟨h, timed_none⟩

theorem failsWith_prepare :
    FailsWith TimedEvent Exit.Receivable (prepare request selected : Coordination K Exit _) := by
  unfold prepare
  refine failsWith_call_bind fun _ _ => failsWith_call_bind fun resolved _ => ?_
  refine failsWith_ofExcept_bind (fun exit hexit => ?_) fun credential _ => ?_
  · obtain ⟨_, _, rfl⟩ := mapError_eq_error_iff.mp hexit
    exact receivable_selected timed_none
  refine failsWith_call_bind fun evaluated htimed => ?_
  refine failsWith_ofExcept_bind (fun exit hexit => ?_) fun input hinput => ?_
  · obtain ⟨error, herror, rfl⟩ := mapError_eq_error_iff.mp hexit
    refine receivable_selected fun receipt hreceipt => htimed receipt ?_
    rw [herror]
    exact hreceipt
  have hreceipt : SqzReceipt.Timed input.receipt := by
    refine htimed input.receipt ?_
    rw [mapError_eq_ok_iff.mp hinput]
    rfl
  refine failsWith_failIf_bind (receivable_selected (timed_some hreceipt)) fun _ => ?_
  refine failsWith_failIf_bind (receivable_selected (timed_some hreceipt)) fun _ => ?_
  refine failsWith_ofExcept_bind (fun exit hexit => ?_) fun made _ => ?_
  · obtain ⟨_, _, rfl⟩ := mapError_eq_error_iff.mp hexit
    exact receivable_selected (timed_some hreceipt)
  refine failsWith_ofExcept_bind (fun exit hexit => nomatch hexit) fun ready hready => ?_
  refine failsWith_ofExcept_bind (fun exit hexit => ?_) fun running _ => failsWith_pure
  cases hready
  cases hexit

/-! ## From the provider to the token budget -/

/-- What `consult` has checked. -/
structure ConsultChecked (request : DelegationRequest) (registry : AgentProfileRegistry)
    (selected : Selected) (prepared : Prepared (K := K)) (answered : Answered) : Prop where
  safe : safeProviderSurfaces answered.output = true
  citations : groundedCitationsAccepted request answered.output.citations = true
  effective : answered.effective = providerEffective selected.profile selected.provider
    answered.output request.toolPolicy registry
  attested : request.groundingContract.isSome = true →
    groundingExecutionAttested selected.requested answered.effective = true
  budget : enforcedTokenBudget request answered.output = .ok ()
  lifecycle : prepared.lifecycle.advance .validating = .ok answered.lifecycle

theorem consult_ok {prepared : Prepared (K := K)} {answered : Answered}
    (h : Runs (consult request registry selected prepared) trace (.ok answered)) :
    ∃ rest, trace = ⟨.provider prepared.providerRequest prepared.credential,
        Except.ok answered.output⟩ :: rest ∧
      Runs (groundedClaimsAccepted request answered.output) rest (.ok ()) ∧
      ConsultChecked request registry selected prepared answered := by
  unfold consult at h
  obtain ⟨provided, trace₁, rfl, h₁⟩ := runs_call_bind_ok.mp h
  obtain ⟨output, houtput, h₂⟩ := runs_ofExcept_bind_ok.mp h₁
  obtain ⟨lifecycle, hlifecycle, h₃⟩ := runs_ofExcept_bind_ok.mp h₂
  obtain ⟨hsafe, h₄⟩ := runs_failIf_bind_ok.mp h₃
  obtain ⟨hcitations, h₅⟩ := runs_failIf_bind_ok.mp h₄
  obtain ⟨hattested, h₆⟩ := runs_failIf_bind_ok.mp h₅
  obtain ⟨before, _, after, rfl, hclaims, h₇⟩ := runs_bind_ok.mp h₆
  obtain ⟨_, hbudget, h₈⟩ := runs_ofExcept_bind_ok.mp h₇
  obtain ⟨rfl, hanswered⟩ := runs_pure.mp h₈
  cases hanswered
  rw [mapError_eq_ok_iff.mp houtput]
  refine ⟨before, by rw [append_nil], runs_conclude_mapError_ok.mp hclaims, ?_⟩
  refine ⟨?_, ?_, rfl, ?_, mapError_eq_ok_iff.mp hbudget, mapError_eq_ok_iff.mp hlifecycle⟩
  · simpa using hsafe
  · simpa using hcitations
  · intro hgrounded
    rw [not_and, Bool.not_eq_false] at hattested
    exact hattested hgrounded

theorem receivable_answered {effective : EffectiveExecution} {input : AgentSqzOutput}
    {failure : AgentFailure} {output : Option SqzReceipt} {outputBytes : ℕ}
    (hinput : SqzReceipt.Timed input.receipt)
    (houtput : ∀ receipt ∈ output, SqzReceipt.Timed receipt) :
    (Exit.answered selected effective input failure output outputBytes).Receivable :=
  ⟨timed_some hinput, houtput⟩

theorem failsWith_consult {prepared : Prepared (K := K)}
    (hrunning : prepared.lifecycle = ⟨.running⟩) (hinput : SqzReceipt.Timed prepared.input.receipt) :
    FailsWith TimedEvent Exit.Receivable (consult request registry selected prepared) := by
  unfold consult
  have hexit {effective : EffectiveExecution} {failure : AgentFailure} :
      (Exit.answered selected effective prepared.input failure none 0).Receivable :=
    receivable_answered hinput timed_none
  refine failsWith_call_bind fun answered _ => ?_
  refine failsWith_ofExcept_bind (fun exit h => ?_) fun output _ => ?_
  · obtain ⟨_, _, rfl⟩ := mapError_eq_error_iff.mp h
    exact hexit
  refine failsWith_ofExcept_bind (fun exit h => ?_) fun lifecycle _ => ?_
  · rw [hrunning] at h
    cases h
  refine failsWith_failIf_bind hexit fun _ => ?_
  refine failsWith_failIf_bind hexit fun _ => ?_
  refine failsWith_failIf_bind hexit fun _ => ?_
  refine failsWith_bind (failsWith_conclude_mapError fun _ => hexit) fun _ _ _ _ => ?_
  refine failsWith_ofExcept_bind (fun exit h => ?_) fun _ _ => failsWith_pure
  obtain ⟨_, _, rfl⟩ := mapError_eq_error_iff.mp h
  exact hexit

/-! ## From the second SQZ stage to the store -/

/-- The store has answered a read with a payload. -/
def Returned (nowTick : ℕ) (id : ResultId) (payload : List UInt8) (trace : List (AgentEvent K)) :
    Prop :=
  (⟨.get id nowTick, Except.ok payload⟩ : AgentEvent K) ∈ trace

theorem readBack_ok {pairs : List (ResultId × List UInt8)}
    (h : Runs (readBack nowTick pairs) trace (.ok ())) :
    ∀ pair ∈ pairs, Returned nowTick pair.1 pair.2 trace := by
  induction pairs generalizing trace with
  | nil => intro pair hpair; cases hpair
  | cons first rest ih =>
      obtain ⟨found, tail, rfl, h₁⟩ := runs_call_bind_ok.mp h
      obtain ⟨hfound, h₂⟩ := runs_failIf_bind_ok.mp h₁
      have hreturned : found = Except.ok first.2 := toOption_eq_some_iff.mp (not_not.mp hfound)
      intro pair hpair
      rcases mem_cons.mp hpair with rfl | hpair
      · rw [Returned, hreturned]
        exact mem_cons_self
      · exact mem_cons_of_mem _ (ih h₂ pair hpair)

/-- A list that agrees with the image of another, entry by entry. -/
theorem eq_map_of_zip {α β : Type} {f : β → α} {ids : List α} {items : List β}
    (hlength : ids.length = items.length) (h : ∀ entry ∈ ids.zip items, entry.1 = f entry.2) :
    ids = items.map f := by
  induction ids generalizing items with
  | nil =>
      rw [length_eq_zero_iff.mp hlength.symm]
      rfl
  | cons id rest ih =>
      cases items with
      | nil => cases hlength
      | cons item items =>
          have hrest : rest = items.map f := ih (Nat.succ.inj hlength) fun entry hentry =>
            h entry (mem_cons_of_mem _ hentry)
          have hid : id = f item := h (id, item) mem_cons_self
          rw [map_cons, ← hid, ← hrest]

/-- What a stored result rests on. -/
structure StoredChecked (nowTick : ℕ) (trace : List (AgentEvent K)) (inline : InlineResult)
    (artifacts : List LosslessArtifact) (storedRef : StoredResultRef) : Prop where
  result : storedRef.resultId = ResultId.sha256 inline.encodeCanonical
  artifactIds : storedRef.artifactIds = artifacts.map fun artifact => artifact.id
  returned : Returned nowTick storedRef.resultId inline.encodeCanonical trace
  returnedArtifacts : ∀ artifact ∈ artifacts, Returned nowTick artifact.id artifact.bytes trace

theorem storeOutput_ok {inline : InlineResult} {artifacts : List LosslessArtifact}
    {storedRef : StoredResultRef}
    (h : Runs (storeOutput inline artifacts nowTick) trace (.ok storedRef)) :
    StoredChecked nowTick trace inline artifacts storedRef := by
  unfold storeOutput at h
  obtain ⟨limits, trace₁, rfl, h₁⟩ := runs_call_bind_ok.mp h
  obtain ⟨_, h₂⟩ := runs_failIf_bind_ok.mp h₁
  obtain ⟨put, trace₂, rfl, h₃⟩ := runs_call_bind_ok.mp h₂
  obtain ⟨storedIds, _, h₄⟩ := runs_ofOption_bind_ok.mp h₃
  obtain ⟨hstored, h₅⟩ := runs_failIf_bind_ok.mp h₄
  obtain ⟨before, _, after, rfl, hread, h₆⟩ := runs_bind_ok.mp h₅
  obtain ⟨resultId, hresult, h₇⟩ := runs_ofOption_bind_ok.mp h₆
  obtain ⟨hartifacts, h₈⟩ := runs_failIf_bind_ok.mp h₇
  obtain ⟨rfl, hnew⟩ := runs_ofOption_ok.mp h₈
  rw [not_or, not_not, not_not] at hstored
  obtain ⟨hlength, hhead⟩ := hstored
  -- the identities that the store returned are those of the batch
  obtain ⟨rest, rfl⟩ : ∃ rest, storedIds = resultId :: rest := by
    cases storedIds with
    | nil => cases hresult
    | cons id rest =>
        cases hresult
        exact ⟨rest, rfl⟩
  have hid : resultId = ResultId.sha256 inline.encodeCanonical := Option.some.inj hhead
  have hrest : rest = artifacts.map fun artifact => artifact.id := by
    refine eq_map_of_zip (by simpa using hlength) fun entry hentry => ?_
    by_contra hne
    exact hartifacts ⟨entry, hentry, hne⟩
  have href : storedRef = ⟨resultId, rest⟩ := by
    have hnew := toOption_eq_some_iff.mp hnew
    rw [StoredResultRef.new, check_bind_eq_ok_iff] at hnew
    exact (Except.ok.inj hnew.2).symm
  have hreturned := readBack_ok hread
  rw [href]
  refine ⟨hid, hrest, ?_, fun artifact hartifact => ?_⟩
  · have hfirst := hreturned (resultId, inline.encodeCanonical) mem_cons_self
    rw [Returned] at hfirst ⊢
    simp [hfirst]
  · have hpair : (artifact.id, artifact.bytes) ∈ rest.zip (artifacts.map fun a => a.bytes) := by
      rw [hrest, zip_map', mem_map]
      exact ⟨artifact, hartifact, rfl⟩
    have hfirst := hreturned _ (mem_cons_of_mem _ hpair)
    rw [Returned] at hfirst ⊢
    simp [hfirst]

/-- What `finish` has checked. -/
structure FinishChecked (request : DelegationRequest) (selected : Selected)
    (prepared : Prepared (K := K)) (answered : Answered) (finished : Finished) : Prop where
  accepted : acceptedSqz finished.output.receipt finished.output.payload = true
  unchanged : request.groundingContract.isSome = true →
    finished.output.payload = answered.output.answer
  inline : finished.inline =
    ⟨finished.output.payload, answered.output.citations, answered.output.claims⟩
  lifecycle : finished.lifecycle = answered.lifecycle
  requested : finished.requested = selected.requested
  effective : finished.effective = answered.effective
  input : finished.input = prepared.input
  provider : finished.provider = answered.output

theorem finish_ok {prepared : Prepared (K := K)} {answered : Answered} {finished : Finished}
    (h : Runs (finish request selected prepared answered nowTick) trace (.ok finished)) :
    ∃ rest, trace = ⟨.evaluate .output answered.output.answer request.maxOutputBytes,
        Except.ok finished.output⟩ :: rest ∧
      StoredChecked nowTick rest finished.inline answered.output.artifacts finished.storedRef ∧
      FinishChecked request selected prepared answered finished := by
  unfold finish at h
  obtain ⟨evaluated, trace₁, rfl, h₁⟩ := runs_call_bind_ok.mp h
  obtain ⟨output, houtput, h₂⟩ := runs_ofExcept_bind_ok.mp h₁
  obtain ⟨haccepted, h₃⟩ := runs_failIf_bind_ok.mp h₂
  obtain ⟨hunchanged, h₄⟩ := runs_failIf_bind_ok.mp h₃
  obtain ⟨inline, hinline, h₅⟩ := runs_ofExcept_bind_ok.mp h₄
  obtain ⟨before, storedRef, after, rfl, hstored, h₆⟩ := runs_bind_ok.mp h₅
  obtain ⟨rfl, hfinished⟩ := runs_pure.mp h₆
  cases hfinished
  rw [mapError_eq_ok_iff.mp houtput]
  refine ⟨before, by rw [append_nil], storeOutput_ok (runs_conclude_mapError_ok.mp hstored),
    ?_⟩
  refine ⟨by simpa using haccepted, fun hgrounded => ?_, ?_, rfl, rfl, rfl, rfl, rfl⟩
  · rw [not_and, not_not] at hunchanged
    exact hunchanged hgrounded
  · exact (withClaims_eq_ok_iff.mp (mapError_eq_ok_iff.mp hinline)).2.2.2.2

theorem failsWith_finish {prepared : Prepared (K := K)} {answered : Answered}
    (hinput : SqzReceipt.Timed prepared.input.receipt) :
    FailsWith TimedEvent Exit.Receivable (finish request selected prepared answered nowTick) := by
  unfold finish
  refine failsWith_call_bind fun evaluated htimed => ?_
  refine failsWith_ofExcept_bind (fun exit h => ?_) fun output houtput => ?_
  · obtain ⟨error, herror, rfl⟩ := mapError_eq_error_iff.mp h
    refine receivable_answered hinput fun receipt hreceipt => htimed receipt ?_
    rw [herror]
    exact hreceipt
  have hreceipt : SqzReceipt.Timed output.receipt := by
    refine htimed output.receipt ?_
    rw [mapError_eq_ok_iff.mp houtput]
    rfl
  have hexit {failure : AgentFailure} {outputBytes : ℕ} :
      (Exit.answered selected answered.effective prepared.input failure (some output.receipt)
        outputBytes).Receivable :=
    receivable_answered hinput (timed_some hreceipt)
  refine failsWith_failIf_bind hexit fun _ => failsWith_failIf_bind hexit fun _ => ?_
  refine failsWith_ofExcept_bind (fun exit h => ?_) fun inline _ => ?_
  · -- the limits of an inline result are those of an SQZ output and of a provider output
    rw [internally, mapError_eq_error_iff] at h
    obtain ⟨error, herror, _⟩ := h
    rw [withClaims_eq_ok_iff.mpr ⟨output.valid, answered.output.validCitations.1,
      answered.output.validCitations.2, answered.output.validClaims.1, rfl⟩] at herror
    cases herror
  exact failsWith_bind (failsWith_conclude_mapError fun _ => hexit) fun _ _ _ _ => failsWith_pure

end Bran.Agent
