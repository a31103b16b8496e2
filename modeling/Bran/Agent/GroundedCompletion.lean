import Bran.Agent.InvocationSafety

/-!
# Grounded completion

A complete run of a request with a grounding contract says only what the current files say.  The
loop over the claims keeps the files it has read: what it remembers for a locator was read in this
run and has the admitted digest, so a claim that is checked against the memory is checked against
the file.
-/

namespace Bran.Agent

open Text Validation Adapters Packet Program AgentCall List
open Bool (and_eq_true not_eq_false)

variable {K : Type} {config : AgentRuntimeConfig} {request : DelegationRequest}
  {authority : AgentRuntimeAuthority} {registry : AgentProfileRegistry} {nowTick : ℕ}
  {trace : List (AgentEvent K)} {contract : GroundingContract} {root : Files.Path}

variable {content : List UInt8} {current : OrdMap Str (List UInt8)} {output : ProviderOutput}

/-! ## The current files -/

def locatorNames (locator : Str) : List Str := (components locator).filterMap Component.name?

/-- The run has read a content from the file that a locator names below the root. -/
def CurrentFile (root : Files.Path) (trace : List (AgentEvent K)) (locator : Str)
    (content : List UInt8) : Prop :=
  ∃ canonical, root <+: canonical ∧ canonical ≠ root ∧
    (⟨.canonicalize (root ++ locatorNames locator), some canonical⟩ : AgentEvent K) ∈ trace ∧
    (⟨.readToEnd canonical, some content⟩ : AgentEvent K) ∈ trace

theorem CurrentFile.mono {locator : Str} {rest : List (AgentEvent K)}
    (h : CurrentFile root rest locator content) (hsub : ∀ event ∈ rest, event ∈ trace) :
    CurrentFile root trace locator content := by
  obtain ⟨canonical, hbelow, hne, hcanonical, hread⟩ := h
  exact ⟨canonical, hbelow, hne, hsub _ hcanonical, hsub _ hread⟩

theorem walkComponents_ok {names : List Str} {joined result : Files.Path}
    (h : Runs (walkComponents joined names) trace (.ok result)) : result = joined ++ names := by
  induction names generalizing trace joined with
  | nil =>
      cases (runs_pure.mp h).2
      rw [append_nil]
  | cons name rest ih =>
      obtain ⟨found, trace₁, rfl, h₁⟩ := runs_call_bind_ok.mp h
      obtain ⟨metadata, _, h₂⟩ := runs_ofOption_bind_ok.mp h₁
      obtain ⟨_, h₃⟩ := runs_failIf_bind_ok.mp h₂
      rw [ih h₃, append_assoc, singleton_append]

theorem readCanonical_ok {found : Metadata} {canonical : Files.Path}
    (h : Runs (readCanonical found canonical) trace (.ok content)) :
    (⟨.readToEnd canonical, some content⟩ : AgentEvent K) ∈ trace := by
  unfold readCanonical at h
  obtain ⟨opened?, trace₁, rfl, h₁⟩ := runs_call_bind_ok.mp h
  obtain ⟨opened, _, h₂⟩ := runs_ofOption_bind_ok.mp h₁
  obtain ⟨_, h₃⟩ := runs_failIf_bind_ok.mp h₂
  obtain ⟨content?, trace₂, rfl, h₄⟩ := runs_call_bind_ok.mp h₃
  obtain ⟨full, hfull, h₅⟩ := runs_ofOption_bind_ok.mp h₄
  obtain ⟨hsize, h₆⟩ := runs_failIf_bind_ok.mp h₅
  obtain ⟨final?, trace₃, rfl, h₇⟩ := runs_call_bind_ok.mp h₆
  obtain ⟨final, _, h₈⟩ := runs_ofOption_bind_ok.mp h₇
  obtain ⟨_, h₉⟩ := runs_failIf_bind_ok.mp h₈
  obtain ⟨rfl, hcontent⟩ := runs_pure.mp h₉
  cases hcontent
  -- a file that is not cut off is read as a whole
  have hwhole : full.take (maxFileBytes + 1) = full := by
    rw [length_take] at hsize
    exact take_of_length_le (by omega)
  rw [hwhole, hfull]
  simp

theorem readCurrentFile_ok {locator : Str}
    (h : Runs (readCurrentFile root locator) trace (.ok content)) :
    CurrentFile root trace locator content := by
  unfold readCurrentFile at h
  obtain ⟨_, h₁⟩ := runs_failIf_bind_ok.mp h
  obtain ⟨before, joined, after, rfl, hwalk, h₂⟩ := runs_bind_ok.mp h₁
  obtain ⟨found?, trace₁, rfl, h₃⟩ := runs_call_bind_ok.mp h₂
  obtain ⟨found, _, h₄⟩ := runs_ofOption_bind_ok.mp h₃
  obtain ⟨_, h₅⟩ := runs_failIf_bind_ok.mp h₄
  obtain ⟨canonical?, trace₂, rfl, h₆⟩ := runs_call_bind_ok.mp h₅
  obtain ⟨canonical, hcanonical, h₇⟩ := runs_ofOption_bind_ok.mp h₆
  obtain ⟨hbelow, h₈⟩ := runs_failIf_bind_ok.mp h₇
  rw [not_or, not_not] at hbelow
  have hread := readCanonical_ok h₈
  refine ⟨canonical, hbelow.1, hbelow.2, ?_, by simp [hread]⟩
  rw [walkComponents_ok hwalk, hcanonical]
  simp [locatorNames]

/-! ## The claims -/

/-- What supports a claim: a file that the contract admits under the digest of the claim, and whose
current bytes contain the support. -/
structure Supported (contract : GroundingContract) (root : Files.Path)
    (trace : List (AgentEvent K)) (claim : SupportClaim) (admitted : AdmittedEvidence)
    (content : List UInt8) : Prop where
  long : minClaimSupportBytes ≤ byteLen (trim claim.support)
  found : contract.admittedEvidenceFor claim.locator = some admitted
  claimed : claim.contentDigest = admitted.contentDigest
  digest : (ResultId.sha256 content).value = admitted.contentDigest
  current : CurrentFile root trace claim.locator content
  support : bytes claim.support <:+: content

/-- What the loop remembers was read in this run and has the admitted digest. -/
def Remembers (contract : GroundingContract) (root : Files.Path) (past : List (AgentEvent K))
    (current : OrdMap Str (List UInt8)) : Prop :=
  ∀ locator content, current.find? locator = some content →
    CurrentFile root past locator content ∧ ∀ admitted,
      contract.admittedEvidenceFor locator = some admitted →
        (ResultId.sha256 content).value = admitted.contentDigest

variable {past : List (AgentEvent K)} {claims : List SupportClaim}

theorem remembers_empty :
    Remembers contract root past OrdMap.empty := by
  intro locator content h
  cases h

theorem admitsClaim_eq_true_iff {count : ℕ} {claim : SupportClaim} :
    admitsClaim contract count claim = true ↔
      count ≤ 128 ∧ minClaimSupportBytes ≤ byteLen (trim claim.support) ∧
        byteLen claim.support ≤ 65536 ∧
        ∃ admitted, contract.admittedEvidenceFor claim.locator = some admitted ∧
          claim.contentDigest = admitted.contentDigest := by
  rw [admitsClaim, and_eq_true, and_eq_true, and_eq_true, decide_eq_true_iff,
    decide_eq_true_iff, decide_eq_true_iff, Option.any_eq_true]
  simp only [beq_iff_eq, and_assoc]

/-- The bytes that a claim is checked against, whether they were remembered or are read now. -/
theorem currentContent_ok {claim : SupportClaim} {admitted : AdmittedEvidence}
    (hremembers : Remembers contract root past current)
    (hadmitted : contract.admittedEvidenceFor claim.locator = some admitted)
    (hclaimed : claim.contentDigest = admitted.contentDigest)
    (h : Runs (currentContent root current claim) trace (.ok content)) :
    CurrentFile root (past ++ trace) claim.locator content ∧
      (ResultId.sha256 content).value = admitted.contentDigest := by
  unfold currentContent at h
  cases hfind : current.find? claim.locator with
  | some remembered =>
      rw [hfind] at h
      obtain ⟨rfl, hcontent⟩ := runs_pure.mp h
      cases hcontent
      obtain ⟨hfile, hdigest⟩ := hremembers claim.locator content hfind
      exact ⟨hfile.mono fun event hevent => mem_append_left _ hevent,
        hdigest admitted hadmitted⟩
  | none =>
      rw [hfind] at h
      obtain ⟨before, read, after, rfl, hread, h₁⟩ := runs_bind_ok.mp h
      obtain ⟨hdigest, h₂⟩ := runs_failIf_bind_ok.mp h₁
      obtain ⟨rfl, hcontent⟩ := runs_pure.mp h₂
      cases hcontent
      rw [not_not] at hdigest
      refine ⟨(readCurrentFile_ok hread).mono fun event hevent => ?_, hdigest.trans hclaimed⟩
      simp [hevent]

/-- The loop over the claims: every claim is supported by what was read until the end. -/
theorem verifyClaims_ok {count : ℕ} (hremembers : Remembers contract root past current)
    (h : Runs (verifyClaims contract root claims count current) trace (.ok ())) :
    ∀ claim ∈ claims, ∃ admitted content,
      Supported contract root (past ++ trace) claim admitted content := by
  induction claims generalizing trace past count current with
  | nil => intro claim hclaim; cases hclaim
  | cons first rest ih =>
      unfold verifyClaims at h
      obtain ⟨hadmits, h₁⟩ := runs_failIf_bind_ok.mp h
      obtain ⟨before, content, after, rfl, hcontent, h₂⟩ := runs_bind_ok.mp h₁
      obtain ⟨hsupport, h₃⟩ := runs_failIf_bind_ok.mp h₂
      rw [not_eq_false, admitsClaim_eq_true_iff] at hadmits
      obtain ⟨_, hlong, _, admitted, hadmitted, hclaimed⟩ := hadmits
      obtain ⟨hfile, hdigest⟩ := currentContent_ok hremembers hadmitted hclaimed hcontent
      -- the memory with the new content
      have hnext : Remembers contract root (past ++ before)
          (current.insert first.locator content) := by
        intro locator remembered hfind
        rw [OrdMap.find?_insert] at hfind
        split_ifs at hfind with hlocator
        · cases hfind
          rw [← hlocator]
          refine ⟨hfile, fun other hother => ?_⟩
          rw [hadmitted] at hother
          cases hother
          exact hdigest
        · obtain ⟨hold, hdigests⟩ := hremembers locator remembered hfind
          exact ⟨hold.mono fun event hevent => mem_append_left _ hevent, hdigests⟩
      have hrest := ih hnext h₃
      rw [append_assoc] at hrest
      intro claim hclaim
      rcases mem_cons.mp hclaim with rfl | hclaim
      · refine ⟨admitted, content, hlong, hadmitted, hclaimed, hdigest, hfile.mono ?_,
          not_not.mp hsupport⟩
        intro event hevent
        rw [← append_assoc]
        exact mem_append_left _ hevent
      · exact hrest claim hclaim

theorem verifiesSupport_ok (h : Runs (verifiesSupport contract claims) trace (.ok ())) :
    ∃ root, contract.repositoryRoot = some root ∧ ∀ claim ∈ claims, ∃ admitted content,
      Supported contract root trace claim admitted content := by
  unfold verifiesSupport at h
  obtain ⟨root, hroot, h₁⟩ := runs_ofOption_bind_ok.mp h
  have hremembers : Remembers contract root ([] : List (AgentEvent K)) OrdMap.empty :=
    remembers_empty
  exact ⟨root, hroot, verifyClaims_ok hremembers h₁⟩

/-- What the support of a provider's claim is checked by. -/
def supportClaim (claim : ProviderClaim) : SupportClaim :=
  ⟨claim.locator, claim.contentDigest, claim.support⟩

/-- A claim that says what the current file says. -/
structure GroundedClaim (contract : GroundingContract) (trace : List (AgentEvent K))
    (citations : List Str) (claim : ProviderClaim) : Prop where
  material : claim.material = true
  text : claim.text = claim.support
  cited : claim.locator ∈ citations
  supported : ∃ root admitted content, contract.repositoryRoot = some root ∧
    Supported contract root trace (supportClaim claim) admitted content

theorem groundedClaimsAccepted_ok (hcontract : request.groundingContract = some contract)
    (h : Runs (groundedClaimsAccepted request output) trace (.ok ())) :
    output.answer = join ['\n'] (output.claims.map fun claim => claim.text) ∧
      output.claims ≠ [] ∧
      ∀ claim ∈ output.claims, GroundedClaim contract trace output.citations claim := by
  unfold groundedClaimsAccepted at h
  rw [hcontract] at h
  obtain ⟨hchecked, h₁⟩ := runs_failIf_bind_ok.mp h
  rw [not_or, not_or, not_or, not_not, not_eq_false, not_eq_false, all_eq_true]
    at hchecked
  obtain ⟨_, hnonempty, hanswer, hclaims⟩ := hchecked
  obtain ⟨root, hroot, hsupported⟩ := verifiesSupport_ok h₁
  refine ⟨hanswer, hnonempty, fun claim hclaim => ?_⟩
  have hgrounded := hclaims claim hclaim
  rw [groundedClaim, and_eq_true, and_eq_true, beq_iff_eq, decide_eq_true_iff]
    at hgrounded
  obtain ⟨admitted, content, hsupport⟩ :=
    hsupported (supportClaim claim) (mem_map.mpr ⟨claim, hclaim, rfl⟩)
  exact ⟨hgrounded.1.1, hgrounded.1.2, hgrounded.2, root, admitted, content, hroot, hsupport⟩

/-! ## What the provider is asked -/

def AgentCall.NotProvider : AgentCall K → Prop
  | .provider _ _ => False
  | _ => True

/-- The call is neither one of the provider nor one that stores a batch. -/
def AgentCall.Unbilled : AgentCall K → Prop
  | .provider _ _ | .putBatch _ _ => False
  | _ => True

theorem AgentCall.Unbilled.notProvider : ∀ call : AgentCall K, call.Unbilled → call.NotProvider
  | .provider _ _, h => h
  | .putBatch _ _, _ | .ports, _ | .resolve _, _ | .evaluateWithAnchors _ _ _ _, _
  | .evaluate _ _ _, _ | .limits, _ | .get _ _, _ | .symlinkMetadata _, _ | .canonicalize _, _
  | .openFile _, _ | .readToEnd _, _ | .metadata _, _ => trivial

theorem asksOnly_walkComponents {joined : Files.Path} {names : List Str} :
    AsksOnly Unbilled (walkComponents joined names : Coordination K Unit _) := by
  induction names generalizing joined with
  | nil => exact asksOnly_pure
  | cons name rest ih =>
      refine asksOnly_call_bind trivial fun _ => asksOnly_bind asksOnly_ofOption fun _ => ?_
      exact asksOnly_bind asksOnly_ofExcept fun _ => ih

theorem asksOnly_readCanonical {found : Metadata} {canonical : Files.Path} :
    AsksOnly Unbilled (readCanonical found canonical : Coordination K Unit _) := by
  refine asksOnly_call_bind trivial fun _ => asksOnly_bind asksOnly_ofOption fun _ => ?_
  refine asksOnly_bind asksOnly_ofExcept fun _ => asksOnly_call_bind trivial fun _ => ?_
  refine asksOnly_bind asksOnly_ofOption fun _ => asksOnly_bind asksOnly_ofExcept fun _ => ?_
  refine asksOnly_call_bind trivial fun _ => asksOnly_bind asksOnly_ofOption fun _ => ?_
  exact asksOnly_bind asksOnly_ofExcept fun _ => asksOnly_pure

theorem asksOnly_readCurrentFile {locator : Str} :
    AsksOnly Unbilled (readCurrentFile root locator : Coordination K Unit _) := by
  refine asksOnly_bind asksOnly_ofExcept fun _ => asksOnly_bind asksOnly_walkComponents fun _ => ?_
  refine asksOnly_call_bind trivial fun _ => asksOnly_bind asksOnly_ofOption fun _ => ?_
  refine asksOnly_bind asksOnly_ofExcept fun _ => asksOnly_call_bind trivial fun _ => ?_
  refine asksOnly_bind asksOnly_ofOption fun _ => asksOnly_bind asksOnly_ofExcept fun _ => ?_
  exact asksOnly_readCanonical

theorem asksOnly_currentContent {claim : SupportClaim} :
    AsksOnly Unbilled (currentContent root current claim : Coordination K Unit _) := by
  unfold currentContent
  cases current.find? claim.locator with
  | some content => exact asksOnly_pure
  | none =>
      refine asksOnly_bind asksOnly_readCurrentFile fun _ => ?_
      exact asksOnly_bind asksOnly_ofExcept fun _ => asksOnly_pure

theorem asksOnly_verifyClaims {count : ℕ} :
    AsksOnly Unbilled (verifyClaims contract root claims count current : Coordination K Unit _)
    := by
  induction claims generalizing count current with
  | nil => exact asksOnly_ofExcept
  | cons claim rest ih =>
      refine asksOnly_bind asksOnly_ofExcept fun _ => ?_
      refine asksOnly_bind asksOnly_currentContent fun _ => ?_
      exact asksOnly_bind asksOnly_ofExcept fun _ => ih

theorem asksOnly_groundedClaimsAccepted :
    AsksOnly Unbilled (groundedClaimsAccepted request output : Coordination K Unit _) := by
  unfold groundedClaimsAccepted
  cases request.groundingContract with
  | none => exact asksOnly_pure
  | some contract =>
      refine asksOnly_bind asksOnly_ofExcept fun _ => ?_
      exact asksOnly_bind asksOnly_ofOption fun _ => asksOnly_verifyClaims

theorem asksOnly_readBack {pairs : List (ResultId × List UInt8)} :
    AsksOnly Unbilled (readBack nowTick pairs : Coordination K Unit _) := by
  induction pairs with
  | nil => exact asksOnly_pure
  | cons pair rest ih =>
      refine asksOnly_call_bind trivial fun _ => ?_
      exact asksOnly_bind asksOnly_ofExcept fun _ => ih

theorem asksOnly_storeOutput {inline : InlineResult} {artifacts : List LosslessArtifact} :
    AsksOnly NotProvider (storeOutput inline artifacts nowTick : Coordination K Unit _) := by
  refine asksOnly_call_bind trivial fun _ => asksOnly_bind asksOnly_ofExcept fun _ => ?_
  refine asksOnly_call_bind trivial fun _ => asksOnly_bind asksOnly_ofOption fun _ => ?_
  refine asksOnly_bind asksOnly_ofExcept fun _ => ?_
  refine asksOnly_bind (asksOnly_readBack.mono Unbilled.notProvider) fun _ => ?_
  refine asksOnly_bind asksOnly_ofOption fun _ => asksOnly_bind asksOnly_ofExcept fun _ => ?_
  exact asksOnly_ofOption

theorem asksOnly_finish {selected : Selected} {prepared : Prepared (K := K)}
    {answered : Answered} :
    AsksOnly NotProvider (finish request selected prepared answered nowTick) := by
  refine asksOnly_call_bind trivial fun _ => asksOnly_bind asksOnly_ofExcept fun _ => ?_
  refine asksOnly_bind asksOnly_ofExcept fun _ => asksOnly_bind asksOnly_ofExcept fun _ => ?_
  refine asksOnly_bind asksOnly_ofExcept fun _ => ?_
  exact asksOnly_bind (asksOnly_conclude asksOnly_storeOutput) fun _ => asksOnly_pure

/-! ## What is attested -/

theorem eq_of_attestsEqual {α : Type} [DecidableEq α] {requested : α} {effective : Attestation α}
    (h : attestsEqual (.attested requested) effective = true) : effective = .attested requested := by
  cases effective with
  | unavailable => cases h
  | attested value => rw [beq_iff_eq.mp h]

/-- A provider that attests what was requested. -/
theorem eq_of_attested {profile : AgentProfile} {requested : RequestedExecution}
    {provider model : Str} {reasoning : ReasoningLevel} (hrequested : requested = ⟨request.profile,
    .attested provider, .attested model, .attested reasoning, request.toolPolicy⟩) (h :
    groundingExecutionAttested requested (providerEffective profile provider output
    request.toolPolicy registry) = true) :
    profile.name = request.profile ∧
      providerEffective profile provider output request.toolPolicy registry =
        ⟨.attested profile, .attested provider, .attested model, .attested reasoning,
          request.toolPolicy⟩ := by
  rw [hrequested, groundingExecutionAttested, and_eq_true, and_eq_true,
    and_eq_true] at h
  obtain ⟨⟨⟨hprofile, hprovider⟩, hmodel⟩, hreasoning⟩ := h
  have hattested : (providerEffective profile provider output request.toolPolicy registry).profile =
      .attested profile ∧ profile.name = request.profile := by
    have hcases : (providerEffective profile provider output request.toolPolicy registry).profile =
        .attested profile ∨
          (providerEffective profile provider output request.toolPolicy registry).profile =
            .unavailable := by
      unfold providerEffective
      dsimp only
      split_ifs
      · exact .inl rfl
      · exact .inr rfl
    rcases hcases with hcase | hcase
    · rw [hcase] at hprofile
      exact ⟨hcase, beq_iff_eq.mp hprofile⟩
    · rw [hcase] at hprofile
      cases hprofile
  refine ⟨hattested.2, ?_⟩
  have hp := hattested.1
  have hv := eq_of_attestsEqual hprovider
  have hm := eq_of_attestsEqual hmodel
  have hr := eq_of_attestsEqual hreasoning
  generalize heffective :
    providerEffective profile provider output request.toolPolicy registry = effective at *
  have ht : effective.toolPolicy = request.toolPolicy := by
    rw [← heffective]
    rfl
  obtain ⟨_, _, _, _, _⟩ := effective
  cases hp
  cases hv
  cases hm
  cases hr
  cases ht
  rfl

/-! ## Completion -/

/-- What a complete receipt of a grounded request says. -/
structure GroundedComplete (request : DelegationRequest) (registry : AgentProfileRegistry)
    (trace : List (AgentEvent K)) (contract : GroundingContract) (receipt : DelegationReceipt)
    (inline : InlineResult) (profile : AgentProfile) : Prop where
  holdsInline : receipt.inlineResult = some inline
  answer : inline.answer = join ['\n'] (inline.claims.map fun claim => claim.text)
  nonempty : inline.claims ≠ []
  claims : ∀ claim ∈ inline.claims, GroundedClaim contract trace inline.citations claim
  citations : ∀ citation ∈ inline.citations, citation ∈ contract.admittedCitationLocators
  asked : ∃ asked credential answer,
    (⟨.provider asked credential, answer⟩ : AgentEvent K) ∈ trace
  anchors : ∀ asked credential answer,
    (⟨.provider asked credential, answer⟩ : AgentEvent K) ∈ trace →
      ∀ anchor ∈ contract.preservationAnchors, anchor.value <:+: asked.prompt
  registered : registry.get request.profile = some profile ∧ profile.name = request.profile
  effective : receipt.effective = ⟨.attested profile,
    .attested (request.providerOverride.getD profile.provider),
    .attested (request.modelOverride.getD profile.model),
    .attested (request.reasoningOverride.getD profile.defaultReasoningLevel), request.toolPolicy⟩
  requested : receipt.requested = requestedExecution request profile

theorem prompt_providerRequest {selected : Selected} {input : AgentSqzOutput}
    {made : ProviderRequest} (h : providerRequest request selected input = .ok made) :
    made.prompt = input.payload := by
  unfold providerRequest at h
  obtain ⟨first, hfirst, h₁⟩ := bind_eq_ok_iff.mp h
  have hprompt : first.prompt = input.payload := by
    unfold ProviderRequest.new at hfirst
    iterate 6 rw [check_bind_eq_ok_iff] at hfirst
    rw [← Except.ok.inj hfirst.2.2.2.2.2.2]
  dsimp only at h₁
  split at h₁
  · unfold ProviderRequest.withTokenBudget at h₁
    rw [check_bind_eq_ok_iff] at h₁
    rw [← Except.ok.inj h₁.2]
    exact hprompt
  · unfold ProviderRequest.withTotalTokenCeiling at h₁
    rw [check_bind_eq_ok_iff] at h₁
    rw [← Except.ok.inj h₁.2]
    exact hprompt
  · rw [← Except.ok.inj h₁]
    exact hprompt
  · cases h₁

theorem anchors_of_groundingInputAccepted {input : AgentSqzOutput}
    (hcontract : request.groundingContract = some contract)
    (h : groundingInputAccepted request input = true) :
    ∀ anchor ∈ contract.preservationAnchors, anchor.value <:+: input.payload := by
  unfold groundingInputAccepted at h
  rw [hcontract] at h
  intro anchor hanchor
  have hall := all_eq_true.mp h anchor hanchor
  rw [and_eq_true, and_eq_true] at hall
  exact of_decide_eq_true hall.1.1

theorem citations_of_groundedCitationsAccepted {citations : List Str}
    (hcontract : request.groundingContract = some contract)
    (h : groundedCitationsAccepted request citations = true) :
    ∀ citation ∈ citations, citation ∈ contract.admittedCitationLocators := by
  unfold groundedCitationsAccepted at h
  rw [hcontract] at h
  rw [and_eq_true] at h
  intro citation hcitation
  have hall := all_eq_true.mp h.2 citation hcitation
  rw [and_eq_true] at hall
  exact of_decide_eq_true hall.2

/-- The run asks the provider once. -/
theorem mem_provider_iff {selected : Selected} {prepared : Prepared (K := K)}
    {claims rest : List (AgentEvent K)} {asked : ProviderRequest} {credential : K}
    {answer : Except ProviderError ProviderOutput} (hclaims : ∀ event ∈ claims, NotProvider event.1)
    (hrest : ∀ event ∈ rest, NotProvider event.1) (h : (⟨.provider asked credential, answer⟩ :
    AgentEvent K) ∈ preparedEvents request selected prepared ++ (⟨.provider prepared.providerRequest
    prepared.credential, Except.ok output⟩ :: claims ++ rest)) :
    asked = prepared.providerRequest := by
  rcases mem_append.mp h with h | h
  · simp only [preparedEvents, mem_cons, not_mem_nil, or_false] at h
    rcases h with h | h | h
    · cases h
    · cases h
    · cases h
  rcases mem_append.mp h with h | h
  · rcases mem_cons.mp h with h | h
    · cases h
      rfl
    · exact absurd (hclaims _ h) id
  · exact absurd (hrest _ h) id

/-- A grounded request is completed only by what the current files say. -/
theorem grounded_completion {receipt : DelegationReceipt} {metrics : InvocationMetrics}
    (hcontract : request.groundingContract = some contract)
    (h : Runs (invoke config request authority registry nowTick) trace (.ok receipt))
    (hcomplete : receipt.outcome = .complete metrics) :
    ∃ inline profile,
      GroundedComplete request registry trace contract receipt inline profile := by
  obtain ⟨finished, hstages, rfl⟩ := invoke_complete h hcomplete
  obtain ⟨profile, prepared, answered, before, middle, after, gates, rfl, hprepare, hconsult,
    hfinish⟩ := stages_ok hstages
  obtain ⟨rfl, hprepared⟩ := prepare_ok hprepare
  have hafter := asksOnly_finish _ _ hfinish
  obtain ⟨claims, rfl, hclaims, hconsulted⟩ := consult_ok hconsult
  have hmiddle := (asksOnly_groundedClaimsAccepted.mono Unbilled.notProvider) _ _ hclaims
  obtain ⟨rest, rfl, _, hfinished⟩ := finish_ok hfinish
  have hgrounded : request.groundingContract.isSome = true := by rw [hcontract]; rfl
  obtain ⟨hanswer, hnonempty, hsupported⟩ := groundedClaimsAccepted_ok hcontract hclaims
  have hattested := hconsulted.attested hgrounded
  rw [hconsulted.effective] at hattested
  obtain ⟨hname, heffective⟩ := eq_of_attested rfl hattested
  refine ⟨finished.inline, profile, ?_⟩
  have hinline := hfinished.inline
  refine ⟨rfl, ?_, ?_, ?_, ?_, ⟨prepared.providerRequest, prepared.credential,
    Except.ok answered.output, ?_⟩, ?_, ⟨gates.registered, hname⟩, ?_, ?_⟩
  · rw [hinline, hfinished.unchanged hgrounded]
    exact hanswer
  · rw [hinline]
    exact hnonempty
  · rw [hinline]
    intro claim hclaim
    obtain ⟨hmaterial, htext, hcited, root, admitted, content, hroot, hsupport⟩ :=
      hsupported claim hclaim
    refine ⟨hmaterial, htext, hcited, root, admitted, content, hroot, hsupport.long,
      hsupport.found, hsupport.claimed, hsupport.digest, hsupport.current.mono ?_,
      hsupport.support⟩
    intro event hevent
    simp [hevent]
  · rw [hinline]
    exact citations_of_groundedCitationsAccepted hcontract hconsulted.citations
  · simp
  · intro asked credential answer hevent
    rw [mem_provider_iff hmiddle hafter hevent, prompt_providerRequest hprepared.made]
    exact anchors_of_groundingInputAccepted hcontract hprepared.grounded
  · exact hfinished.effective.trans (hconsulted.effective.trans heffective)
  · exact hfinished.requested

/-! ## A grounded run -/

/-- The content of a file. -/
def noteText : Str := "twelve moons".toList

def noteDigest : Str :=
  "cf4272329c0b1e64940b94395a59903d0fb1452468c7af23a813b0ec8cfbc45b".toList

/-- A contract that admits the file. -/
def noteContract : GroundingContract where
  admittedCitationLocators := ["a.md".toList]
  admittedEvidence := [⟨"a.md".toList, noteDigest, by decide +kernel, by decide +kernel⟩]
  repositoryRoot := some ["repo".toList]
  preservationAnchors := [⟨"task".toList, "count".toList, by decide⟩]
  sortedLocators := by simp
  sortedEvidence := by simp

def noteRequest : DelegationRequest :=
  { readerRequest 64 (by decide) with groundingContract := some noteContract }

/-- An answer that quotes the file. -/
def noteOutput : ProviderOutput :=
  { readerOutput with
    answer := noteText
    citations := ["a.md".toList]
    claims := [⟨"m".toList, noteText, true, "a.md".toList, noteDigest,
      noteText, by unfold ProviderClaim.Valid; decide +kernel⟩]
    effectiveModel := some "small".toList
    effectiveReasoning := some "low".toList
    effectiveProfile := some "reader".toList
    effectiveProvider := some "local".toList
    validAnswer := by decide +kernel
    validCitations := by
      refine ⟨by decide, fun citation hcitation => ?_⟩
      rw [mem_singleton.mp hcitation, validCitation]
      decide +kernel
    validClaims := by simp
    validNames := by
      refine ⟨?_, ?_, ?_, ?_, ?_⟩
      · intro name h
        cases h
      · rintro _ ⟨⟩
        decide +kernel
      · rintro _ ⟨⟩
        decide +kernel
      · rintro _ ⟨⟩
        decide +kernel
      · rintro _ ⟨⟩
        decide +kernel }

/-- A regular file. -/
def noteMetadata : Metadata := ⟨.file, 12, 1, 2, 3, 4⟩

def notePorts : (call : AgentCall Unit) → call.Answer
  | .symlinkMetadata _ | .openFile _ | .metadata _ => some noteMetadata
  | .canonicalize path => some path
  | .readToEnd _ => some (bytes noteText)
  | call => plainPorts noteOutput call

/-- The run of the request with these ports. -/
def noteRun : List (AgentEvent Unit) × Except AgentRuntimeInternalError DelegationReceipt :=
  (invoke ⟨true, 8, bounded_max⟩ noteRequest ⟨false, true, false⟩ readerRegistry 0).record notePorts

/-- A grounded request that is completed. -/
theorem grounded_completion_note : ∃ receipt inline profile, noteRun.2 = .ok receipt ∧
    GroundedComplete noteRequest readerRegistry noteRun.1 noteContract receipt inline profile := by
  obtain ⟨receipt, metrics, hreceipt, hcomplete⟩ := @exists_of_isComplete noteRun.2 (by decide +kernel)
  have hruns := runs_record notePorts
    (invoke ⟨true, 8, bounded_max⟩ noteRequest ⟨false, true, false⟩ readerRegistry 0)
  obtain ⟨inline, profile, hgrounded⟩ := grounded_completion rfl (hreceipt ▸ hruns) hcomplete
  exact ⟨receipt, inline, profile, hreceipt, hgrounded⟩

end Bran.Agent
