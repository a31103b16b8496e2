import Bran.Adapters.CanonicalText

/-!
# The contract of connected synthesis

Every run about an assembled packet is grounded in it, and the canonical text of an accepted
response can be read back as far as its supports allow.  The last section has a packet about a plan
with two responses that cannot be told apart, and one that is rejected for its text alone.
-/

namespace Bran.Adapters

open Bran.Agent Bran.Graph Bran.Packet Text Validation List

variable {packet : StructuralPacket}

/-! ## The contract -/

theorem addressable_of_assembled {request : StructuralPacketRequest} {debug : DebugFormat}
    (h : assembleStructural request debug = .ok packet) : Addressable packet := by
  refine ⟨(nodup_append'.mp (accounted h).once).1, fun item hitem => ?_⟩
  obtain ⟨_, state, _, _, outcome, _, htracks, _, _, hitems, _⟩ := assembleStructural_spec h
  rw [hitems] at hitem
  obtain ⟨placement, _, node, hnode, hid, rfl⟩ := (exists_itemOf htracks.items).1 item hitem
  have hvalid := request.snapshot.isValid.indexable.validNodes node hnode
  simp only [StructuralNode.validate, check_bind_eq_ok_iff, failIf_eq_ok_iff, not_not] at hvalid
  have hidentity : (structuralItem request node placement).nodeId =
      structuralNodeIdentity node.path node.sourceType := hid.symm.trans hvalid.2.2.1
  rw [hidentity]
  exact not_mem_of_isDigest (isDigest_sha256Value _) '|' (by decide)

/-- Every run about the packet is grounded, and the canonical text of an accepted response
determines it; the usages are determined when no support holds a line that starts like one. -/
def ConnectedContract (packet : StructuralPacket) : Prop :=
  (∀ (C S : Type) (coordinator : ConnectedCoordinator) (connected : ConnectedPort C)
      (port : SqzPort S) (requestDebug : ConnectedRequest → Str) (query : Str)
      (before after : ConnectedSession C S) (outcome : ConnectedOutcome),
    coordinator.run connected port requestDebug packet query before = (.ok outcome, after) →
      GroundedRun coordinator packet query before after outcome) ∧
    ∀ first second : ConnectedResponse, (validate packet first).valid = true →
      (validate packet second).valid = true →
      canonical packet first = canonical packet second →
      SameReading first second ∧
        (PlainSupports first → PlainSupports second → first.usages = second.usages)

theorem connected_contract (request : StructuralPacketRequest) (debug : DebugFormat)
    (packet : StructuralPacket) (h : assembleStructural request debug = .ok packet) :
    ConnectedContract packet := by
  have haddressable := addressable_of_assembled h
  refine ⟨fun _ _ _ _ _ _ _ _ _ _ hrun => groundedRun haddressable hrun, ?_⟩
  intro first second hfirst hsecond hcanonical
  rw [validate_iff haddressable.nodeIds] at hfirst hsecond
  obtain ⟨hsame, husages⟩ := canonical_inj haddressable hfirst hsecond hcanonical
  refine ⟨hsame, fun hplain hplain' => ?_⟩
  exact usages_inj haddressable hfirst hsecond hplain hplain' husages

/-! ## Responses about a plan -/

def planRequest : StructuralPacketRequest :=
  { noteRequest with
    excerpts := [⟨planNode.id, "plan.md".toList, "plan".toList, zeroDigest, false⟩]
    requiredDomains := [] }

/-- A response with one claim and some usages. -/
def planResponse (text : String) (usages : List ConnectedUsage) : ConnectedResponse where
  claims := [⟨"c".toList, text.toList, false⟩]
  citations := []
  usages := usages
  conflicts := []
  missingEvidence := []
  tokenUsage := ⟨none, none⟩
  resultId := none

def planUsage (id support : String) : ConnectedUsage :=
  ⟨id.toList, planNode.id, "plan.md".toList, zeroDigest, support.toList⟩

/-- One usage whose support looks like a second one. -/
def oneUsage : ConnectedResponse :=
  planResponse "plan" [{ planUsage "u1" "" with
    support := "a\n".toList ++ usageText (planUsage "u2" "b") }]

def twoUsages : ConnectedResponse :=
  planResponse "plan" [planUsage "u1" "a", planUsage "u2" "b"]

theorem checkRequest_plan : checkRequest planRequest = .ok () := by
  have hranked : (validateRankingReceipt noteSnapshot noteRanking).toOption.map
      (fun ids => decide (planNode.id ∈ ids)) = some true := by
    decide +kernel
  have hnote := checkRequest_note
  simp only [checkRequest, check_bind_eq_ok_iff, bind_eq_ok_iff (α := Finset Str)] at hnote ⊢
  obtain ⟨hdigest, hlimits, ids, hids, hrest⟩ := hnote
  refine ⟨hdigest, hlimits, ids, hids, ?_⟩
  have hmem : planNode.id ∈ ids := by
    have hids' : validateRankingReceipt noteSnapshot noteRanking = .ok ids := hids
    rw [hids'] at hranked
    exact of_decide_eq_true (Option.some.inj hranked)
  show (_ >>= _) = _
  rw [check_bind_eq_ok_iff]
  refine ⟨(check_bind_eq_ok_iff.mp hrest).1, ?_⟩
  show checkExcerpts planRequest _ [_] ∅ = _
  rw [checkExcerpts, check_bind_eq_ok_iff]
  refine ⟨?_, rfl⟩
  rw [checkExcerpt, check_bind_eq_ok_iff, failIf_eq_ok_iff, check_bind_eq_ok_iff,
    failIf_eq_ok_iff]
  refine ⟨fun h => h (Finset.mem_union_left _ hmem), Finset.notMem_empty _, ?_⟩
  rw [bind_eq_ok_iff (α := StructuralNode)]
  refine ⟨planNode, ?_, ?_⟩
  · decide +kernel
  · decide +kernel

/-- The plan is shown, and nothing has to be acknowledged. -/
theorem assembleStructural_plan (debug : DebugFormat) :
    ∃ packet, assembleStructural planRequest debug = .ok packet ∧
      NamesItem packet planNode.id "plan.md".toList zeroDigest ∧
      packet.receipt.conflictIds = [] ∧ missing packet = [] := by
  have hrun : ((placeNodes planRequest).toOption.bind fun state =>
      (sumItems state.items ⟨OrdMap.empty, OrdMap.empty, 0, 0⟩).toOption.map fun totals =>
        (state.items.any fun item => item.nodeId == planNode.id && !item.locatorOnly &&
          item.locator == "plan.md".toList && item.contentDigest == zeroDigest,
          totals.locatorBytes + totals.excerptBytes)) = some (true, 18) := by
    decide +kernel
  cases hplace : placeNodes planRequest with
  | error error => simp [hplace, Except.toOption] at hrun
  | ok state =>
      cases hsum : sumItems state.items ⟨OrdMap.empty, OrdMap.empty, 0, 0⟩ with
      | error error => simp [hplace, hsum, Except.toOption] at hrun
      | ok totals =>
          simp only [hplace, hsum, Except.toOption, Option.bind_some, Option.map_some,
            Option.some.injEq, Prod.mk.injEq, any_eq_true, Bool.and_eq_true,
            Bool.not_eq_true', beq_iff_eq] at hrun
          obtain ⟨⟨item, hitem, ⟨⟨hid, honly⟩, hlocator⟩, hdigest⟩, htotal⟩ := hrun
          unfold assembleStructural
          rw [checkRequest_plan, ok_bind, hplace, ok_bind, hsum, ok_bind,
            checkedAdd_eq_ok (by omega), ok_bind]
          refine ⟨_, rfl, ⟨item, hitem, hid, honly, hlocator, hdigest⟩, ?_, rfl⟩
          show (lifecycleConflicts planRequest).map RankingItemReceipt.nodeId = []
          decide +kernel

/-- The contract at the packet above. -/
theorem connected_contract_plan : ∃ request, ∀ debug : DebugFormat, ∃ packet,
    assembleStructural request debug = .ok packet ∧ ConnectedContract packet := by
  refine ⟨planRequest, fun debug => ?_⟩
  obtain ⟨packet, hassemble, _⟩ := assembleStructural_plan debug
  exact ⟨packet, hassemble, connected_contract planRequest debug packet hassemble⟩

/-- The conditions on the identities of a response and on what they refer to, without those on
its texts and its size. -/
structure Supported (packet : StructuralPacket) (response : ConnectedResponse) : Prop where
  nonempty : response.claims ≠ []
  ids : ∀ id ∈ response.ids, validId id = true
  distinct : response.ids.Nodup
  cited : ∀ claim ∈ response.claims, claim.material = true →
    ∃ citation ∈ response.citations, citation.claimId = claim.id
  cites : ∀ citation ∈ response.citations,
    NamesItem packet citation.nodeId citation.locator citation.contentDigest
  uses : ∀ usage ∈ response.usages, NamesItem packet usage.nodeId usage.locator usage.contentDigest
  conflicts : ∀ value ∈ packet.receipt.conflictIds, value ∈ response.conflicts
  missing : ∀ value ∈ missing packet, value ∈ response.missingEvidence

/-- The responses with usages of the plan only are accepted. -/
theorem grounded_planResponse (hplan : NamesItem packet planNode.id "plan.md".toList zeroDigest)
    (hconflicts : packet.receipt.conflictIds = []) (hmissing : missing packet = [])
    {usages : List ConnectedUsage} (hsize : usages.length ≤ maxResponseItems)
    (husages : ∀ usage ∈ usages, WellFormedUsage usage ∧ usage.nodeId = planNode.id ∧
      usage.locator = "plan.md".toList ∧ usage.contentDigest = zeroDigest)
    (hdistinct : ("c".toList :: usages.map fun usage => usage.id).Nodup) :
    Grounded packet (planResponse "plan" usages) := by
  refine ⟨?_, nofun, ?_, ?_, nofun, nofun, fun usage hmem => (husages usage hmem).1, ?_, hdistinct,
    ⟨nodup_nil, nofun, ?_⟩, ⟨nodup_nil, nofun, ?_⟩⟩
  · have hoversized : oversized (planResponse "plan" usages) =
        (false || decide (usages.length > maxResponseItems) || false || false) := rfl
    rw [hoversized, decide_eq_false (Nat.not_lt.mpr hsize)]
    rfl
  · intro claim hclaim
    obtain rfl := mem_singleton.mp hclaim
    decide
  · intro claim hclaim hmaterial
    obtain rfl := mem_singleton.mp hclaim
    cases hmaterial
  · intro usage hmem
    obtain ⟨_, hnode, hlocator, hdigest⟩ := husages usage hmem
    rw [hnode, hlocator, hdigest]
    exact hplan
  · rw [hconflicts]
    exact nofun
  · rw [hmissing]
    exact nofun

theorem grounded_oneUsage (hplan : NamesItem packet planNode.id "plan.md".toList zeroDigest)
    (hconflicts : packet.receipt.conflictIds = []) (hmissing : missing packet = []) :
    Grounded packet oneUsage := by
  refine grounded_planResponse hplan hconflicts hmissing (by decide) (fun usage husage => ?_)
    (by decide)
  obtain rfl := mem_singleton.mp husage
  refine ⟨⟨by decide +kernel, by decide +kernel, by decide +kernel, by decide +kernel,
    by decide +kernel, by decide +kernel⟩, rfl, rfl, rfl⟩

theorem grounded_twoUsages (hplan : NamesItem packet planNode.id "plan.md".toList zeroDigest)
    (hconflicts : packet.receipt.conflictIds = []) (hmissing : missing packet = []) :
    Grounded packet twoUsages := by
  have hwellFormed : WellFormedUsage (planUsage "u1" "a") ∧ WellFormedUsage (planUsage "u2" "b") := by
    refine ⟨⟨?_, ?_, ?_, ?_, ?_, ?_⟩, ⟨?_, ?_, ?_, ?_, ?_, ?_⟩⟩ <;> decide +kernel
  refine grounded_planResponse hplan hconflicts hmissing (by decide) (fun usage husage => ?_)
    (by decide)
  rcases mem_cons.mp husage with rfl | husage
  · exact ⟨hwellFormed.1, rfl, rfl, rfl⟩
  · obtain rfl := mem_singleton.mp husage
    exact ⟨hwellFormed.2, rfl, rfl, rfl⟩

/-- The two responses have one canonical text. -/
theorem canonical_usages (packet : StructuralPacket) :
    canonical packet oneUsage = canonical packet twoUsages := by
  have husages : usagesText oneUsage.usages = usagesText twoUsages.usages := by
    decide +kernel
  rw [canonical, canonical, canonicalText_eq, canonicalText_eq, husages]
  rfl

/-- A response whose only claim has a blank text. -/
def blankResponse : ConnectedResponse := planResponse " " []

/-- A connected port that gives one answer. -/
def answering (response : ConnectedResponse) : ConnectedPort Unit where
  synthesize := fun _ state => (.ok response, state)

def offCoordinator : ConnectedCoordinator := ⟨offAdapter, 100⟩

/-- A blank claim is rejected though all its references are in order, and two responses with
different usages have one canonical text. -/
theorem not_connected_contract : ¬ ∃ debug : DebugFormat, ∀ packet,
    assembleStructural planRequest debug = .ok packet →
      (∀ response outcome after, offCoordinator.run (answering response) idlePort (fun _ => [])
          packet "plan".toList ⟨(), [], (), []⟩ = (.ok outcome, after) →
        (outcome.grounding.status = .accepted ↔ Supported packet response)) ∨
      ∀ first second, (validate packet first).valid = true →
        (validate packet second).valid = true →
        canonical packet first = canonical packet second → first.usages = second.usages := by
  intro hclaim
  obtain ⟨debug, hclaim⟩ := hclaim
  obtain ⟨packet, hassemble, hplan, hconflicts, hmissing⟩ := assembleStructural_plan debug
  have hnodes := (addressable_of_assembled hassemble).nodeIds
  rcases hclaim packet hassemble with hstatus | husages
  · have hinvalid : (validate packet blankResponse).valid = false := by
      rw [Bool.eq_false_iff, Ne, validate_iff hnodes]
      intro hgrounded
      have htext := (hgrounded.claims ⟨"c".toList, " ".toList, false⟩ mem_cons_self).2
      exact absurd htext (by decide)
    have hsupported : Supported packet blankResponse := by
      refine ⟨nofun, ?_, nodup_singleton _, ?_, nofun, nofun, ?_, ?_⟩
      · intro id hid
        obtain rfl := mem_singleton.mp hid
        decide
      · intro claim hmem hmaterial
        obtain rfl := mem_singleton.mp hmem
        cases hmaterial
      · rw [hconflicts]
        exact nofun
      · rw [hmissing]
        exact nofun
    have hrun : offCoordinator.run (answering blankResponse) idlePort (fun _ => []) packet
        "plan".toList ⟨(), [], (), []⟩ =
          (.ok (ConnectedCoordinator.rejectedOutcome (fun _ => [])
            ⟨packet, "plan".toList, .deniedAll⟩ blankResponse),
            ⟨(), [(⟨packet, "plan".toList, .deniedAll⟩, .ok blankResponse)], (), []⟩) := by
      have hquery : failIf (isBlank "plan".toList = true ∨ maxQuery < byteLen "plan".toList ∨
          ConnectedCapabilities.deniedAll.denied = false) ConnectedError.invalidRequest = .ok () := by
        decide
      rw [ConnectedCoordinator.run, hquery]
      show (if (validate packet blankResponse).valid = false then pure _ else _ :
        Exchange (ConnectedSession Unit Unit) ConnectedError ConnectedOutcome) _ = _
      rw [if_pos hinvalid]
      rfl
    have haccepted := (hstatus _ _ _ hrun).mpr hsupported
    have hrejected := (@rejectedOutcome_spec (fun _ => []) ⟨packet, "plan".toList, .deniedAll⟩
      blankResponse hinvalid).2.2.2.1
    rw [hrejected] at haccepted
    cases haccepted
  · have hsame := husages oneUsage twoUsages
      ((validate_iff hnodes).mpr (grounded_oneUsage hplan hconflicts hmissing))
      ((validate_iff hnodes).mpr (grounded_twoUsages hplan hconflicts hmissing))
      (canonical_usages packet)
    have hlength := congrArg List.length hsame
    cases hlength

end Bran.Adapters
