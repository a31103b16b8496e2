import Bran.Graph.Snapshot
import Mathlib.Data.Finset.Lattice.Lemmas

/-!
# Stage ranking

`StageRanker::rank` gives every node of a snapshot a ten-part key, sorts the nodes by
it and selects the eligible ones up to a limit; the others are listed with the reason
of their omission.  The source looks edges and nodes up with `expect`; here such a
lookup is `none` when it fails, and `rank_spec` includes that it never does.
-/

namespace Bran.Graph

open Validation List Option Text

/-! ## Requests -/

def maxRankingSeedBytes : ℕ := 256

def maxRankingSelection : ℕ := 4096

def maxRankingCandidates : ℕ := 1000000

def maxRequiredDomains : ℕ := 64

def maxRequiredDomainBytes : ℕ := 128

def frequencyCapBasisPoints : ℕ := 500

inductive SdlcStage
  | legacyReconstruction
  | requirementsReconciliation
  | replacementSpecification
  | design
  | registerDriverContract
  | implementation
  | validationRelease
  deriving DecidableEq

def SdlcStage.evidenceKind : SdlcStage → StructuralEdgeKind
  | .legacyReconstruction => .architecture
  | .requirementsReconciliation | .replacementSpecification => .requirement
  | .design | .registerDriverContract => .design
  | .implementation => .implementation
  | .validationRelease => .validation

inductive EvidenceClass
  | requirement
  | design
  | implementation
  | validation
  | architecture
  | businessFlow
  deriving DecidableEq

def EvidenceClass.edgeKind : EvidenceClass → StructuralEdgeKind
  | .requirement => .requirement
  | .design => .design
  | .implementation => .implementation
  | .validation => .validation
  | .architecture => .architecture
  | .businessFlow => .businessFlow

structure RankingLimits where
  selectionLimit : ℕ
  deriving DecidableEq

/-- `RankingError`; the errors of the text parsers are left out. -/
inductive RankingError
  | emptySeed
  | seedTooLong (bytes : ℕ)
  | invalidSelectionLimit (limit : ℕ)
  | tooManyRequiredDomains (count : ℕ)
  | invalidRequiredDomain (domain : Str)
  | duplicateRequiredDomain (domain : Str)
  | duplicateEvidenceClass (evidenceClass : EvidenceClass)
  | malformedFrequencyDigest (digest : Str)
  | invalidFrequencyValue (nodeId : Str) (raw : ℤ)
  | frequencyDigestMismatch (snapshot aggregate : Str)
  | unknownFrequencyNode (nodeId : Str)
  | candidateLimitExceeded (count : ℕ)
  deriving DecidableEq

def RankingLimits.new (selectionLimit : ℕ) : Except RankingError RankingLimits := do
  failIf (selectionLimit = 0 ∨ selectionLimit > maxRankingSelection)
    (.invalidSelectionLimit selectionLimit)
  .ok ⟨selectionLimit⟩

/-- `StageRankingRequest`; its fields are public. -/
structure StageRankingRequest where
  seed : Str
  stage : SdlcStage
  requiredDomains : List Str
  requiredEvidenceClasses : List EvidenceClass
  limits : RankingLimits
  deriving DecidableEq

def StageRankingRequest.new (seed : Str) (stage : SdlcStage) (requiredDomains : List Str)
    (requiredEvidenceClasses : List EvidenceClass) (limits : RankingLimits) :
    Except RankingError StageRankingRequest := do
  failIf (seed = []) .emptySeed
  failIf (byteLen seed > maxRankingSeedBytes) (.seedTooLong (byteLen seed))
  failIf (requiredDomains.length > maxRequiredDomains)
    (.tooManyRequiredDomains requiredDomains.length)
  let _ ← collectDistinct
    (fun domain => failIf (domain = [] ∨ byteLen domain > maxRequiredDomainBytes)
      (.invalidRequiredDomain domain)) .duplicateRequiredDomain requiredDomains ∅
  let _ ← collectDistinct (fun _ => .ok ()) .duplicateEvidenceClass requiredEvidenceClasses ∅
  .ok { seed, stage, requiredDomains, requiredEvidenceClasses, limits }

/-! ## Frozen frequencies -/

structure FrozenFrequencyValue where
  rawBasisPoints : ℕ
  cappedBasisPoints : ℕ
  capApplied : Bool
  deriving DecidableEq

structure FrozenHistoricalFrequency where
  aggregateDigest : Str
  values : OrdMap Str FrozenFrequencyValue
  deriving DecidableEq

/-- The value that `FrozenHistoricalFrequency::new` keeps for an accepted input. -/
def frozenFrequencyValue (raw : ℕ) : FrozenFrequencyValue where
  rawBasisPoints := raw
  cappedBasisPoints := min raw frequencyCapBasisPoints
  capApplied := raw > frequencyCapBasisPoints

/-- The loop of `FrozenHistoricalFrequency::new`. -/
def freezeFrequencies :
    List (Str × ℤ) → OrdMap Str FrozenFrequencyValue →
      Except RankingError (OrdMap Str FrozenFrequencyValue)
  | [], values => .ok values
  | (nodeId, raw) :: rest, values => do
      failIf (raw < 0) (.invalidFrequencyValue nodeId raw)
      freezeFrequencies rest (values.insert nodeId (frozenFrequencyValue raw.toNat))

def FrozenHistoricalFrequency.new (aggregateDigest : Str) (rawBasisPoints : OrdMap Str ℤ) :
    Except RankingError FrozenHistoricalFrequency := do
  failIf (Agent.isDigest aggregateDigest = false) (.malformedFrequencyDigest aggregateDigest)
  let values ← freezeFrequencies rawBasisPoints.entries OrdMap.empty
  .ok { aggregateDigest, values }

def FrozenHistoricalFrequency.value (frequency : FrozenHistoricalFrequency) (nodeId : Str) :
    FrozenFrequencyValue :=
  (frequency.values.find? nodeId).getD ⟨0, 0, false⟩

/-! ## Rank keys -/

inductive EligibilityKey
  | eligible
  | ineligible
  deriving DecidableEq

inductive AuthorityKey
  | canonicalOwned
  | approvedOwned
  | canonicalUnowned
  | approvedUnowned
  | supportingOwned
  | supportingUnowned
  | unknownOwned
  | unknownUnowned
  deriving DecidableEq

inductive RevisionKey
  | current
  | predecessor
  | superseded
  | draft
  | archive
  | rejected
  deriving DecidableEq

inductive ArtifactKey
  | source
  | generatedOrPreextracted
  | archive
  | rejected
  deriving DecidableEq

inductive RelationshipDistanceKey
  | seed
  | direct
  | absent
  deriving DecidableEq

inductive RelevanceKey
  | none
  | part
  | exact
  deriving DecidableEq

structure StageRankKey where
  eligibility : EligibilityKey
  authority : AuthorityKey
  revision : RevisionKey
  artifact : ArtifactKey
  relationshipDistance : RelationshipDistanceKey
  relevance : RelevanceKey
  requiredContribution : ℕ
  frequencyBasisPoints : ℕ
  canonicalPath : Str
  nodeId : Str
  deriving DecidableEq

/-- What `StageRankKey::cmp` compares: the parts in order, with the members of an enumeration
in the order of their declaration and with three parts reversed. -/
def StageRankKey.order (key : StageRankKey) :
    ℕ ×ₗ ℕ ×ₗ ℕ ×ₗ ℕ ×ₗ ℕ ×ₗ ℕᵒᵈ ×ₗ ℕᵒᵈ ×ₗ ℕᵒᵈ ×ₗ Str ×ₗ Str :=
  toLex (key.eligibility.ctorIdx, toLex (key.authority.ctorIdx, toLex (key.revision.ctorIdx,
    toLex (key.artifact.ctorIdx, toLex (key.relationshipDistance.ctorIdx,
      toLex (OrderDual.toDual key.relevance.ctorIdx,
        toLex (OrderDual.toDual key.requiredContribution,
          toLex (OrderDual.toDual key.frequencyBasisPoints,
            toLex (key.canonicalPath, key.nodeId)))))))))

/-! ## Receipts -/

structure FrequencyReceipt where
  rawBasisPoints : ℕ
  cappedBasisPoints : ℕ
  capApplied : Bool
  aggregateDigest : Str
  rankKeyPosition : ℕ
  deriving DecidableEq

inductive OmissionReason
  | selectionLimit
  | lifecycleConflict
  deriving DecidableEq

inductive RankingItemDecision
  | selected
  | omitted (reason : OmissionReason)
  deriving DecidableEq

structure RankingItemReceipt where
  nodeId : Str
  canonicalPath : Str
  rankKey : StageRankKey
  frequency : FrequencyReceipt
  decision : RankingItemDecision
  deriving DecidableEq

structure ConflictDecision where
  conflictsVisible : Bool
  nodeIds : List Str
  deriving DecidableEq

structure MissingRequiredEvidenceDecision where
  missing : Bool
  domains : List Str
  evidenceClasses : List EvidenceClass
  deriving DecidableEq

/-- `RankingReceipt`; its field `traversal` has a single value and is left out. -/
structure RankingReceipt where
  snapshotDigest : Str
  seed : Str
  stage : SdlcStage
  requiredDomains : List Str
  requiredEvidenceClasses : List EvidenceClass
  candidateCount : ℕ
  requestedSelectionLimit : ℕ
  selected : List RankingItemReceipt
  omittedConflicts : List RankingItemReceipt
  conflicts : ConflictDecision
  missingRequiredEvidence : MissingRequiredEvidenceDecision
  deriving DecidableEq

/-! ## The keys of a node -/

def authorityKey (node : StructuralNode) : AuthorityKey :=
  match node.authority, node.owner.isSome with
  | .canonical, true => .canonicalOwned
  | .approved, true => .approvedOwned
  | .canonical, false => .canonicalUnowned
  | .approved, false => .approvedUnowned
  | .supporting, true => .supportingOwned
  | .supporting, false => .supportingUnowned
  | .unknown, true => .unknownOwned
  | .unknown, false => .unknownUnowned

def artifactKey (node : StructuralNode) : ArtifactKey :=
  match node.lifecycle with
  | .archive => .archive
  | .rejected => .rejected
  | _ =>
      match node.generatedStatus with
      | .source => .source
      | .generated | .preextracted => .generatedOrPreextracted

def relevanceKey (node : StructuralNode) (seed : Str) : RelevanceKey :=
  if node.id = seed ∨ node.path = seed ∨ node.owner = some seed ∨ seed ∈ node.domains then .exact
  else if containsStr node.id seed || containsStr node.path seed ||
      node.owner.any (fun owner => containsStr owner seed) ||
      node.domains.any fun domain => containsStr domain seed then .part
  else .none

/-- The value of `eligibility` in `candidate_receipt`. -/
def eligibilityKey (node : StructuralNode) : EligibilityKey :=
  if node.lifecycle = .current then .eligible else .ineligible

/-- `required_contribution`; the sum is kept as a `u16`. -/
def requiredContribution (request : StageRankingRequest) (node : StructuralNode)
    (directKinds : Finset StructuralEdgeKind) : ℕ :=
  let domainCount := request.requiredDomains.countP fun required => required ∈ node.domains
  let evidenceCount :=
    request.requiredEvidenceClasses.countP fun evidence => evidence.edgeKind ∈ directKinds
  let stageCount := if request.stage.evidenceKind ∈ directKinds then 1 else 0
  (domainCount + evidenceCount + stageCount) % 2 ^ 16

section Keys

variable (snapshot : StructuralGraphSnapshot)

/-- The test of one edge in `is_predecessor`. -/
def marksPredecessor (nodeId : Str) (edge : StructuralEdge) : Bool :=
  if edge.certainty ≠ .known ∨ (edge.kind ≠ .predecessor ∧ edge.kind ≠ .supersedes) then false
  else
    let other :=
      if edge.source = nodeId then some edge.target
      else if edge.target = nodeId then some edge.source
      else none
    (other.bind snapshot.node).any fun node => node.lifecycle = .current

def isPredecessor (nodeId : Str) : Bool := snapshot.edges.any (marksPredecessor snapshot nodeId)

def revisionKey (node : StructuralNode) : RevisionKey :=
  match node.lifecycle with
  | .current => .current
  | .superseded => if isPredecessor snapshot node.id then .predecessor else .superseded
  | .draft => .draft
  | .archive => .archive
  | .rejected => .rejected

def seedNodeIds (seed : Str) : Finset Str :=
  ((snapshot.nodes.filter fun node => node.id = seed ∨ node.path = seed).map
    StructuralNode.id).toFinset

/-- The loop of `direct_edge_kinds`; `none` where the source calls `expect` in vain. -/
def directEdgeKindsFrom (seedIds : Finset Str) (nodeId : Str) :
    List Str → Finset StructuralEdgeKind → Option (Finset StructuralEdgeKind)
  | [], kinds => some kinds
  | edgeId :: rest, kinds =>
      match snapshot.edge edgeId with
      | none => none
      | some edge =>
          if edge.certainty ≠ .known then directEdgeKindsFrom seedIds nodeId rest kinds
          else if nodeId ∈ seedIds ∨ (edge.source = nodeId ∧ edge.target ∈ seedIds) ∨
              (edge.target = nodeId ∧ edge.source ∈ seedIds) then
            directEdgeKindsFrom seedIds nodeId rest (insert edge.kind kinds)
          else directEdgeKindsFrom seedIds nodeId rest kinds

def directEdgeKinds (seedIds : Finset Str) (nodeId : Str) : Option (Finset StructuralEdgeKind) :=
  directEdgeKindsFrom snapshot seedIds nodeId
    (snapshot.forwardEdges nodeId ++ snapshot.reverseEdges nodeId) ∅

def candidateReceipt (request : StageRankingRequest) (frequency : FrozenHistoricalFrequency)
    (seedIds : Finset Str) (node : StructuralNode) : Option RankingItemReceipt := do
  let directKinds ← directEdgeKinds snapshot seedIds node.id
  let value := frequency.value node.id
  let rankKey : StageRankKey := {
    eligibility := eligibilityKey node
    authority := authorityKey node
    revision := revisionKey snapshot node
    artifact := artifactKey node
    relationshipDistance :=
      if node.id ∈ seedIds then .seed else if directKinds = ∅ then .absent else .direct
    relevance := relevanceKey node request.seed
    requiredContribution := requiredContribution request node directKinds
    frequencyBasisPoints := value.cappedBasisPoints
    canonicalPath := node.path
    nodeId := node.id }
  some {
    nodeId := node.id
    canonicalPath := node.path
    rankKey
    frequency := {
      rawBasisPoints := value.rawBasisPoints
      cappedBasisPoints := value.cappedBasisPoints
      capApplied := value.capApplied
      aggregateDigest := frequency.aggregateDigest
      rankKeyPosition := 8 }
    decision := .selected }

/-- The loop of `missing_evidence_decision`. -/
def coveredEvidence (seedIds : Finset Str) :
    List RankingItemReceipt → Finset Str × Finset StructuralEdgeKind →
      Option (Finset Str × Finset StructuralEdgeKind)
  | [], covered => some covered
  | item :: rest, covered => do
      let node ← snapshot.node item.nodeId
      let kinds ← directEdgeKinds snapshot seedIds node.id
      coveredEvidence seedIds rest (covered.1 ∪ node.domains.toFinset, covered.2 ∪ kinds)

def missingEvidenceDecision (request : StageRankingRequest) (seedIds : Finset Str)
    (selected : List RankingItemReceipt) : Option MissingRequiredEvidenceDecision := do
  let covered ← coveredEvidence snapshot seedIds selected (∅, ∅)
  let domains := request.requiredDomains.filter fun domain => domain ∉ covered.1
  let evidenceClasses :=
    request.requiredEvidenceClasses.filter fun evidence => evidence.edgeKind ∉ covered.2
  some { missing := domains ≠ [] || evidenceClasses ≠ [], domains, evidenceClasses }

end Keys

/-! ## The ranker -/

structure StageRanker where
  snapshot : StructuralGraphSnapshot
  request : StageRankingRequest
  frequency : FrozenHistoricalFrequency

/-- The decision of the loop of `rank` about one candidate. -/
def decisionOf (limit selectedCount : ℕ) (item : RankingItemReceipt) : RankingItemDecision :=
  if item.rankKey.eligibility = .eligible ∧ selectedCount < limit then .selected
  else if item.rankKey.eligibility = .ineligible then .omitted .lifecycleConflict
  else .omitted .selectionLimit

/-- The loop of `rank` over the sorted candidates. -/
def selectCandidates (limit : ℕ) :
    List RankingItemReceipt → List RankingItemReceipt → List RankingItemReceipt →
      List RankingItemReceipt × List RankingItemReceipt
  | [], selected, omitted => (selected, omitted)
  | item :: rest, selected, omitted =>
      let item := { item with decision := decisionOf limit selected.length item }
      if item.decision = .selected then selectCandidates limit rest (selected ++ [item]) omitted
      else selectCandidates limit rest selected (omitted ++ [item])

/-- The identities of the items omitted for their lifecycle. -/
def conflictNodeIds (omitted : List RankingItemReceipt) : List Str :=
  (omitted.filter fun item => item.decision = .omitted .lifecycleConflict).map
    RankingItemReceipt.nodeId

namespace StageRanker

def new (snapshot : StructuralGraphSnapshot) (request : StageRankingRequest)
    (frequency : FrozenHistoricalFrequency) : Except RankingError StageRanker := do
  failIf (snapshot.nodes.length > maxRankingCandidates)
    (.candidateLimitExceeded snapshot.nodes.length)
  failIf (snapshot.frozenFrequencyDigest ≠ frequency.aggregateDigest)
    (.frequencyDigestMismatch snapshot.frozenFrequencyDigest frequency.aggregateDigest)
  match frequency.values.keys.find? fun nodeId => snapshot.node nodeId = none with
  | some nodeId => .error (.unknownFrequencyNode nodeId)
  | none => .ok { snapshot, request, frequency }

def rank (ranker : StageRanker) : Option RankingReceipt := do
  let snapshot := ranker.snapshot
  let request := ranker.request
  let seedIds := seedNodeIds snapshot request.seed
  let candidates ← snapshot.nodes.mapM
    (candidateReceipt snapshot request ranker.frequency seedIds)
  let sorted := sortBy (fun item => item.rankKey.order) candidates
  let (selected, omittedConflicts) := selectCandidates request.limits.selectionLimit sorted [] []
  let conflicts := conflictNodeIds omittedConflicts
  let missingRequiredEvidence ← missingEvidenceDecision snapshot request seedIds selected
  some {
    snapshotDigest := snapshot.snapshotDigest
    seed := request.seed
    stage := request.stage
    requiredDomains := request.requiredDomains
    requiredEvidenceClasses := request.requiredEvidenceClasses
    candidateCount := snapshot.nodes.length
    requestedSelectionLimit := request.limits.selectionLimit
    selected
    omittedConflicts
    conflicts := { conflictsVisible := conflicts ≠ [], nodeIds := conflicts }
    missingRequiredEvidence }

end StageRanker

/-! ## The lookups succeed -/

section Lookups

variable {snapshot : StructuralGraphSnapshot} {seedIds : Finset Str}

theorem directEdgeKindsFrom_isSome {nodeId : Str} {ids : List Str}
    (hids : ∀ id ∈ ids, ∃ edge ∈ snapshot.edges, edge.id = id)
    (kinds : Finset StructuralEdgeKind) :
    ∃ kinds', directEdgeKindsFrom snapshot seedIds nodeId ids kinds = some kinds' := by
  induction ids generalizing kinds with
  | nil => exact ⟨kinds, rfl⟩
  | cons id rest ih =>
      obtain ⟨edge, hedge, hid⟩ := hids id mem_cons_self
      have hlookup : snapshot.edge id = some edge :=
        (SnapshotFields.edge_eq_some_iff snapshot.isValid).mpr ⟨hedge, hid⟩
      have hrest := ih fun other hother => hids other (mem_cons_of_mem _ hother)
      simp only [directEdgeKindsFrom, hlookup]
      split_ifs
      · exact hrest kinds
      · exact hrest _
      · exact hrest kinds

/-- The adjacency of a node lists edges of the snapshot only. -/
theorem directEdgeKinds_isSome (snapshot : StructuralGraphSnapshot) (seedIds : Finset Str)
    (nodeId : Str) :
    ∃ kinds, directEdgeKinds snapshot seedIds nodeId = some kinds := by
  have hvalid := snapshot.isValid
  apply directEdgeKindsFrom_isSome
  intro id hid
  rw [SnapshotFields.forwardEdges_eq hvalid, SnapshotFields.reverseEdges_eq hvalid,
    ← map_append] at hid
  obtain ⟨edge, hedge, rfl⟩ := List.mem_map.mp hid
  refine ⟨edge, ?_, rfl⟩
  rcases mem_append.mp hedge with hedge | hedge
  · exact mem_of_mem_filter hedge
  · exact mem_of_mem_filter hedge

theorem coveredEvidence_isSome (seedIds : Finset Str) {items : List RankingItemReceipt}
    (hitems : ∀ item ∈ items, HoldsStructural snapshot.nodes item.nodeId)
    (covered : Finset Str × Finset StructuralEdgeKind) :
    ∃ covered', coveredEvidence snapshot seedIds items covered = some covered' := by
  induction items generalizing covered with
  | nil => exact ⟨covered, rfl⟩
  | cons item rest ih =>
      obtain ⟨node, hnode, hid⟩ := hitems item mem_cons_self
      have hlookup : snapshot.node item.nodeId = some node :=
        (SnapshotFields.node_eq_some_iff snapshot.isValid).mpr ⟨hnode, hid⟩
      obtain ⟨kinds, hkinds⟩ := directEdgeKinds_isSome snapshot seedIds node.id
      obtain ⟨covered', hrest⟩ := ih (fun other hother => hitems other (mem_cons_of_mem _ hother))
        (covered.1 ∪ node.domains.toFinset, covered.2 ∪ kinds)
      exact ⟨covered', by simp only [coveredEvidence, hlookup, hkinds, bind_eq_bind,
        bind_some, hrest]⟩

end Lookups

/-! ## What a ranking contains -/

/-- An item that speaks about a node under its identity, path and lifecycle. -/
def Describes (node : StructuralNode) (item : RankingItemReceipt) : Prop :=
  item.nodeId = node.id ∧ item.canonicalPath = node.path ∧ item.rankKey.nodeId = node.id ∧
    item.rankKey.canonicalPath = node.path ∧
    (item.rankKey.eligibility = .eligible ↔ node.lifecycle = .current)

theorem candidateReceipt_spec {snapshot : StructuralGraphSnapshot}
    {request : StageRankingRequest} {frequency : FrozenHistoricalFrequency}
    {seedIds : Finset Str} (node : StructuralNode) :
    ∃ item, candidateReceipt snapshot request frequency seedIds node = some item ∧
      Describes node item := by
  obtain ⟨kinds, hkinds⟩ := directEdgeKinds_isSome snapshot seedIds node.id
  simp only [candidateReceipt, hkinds, bind_eq_bind, bind_some]
  refine ⟨_, rfl, rfl, rfl, rfl, rfl, ?_⟩
  show eligibilityKey node = .eligible ↔ node.lifecycle = .current
  unfold eligibilityKey
  split_ifs with h <;> simp [h]

def EntersDecision (items : List RankingItemReceipt) (item : RankingItemReceipt) : Prop :=
  ∃ base ∈ items, item = { base with decision := item.decision }

/-- What the loop of `rank` guarantees of the two lists it fills. -/
structure Selection (limit : ℕ) (items : List RankingItemReceipt)
    (selected omitted : List RankingItemReceipt) : Prop where
  perm : ((selected ++ omitted).map RankingItemReceipt.nodeId).Perm
    (items.map RankingItemReceipt.nodeId)
  decided : ∀ item ∈ selected ++ omitted, EntersDecision items item
  selectedItems : ∀ item ∈ selected,
    item.decision = .selected ∧ item.rankKey.eligibility = .eligible
  omittedItems : ∀ item ∈ omitted,
    (item.decision = .omitted .lifecycleConflict ∧ item.rankKey.eligibility = .ineligible) ∨
      (item.decision = .omitted .selectionLimit ∧ item.rankKey.eligibility = .eligible)
  limit : selected.length ≤ limit

/-- One more candidate is decided. -/
theorem Selection.step {limit : ℕ} {items selected omitted : List RankingItemReceipt}
    (h : Selection limit items selected omitted) (base : RankingItemReceipt) :
    let item := { base with decision := decisionOf limit selected.length base }
    Selection limit (items ++ [base])
      (if item.decision = .selected then selected ++ [item] else selected)
      (if item.decision = .selected then omitted else omitted ++ [item]) := by
  intro item
  have hold : ∀ other, EntersDecision items other → EntersDecision (items ++ [base]) other := by
    rintro other ⟨source, hsource, heq⟩
    exact ⟨source, mem_append_left _ hsource, heq⟩
  have hnew : EntersDecision (items ++ [base]) item :=
    ⟨base, mem_append_right _ (mem_singleton_self _), rfl⟩
  by_cases hselected : item.decision = .selected
  · have hcondition : base.rankKey.eligibility = .eligible ∧ selected.length < limit := by
      by_contra hcondition
      have hdecision : decisionOf limit selected.length base = .selected := hselected
      rw [decisionOf, if_neg hcondition] at hdecision
      split_ifs at hdecision
    rw [if_pos hselected, if_pos hselected]
    refine ⟨?_, ?_, ?_, h.omittedItems, ?_⟩
    · have hswap : (selected ++ [item] ++ omitted).Perm (selected ++ omitted ++ [item]) := by
        rw [append_assoc, append_assoc]
        exact List.Perm.append_left _ perm_append_comm
      refine (hswap.map _).trans ?_
      rw [@map_append _ _ _ (selected ++ omitted), @map_append _ _ _ items]
      exact List.Perm.append h.perm (List.Perm.refl _)
    · intro other hother
      rw [append_assoc, mem_append, mem_append, mem_singleton] at hother
      rcases hother with hother | rfl | hother
      · exact hold other (h.decided other (mem_append_left _ hother))
      · exact hnew
      · exact hold other (h.decided other (mem_append_right _ hother))
    · intro other hother
      rcases mem_append.mp hother with hother | hother
      · exact h.selectedItems other hother
      · obtain rfl := mem_singleton.mp hother
        exact ⟨hselected, hcondition.1⟩
    · rw [length_append, length_singleton]
      exact hcondition.2
  · have homitted :
        (item.decision = .omitted .lifecycleConflict ∧ item.rankKey.eligibility = .ineligible) ∨
          (item.decision = .omitted .selectionLimit ∧ item.rankKey.eligibility = .eligible) := by
      have hdecision : decisionOf limit selected.length base ≠ .selected := hselected
      show (decisionOf limit selected.length base = _ ∧ base.rankKey.eligibility = _) ∨
        (decisionOf limit selected.length base = _ ∧ base.rankKey.eligibility = _)
      unfold decisionOf at hdecision ⊢
      cases heligibility : base.rankKey.eligibility with
      | ineligible => simp
      | eligible =>
          rw [heligibility] at hdecision
          by_cases hroom : selected.length < limit
          · simp [hroom] at hdecision
          · simp [hroom]
    rw [if_neg hselected, if_neg hselected]
    refine ⟨?_, ?_, h.selectedItems, ?_, h.limit⟩
    · rw [← append_assoc, @map_append _ _ _ (selected ++ omitted),
        @map_append _ _ _ items]
      exact List.Perm.append h.perm (List.Perm.refl _)
    · intro other hother
      rw [← append_assoc, mem_append, mem_singleton] at hother
      rcases hother with hother | rfl
      · exact hold other (h.decided other hother)
      · exact hnew
    · intro other hother
      rcases mem_append.mp hother with hother | hother
      · exact h.omittedItems other hother
      · obtain rfl := mem_singleton.mp hother
        exact homitted

theorem selectCandidates_spec {limit : ℕ} {done items selected omitted : List RankingItemReceipt}
    (h : Selection limit done selected omitted) :
    Selection limit (done ++ items) (selectCandidates limit items selected omitted).1
      (selectCandidates limit items selected omitted).2 := by
  induction items generalizing done selected omitted with
  | nil => simpa [selectCandidates] using h
  | cons base rest ih =>
      have hstep := h.step base
      have hassoc : done ++ base :: rest = done ++ [base] ++ rest := by simp
      rw [hassoc, selectCandidates]
      simp only at hstep ⊢
      split_ifs at hstep ⊢ with hselected
      · exact ih hstep
      · exact ih hstep

theorem map_nodeId_of_describes {nodes : List StructuralNode} {items : List RankingItemReceipt}
    (h : List.Forall₂ Describes nodes items) :
    items.map RankingItemReceipt.nodeId = nodes.map StructuralNode.id := by
  induction h with
  | nil => rfl
  | cons hhead _ ih => rw [map_cons, map_cons, hhead.1, ih]

theorem exists_describes {nodes : List StructuralNode} {items : List RankingItemReceipt}
    (h : List.Forall₂ Describes nodes items) {item : RankingItemReceipt} (hitem : item ∈ items) :
    ∃ node ∈ nodes, Describes node item := by
  induction h with
  | nil => exact absurd hitem not_mem_nil
  | cons hhead _ ih =>
      rcases mem_cons.mp hitem with rfl | hitem
      · exact ⟨_, mem_cons_self, hhead⟩
      · obtain ⟨node, hnode, hdescribes⟩ := ih hitem
        exact ⟨node, mem_cons_of_mem _ hnode, hdescribes⟩

/-- What `rank` returns. -/
structure RankingOf (ranker : StageRanker) (receipt : RankingReceipt) : Prop where
  snapshotDigest : receipt.snapshotDigest = ranker.snapshot.snapshotDigest
  seed : receipt.seed = ranker.request.seed
  candidateCount : receipt.candidateCount = ranker.snapshot.nodes.length
  perm : ((receipt.selected ++ receipt.omittedConflicts).map RankingItemReceipt.nodeId).Perm
    (ranker.snapshot.nodes.map StructuralNode.id)
  described : ∀ item ∈ receipt.selected ++ receipt.omittedConflicts,
    ∃ node ∈ ranker.snapshot.nodes, Describes node item
  selectedItems : ∀ item ∈ receipt.selected,
    item.decision = .selected ∧ item.rankKey.eligibility = .eligible
  omittedItems : ∀ item ∈ receipt.omittedConflicts,
    (item.decision = .omitted .lifecycleConflict ∧ item.rankKey.eligibility = .ineligible) ∨
      (item.decision = .omitted .selectionLimit ∧ item.rankKey.eligibility = .eligible)
  limit : receipt.selected.length ≤ receipt.requestedSelectionLimit
  conflicts : receipt.conflicts.nodeIds = conflictNodeIds receipt.omittedConflicts
  conflictsVisible : receipt.conflicts.conflictsVisible =
    decide (conflictNodeIds receipt.omittedConflicts ≠ [])

/-- `rank` always returns, and lists every node of the snapshot once. -/
theorem rank_spec (ranker : StageRanker) :
    ∃ receipt, ranker.rank = some receipt ∧ RankingOf ranker receipt := by
  obtain ⟨snapshot, request, frequency⟩ := ranker
  have hcandidates : ∀ node ∈ snapshot.nodes, ∃ item,
      candidateReceipt snapshot request frequency (seedNodeIds snapshot request.seed) node =
        some item ∧ Describes node item := fun node _ => candidateReceipt_spec node
  obtain ⟨candidates, hmapM, hdescribed⟩ := mapM_spec hcandidates
  have hsortedPerm := sortBy_perm (fun item => item.rankKey.order) candidates
  have hstart : Selection request.limits.selectionLimit [] [] [] :=
    ⟨by simp, by simp, by simp, by simp, Nat.zero_le _⟩
  have hselection := @selectCandidates_spec _ _
    (sortBy (fun item => item.rankKey.order) candidates) _ _ hstart
  rw [nil_append] at hselection
  generalize hresult : selectCandidates request.limits.selectionLimit
    (sortBy (fun item => item.rankKey.order) candidates) [] [] = result at hselection
  obtain ⟨selected, omitted⟩ := result
  have hdescribe : ∀ item ∈ selected ++ omitted, ∃ node ∈ snapshot.nodes, Describes node item := by
    intro item hitem
    obtain ⟨base, hbase, heq⟩ := hselection.decided item hitem
    obtain ⟨node, hnode, hdescribes⟩ := exists_describes hdescribed (hsortedPerm.mem_iff.mp hbase)
    refine ⟨node, hnode, ?_⟩
    rw [heq]
    exact hdescribes
  have hholds : ∀ item ∈ selected, HoldsStructural snapshot.nodes item.nodeId := by
    intro item hitem
    obtain ⟨node, hnode, hdescribes⟩ := hdescribe item (mem_append_left _ hitem)
    exact ⟨node, hnode, hdescribes.1.symm⟩
  obtain ⟨covered, hcovered⟩ := coveredEvidence_isSome
    (seedNodeIds snapshot request.seed) hholds (∅, ∅)
  unfold StageRanker.rank
  simp only [hmapM, bind_eq_bind, bind_some, hresult, missingEvidenceDecision,
    hcovered]
  refine ⟨_, rfl, ?_⟩
  refine
    { snapshotDigest := rfl
      seed := rfl
      candidateCount := rfl
      perm := ?_
      described := hdescribe
      selectedItems := hselection.selectedItems
      omittedItems := hselection.omittedItems
      limit := hselection.limit
      conflicts := rfl
      conflictsVisible := rfl }
  rw [← map_nodeId_of_describes hdescribed]
  exact hselection.perm.trans (hsortedPerm.map _)

/-! ## What is selected -/

theorem StageRankKey.eligibility_mono {first second : StageRankKey} (h : first.order ≤ second.order)
    (hfirst : first.eligibility = .ineligible) : second.eligibility = .ineligible := by
  have hle := Prod.Lex.monotone_fst _ _ h
  cases hsecond : second.eligibility with
  | ineligible => rfl
  | eligible =>
      change first.eligibility.ctorIdx ≤ second.eligibility.ctorIdx at hle
      rw [hfirst, hsecond] at hle
      exact absurd hle (by decide)

def keysOf (items : List RankingItemReceipt) : List StageRankKey :=
  items.map RankingItemReceipt.rankKey

/-- Of candidates in the order of their keys the loop omits nothing eligible before the limit is
reached, so that it only cuts their list. -/
theorem selectCandidates_cuts {limit : ℕ} {items selected omitted : List RankingItemReceipt}
    (horder : (keysOf items).Pairwise fun first second => first.order ≤ second.order)
    (hitems : omitted ≠ [] →
      ∀ item ∈ items, item.rankKey.eligibility = .eligible → limit ≤ selected.length)
    (homitted : ∀ item ∈ omitted,
      item.rankKey.eligibility = .eligible → limit ≤ selected.length) :
    let result := selectCandidates limit items selected omitted
    keysOf (result.1 ++ result.2) = keysOf (selected ++ omitted ++ items) ∧
      ∀ item ∈ result.2, item.rankKey.eligibility = .eligible → limit ≤ result.1.length := by
  induction items generalizing selected omitted with
  | nil => exact ⟨by simp [selectCandidates], homitted⟩
  | cons base rest ih =>
      obtain ⟨hbase, horder⟩ := pairwise_cons.mp horder
      rw [selectCandidates]
      dsimp only
      split_ifs with hselected
      · have hroom : base.rankKey.eligibility = .eligible ∧ selected.length < limit := by
          by_contra hroom
          rw [decisionOf, if_neg hroom] at hselected
          split_ifs at hselected
        -- an item omitted before would leave no room for this one
        obtain rfl : omitted = [] := by
          by_contra hne
          exact absurd hroom.2 (Nat.not_lt.mpr (hitems hne base mem_cons_self hroom.1))
        obtain ⟨hkeys, hfull⟩ := ih horder (absurd rfl) (forall_mem_nil _)
        exact ⟨hkeys.trans (by simp [keysOf]), hfull⟩
      · have hlimit : base.rankKey.eligibility = .eligible → limit ≤ selected.length := by
          intro heligible
          by_contra hlimit
          exact hselected (if_pos ⟨heligible, Nat.not_le.mp hlimit⟩)
        have hrest : ∀ item ∈ rest, item.rankKey.eligibility = .eligible →
            limit ≤ selected.length := by
          intro item hitem heligible
          cases heligibility : base.rankKey.eligibility with
          | eligible => exact hlimit heligibility
          | ineligible =>
              have hineligible :=
                StageRankKey.eligibility_mono (hbase _ (mem_map_of_mem hitem)) heligibility
              rw [heligible] at hineligible
              cases hineligible
        obtain ⟨hkeys, hfull⟩ := @ih selected
          (omitted ++ [{ base with decision := decisionOf limit selected.length base }]) horder
          (fun _ => hrest) (forall_mem_append.mpr ⟨homitted, forall_mem_singleton.mpr hlimit⟩)
        exact ⟨hkeys.trans (by simp [keysOf]), hfull⟩

/-- The ranker lists every node by its key, and selects the first eligible ones: one is omitted only
when the limit is reached by nodes that come before it. -/
theorem StageRanker.rank_selects_first (ranker : StageRanker) :
    ∃ receipt candidates, ranker.rank = some receipt ∧
      ranker.snapshot.nodes.mapM (candidateReceipt ranker.snapshot ranker.request ranker.frequency
        (seedNodeIds ranker.snapshot ranker.request.seed)) = some candidates ∧
      keysOf (receipt.selected ++ receipt.omittedConflicts) =
        keysOf (sortBy (fun item => item.rankKey.order) candidates) ∧
      (∀ item ∈ receipt.selected, item.rankKey.eligibility = .eligible) ∧
      ∀ item ∈ receipt.omittedConflicts, item.rankKey.eligibility = .eligible →
        receipt.selected.length = ranker.request.limits.selectionLimit := by
  obtain ⟨receipt, hrank, hreceipt⟩ := rank_spec ranker
  have hlimit := hreceipt.limit
  have hselected := fun item hitem => (hreceipt.selectedItems item hitem).2
  have hreturned := hrank
  simp only [StageRanker.rank, bind_eq_bind, bind_eq_some_iff] at hreturned
  obtain ⟨candidates, hcandidates, missing, -, hreturned⟩ := hreturned
  obtain rfl := some.inj hreturned
  obtain ⟨hkeys, hfull⟩ := @selectCandidates_cuts ranker.request.limits.selectionLimit _ [] []
    (pairwise_map.mpr (pairwise_sortBy (fun item => item.rankKey.order) candidates))
    (absurd rfl) (forall_mem_nil _)
  exact ⟨_, candidates, hrank, hcandidates, hkeys, hselected, fun item hitem heligible =>
    Nat.le_antisymm hlimit (hfull item hitem heligible)⟩

end Bran.Graph
