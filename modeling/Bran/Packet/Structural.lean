import Bran.Library.Admission
import Bran.Packet.Receipts

/-!
# Structural packets

`PacketAssembler::assemble_structural` checks the receipts and the excerpts of a
request and then places nodes in five passes: the selected nodes of canonical
authority, the traversal nodes that are required, the lifecycle conflicts, and the
remaining selected and traversal nodes as locators to follow up.  One set records
which nodes were placed, and two more record which domains and evidence classes are
covered.

The texts that `derive(Debug)` produces enter the binding digests only; they are a
parameter, `DebugFormat`.
-/

namespace Bran.Packet

open Bran.Graph Validation Text

/-! ## Requests -/

structure StructuralExcerpt where
  nodeId : Str
  locator : Str
  content : Str
  contentDigest : Str
  completeFile : Bool
  deriving DecidableEq

structure StructuralPacketLimits where
  maxItems : ℕ
  maxPacketBytes : ℕ
  maxExcerptBytes : ℕ
  deriving DecidableEq

inductive StructuralPacketTier
  | primaryCanonical
  | requiredDependency
  | conflictSuperseded
  | followUpLocator
  deriving DecidableEq

structure StructuralPacketRequest where
  snapshot : StructuralGraphSnapshot
  ranking : RankingReceipt
  traversal : Option StructuralTraversalReceipt
  excerpts : List StructuralExcerpt
  requiredDomains : List Str
  requiredEvidenceClasses : List EvidenceClass
  limits : StructuralPacketLimits

/-! ## Packets -/

theorem tierIndex_injective : Function.Injective StructuralPacketTier.ctorIdx := by
  intro first second h
  cases first <;> cases second <;> first | rfl | exact absurd h (by decide)

/-- Tiers are ordered as declared. -/
instance : LinearOrder StructuralPacketTier :=
  LinearOrder.lift' StructuralPacketTier.ctorIdx tierIndex_injective

theorem evidenceClassIndex_injective : Function.Injective EvidenceClass.ctorIdx := by
  intro first second h
  cases first <;> cases second <;> first | rfl | exact absurd h (by decide)

/-- Evidence classes are ordered as declared. -/
instance : LinearOrder EvidenceClass :=
  LinearOrder.lift' EvidenceClass.ctorIdx evidenceClassIndex_injective

structure StructuralPacketItem where
  nodeId : Str
  canonicalPath : Str
  tier : StructuralPacketTier
  role : Str
  sourceType : StructuralSourceType
  lifecycle : StructuralLifecycle
  authority : StructuralAuthority
  generatedStatus : StructuralGeneratedStatus
  whySelected : Str
  edgeTrail : List StructuralPathStep
  locator : Str
  contentDigest : Str
  excerpt : Str
  excerptBytes : ℕ
  locatorOnly : Bool
  nonAuthoritative : Bool
  deriving DecidableEq

inductive StructuralPacketOmissionReason
  | itemLimit
  | packetByteLimit
  deriving DecidableEq

structure StructuralPacketOmission where
  nodeId : Str
  tier : StructuralPacketTier
  reason : StructuralPacketOmissionReason
  deriving DecidableEq

structure StructuralSufficiencyReceipt where
  snapshotDigest : Str
  rankingSeed : Str
  traversalSeed : Option Str
  rankingBindingDigest : Str
  traversalBindingDigest : Option Str
  requiredDomains : List Str
  coveredDomains : List Str
  missingDomains : List Str
  requiredEvidenceClasses : List EvidenceClass
  coveredEvidenceClasses : List EvidenceClass
  missingEvidenceClasses : List EvidenceClass
  tierCounts : OrdMap StructuralPacketTier ℕ
  tierBytes : OrdMap StructuralPacketTier ℕ
  maxItems : ℕ
  maxPacketBytes : ℕ
  maxExcerptBytes : ℕ
  selectedIds : List Str
  omittedIds : List Str
  omittedReasons : List Str
  conflictIds : List Str
  boundedOmissions : List StructuralPacketOmission
  ambiguityVisible : Bool
  totalLocatorBytes : ℕ
  totalExcerptBytes : ℕ
  totalPacketBytes : ℕ
  sufficient : Bool
  digest : Str
  deriving DecidableEq

structure StructuralPacket where
  items : List StructuralPacketItem
  receipt : StructuralSufficiencyReceipt
  deriving DecidableEq

/-- The output of `derive(Debug)` for the receipts. -/
structure DebugFormat where
  ranking : RankingReceipt → Str
  traversal : StructuralTraversalReceipt → Str
  sufficiency : StructuralSufficiencyReceipt → Str

/-- The `Debug` text of a decision. -/
def debugDecision : RankingItemDecision → Str
  | .selected => "Selected".toList
  | .omitted .selectionLimit => "Omitted(SelectionLimit)".toList
  | .omitted .lifecycleConflict => "Omitted(LifecycleConflict)".toList

/-! ## Placing a node -/

def evidenceClass : StructuralEdgeKind → Option EvidenceClass
  | .requirement => some .requirement
  | .design => some .design
  | .implementation => some .implementation
  | .validation => some .validation
  | .architecture => some .architecture
  | .businessFlow => some .businessFlow
  | _ => none

/-- The evidence class of the last edge of a path. -/
def lastEvidenceClass (steps : List StructuralPathStep) : Option EvidenceClass :=
  steps.getLast?.bind fun step => evidenceClass step.kind

def isAuthoritativeCurrentSource (node : StructuralNode) : Bool :=
  node.lifecycle = .current && node.generatedStatus = .source &&
    (node.authority = .canonical || node.authority = .approved)

def isPrimaryCanonical (ranked : RankingItemReceipt) (node : StructuralNode) : Bool :=
  ranked.rankKey.eligibility = .eligible && isAuthoritativeCurrentSource node

/-- The arguments of `add_structural_item` that a pass chooses. -/
structure Placement where
  nodeId : Str
  tier : StructuralPacketTier
  role : Str
  edgeTrail : List StructuralPathStep
  nonAuthoritative : Bool
  deriving DecidableEq

/-- The variables of `assemble_structural` that the passes change. -/
structure PacketState where
  items : List StructuralPacketItem
  decided : Finset Str
  packetBytes : ℕ
  boundedOmissions : List StructuralPacketOmission
  coveredDomains : OrdSet Str
  coveredClasses : OrdSet EvidenceClass

/-- The variables before the first pass. -/
def PacketState.start : PacketState where
  items := []
  decided := ∅
  packetBytes := 0
  boundedOmissions := []
  coveredDomains := OrdMap.empty
  coveredClasses := OrdMap.empty

/-- `decided.insert`. -/
def PacketState.decide (state : PacketState) (nodeId : Str) : PacketState :=
  { state with decided := insert nodeId state.decided }

section Assembly

variable (request : StructuralPacketRequest)

/-- The first excerpt for a node. -/
def StructuralPacketRequest.excerptFor (id : Str) : Option StructuralExcerpt :=
  request.excerpts.find? fun excerpt => excerpt.nodeId = id

/-- The value of `locator` in `add_structural_item`. -/
def itemLocator (node : StructuralNode) (id : Str) : Str :=
  match request.excerptFor id with
  | some excerpt => excerpt.locator
  | none => node.path

/-- The value of `content` in `add_structural_item`. -/
def itemContent (tier : StructuralPacketTier) (id : Str) : Str :=
  if tier = .followUpLocator then []
  else
    match request.excerptFor id with
    | some excerpt => excerpt.content
    | none => []

def itemBytes (node : StructuralNode) (placement : Placement) : ℕ :=
  byteLen (itemLocator request node placement.nodeId) +
    byteLen (itemContent request placement.tier placement.nodeId)

/-- The tiers whose items may not be left out. -/
def StructuralPacketTier.isRequired (tier : StructuralPacketTier) : Bool :=
  tier = .primaryCanonical || tier = .requiredDependency

/-- The part of `add_structural_item` that decides whether an item is added. -/
def judgePlacement (itemCount packetBytes : ℕ) (placement : Placement) :
    Except StructuralPacketError (Option StructuralPacketOmissionReason) := do
  let node ← receiptNode request.snapshot placement.nodeId
  let bytes ← checkedAdd (byteLen (itemLocator request node placement.nodeId))
    (byteLen (itemContent request placement.tier placement.nodeId))
    (.arithmeticOverflow "item bytes".toList)
  if itemCount = request.limits.maxItems then
    failIf (placement.tier.isRequired = true) (.requiredItemDoesNotFit placement.nodeId)
    .ok (some .itemLimit)
  else do
    let total ← checkedAdd packetBytes bytes (.arithmeticOverflow "packet bytes".toList)
    if total > request.limits.maxPacketBytes then do
      failIf (placement.tier.isRequired = true) (.requiredItemDoesNotFit placement.nodeId)
      .ok (some .packetByteLimit)
    else .ok none

def structuralItem (node : StructuralNode) (placement : Placement) : StructuralPacketItem where
  nodeId := placement.nodeId
  canonicalPath := node.path
  tier := placement.tier
  role := placement.role
  sourceType := node.sourceType
  lifecycle := node.lifecycle
  authority := node.authority
  generatedStatus := node.generatedStatus
  whySelected := placement.role
  edgeTrail := placement.edgeTrail
  locator := itemLocator request node placement.nodeId
  contentDigest := node.contentDigest
  excerpt := itemContent request placement.tier placement.nodeId
  excerptBytes := byteLen (itemContent request placement.tier placement.nodeId)
  locatorOnly :=
    placement.tier = .followUpLocator || (request.excerptFor placement.nodeId).isNone
  nonAuthoritative := placement.nonAuthoritative

/-- The part of `add_structural_item` that adds the item. -/
def addItem (node : StructuralNode) (placement : Placement) (state : PacketState) : PacketState :=
  { state with
    packetBytes := state.packetBytes + itemBytes request node placement
    coveredDomains :=
      if placement.nonAuthoritative then state.coveredDomains
      else state.coveredDomains.extend node.domains
    coveredClasses :=
      if placement.nonAuthoritative then state.coveredClasses
      else state.coveredClasses.extend (lastEvidenceClass placement.edgeTrail).toList
    items := state.items ++ [structuralItem request node placement] }

/-- `add_structural_item`, with the omission recorded as its callers do.  The callers that
record none place items of the required tiers, which are never left out; the last `checked_add`
of the source repeats the one in `judgePlacement`. -/
def place (placement : Placement) (state : PacketState) :
    Except StructuralPacketError PacketState := do
  let reason ← judgePlacement request state.items.length state.packetBytes placement
  match reason with
  | some reason =>
      .ok { state with
        boundedOmissions :=
          state.boundedOmissions ++ [⟨placement.nodeId, placement.tier, reason⟩] }
  | none => do
      let node ← receiptNode request.snapshot placement.nodeId
      .ok (addItem request node placement state)

/-! ## The passes -/

def traversalPaths : OrdMap Str StructuralPathReceipt :=
  match request.traversal with
  | some traversal => OrdMap.ofList (traversal.paths.map fun path => (path.nodeId, path))
  | none => OrdMap.empty

/-- The value of `edge_trail` for a ranked node. -/
def edgeTrailOf (nodeId : Str) : List StructuralPathStep :=
  (((traversalPaths request).find? nodeId).map StructuralPathReceipt.steps).getD []

/-- The paths of the traversal, if there is one. -/
def StructuralPacketRequest.paths : List StructuralPathReceipt :=
  match request.traversal with
  | some traversal => traversal.paths
  | none => []

/-- The identities of the selected nodes. -/
def StructuralPacketRequest.selectedIds : List Str :=
  request.ranking.selected.map RankingItemReceipt.nodeId

/-- The placement of the first pass. -/
def primaryPlacement (ranked : RankingItemReceipt) : Placement :=
  ⟨ranked.nodeId, .primaryCanonical, "ranked-selected".toList, edgeTrailOf request ranked.nodeId,
    false⟩

/-- The placement of the second pass. -/
def dependencyPlacement (path : StructuralPathReceipt) : Placement :=
  ⟨path.nodeId, .requiredDependency, "traversed-required".toList, path.steps, false⟩

/-- The placement of the third pass. -/
def conflictPlacement (ranked : RankingItemReceipt) : Placement :=
  ⟨ranked.nodeId, .conflictSuperseded, "ranking-conflict".toList, [], true⟩

/-- The placement of the fourth pass. -/
def selectedPlacement (ranked : RankingItemReceipt) : Placement :=
  ⟨ranked.nodeId, .followUpLocator, "ranking-follow-up".toList,
    edgeTrailOf request ranked.nodeId, true⟩

/-- The placement of the fifth pass.  The source looks the node up first; where that fails,
placing the node fails with the same error. -/
def traversalPlacement (path : StructuralPathReceipt) : Placement :=
  ⟨path.nodeId, .followUpLocator, "traversal-follow-up".toList, path.steps,
    !(request.snapshot.node path.nodeId).any isAuthoritativeCurrentSource⟩

/-- The first pass. -/
def placePrimary : List RankingItemReceipt → PacketState →
    Except StructuralPacketError PacketState
  | [], state => .ok state
  | ranked :: rest, state => do
      let node ← receiptNode request.snapshot ranked.nodeId
      if isPrimaryCanonical ranked node then do
        let state ← place request (primaryPlacement request ranked) (state.decide ranked.nodeId)
        placePrimary rest state
      else placePrimary rest state

/-- `helps_domain || helps_class`. -/
def helps (node : StructuralNode) (path : StructuralPathReceipt) (domains : OrdSet Str)
    (classes : OrdSet EvidenceClass) : Bool :=
  (node.domains.any fun domain =>
      request.requiredDomains.contains domain && !domains.contains domain) ||
    (lastEvidenceClass path.steps).any fun evidence =>
      request.requiredEvidenceClasses.contains evidence && !classes.contains evidence

/-- The second pass. -/
def placeDependencies : List StructuralPathReceipt → PacketState →
    Except StructuralPacketError PacketState
  | [], state => .ok state
  | path :: rest, state =>
      if path.nodeId ∈ state.decided ∨ path.nodeId ∈ request.selectedIds then
        placeDependencies rest state
      else do
        let node ← receiptNode request.snapshot path.nodeId
        if node.lifecycle ≠ .current ∨ node.generatedStatus ≠ .source then
          placeDependencies rest state
        else if helps request node path state.coveredDomains state.coveredClasses then do
          let state ← place request (dependencyPlacement path) (state.decide path.nodeId)
          placeDependencies rest state
        else placeDependencies rest state

/-- The other passes: every node that is not decided yet is placed. -/
def placeUndecided : List Placement → PacketState → Except StructuralPacketError PacketState
  | [], state => .ok state
  | placement :: rest, state =>
      if placement.nodeId ∈ state.decided then placeUndecided rest state
      else do
        let state ← place request placement (state.decide placement.nodeId)
        placeUndecided rest state

/-- The items omitted for their lifecycle. -/
def lifecycleConflicts : List RankingItemReceipt :=
  request.ranking.omittedConflicts.filter fun item => item.decision = .omitted .lifecycleConflict

/-- The five passes. -/
def placeNodes : Except StructuralPacketError PacketState := do
  let state ← placePrimary request request.ranking.selected .start
  let state ← placeDependencies request request.paths state
  let state ← placeUndecided request ((lifecycleConflicts request).map conflictPlacement) state
  let state ← placeUndecided request
    (request.ranking.selected.map (selectedPlacement request)) state
  placeUndecided request (request.paths.map (traversalPlacement request)) state

/-! ## Checks and totals -/

def checkExcerpt (related : Finset Str) (excerpt : StructuralExcerpt) (seen : Finset Str) :
    Except StructuralPacketError Unit := do
  failIf (excerpt.nodeId ∉ related) (.unrelatedExcerpt excerpt.nodeId)
  failIf (excerpt.nodeId ∈ seen) (.duplicateExcerpt excerpt.nodeId)
  let node ← receiptNode request.snapshot excerpt.nodeId
  failIf (node.contentDigest ≠ excerpt.contentDigest) (.excerptDigestMismatch excerpt.nodeId)
  failIf (excerpt.locator = [] ∨ excerpt.locator.head? = some '/' ∨
      "..".toList ∈ excerpt.locator.splitOn '/' ∨
      byteLen excerpt.locator > request.limits.maxPacketBytes)
    (.invalidExcerptLocator excerpt.nodeId)
  failIf (byteLen excerpt.content > request.limits.maxExcerptBytes)
    (.excerptTooLarge excerpt.nodeId)
  failIf (excerpt.completeFile = true) (.completeFileRejected excerpt.nodeId)

/-- The loop over the excerpts. -/
def checkExcerpts (related : Finset Str) :
    List StructuralExcerpt → Finset Str → Except StructuralPacketError Unit
  | [], _ => .ok ()
  | excerpt :: rest, seen => do
      checkExcerpt request related excerpt seen
      checkExcerpts related rest (insert excerpt.nodeId seen)

/-- The sums over the items of a packet. -/
structure PacketTotals where
  tierCounts : OrdMap StructuralPacketTier ℕ
  tierBytes : OrdMap StructuralPacketTier ℕ
  locatorBytes : ℕ
  excerptBytes : ℕ

/-- The loop that sums the items up; the additions to `tier_bytes` are unchecked in the source
and stay below the bound of the packet. -/
def sumItems : List StructuralPacketItem → PacketTotals →
    Except StructuralPacketError PacketTotals
  | [], totals => .ok totals
  | item :: rest, totals => do
      let bytes ← checkedAdd (byteLen item.locator) item.excerptBytes
        (.arithmeticOverflow "item bytes".toList)
      let locatorBytes ← checkedAdd totals.locatorBytes (byteLen item.locator)
        (.arithmeticOverflow "locator bytes".toList)
      let excerptBytes ← checkedAdd totals.excerptBytes item.excerptBytes
        (.arithmeticOverflow "excerpt bytes".toList)
      sumItems rest {
        tierCounts := totals.tierCounts.addTo item.tier 1
        tierBytes := totals.tierBytes.addTo item.tier bytes
        locatorBytes
        excerptBytes }

/-- The checks of `assemble_structural` that precede the passes. -/
def checkRequest : Except StructuralPacketError Unit := do
  failIf (request.ranking.snapshotDigest ≠ request.snapshot.snapshotDigest)
    .snapshotDigestMismatch
  failIf (request.limits.maxItems = 0 ∨ request.limits.maxItems > 4096 ∨
      request.limits.maxPacketBytes = 0 ∨ request.limits.maxPacketBytes > 1048576 ∨
      request.limits.maxExcerptBytes = 0 ∨ request.limits.maxExcerptBytes > 65536)
    .invalidLimits
  let rankedIds ← validateRankingReceipt request.snapshot request.ranking
  match request.traversal with
  | some traversal => do
      validateTraversalReceipt request.snapshot request.ranking traversal
      checkExcerpts request (rankedIds ∪ traversal.visitedIds.toFinset) request.excerpts ∅
  | none => checkExcerpts request rankedIds request.excerpts ∅

/-- The members of a list that are missing from a covered set, in increasing order. -/
def missingFrom {K : Type} [LinearOrder K] (required : List K) (covered : OrdSet K) : List K :=
  (OrdSet.ofList required).keys.filter fun key => !covered.contains key

/-- The receipt before its digest is entered. -/
def sufficiencyReceipt (debug : DebugFormat) (state : PacketState) (totals : PacketTotals)
    (total : ℕ) : StructuralSufficiencyReceipt :=
  let missingDomains := missingFrom request.requiredDomains state.coveredDomains
  let missingClasses := missingFrom request.requiredEvidenceClasses state.coveredClasses
  { snapshotDigest := request.snapshot.snapshotDigest
    rankingSeed := request.ranking.seed
    traversalSeed := request.traversal.map StructuralTraversalReceipt.seed
    rankingBindingDigest := Agent.sha256Value (Text.bytes
      ("bran-ranking-receipt-binding:v1:".toList ++ debug.ranking request.ranking))
    traversalBindingDigest := request.traversal.map fun traversal => Agent.sha256Value (Text.bytes
      ("bran-traversal-receipt-binding:v1:".toList ++ debug.traversal traversal))
    requiredDomains := request.requiredDomains
    coveredDomains := state.coveredDomains.keys
    missingDomains
    requiredEvidenceClasses := request.requiredEvidenceClasses
    coveredEvidenceClasses := state.coveredClasses.keys
    missingEvidenceClasses := missingClasses
    tierCounts := totals.tierCounts
    tierBytes := totals.tierBytes
    maxItems := request.limits.maxItems
    maxPacketBytes := request.limits.maxPacketBytes
    maxExcerptBytes := request.limits.maxExcerptBytes
    selectedIds := request.selectedIds
    omittedIds := request.ranking.omittedConflicts.map RankingItemReceipt.nodeId
    omittedReasons := request.ranking.omittedConflicts.map fun item => debugDecision item.decision
    conflictIds := (lifecycleConflicts request).map RankingItemReceipt.nodeId
    boundedOmissions := state.boundedOmissions
    ambiguityVisible := request.ranking.omittedConflicts ≠ []
    totalLocatorBytes := totals.locatorBytes
    totalExcerptBytes := totals.excerptBytes
    totalPacketBytes := total
    sufficient := missingDomains.isEmpty && missingClasses.isEmpty
    digest := [] }

/-- `PacketAssembler::assemble_structural`. -/
def assembleStructural (debug : DebugFormat) : Except StructuralPacketError StructuralPacket := do
  checkRequest request
  let state ← placeNodes request
  let totals ← sumItems state.items ⟨OrdMap.empty, OrdMap.empty, 0, 0⟩
  let total ← checkedAdd totals.locatorBytes totals.excerptBytes
    (.arithmeticOverflow "packet bytes".toList)
  let receipt := sufficiencyReceipt request debug state totals total
  .ok {
    items := state.items
    receipt :=
      { receipt with digest := Agent.sha256Value (Text.bytes (debug.sufficiency receipt)) } }

end Assembly

end Bran.Packet
