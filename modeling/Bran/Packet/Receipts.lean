import Bran.Graph.Ranking
import Bran.Graph.Traversal

/-!
# Receipts of a structural packet

A packet is assembled from a ranking and a traversal receipt, which the caller hands in
and which may be forged.  `validateRankingReceipt` and `validateTraversalReceipt` check
them against the snapshot; `validateRankingReceipt_eq_ok_iff` and
`validateTraversalReceipt_eq_ok_iff` say what they accept.  The ranker and the traversal
only produce accepted receipts.
-/

namespace Bran.Packet

open Bran.Graph Validation BoundedSearch List
open Except (ok.injEq)

inductive StructuralPacketError
  | snapshotDigestMismatch
  | traversalSeedMismatch
  | unknownReceiptNode (nodeId : Str)
  | invalidRankingReceipt (reason : Str)
  | invalidTraversalReceipt (reason : Str)
  | duplicateExcerpt (nodeId : Str)
  | unrelatedExcerpt (nodeId : Str)
  | excerptDigestMismatch (nodeId : Str)
  | invalidExcerptLocator (nodeId : Str)
  | excerptTooLarge (nodeId : Str)
  | completeFileRejected (nodeId : Str)
  | invalidLimits
  | requiredItemDoesNotFit (nodeId : Str)
  | arithmeticOverflow (counter : Str)
  deriving DecidableEq

section Checks

variable (snapshot : StructuralGraphSnapshot)

/-! ## The ranking receipt -/

/-- An invalid ranking receipt, with the node it is about. -/
def rankingError (reason : String) (nodeId : Str) : StructuralPacketError :=
  .invalidRankingReceipt (reason.toList ++ nodeId)

/-- The variables of the loop of `validate_ranking_receipt`. -/
structure RankingScan where
  ids : Finset Str
  lifecycleConflicts : List Str

/-- The `match` of `validate_ranking_receipt`; `some true` is the arm of a lifecycle
conflict, `none` the last arm. -/
def decisionMatch (selected : Bool) (decision : RankingItemDecision) (eligible : Bool) :
    Option Bool :=
  match selected, decision, eligible with
  | true, .selected, true => some false
  | false, .omitted .lifecycleConflict, false => some true
  | false, .omitted .selectionLimit, true => some false
  | _, _, _ => none

/-- `snapshot.node(id)` with the error for an unknown one. -/
def receiptNode (id : Str) : Except StructuralPacketError StructuralNode :=
  match snapshot.node id with
  | some node => .ok node
  | none => .error (.unknownReceiptNode id)

/-- One turn of the loop of `validate_ranking_receipt`. -/
def scanRankedItem (selected : Bool) (item : RankingItemReceipt) (scan : RankingScan) :
    Except StructuralPacketError RankingScan := do
  failIf (item.nodeId ∈ scan.ids) (rankingError "duplicate-node:" item.nodeId)
  let node ← receiptNode snapshot item.nodeId
  failIf (item.canonicalPath ≠ node.path ∨ item.rankKey.nodeId ≠ item.nodeId ∨
      item.rankKey.canonicalPath ≠ item.canonicalPath)
    (rankingError "rank-identity:" item.nodeId)
  let eligible : Bool := node.lifecycle = .current
  failIf (decide (item.rankKey.eligibility = .eligible) ≠ eligible)
    (rankingError "eligibility:" item.nodeId)
  match decisionMatch selected item.decision eligible with
  | none => .error (rankingError "decision:" item.nodeId)
  | some conflict =>
      .ok {
        ids := insert item.nodeId scan.ids
        lifecycleConflicts :=
          if conflict then scan.lifecycleConflicts ++ [item.nodeId] else scan.lifecycleConflicts }

/-- The loop of `validate_ranking_receipt` over one of the two lists. -/
def scanRankedItems (selected : Bool) :
    List RankingItemReceipt → RankingScan → Except StructuralPacketError RankingScan
  | [], scan => .ok scan
  | item :: rest, scan => do
      let scan ← scanRankedItem snapshot selected item scan
      scanRankedItems selected rest scan

def validateRankingReceipt (ranking : RankingReceipt) :
    Except StructuralPacketError (Finset Str) := do
  failIf (ranking.candidateCount ≠ snapshot.nodes.length ∨
      ranking.selected.length + ranking.omittedConflicts.length ≠ ranking.candidateCount ∨
      ranking.selected.length > ranking.requestedSelectionLimit)
    (.invalidRankingReceipt "candidate-count".toList)
  let scan ← scanRankedItems snapshot true ranking.selected ⟨∅, []⟩
  let scan ← scanRankedItems snapshot false ranking.omittedConflicts scan
  failIf (ranking.conflicts.conflictsVisible = scan.lifecycleConflicts.isEmpty ∨
      ranking.conflicts.nodeIds ≠ scan.lifecycleConflicts)
    (.invalidRankingReceipt "conflict-decision".toList)
  .ok scan.ids

/-! ## The traversal receipt -/

/-- An invalid traversal receipt, with the edge or node it is about. -/
def traversalError (reason : String) (id : Str) : StructuralPacketError :=
  .invalidTraversalReceipt (reason.toList ++ id)

def isTraversableRelationship : StructuralEdgeKind → Bool
  | .dependency | .impact | .requirement | .design | .implementation | .validation | .domain
  | .architecture | .businessFlow => true
  | _ => false

/-- The position on a path: the node reached and the nodes passed. -/
structure PathPosition where
  current : Str
  pathNodes : Finset Str

/-- One turn of the loop over the steps of a path. -/
def followStep (relationships : Finset StructuralEdgeKind) (pathId : Str)
    (step : StructuralPathStep) (position : PathPosition) :
    Except StructuralPacketError PathPosition :=
  match snapshot.edge step.edgeId with
  | none => .error (traversalError "unknown-edge:" step.edgeId)
  | some edge => do
      failIf (edge.kind ≠ step.kind ∨ edge.source ≠ step.source ∨ edge.target ≠ step.target ∨
          edge.sourceLocator ≠ step.sourceLocator ∨ edge.certainty ≠ .known ∨
          step.kind ∉ relationships)
        (traversalError "edge-binding:" step.edgeId)
      failIf (edge.source ≠ position.current ∧ edge.target ≠ position.current)
        (traversalError "disconnected-edge:" step.edgeId)
      let next := if edge.source = position.current then edge.target else edge.source
      failIf (snapshot.node next = none ∨ next ∈ position.pathNodes)
        (traversalError "invalid-path:" pathId)
      .ok ⟨next, insert next position.pathNodes⟩

/-- The loop over the steps of a path. -/
def followSteps (relationships : Finset StructuralEdgeKind) (pathId : Str) :
    List StructuralPathStep → PathPosition → Except StructuralPacketError PathPosition
  | [], position => .ok position
  | step :: rest, position => do
      let position ← followStep snapshot relationships pathId step position
      followSteps relationships pathId rest position

/-- The checks of one pair of `visited_ids.zip(paths)`. -/
def checkVisit (traversal : StructuralTraversalReceipt) (relationships : Finset StructuralEdgeKind)
    (visitedId : Str) (path : StructuralPathReceipt) (visited : Finset Str) :
    Except StructuralPacketError Unit := do
  failIf (visitedId ≠ path.nodeId ∨ visitedId ∈ visited ∨ snapshot.node visitedId = none ∨
      path.steps.length > traversal.maxDepth)
    (traversalError "path-node:" visitedId)
  let position ← followSteps snapshot relationships path.nodeId path.steps
    ⟨traversal.seed, {traversal.seed}⟩
  failIf (position.current ≠ path.nodeId) (traversalError "path-endpoint:" path.nodeId)

/-- The loop over `visited_ids.zip(paths)`.  `path_ids` holds the same identities as `visited`,
so that its test never fails where that of `visited` does not. -/
def checkVisits (traversal : StructuralTraversalReceipt)
    (relationships : Finset StructuralEdgeKind) :
    List (Str × StructuralPathReceipt) → Finset Str → Except StructuralPacketError Unit
  | [], _ => .ok ()
  | (visitedId, path) :: rest, visited => do
      checkVisit snapshot traversal relationships visitedId path visited
      checkVisits traversal relationships rest (insert visitedId visited)

/-- Whether the reason of a skipped edge contradicts the edge. -/
def contradictsReason (edge : StructuralEdge) (reason : Str) : Bool :=
  if reason = "non-known".toList then edge.certainty = .known
  else if reason = "missing-target".toList then
    edge.certainty ≠ .known ||
      ((snapshot.node edge.source).isSome && (snapshot.node edge.target).isSome)
  else true

/-- One turn of the loop over the skipped edges. -/
def checkSkipped (relationships : Finset StructuralEdgeKind) (skipped : SkippedStructuralEdge) :
    Except StructuralPacketError Unit :=
  match snapshot.edge skipped.edgeId with
  | none => .error (traversalError "unknown-skipped-edge:" skipped.edgeId)
  | some edge =>
      failIf (edge.certainty ≠ skipped.certainty ∨ edge.kind ∉ relationships ∨
          contradictsReason snapshot edge skipped.reason = true)
        (traversalError "skipped-edge:" skipped.edgeId)

def terminalBoundMatches (traversal : StructuralTraversalReceipt) : Bool :=
  match traversal.terminal with
  | .complete => true
  | .depthLimit => traversal.paths.any fun path => path.steps.length = traversal.maxDepth
  | .nodeLimit => traversal.visitedIds.length = traversal.maxNodes
  | .edgeLimit => traversal.inspectedEdgeCount = traversal.maxEdges

/-- `validate_traversal_receipt`.  The first entries of `visited_ids` and `paths` exist by the
check of the counts. -/
def validateTraversalReceipt (ranking : RankingReceipt) (traversal : StructuralTraversalReceipt) :
    Except StructuralPacketError Unit := do
  failIf (traversal.snapshotDigest ≠ snapshot.snapshotDigest) .snapshotDigestMismatch
  failIf (traversal.seed ≠ ranking.seed) .traversalSeedMismatch
  failIf (traversal.maxDepth = 0 ∨ traversal.maxDepth > Traversal.maxDepth ∨
      traversal.maxNodes = 0 ∨ traversal.maxNodes > Traversal.maxNodes ∨
      traversal.maxEdges = 0 ∨ traversal.maxEdges > Traversal.maxEdges ∨
      traversal.visitedIds = [] ∨ traversal.visitedIds.length > traversal.maxNodes ∨
      traversal.paths.length ≠ traversal.visitedIds.length ∨
      traversal.inspectedEdgeCount > traversal.maxEdges)
    (.invalidTraversalReceipt "limits-or-counts".toList)
  let relationships ← collectDistinct
    (fun kind => failIf (isTraversableRelationship kind = false)
      (.invalidTraversalReceipt "relationships".toList))
    (fun _ => .invalidTraversalReceipt "relationships".toList) traversal.relationships ∅
  failIf (relationships = ∅) (.invalidTraversalReceipt "relationships".toList)
  checkVisits snapshot traversal relationships (traversal.visitedIds.zip traversal.paths) ∅
  failIf (traversal.visitedIds.head? ≠ some traversal.seed ∨
      (traversal.paths.head?.map StructuralPathReceipt.steps) ≠ some [] ∨
      traversal.acceptedEdgeCount ≠ traversal.paths.length - 1 ∨
      traversal.inspectedEdgeCount < traversal.acceptedEdgeCount)
    (.invalidTraversalReceipt "visit-accounting".toList)
  forEach (checkSkipped snapshot relationships) traversal.skippedEdges
  failIf (terminalBoundMatches traversal = false) (.invalidTraversalReceipt "terminal-bound".toList)

end Checks

/-! ## What an accepted ranking receipt says -/

variable {snapshot : StructuralGraphSnapshot} {ranking : RankingReceipt}
  {traversal : StructuralTraversalReceipt}

theorem receiptNode_eq_ok_iff {id : Str} {node : StructuralNode} :
    receiptNode snapshot id = .ok node ↔ node ∈ snapshot.nodes ∧ node.id = id := by
  rw [← SnapshotFields.node_eq_some_iff snapshot.isValid, receiptNode]
  cases snapshot.node id <;> simp

/-- The decision of an item fits the list it is in. -/
def FitsList (selected : Bool) (item : RankingItemReceipt) : Prop :=
  match selected with
  | true => item.decision = .selected ∧ item.rankKey.eligibility = .eligible
  | false =>
      (item.decision = .omitted .lifecycleConflict ∧ item.rankKey.eligibility = .ineligible) ∨
        (item.decision = .omitted .selectionLimit ∧ item.rankKey.eligibility = .eligible)

theorem decisionMatch_eq_some_iff {selected conflict : Bool} {item : RankingItemReceipt}
    {eligible : Bool} (heligible : decide (item.rankKey.eligibility = .eligible) = eligible) :
    decisionMatch selected item.decision eligible = some conflict ↔
      FitsList selected item ∧ conflict = decide (item.decision = .omitted .lifecycleConflict) := by
  subst heligible
  rcases item with ⟨_, _, ⟨eligibility⟩, _, decision⟩
  rcases decision with _ | ⟨_ | _⟩ <;> cases eligibility <;> cases selected <;>
    simp [decisionMatch, FitsList, eq_comm]

/-- One item is accepted when it describes a node that is not listed yet and its decision fits. -/
theorem scanRankedItem_eq_ok_iff {selected : Bool} {item : RankingItemReceipt}
    {scan scan' : RankingScan} :
    scanRankedItem snapshot selected item scan = .ok scan' ↔
      item.nodeId ∉ scan.ids ∧ (∃ node ∈ snapshot.nodes, Describes node item) ∧
        FitsList selected item ∧
        scan' = ⟨insert item.nodeId scan.ids,
          scan.lifecycleConflicts ++ conflictNodeIds [item]⟩ := by
  have hconflicts : conflictNodeIds [item] =
      if item.decision = .omitted .lifecycleConflict then [item.nodeId] else [] := by
    unfold conflictNodeIds
    split_ifs with h <;> simp [h]
  simp only [scanRankedItem, check_bind_eq_ok_iff, failIf_eq_ok_iff,
    bind_eq_ok_iff (α := StructuralNode), receiptNode_eq_ok_iff, not_or, not_not]
  constructor
  · rintro ⟨hnew, node, ⟨hnode, hid⟩, ⟨hpath, hkeyId, hkeyPath⟩, heligible, hmatch⟩
    cases hdecision : decisionMatch selected item.decision (decide (node.lifecycle = .current)) with
    | none => simp [hdecision] at hmatch
    | some conflict =>
        obtain ⟨hfits, hconflict⟩ := (decisionMatch_eq_some_iff heligible).mp hdecision
        simp only [hdecision, ok.injEq] at hmatch
        have hcurrent := decide_eq_decide.mp heligible
        refine ⟨hnew, ⟨node, hnode, hid.symm, hpath, hkeyId.trans hid.symm,
          hkeyPath.trans hpath, hcurrent⟩, hfits, ?_⟩
        rw [← hmatch, hconflicts, hconflict]
        by_cases h : item.decision = .omitted .lifecycleConflict <;> simp [h]
  · rintro ⟨hnew, ⟨node, hnode, hid, hpath, hkeyId, hkeyPath, hcurrent⟩, hfits, rfl⟩
    have heligible : decide (item.rankKey.eligibility = .eligible) =
        decide (node.lifecycle = .current) := decide_eq_decide.mpr hcurrent
    have hdecision := (decisionMatch_eq_some_iff heligible).mpr ⟨hfits, rfl⟩
    refine ⟨hnew, node, ⟨hnode, hid.symm⟩, ⟨hpath, hkeyId.trans hid.symm,
      hkeyPath.trans hpath.symm⟩, heligible, ?_⟩
    simp only [hdecision, ok.injEq, hconflicts]
    by_cases h : item.decision = .omitted .lifecycleConflict <;> simp [h]

theorem conflictNodeIds_cons (item : RankingItemReceipt) (rest : List RankingItemReceipt) :
    conflictNodeIds (item :: rest) = conflictNodeIds [item] ++ conflictNodeIds rest := by
  unfold conflictNodeIds
  rw [← map_append, ← filter_append]
  rfl

/-- The loop over one list. -/
theorem scanRankedItems_eq_ok_iff {selected : Bool} {items : List RankingItemReceipt}
    {scan scan' : RankingScan} :
    scanRankedItems snapshot selected items scan = .ok scan' ↔
      (items.map RankingItemReceipt.nodeId).Nodup ∧
        (∀ item ∈ items, item.nodeId ∉ scan.ids ∧
          (∃ node ∈ snapshot.nodes, Describes node item) ∧ FitsList selected item) ∧
        scan' = ⟨scan.ids ∪ (items.map RankingItemReceipt.nodeId).toFinset,
          scan.lifecycleConflicts ++ conflictNodeIds items⟩ := by
  induction items generalizing scan with
  | nil => simp [scanRankedItems, conflictNodeIds, eq_comm]
  | cons item rest ih =>
      rw [scanRankedItems, bind_eq_ok_iff]
      simp only [scanRankedItem_eq_ok_iff, ih]
      have hids : ∀ ids : Finset Str,
          insert item.nodeId ids ∪ (rest.map RankingItemReceipt.nodeId).toFinset =
            ids ∪ ((item :: rest).map RankingItemReceipt.nodeId).toFinset := by
        intro ids
        ext id
        simp only [Finset.mem_union, Finset.mem_insert, mem_toFinset, map_cons,
          mem_cons]
        tauto
      rw [conflictNodeIds_cons item rest, map_cons, nodup_cons, forall_mem_cons]
      constructor
      · rintro ⟨middle, ⟨hnew, hdescribed, hfits, rfl⟩, hnodup, hrest, rfl⟩
        refine ⟨⟨?_, hnodup⟩, ⟨⟨hnew, hdescribed, hfits⟩, ?_⟩, ?_⟩
        · intro hmem
          obtain ⟨other, hother, hid⟩ := mem_map.mp hmem
          exact (hrest other hother).1 (hid ▸ Finset.mem_insert_self _ _)
        · intro other hother
          exact ⟨fun hmem => (hrest other hother).1 (Finset.mem_insert_of_mem hmem),
            (hrest other hother).2⟩
        · rw [hids, append_assoc, map_cons]
      · rintro ⟨⟨hhead, hnodup⟩, ⟨⟨hnew, hdescribed, hfits⟩, hrest⟩, rfl⟩
        refine ⟨_, ⟨hnew, hdescribed, hfits, rfl⟩, hnodup, ?_, ?_⟩
        · intro other hother
          refine ⟨fun hmem => ?_, (hrest other hother).2⟩
          rcases Finset.mem_insert.mp hmem with heq | hmem
          · exact hhead (heq ▸ mem_map_of_mem hother)
          · exact (hrest other hother).1 hmem
        · rw [hids, append_assoc, map_cons]

/-- What `validate_ranking_receipt` accepts. -/
structure BoundRanking (snapshot : StructuralGraphSnapshot) (ranking : RankingReceipt) : Prop where
  candidateCount : ranking.candidateCount = snapshot.nodes.length
  total : ranking.selected.length + ranking.omittedConflicts.length = ranking.candidateCount
  limit : ranking.selected.length ≤ ranking.requestedSelectionLimit
  distinct : ((ranking.selected ++ ranking.omittedConflicts).map RankingItemReceipt.nodeId).Nodup
  described : ∀ item ∈ ranking.selected ++ ranking.omittedConflicts,
    ∃ node ∈ snapshot.nodes, Describes node item
  selectedItems : ∀ item ∈ ranking.selected, FitsList true item
  omittedItems : ∀ item ∈ ranking.omittedConflicts, FitsList false item
  conflictsVisible :
    ranking.conflicts.conflictsVisible = decide (conflictNodeIds ranking.omittedConflicts ≠ [])
  conflicts : ranking.conflicts.nodeIds = conflictNodeIds ranking.omittedConflicts

theorem validateRankingReceipt_eq_ok_iff {ids : Finset Str} :
    validateRankingReceipt snapshot ranking = .ok ids ↔
      BoundRanking snapshot ranking ∧
        ids = ((ranking.selected ++ ranking.omittedConflicts).map
          RankingItemReceipt.nodeId).toFinset := by
  -- selected items have another decision than the conflicts
  have hselected : (∀ item ∈ ranking.selected, FitsList true item) →
      conflictNodeIds ranking.selected = [] := by
    intro hfits
    unfold conflictNodeIds
    rw [map_eq_nil_iff, filter_eq_nil_iff]
    intro item hitem
    simp [(hfits item hitem).1]
  have hvisible : ∀ (visible : Bool) (conflicts : List Str),
      ¬ visible = conflicts.isEmpty ↔ visible = decide (conflicts ≠ []) := by
    intro visible conflicts
    cases visible <;> cases conflicts <;> simp
  simp only [validateRankingReceipt, check_bind_eq_ok_iff, failIf_eq_ok_iff,
    bind_eq_ok_iff (α := RankingScan), scanRankedItems_eq_ok_iff, not_or, not_not, not_lt,
    gt_iff_lt, hvisible, ok.injEq]
  constructor
  · rintro ⟨⟨hcount, htotal, hlimit⟩, first, ⟨hnodup, hitems, rfl⟩, second,
      ⟨hnodup', hitems', rfl⟩, ⟨hconflictsVisible, hconflicts⟩, rfl⟩
    have hnone := hselected fun item hitem => (hitems item hitem).2.2
    simp only [hnone, nil_append, Finset.empty_union] at *
    refine ⟨{
      candidateCount := hcount
      total := htotal
      limit := hlimit
      distinct := ?_
      described := ?_
      selectedItems := fun item hitem => (hitems item hitem).2.2
      omittedItems := fun item hitem => (hitems' item hitem).2.2
      conflictsVisible := hconflictsVisible
      conflicts := hconflicts }, ?_⟩
    · rw [map_append, nodup_append]
      refine ⟨hnodup, hnodup', ?_⟩
      intro id hid other hother heq
      obtain ⟨item, hitem, rfl⟩ := mem_map.mp hother
      exact (hitems' item hitem).1 (mem_toFinset.mpr (heq ▸ hid))
    · intro item hitem
      rcases mem_append.mp hitem with hitem | hitem
      · exact (hitems item hitem).2.1
      · exact (hitems' item hitem).2.1
    · rw [map_append, toFinset_append]
  · rintro ⟨hbound, rfl⟩
    have hdistinct := hbound.distinct
    rw [map_append, nodup_append] at hdistinct
    have hnone := hselected hbound.selectedItems
    refine ⟨⟨hbound.candidateCount, hbound.total, hbound.limit⟩, _,
      ⟨hdistinct.1, fun item hitem => ⟨Finset.notMem_empty _,
        hbound.described item (mem_append_left _ hitem), hbound.selectedItems item hitem⟩,
        rfl⟩, _, ⟨hdistinct.2.1, fun item hitem => ⟨?_,
        hbound.described item (mem_append_right _ hitem), hbound.omittedItems item hitem⟩,
        rfl⟩, ?_, ?_⟩
    · intro hmem
      rw [Finset.empty_union, mem_toFinset] at hmem
      exact hdistinct.2.2 _ hmem _ (mem_map_of_mem hitem) rfl
    · rw [hnone, nil_append, nil_append]
      exact ⟨hbound.conflictsVisible, hbound.conflicts⟩
    · rw [map_append, toFinset_append, Finset.empty_union]

/-- The ranker's receipt is accepted. -/
theorem boundRanking_of_rankingOf {ranker : StageRanker} (h : RankingOf ranker ranking) :
    BoundRanking ranker.snapshot ranking where
  candidateCount := h.candidateCount
  total := by
    have hlength := h.perm.length_eq
    rw [length_map, length_map, length_append] at hlength
    rw [hlength, h.candidateCount]
  limit := h.limit
  distinct := h.perm.nodup_iff.mpr ranker.snapshot.isValid.indexable.nodeIds
  described := h.described
  selectedItems := h.selectedItems
  omittedItems := h.omittedItems
  conflictsVisible := h.conflictsVisible
  conflicts := h.conflicts

/-! ## What an accepted traversal receipt says -/

/-- The two modules list the same kinds. -/
theorem isTraversableRelationship_eq (kind : StructuralEdgeKind) :
    isTraversableRelationship kind = traversableStructuralKind kind := by
  cases kind <;> rfl

section Paths

variable {relationships : Finset StructuralEdgeKind} {kinds : List StructuralEdgeKind}
  {pathId : Str}

/-- A step is accepted when it records a followed edge to a node that is not passed yet. -/
theorem followStep_eq_ok_iff (hkinds : ∀ kind, kind ∈ relationships ↔ kind ∈ kinds)
    {step : StructuralPathStep} {position position' : PathPosition} :
    followStep snapshot relationships pathId step position = .ok position' ↔
      ∃ edge next, Followed snapshot kinds edge ∧ Joins edge position.current next ∧
        step = pathStep edge ∧ next ∉ position.pathNodes ∧
        position' = ⟨next, insert next position.pathNodes⟩ := by
  have hlookup : ∀ edge, snapshot.edge step.edgeId = some edge ↔
      edge ∈ snapshot.edges ∧ edge.id = step.edgeId :=
    fun edge => SnapshotFields.edge_eq_some_iff snapshot.isValid
  unfold followStep
  constructor
  · intro h
    cases hedge : snapshot.edge step.edgeId with
    | none => simp [hedge] at h
    | some edge =>
        obtain ⟨hmember, hid⟩ := (hlookup edge).mp hedge
        simp only [hedge, check_bind_eq_ok_iff, failIf_eq_ok_iff, not_or, not_not, hkinds,
          not_and_or, ok.injEq] at h
        obtain ⟨⟨hkind, hsource, htarget, hlocator, hknown, hallowed⟩, hend, ⟨_, hnew⟩, rfl⟩ := h
        refine ⟨edge, _, ⟨hmember, hknown, hkind ▸ hallowed⟩, joins_iff.mpr ⟨hend, rfl⟩, ?_, hnew,
          rfl⟩
        cases step
        simp_all [pathStep]
  · rintro ⟨edge, next, hfollowed, hjoins, rfl, hnew, rfl⟩
    have hedge : snapshot.edge (pathStep edge).edgeId = some edge :=
      (hlookup edge).mpr ⟨hfollowed.1, rfl⟩
    have hlinked : Linked snapshot kinds position.current next := ⟨edge, hfollowed, hjoins⟩
    obtain ⟨hend, hother⟩ := joins_iff.mp hjoins
    rw [otherEnd] at hother
    simp only [hedge, check_bind_eq_ok_iff, failIf_eq_ok_iff, not_or, not_not, hkinds,
      not_and_or, hother]
    exact ⟨⟨rfl, rfl, rfl, rfl, hfollowed.2.1, hfollowed.2.2⟩, hend, ⟨hlinked.isNode, hnew⟩,
      trivial⟩

theorem followSteps_append (steps rest : List StructuralPathStep) (position : PathPosition) :
    followSteps snapshot relationships pathId (steps ++ rest) position =
      followSteps snapshot relationships pathId steps position >>=
        followSteps snapshot relationships pathId rest := by
  induction steps generalizing position with
  | nil => rfl
  | cons step steps ih =>
      rw [cons_append, followSteps, followSteps, bind_assoc]
      exact bind_congr fun position => ih position

/-- The steps are accepted when they are a walk from the seed that passes no node twice; by
induction from the last step. -/
theorem followSteps_eq_ok_iff (hkinds : ∀ kind, kind ∈ relationships ↔ kind ∈ kinds)
    {seed : Str} {steps : List StructuralPathStep} {position : PathPosition} :
    followSteps snapshot relationships pathId steps ⟨seed, {seed}⟩ = .ok position ↔
      ∃ nodes, KnownWalk snapshot kinds seed steps nodes position.current ∧ nodes.Nodup ∧
        position.pathNodes = nodes.toFinset := by
  induction steps using List.reverseRecOn generalizing position with
  | nil =>
      obtain ⟨current, pathNodes⟩ := position
      simp only [followSteps, ok.injEq, PathPosition.mk.injEq, knownWalk_nil_iff]
      constructor
      · rintro ⟨rfl, rfl⟩
        exact ⟨[seed], ⟨rfl, rfl⟩, nodup_singleton _, rfl⟩
      · rintro ⟨nodes, ⟨rfl, rfl⟩, _, hnodes⟩
        exact ⟨rfl, hnodes.symm⟩
  | append_singleton steps step ih =>
      have hlast : ∀ middle, followSteps snapshot relationships pathId [step] middle =
          followStep snapshot relationships pathId step middle := by
        intro middle
        rw [followSteps]
        exact bind_pure _
      rw [followSteps_append, bind_eq_ok_iff]
      simp only [ih, hlast, followStep_eq_ok_iff hkinds, knownWalk_snoc_iff]
      constructor
      · rintro ⟨middle, ⟨nodes, hwalk, hnodup, hmiddle⟩, edge, next, hfollowed, hjoins, rfl, hnew,
          rfl⟩
        rw [hmiddle, mem_toFinset] at hnew
        refine ⟨nodes ++ [next], ⟨nodes, middle.current, edge, hwalk, hfollowed, hjoins, rfl, rfl⟩,
          ?_, ?_⟩
        · exact nodup_append.mpr ⟨hnodup, nodup_singleton _, by
            intro id hid other hother heq
            rw [heq, mem_singleton.mp hother] at hid
            exact hnew hid⟩
        · show insert next middle.pathNodes = _
          rw [hmiddle]
          ext id
          simp
      · rintro ⟨_, ⟨nodes, node, edge, hwalk, hfollowed, hjoins, rfl, rfl⟩, hnodup, hposition⟩
        rw [nodup_append] at hnodup
        refine ⟨⟨node, nodes.toFinset⟩, ⟨nodes, hwalk, hnodup.1, rfl⟩, edge, position.current,
          hfollowed, hjoins, rfl, ?_, ?_⟩
        · intro hmem
          exact hnodup.2.2 _ (mem_toFinset.mp hmem) _ (mem_singleton_self _) rfl
        · obtain ⟨current, pathNodes⟩ := position
          simp only at hposition
          rw [hposition]
          congr 1
          ext id
          simp

/-- What is checked of one visited node and its path. -/
structure BoundVisit (snapshot : StructuralGraphSnapshot) (traversal : StructuralTraversalReceipt)
    (visitedId : Str) (path : StructuralPathReceipt) : Prop where
  same : visitedId = path.nodeId
  isNode : HoldsStructural snapshot.nodes visitedId
  depth : path.steps.length ≤ traversal.maxDepth
  simple : IsSimplePath snapshot traversal.relationships traversal.seed path.steps path.nodeId

theorem checkVisit_eq_ok_iff
    (hkinds : ∀ kind, kind ∈ relationships ↔ kind ∈ traversal.relationships) {visitedId : Str}
    {path : StructuralPathReceipt} {visited : Finset Str} :
    checkVisit snapshot traversal relationships visitedId path visited = .ok () ↔
      visitedId ∉ visited ∧ BoundVisit snapshot traversal visitedId path := by
  simp only [checkVisit, check_bind_eq_ok_iff, failIf_eq_ok_iff,
    bind_eq_ok_iff (α := PathPosition), followSteps_eq_ok_iff hkinds, not_or, not_not, not_lt,
    gt_iff_lt, SnapshotFields.node_eq_none_iff snapshot.isValid]
  constructor
  · rintro ⟨⟨hsame, hnew, hnode, hdepth⟩, position, ⟨nodes, hwalk, hnodup, _⟩, hend⟩
    exact ⟨hnew, hsame, hnode, hdepth, nodes, hend ▸ hwalk, hnodup⟩
  · rintro ⟨hnew, hsame, hnode, hdepth, nodes, hwalk, hnodup⟩
    exact ⟨⟨hsame, hnew, hnode, hdepth⟩, ⟨path.nodeId, nodes.toFinset⟩,
      ⟨nodes, hwalk, hnodup, rfl⟩, rfl⟩

theorem checkVisits_eq_ok_iff
    (hkinds : ∀ kind, kind ∈ relationships ↔ kind ∈ traversal.relationships)
    {pairs : List (Str × StructuralPathReceipt)} {visited : Finset Str} :
    checkVisits snapshot traversal relationships pairs visited = .ok () ↔
      (pairs.map Prod.fst).Nodup ∧
        ∀ pair ∈ pairs, pair.1 ∉ visited ∧ BoundVisit snapshot traversal pair.1 pair.2 := by
  induction pairs generalizing visited with
  | nil => simp [checkVisits]
  | cons pair rest ih =>
      obtain ⟨visitedId, path⟩ := pair
      rw [checkVisits, check_bind_eq_ok_iff, checkVisit_eq_ok_iff hkinds, ih, map_cons,
        nodup_cons, forall_mem_cons]
      constructor
      · rintro ⟨hhead, hnodup, hrest⟩
        refine ⟨⟨?_, hnodup⟩, hhead, fun pair hpair => ⟨fun hmem => ?_, (hrest pair hpair).2⟩⟩
        · intro hmem
          obtain ⟨pair, hpair, hid⟩ := mem_map.mp hmem
          exact (hrest pair hpair).1 (hid ▸ Finset.mem_insert_self _ _)
        · exact (hrest pair hpair).1 (Finset.mem_insert_of_mem hmem)
      · rintro ⟨⟨hhead, hnodup⟩, hvisit, hrest⟩
        refine ⟨hvisit, hnodup, fun pair hpair => ⟨fun hmem => ?_, (hrest pair hpair).2⟩⟩
        rcases Finset.mem_insert.mp hmem with heq | hmem
        · exact hhead (mem_map.mpr ⟨pair, hpair, heq⟩)
        · exact (hrest pair hpair).1 hmem

end Paths

/-- What `validate_traversal_receipt` accepts. -/
structure BoundTraversal (snapshot : StructuralGraphSnapshot) (ranking : RankingReceipt)
    (traversal : StructuralTraversalReceipt) : Prop where
  snapshotDigest : traversal.snapshotDigest = snapshot.snapshotDigest
  seed : traversal.seed = ranking.seed
  depth : traversal.maxDepth ≠ 0 ∧ traversal.maxDepth ≤ Traversal.maxDepth
  nodes : traversal.maxNodes ≠ 0 ∧ traversal.maxNodes ≤ Traversal.maxNodes
  edges : traversal.maxEdges ≠ 0 ∧ traversal.maxEdges ≤ Traversal.maxEdges
  visitedLe : traversal.visitedIds.length ≤ traversal.maxNodes
  inspectedLe : traversal.inspectedEdgeCount ≤ traversal.maxEdges
  relationships : traversal.relationships ≠ []
  traversable : ∀ kind ∈ traversal.relationships, traversableStructuralKind kind = true
  distinctRelationships : traversal.relationships.Nodup
  pathNodes : traversal.paths.map StructuralPathReceipt.nodeId = traversal.visitedIds
  distinct : traversal.visitedIds.Nodup
  visits : ∀ path ∈ traversal.paths, BoundVisit snapshot traversal path.nodeId path
  seedFirst : traversal.visitedIds.head? = some traversal.seed
  firstPath : traversal.paths.head?.map StructuralPathReceipt.steps = some []
  accepted : traversal.acceptedEdgeCount = traversal.paths.length - 1
  acceptedLe : traversal.acceptedEdgeCount ≤ traversal.inspectedEdgeCount
  skipped : ∀ record ∈ traversal.skippedEdges, ∃ edge ∈ snapshot.edges, edge.id = record.edgeId ∧
    edge.certainty = record.certainty ∧ edge.kind ∈ traversal.relationships ∧
    contradictsReason snapshot edge record.reason = false
  terminal : terminalBoundMatches traversal = true

theorem checkSkipped_eq_ok_iff {relationships : Finset StructuralEdgeKind}
    (hkinds : ∀ kind, kind ∈ relationships ↔ kind ∈ traversal.relationships)
    {record : SkippedStructuralEdge} :
    checkSkipped snapshot relationships record = .ok () ↔
      ∃ edge ∈ snapshot.edges, edge.id = record.edgeId ∧ edge.certainty = record.certainty ∧
        edge.kind ∈ traversal.relationships ∧
        contradictsReason snapshot edge record.reason = false := by
  have hlookup : ∀ edge, snapshot.edge record.edgeId = some edge ↔
      edge ∈ snapshot.edges ∧ edge.id = record.edgeId :=
    fun edge => SnapshotFields.edge_eq_some_iff snapshot.isValid
  unfold checkSkipped
  constructor
  · intro h
    cases hedge : snapshot.edge record.edgeId with
    | none => simp [hedge] at h
    | some edge =>
        obtain ⟨hmember, hid⟩ := (hlookup edge).mp hedge
        simp only [hedge, failIf_eq_ok_iff, not_or, not_not, hkinds, Bool.not_eq_true] at h
        exact ⟨edge, hmember, hid, h⟩
  · rintro ⟨edge, hmember, hid, h⟩
    simp only [(hlookup edge).mpr ⟨hmember, hid⟩, failIf_eq_ok_iff, not_or, not_not, hkinds,
      Bool.not_eq_true]
    exact h

/-- Two lists of one length agree at every place when they agree along the zip. -/
theorem forall_zip_iff {ids : List Str} {paths : List StructuralPathReceipt}
    (hlength : paths.length = ids.length) {P : Str → StructuralPathReceipt → Prop}
    (hsame : ∀ id path, P id path → id = path.nodeId) :
    (∀ pair ∈ ids.zip paths, P pair.1 pair.2) ↔
      paths.map StructuralPathReceipt.nodeId = ids ∧ ∀ path ∈ paths, P path.nodeId path := by
  induction ids generalizing paths with
  | nil =>
      obtain rfl := length_eq_zero_iff.mp hlength
      simp
  | cons id rest ih =>
      obtain _ | ⟨path, paths⟩ := paths
      · simp at hlength
      · rw [zip_cons_cons, forall_mem_cons, ih (by simpa using hlength), map_cons,
          List.cons.injEq, forall_mem_cons]
        constructor
        · rintro ⟨hhead, hids, hpaths⟩
          have heq := hsame _ _ hhead
          exact ⟨⟨heq.symm, hids⟩, heq ▸ hhead, hpaths⟩
        · rintro ⟨⟨rfl, hids⟩, hhead, hpaths⟩
          exact ⟨hhead, hids, hpaths⟩

theorem validateTraversalReceipt_eq_ok_iff :
    validateTraversalReceipt snapshot ranking traversal = .ok () ↔
      BoundTraversal snapshot ranking traversal := by
  simp only [validateTraversalReceipt, check_bind_eq_ok_iff, failIf_eq_ok_iff,
    bind_eq_ok_iff (α := Finset StructuralEdgeKind), collectDistinct_eq_ok_iff,
    forEach_eq_ok_iff, isTraversableRelationship_eq, not_or, not_not, not_lt, gt_iff_lt,
    Bool.not_eq_false, Finset.notMem_empty, not_false_eq_true, implies_true, true_and, false_or]
  constructor
  · rintro ⟨hdigest, hseed, ⟨hdepth, hdepth', hnodes, hnodes', hedges, hedges', hvisited,
      hvisitedLe, hlength, hinspected⟩, relationships, ⟨htraversable, hdistinct, hkinds⟩,
      hnonempty, hvisits, ⟨hfirst, hfirstPath, haccepted, hacceptedLe⟩, hskipped, hterminal⟩
    obtain ⟨hnodup, hpairs⟩ := (checkVisits_eq_ok_iff hkinds).mp hvisits
    rw [map_fst_zip hlength.ge] at hnodup
    obtain ⟨hpaths, hbound⟩ := (forall_zip_iff hlength
      (P := BoundVisit snapshot traversal) fun _ _ h => h.same).mp fun pair hpair =>
        (hpairs pair hpair).2
    exact {
      snapshotDigest := hdigest
      seed := hseed
      depth := ⟨hdepth, hdepth'⟩
      nodes := ⟨hnodes, hnodes'⟩
      edges := ⟨hedges, hedges'⟩
      visitedLe := hvisitedLe
      inspectedLe := hinspected
      relationships := by
        rintro hempty
        apply hnonempty
        ext kind
        simp [hkinds, hempty]
      traversable := htraversable
      distinctRelationships := hdistinct
      pathNodes := hpaths
      distinct := hnodup
      visits := hbound
      seedFirst := hfirst
      firstPath := hfirstPath
      accepted := haccepted
      acceptedLe := hacceptedLe
      skipped := fun record hrecord => (checkSkipped_eq_ok_iff hkinds).mp (hskipped record hrecord)
      terminal := hterminal }
  · intro h
    have hkinds : ∀ kind, kind ∈ traversal.relationships.toFinset ↔
        kind ∈ traversal.relationships := fun kind => mem_toFinset
    have hlength : traversal.paths.length = traversal.visitedIds.length := by
      rw [← h.pathNodes, length_map]
    have hvisited : traversal.visitedIds ≠ [] := by
      intro hempty
      have hfirst := h.seedFirst
      rw [hempty] at hfirst
      simp at hfirst
    refine ⟨h.snapshotDigest, h.seed, ⟨h.depth.1, h.depth.2, h.nodes.1, h.nodes.2, h.edges.1,
      h.edges.2, hvisited, h.visitedLe, hlength, h.inspectedLe⟩, traversal.relationships.toFinset,
      ⟨h.traversable, h.distinctRelationships, hkinds⟩, ?_, ?_,
      ⟨h.seedFirst, h.firstPath, h.accepted, h.acceptedLe⟩,
      fun record hrecord => (checkSkipped_eq_ok_iff hkinds).mpr (h.skipped record hrecord),
      h.terminal⟩
    · simpa using h.relationships
    · refine (checkVisits_eq_ok_iff hkinds).mpr ⟨?_, fun pair hpair =>
        ⟨Finset.notMem_empty _, ?_⟩⟩
      · rw [map_fst_zip hlength.ge]
        exact h.distinct
      · exact (forall_zip_iff hlength (P := BoundVisit snapshot traversal)
          fun _ _ h => h.same).mpr ⟨h.pathNodes, h.visits⟩ pair hpair

/-! ## The producers -/

/-- The receipt of a finished search is accepted next to a ranking of the same seed. -/
theorem boundTraversal_of_inv {request : StructuralTraversalRequest}
    (haccepted : AcceptedTraversal snapshot request) {done pending : List QueueEntry}
    {state : TraversalState} (hinv : TraversalInv snapshot request done pending state)
    (hreason : StopReason snapshot request pending state) (hseed : request.seed = ranking.seed) :
    BoundTraversal snapshot ranking (traversalReceipt snapshot request state) := by
  have hexact := exactTraversal_of_inv hinv hreason
  have hfirst : state.paths.head? = some ⟨request.seed, []⟩ := by
    rw [hinv.paths, head?_map, hinv.first]
    rfl
  have hlength : state.paths.length = state.visitedIds.length := by
    rw [hinv.paths, hinv.visitedIds, length_map, length_map]
  have hisNode : ∀ id ∈ state.visitedIds, HoldsStructural snapshot.nodes id := by
    intro id hid
    rcases Relation.ReflTransGen.cases_tail (hinv.connected hid) with heq | ⟨node, _, hlinked⟩
    · exact heq ▸ haccepted.seed
    · exact not_not.mp fun hmissing =>
        hlinked.isNode ((SnapshotFields.node_eq_none_iff snapshot.isValid).mpr hmissing)
  exact {
    snapshotDigest := rfl
    seed := hseed
    depth := ⟨haccepted.depth.1.ne', haccepted.depth.2⟩
    nodes := ⟨haccepted.nodes.1.ne', haccepted.nodes.2⟩
    edges := ⟨haccepted.edges.1.ne', haccepted.edges.2⟩
    visitedLe := hexact.nodesLe
    inspectedLe := hexact.inspectedLe
    relationships := haccepted.relationships
    traversable := haccepted.traversable
    distinctRelationships := haccepted.distinct
    pathNodes := hexact.pathNodes
    distinct := hexact.nodup
    visits := by
      intro path hpath
      refine ⟨rfl, hisNode _ ?_, hexact.depthLe path hpath, hexact.simplePaths path hpath⟩
      show path.nodeId ∈ (traversalReceipt snapshot request state).visitedIds
      rw [← hexact.pathNodes]
      exact mem_map_of_mem hpath
    seedFirst := hexact.seedFirst
    firstPath := by
      show state.paths.head?.map StructuralPathReceipt.steps = some []
      rw [hfirst]
      rfl
    accepted := by
      show state.accepted = state.paths.length - 1
      have haccepted := hinv.accepted
      omega
    acceptedLe := hinv.acceptedLe
    skipped := by
      intro record hrecord
      obtain ⟨edge, hedge, hkind, hcertainty, rfl⟩ := hinv.skipped record hrecord
      refine ⟨edge, hedge, rfl, rfl, hkind, ?_⟩
      simp [contradictsReason, hcertainty]
    terminal := by
      unfold terminalBoundMatches
      unfold StopReason at hreason
      show (match state.terminal with
        | .complete => true
        | .depthLimit => state.paths.any fun path => path.steps.length = request.maxDepth
        | .nodeLimit => decide (state.visitedIds.length = request.maxNodes)
        | .edgeLimit => decide (state.inspected = request.maxEdges)) = true
      cases hterminal : state.terminal with
      | complete => rfl
      | depthLimit =>
          -- the entry in front of the queue has the longest path allowed
          rw [hterminal] at hreason
          obtain ⟨front, rest, next, rfl, hdepth, _, _⟩ := hreason
          have hfront : front ∈ done ++ front :: rest := by simp
          rw [any_eq_true]
          refine ⟨front.receipt, ?_, ?_⟩
          · rw [hinv.paths]
            exact mem_map_of_mem hfront
          · rw [decide_eq_true_iff]
            exact (hinv.lengths front hfront).trans hdepth
      | nodeLimit =>
          rw [hterminal] at hreason
          exact decide_eq_true hreason.1
      | edgeLimit =>
          rw [hterminal] at hreason
          exact decide_eq_true hreason }

/-- What the ranker and the traversal produce is accepted, and an accepted traversal receipt,
wherever it comes from, lists nodes with simple paths from the seed. -/
theorem producers_agree_with_validators (snapshot : StructuralGraphSnapshot) :
    (∀ (request : StageRankingRequest) (frequency : FrozenHistoricalFrequency)
        (ranker : StageRanker), StageRanker.new snapshot request frequency = .ok ranker →
      ∃ ranking, ranker.rank = some ranking ∧
        (∃ ids, validateRankingReceipt snapshot ranking = .ok ids) ∧
        ∀ (traversalRequest : StructuralTraversalRequest) (traversal : StructuralTraversalReceipt),
          Traversal.run snapshot traversalRequest = some (.ok traversal) →
          traversalRequest.seed = request.seed →
          validateTraversalReceipt snapshot ranking traversal = .ok ()) ∧
    ∀ (ranking : RankingReceipt) (traversal : StructuralTraversalReceipt),
      validateTraversalReceipt snapshot ranking traversal = .ok () →
      ∀ id ∈ traversal.visitedIds, HoldsStructural snapshot.nodes id ∧
        ∃ path ∈ traversal.paths, path.nodeId = id ∧
          IsSimplePath snapshot traversal.relationships traversal.seed path.steps id := by
  refine ⟨?_, ?_⟩
  · intro request frequency ranker hnew
    have hranker : ranker = ⟨snapshot, request, frequency⟩ := by
      simp only [StageRanker.new, check_bind_eq_ok_iff] at hnew
      obtain ⟨_, _, hnew⟩ := hnew
      split at hnew
      · simp at hnew
      · exact (Except.ok.inj hnew).symm
    obtain ⟨ranking, hrank, hranking⟩ := rank_spec ranker
    subst hranker
    refine ⟨ranking, hrank,
      ⟨_, validateRankingReceipt_eq_ok_iff.mpr ⟨boundRanking_of_rankingOf hranking, rfl⟩⟩, ?_⟩
    intro traversalRequest traversal hrun hseed
    have haccepted := run_isOk_iff.mp ⟨traversal, hrun⟩
    obtain ⟨state, done, pending, hspec, hinv, hreason⟩ := run_spec haccepted
    rw [hspec, Option.some.injEq, Except.ok.injEq] at hrun
    rw [← hrun]
    exact validateTraversalReceipt_eq_ok_iff.mpr
      (boundTraversal_of_inv haccepted hinv hreason (hseed.trans hranking.seed.symm))
  · intro ranking traversal hvalid id hid
    have hbound := validateTraversalReceipt_eq_ok_iff.mp hvalid
    rw [← hbound.pathNodes] at hid
    obtain ⟨path, hpath, rfl⟩ := mem_map.mp hid
    exact ⟨(hbound.visits path hpath).isNode, path, hpath, rfl, (hbound.visits path hpath).simple⟩

end Bran.Packet
