import Bran.Graph.Structural
import Bran.Library.Adjacency

/-!
# Structural graph snapshots

A `StructuralGraphSnapshot` is a record whose own `validate` succeeds: the field
`valid` says so, and `new` is the only way to make one.  `validate_eq_ok_iff`
lists what this means, and the accessors are described by it: a lookup finds
exactly the records of the snapshot, and the adjacency of a node is the list of
the edges at its end.
-/

namespace Bran.Graph

open Validation Adjacency

/-! ## Indexes -/

/-- The edge checks of `structural_indexes` that precede the duplicate check. -/
def checkStructuralEdge (nodeIndex : OrdMap Str ℕ) (edge : StructuralEdge) :
    Except GraphError Unit := do
  edge.validate
  failIf (nodeIndex.contains edge.source = false) (.missingStructuralSource edge.source)
  let targetPresent := nodeIndex.contains edge.target
  failIf (targetPresent = false ∧ edge.certainty ≠ .missingTarget)
    (.missingStructuralTarget edge.target)
  failIf (targetPresent = true ∧ edge.certainty = .missingTarget)
    (.presentStructuralTargetMarkedMissing edge.target)

/-- The loop over the nodes of `structural_indexes`. -/
def indexStructuralNodes (nodes : List StructuralNode) : Except GraphError (OrdMap Str ℕ) :=
  Adjacency.index StructuralNode.id StructuralNode.validate
    (fun node => .duplicateStructuralNodeId node.id) 0 nodes OrdMap.empty

/-- The loop over the edges of `structural_indexes`. -/
def linkStructuralEdges (nodeIndex : OrdMap Str ℕ) (edges : List StructuralEdge) :
    Except GraphError (Tables Str Str) :=
  link StructuralEdge.id StructuralEdge.source StructuralEdge.target
    (checkStructuralEdge nodeIndex) (fun edge => .duplicateStructuralEdgeId edge.id) 0 edges
    Tables.empty

/-- `structural_indexes`: the node index, and the edge index with both adjacency maps. -/
def structuralIndexes (nodes : List StructuralNode) (edges : List StructuralEdge) :
    Except GraphError (OrdMap Str ℕ × Tables Str Str) := do
  let nodeIndex ← indexStructuralNodes nodes
  let tables ← linkStructuralEdges nodeIndex edges
  .ok (nodeIndex, tables)

/-- A node list holds an identity. -/
def HoldsStructural (nodes : List StructuralNode) (id : Str) : Prop :=
  ∃ node ∈ nodes, node.id = id

instance (nodes : List StructuralNode) (id : Str) : Decidable (HoldsStructural nodes id) :=
  inferInstanceAs (Decidable (∃ node ∈ nodes, node.id = id))

/-- What `structural_indexes` requires of nodes and edges. -/
structure Indexable (nodes : List StructuralNode) (edges : List StructuralEdge) : Prop where
  validNodes : ∀ node ∈ nodes, node.validate = .ok ()
  validEdges : ∀ edge ∈ edges, edge.validate = .ok ()
  nodeIds : (nodes.map StructuralNode.id).Nodup
  edgeIds : (edges.map StructuralEdge.id).Nodup
  sources : ∀ edge ∈ edges, HoldsStructural nodes edge.source
  targets : ∀ edge ∈ edges, edge.certainty = .missingTarget ↔ ¬ HoldsStructural nodes edge.target

theorem contains_structuralIndex {nodes : List StructuralNode}
    (hnodup : (nodes.map StructuralNode.id).Nodup) {id : Str} :
    (positions (nodes.map StructuralNode.id)).contains id =
      decide (HoldsStructural nodes id) := by
  rw [Bool.eq_iff_iff, contains_positions hnodup, decide_eq_true_iff]
  rfl

theorem checkStructuralEdge_eq_ok_iff {nodes : List StructuralNode}
    (hnodup : (nodes.map StructuralNode.id).Nodup) {edge : StructuralEdge} :
    checkStructuralEdge (positions (nodes.map StructuralNode.id)) edge = .ok () ↔
      edge.validate = .ok () ∧ HoldsStructural nodes edge.source ∧
        (edge.certainty = .missingTarget ↔ ¬ HoldsStructural nodes edge.target) := by
  simp only [checkStructuralEdge, check_bind_eq_ok_iff, contains_structuralIndex hnodup,
    failIf_eq_ok_iff]
  refine and_congr_right fun _ => ?_
  by_cases hsource : HoldsStructural nodes edge.source
  · by_cases htarget : HoldsStructural nodes edge.target <;>
      by_cases hcertainty : edge.certainty = .missingTarget <;>
      simp [hsource, htarget, hcertainty]
  · simp [hsource]

/-- The indexes of a node and an edge list. -/
def indexesOf (nodes : List StructuralNode) (edges : List StructuralEdge) :
    OrdMap Str ℕ × Tables Str Str :=
  (positions (nodes.map StructuralNode.id),
    tablesOf StructuralEdge.id StructuralEdge.source StructuralEdge.target edges)

/-- `structural_indexes` succeeds exactly on indexable records. -/
theorem structuralIndexes_eq_ok_iff {nodes : List StructuralNode} {edges : List StructuralEdge}
    {indexes : OrdMap Str ℕ × Tables Str Str} :
    structuralIndexes nodes edges = .ok indexes ↔
      Indexable nodes edges ∧ indexesOf nodes edges = indexes := by
  simp only [structuralIndexes, bind_eq_ok_iff, indexStructuralNodes, linkStructuralEdges,
    index_eq_ok_iff, link_eq_ok_iff, Except.ok.injEq]
  constructor
  · rintro ⟨_, ⟨hnodes, hnodeIds, rfl⟩, _, ⟨hedges, hedgeIds, rfl⟩, rfl⟩
    simp only [checkStructuralEdge_eq_ok_iff hnodeIds] at hedges
    exact ⟨⟨hnodes, fun edge he => (hedges edge he).1, hnodeIds, hedgeIds,
      fun edge he => (hedges edge he).2.1, fun edge he => (hedges edge he).2.2⟩, rfl⟩
  · rintro ⟨hindexable, rfl⟩
    refine ⟨_, ⟨hindexable.validNodes, hindexable.nodeIds, rfl⟩, _, ⟨?_, hindexable.edgeIds, rfl⟩, rfl⟩
    intro edge hedge
    rw [checkStructuralEdge_eq_ok_iff hindexable.nodeIds]
    exact ⟨hindexable.validEdges edge hedge, hindexable.sources edge hedge,
      hindexable.targets edge hedge⟩

/-! ## The record and its canonical form -/

/-- The fields of `StructuralGraphSnapshot`; `forward` and `reverse` are kept with the
edge index. -/
structure SnapshotFields where
  schemaVersion : ℕ
  snapshotDigest : Str
  casePolicy : StructuralPathCasePolicy
  parentDigest : Option Str
  scanInputDigest : Str
  graphDigest : Str
  frozenFrequencyDigest : Str
  nodes : List StructuralNode
  edges : List StructuralEdge
  nodeIndex : OrdMap Str ℕ
  tables : Tables Str Str
  receipt : StructuralSnapshotReceipt
  deriving DecidableEq

namespace SnapshotFields

/-- `StructuralGraphSnapshot::node`. -/
def node (snapshot : SnapshotFields) (id : Str) : Option StructuralNode :=
  lookup snapshot.nodeIndex snapshot.nodes id

/-- `StructuralGraphSnapshot::edge`. -/
def edge (snapshot : SnapshotFields) (id : Str) : Option StructuralEdge :=
  lookup snapshot.tables.edgeIndex snapshot.edges id

/-- `StructuralGraphSnapshot::forward_edges`. -/
def forwardEdges (snapshot : SnapshotFields) (id : Str) : List Str :=
  listUnder snapshot.tables.forward id

/-- `StructuralGraphSnapshot::reverse_edges`. -/
def reverseEdges (snapshot : SnapshotFields) (id : Str) : List Str :=
  listUnder snapshot.tables.reverse id

/-- One record of `write_adjacency`. -/
def writeAdjacencyRecord (snapshot : SnapshotFields) (node : StructuralNode) : Str :=
  "\x7b\"forward\":[".toList ++ writeJsonStrings (snapshot.forwardEdges node.id) ++
    "],\"node_id\":".toList ++ writeJsonString node.id ++
    ",\"reverse\":[".toList ++ writeJsonStrings (snapshot.reverseEdges node.id) ++ "]\x7d".toList

def writeAdjacency (snapshot : SnapshotFields) : Str :=
  writeJsonArray snapshot.nodes snapshot.writeAdjacencyRecord

/-- One record of `write_index_records`. -/
def writeIndexRecord (record : Str × ℕ) : Str :=
  "\x7b\"id\":".toList ++ writeJsonString record.1 ++
    ",\"position\":".toList ++ Text.decimal record.2 ++ "\x7d".toList

def writeIndexRecords (index : OrdMap Str ℕ) : Str := writeJsonArray index.entries writeIndexRecord

def writeIndexes (snapshot : SnapshotFields) : Str :=
  "\x7b\"edges\":[".toList ++ writeIndexRecords snapshot.tables.edgeIndex ++
    "],\"nodes\":[".toList ++ writeIndexRecords snapshot.nodeIndex ++ "]\x7d".toList

def canonicalJsonWithoutDigest (snapshot : SnapshotFields) : Str :=
  "\x7b\"adjacency\":[".toList ++ snapshot.writeAdjacency ++
    "],\"case_policy\":".toList ++ writeJsonString snapshot.casePolicy.asStr ++
    ",\"edges\":[".toList ++ writeJsonArray snapshot.edges writeStructuralEdge ++
    "],\"frozen_frequency_digest\":".toList ++ writeJsonString snapshot.frozenFrequencyDigest ++
    ",\"graph_digest\":".toList ++ writeJsonString snapshot.graphDigest ++
    ",\"indexes\":".toList ++ snapshot.writeIndexes ++
    ",\"nodes\":[".toList ++ writeJsonArray snapshot.nodes writeStructuralNode ++
    "],\"parent_digest\":".toList ++ writeJsonOption snapshot.parentDigest ++
    ",\"receipt\":".toList ++ writeReceipt snapshot.receipt ++
    ",\"scan_input_digest\":".toList ++ writeJsonString snapshot.scanInputDigest ++
    ",\"schema_version\":".toList ++ Text.decimal snapshot.schemaVersion ++ "\x7d".toList

/-- `StructuralGraphSnapshot::canonical_json`; `dropLast` is the `pop` of the brace. -/
def canonicalJson (snapshot : SnapshotFields) : Str :=
  snapshot.canonicalJsonWithoutDigest.dropLast ++
    ",\"snapshot_digest\":".toList ++ writeJsonString snapshot.snapshotDigest ++ "\x7d".toList

/-- `StructuralGraphSnapshot::validate`. -/
def validate (snapshot : SnapshotFields) : Except GraphError Unit := do
  failIf (snapshot.schemaVersion ≠ structuralGraphSchemaVersion)
    (.unknownStructuralSchemaVersion snapshot.schemaVersion)
  validateDigest snapshot.snapshotDigest
  validateOptionalDigest snapshot.parentDigest
  validateDigest snapshot.scanInputDigest
  validateDigest snapshot.graphDigest
  validateDigest snapshot.frozenFrequencyDigest
  snapshot.receipt.validate
  failIf (strictlySorted (snapshot.nodes.map StructuralNode.id) = false)
    (.nonCanonicalStructuralOrder "nodes".toList)
  failIf (strictlySorted (snapshot.edges.map StructuralEdge.id) = false)
    (.nonCanonicalStructuralOrder "edges".toList)
  let indexes ← structuralIndexes snapshot.nodes snapshot.edges
  failIf ((snapshot.nodeIndex, snapshot.tables) ≠ indexes) .invalidStructuralIndexes
  let actual := digest snapshot.canonicalJsonWithoutDigest
  failIf (snapshot.snapshotDigest ≠ actual)
    (.structuralDigestMismatch actual snapshot.snapshotDigest)

/-- What `validate` accepts. -/
structure Valid (snapshot : SnapshotFields) : Prop where
  schemaVersion : snapshot.schemaVersion = structuralGraphSchemaVersion
  parentDigest : validateOptionalDigest snapshot.parentDigest = .ok ()
  scanInputDigest : Agent.isDigest snapshot.scanInputDigest = true
  graphDigest : Agent.isDigest snapshot.graphDigest = true
  frozenFrequencyDigest : Agent.isDigest snapshot.frozenFrequencyDigest = true
  receipt : snapshot.receipt.validate = .ok ()
  sortedNodes : (snapshot.nodes.map StructuralNode.id).Pairwise (· < ·)
  sortedEdges : (snapshot.edges.map StructuralEdge.id).Pairwise (· < ·)
  indexable : Indexable snapshot.nodes snapshot.edges
  indexes : indexesOf snapshot.nodes snapshot.edges = (snapshot.nodeIndex, snapshot.tables)
  snapshotDigest : snapshot.snapshotDigest = digest snapshot.canonicalJsonWithoutDigest

/-- `validate` succeeds exactly on valid records; the digest check of the snapshot
digest is implied by its last check. -/
theorem validate_eq_ok_iff {snapshot : SnapshotFields} :
    snapshot.validate = .ok () ↔ snapshot.Valid := by
  simp only [validate, check_bind_eq_ok_iff,
    bind_eq_ok_iff (α := OrdMap Str ℕ × Tables Str Str), failIf_eq_ok_iff,
    structuralIndexes_eq_ok_iff, validateDigest_eq_ok_iff, ne_eq, Decidable.not_not,
    Bool.not_eq_false, strictlySorted_iff]
  constructor
  · rintro ⟨hschema, _, hparent, hscan, hgraph, hfrequency, hreceipt, hnodes, hedges, indexes,
      ⟨hindexable, hindexes⟩, heq, hdigest⟩
    exact ⟨hschema, hparent, hscan, hgraph, hfrequency, hreceipt, hnodes, hedges, hindexable,
      hindexes.trans heq.symm, hdigest⟩
  · rintro ⟨hschema, hparent, hscan, hgraph, hfrequency, hreceipt, hnodes, hedges, hindexable,
      hindexes, hdigest⟩
    exact ⟨hschema, hdigest ▸ isDigest_digest _, hparent, hscan, hgraph, hfrequency, hreceipt,
      hnodes, hedges, _, ⟨hindexable, hindexes⟩, rfl, hdigest⟩

end SnapshotFields

structure StructuralGraphSnapshot extends SnapshotFields where
  valid : toSnapshotFields.validate = .ok ()
  deriving DecidableEq

namespace StructuralGraphSnapshot

theorem isValid (snapshot : StructuralGraphSnapshot) : snapshot.toSnapshotFields.Valid :=
  SnapshotFields.validate_eq_ok_iff.mp snapshot.valid

/-- The record that `new` fills in before it computes the digest. -/
def unsealed (schemaVersion : ℕ) (parentDigest : Option Str)
    (scanInputDigest graphDigest frozenFrequencyDigest : Str) (nodes : List StructuralNode)
    (edges : List StructuralEdge) (indexes : OrdMap Str ℕ × Tables Str Str)
    (receipt : StructuralSnapshotReceipt) : SnapshotFields where
  schemaVersion
  snapshotDigest := []
  casePolicy := .caseSensitive
  parentDigest
  scanInputDigest
  graphDigest
  frozenFrequencyDigest
  nodes
  edges
  nodeIndex := indexes.1
  tables := indexes.2
  receipt

/-- The record with its digest entered. -/
def withDigest (fields : SnapshotFields) : SnapshotFields :=
  { fields with snapshotDigest := digest fields.canonicalJsonWithoutDigest }

/-- The end of `new`: the digest is entered and the record validated. -/
def sealed (fields : SnapshotFields) : Except GraphError StructuralGraphSnapshot :=
  match hvalid : (withDigest fields).validate with
  | .error error => .error error
  | .ok () => .ok ⟨withDigest fields, hvalid⟩

def new (schemaVersion : ℕ) (parentDigest : Option Str)
    (scanInputDigest graphDigest frozenFrequencyDigest : Str) (nodes : List StructuralNode)
    (edges : List StructuralEdge) (receipt : StructuralSnapshotReceipt) :
    Except GraphError StructuralGraphSnapshot := do
  failIf (schemaVersion ≠ structuralGraphSchemaVersion)
    (.unknownStructuralSchemaVersion schemaVersion)
  validateOptionalDigest parentDigest
  validateDigest scanInputDigest
  validateDigest graphDigest
  validateDigest frozenFrequencyDigest
  let nodes := sortBy StructuralNode.id nodes
  let edges := sortBy StructuralEdge.id edges
  let indexes ← structuralIndexes nodes edges
  sealed (unsealed schemaVersion parentDigest scanInputDigest graphDigest frozenFrequencyDigest
    nodes edges indexes receipt)

theorem eq_of_fields {first second : StructuralGraphSnapshot}
    (h : first.toSnapshotFields = second.toSnapshotFields) : first = second := by
  cases first
  cases second
  simpa using h

theorem sealed_eq_ok_iff {fields : SnapshotFields} {snapshot : StructuralGraphSnapshot} :
    sealed fields = .ok snapshot ↔
      (withDigest fields).Valid ∧ snapshot.toSnapshotFields = withDigest fields := by
  rw [← SnapshotFields.validate_eq_ok_iff]
  unfold sealed
  split
  · next error herror => simp [herror]
  · next hvalid =>
      rw [Except.ok.injEq]
      constructor
      · rintro rfl
        exact ⟨hvalid, rfl⟩
      · rintro ⟨_, hfields⟩
        exact eq_of_fields hfields.symm

variable {nodes : List StructuralNode} {edges : List StructuralEdge}

theorem indexable_perm {nodes' : List StructuralNode} {edges' : List StructuralEdge}
    (hnodes : nodes.Perm nodes') (hedges : edges.Perm edges') :
    Indexable nodes edges ↔ Indexable nodes' edges' := by
  have hforward : ∀ {nodes nodes' : List StructuralNode} {edges edges' : List StructuralEdge},
      nodes.Perm nodes' → edges.Perm edges' → Indexable nodes edges → Indexable nodes' edges' := by
    intro nodes nodes' edges edges' hnodes hedges h
    have hholds : ∀ id, HoldsStructural nodes' id ↔ HoldsStructural nodes id := fun id => by
      simp only [HoldsStructural, hnodes.mem_iff]
    refine ⟨fun node hnode => h.validNodes node (hnodes.mem_iff.mpr hnode),
      fun edge hedge => h.validEdges edge (hedges.mem_iff.mpr hedge),
      (hnodes.map _).nodup_iff.mp h.nodeIds, (hedges.map _).nodup_iff.mp h.edgeIds, ?_, ?_⟩
    · intro edge hedge
      exact (hholds _).mpr (h.sources edge (hedges.mem_iff.mpr hedge))
    · intro edge hedge
      rw [hholds]
      exact h.targets edge (hedges.mem_iff.mpr hedge)
  exact ⟨hforward hnodes hedges, hforward hnodes.symm hedges.symm⟩

/-- The record that `new` seals. -/
def unsealedOf (parentDigest : Option Str)
    (scanInputDigest graphDigest frozenFrequencyDigest : Str) (nodes : List StructuralNode)
    (edges : List StructuralEdge) (receipt : StructuralSnapshotReceipt) : SnapshotFields :=
  unsealed structuralGraphSchemaVersion parentDigest scanInputDigest graphDigest
    frozenFrequencyDigest (sortBy StructuralNode.id nodes) (sortBy StructuralEdge.id edges)
    (indexesOf (sortBy StructuralNode.id nodes) (sortBy StructuralEdge.id edges)) receipt

/-- The record that `new` seals is valid when its parts are. -/
theorem valid_unsealedOf {parentDigest : Option Str}
    {scanInputDigest graphDigest frozenFrequencyDigest : Str} {receipt : StructuralSnapshotReceipt}
    (hparent : validateOptionalDigest parentDigest = .ok ())
    (hscan : Agent.isDigest scanInputDigest = true) (hgraph : Agent.isDigest graphDigest = true)
    (hfrequency : Agent.isDigest frozenFrequencyDigest = true)
    (hreceipt : receipt.validate = .ok ()) (hindexable : Indexable nodes edges) :
    (withDigest (unsealedOf parentDigest scanInputDigest graphDigest frozenFrequencyDigest nodes
      edges receipt)).Valid where
  schemaVersion := rfl
  parentDigest := hparent
  scanInputDigest := hscan
  graphDigest := hgraph
  frozenFrequencyDigest := hfrequency
  receipt := hreceipt
  sortedNodes := pairwise_lt_sortBy hindexable.nodeIds
  sortedEdges := pairwise_lt_sortBy hindexable.edgeIds
  indexable := (indexable_perm (sortBy_perm _ _) (sortBy_perm _ _)).mpr hindexable
  indexes := rfl
  snapshotDigest := rfl

/-- `new` succeeds exactly on validated arguments, and returns the sorted records with
their indexes and digest. -/
theorem new_eq_ok_iff {schemaVersion : ℕ} {parentDigest : Option Str}
    {scanInputDigest graphDigest frozenFrequencyDigest : Str} {receipt : StructuralSnapshotReceipt}
    {snapshot : StructuralGraphSnapshot} :
    new schemaVersion parentDigest scanInputDigest graphDigest frozenFrequencyDigest nodes edges
        receipt = .ok snapshot ↔
      schemaVersion = structuralGraphSchemaVersion ∧
        validateOptionalDigest parentDigest = .ok () ∧ Agent.isDigest scanInputDigest = true ∧
        Agent.isDigest graphDigest = true ∧ Agent.isDigest frozenFrequencyDigest = true ∧
        receipt.validate = .ok () ∧ Indexable nodes edges ∧
        snapshot.toSnapshotFields = withDigest (unsealedOf parentDigest scanInputDigest graphDigest
          frozenFrequencyDigest nodes edges receipt) := by
  have hperm : Indexable (sortBy StructuralNode.id nodes) (sortBy StructuralEdge.id edges) ↔
      Indexable nodes edges := indexable_perm (sortBy_perm _ _) (sortBy_perm _ _)
  simp only [new, check_bind_eq_ok_iff,
    bind_eq_ok_iff (α := OrdMap Str ℕ × Tables Str Str), failIf_eq_ok_iff,
    structuralIndexes_eq_ok_iff, validateDigest_eq_ok_iff, ne_eq, Decidable.not_not,
    sealed_eq_ok_iff, hperm]
  constructor
  · rintro ⟨rfl, hparent, hscan, hgraph, hfrequency, indexes, ⟨hindexable, rfl⟩, hvalid, hfields⟩
    exact ⟨rfl, hparent, hscan, hgraph, hfrequency, hvalid.receipt, hindexable, hfields⟩
  · rintro ⟨rfl, hparent, hscan, hgraph, hfrequency, hreceipt, hindexable, hfields⟩
    exact ⟨rfl, hparent, hscan, hgraph, hfrequency, _, ⟨hindexable, rfl⟩,
      valid_unsealedOf hparent hscan hgraph hfrequency hreceipt hindexable, hfields⟩

end StructuralGraphSnapshot

/-! ## Lookups in a valid record -/

namespace SnapshotFields

variable {snapshot : SnapshotFields}

theorem Valid.nodeIndex_eq (hvalid : snapshot.Valid) :
    snapshot.nodeIndex = positions (snapshot.nodes.map StructuralNode.id) :=
  (congrArg Prod.fst hvalid.indexes).symm

theorem Valid.tables_eq (hvalid : snapshot.Valid) :
    snapshot.tables = tablesOf StructuralEdge.id StructuralEdge.source
      StructuralEdge.target snapshot.edges :=
  (congrArg Prod.snd hvalid.indexes).symm

theorem node_eq_some_iff (hvalid : snapshot.Valid) {id : Str} {record : StructuralNode} :
    snapshot.node id = some record ↔ record ∈ snapshot.nodes ∧ record.id = id := by
  rw [node, hvalid.nodeIndex_eq, lookup_eq_some_iff hvalid.indexable.nodeIds]

theorem edge_eq_some_iff (hvalid : snapshot.Valid) {id : Str} {record : StructuralEdge} :
    snapshot.edge id = some record ↔ record ∈ snapshot.edges ∧ record.id = id := by
  rw [edge, hvalid.tables_eq, tablesOf, lookup_eq_some_iff hvalid.indexable.edgeIds]

theorem forwardEdges_eq (hvalid : snapshot.Valid) (id : Str) :
    snapshot.forwardEdges id =
      (snapshot.edges.filter fun edge => edge.source = id).map StructuralEdge.id := by
  rw [forwardEdges, hvalid.tables_eq, forward_tablesOf]
  congr!

theorem reverseEdges_eq (hvalid : snapshot.Valid) (id : Str) :
    snapshot.reverseEdges id =
      (snapshot.edges.filter fun edge => edge.target = id).map StructuralEdge.id := by
  rw [reverseEdges, hvalid.tables_eq, reverse_tablesOf]
  congr!

end SnapshotFields

end Bran.Graph
