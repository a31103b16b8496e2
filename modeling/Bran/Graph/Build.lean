import Bran.Graph.Model
import Bran.Library.Adjacency
import Bran.Library.Validation

/-!
# Building the topology

`KnowledgeGraph::build` sorts the records of its input by identity and fills the
position index and the adjacency lists in one pass over the nodes and one over
the edges.  `build_eq_ok_iff` says which inputs it accepts and which graph it
returns.  The conditions are kept in the field `valid` of a graph, so that every
later statement about a graph has them at hand.
-/

namespace Bran.Graph

open Adjacency Validation

/-- The edge checks of `KnowledgeGraph::build` that precede the duplicate check. -/
def checkEdge (nodeIndex : OrdMap NodeId ℕ) (edge : EdgeInput) : Except GraphError Unit :=
  if !nodeIndex.contains edge.source then .error (.missingSource edge.source)
  else if !nodeIndex.contains edge.target && edge.certainty ≠ .missingTarget then
    .error (.missingTargetMustBeExplicit edge.id edge.target)
  else if nodeIndex.contains edge.target && edge.certainty = .missingTarget then
    .error (.missingTargetMustBeAbsent edge.id edge.target)
  else .ok ()

/-- A node list holds an identity. -/
def Holds (nodes : List NodeInput) (id : NodeId) : Prop := ∃ node ∈ nodes, node.id = id

instance (nodes : List NodeInput) (id : NodeId) : Decidable (Holds nodes id) :=
  inferInstanceAs (Decidable (∃ node ∈ nodes, node.id = id))

/-- What `build` requires of nodes and edges: identities occur once, sources are
present, and a target is absent exactly where the edge says so. -/
structure WellFormed (nodes : List NodeInput) (edges : List EdgeInput) : Prop where
  nodeIds : (nodes.map NodeInput.id).Nodup
  edgeIds : (edges.map EdgeInput.id).Nodup
  sources : ∀ edge ∈ edges, Holds nodes edge.source
  targets : ∀ edge ∈ edges, edge.certainty = .missingTarget ↔ ¬ Holds nodes edge.target

theorem wellFormed_perm {nodes nodes' : List NodeInput} {edges edges' : List EdgeInput}
    (hnodes : nodes.Perm nodes') (hedges : edges.Perm edges') :
    WellFormed nodes edges ↔ WellFormed nodes' edges' := by
  have hholds : ∀ id, Holds nodes id ↔ Holds nodes' id := fun id => by
    simp only [Holds, hnodes.mem_iff]
  constructor
  · rintro ⟨hnodeIds, hedgeIds, hsources, htargets⟩
    exact ⟨(hnodes.map _).nodup_iff.mp hnodeIds, (hedges.map _).nodup_iff.mp hedgeIds,
      fun edge he => (hholds _).mp (hsources edge (hedges.mem_iff.mpr he)),
      fun edge he => (htargets edge (hedges.mem_iff.mpr he)).trans (not_congr (hholds _))⟩
  · rintro ⟨hnodeIds, hedgeIds, hsources, htargets⟩
    exact ⟨(hnodes.map _).nodup_iff.mpr hnodeIds, (hedges.map _).nodup_iff.mpr hedgeIds,
      fun edge he => (hholds _).mpr (hsources edge (hedges.mem_iff.mp he)),
      fun edge he => (htargets edge (hedges.mem_iff.mp he)).trans (not_congr (hholds _).symm)⟩

/-- `KnowledgeGraph`, with its `forward` and `reverse` maps next to the edge index. -/
structure KnowledgeGraph where
  nodes : List NodeInput
  nodeIndex : OrdMap NodeId ℕ
  edges : List EdgeInput
  tables : Tables NodeId EdgeId
  valid : WellFormed nodes edges
  indexed : positions (nodes.map NodeInput.id) = nodeIndex
  linked : tablesOf EdgeInput.id EdgeInput.source EdgeInput.target edges = tables
  deriving DecidableEq

/-- The pass over the sorted nodes. -/
def indexNodes (nodes : List NodeInput) : Except GraphError (OrdMap NodeId ℕ) :=
  index NodeInput.id (fun _ => .ok ()) (fun node => .duplicateNodeId node.id)
    0 nodes OrdMap.empty

/-- The pass over the sorted edges. -/
def linkEdges (nodeIndex : OrdMap NodeId ℕ) (edges : List EdgeInput) :
    Except GraphError (Tables NodeId EdgeId) :=
  link EdgeInput.id EdgeInput.source EdgeInput.target (checkEdge nodeIndex)
    (fun edge => .duplicateEdgeId edge.id) 0 edges Tables.empty

theorem indexNodes_eq_ok_iff {nodes : List NodeInput} {nodeIndex : OrdMap NodeId ℕ} :
    indexNodes nodes = .ok nodeIndex ↔
      (nodes.map NodeInput.id).Nodup ∧
        positions (nodes.map NodeInput.id) = nodeIndex := by
  rw [indexNodes, index_eq_ok_iff]
  simp

theorem contains_nodeIndex {nodes : List NodeInput} (hnodup : (nodes.map NodeInput.id).Nodup)
    {id : NodeId} :
    (positions (nodes.map NodeInput.id)).contains id = decide (Holds nodes id) := by
  rw [Bool.eq_iff_iff, contains_positions hnodup, decide_eq_true_iff]
  rfl

theorem checkEdge_eq_ok_iff {nodes : List NodeInput}
    (hnodup : (nodes.map NodeInput.id).Nodup) {edge : EdgeInput} :
    checkEdge (positions (nodes.map NodeInput.id)) edge = .ok () ↔
      Holds nodes edge.source ∧ (edge.certainty = .missingTarget ↔ ¬ Holds nodes edge.target) := by
  rw [checkEdge, contains_nodeIndex hnodup, contains_nodeIndex hnodup]
  by_cases hsource : Holds nodes edge.source
  · by_cases htarget : Holds nodes edge.target <;>
      by_cases hcertainty : edge.certainty = .missingTarget <;>
      simp [hsource, htarget, hcertainty]
  · simp [hsource]

theorem linkEdges_eq_ok_iff {nodes : List NodeInput} (hnodup : (nodes.map NodeInput.id).Nodup)
    {edges : List EdgeInput} {tables : Tables NodeId EdgeId} :
    linkEdges (positions (nodes.map NodeInput.id)) edges = .ok tables ↔
      WellFormed nodes edges ∧
        tablesOf EdgeInput.id EdgeInput.source EdgeInput.target edges = tables := by
  rw [linkEdges, link_eq_ok_iff]
  simp only [checkEdge_eq_ok_iff hnodup]
  constructor
  · rintro ⟨hchecked, hedgeIds, htables⟩
    exact ⟨⟨hnodup, hedgeIds, fun edge he => (hchecked edge he).1,
      fun edge he => (hchecked edge he).2⟩, htables⟩
  · rintro ⟨hwell, htables⟩
    exact ⟨fun edge he => ⟨hwell.sources edge he, hwell.targets edge he⟩, hwell.edgeIds, htables⟩

/-- `sort_by(|left, right| left.id().cmp(right.id()))` on nodes. -/
def sortNodes (nodes : List NodeInput) : List NodeInput :=
  sortBy NodeInput.id nodes

/-- `sort_by(|left, right| left.id().cmp(right.id()))` on edges. -/
def sortEdges (edges : List EdgeInput) : List EdgeInput :=
  sortBy EdgeInput.id edges

def KnowledgeGraph.build (input : GraphInput) (limits : GraphLimits) :
    Except GraphError KnowledgeGraph :=
  if input.nodes.length > limits.maxNodes then
    .error (.nodeLimitExceeded limits.maxNodes input.nodes.length)
  else if input.edges.length > limits.maxEdges then
    .error (.edgeLimitExceeded limits.maxEdges input.edges.length)
  else
    match hindex : indexNodes (sortNodes input.nodes) with
    | .error error => .error error
    | .ok nodeIndex =>
        match hlink : linkEdges nodeIndex (sortEdges input.edges) with
        | .error error => .error error
        | .ok tables =>
            have hnodes := indexNodes_eq_ok_iff.mp hindex
            have hedges := (linkEdges_eq_ok_iff hnodes.1).mp (hnodes.2 ▸ hlink)
            .ok ⟨sortNodes input.nodes, nodeIndex, sortEdges input.edges, tables, hedges.1,
              hnodes.2, hedges.2⟩

/-- The records of an accepted graph are those of its input, sorted. -/
theorem build_records {input : GraphInput} {limits : GraphLimits} {graph : KnowledgeGraph}
    (hbuild : KnowledgeGraph.build input limits = .ok graph) :
    graph.nodes = sortNodes input.nodes ∧ graph.edges = sortEdges input.edges := by
  unfold KnowledgeGraph.build at hbuild
  split at hbuild
  · simp at hbuild
  · split at hbuild
    · simp at hbuild
    · split at hbuild
      · simp at hbuild
      · split at hbuild
        · simp at hbuild
        · obtain rfl := Except.ok.inj hbuild
          exact ⟨rfl, rfl⟩

/-- `build` accepts exactly the well-formed inputs within the limits. -/
theorem build_isOk_iff (input : GraphInput) (limits : GraphLimits) :
    (∃ graph, KnowledgeGraph.build input limits = .ok graph) ↔
      input.nodes.length ≤ limits.maxNodes ∧ input.edges.length ≤ limits.maxEdges ∧
        WellFormed input.nodes input.edges := by
  have hsorted : WellFormed (sortNodes input.nodes) (sortEdges input.edges) ↔
      WellFormed input.nodes input.edges :=
    wellFormed_perm (sortBy_perm _ _) (sortBy_perm _ _)
  constructor
  · rintro ⟨graph, hgraph⟩
    obtain ⟨hnodes, hedges⟩ := build_records hgraph
    refine ⟨?_, ?_, ?_⟩
    · by_contra hlimit
      simp [KnowledgeGraph.build, not_le.mp hlimit] at hgraph
    · by_contra hlimit
      unfold KnowledgeGraph.build at hgraph
      split at hgraph
      · simp at hgraph
      · simp [not_le.mp hlimit] at hgraph
    · rw [← hsorted, ← hnodes, ← hedges]
      exact graph.valid
  · rintro ⟨hnodes, hedges, hwell⟩
    rw [← hsorted] at hwell
    have hindex := indexNodes_eq_ok_iff.mpr ⟨hwell.nodeIds, rfl⟩
    have hlink := (linkEdges_eq_ok_iff hwell.nodeIds).mpr ⟨hwell, rfl⟩
    rw [KnowledgeGraph.build, if_neg (not_lt.mpr hnodes), if_neg (not_lt.mpr hedges)]
    split
    · next error herror => simp [hindex] at herror
    · next nodeIndex hok =>
        obtain rfl := Except.ok.inj (hindex.symm.trans hok)
        split
        · next error herror => simp [hlink] at herror
        · exact ⟨_, rfl⟩

theorem KnowledgeGraph.eq_of_records {first second : KnowledgeGraph}
    (hnodes : first.nodes = second.nodes) (hedges : first.edges = second.edges) :
    first = second := by
  obtain ⟨nodes, nodeIndex, edges, tables, _, hindexed, hlinked⟩ := first
  obtain ⟨nodes', nodeIndex', edges', tables', _, hindexed', hlinked'⟩ := second
  subst hnodes hedges hindexed hlinked hindexed' hlinked'
  rfl

/-- Every well-formed input within the limits is built, and from records in any order the same
graph. -/
theorem KnowledgeGraph.built_in_any_order (input : GraphInput) (limits : GraphLimits) :
    ((∃ graph, build input limits = .ok graph) ↔
      input.nodes.length ≤ limits.maxNodes ∧ input.edges.length ≤ limits.maxEdges ∧
        WellFormed input.nodes input.edges) ∧
    ∀ (graph : KnowledgeGraph) (other : GraphInput), other.nodes.Perm input.nodes →
      other.edges.Perm input.edges → build input limits = .ok graph →
        build other limits = .ok graph := by
  refine ⟨build_isOk_iff input limits, fun graph other hnodes hedges hgraph => ?_⟩
  obtain ⟨hmaxNodes, hmaxEdges, hwell⟩ := (build_isOk_iff input limits).mp ⟨graph, hgraph⟩
  have hwell' := (wellFormed_perm hnodes hedges).mpr hwell
  obtain ⟨found, hfound⟩ := (build_isOk_iff other limits).mpr
    ⟨hnodes.length_eq ▸ hmaxNodes, hedges.length_eq ▸ hmaxEdges, hwell'⟩
  obtain ⟨hgraphNodes, hgraphEdges⟩ := build_records hgraph
  obtain ⟨hfoundNodes, hfoundEdges⟩ := build_records hfound
  rw [hfound, eq_of_records
    (hfoundNodes.trans ((sortBy_eq_of_perm hnodes hwell'.nodeIds).trans hgraphNodes.symm))
    (hfoundEdges.trans ((sortBy_eq_of_perm hedges hwell'.edgeIds).trans hgraphEdges.symm))]

namespace KnowledgeGraph

/-! ## Accessors -/

def node (graph : KnowledgeGraph) (id : NodeId) : Option NodeInput :=
  lookup graph.nodeIndex graph.nodes id

def edge (graph : KnowledgeGraph) (id : EdgeId) : Option EdgeInput :=
  lookup graph.tables.edgeIndex graph.edges id

def nodeIds (graph : KnowledgeGraph) : List NodeId := graph.nodes.map NodeInput.id

def edgeIds (graph : KnowledgeGraph) : List EdgeId := graph.edges.map EdgeInput.id

def forwardEdges (graph : KnowledgeGraph) (id : NodeId) : List EdgeId :=
  listUnder graph.tables.forward id

def reverseEdges (graph : KnowledgeGraph) (id : NodeId) : List EdgeId :=
  listUnder graph.tables.reverse id

variable {graph : KnowledgeGraph}

theorem node_eq_some_iff {id : NodeId} {record : NodeInput} :
    graph.node id = some record ↔ record ∈ graph.nodes ∧ record.id = id := by
  rw [node, ← graph.indexed, lookup_eq_some_iff graph.valid.nodeIds]

theorem edge_eq_some_iff {id : EdgeId} {record : EdgeInput} :
    graph.edge id = some record ↔ record ∈ graph.edges ∧ record.id = id := by
  rw [edge, ← graph.linked, tablesOf,
    lookup_eq_some_iff graph.valid.edgeIds]

theorem forwardEdges_eq (graph : KnowledgeGraph) (id : NodeId) :
    graph.forwardEdges id =
      (graph.edges.filter fun edge => edge.source = id).map EdgeInput.id := by
  rw [forwardEdges, ← graph.linked, forward_tablesOf]

/-- The records behind `forward_edges`; the topology owns them. -/
def outgoing (graph : KnowledgeGraph) (id : NodeId) : List EdgeInput :=
  (graph.forwardEdges id).filterMap graph.edge

/-- Every edge is found under its identity. -/
theorem map_edge_ids {edges : List EdgeInput} (hedges : ∀ edge ∈ edges, edge ∈ graph.edges) :
    (edges.map EdgeInput.id).map graph.edge = edges.map some ∧
      (edges.map EdgeInput.id).filterMap graph.edge = edges := by
  have hlookup : graph.edge =
      lookup (positions (graph.edges.map EdgeInput.id)) graph.edges := by
    funext id
    rw [edge, ← graph.linked, tablesOf]
  rw [hlookup]
  exact ⟨map_lookup graph.valid.edgeIds hedges,
    filterMap_lookup graph.valid.edgeIds hedges⟩

/-- No adjacency entry is without a record, so `outgoing` skips nothing. -/
theorem map_edge_forwardEdges (graph : KnowledgeGraph) (id : NodeId) :
    (graph.forwardEdges id).map graph.edge = (graph.outgoing id).map some ∧
      graph.outgoing id = graph.edges.filter fun edge => edge.source = id := by
  obtain ⟨hmap, hfilter⟩ := graph.map_edge_ids fun edge hedge => (List.mem_filter.mp hedge).1
  rw [outgoing, forwardEdges_eq, hfilter]
  exact ⟨hmap, rfl⟩

theorem mem_outgoing {id : NodeId} {edge : EdgeInput} :
    edge ∈ graph.outgoing id ↔ edge ∈ graph.edges ∧ edge.source = id := by
  rw [(graph.map_edge_forwardEdges id).2, List.mem_filter, decide_eq_true_iff]

end KnowledgeGraph

end Bran.Graph
