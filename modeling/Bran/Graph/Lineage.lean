import Bran.Graph.Snapshot
import Bran.Library.CycleSearch

/-!
# Building structural graphs

`GraphBuilder::build` turns a candidate into a snapshot and then validates its
lineage: generated files name a source, superseding and preceding edges come in
pairs, and the edges of the lineage have no directed cycle.  The last check is a
depth-first search over the lineage map, whose two answers are related to the
edges of the snapshot here.
-/

namespace Bran.Graph

open Validation OrdMap

structure StructuralGraphCandidate where
  scanInputDigest : Str
  nodes : List StructuralNode
  edges : List StructuralEdge
  deriving DecidableEq

inductive GraphBuildFailureKind
  | limit
  | receipt
  | validation
  deriving DecidableEq

structure GraphBuildFailure where
  kind : GraphBuildFailureKind
  candidateDigest : Str
  diagnostic : Str
  deriving DecidableEq

structure GraphBuilder where
  maxNodes : ℕ
  maxEdges : ℕ
  frozenFrequencyDigest : Str
  deriving DecidableEq

/-! ## Lineage -/

abbrev LineageMap := OrdMap Str (OrdSet Str)

/-- `adjacency.get(node)`, empty where there is none. -/
def lineageTargets (adjacency : LineageMap) (node : Str) : List Str :=
  match adjacency.find? node with
  | some targets => targets.keys
  | none => []

/-- The vertices of a lineage map, with repetitions; their number bounds the depth of the
search. -/
def lineageVertices (adjacency : LineageMap) : List Str :=
  adjacency.keys ++ adjacency.keys.flatMap (lineageTargets adjacency)

/-- `directed_cycle` with its recursive `visit_lineage`; the outer `none` stands for a
recursion that did not end. -/
def directedCycle (adjacency : LineageMap) : Option (Option (List Str)) :=
  match CycleSearch.search (lineageTargets adjacency) (lineageVertices adjacency).length
      adjacency.keys ⟨OrdMap.empty, []⟩ with
  | .found trail => some (some trail)
  | .done _ => some none
  | .exhausted => none

def isLineageKind : StructuralEdgeKind → Bool
  | .lifecycle => true
  | .supersedes => true
  | .predecessor => true
  | _ => false

/-- `lineage.entry(source).or_default().insert(target)`. -/
def addLineage (lineage : LineageMap) (edge : StructuralEdge) : LineageMap :=
  lineage.insert edge.source
    (((lineage.find? edge.source).getD OrdMap.empty).insert edge.target ())

/-- The lineage map of an edge list. -/
def lineageOf (edges : List StructuralEdge) : LineageMap :=
  (edges.filter fun edge => isLineageKind edge.kind).foldl addLineage OrdMap.empty

/-- The endpoints of the edges of one kind. -/
def endpointsOf (kind : StructuralEdgeKind) (edges : List StructuralEdge) : OrdSet (Str ×ₗ Str) :=
  OrdSet.ofList ((edges.filter fun edge => edge.kind = kind).map fun edge =>
    toLex (edge.source, edge.target))

def nodesById (nodes : List StructuralNode) : OrdMap Str StructuralNode :=
  OrdMap.ofList (nodes.map fun node => (node.id, node))

/-- The loop body of `validate_structural_candidate`. -/
def validateLineageEdge (byId : OrdMap Str StructuralNode)
    (supersedes predecessors : OrdSet (Str ×ₗ Str)) (edge : StructuralEdge) :
    Except GraphError Unit := do
  failIf (edge.kind = .generatedFrom ∧
      ((byId.find? edge.target).any fun node => node.generatedStatus = .source) = false)
    (.invalidGeneratedFromTarget edge.id edge.target)
  let tuple := toLex (edge.source, edge.target)
  let reciprocal := !byId.contains edge.target ||
    match edge.kind with
    | .supersedes => predecessors.contains tuple
    | .predecessor => supersedes.contains tuple
    | _ => true
  failIf (reciprocal = false) (.missingReciprocalLineage edge.id)

/-- `validate_structural_candidate`; the outer `none` is that of `directedCycle`. -/
def validateStructuralCandidate (nodes : List StructuralNode) (edges : List StructuralEdge) :
    Option (Except GraphError Unit) :=
  match forEach (validateLineageEdge (nodesById nodes) (endpointsOf .supersedes edges)
      (endpointsOf .predecessor edges)) edges with
  | .error error => some (.error error)
  | .ok () =>
      match directedCycle (lineageOf edges) with
      | none => none
      | some (some trail) => some (.error (.structuralLineageCycle trail))
      | some none => some (.ok ())

/-! ## The builder -/

/-- The facts of the receipt that `build` issues. -/
def buildFacts : List Str :=
  ["complete-candidate".toList, "lineage-acyclic".toList, "structural-graph-valid".toList]

/-- `GraphBuilder::build`; the outer `none` is that of `directedCycle`. -/
def GraphBuilder.build (builder : GraphBuilder) (candidate : StructuralGraphCandidate)
    (parentDigest : Option Str) (operationId : Str) :
    Option (Except GraphBuildFailure StructuralGraphSnapshot) :=
  let candidateDigest := structuralContentDigest candidate.nodes candidate.edges
  let failure (kind : GraphBuildFailureKind) (diagnostic : Str) :
      Option (Except GraphBuildFailure StructuralGraphSnapshot) :=
    some (.error ⟨kind, candidateDigest, diagnostic⟩)
  if candidate.nodes.length > builder.maxNodes then
    failure .limit ("structural node limit exceeded: ".toList ++
      Text.decimal candidate.nodes.length ++ " > ".toList ++ Text.decimal builder.maxNodes)
  else if candidate.edges.length > builder.maxEdges then
    failure .limit ("structural edge limit exceeded: ".toList ++
      Text.decimal candidate.edges.length ++ " > ".toList ++ Text.decimal builder.maxEdges)
  else
    match StructuralSnapshotReceipt.new operationId parentDigest none none buildFacts with
    | .error error => failure .receipt error.display
    | .ok receipt =>
        match StructuralGraphSnapshot.new structuralGraphSchemaVersion parentDigest
            candidate.scanInputDigest candidateDigest builder.frozenFrequencyDigest
            candidate.nodes candidate.edges receipt with
        | .error error => failure .validation error.display
        | .ok snapshot =>
            match validateStructuralCandidate snapshot.nodes snapshot.edges with
            | none => none
            | some (.error error) => failure .validation error.display
            | some (.ok ()) => some (.ok snapshot)

/-! ## The lineage search -/

/-- An edge of the lineage of an edge list. -/
def LineageStep (edges : List StructuralEdge) (source target : Str) : Prop :=
  ∃ edge ∈ edges, isLineageKind edge.kind = true ∧ edge.source = source ∧ edge.target = target

theorem mem_lineageTargets_addLineage {lineage : LineageMap} {edge : StructuralEdge}
    {source target : Str} :
    target ∈ lineageTargets (addLineage lineage edge) source ↔
      target ∈ lineageTargets lineage source ∨ (edge.source = source ∧ edge.target = target) := by
  unfold lineageTargets addLineage
  rw [find?_insert]
  by_cases hsource : edge.source = source
  · subst hsource
    cases hfind : lineage.find? edge.source with
    | none => simp [mem_keys_insert, eq_comm]
    | some targets => simp [mem_keys_insert, or_comm, eq_comm]
  · simp [hsource]

variable {edges : List StructuralEdge} {nodes : List StructuralNode}

/-- The lineage map holds the lineage edges. -/
theorem mem_lineageTargets_lineageOf {source target : Str} :
    target ∈ lineageTargets (lineageOf edges) source ↔ LineageStep edges source target := by
  have hfold : ∀ (edges : List StructuralEdge) (lineage : LineageMap),
      target ∈ lineageTargets (edges.foldl addLineage lineage) source ↔
        target ∈ lineageTargets lineage source ∨
          ∃ edge ∈ edges, edge.source = source ∧ edge.target = target := by
    intro edges
    induction edges with
    | nil => simp
    | cons edge rest ih =>
        intro lineage
        rw [List.foldl_cons, ih, mem_lineageTargets_addLineage]
        simp only [List.mem_cons, exists_eq_or_imp]
        tauto
  have hempty : lineageTargets OrdMap.empty source = [] := rfl
  rw [lineageOf, hfold, hempty]
  simp [LineageStep, and_assoc]

/-- The recursion of `visit_lineage` ends on every lineage map, and its answer is right:
a trail is a cycle of the map, and without one the map has no cycle. -/
theorem directedCycle_spec (adjacency : LineageMap) :
    (∃ trail, directedCycle adjacency = some (some trail) ∧
        CycleSearch.IsCycle (lineageTargets adjacency) trail) ∨
      (directedCycle adjacency = some none ∧ ∀ vertex,
        ¬ Relation.TransGen (CycleSearch.Step (lineageTargets adjacency)) vertex vertex) := by
  have hroots : ∀ vertex, lineageTargets adjacency vertex ≠ [] → vertex ∈ adjacency.keys := by
    intro vertex hne
    rw [mem_keys_iff]
    unfold lineageTargets at hne
    cases hfind : adjacency.find? vertex with
    | none => simp [hfind] at hne
    | some targets => exact ⟨targets, rfl⟩
  have hfuel : (adjacency.keys ++ adjacency.keys.flatMap (lineageTargets adjacency)).length ≤
      (lineageVertices adjacency).length := le_rfl
  rcases CycleSearch.search_decides hroots hfuel with
    ⟨trail, hfound, hcycle⟩ | ⟨state, hdone, hacyclic⟩
  · exact Or.inl ⟨trail, by rw [directedCycle, hfound], hcycle⟩
  · exact Or.inr ⟨by rw [directedCycle, hdone], hacyclic⟩

/-! ## What an accepted candidate satisfies -/

theorem mem_keys_endpointsOf {kind : StructuralEdgeKind} {source target : Str} :
    toLex (source, target) ∈ (endpointsOf kind edges).keys ↔
      ∃ edge ∈ edges, edge.kind = kind ∧ edge.source = source ∧ edge.target = target := by
  rw [endpointsOf, OrdSet.mem_keys_ofList]
  simp [and_assoc]

/-- What `validate_structural_candidate` accepts. -/
structure SoundLineage (nodes : List StructuralNode) (edges : List StructuralEdge) : Prop where
  acyclic : ∀ vertex, ¬ Relation.TransGen (LineageStep edges) vertex vertex
  superseded : ∀ edge ∈ edges, edge.kind = .supersedes → HoldsStructural nodes edge.target →
    ∃ other ∈ edges, other.kind = .predecessor ∧ other.source = edge.source ∧
      other.target = edge.target
  preceded : ∀ edge ∈ edges, edge.kind = .predecessor → HoldsStructural nodes edge.target →
    ∃ other ∈ edges, other.kind = .supersedes ∧ other.source = edge.source ∧
      other.target = edge.target
  generated : ∀ edge ∈ edges, edge.kind = .generatedFrom →
    ∃ node ∈ nodes, node.id = edge.target ∧ node.generatedStatus = .source

theorem nodesById_find?_eq_some_iff (hnodup : (nodes.map StructuralNode.id).Nodup) {id : Str}
    {node : StructuralNode} :
    (nodesById nodes).find? id = some node ↔ node ∈ nodes ∧ node.id = id := by
  have hkeys : ((nodes.map fun node => (node.id, node)).map Prod.fst).Nodup := by
    simpa [List.map_map, Function.comp_def] using hnodup
  rw [nodesById, find?_ofList hkeys]
  simp only [List.mem_map, Prod.mk.injEq]
  constructor
  · rintro ⟨_, hmem, rfl, rfl⟩
    exact ⟨hmem, rfl⟩
  · rintro ⟨hmem, rfl⟩
    exact ⟨node, hmem, rfl, rfl⟩

/-- The loop body of `validate_structural_candidate` accepts an edge whose evidence is
complete. -/
theorem validateLineageEdge_eq_ok_iff (hnodup : (nodes.map StructuralNode.id).Nodup)
    {edge : StructuralEdge} :
    validateLineageEdge (nodesById nodes) (endpointsOf .supersedes edges)
        (endpointsOf .predecessor edges) edge = .ok () ↔
      (edge.kind = .generatedFrom →
        ∃ node ∈ nodes, node.id = edge.target ∧ node.generatedStatus = .source) ∧
      (HoldsStructural nodes edge.target →
        (edge.kind = .supersedes → ∃ other ∈ edges, other.kind = .predecessor ∧
          other.source = edge.source ∧ other.target = edge.target) ∧
        (edge.kind = .predecessor → ∃ other ∈ edges, other.kind = .supersedes ∧
          other.source = edge.source ∧ other.target = edge.target)) := by
  have hsource : ((nodesById nodes).find? edge.target).any
      (fun node => node.generatedStatus = .source) = true ↔
        ∃ node ∈ nodes, node.id = edge.target ∧ node.generatedStatus = .source := by
    simp only [Option.any_eq_true, decide_eq_true_eq, nodesById_find?_eq_some_iff hnodup,
      and_assoc]
  have hholds : (nodesById nodes).contains edge.target = true ↔
      HoldsStructural nodes edge.target := by
    rw [contains_iff, mem_keys_iff]
    simp only [nodesById_find?_eq_some_iff hnodup, HoldsStructural]
  simp only [validateLineageEdge, check_bind_eq_ok_iff, failIf_eq_ok_iff, not_and,
    Bool.not_eq_false, hsource]
  refine and_congr_right fun _ => ?_
  rw [Bool.or_eq_true, Bool.not_eq_true', ← Bool.not_eq_true, hholds, ← imp_iff_not_or]
  refine imp_congr_right fun _ => ?_
  cases hkind : edge.kind <;> simp [mem_keys_endpointsOf]

theorem validateStructuralCandidate_spec {nodes : List StructuralNode}
    {edges : List StructuralEdge} (hnodup : (nodes.map StructuralNode.id).Nodup) :
    ∃ result, validateStructuralCandidate nodes edges = some result ∧
      (result = .ok () ↔ SoundLineage nodes edges) := by
  have hstep : CycleSearch.Step (lineageTargets (lineageOf edges)) = LineageStep edges := by
    funext source target
    exact propext mem_lineageTargets_lineageOf
  unfold validateStructuralCandidate
  cases hedges : forEach (validateLineageEdge (nodesById nodes) (endpointsOf .supersedes edges)
      (endpointsOf .predecessor edges)) edges with
  | error error =>
      refine ⟨_, rfl, by simp, fun hsound => ?_⟩
      have hok : forEach (validateLineageEdge (nodesById nodes) (endpointsOf .supersedes edges)
          (endpointsOf .predecessor edges)) edges = .ok () :=
        forEach_eq_ok_iff.mpr fun edge hedge =>
          (validateLineageEdge_eq_ok_iff hnodup).mpr ⟨hsound.generated edge hedge, fun hholds =>
            ⟨fun hkind => hsound.superseded edge hedge hkind hholds,
              fun hkind => hsound.preceded edge hedge hkind hholds⟩⟩
      rw [hedges] at hok
      exact absurd hok (by simp)
  | ok _ =>
      have hchecked := forEach_eq_ok_iff.mp hedges
      simp only [validateLineageEdge_eq_ok_iff hnodup] at hchecked
      rcases directedCycle_spec (lineageOf edges) with ⟨trail, hfound, hcycle⟩ | ⟨hnone, hacyclic⟩
      · rw [hfound]
        refine ⟨_, rfl, by simp, fun hsound => ?_⟩
        obtain ⟨vertex, hloop⟩ := hcycle.transGen
        rw [hstep] at hloop
        exact absurd hloop (hsound.acyclic vertex)
      · rw [hnone]
        rw [hstep] at hacyclic
        exact ⟨_, rfl, fun _ => ⟨hacyclic,
          fun edge hedge hkind hholds => ((hchecked edge hedge).2 hholds).1 hkind,
          fun edge hedge hkind hholds => ((hchecked edge hedge).2 hholds).2 hkind,
          fun edge hedge => (hchecked edge hedge).1⟩, fun _ => rfl⟩

theorem SoundLineage.perm {nodes' : List StructuralNode} {edges' : List StructuralEdge}
    (hnodes : nodes.Perm nodes') (hedges : edges.Perm edges') (h : SoundLineage nodes edges) :
    SoundLineage nodes' edges' := by
  have hstep : LineageStep edges' = LineageStep edges := by
    funext source target
    simp only [LineageStep, hedges.mem_iff]
  refine ⟨?_, ?_, ?_, ?_⟩
  · rw [hstep]
    exact h.acyclic
  · simp only [HoldsStructural, ← hnodes.mem_iff, ← hedges.mem_iff]
    exact h.superseded
  · simp only [HoldsStructural, ← hnodes.mem_iff, ← hedges.mem_iff]
    exact h.preceded
  · simp only [← hnodes.mem_iff, ← hedges.mem_iff]
    exact h.generated

/-- A build ends, and what it returns shows the candidate under its parent. -/
theorem GraphBuilder.build_spec (builder : GraphBuilder) (candidate : StructuralGraphCandidate)
    (parentDigest : Option Str) (operationId : Str) :
    ∃ result, builder.build candidate parentDigest operationId = some result ∧
      ∀ snapshot, result = .ok snapshot →
        snapshot.nodes = sortBy StructuralNode.id candidate.nodes ∧
        snapshot.edges = sortBy StructuralEdge.id candidate.edges ∧
        snapshot.graphDigest = structuralContentDigest candidate.nodes candidate.edges ∧
        snapshot.scanInputDigest = candidate.scanInputDigest ∧
        snapshot.parentDigest = parentDigest ∧ SoundLineage snapshot.nodes snapshot.edges := by
  unfold build
  split_ifs with hnodes hedges
  · exact ⟨_, rfl, fun _ h => by cases h⟩
  · exact ⟨_, rfl, fun _ h => by cases h⟩
  · cases StructuralSnapshotReceipt.new operationId parentDigest none none buildFacts with
    | error error => exact ⟨_, rfl, fun _ h => by cases h⟩
    | ok receipt =>
        dsimp only
        cases hnew : StructuralGraphSnapshot.new structuralGraphSchemaVersion parentDigest
            candidate.scanInputDigest
            (structuralContentDigest candidate.nodes candidate.edges)
            builder.frozenFrequencyDigest candidate.nodes candidate.edges receipt with
        | error error => exact ⟨_, rfl, fun _ h => by cases h⟩
        | ok snapshot =>
            obtain ⟨result, hresult, hsound⟩ := @validateStructuralCandidate_spec snapshot.nodes
              snapshot.edges snapshot.isValid.indexable.nodeIds
            dsimp only
            rw [hresult]
            cases result with
            | error error => exact ⟨_, rfl, fun _ h => by cases h⟩
            | ok _ =>
                refine ⟨_, rfl, fun found h => ?_⟩
                obtain rfl := Except.ok.inj h
                have hlineage := hsound.mp rfl
                obtain ⟨_, _, _, _, _, _, _, hfields⟩ := StructuralGraphSnapshot.new_eq_ok_iff.mp hnew
                rw [hfields] at hlineage ⊢
                exact ⟨rfl, rfl, rfl, rfl, rfl, hlineage⟩

/-- Lineage validation: the search ends on every lineage map with a cycle of it or with
the answer that it has none, and only candidates with a sound lineage are built. -/
theorem lineage_validation_sound_and_complete :
    (∀ adjacency : LineageMap,
      (∃ trail, directedCycle adjacency = some (some trail) ∧ trail.head? = trail.getLast? ∧
        2 ≤ trail.length ∧
        trail.IsChain fun source target => target ∈ lineageTargets adjacency source) ∨
      (directedCycle adjacency = some none ∧ ∀ vertex, ¬ Relation.TransGen
        (fun source target => target ∈ lineageTargets adjacency source) vertex vertex)) ∧
    ∀ (builder : GraphBuilder) (candidate : StructuralGraphCandidate) (parentDigest : Option Str)
      (operationId : Str),
      ∃ result, builder.build candidate parentDigest operationId = some result ∧
        ∀ snapshot, result = .ok snapshot → SoundLineage candidate.nodes candidate.edges := by
  refine ⟨fun adjacency => ?_, fun builder candidate parentDigest operationId => ?_⟩
  · rcases directedCycle_spec adjacency with ⟨trail, hfound, hlength, hends, hchain⟩ | hnone
    · exact Or.inl ⟨trail, hfound, hends, hlength, hchain⟩
    · exact Or.inr hnone
  · unfold GraphBuilder.build
    split_ifs with hnodes hedges
    · exact ⟨_, rfl, by simp⟩
    · exact ⟨_, rfl, by simp⟩
    · cases StructuralSnapshotReceipt.new operationId parentDigest none none buildFacts with
      | error error => exact ⟨_, rfl, by simp⟩
      | ok receipt =>
          simp only
          cases hnew : StructuralGraphSnapshot.new structuralGraphSchemaVersion parentDigest
              candidate.scanInputDigest
              (structuralContentDigest candidate.nodes candidate.edges)
              builder.frozenFrequencyDigest candidate.nodes candidate.edges receipt with
          | error error => exact ⟨_, rfl, by simp⟩
          | ok snapshot =>
              obtain ⟨result, hresult, hsound⟩ :=
                @validateStructuralCandidate_spec snapshot.nodes snapshot.edges
                  snapshot.isValid.indexable.nodeIds
              simp only [hresult]
              cases result with
              | error error => exact ⟨_, rfl, by simp⟩
              | ok _ =>
                  have hfields :=
                    (StructuralGraphSnapshot.new_eq_ok_iff.mp hnew).2.2.2.2.2.2.2
                  have hsorted := hsound.mp rfl
                  rw [hfields] at hsorted
                  exact ⟨_, rfl, fun _ _ =>
                    hsorted.perm (sortBy_perm _ _) (sortBy_perm _ _)⟩

end Bran.Graph
