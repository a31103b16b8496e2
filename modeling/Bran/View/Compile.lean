import Bran.Graph.Build
import Mathlib.Data.Prod.Lex
import Mathlib.Order.WithBot

/-!
# Knowledge views

A view declaration selects nodes of a graph, orders them and projects their
fields; `ViewCompiler::compile` walks the ordered nodes until one does not fit the
item or the byte limit.  The items of a compiled view therefore are a prefix of the
ordered selection, which a compiled view carries in its field `valid`: views are
built by the compiler only.
-/

namespace Bran.View

open Bran.Graph Validation List Text

/-! ## Declarations -/

inductive ViewSource
  | all
  | nodeIds (ids : List NodeId)
  | roles (roles : List NodeRole)
  | provenanceSourceContains (value : Str)
  | semanticFieldValue (key value : Str)
  deriving DecidableEq

inductive ViewFilter
  | all
  | role (role : NodeRole)
  | idPrefix (value : Str)
  | provenanceSourceContains (value : Str)
  | provenanceLocatorContains (value : Str)
  | minimumConfidence (value : ℕ)
  | semanticFieldValue (key value : Str)
  | allOf (filters : List ViewFilter)
  | anyOf (filters : List ViewFilter)
  | not (filter : ViewFilter)

inductive ViewSort
  | nodeId
  | roleThenNodeId
  | provenanceSourceThenNodeId
  | confidenceDescendingThenNodeId
  | semanticFieldThenNodeId (key : Str)
  deriving DecidableEq

inductive ViewGrouping
  | none
  | role
  | provenanceSource
  | semanticField (key : Str)
  deriving DecidableEq

inductive ViewField
  | nodeId
  | role
  | provenanceSource
  | provenanceLocator
  | confidence
  | semanticField (key : Str)
  deriving DecidableEq

inductive Presentation
  | markdown
  | json
  | terminal
  | obsidian
  deriving DecidableEq

structure ViewSpec where
  source : ViewSource
  filter : ViewFilter
  sort : ViewSort
  grouping : ViewGrouping
  fields : List ViewField
  presentation : Presentation
  maxItems : ℕ
  maxBytes : ℕ

namespace ViewSpec

def maxSourceNodeIds : ℕ := 256
def maxSourceRoles : ℕ := 16
def maxProjectedFields : ℕ := 64
def maxFilterDepth : ℕ := 16
def maxFilterClauses : ℕ := 128
def maxOutputItems : ℕ := 4096
def maxOutputBytes : ℕ := 1048576
def maxDeclarationStringBytes : ℕ := 256

end ViewSpec

inductive ViewError
  | sourceNodeIdLimitExceeded (limit actual : ℕ)
  | sourceRoleLimitExceeded (limit actual : ℕ)
  | projectedFieldLimitExceeded (limit actual : ℕ)
  | filterDepthLimitExceeded (limit actual : ℕ)
  | filterClauseLimitExceeded (limit actual : ℕ)
  | outputItemLimitExceeded (limit actual : ℕ)
  | outputByteLimitExceeded (limit actual : ℕ)
  | invalidDeclarationString (field : Str) (limit actual : ℕ)
  deriving DecidableEq

/-! ## Validation -/

def validateDeclarationString (value field : Str) (limit : ℕ) : Except ViewError Unit :=
  failIf (isBlank value = true ∨ byteLen value > limit)
    (.invalidDeclarationString field limit (byteLen value))

def validateSemanticKey (key field : Str) : Except ViewError Unit :=
  validateDeclarationString key field NodeFacts.maxFieldKeyBytes

def validateSemanticSelector (key value field : Str) : Except ViewError Unit := do
  validateSemanticKey key field
  validateDeclarationString value field NodeFacts.maxValueBytes

mutual

/-- `validate_filter`; the counter of clauses is returned. -/
def validateFilter : ViewFilter → ℕ → ℕ → Except ViewError ℕ
  | filter, depth, clauses => do
      failIf (depth > ViewSpec.maxFilterDepth)
        (.filterDepthLimitExceeded ViewSpec.maxFilterDepth depth)
      let clauses := min (clauses + 1) (2 ^ 64 - 1)
      failIf (clauses > ViewSpec.maxFilterClauses)
        (.filterClauseLimitExceeded ViewSpec.maxFilterClauses clauses)
      match filter with
      | .idPrefix value =>
          validateDeclarationString value "filter.id_prefix".toList
            ViewSpec.maxDeclarationStringBytes
          return clauses
      | .provenanceSourceContains value =>
          validateDeclarationString value "filter.provenance_source_contains".toList
            ViewSpec.maxDeclarationStringBytes
          return clauses
      | .provenanceLocatorContains value =>
          validateDeclarationString value "filter.provenance_locator_contains".toList
            ViewSpec.maxDeclarationStringBytes
          return clauses
      | .semanticFieldValue key value =>
          validateSemanticSelector key value "filter.semantic".toList
          return clauses
      | .allOf filters => validateFilters filters (depth + 1) clauses
      | .anyOf filters => validateFilters filters (depth + 1) clauses
      | .not filter => validateFilter filter (depth + 1) clauses
      | _ => return clauses

/-- The loop over the members of `AllOf` and `AnyOf`. -/
def validateFilters : List ViewFilter → ℕ → ℕ → Except ViewError ℕ
  | [], _, clauses => .ok clauses
  | filter :: rest, depth, clauses => do
      let clauses ← validateFilter filter depth clauses
      validateFilters rest depth clauses

end

/-- The checks of `ViewSpec::validate` on the source. -/
def validateSource : ViewSource → Except ViewError Unit
  | .nodeIds ids =>
      failIf (ids.length > ViewSpec.maxSourceNodeIds)
        (.sourceNodeIdLimitExceeded ViewSpec.maxSourceNodeIds ids.length)
  | .roles roles =>
      failIf (roles.length > ViewSpec.maxSourceRoles)
        (.sourceRoleLimitExceeded ViewSpec.maxSourceRoles roles.length)
  | .provenanceSourceContains value =>
      validateDeclarationString value "source.provenance_contains".toList
        ViewSpec.maxDeclarationStringBytes
  | .semanticFieldValue key value => validateSemanticSelector key value "source.semantic".toList
  | .all => .ok ()

def ViewSpec.validate (spec : ViewSpec) : Except ViewError Unit := do
  validateSource spec.source
  failIf (spec.fields.length > maxProjectedFields)
    (.projectedFieldLimitExceeded maxProjectedFields spec.fields.length)
  failIf (spec.maxItems > maxOutputItems) (.outputItemLimitExceeded maxOutputItems spec.maxItems)
  failIf (spec.maxBytes > maxOutputBytes) (.outputByteLimitExceeded maxOutputBytes spec.maxBytes)
  match spec.sort with
  | .semanticFieldThenNodeId key => validateSemanticKey key "sort.semantic_key".toList
  | _ => .ok ()
  match spec.grouping with
  | .semanticField key => validateSemanticKey key "group.semantic_key".toList
  | _ => .ok ()
  forEach (fun field =>
    match field with
    | .semanticField key => validateSemanticKey key "projection.semantic_key".toList
    | _ => .ok ()) spec.fields
  let _ ← validateFilter spec.filter 1 0
  return ()

/-! ## Selection and order -/

def sourceMatches (source : ViewSource) (wantedIds : Option (OrdSet NodeId)) (node : NodeInput) :
    Bool :=
  match source with
  | .all => true
  | .nodeIds _ => wantedIds.any fun ids => ids.contains node.id
  | .roles roles => roles.contains node.role
  | .provenanceSourceContains value => containsStr node.provenance.source value
  | .semanticFieldValue key value => node.facts.containsValue key value

mutual

def filterMatches : ViewFilter → NodeInput → Bool
  | .all, _ => true
  | .role role, node => node.role = role
  | .idPrefix value, node => value.isPrefixOf node.id.value
  | .provenanceSourceContains value, node => containsStr node.provenance.source value
  | .provenanceLocatorContains value, node => containsStr node.provenance.locator value
  | .minimumConfidence value, node => node.confidence.value ≥ value
  | .semanticFieldValue key value, node => node.facts.containsValue key value
  | .allOf filters, node => allMatch filters node
  | .anyOf filters, node => anyMatch filters node
  | .not filter, node => !filterMatches filter node

/-- `filters.iter().all(..)`. -/
def allMatch : List ViewFilter → NodeInput → Bool
  | [], _ => true
  | filter :: rest, node => filterMatches filter node && allMatch rest node

/-- `filters.iter().any(..)`. -/
def anyMatch : List ViewFilter → NodeInput → Bool
  | [], _ => false
  | filter :: rest, node => filterMatches filter node || anyMatch rest node

end

def roleName : NodeRole → Str
  | .document => "document".toList
  | .section_ => "section".toList
  | .symbol => "symbol".toList
  | .external => "external".toList
  | .entrypoint => "entrypoint".toList
  | .test => "test".toList
  | .generated => "generated".toList
  | .archived => "archived".toList

/-- `node.facts().values(key).and_then(|values| values.first()).cloned()`. -/
def firstValue (key : Str) (node : NodeInput) : Option Str :=
  (node.facts.values key).bind List.head?

/-- The first value as a sort key: an absent field comes before every present one. -/
def fieldKey (key : Str) (node : NodeInput) : WithBot Str := firstValue key node

def stableSort (sort : ViewSort) (nodes : List NodeInput) : List NodeInput :=
  match sort with
  | .nodeId => sortBy NodeInput.id nodes
  | .roleThenNodeId => sortBy (fun node => toLex (roleName node.role, node.id)) nodes
  | .provenanceSourceThenNodeId =>
      sortBy (fun node => toLex (node.provenance.source, node.id)) nodes
  | .confidenceDescendingThenNodeId =>
      sortBy (fun node => toLex (OrderDual.toDual node.confidence.value, node.id)) nodes
  | .semanticFieldThenNodeId key =>
      sortBy (fun node => toLex (fieldKey key node, node.id)) nodes

/-- The nodes that `compile` walks through. -/
def candidateNodes (spec : ViewSpec) (graph : KnowledgeGraph) : List NodeInput :=
  let wantedIds :=
    match spec.source with
    | .nodeIds ids => some (OrdSet.ofList ids)
    | _ => none
  stableSort spec.sort (((graph.nodeIds.filterMap graph.node).filter
    (sourceMatches spec.source wantedIds)).filter (filterMatches spec.filter))

/-! ## Projection -/

structure ProjectedField where
  field : ViewField
  name : Str
  value : Str
  deriving DecidableEq

structure ViewItem where
  id : NodeId
  group : Option Str
  provenance : Provenance
  fields : List ProjectedField
  renderedBytes : ℕ
  deriving DecidableEq

def groupKey (grouping : ViewGrouping) (node : NodeInput) : Str :=
  match grouping with
  | .none => []
  | .role => roleName node.role
  | .provenanceSource => node.provenance.source
  | .semanticField key => (firstValue key node).getD []

def groupValue (grouping : ViewGrouping) (key : Str) : Option Str :=
  match grouping with
  | .none => none
  | _ => some key

def appendCanonicalComponent (output label value : Str) : Str :=
  output ++ label ++ [':'] ++ decimal (byteLen value) ++ [':'] ++ value ++ ['\n']

def canonicalItemUtf8 (id : NodeId) (group : Option Str) (provenance : Provenance)
    (fields : List ProjectedField) : Str :=
  let output := appendCanonicalComponent [] "i".toList id.value
  let output :=
    match group with
    | some group => appendCanonicalComponent output "g".toList group
    | none => output ++ "g:-\n".toList
  let output := appendCanonicalComponent output "s".toList provenance.source
  let output := appendCanonicalComponent output "l".toList provenance.locator
  fields.foldl (fun output field =>
    appendCanonicalComponent (appendCanonicalComponent output "n".toList field.name) "v".toList
      field.value) output

def fieldName : ViewField → Str
  | .nodeId => "node_id".toList
  | .role => "role".toList
  | .provenanceSource => "provenance_source".toList
  | .provenanceLocator => "provenance_locator".toList
  | .confidence => "confidence".toList
  | .semanticField key => key

def fieldValue (field : ViewField) (node : NodeInput) : Str :=
  match field with
  | .nodeId => node.id.value
  | .role => roleName node.role
  | .provenanceSource => node.provenance.source
  | .provenanceLocator => node.provenance.locator
  | .confidence => decimal node.confidence.value
  | .semanticField key => ((node.facts.values key).map (join ", ".toList)).getD []

def projectItem (node : NodeInput) (group : Option Str) (fields : List ViewField) : ViewItem :=
  let projected := fields.map fun field => ⟨field, fieldName field, fieldValue field node⟩
  ⟨node.id, group, node.provenance, projected,
    byteLen (canonicalItemUtf8 node.id group node.provenance projected)⟩

/-! ## Compilation -/

def viewItem (spec : ViewSpec) (node : NodeInput) : ViewItem :=
  projectItem node (groupValue spec.grouping (groupKey spec.grouping node)) spec.fields

/-- The variables of the loop of `compile`. -/
structure Selection where
  items : List ViewItem
  groups : OrdMap Str (List NodeId)
  selectedBytes : ℕ
  truncated : Bool

/-- The loop of `compile`. -/
def selectNodes (spec : ViewSpec) : List NodeInput → Selection → Selection
  | [], selection => selection
  | node :: rest, selection =>
      let key := groupKey spec.grouping node
      let item := projectItem node (groupValue spec.grouping key) spec.fields
      let total := selection.selectedBytes + item.renderedBytes
      -- the sum does not fit a `usize`
      if total ≥ 2 ^ 64 then { selection with truncated := true }
      else if selection.items.length = spec.maxItems ∨ total > spec.maxBytes then
        { selection with truncated := true }
      else
        selectNodes spec rest
          { selection with
            items := selection.items ++ [item]
            groups := selection.groups.insert key ((selection.groups.find? key).getD [] ++ [item.id])
            selectedBytes := total }

/-- The items are those of a prefix of the candidates, and of all of them unless the view says
that it is truncated. -/
def ViewOf (spec : ViewSpec) (graph : KnowledgeGraph) (items : List ViewItem)
    (truncated : Bool) : Prop :=
  ∃ taken rest, candidateNodes spec graph = taken ++ rest ∧ items = taken.map (viewItem spec) ∧
    (truncated = false → rest = [])

structure CompiledView where
  spec : ViewSpec
  items : List ViewItem
  groups : OrdMap Str (List NodeId)
  selectedBytes : ℕ
  truncated : Bool
  valid : ∃ graph, ViewOf spec graph items truncated

/-- The loop takes nodes from the front of the list until one does not fit. -/
theorem selectNodes_spec {spec : ViewSpec} {nodes : List NodeInput} {selection : Selection} :
    ∃ taken rest, nodes = taken ++ rest ∧
      (selectNodes spec nodes selection).items = selection.items ++ taken.map (viewItem spec) ∧
      ((selectNodes spec nodes selection).truncated = false → rest = []) := by
  induction nodes generalizing selection with
  | nil => exact ⟨[], [], rfl, by simp [selectNodes], fun _ => rfl⟩
  | cons node rest ih =>
      rw [selectNodes]
      split_ifs with hoverflow hlimit
      · exact ⟨[], node :: rest, rfl, by simp, fun h => absurd h (by simp)⟩
      · exact ⟨[], node :: rest, rfl, by simp, fun h => absurd h (by simp)⟩
      · obtain ⟨taken, left, hsplit, hitems, hcomplete⟩ := @ih
          { selection with
            items := selection.items ++
              [projectItem node (groupValue spec.grouping (groupKey spec.grouping node)) spec.fields]
            groups := selection.groups.insert (groupKey spec.grouping node)
              ((selection.groups.find? (groupKey spec.grouping node)).getD [] ++ [node.id])
            selectedBytes := selection.selectedBytes + (projectItem node
              (groupValue spec.grouping (groupKey spec.grouping node)) spec.fields).renderedBytes }
        refine ⟨node :: taken, left, by rw [hsplit]; rfl, ?_, hcomplete⟩
        refine hitems.trans ?_
        rw [map_cons, append_assoc]
        rfl

/-- `ViewCompiler::compile`. -/
def compile (spec : ViewSpec) (graph : KnowledgeGraph) : Except ViewError CompiledView := do
  spec.validate
  let selection := selectNodes spec (candidateNodes spec graph) ⟨[], OrdMap.empty, 0, false⟩
  return ⟨spec, selection.items, selection.groups, selection.selectedBytes, selection.truncated,
    graph, selectNodes_spec⟩

/-! ## What a compiled view holds -/

theorem stableSort_perm (sort : ViewSort) (nodes : List NodeInput) :
    (stableSort sort nodes).Perm nodes := by
  cases sort <;> exact sortBy_perm _ _

/-- The nodes behind the identities of a graph are its nodes. -/
theorem filterMap_node (graph : KnowledgeGraph) :
    graph.nodeIds.filterMap graph.node = graph.nodes := by
  have hlookup : graph.node =
      Adjacency.lookup (Adjacency.positions (graph.nodes.map NodeInput.id)) graph.nodes := by
    funext id
    rw [KnowledgeGraph.node, ← graph.indexed]
  rw [KnowledgeGraph.nodeIds, hlookup]
  exact Adjacency.filterMap_lookup graph.valid.nodeIds fun _ h => h

/-- Every node of the graph is offered to the declaration once. -/
theorem candidateNodes_nodup (spec : ViewSpec) (graph : KnowledgeGraph) :
    ((candidateNodes spec graph).map NodeInput.id).Nodup := by
  unfold candidateNodes
  rw [((stableSort_perm _ _).map _).nodup_iff, filterMap_node]
  exact ((filter_sublist.trans filter_sublist).map _).nodup graph.valid.nodeIds

namespace CompiledView

/-- The identities a view selected. -/
def ids (view : CompiledView) : List NodeId := view.items.map ViewItem.id

/-- The view shows every node that its declaration selects. -/
def Complete (view : CompiledView) : Prop :=
  ∃ graph, view.items = (candidateNodes view.spec graph).map (viewItem view.spec)

/-- A view selects a node at most once. -/
theorem ids_nodup (view : CompiledView) : view.ids.Nodup := by
  obtain ⟨graph, taken, rest, hsplit, hitems, _⟩ := view.valid
  have hnodup := candidateNodes_nodup view.spec graph
  rw [hsplit, map_append] at hnodup
  have hids : view.ids = taken.map NodeInput.id := by
    rw [ids, hitems, map_map]
    rfl
  rw [hids]
  exact (nodup_append.mp hnodup).1

theorem complete_of_not_truncated {view : CompiledView} (h : view.truncated = false) :
    view.Complete := by
  obtain ⟨graph, taken, rest, hsplit, hitems, hcomplete⟩ := view.valid
  obtain rfl := hcomplete h
  rw [append_nil] at hsplit
  exact ⟨graph, by rw [hsplit, hitems]⟩

end CompiledView

end Bran.View
