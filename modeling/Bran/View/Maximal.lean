import Bran.Library.BoundedPrefix
import Bran.View.Compile

/-!
# Compiled views are maximal prefixes

A declaration lists nodes of a graph in one order only.  The items of a compiled view are the longest
prefix of that list within the item and the byte limit, so that a larger limit extends them, and the
groups are the items sorted into classes.
-/

namespace Bran.View

open Bran.Graph Validation BoundedPrefix List

/-! ## What a declaration lists -/

/-- A node is named by the source of a declaration. -/
def Offered (source : ViewSource) (node : NodeInput) : Prop :=
  match source with
  | .all => True
  | .nodeIds ids => node.id ∈ ids
  | .roles roles => node.role ∈ roles
  | .provenanceSourceContains value => value <:+: node.provenance.source
  | .semanticFieldValue key value => node.facts.containsValue key value = true

mutual

/-- A node satisfies a filter. -/
def Satisfies : ViewFilter → NodeInput → Prop
  | .all, _ => True
  | .role role, node => node.role = role
  | .idPrefix value, node => value <+: node.id.value
  | .provenanceSourceContains value, node => value <:+: node.provenance.source
  | .provenanceLocatorContains value, node => value <:+: node.provenance.locator
  | .minimumConfidence value, node => value ≤ node.confidence.value
  | .semanticFieldValue key value, node => node.facts.containsValue key value = true
  | .allOf filters, node => SatisfiesAll filters node
  | .anyOf filters, node => SatisfiesAny filters node
  | .not filter, node => ¬Satisfies filter node

def SatisfiesAll : List ViewFilter → NodeInput → Prop
  | [], _ => True
  | filter :: rest, node => Satisfies filter node ∧ SatisfiesAll rest node

def SatisfiesAny : List ViewFilter → NodeInput → Prop
  | [], _ => False
  | filter :: rest, node => Satisfies filter node ∨ SatisfiesAny rest node

end

/-- A node comes before another one: by the sort key, and by its identity where that is equal. -/
def Precedes (sort : ViewSort) (first second : NodeInput) : Prop :=
  match sort with
  | .nodeId => first.id < second.id
  | .roleThenNodeId => roleName first.role < roleName second.role ∨
      roleName first.role = roleName second.role ∧ first.id < second.id
  | .provenanceSourceThenNodeId => first.provenance.source < second.provenance.source ∨
      first.provenance.source = second.provenance.source ∧ first.id < second.id
  | .confidenceDescendingThenNodeId => second.confidence.value < first.confidence.value ∨
      first.confidence.value = second.confidence.value ∧ first.id < second.id
  | .semanticFieldThenNodeId key => fieldKey key first < fieldKey key second ∨
      fieldKey key first = fieldKey key second ∧ first.id < second.id

/-- The list of all nodes that the source and the filter select, in the order of the sort. -/
structure Listing (spec : ViewSpec) (graph : KnowledgeGraph) (nodes : List NodeInput) : Prop where
  mem_iff : ∀ node, node ∈ nodes ↔
    node ∈ graph.nodes ∧ Offered spec.source node ∧ Satisfies spec.filter node
  ordered : nodes.Pairwise (Precedes spec.sort)

mutual

theorem filterMatches_iff (filter : ViewFilter) (node : NodeInput) :
    filterMatches filter node = true ↔ Satisfies filter node := by
  cases filter with
  | all | role role | idPrefix value => simp [filterMatches, Satisfies]
  | provenanceSourceContains value
  | provenanceLocatorContains value => simp [filterMatches, Satisfies, Text.containsStr]
  | minimumConfidence value | semanticFieldValue key value => simp [filterMatches, Satisfies]
  | allOf filters =>
      rw [filterMatches, Satisfies]
      exact allMatch_iff filters node
  | anyOf filters =>
      rw [filterMatches, Satisfies]
      exact anyMatch_iff filters node
  | not filter =>
      rw [filterMatches, Satisfies, ← filterMatches_iff filter node, Bool.not_eq_true',
        Bool.not_eq_true]
termination_by structural filter

theorem allMatch_iff (filters : List ViewFilter) (node : NodeInput) :
    allMatch filters node = true ↔ SatisfiesAll filters node := by
  cases filters with
  | nil => simp [allMatch, SatisfiesAll]
  | cons filter rest =>
      rw [allMatch, SatisfiesAll, Bool.and_eq_true, filterMatches_iff filter node,
        allMatch_iff rest node]
termination_by structural filters

theorem anyMatch_iff (filters : List ViewFilter) (node : NodeInput) :
    anyMatch filters node = true ↔ SatisfiesAny filters node := by
  cases filters with
  | nil => simp [anyMatch, SatisfiesAny]
  | cons filter rest =>
      rw [anyMatch, SatisfiesAny, Bool.or_eq_true, filterMatches_iff filter node,
        anyMatch_iff rest node]
termination_by structural filters

end

theorem sourceMatches_iff (source : ViewSource) (node : NodeInput) :
    sourceMatches source (match source with
      | .nodeIds ids => some (OrdSet.ofList ids)
      | _ => none) node = true ↔ Offered source node := by
  cases source with
  | nodeIds ids => simp [sourceMatches, Offered, OrdMap.contains_iff, OrdSet.mem_keys_ofList]
  | _ => simp [sourceMatches, Offered, Text.containsStr]

/-- Sorting by a key with the identity behind it. -/
theorem pairwise_sortBy_id {K : Type} [LinearOrder K] (key : NodeInput → K)
    {nodes : List NodeInput} (hnodup : (nodes.map NodeInput.id).Nodup) :
    (sortBy (fun node => toLex (key node, node.id)) nodes).Pairwise fun first second =>
      key first < key second ∨ key first = key second ∧ first.id < second.id := by
  have hkeys : (nodes.map fun node => toLex (key node, node.id)).Nodup := by
    apply List.Nodup.of_map (fun pair => (ofLex pair).2)
    rw [map_map]
    exact hnodup
  have hsorted := pairwise_map.mp (pairwise_lt_sortBy hkeys)
  exact hsorted.imp fun h => Prod.Lex.toLex_lt_toLex.mp h

theorem stableSort_ordered (sort : ViewSort) {nodes : List NodeInput}
    (hnodup : (nodes.map NodeInput.id).Nodup) :
    (stableSort sort nodes).Pairwise (Precedes sort) := by
  cases sort with
  | nodeId =>
      have hsorted : (sortBy NodeInput.id nodes).Pairwise fun first second =>
          first.id < second.id := pairwise_map.mp (pairwise_lt_sortBy hnodup)
      exact hsorted
  | roleThenNodeId => exact pairwise_sortBy_id (fun node => roleName node.role) hnodup
  | provenanceSourceThenNodeId =>
      exact pairwise_sortBy_id (fun node => node.provenance.source) hnodup
  | confidenceDescendingThenNodeId =>
      exact pairwise_sortBy_id (fun node => OrderDual.toDual node.confidence.value) hnodup
  | semanticFieldThenNodeId key => exact pairwise_sortBy_id (fieldKey key) hnodup

/-- The nodes that `compile` walks through are those that the declaration lists. -/
theorem candidateNodes_listing (spec : ViewSpec) (graph : KnowledgeGraph) :
    Listing spec graph (candidateNodes spec graph) := by
  unfold candidateNodes
  rw [filterMap_node]
  constructor
  · intro node
    rw [(stableSort_perm _ _).mem_iff, mem_filter, mem_filter, filterMatches_iff,
      and_assoc]
    exact and_congr_right fun _ => and_congr_left fun _ => sourceMatches_iff spec.source node
  · apply stableSort_ordered
    exact ((filter_sublist.trans filter_sublist).map _).nodup graph.valid.nodeIds

/-! ## The loop -/

/-- The bytes of the item for a node. -/
def rendered (spec : ViewSpec) (node : NodeInput) : ℕ := (viewItem spec node).renderedBytes

def joinGroup (spec : ViewSpec) (groups : OrdMap Str (List NodeId)) (node : NodeInput) :
    OrdMap Str (List NodeId) :=
  groups.insert (groupKey spec.grouping node)
    ((groups.find? (groupKey spec.grouping node)).getD [] ++ [node.id])

/-- The variables of the loop behind a node that fits. -/
def Selection.join (spec : ViewSpec) (selection : Selection) (node : NodeInput) : Selection :=
  { selection with
    items := selection.items ++ [viewItem spec node]
    groups := joinGroup spec selection.groups node
    selectedBytes := selection.selectedBytes + rendered spec node }

section Loop

variable {spec : ViewSpec} {node : NodeInput} {rest : List NodeInput} {selection : Selection}

/-- A node that does not fit ends the loop, whichever check says so. -/
theorem selectNodes_cons_of_full (h : selection.items.length = spec.maxItems ∨
    selection.selectedBytes + rendered spec node > spec.maxBytes) :
    selectNodes spec (node :: rest) selection = { selection with truncated := true } := by
  by_cases hoverflow : selection.selectedBytes + rendered spec node ≥ 2 ^ 64
  · exact if_pos hoverflow
  · exact (if_neg hoverflow).trans (if_pos h)

theorem selectNodes_cons_of_room (hlimit : spec.maxBytes < 2 ^ 64)
    (hitems : selection.items.length ≠ spec.maxItems)
    (hbytes : selection.selectedBytes + rendered spec node ≤ spec.maxBytes) :
    selectNodes spec (node :: rest) selection =
      selectNodes spec rest (selection.join spec node) := by
  have hoverflow : ¬selection.selectedBytes + rendered spec node ≥ 2 ^ 64 := by omega
  have hfull : ¬(selection.items.length = spec.maxItems ∨
      selection.selectedBytes + rendered spec node > spec.maxBytes) := by omega
  exact (if_neg hoverflow).trans (if_neg hfull)

def takenNodes (spec : ViewSpec) (nodes : List NodeInput) (selection : Selection) :
    List NodeInput :=
  takeWithin (rendered spec) (spec.maxItems - selection.items.length)
    (spec.maxBytes - selection.selectedBytes) nodes

theorem takenNodes_cons_of_room (hitems : selection.items.length < spec.maxItems)
    (hbytes : selection.selectedBytes + rendered spec node ≤ spec.maxBytes) :
    takenNodes spec (node :: rest) selection =
      node :: takenNodes spec rest (selection.join spec node) := by
  rw [takenNodes, takeWithin_cons_of_within (by omega) (by omega), takenNodes, Nat.sub_sub,
    Nat.sub_sub]
  simp [Selection.join]

/-- The loop takes the nodes that the limits leave room for. -/
theorem selectNodes_eq (hlimit : spec.maxBytes < 2 ^ 64) (nodes : List NodeInput)
    (hitems : selection.items.length ≤ spec.maxItems)
    (hbytes : selection.selectedBytes ≤ spec.maxBytes) (htruncated : selection.truncated = false) :
    selectNodes spec nodes selection =
      ⟨selection.items ++ (takenNodes spec nodes selection).map (viewItem spec),
        (takenNodes spec nodes selection).foldl (joinGroup spec) selection.groups,
        selection.selectedBytes + ((takenNodes spec nodes selection).map (rendered spec)).sum,
        decide (takenNodes spec nodes selection ≠ nodes)⟩ := by
  induction nodes generalizing selection with
  | nil =>
      obtain ⟨items, groups, selectedBytes, truncated⟩ := selection
      obtain rfl : truncated = false := htruncated
      simp [takenNodes, selectNodes]
  | cons node rest ih =>
      by_cases hfull : selection.items.length = spec.maxItems ∨
          selection.selectedBytes + rendered spec node > spec.maxBytes
      · have htaken : takenNodes spec (node :: rest) selection = [] :=
          takeWithin_cons_of_full (by omega)
        rw [selectNodes_cons_of_full hfull, htaken]
        simp
      · have hroom : selection.items.length < spec.maxItems ∧
            selection.selectedBytes + rendered spec node ≤ spec.maxBytes := by omega
        have hlength : (selection.join spec node).items.length ≤ spec.maxItems := by
          simp only [Selection.join, length_append, length_singleton]
          omega
        rw [selectNodes_cons_of_room hlimit (by omega) hroom.2, ih hlength hroom.2 htruncated,
          takenNodes_cons_of_room hroom.1 hroom.2]
        have hsame : decide (takenNodes spec rest (selection.join spec node) ≠ rest) =
            decide (node :: takenNodes spec rest (selection.join spec node) ≠ node :: rest) :=
          decide_eq_decide.mpr (not_congr (cons_inj_right node).symm)
        rw [hsame]
        simp [Selection.join, Nat.add_assoc]

end Loop

/-! ## The groups -/

/-- The identities of the nodes under a key, in their order. -/
def underKey (spec : ViewSpec) (key : Str) (nodes : List NodeInput) : List NodeId :=
  (nodes.filter fun node => groupKey spec.grouping node = key).map NodeInput.id

theorem find?_joinGroup (spec : ViewSpec) (groups : OrdMap Str (List NodeId)) (node : NodeInput)
    (key : Str) : (joinGroup spec groups node).find? key =
      if groupKey spec.grouping node = key then
        some ((groups.find? key).getD [] ++ [node.id])
      else groups.find? key := by
  rw [joinGroup, OrdMap.find?_insert]
  split_ifs with h
  · rw [h]
  · rfl

/-- A group holds what it held and the nodes under its key. -/
theorem find?_foldl_joinGroup (spec : ViewSpec) (nodes : List NodeInput)
    (groups : OrdMap Str (List NodeId)) (key : Str) :
    (nodes.foldl (joinGroup spec) groups).find? key =
      if underKey spec key nodes = [] then groups.find? key
      else some ((groups.find? key).getD [] ++ underKey spec key nodes) := by
  induction nodes generalizing groups with
  | nil => rfl
  | cons node rest ih =>
      rw [foldl_cons, ih, find?_joinGroup]
      by_cases hkey : groupKey spec.grouping node = key
      · have hunder : underKey spec key (node :: rest) = node.id :: underKey spec key rest := by
          simp [underKey, hkey]
        rw [hunder, if_pos hkey, if_neg (cons_ne_nil _ _)]
        split_ifs with hrest
        · rw [hrest]
        · rw [Option.getD_some, append_assoc]
          rfl
      · have hunder : underKey spec key (node :: rest) = underKey spec key rest := by
          simp [underKey, hkey]
        rw [hunder, if_neg hkey]

/-- The groups hold the nodes, each once. -/
theorem flatten_foldl_joinGroup (spec : ViewSpec) (nodes : List NodeInput)
    (groups : OrdMap Str (List NodeId)) :
    ((nodes.foldl (joinGroup spec) groups).values.flatten).Perm
      (groups.values.flatten ++ nodes.map NodeInput.id) := by
  have hcount : ∀ (id : NodeId) (m : OrdMap Str (List NodeId)),
      m.values.flatten.count id = m.total (List.count id) := by
    intro id m
    rw [count_flatten, OrdMap.total, OrdMap.values, OrdMap.values, OrdMap.mapValues,
      map_map, map_map]
    rfl
  have hstep : ∀ (groups : OrdMap Str (List NodeId)) (node : NodeInput),
      ((joinGroup spec groups node).values.flatten).Perm (groups.values.flatten ++ [node.id]) := by
    intro groups node
    rw [perm_iff_count]
    intro id
    have htotal := OrdMap.total_insert (List.count id) groups (groupKey spec.grouping node)
      ((groups.find? (groupKey spec.grouping node)).getD [] ++ [node.id])
    rw [hcount, count_append, hcount, joinGroup]
    rw [count_append] at htotal
    cases hfind : groups.find? (groupKey spec.grouping node) with
    | none =>
        rw [hfind] at htotal
        simpa using htotal
    | some held =>
        rw [hfind] at htotal
        simp only [Option.map_some, Option.getD_some] at htotal ⊢
        omega
  induction nodes generalizing groups with
  | nil => simp
  | cons node rest ih =>
      rw [foldl_cons, map_cons]
      have happend : groups.values.flatten ++ node.id :: rest.map NodeInput.id =
          (groups.values.flatten ++ [node.id]) ++ rest.map NodeInput.id := by simp
      rw [happend]
      exact (ih _).trans ((hstep groups node).append_right _)

/-! ## Compiled views -/

def canonicalBytes (item : ViewItem) : ℕ :=
  Text.byteLen (canonicalItemUtf8 item.id item.group item.provenance item.fields)

/-- The canonical bytes of items. -/
def totalBytes (items : List ViewItem) : ℕ := (items.map canonicalBytes).sum

/-- The group that an item belongs to, with the empty key where there is no grouping. -/
def groupOf (item : ViewItem) : Str := item.group.getD []

/-- The identities of the items of a group, in the order of the items. -/
def members (items : List ViewItem) (key : Str) : List NodeId :=
  (items.filter fun item => groupOf item = key).map ViewItem.id

/-- A compiled view of the listed nodes. -/
structure MaximalView (spec : ViewSpec) (listing : List NodeInput) (view : CompiledView) :
    Prop where
  isPrefix : view.items <+: listing.map (viewItem spec)
  withinItems : view.items.length ≤ spec.maxItems
  withinBytes : totalBytes view.items ≤ spec.maxBytes
  longest : ∀ other, other <+: listing.map (viewItem spec) → other.length ≤ spec.maxItems →
    totalBytes other ≤ spec.maxBytes → other.length ≤ view.items.length
  selectedBytes : view.selectedBytes = totalBytes view.items
  /-- A group is there when it has items, and then holds these in their order. -/
  groups : ∀ key, view.groups.find? key =
    if members view.items key = [] then none else some (members view.items key)
  partition : (view.groups.values.flatten).Perm view.ids
  truncated : view.truncated = false ↔ view.items = listing.map (viewItem spec)

theorem groupOf_viewItem (spec : ViewSpec) (node : NodeInput) :
    groupOf (viewItem spec node) = groupKey spec.grouping node := by
  rw [groupOf, viewItem, projectItem]
  cases spec.grouping <;> rfl

theorem members_map_viewItem (spec : ViewSpec) (key : Str) (nodes : List NodeInput) :
    members (nodes.map (viewItem spec)) key = underKey spec key nodes := by
  rw [members, underKey, filter_map, map_map]
  simp only [Function.comp_def, groupOf_viewItem]
  rfl

theorem totalBytes_map_viewItem (spec : ViewSpec) (nodes : List NodeInput) :
    totalBytes (nodes.map (viewItem spec)) = (nodes.map (rendered spec)).sum := by
  rw [totalBytes, map_map]
  rfl

/-- An accepted declaration has small limits. -/
theorem maxBytes_le_of_validate {spec : ViewSpec} (h : spec.validate = .ok ()) :
    spec.maxBytes ≤ ViewSpec.maxOutputBytes := by
  rw [ViewSpec.validate] at h
  obtain ⟨_, _, h⟩ := bind_eq_ok_iff.mp h
  obtain ⟨_, _, h⟩ := bind_eq_ok_iff.mp h
  obtain ⟨_, _, h⟩ := bind_eq_ok_iff.mp h
  obtain ⟨_, hbytes, _⟩ := bind_eq_ok_iff.mp h
  exact not_lt.mp (failIf_eq_ok_iff.mp hbytes)

/-- The nodes whose items a compiled view holds. -/
def shownNodes (spec : ViewSpec) (graph : KnowledgeGraph) : List NodeInput :=
  takeWithin (rendered spec) spec.maxItems spec.maxBytes (candidateNodes spec graph)

/-- What `compile` returns for an accepted declaration. -/
theorem compile_eq {spec : ViewSpec} (h : spec.validate = .ok ()) (graph : KnowledgeGraph) :
    ∃ view, compile spec graph = .ok view ∧
      view.items = (shownNodes spec graph).map (viewItem spec) ∧
      view.groups = (shownNodes spec graph).foldl (joinGroup spec) .empty ∧
      view.selectedBytes = ((shownNodes spec graph).map (rendered spec)).sum ∧
      view.truncated = decide (shownNodes spec graph ≠ candidateNodes spec graph) := by
  have hlimit : spec.maxBytes < 2 ^ 64 := by
    have hle := maxBytes_le_of_validate h
    rw [ViewSpec.maxOutputBytes] at hle
    omega
  have hrun := @selectNodes_eq spec ⟨[], OrdMap.empty, 0, false⟩ hlimit (candidateNodes spec graph)
    (Nat.zero_le _) (Nat.zero_le _) rfl
  refine ⟨_, by rw [compile, h]; rfl, ?_⟩
  dsimp only
  rw [hrun]
  exact ⟨rfl, rfl, Nat.zero_add _, rfl⟩

theorem viewItem_injective_on {spec : ViewSpec} {first second : List NodeInput}
    (h : first <+: second) (hitems : first.map (viewItem spec) = second.map (viewItem spec)) :
    first = second := by
  have hlength := congrArg List.length hitems
  rw [length_map, length_map] at hlength
  exact h.eq_of_length hlength

/-- The view of an accepted declaration. -/
theorem maximalView_of_compile {spec : ViewSpec} (h : spec.validate = .ok ())
    {graph : KnowledgeGraph} {view : CompiledView} (hview : compile spec graph = .ok view) :
    MaximalView spec (candidateNodes spec graph) view := by
  obtain ⟨view', hview', hitems, hgroups, hbytes, htruncated⟩ := compile_eq h graph
  obtain rfl := Except.ok.inj (hview.symm.trans hview')
  have hshown : shownNodes spec graph <+: candidateNodes spec graph := takeWithin_isPrefix
  have hwithin : Within (rendered spec) spec.maxItems spec.maxBytes (shownNodes spec graph) :=
    within_takeWithin
  exact {
    isPrefix := by
      rw [hitems]
      exact hshown.map _
    withinItems := by
      rw [hitems, length_map]
      exact hwithin.length
    withinBytes := by
      rw [hitems, totalBytes_map_viewItem]
      exact hwithin.cost
    longest := by
      intro other hother hlength hcost
      -- the items of a prefix are those of a prefix of the nodes
      obtain ⟨nodes, hnodes, rfl⟩ := prefix_map_iff.mp hother
      rw [length_map] at hlength
      rw [totalBytes_map_viewItem] at hcost
      rw [hitems, length_map, length_map]
      exact (isPrefix_takeWithin hnodes ⟨hlength, hcost⟩).length_le
    selectedBytes := by rw [hbytes, hitems, totalBytes_map_viewItem]
    groups := by
      intro key
      rw [hgroups, hitems, members_map_viewItem, find?_foldl_joinGroup]
      rfl
    partition := by
      have hperm := flatten_foldl_joinGroup spec (shownNodes spec graph) .empty
      rw [hgroups, CompiledView.ids, hitems, map_map]
      exact hperm
    truncated := by
      rw [htruncated, hitems, decide_eq_false_iff_not, not_not]
      constructor
      · exact congrArg _
      · exact viewItem_injective_on hshown }

/-- An accepted declaration compiles to the longest prefix of its listing within the limits, and
larger limits only extend the items. -/
theorem compile_maximal {spec : ViewSpec} (h : spec.validate = .ok ()) (graph : KnowledgeGraph) :
    ∃ view listing, compile spec graph = .ok view ∧ Listing spec graph listing ∧
      MaximalView spec listing view ∧
      ∀ maxItems maxBytes larger, spec.maxItems ≤ maxItems → spec.maxBytes ≤ maxBytes →
        compile { spec with maxItems := maxItems, maxBytes := maxBytes } graph = .ok larger →
        view.items <+: larger.items := by
  obtain ⟨view, hview, hitems, _⟩ := compile_eq h graph
  refine ⟨view, candidateNodes spec graph, hview, candidateNodes_listing spec graph,
    maximalView_of_compile h hview, ?_⟩
  intro maxItems maxBytes larger hmaxItems hmaxBytes hlarger
  have hvalid : ViewSpec.validate { spec with maxItems := maxItems, maxBytes := maxBytes } =
      .ok () := (bind_eq_ok_iff.mp hlarger).elim fun _ h => h.1
  obtain ⟨larger', hlarger', hitems', _⟩ := compile_eq hvalid graph
  obtain rfl := Except.ok.inj (hlarger.symm.trans hlarger')
  rw [hitems, hitems']
  -- the limits change neither the listing nor the items
  have hmono := @takeWithin_mono _ (rendered spec) _ _ (candidateNodes spec graph) _ _ hmaxItems
    hmaxBytes
  exact hmono.map (viewItem spec)

/-- A document without facts. -/
def plainNode (id : Str) (h : validIdentity id = true) : NodeInput :=
  ⟨⟨id, h⟩, .document, ⟨['s'], ['l'], by decide⟩, ⟨100, le_rfl⟩, NodeFacts.default⟩

/-- A graph of two documents. -/
def pairGraph : KnowledgeGraph where
  nodes := [plainNode ['a'] (by decide), plainNode ['b'] (by decide)]
  nodeIndex := _
  edges := []
  tables := _
  valid := ⟨by decide, nodup_nil, fun _ h => (nomatch h), fun _ h => (nomatch h)⟩
  indexed := rfl
  linked := rfl

/-- A view of all nodes with room for one item. -/
def oneItem : ViewSpec := ⟨.all, .all, .nodeId, .role, [.nodeId], .json, 1, 1000⟩

theorem compile_maximal_oneItem :
    ∃ view listing, compile oneItem pairGraph = .ok view ∧ Listing oneItem pairGraph listing ∧
      MaximalView oneItem listing view ∧
      ∀ maxItems maxBytes larger, oneItem.maxItems ≤ maxItems → oneItem.maxBytes ≤ maxBytes →
        compile { oneItem with maxItems := maxItems, maxBytes := maxBytes } pairGraph =
          .ok larger →
        view.items <+: larger.items :=
  compile_maximal (by decide +kernel) pairGraph

end Bran.View
