import Bran.Graph.Reachability

/-!
# Impact

`KnowledgeGraph::impact` lists the nodes from which `Known` edges lead to a start node, nearest
first.  It is a breadth-first search against the edges that returns as soon as a limit stops it, so
a result that is not marked as truncated is complete, and a truncated one lacks a node.

`ImpactInv` is what holds between two inspections of an edge; `expandImpact_spec` follows the edges of
one node and `impactLoop_spec` the whole run.
-/

namespace Bran.Graph

open BoundedSearch List

structure Impact where
  node : NodeEvidence
  via : EdgeEvidence
  depth : ℕ
  deriving DecidableEq

/-- The records behind `reverse_edges`; the topology owns them. -/
def KnowledgeGraph.incoming (graph : KnowledgeGraph) (id : NodeId) : List EdgeInput :=
  (graph.reverseEdges id).filterMap graph.edge

/-- The variables of `impact`. -/
structure ImpactState where
  items : List Impact
  seen : Finset NodeId
  queue : List (NodeId × ℕ)

/-- How the loop over the edges of a node ends. -/
inductive ImpactStep
  | panicked
  | returned (result : Bounded Impact)
  | expanded (state : ImpactState)

/-- The loop over the edges into the node in front of the queue. -/
def expandImpact (graph : KnowledgeGraph) (bounds : QueryBounds) (depth : ℕ) :
    List EdgeInput → ImpactState → ImpactStep
  | [], state => .expanded state
  | edge :: rest, state =>
      if edge.certainty ≠ .known ∨ edge.source ∈ state.seen then
        expandImpact graph bounds depth rest state
      else if depth = bounds.maxDepth ∨ state.items.length = bounds.maxResults then
        .returned ⟨state.items, true⟩
      else
        match graph.node edge.source with
        | none => .panicked
        | some node =>
            expandImpact graph bounds depth rest
              { seen := insert edge.source state.seen
                queue := state.queue ++ [(edge.source, depth + 1)]
                items := state.items ++ [⟨nodeEvidence node, edgeEvidence edge, depth + 1⟩] }

/-- The loop over the queue; `none` when the fuel is used up or a node is missing. -/
def impactLoop (graph : KnowledgeGraph) (bounds : QueryBounds) :
    ℕ → ImpactState → Option (Bounded Impact)
  | 0, _ => none
  | fuel + 1, state =>
      match state.queue with
      | [] => some ⟨state.items, false⟩
      | (current, depth) :: queue =>
          match expandImpact graph bounds depth (graph.incoming current)
              { state with queue := queue } with
          | .panicked => none
          | .returned result => some result
          | .expanded next => impactLoop graph bounds fuel next

def KnowledgeGraph.impact (graph : KnowledgeGraph) (start : NodeId) (bounds : QueryBounds) :
    Option (NodeQuery Impact) :=
  if (graph.node start).isNone then some (.missing start)
  else
    (impactLoop graph bounds (graph.nodes.length + 1) ⟨[], {start}, [(start, 0)]⟩).map .found

/-! ## Edges into a node -/

namespace KnowledgeGraph

variable {graph : KnowledgeGraph}

theorem reverseEdges_eq (graph : KnowledgeGraph) (id : NodeId) :
    graph.reverseEdges id =
      (graph.edges.filter fun edge => edge.target = id).map EdgeInput.id := by
  rw [reverseEdges, ← graph.linked, Adjacency.reverse_tablesOf]

/-- No adjacency entry is without a record, so `incoming` skips nothing. -/
theorem map_edge_reverseEdges (graph : KnowledgeGraph) (id : NodeId) :
    (graph.reverseEdges id).map graph.edge = (graph.incoming id).map some ∧
      graph.incoming id = graph.edges.filter fun edge => edge.target = id := by
  obtain ⟨hmap, hfilter⟩ := graph.map_edge_ids fun edge hedge => (mem_filter.mp hedge).1
  rw [incoming, reverseEdges_eq, hfilter]
  exact ⟨hmap, rfl⟩

theorem mem_incoming {id : NodeId} {edge : EdgeInput} :
    edge ∈ graph.incoming id ↔ edge ∈ graph.edges ∧ edge.target = id := by
  rw [(graph.map_edge_reverseEdges id).2, mem_filter, decide_eq_true_iff]

/-- A `Known` edge leads into the first node from the second. -/
def BackStep (graph : KnowledgeGraph) (target source : NodeId) : Prop :=
  graph.KnownStep source target

/-- Going back along a path is going along it. -/
theorem walk_backStep_iff {n : ℕ} {u v : NodeId} :
    Walk graph.BackStep n u v ↔ Walk graph.KnownStep n v u := by
  have hcons : ∀ {step : NodeId → NodeId → Prop} {n : ℕ} {u v w : NodeId}, step u v →
      Walk step n v w → Walk step (n + 1) u w := by
    intro step n u v w hstep hwalk
    induction hwalk with
    | nil v => exact .snoc (.nil u) hstep
    | snoc _ hlast ih => exact .snoc (ih hstep) hlast
  constructor
  · intro h
    induction h with
    | nil u => exact .nil u
    | snoc _ hstep ih => exact hcons hstep ih
  · intro h
    induction h with
    | nil u => exact .nil u
    | snoc _ hstep ih => exact hcons hstep ih

end KnowledgeGraph

/-! ## The invariant -/

section Search

variable {graph : KnowledgeGraph} {start : NodeId} {bounds : QueryBounds}

/-- What holds between two edges; `done` holds the nodes that left the queue. -/
structure ImpactInv (graph : KnowledgeGraph) (start : NodeId) (bounds : QueryBounds)
    (done queue : List (NodeId × ℕ)) (state : ImpactState) : Prop where
  frontier : Frontier graph.BackStep (· = start) bounds.maxDepth done queue fun _ => False
  seen : ∀ id, id ∈ state.seen ↔ id ∈ (done ++ queue).map Prod.fst
  listed : done ++ queue = (start, 0) :: state.items.map fun item => (item.node.id, item.depth)
  evidence : ∀ item ∈ state.items, ∃ node ∈ graph.nodes, item.node = nodeEvidence node
  via : ∀ item ∈ state.items, ∃ edge ∈ graph.edges, item.via = edgeEvidence edge ∧
    edge.certainty = .known ∧ edge.source = item.node.id ∧
      ∃ nearer, item.depth = nearer + 1 ∧ (edge.target, nearer) ∈ done ++ queue
  count : state.items.length ≤ bounds.maxResults

variable {done queue : List (NodeId × ℕ)} {state : ImpactState}

theorem impactInv_start (graph : KnowledgeGraph) (start : NodeId) (bounds : QueryBounds) :
    ImpactInv graph start bounds [] [(start, 0)] ⟨[], {start}, [(start, 0)]⟩ := by
  refine ⟨?_, by simp, rfl, by simp, by simp, Nat.zero_le _⟩
  exact Frontier.init (nodup_singleton start) fun id => mem_singleton.symm

/-- An unseen node in front of the current one is listed. -/
theorem ImpactInv.discover {current : NodeId} {depth : ℕ} {edge : EdgeInput} {node : NodeInput}
    (h : ImpactInv graph start bounds done ((current, depth) :: queue) state)
    (hedge : edge ∈ graph.edges) (hknown : edge.certainty = .known)
    (htarget : edge.target = current) (hnew : edge.source ∉ state.seen)
    (hdepth : depth ≠ bounds.maxDepth) (hcount : state.items.length ≠ bounds.maxResults)
    (hnode : node ∈ graph.nodes) (hid : node.id = edge.source) :
    ImpactInv graph start bounds done ((current, depth) :: (queue ++ [(edge.source, depth + 1)]))
      { seen := insert edge.source state.seen
        queue := state.queue ++ [(edge.source, depth + 1)]
        items := state.items ++ [⟨nodeEvidence node, edgeEvidence edge, depth + 1⟩] } := by
  have hfront : (current, depth) ∈ done ++ (current, depth) :: queue := by simp
  have hwithin := h.frontier.within (current, depth) hfront
  have hstep : graph.BackStep current edge.source := ⟨edge, hedge, hknown, rfl, htarget⟩
  have hnew' : edge.source ∉ (done ++ (current, depth) :: queue).map Prod.fst := fun hmem =>
    hnew ((h.seen _).mpr hmem)
  have hassoc : done ++ (current, depth) :: (queue ++ [(edge.source, depth + 1)]) =
      (done ++ (current, depth) :: queue) ++ [(edge.source, depth + 1)] := by simp
  refine ⟨h.frontier.push hstep (lt_of_le_of_ne hwithin hdepth) hnew', ?_, ?_, ?_, ?_, ?_⟩
  · intro id
    rw [hassoc, map_append, mem_append, ← h.seen]
    simp [or_comm]
  · rw [hassoc, h.listed]
    simp [nodeEvidence, hid]
  · intro item hitem
    rcases mem_append.mp hitem with hold | hlast
    · exact h.evidence item hold
    · obtain rfl := mem_singleton.mp hlast
      exact ⟨node, hnode, rfl⟩
  · intro item hitem
    rw [hassoc]
    rcases mem_append.mp hitem with hold | hlast
    · obtain ⟨via, hvia, heq, hcertain, hsource, nearer, hnearer, hmem⟩ := h.via item hold
      exact ⟨via, hvia, heq, hcertain, hsource, nearer, hnearer, mem_append_left _ hmem⟩
    · obtain rfl := mem_singleton.mp hlast
      exact ⟨edge, hedge, rfl, hknown, hid.symm, depth, rfl,
        mem_append_left _ (htarget ▸ hfront)⟩
  · have hroom := h.count
    rw [length_append, length_singleton]
    omega

/-- What a run that a limit ended has returned. -/
def CutShort (graph : KnowledgeGraph) (start : NodeId) (bounds : QueryBounds)
    (result : Bounded Impact) : Prop :=
  ∃ done queue state, ImpactInv graph start bounds done queue state ∧
    result = ⟨state.items, true⟩ ∧
      ∃ id n, ReachedIn graph.BackStep (· = start) n id ∧ id ∉ state.seen

/-- What the loop over the edges of one node does. -/
inductive ImpactExpanded (graph : KnowledgeGraph) (start : NodeId) (bounds : QueryBounds)
    (done : List (NodeId × ℕ)) (front : NodeId × ℕ) (edges : List EdgeInput)
    (seen : Finset NodeId) : ImpactStep → Prop
  | returned (result : Bounded Impact) (hcut : CutShort graph start bounds result) :
      ImpactExpanded graph start bounds done front edges seen (.returned result)
  | expanded (state : ImpactState)
      (hinv : ImpactInv graph start bounds done (front :: state.queue) state)
      (hseen : seen ⊆ state.seen)
      (hedges : ∀ edge ∈ edges, edge.certainty = .known → edge.source ∈ state.seen) :
      ImpactExpanded graph start bounds done front edges seen (.expanded state)

theorem expandImpact_spec {current : NodeId} {depth : ℕ} {edges : List EdgeInput}
    (hedges : ∀ edge ∈ edges, edge ∈ graph.edges ∧ edge.target = current)
    (hinv : ImpactInv graph start bounds done ((current, depth) :: state.queue) state) :
    ImpactExpanded graph start bounds done (current, depth) edges state.seen
      (expandImpact graph bounds depth edges state) := by
  induction edges generalizing state with
  | nil => exact .expanded state hinv (Finset.Subset.refl _) (by simp)
  | cons edge rest ih =>
      have hrest : ∀ e ∈ rest, e ∈ graph.edges ∧ e.target = current := fun e he =>
        hedges e (mem_cons_of_mem _ he)
      obtain ⟨hedge, htarget⟩ := hedges edge mem_cons_self
      rw [expandImpact]
      split_ifs with hskip hlimit
      · have hnext := ih hrest hinv
        generalize expandImpact graph bounds depth rest state = result at hnext ⊢
        cases hnext with
        | returned result hcut => exact .returned result hcut
        | expanded state' hinv' hseen hall =>
            refine .expanded state' hinv' hseen ?_
            intro e he hknown
            rcases mem_cons.mp he with rfl | he
            · rcases hskip with hcertainty | hold
              · exact absurd hknown hcertainty
              · exact hseen hold
            · exact hall e he hknown
      · rw [not_or, not_not] at hskip
        have hstep : graph.BackStep current edge.source := ⟨edge, hedge, hskip.1, rfl, htarget⟩
        have hreached := hinv.frontier.sound (current, depth) (by simp)
        exact .returned _ ⟨done, _, state, hinv, rfl, edge.source, depth + 1, hreached.snoc hstep,
          hskip.2⟩
      · rw [not_or, not_not] at hskip
        rw [not_or] at hlimit
        obtain ⟨node, hnode, hid⟩ := graph.valid.sources edge hedge
        have hfound : graph.node edge.source = some node :=
          KnowledgeGraph.node_eq_some_iff.mpr ⟨hnode, hid⟩
        rw [hfound]
        have hnext := @ih
          { seen := insert edge.source state.seen
            queue := state.queue ++ [(edge.source, depth + 1)]
            items := state.items ++ [⟨nodeEvidence node, edgeEvidence edge, depth + 1⟩] } hrest
          (hinv.discover hedge hskip.1 htarget hskip.2 hlimit.1 hlimit.2 hnode hid)
        dsimp only at hnext ⊢
        generalize expandImpact graph bounds depth rest _ = result at hnext ⊢
        cases hnext with
        | returned result hcut => exact .returned result hcut
        | expanded state' hinv' hseen hall =>
            refine .expanded state' hinv' ((Finset.subset_insert _ _).trans hseen) ?_
            intro e he hknown
            rcases mem_cons.mp he with rfl | he
            · exact hseen (Finset.mem_insert_self _ _)
            · exact hall e he hknown

/-- The front of the queue leaves it once all edges into it are looked at. -/
theorem ImpactInv.retire {current : NodeId} {depth : ℕ}
    (h : ImpactInv graph start bounds done ((current, depth) :: queue) state)
    (hedges : ∀ edge ∈ graph.incoming current, edge.certainty = .known →
      edge.source ∈ state.seen) :
    ImpactInv graph start bounds (done ++ [(current, depth)]) queue state := by
  have hassoc : done ++ [(current, depth)] ++ queue = done ++ (current, depth) :: queue := by simp
  refine ⟨h.frontier.retire ?_, ?_, ?_, h.evidence, ?_, h.count⟩
  · intro id hstep
    obtain ⟨edge, hedge, hknown, rfl, htarget⟩ := hstep
    exact .inl ((h.seen _).mp
      (hedges edge (KnowledgeGraph.mem_incoming.mpr ⟨hedge, htarget⟩) hknown))
  · rw [hassoc]
    exact h.seen
  · rw [hassoc]
    exact h.listed
  · rw [hassoc]
    exact h.via

/-- What a run returns: a result that a limit ended, or all that the search has found. -/
def ImpactResult (graph : KnowledgeGraph) (start : NodeId) (bounds : QueryBounds)
    (result : Bounded Impact) : Prop :=
  CutShort graph start bounds result ∨
    ∃ done state, ImpactInv graph start bounds done [] state ∧ result = ⟨state.items, false⟩

theorem impactLoop_spec (hstart : Holds graph.nodes start) {fuel : ℕ}
    (hinv : ImpactInv graph start bounds done state.queue state)
    (hfuel : graph.nodes.length < done.length + fuel) :
    ∃ result, impactLoop graph bounds fuel state = some result ∧
      ImpactResult graph start bounds result := by
  induction fuel generalizing done state with
  | zero =>
      have hle := hinv.frontier.length_le (KnowledgeGraph.mem_nodeIds_of_steps
        (fun _ hsource => hsource ▸ hstart) fun _ _ hstep => (KnowledgeGraph.KnownStep.holds hstep).1)
      rw [KnowledgeGraph.nodeIds, length_map] at hle
      omega
  | succ fuel ih =>
      rw [impactLoop]
      cases hqueue : state.queue with
      | nil => exact ⟨_, rfl, .inr ⟨done, state, hqueue ▸ hinv, rfl⟩⟩
      | cons front queue =>
          obtain ⟨current, depth⟩ := front
          rw [hqueue] at hinv
          have hfront : ImpactInv graph start bounds done ((current, depth) :: queue)
              { state with queue := queue } :=
            ⟨hinv.frontier, hinv.seen, hinv.listed, hinv.evidence, hinv.via, hinv.count⟩
          have hexpanded := @expandImpact_spec graph start bounds done { state with queue := queue }
            current depth (graph.incoming current)
            (fun edge hedge => KnowledgeGraph.mem_incoming.mp hedge) hfront
          dsimp only at hexpanded ⊢
          generalize expandImpact graph bounds depth (graph.incoming current) _ = step
            at hexpanded ⊢
          cases hexpanded with
          | returned result hcut => exact ⟨result, rfl, .inl hcut⟩
          | expanded next hinv' _ hall =>
              refine ih (hinv'.retire hall) ?_
              rw [length_append, length_singleton]
              omega

end Search

/-! ## The result -/

/-- The length of a shortest `Known` path from one node to another. -/
def KnownDistance (graph : KnowledgeGraph) (n : ℕ) (source target : NodeId) : Prop :=
  Walk graph.KnownStep n source target ∧ ∀ m, Walk graph.KnownStep m source target → n ≤ m

/-- A `Known` path leads from one node to another. -/
def KnownReaches (graph : KnowledgeGraph) (source target : NodeId) : Prop :=
  ∃ n, Walk graph.KnownStep n source target

structure ImpactSpec (graph : KnowledgeGraph) (start : NodeId) (bounds : QueryBounds)
    (result : Bounded Impact) : Prop where
  nodup : (start :: result.items.map fun item => item.node.id).Nodup
  evidence : ∀ item ∈ result.items, ∃ node ∈ graph.nodes, item.node = nodeEvidence node
  via : ∀ item ∈ result.items, ∃ edge ∈ graph.edges, item.via = edgeEvidence edge ∧
    edge.certainty = .known ∧ edge.source = item.node.id ∧
      (edge.target = start ∧ item.depth = 1 ∨
        ∃ nearer ∈ result.items, edge.target = nearer.node.id ∧ item.depth = nearer.depth + 1)
  distance : ∀ item ∈ result.items, KnownDistance graph item.depth item.node.id start
  sorted : result.items.Pairwise fun item later => item.depth ≤ later.depth
  within : ∀ item ∈ result.items, item.depth ≤ bounds.maxDepth
  count : result.items.length ≤ bounds.maxResults
  complete : result.truncated = false → ∀ id, id ≠ start →
    ((∃ item ∈ result.items, item.node.id = id) ↔ KnownReaches graph id start)
  honest : result.truncated = true → ∃ id, id ≠ start ∧ KnownReaches graph id start ∧
    ∀ item ∈ result.items, item.node.id ≠ id

section Result

variable {graph : KnowledgeGraph} {start : NodeId} {bounds : QueryBounds}
  {done queue : List (NodeId × ℕ)} {state : ImpactState}

theorem knownReaches_of_reachedIn {n : ℕ} {id : NodeId}
    (h : ReachedIn graph.BackStep (· = start) n id) : Walk graph.KnownStep n id start := by
  obtain ⟨source, rfl, hwalk⟩ := h
  exact KnowledgeGraph.walk_backStep_iff.mp hwalk

theorem reachedIn_of_walk {n : ℕ} {id : NodeId} (h : Walk graph.KnownStep n id start) :
    ReachedIn graph.BackStep (· = start) n id :=
  ⟨start, rfl, KnowledgeGraph.walk_backStep_iff.mpr h⟩

/-- What is listed was found by the search. -/
theorem ImpactInv.mem_of_item (h : ImpactInv graph start bounds done queue state) {item : Impact}
    (hitem : item ∈ state.items) : (item.node.id, item.depth) ∈ done ++ queue := by
  rw [h.listed]
  exact mem_cons_of_mem _ (mem_map_of_mem hitem)

theorem ImpactInv.seen_iff (h : ImpactInv graph start bounds done queue state) (id : NodeId) :
    id ∈ state.seen ↔ id = start ∨ ∃ item ∈ state.items, item.node.id = id := by
  rw [h.seen, h.listed, map_cons, mem_cons, map_map, mem_map]
  rfl

/-- What holds of the items at any time. -/
theorem ImpactInv.spec (h : ImpactInv graph start bounds done queue state) {truncated : Bool}
    (hcomplete : truncated = false → ∀ id, id ≠ start → KnownReaches graph id start →
      ∃ item ∈ state.items, item.node.id = id)
    (hhonest : truncated = true → ∃ id n, ReachedIn graph.BackStep (· = start) n id ∧
      id ∉ state.seen) : ImpactSpec graph start bounds ⟨state.items, truncated⟩ := by
  have hsorted := h.frontier.sorted
  have hnodup := h.frontier.nodup
  rw [h.listed] at hsorted hnodup
  rw [map_cons, map_map] at hnodup
  have hreached : ∀ item ∈ state.items, KnownDistance graph item.depth item.node.id start := by
    intro item hitem
    have hdistance := h.frontier.isDistance (fun _ hcut => hcut.elim) (h.mem_of_item hitem)
    exact ⟨knownReaches_of_reachedIn hdistance.1,
      fun m hwalk => hdistance.2 m (reachedIn_of_walk hwalk)⟩
  refine ⟨hnodup, h.evidence, ?_, hreached, ?_, ?_, h.count, ?_, ?_⟩
  · intro item hitem
    obtain ⟨edge, hedge, heq, hknown, hsource, nearer, hnearer, hmem⟩ := h.via item hitem
    refine ⟨edge, hedge, heq, hknown, hsource, ?_⟩
    rw [h.listed, mem_cons] at hmem
    rcases hmem with hstart | hlisted
    · obtain ⟨htarget, rfl⟩ := Prod.mk.inj hstart
      exact .inl ⟨htarget, hnearer⟩
    · obtain ⟨other, hother, heq⟩ := mem_map.mp hlisted
      obtain ⟨hid, rfl⟩ := Prod.mk.inj heq
      exact .inr ⟨other, hother, hid.symm, hnearer⟩
  · have hitems := (pairwise_cons.mp hsorted).2
    rwa [pairwise_map] at hitems
  · exact fun item hitem => h.frontier.within _ (h.mem_of_item hitem)
  · intro hwhole id hne
    constructor
    · intro hitem
      obtain ⟨item, hitem, rfl⟩ := hitem
      exact ⟨_, (hreached item hitem).1⟩
    · exact hcomplete hwhole id hne
  · intro hcut
    obtain ⟨id, n, hwalk, hnew⟩ := hhonest hcut
    rw [h.seen_iff, not_or] at hnew
    exact ⟨id, hnew.1, ⟨n, knownReaches_of_reachedIn hwalk⟩,
      fun item hitem hid => hnew.2 ⟨item, hitem, hid⟩⟩

theorem ImpactResult.spec {result : Bounded Impact}
    (h : ImpactResult graph start bounds result) : ImpactSpec graph start bounds result := by
  rcases h with ⟨done, queue, state, hinv, rfl, hmissing⟩ | ⟨done, state, hinv, rfl⟩
  · exact hinv.spec (fun h => (nomatch h)) fun _ => hmissing
  · refine hinv.spec (fun _ id hne hreaches => ?_) fun h => (nomatch h)
    obtain ⟨n, hwalk⟩ := hreaches
    obtain ⟨k, _, hmem⟩ :=
      hinv.frontier.found_of_complete (fun _ hcut => hcut) (reachedIn_of_walk hwalk)
    have hseen : id ∈ state.seen := by
      rw [hinv.seen, append_nil]
      exact mem_map_of_mem hmem
    exact ((hinv.seen_iff id).mp hseen).resolve_left hne

end Result

/-- Impact is exact reverse reachability: an absent node has none, and for a node of the graph the
search ends with items at their distance, all of them unless it says that one is missing. -/
theorem impact_exact (graph : KnowledgeGraph) (start : NodeId) (bounds : QueryBounds) :
    (¬ Holds graph.nodes start ∧ graph.impact start bounds = some (.missing start)) ∨
      (Holds graph.nodes start ∧ ∃ result, graph.impact start bounds = some (.found result) ∧
        ImpactSpec graph start bounds result) := by
  by_cases hstart : Holds graph.nodes start
  · refine .inr ⟨hstart, ?_⟩
    have hsome : (graph.node start).isNone = false := by
      rw [← Option.not_isSome, KnowledgeGraph.node_isSome_iff.mpr hstart, Bool.not_true]
    obtain ⟨result, hrun, hresult⟩ :=
      @impactLoop_spec graph start bounds [] ⟨[], {start}, [(start, 0)]⟩ hstart
        (graph.nodes.length + 1) (impactInv_start graph start bounds) (by simp)
    refine ⟨result, ?_, hresult.spec⟩
    rw [KnowledgeGraph.impact, hsome, if_neg Bool.false_ne_true, hrun, Option.map_some]
  · refine .inl ⟨hstart, ?_⟩
    have hnone : (graph.node start).isNone = true := by
      rw [Option.isNone_iff_eq_none, ← Option.not_isSome_iff_eq_none,
        KnowledgeGraph.node_isSome_iff]
      exact hstart
    rw [KnowledgeGraph.impact, if_pos hnone]

end Bran.Graph
