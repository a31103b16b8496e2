import Bran.Graph.Reachability
import Bran.Library.LeastPaths
import Mathlib.Data.Set.Card

/-!
# Trails

`KnowledgeGraph::trail` looks for a path of `Known` edges from a start node to a target, breadth
first, and looks at the edges of a node in the order of their targets and identities.  The path that
it rebuilds from the predecessors is the shortest one, and among the shortest ones the first in the
order of its steps.

A limit does not end the search, it only lets edges be passed over.  Once that has happened nothing
is found any more, so a trail that is found is not affected by the limits.
-/

namespace Bran.Graph

open LeastPaths List OrdMap Validation

/-! ## The search -/

structure Trail where
  nodes : List NodeEvidence
  edges : List EdgeEvidence
  truncated : Bool
  deriving DecidableEq

inductive TrailStatus
  | missingStart (id : NodeId)
  | missingTarget (id : NodeId)
  | found (trail : Trail)
  | unreachable (truncated : Bool)
  deriving DecidableEq

/-- The variables of `trail`. -/
structure TrailState where
  seen : Finset NodeId
  prior : OrdMap NodeId (NodeId × EdgeId)
  queue : List (NodeId × ℕ)
  truncated : Bool

/-- What the edges of a node are sorted by. -/
def stepLabel (edge : EdgeInput) : NodeId ×ₗ EdgeId := toLex (edge.target, edge.id)

/-- The `Known` edges from a node, in the order in which they are looked at. -/
def KnowledgeGraph.adjacent (graph : KnowledgeGraph) (current : NodeId) : List EdgeInput :=
  sortBy stepLabel
    ((graph.outgoing current).filter fun edge => edge.certainty = .known)

/-- How the loop over the edges of a node ends. -/
inductive TrailStep
  | found (prior : OrdMap NodeId (NodeId × EdgeId)) (truncated : Bool)
  | expanded (state : TrailState)

/-- The loop over the edges from the node in front of the queue. -/
def expandTrail (target : NodeId) (bounds : QueryBounds) (current : NodeId) (depth : ℕ) :
    List EdgeInput → TrailState → TrailStep
  | [], state => .expanded state
  | edge :: rest, state =>
      if edge.target ∈ state.seen then expandTrail target bounds current depth rest state
      else if depth = bounds.maxDepth ∨ state.prior.keys.length = bounds.maxResults then
        expandTrail target bounds current depth rest { state with truncated := true }
      else if edge.target = target then
        .found (state.prior.insert edge.target (current, edge.id)) state.truncated
      else
        expandTrail target bounds current depth rest
          { state with
            prior := state.prior.insert edge.target (current, edge.id)
            seen := insert edge.target state.seen
            queue := state.queue ++ [(edge.target, depth + 1)] }

/-- The loop of `rebuild_trail`; `none` when a predecessor is missing or the fuel is used up. -/
def rebuildFrom (start : NodeId) (prior : OrdMap NodeId (NodeId × EdgeId)) :
    ℕ → NodeId → List NodeId → List EdgeId → Option (List NodeId × List EdgeId)
  | 0, _, _, _ => none
  | fuel + 1, current, nodeIds, edgeIds =>
      if current = start then some (nodeIds, edgeIds)
      else
        match prior.find? current with
        | none => none
        | some (parent, edge) =>
            rebuildFrom start prior fuel parent (nodeIds ++ [parent]) (edgeIds ++ [edge])

def KnowledgeGraph.rebuildTrail (graph : KnowledgeGraph) (start target : NodeId)
    (prior : OrdMap NodeId (NodeId × EdgeId)) (truncated : Bool) : Option Trail :=
  match rebuildFrom start prior (prior.keys.length + 1) target [target] [] with
  | none => none
  | some (nodeIds, edgeIds) =>
      match nodeIds.reverse.mapM fun id => (graph.node id).map nodeEvidence,
        edgeIds.reverse.mapM fun id => (graph.edge id).map edgeEvidence with
      | some nodes, some edges => some ⟨nodes, edges, truncated⟩
      | _, _ => none

/-- The loop over the queue; `none` when the fuel is used up or a record is missing. -/
def trailLoop (graph : KnowledgeGraph) (start target : NodeId) (bounds : QueryBounds) :
    ℕ → TrailState → Option TrailStatus
  | 0, _ => none
  | fuel + 1, state =>
      match state.queue with
      | [] => some (.unreachable state.truncated)
      | (current, depth) :: queue =>
          match expandTrail target bounds current depth (graph.adjacent current)
              { state with queue := queue } with
          | .found prior truncated =>
              (graph.rebuildTrail start target prior truncated).map .found
          | .expanded next => trailLoop graph start target bounds fuel next

def KnowledgeGraph.trail (graph : KnowledgeGraph) (start target : NodeId) (bounds : QueryBounds) :
    Option TrailStatus :=
  match graph.node start, graph.node target with
  | none, _ => some (.missingStart start)
  | some _, none => some (.missingTarget target)
  | some node, some _ =>
      if start = target then some (.found ⟨[nodeEvidence node], [], false⟩)
      else
        trailLoop graph start target bounds (graph.nodes.length + 1)
          ⟨{start}, OrdMap.empty, [(start, 0)], false⟩

/-! ## Paths -/

/-- A path of `Known` edges between nodes of the graph. -/
inductive KnownPath (graph : KnowledgeGraph) (start : NodeId) : List EdgeInput → NodeId → Prop
  | nil (h : Holds graph.nodes start) : KnownPath graph start [] start
  | snoc {edges : List EdgeInput} {edge : EdgeInput} (h : KnownPath graph start edges edge.source)
      (hedge : edge ∈ graph.edges) (hknown : edge.certainty = .known) :
      KnownPath graph start (edges ++ [edge]) edge.target

/-- A `Known` edge leads from one node to another under its label. -/
def LabelStep (graph : KnowledgeGraph) (source : NodeId) (label : NodeId ×ₗ EdgeId)
    (target : NodeId) : Prop :=
  ∃ edge ∈ graph.edges, edge.certainty = .known ∧ edge.source = source ∧ edge.target = target ∧
    stepLabel edge = label

section Paths

variable {graph : KnowledgeGraph} {start : NodeId}

theorem LabelStep.target_eq {source target : NodeId} {label : NodeId ×ₗ EdgeId}
    (h : LabelStep graph source label target) : (ofLex label).1 = target := by
  obtain ⟨edge, _, _, _, rfl, rfl⟩ := h
  rfl

theorem KnownPath.labelled {edges : List EdgeInput} {target : NodeId}
    (h : KnownPath graph start edges target) :
    Path (LabelStep graph) start (edges.map stepLabel) target := by
  induction h with
  | nil _ => exact .nil
  | @snoc edges edge _ hedge hknown ih =>
      rw [map_append, map_singleton]
      exact ih.snoc ⟨edge, hedge, hknown, rfl, rfl, rfl⟩

theorem exists_knownPath {labels : List (NodeId ×ₗ EdgeId)} {target : NodeId}
    (hstart : Holds graph.nodes start) (h : Path (LabelStep graph) start labels target) :
    ∃ edges, KnownPath graph start edges target ∧ edges.map stepLabel = labels := by
  induction h with
  | nil => exact ⟨[], .nil hstart, rfl⟩
  | snoc _ hstep ih =>
      obtain ⟨edges, hpath, rfl⟩ := ih
      obtain ⟨edge, hedge, hknown, rfl, rfl, rfl⟩ := hstep
      exact ⟨edges ++ [edge], hpath.snoc hedge hknown, by rw [map_append, map_singleton]⟩

theorem KnownPath.holds {edges : List EdgeInput} {target : NodeId}
    (h : KnownPath graph start edges target) :
    Holds graph.nodes start ∧ Holds graph.nodes target := by
  induction h with
  | nil h => exact ⟨h, h⟩
  | @snoc _ edge _ hedge hknown ih =>
      have hstep : graph.KnownStep edge.source edge.target := ⟨edge, hedge, hknown, rfl, rfl⟩
      exact ⟨ih.1, hstep.holds.2⟩

theorem KnownPath.of_mem {edges : List EdgeInput} {target : NodeId}
    (h : KnownPath graph start edges target) :
    ∀ edge ∈ edges, edge ∈ graph.edges ∧ Holds graph.nodes edge.target := by
  induction h with
  | nil _ => exact fun _ h => (nomatch h)
  | @snoc _ last hbefore hedge hknown ih =>
      intro edge hmem
      rcases mem_append.mp hmem with hold | hlast
      · exact ih edge hold
      · obtain rfl := mem_singleton.mp hlast
        exact ⟨hedge, (hbefore.snoc hedge hknown).holds.2⟩

theorem path_mem_nodeIds (hstart : Holds graph.nodes start)
    (labels : List (NodeId ×ₗ EdgeId)) (id : NodeId)
    (h : Path (LabelStep graph) start labels id) : id ∈ graph.nodeIds := by
  obtain ⟨edges, hpath, _⟩ := exists_knownPath hstart h
  obtain ⟨node, hnode, rfl⟩ := hpath.holds.2
  exact mem_map_of_mem hnode

end Paths

/-! ## Rebuilding a path -/

section Rebuild

variable {graph : KnowledgeGraph} {start : NodeId} {prior : OrdMap NodeId (NodeId × EdgeId)}

/-- The predecessors lead back along a path to the start. -/
inductive Traced (start : NodeId) (prior : OrdMap NodeId (NodeId × EdgeId)) :
    List (NodeId ×ₗ EdgeId) → NodeId → Prop
  | nil : Traced start prior [] start
  | snoc {labels : List (NodeId ×ₗ EdgeId)} {parent id : NodeId} {edge : EdgeId}
      (h : Traced start prior labels parent) (hne : id ≠ start)
      (hfind : prior.find? id = some (parent, edge)) :
      Traced start prior (labels ++ [toLex (id, edge)]) id

/-- A new predecessor changes no path. -/
theorem Traced.insert {labels : List (NodeId ×ₗ EdgeId)} {id other : NodeId}
    (h : Traced start prior labels id) (hnew : prior.find? other = none)
    (entry : NodeId × EdgeId) : Traced start (prior.insert other entry) labels id := by
  induction h with
  | nil => exact .nil
  | @snoc labels parent id edge _ hne hfind ih =>
      have hother : other ≠ id := by
        rintro rfl
        rw [hnew] at hfind
        cases hfind
      exact .snoc ih hne (by rw [find?_insert_of_ne _ _ hother, hfind])

theorem rebuildFrom_eq {labels : List (NodeId ×ₗ EdgeId)} {id : NodeId}
    (h : Traced start prior labels id) {fuel : ℕ} (hfuel : labels.length < fuel)
    (nodeIds : List NodeId) (edgeIds : List EdgeId) :
    rebuildFrom start prior fuel id (nodeIds ++ [id]) edgeIds =
      some (nodeIds ++ (start :: labels.map fun label => (ofLex label).1).reverse,
        edgeIds ++ (labels.map fun label => (ofLex label).2).reverse) := by
  induction h generalizing fuel nodeIds edgeIds with
  | nil =>
      obtain ⟨fuel, rfl⟩ : ∃ less, fuel = less + 1 := ⟨fuel - 1, by omega⟩
      rw [rebuildFrom, if_pos rfl]
      simp
  | @snoc labels parent id edge _ hne hfind ih =>
      rw [length_append, length_singleton] at hfuel
      obtain ⟨fuel, rfl⟩ : ∃ less, fuel = less + 1 := ⟨fuel - 1, by omega⟩
      rw [rebuildFrom, if_neg hne, hfind]
      dsimp only
      rw [ih (by omega)]
      simp

theorem mapM_edgeEvidence {edges : List EdgeInput} (h : ∀ edge ∈ edges, edge ∈ graph.edges) :
    (edges.map EdgeInput.id).mapM (fun id => (graph.edge id).map edgeEvidence) =
      some (edges.map edgeEvidence) := by
  induction edges with
  | nil => rfl
  | cons edge rest ih =>
      obtain ⟨hedge, hrest⟩ := forall_mem_cons.mp h
      rw [map_cons, mapM_cons, KnowledgeGraph.edge_eq_some_iff.mpr ⟨hedge, rfl⟩,
        ih hrest]
      rfl

/-- The trail behind a path has its edges and the nodes at their ends. -/
theorem rebuildTrail_eq {edges : List EdgeInput} {target : NodeId}
    (hpath : KnownPath graph start edges target)
    (htraced : Traced start prior (edges.map stepLabel) target)
    (hlength : edges.length ≤ prior.keys.length) (truncated : Bool) :
    ∃ nodes, graph.rebuildTrail start target prior truncated =
        some ⟨nodes, edges.map edgeEvidence, truncated⟩ ∧
      nodes.map NodeEvidence.id = start :: edges.map EdgeInput.target ∧
      ∀ evidence ∈ nodes, ∃ node ∈ graph.nodes, evidence = nodeEvidence node := by
  have hrebuilt := @rebuildFrom_eq start prior _ target htraced (prior.keys.length + 1)
    (by rw [length_map]; omega) [] []
  have htargets : (edges.map stepLabel).map (fun label => (ofLex label).1) =
      edges.map EdgeInput.target := by rw [map_map]; rfl
  have hids : (edges.map stepLabel).map (fun label => (ofLex label).2) =
      edges.map EdgeInput.id := by rw [map_map]; rfl
  rw [nil_append, nil_append, nil_append, htargets, hids] at hrebuilt
  have hholds : ∀ id ∈ start :: edges.map EdgeInput.target, Holds graph.nodes id := by
    intro id hid
    rcases mem_cons.mp hid with rfl | hlater
    · exact hpath.holds.1
    · obtain ⟨edge, hedge, rfl⟩ := mem_map.mp hlater
      exact (hpath.of_mem edge hedge).2
  obtain ⟨nodes, hnodes, hkeys, hevidence⟩ := @mapM_key_spec _ _ _
    (fun id => (graph.node id).map nodeEvidence) id NodeEvidence.id
    (fun evidence => ∃ node ∈ graph.nodes, evidence = nodeEvidence node)
    (start :: edges.map EdgeInput.target) (by
      intro id hid
      obtain ⟨node, hnode, rfl⟩ := hholds id hid
      refine ⟨nodeEvidence node, ?_, rfl, node, hnode, rfl⟩
      rw [KnowledgeGraph.node_eq_some_iff.mpr ⟨hnode, rfl⟩, Option.map_some])
  have hedges := mapM_edgeEvidence fun edge hedge => (hpath.of_mem edge hedge).1
  refine ⟨nodes, ?_, by rw [hkeys, map_id], hevidence⟩
  rw [KnowledgeGraph.rebuildTrail, hrebuilt]
  dsimp only
  rw [reverse_reverse, reverse_reverse, hnodes, hedges]

end Rebuild

/-! ## The invariant -/

section Search

variable {graph : KnowledgeGraph} {start target : NodeId} {bounds : QueryBounds}

/-- An entry of the search: a node with the labels of the path on which it was found. -/
abbrev Entry := NodeId × List (NodeId ×ₗ EdgeId)

/-- As many nodes are found as may be, and one that is reached is not among them. -/
def Full (graph : KnowledgeGraph) (start : NodeId) (bounds : QueryBounds) (state : TrailState) :
    Prop :=
  state.prior.keys.length = bounds.maxResults ∧
    ∃ labels id, Path (LabelStep graph) start labels id ∧ id ∉ state.seen

/-- What holds between two edges; `done` holds the entries that left the queue. -/
structure TrailInv (graph : KnowledgeGraph) (start target : NodeId) (bounds : QueryBounds)
    (done queue : List Entry) (Open : NodeId → NodeId ×ₗ EdgeId → Prop) (state : TrailState) :
    Prop where
  frontier : LeastFrontier (LabelStep graph) start done queue Open fun k =>
    state.truncated = true ∧ (k = bounds.maxDepth ∨ Full graph start bounds state)
  waiting : state.queue = queue.map fun entry => (entry.1, entry.2.length)
  seen : ∀ id, id ∈ state.seen ↔ id ∈ (done ++ queue).map Prod.fst
  missed : target ∉ state.seen
  traced : ∀ entry ∈ done ++ queue, Traced start state.prior entry.2 entry.1
  keys : ∀ id, id ∈ state.prior.keys ↔ id ∈ state.seen ∧ id ≠ start
  count : state.prior.keys.length + 1 = (done ++ queue).length
  room : state.prior.keys.length ≤ bounds.maxResults
  within : ∀ entry ∈ done ++ queue, entry.2.length ≤ bounds.maxDepth
  short : ∀ entry ∈ done ++ queue, entry.2.length ≤ state.prior.keys.length
  flag : state.truncated = true → Full graph start bounds state ∨
    ∀ entry ∈ queue, entry.2.length = bounds.maxDepth

variable {done queue : List Entry} {Open : NodeId → NodeId ×ₗ EdgeId → Prop} {state : TrailState}

theorem trailInv_start (hne : start ≠ target) :
    TrailInv graph start target bounds [] [(start, [])] (fun _ _ => False)
      ⟨{start}, OrdMap.empty, [(start, 0)], false⟩ := by
  refine ⟨LeastFrontier.init, rfl, by simp, ?_, ?_, ?_, rfl, Nat.zero_le _, ?_, ?_,
    fun h => (nomatch h)⟩
  · rw [Finset.mem_singleton]
    exact hne.symm
  · intro entry hentry
    obtain rfl := mem_singleton.mp hentry
    exact .nil
  · intro id
    simp
  · intro entry hentry
    obtain rfl := mem_singleton.mp hentry
    exact Nat.zero_le _
  · intro entry hentry
    obtain rfl := mem_singleton.mp hentry
    exact Nat.zero_le _

theorem keys_length_insert {V : Type*} {prior : OrdMap NodeId V} {id : NodeId} (entry : V)
    (hnew : prior.find? id = none) :
    (prior.insert id entry).keys.length = prior.keys.length + 1 := by
  have htotal := total_insert (fun _ => 1) prior id entry
  rw [hnew, total_one, total_one] at htotal
  exact htotal

variable {front : Entry} {edge : EdgeInput}

/-- The node at the end of an edge is found. -/
theorem TrailInv.discover (h : TrailInv graph start target bounds done queue Open state)
    (hfront : front ∈ done) (hedge : edge ∈ graph.edges) (hknown : edge.certainty = .known)
    (hsource : edge.source = front.1) (hnew : edge.target ∉ state.seen) (hne : edge.target ≠ target)
    (hdepth : front.2.length ≠ bounds.maxDepth)
    (hcount : state.prior.keys.length ≠ bounds.maxResults) (htruncated : state.truncated = false)
    (hbound : ∀ entry ∈ done ++ queue, rank entry.2 < rank (front.2 ++ [stepLabel edge])) :
    TrailInv graph start target bounds done
      (queue ++ [(edge.target, front.2 ++ [stepLabel edge])]) Open
      { state with
        prior := state.prior.insert edge.target (front.1, edge.id)
        seen := insert edge.target state.seen
        queue := state.queue ++ [(edge.target, front.2.length + 1)] } := by
  have hstep : LabelStep graph front.1 (stepLabel edge) edge.target :=
    ⟨edge, hedge, hknown, hsource, rfl, rfl⟩
  have hnew' : edge.target ∉ (done ++ queue).map Prod.fst := fun hmem => hnew ((h.seen _).mpr hmem)
  have hwithin := h.within front (mem_append_left _ hfront)
  have hstart : edge.target ≠ start := by
    rintro hstart
    have hmem : (start, []) ∈ done ++ queue := h.frontier.source
    exact hnew' (hstart ▸ mem_map_of_mem hmem)
  have hfree : state.prior.find? edge.target = none := by
    rw [find?_eq_none_iff, h.keys]
    exact fun hkey => hnew hkey.1
  have hassoc : done ++ (queue ++ [(edge.target, front.2 ++ [stepLabel edge])]) =
      (done ++ queue) ++ [(edge.target, front.2 ++ [stepLabel edge])] :=
    (append_assoc _ _ _).symm
  have hpushed := h.frontier.push hfront hstep hnew' hbound
  refine ⟨hpushed.mono (fun _ _ _ hopen => hopen) ?_, ?_, ?_, ?_, ?_, ?_, ?_, ?_, ?_, ?_, ?_⟩
  · intro k hcut
    rw [htruncated] at hcut
    exact (nomatch hcut.1)
  · rw [h.waiting, map_append, map_singleton, length_append, length_singleton]
  · intro id
    rw [hassoc, map_append, mem_append, ← h.seen]
    simp [or_comm]
  · rw [Finset.mem_insert, not_or]
    exact ⟨hne.symm, h.missed⟩
  · intro entry hentry
    rw [hassoc] at hentry
    rcases mem_append.mp hentry with hold | hlast
    · exact (h.traced entry hold).insert hfree _
    · obtain rfl := mem_singleton.mp hlast
      have hback := (h.traced front (mem_append_left _ hfront)).insert hfree
        (front.1, edge.id)
      exact .snoc hback hstart (find?_insert_self _ _ _)
  · intro id
    rw [mem_keys_insert, h.keys, Finset.mem_insert]
    constructor
    · intro hid
      rcases hid with rfl | hid
      · exact ⟨.inl rfl, hstart⟩
      · exact ⟨.inr hid.1, hid.2⟩
    · intro hid
      rcases hid.1 with rfl | hold
      · exact .inl rfl
      · exact .inr ⟨hold, hid.2⟩
  · rw [hassoc, length_append, length_singleton, ← h.count]
    exact congrArg (· + 1) (keys_length_insert _ hfree)
  · have hroom := h.room
    dsimp only
    rw [keys_length_insert _ hfree]
    omega
  · intro entry hentry
    rw [hassoc] at hentry
    rcases mem_append.mp hentry with hold | hlast
    · exact h.within entry hold
    · obtain rfl := mem_singleton.mp hlast
      rw [length_append, length_singleton]
      omega
  · intro entry hentry
    rw [hassoc] at hentry
    rw [keys_length_insert _ hfree]
    rcases mem_append.mp hentry with hold | hlast
    · exact (h.short entry hold).trans (Nat.le_succ _)
    · obtain rfl := mem_singleton.mp hlast
      have hshort := h.short front (mem_append_left _ hfront)
      rw [length_append, length_singleton]
      omega
  · intro htrue
    rw [htruncated] at htrue
    cases htrue

/-- The steps along some edges from a node. -/
def OpenEdges (source : NodeId) (edges : List EdgeInput) (node : NodeId)
    (label : NodeId ×ₗ EdgeId) : Prop :=
  node = source ∧ ∃ edge ∈ edges, stepLabel edge = label

/-- An edge is passed over. -/
theorem close_edge {Cut : ℕ → Prop} {rest : List EdgeInput} (h : LeastFrontier (LabelStep graph)
    start done queue (OpenEdges front.1 (edge :: rest)) Cut) (hfront : front ∈ done) (hpassed : (∃ f
    ∈ done ++ queue, f.1 = edge.target ∧ rank f.2 ≤ rank (front.2 ++ [stepLabel edge])) ∨ Cut
    front.2.length) :
    LeastFrontier (LabelStep graph) start done queue (OpenEdges front.1 rest) Cut := by
  have hclosed := @LeastFrontier.close _ _ _ _ _ _ _ _ _ h front (stepLabel edge) hfront (by
    intro w hstep
    obtain rfl : edge.target = w := hstep.target_eq
    exact hpassed)
  refine hclosed.mono (fun e _ label hopen => ?_) fun _ hcut => hcut
  obtain ⟨⟨hnode, other, hother, rfl⟩, hdifferent⟩ := hopen
  rcases mem_cons.mp hother with rfl | hlater
  · exact absurd ⟨hnode, rfl⟩ hdifferent
  · exact ⟨hnode, other, hlater, rfl⟩

/-- A path to the target that the predecessors lead back along, and that no other path precedes. -/
def FoundPath (graph : KnowledgeGraph) (start target : NodeId) (bounds : QueryBounds)
    (prior : OrdMap NodeId (NodeId × EdgeId)) : Prop :=
  ∃ labels, Path (LabelStep graph) start labels target ∧ Traced start prior labels target ∧
    labels.length ≤ bounds.maxDepth ∧ labels.length ≤ prior.keys.length ∧
      ∀ other, Path (LabelStep graph) start other target → rank labels ≤ rank other

/-- What the loop over the edges of one node does. -/
inductive TrailExpanded (graph : KnowledgeGraph) (start target : NodeId) (bounds : QueryBounds)
    (done : List Entry) : TrailStep → Prop
  | found (prior : OrdMap NodeId (NodeId × EdgeId)) (truncated : Bool)
      (hpath : FoundPath graph start target bounds prior) :
      TrailExpanded graph start target bounds done (.found prior truncated)
  | expanded (state : TrailState) (queue : List Entry)
      (hinv : TrailInv graph start target bounds done queue (fun _ _ => False) state) :
      TrailExpanded graph start target bounds done (.expanded state)

/-- The target is found on its least path. -/
theorem TrailInv.foundPath {rest : List EdgeInput}
    (h : TrailInv graph start target bounds done queue (OpenEdges front.1 (edge :: rest)) state)
    (hfront : front ∈ done) (hne : start ≠ target) (hedge : edge ∈ graph.edges)
    (hknown : edge.certainty = .known) (hsource : edge.source = front.1)
    (htarget : edge.target = target)
    (hsorted : (edge :: rest).Pairwise fun e f => stepLabel e < stepLabel f)
    (hdepth : front.2.length ≠ bounds.maxDepth) (htruncated : state.truncated = false) :
    FoundPath graph start target bounds
      (state.prior.insert edge.target (front.1, edge.id)) := by
  have hmem := mem_append_left queue hfront
  have hnew := h.missed
  have hfree : state.prior.find? edge.target = none := by
    rw [find?_eq_none_iff, h.keys, htarget]
    exact fun hkey => hnew hkey.1
  have hstep : LabelStep graph front.1 (stepLabel edge) edge.target :=
    ⟨edge, hedge, hknown, hsource, rfl, rfl⟩
  have hlength : (front.2 ++ [stepLabel edge]).length = front.2.length + 1 := by
    rw [length_append, length_singleton]
  have hwithin := h.within front hmem
  have hshort := h.short front hmem
  refine ⟨front.2 ++ [stepLabel edge], ?_, ?_, ?_, ?_, ?_⟩
  · rw [← htarget]
    exact (h.frontier.paths front hmem).snoc hstep
  · have hback := (h.traced front hmem).insert hfree (front.1, edge.id)
    have htraced := Traced.snoc hback (htarget ▸ hne.symm) (find?_insert_self _ _ _)
    rw [← htarget]
    exact htraced
  · rw [hlength]
    omega
  · rw [hlength, keys_length_insert _ hfree]
    omega
  · intro other hother
    -- nothing was passed over, so only the edges behind this one are left
    have hwhole : LeastFrontier (LabelStep graph) start done queue
        (OpenEdges front.1 (edge :: rest)) fun _ => False :=
      h.frontier.mono (fun _ _ _ hopen => hopen) fun k hcut => by
        rw [htruncated] at hcut
        exact (nomatch hcut.1)
    refine hwhole.least hfront (fun hfound => hnew ((h.seen _).mpr hfound)) ?_ hother
    intro e he label x _ hopen
    obtain ⟨hnode, waiting, hwaiting, rfl⟩ := hopen
    refine ⟨hwhole.eq_of_fst_eq (mem_append_left _ he) hmem hnode, ?_⟩
    rcases mem_cons.mp hwaiting with rfl | hlater
    · exact le_rfl
    · exact ((pairwise_cons.mp hsorted).1 waiting hlater).le

/-- An edge is passed over because of a limit. -/
theorem TrailInv.cutOff {rest : List EdgeInput}
    (h : TrailInv graph start target bounds done queue (OpenEdges front.1 (edge :: rest)) state)
    (hfront : front ∈ done) (hedge : edge ∈ graph.edges) (hknown : edge.certainty = .known)
    (hsource : edge.source = front.1) (hnew : edge.target ∉ state.seen)
    (hlimit : front.2.length = bounds.maxDepth ∨ state.prior.keys.length = bounds.maxResults) :
    (Full graph start bounds state ∨ front.2.length = bounds.maxDepth) ∧
      TrailInv graph start target bounds done queue (OpenEdges front.1 rest)
        { state with truncated := true } := by
  have hstep : LabelStep graph front.1 (stepLabel edge) edge.target :=
    ⟨edge, hedge, hknown, hsource, rfl, rfl⟩
  have hpath := (h.frontier.paths front (mem_append_left _ hfront)).snoc hstep
  have hreason : Full graph start bounds state ∨ front.2.length = bounds.maxDepth :=
    hlimit.symm.imp_left fun hfull => ⟨hfull, _, _, hpath, hnew⟩
  refine ⟨hreason, { h with frontier := ?_, flag := fun _ => ?_ }⟩
  · refine close_edge (h.frontier.mono (fun _ _ _ hopen => hopen) fun k hcut => ?_) hfront
      (.inr ⟨rfl, hreason.symm⟩)
    exact ⟨rfl, hcut.2⟩
  · refine hreason.imp_right fun hdeep entry hentry => ?_
    have hbehind := (pairwise_append.mp h.frontier.sorted).2.2 front hfront entry hentry
    have hle := length_le_of_rank_le hbehind.le
    have hwithin := h.within entry (mem_append_right _ hentry)
    omega

theorem expandTrail_spec {edges : List EdgeInput} (hne : start ≠ target) (hfront : front ∈ done)
    (hedges : ∀ edge ∈ edges, edge ∈ graph.edges ∧ edge.certainty = .known ∧ edge.source = front.1)
    (hsorted : edges.Pairwise fun e f => stepLabel e < stepLabel f) (hbound : ∀ entry ∈ done ++
    queue, ∀ edge ∈ edges, rank entry.2 < rank (front.2 ++ [stepLabel edge]))
    (hinv : TrailInv graph start target bounds done queue (OpenEdges front.1 edges) state) (hflag :
    state.truncated = true → Full graph start bounds state ∨ front.2.length = bounds.maxDepth) :
    TrailExpanded graph start target bounds done
      (expandTrail target bounds front.1 front.2.length edges state) := by
  induction edges generalizing queue state with
  | nil =>
      refine .expanded state queue { hinv with frontier := ?_ }
      refine hinv.frontier.mono (fun _ _ _ hopen => ?_) fun _ hcut => hcut
      obtain ⟨_, _, hmem, _⟩ := hopen
      cases hmem
  | cons edge rest ih =>
      obtain ⟨⟨hedge, hknown, hsource⟩, hrest⟩ := forall_mem_cons.mp hedges
      obtain ⟨hfirst, hlater⟩ := pairwise_cons.mp hsorted
      have hboundRest : ∀ entry ∈ done ++ queue, ∀ e ∈ rest,
          rank entry.2 < rank (front.2 ++ [stepLabel e]) := fun entry hentry e he =>
        hbound entry hentry e (mem_cons_of_mem _ he)
      rw [expandTrail]
      split_ifs with hseen hlimit htarget
      · obtain ⟨found, hfound, hnode⟩ := mem_map.mp ((hinv.seen _).mp hseen)
        have hle := (hbound found hfound edge mem_cons_self).le
        exact ih hrest hlater hboundRest
          { hinv with
            frontier := close_edge hinv.frontier hfront (.inl ⟨found, hfound, hnode, hle⟩) }
          hflag
      · obtain ⟨hreason, hcut⟩ := hinv.cutOff hfront hedge hknown hsource hseen hlimit
        exact ih hrest hlater hboundRest hcut fun _ => hreason
      · rw [not_or] at hlimit
        have htruncated : state.truncated = false := by
          rw [← Bool.not_eq_true]
          intro htrue
          rcases hflag htrue with hfull | hdeep
          · exact hlimit.2 hfull.1
          · exact hlimit.1 hdeep
        exact .found _ _ (hinv.foundPath hfront hne hedge hknown hsource htarget hsorted hlimit.1
          htruncated)
      · rw [not_or] at hlimit
        have htruncated : state.truncated = false := by
          rw [← Bool.not_eq_true]
          intro htrue
          rcases hflag htrue with hfull | hdeep
          · exact hlimit.2 hfull.1
          · exact hlimit.1 hdeep
        have hfound := hinv.discover hfront hedge hknown hsource hseen htarget hlimit.1 hlimit.2
          htruncated fun entry hentry => hbound entry hentry edge mem_cons_self
        have hclosed := close_edge hfound.frontier hfront
          (.inl ⟨(edge.target, front.2 ++ [stepLabel edge]), by simp, rfl, le_rfl⟩)
        refine ih hrest hlater ?_ { hfound with frontier := hclosed } ?_
        · intro entry hentry e he
          rw [← append_assoc] at hentry
          rcases mem_append.mp hentry with hold | hlast
          · exact hboundRest entry hold e he
          · obtain rfl := mem_singleton.mp hlast
            exact rank_snoc_lt_iff.mpr (.inr ⟨rfl, hfirst e he⟩)
        · intro htrue
          rw [htruncated] at htrue
          cases htrue

/-! ## The run -/

theorem adjacent_spec {current : NodeId} :
    (∀ edge ∈ graph.adjacent current, edge ∈ graph.edges ∧ edge.certainty = .known ∧
      edge.source = current) ∧
    (graph.adjacent current).Pairwise (fun e f => stepLabel e < stepLabel f) ∧
    ∀ edge ∈ graph.edges, edge.certainty = .known → edge.source = current →
      edge ∈ graph.adjacent current := by
  have hmem : ∀ edge, edge ∈ graph.adjacent current ↔
      (edge ∈ graph.edges ∧ edge.source = current) ∧ edge.certainty = .known := by
    intro edge
    rw [KnowledgeGraph.adjacent, mem_sortBy, mem_filter,
      KnowledgeGraph.mem_outgoing, decide_eq_true_iff]
  have hnodup : (((graph.outgoing current).filter fun edge =>
      edge.certainty = .known).map stepLabel).Nodup := by
    refine List.Nodup.of_map (fun label => (ofLex label).2) ?_
    rw [map_map]
    have hids : ((fun label => (ofLex label).2) ∘ stepLabel) = EdgeInput.id := rfl
    rw [hids, (graph.map_edge_forwardEdges current).2]
    exact (graph.valid.edgeIds.sublist (filter_sublist.map _)).sublist
      (filter_sublist.map _)
  refine ⟨?_, pairwise_map.mp (pairwise_lt_sortBy hnodup), ?_⟩
  · intro edge hedge
    obtain ⟨⟨hin, hsource⟩, hknown⟩ := (hmem edge).mp hedge
    exact ⟨hin, hknown, hsource⟩
  · exact fun edge hedge hknown hsource => (hmem edge).mpr ⟨⟨hedge, hsource⟩, hknown⟩

/-- The front of the queue leaves it, and its edges are the next ones to be looked at. -/
theorem TrailInv.pop
    (h : TrailInv graph start target bounds done (front :: queue) (fun _ _ => False) state) :
    TrailInv graph start target bounds (done ++ [front]) queue
      (OpenEdges front.1 (graph.adjacent front.1))
      { state with queue := queue.map fun entry => (entry.1, entry.2.length) } := by
  have hassoc : done ++ [front] ++ queue = done ++ front :: queue := by simp
  refine ⟨?_, rfl, ?_, h.missed, ?_, h.keys, ?_, h.room, ?_, ?_, ?_⟩
  · refine { h.frontier.pop with closed := ?_ }
    intro e he label w hstep
    rcases h.frontier.pop.closed e he label w hstep with hopen | hrest
    · obtain ⟨edge, hedge, hknown, hsource, _, rfl⟩ := hstep
      exact .inl ⟨hopen, edge, adjacent_spec.2.2 edge hedge hknown (hsource.trans hopen), rfl⟩
    · exact .inr hrest
  · rw [hassoc]
    exact h.seen
  · rw [hassoc]
    exact h.traced
  · rw [hassoc]
    exact h.count
  · rw [hassoc]
    exact h.within
  · rw [hassoc]
    exact h.short
  · exact fun htrue => (h.flag htrue).imp_right fun hdeep entry hentry =>
      hdeep entry (mem_cons_of_mem _ hentry)

/-- What is returned by a trail. -/
structure CanonicalTrail (graph : KnowledgeGraph) (start target : NodeId) (bounds : QueryBounds)
    (trail : Trail) (edges : List EdgeInput) : Prop where
  path : KnownPath graph start edges target
  listed : trail.edges = edges.map edgeEvidence
  nodes : trail.nodes.map NodeEvidence.id = start :: edges.map EdgeInput.target
  evidence : ∀ node ∈ trail.nodes, ∃ record ∈ graph.nodes, node = nodeEvidence record
  within : edges.length ≤ bounds.maxDepth
  shortest : ∀ other, KnownPath graph start other target → edges.length ≤ other.length
  least : ∀ other, KnownPath graph start other target → other.length = edges.length →
    edges.map stepLabel ≤ other.map stepLabel

theorem FoundPath.rebuild {prior : OrdMap NodeId (NodeId × EdgeId)}
    (h : FoundPath graph start target bounds prior) (hstart : Holds graph.nodes start)
    (truncated : Bool) :
    ∃ trail edges, graph.rebuildTrail start target prior truncated = some trail ∧
      CanonicalTrail graph start target bounds trail edges := by
  obtain ⟨labels, hpath, htraced, hdepth, hshort, hleast⟩ := h
  obtain ⟨edges, hknown, rfl⟩ := exists_knownPath hstart hpath
  rw [length_map] at hdepth hshort
  obtain ⟨nodes, hrebuilt, hnodes, hevidence⟩ :=
    rebuildTrail_eq hknown htraced hshort truncated
  refine ⟨_, edges, hrebuilt, hknown, rfl, hnodes, hevidence, hdepth, ?_, ?_⟩
  · intro other hother
    have hle := length_le_of_rank_le (hleast _ hother.labelled)
    rwa [length_map, length_map] at hle
  · intro other hother hlength
    rcases rank_le_iff.mp (hleast _ hother.labelled) with hlt | ⟨_, hle⟩
    · rw [length_map, length_map] at hlt
      omega
    · exact hle

/-- What the loop returns. -/
inductive TrailResult (graph : KnowledgeGraph) (start target : NodeId) (bounds : QueryBounds) :
    TrailStatus → Prop
  | found (trail : Trail) (edges : List EdgeInput)
      (h : CanonicalTrail graph start target bounds trail edges) :
      TrailResult graph start target bounds (.found trail)
  | unreachable (state : TrailState) (done : List Entry)
      (hinv : TrailInv graph start target bounds done [] (fun _ _ => False) state) :
      TrailResult graph start target bounds (.unreachable state.truncated)

theorem trailLoop_spec (hstart : Holds graph.nodes start) (hne : start ≠ target) {fuel : ℕ}
    (hinv : TrailInv graph start target bounds done queue (fun _ _ => False) state)
    (hfuel : graph.nodes.length < done.length + fuel) :
    ∃ status, trailLoop graph start target bounds fuel state = some status ∧
      TrailResult graph start target bounds status := by
  induction fuel generalizing done queue state with
  | zero =>
      have hle := hinv.frontier.length_le (path_mem_nodeIds hstart)
      rw [KnowledgeGraph.nodeIds, length_map] at hle
      omega
  | succ fuel ih =>
      rw [trailLoop, hinv.waiting]
      cases queue with
      | nil => exact ⟨_, rfl, .unreachable state done hinv⟩
      | cons front queue =>
          rw [map_cons]
          dsimp only
          have hbound : ∀ entry ∈ (done ++ [front]) ++ queue, ∀ edge ∈ graph.adjacent front.1,
              rank entry.2 < rank (front.2 ++ [stepLabel edge]) := by
            intro entry hentry edge _
            rw [append_assoc, singleton_append] at hentry
            exact hinv.frontier.window front mem_cons_self entry hentry _
          have hflag : state.truncated = true →
              Full graph start bounds state ∨ front.2.length = bounds.maxDepth :=
            fun htrue => (hinv.flag htrue).imp_right fun hdeep => hdeep front mem_cons_self
          have hexpanded := expandTrail_spec hne (mem_append_right done
            (mem_singleton_self front)) adjacent_spec.1 adjacent_spec.2.1 hbound hinv.pop hflag
          generalize expandTrail target bounds front.1 front.2.length _ _ = step at hexpanded ⊢
          cases hexpanded with
          | found prior truncated hpath =>
              obtain ⟨trail, edges, hrebuilt, hcanonical⟩ := hpath.rebuild hstart truncated
              refine ⟨.found trail, ?_, .found trail edges hcanonical⟩
              dsimp only
              rw [hrebuilt, Option.map_some]
          | expanded next queue' hinv' =>
              refine ih hinv' ?_
              rw [length_append, length_singleton]
              omega

end Search

/-! ## The result -/

section Result

variable {graph : KnowledgeGraph} {start target : NodeId} {bounds : QueryBounds}

/-- A search that ends without the target, and without having passed over an edge, has no path to
find. -/
theorem TrailInv.unreached {done : List Entry} {state : TrailState}
    (hinv : TrailInv graph start target bounds done [] (fun _ _ => False) state)
    (htruncated : state.truncated = false) {edges : List EdgeInput}
    (hpath : KnownPath graph start edges target) : False := by
  rcases hinv.frontier.found_or_pending hpath.labelled with ⟨f, hf, hnode, _⟩ | ⟨e, he, _⟩ |
    ⟨_, _, _, _, _, hopen, _⟩ | ⟨_, _, hcut⟩
  · exact hinv.missed ((hinv.seen target).mpr (hnode ▸ mem_map_of_mem hf))
  · cases he
  · exact hopen
  · rw [htruncated] at hcut
    exact (nomatch hcut.1)

/-- The nodes to which `Known` paths lead from the start. -/
def reachableFrom (graph : KnowledgeGraph) (start : NodeId) : Set NodeId :=
  {id | id ≠ start ∧ ∃ edges, KnownPath graph start edges id}

theorem reachableFrom_finite (graph : KnowledgeGraph) (start : NodeId) :
    (reachableFrom graph start).Finite := by
  refine (finite_toSet graph.nodeIds).subset ?_
  intro id hid
  obtain ⟨_, edges, hpath⟩ := hid
  obtain ⟨node, hnode, rfl⟩ := hpath.holds.2
  exact mem_map_of_mem hnode

/-- A search that may find as many nodes as there are is never full. -/
theorem TrailInv.not_full {done : List Entry} {state : TrailState} (hstart : Holds graph.nodes start)
    (hinv : TrailInv graph start target bounds done [] (fun _ _ => False) state)
    (hroom : (reachableFrom graph start).ncard ≤ bounds.maxResults) :
    ¬ Full graph start bounds state := by
  intro hfull
  obtain ⟨hcount, labels, id, hpath, hnew⟩ := hfull
  have hreaches : ∀ other ∈ state.seen, other ≠ start → other ∈ reachableFrom graph start := by
    intro other hother hne
    obtain ⟨entry, hentry, rfl⟩ := mem_map.mp ((hinv.seen other).mp hother)
    obtain ⟨edges, hknown, _⟩ := exists_knownPath hstart (hinv.frontier.paths entry hentry)
    exact ⟨hne, edges, hknown⟩
  have hne : id ≠ start := by
    rintro rfl
    exact hnew ((hinv.seen _).mpr (mem_map_of_mem hinv.frontier.source))
  have hkeys : id ∉ state.prior.keys := fun hkey => hnew ((hinv.keys id).mp hkey).1
  have hsubset : (((id :: state.prior.keys).toFinset : Finset NodeId) : Set NodeId) ⊆
      reachableFrom graph start := by
    intro other hother
    rcases mem_cons.mp (mem_toFinset.mp hother) with rfl | hkey
    · obtain ⟨edges, hknown, _⟩ := exists_knownPath hstart hpath
      exact ⟨hne, edges, hknown⟩
    · obtain ⟨hseen, hother⟩ := (hinv.keys other).mp hkey
      exact hreaches other hseen hother
  have hcard := Set.ncard_le_ncard hsubset (reachableFrom_finite graph start)
  rw [Set.ncard_coe_finset, toFinset_card_of_nodup
    (nodup_cons.mpr ⟨hkeys, state.prior.keys_nodup⟩), length_cons, hcount] at hcard
  omega

/-- A path within the depth is not missed by a search that has room for all nodes. -/
theorem TrailInv.no_short_path {done : List Entry} {state : TrailState}
    (hstart : Holds graph.nodes start)
    (hinv : TrailInv graph start target bounds done [] (fun _ _ => False) state)
    (hroom : (reachableFrom graph start).ncard ≤ bounds.maxResults) {edges : List EdgeInput}
    (hpath : KnownPath graph start edges target) : bounds.maxDepth < edges.length := by
  rcases hinv.frontier.found_or_pending hpath.labelled with ⟨f, hf, hnode, _⟩ | ⟨e, he, _⟩ |
    ⟨_, _, _, _, _, hopen, _⟩ | ⟨k, hk, _, hcut⟩
  · exact absurd ((hinv.seen target).mpr (hnode ▸ mem_map_of_mem hf)) hinv.missed
  · cases he
  · exact hopen.elim
  · rw [length_map] at hk
    obtain rfl := hcut.resolve_right (hinv.not_full hstart hroom)
    exact hk

end Result

/-- A trail is the canonical shortest path: what is found is a `Known` path, the shortest one in the
graph and among the shortest ones the first; without truncation an unreachable target has no path;
and a path within the depth is found if there is room for every node that is reached. -/
theorem trail_canonical (graph : KnowledgeGraph) (start target : NodeId) (bounds : QueryBounds) :
    ∃ status, graph.trail start target bounds = some status ∧
      (∀ trail, status = .found trail →
        ∃ edges, CanonicalTrail graph start target bounds trail edges) ∧
      (status = .unreachable false → ¬ ∃ edges, KnownPath graph start edges target) ∧
      ((∃ edges, KnownPath graph start edges target ∧ edges.length ≤ bounds.maxDepth) →
        (reachableFrom graph start).ncard ≤ bounds.maxResults →
        ∃ trail, status = .found trail) := by
  have hlookup : ∀ id, graph.node id = none → ¬ Holds graph.nodes id := by
    intro id hnone hholds
    rw [← KnowledgeGraph.node_isSome_iff, hnone] at hholds
    cases hholds
  rw [KnowledgeGraph.trail]
  cases hstart : graph.node start with
  | none =>
      refine ⟨_, rfl, fun _ h => (nomatch h), fun h => (nomatch h), fun hpath => ?_⟩
      obtain ⟨edges, hknown, _⟩ := hpath
      exact absurd hknown.holds.1 (hlookup start hstart)
  | some node =>
      obtain ⟨hnode, hid⟩ := KnowledgeGraph.node_eq_some_iff.mp hstart
      have hholds : Holds graph.nodes start := ⟨node, hnode, hid⟩
      cases htarget : graph.node target with
      | none =>
          refine ⟨_, rfl, fun _ h => (nomatch h), fun h => (nomatch h), fun hpath => ?_⟩
          obtain ⟨edges, hknown, _⟩ := hpath
          exact absurd hknown.holds.2 (hlookup target htarget)
      | some other =>
          dsimp only
          by_cases hsame : start = target
          · subst hsame
            rw [if_pos rfl]
            refine ⟨_, rfl, ?_, fun h => (nomatch h), fun _ _ => ⟨_, rfl⟩⟩
            intro trail htrail
            obtain rfl := TrailStatus.found.inj htrail
            refine ⟨[], .nil hholds, rfl, ?_, ?_, Nat.zero_le _, fun _ _ => Nat.zero_le _, ?_⟩
            · rw [map_singleton, map_nil]
              exact congrArg (fun id => [id]) hid
            · exact fun found hfound => ⟨node, hnode, mem_singleton.mp hfound⟩
            · intro path _ hlength
              obtain rfl := length_eq_zero_iff.mp hlength
              exact le_rfl
          · rw [if_neg hsame]
            obtain ⟨status, hrun, hresult⟩ := @trailLoop_spec graph start target bounds [] _ _
              hholds hsame (graph.nodes.length + 1) (trailInv_start hsame) (by simp)
            refine ⟨status, hrun, ?_⟩
            cases hresult with
            | found trail edges hcanonical =>
                refine ⟨?_, fun h => (nomatch h), fun _ _ => ⟨trail, rfl⟩⟩
                intro same hequal
                obtain rfl := TrailStatus.found.inj hequal
                exact ⟨edges, hcanonical⟩
            | unreachable state done hinv =>
                refine ⟨fun _ h => (nomatch h), ?_, ?_⟩
                · intro hwhole hpath
                  obtain ⟨edges, hknown⟩ := hpath
                  exact hinv.unreached (TrailStatus.unreachable.inj hwhole) hknown
                · intro hpath hroom
                  obtain ⟨edges, hknown, hdepth⟩ := hpath
                  exact absurd (hinv.no_short_path hholds hroom hknown) (not_lt.mpr hdepth)

end Bran.Graph
