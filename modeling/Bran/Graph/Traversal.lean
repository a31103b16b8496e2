import Bran.Graph.Snapshot
import Bran.Library.BoundedSearch

/-!
# Structural traversal

`Traversal::run` walks a snapshot breadth first from a seed, along the `Known`
edges of the requested kinds and in both directions.  Three limits can end it
early, and the receipt names the one that did.

`TraversalInv` is what holds between two inspections of an edge: the queue and the
nodes already expanded form a `BoundedSearch.Frontier`, and the lists of the
receipt are read off them.  `inspectEdge_spec` says what one inspection does to it
and `traversalLoop_spec` follows the whole run.
-/

namespace Bran.Graph

open BoundedSearch Validation List

/-! ## Requests and receipts -/

structure StructuralTraversalRequest where
  seed : Str
  relationships : List StructuralEdgeKind
  maxDepth : ℕ
  maxNodes : ℕ
  maxEdges : ℕ
  deriving DecidableEq

inductive StructuralTraversalTerminal
  | complete
  | depthLimit
  | nodeLimit
  | edgeLimit
  deriving DecidableEq

structure StructuralPathStep where
  edgeId : Str
  kind : StructuralEdgeKind
  source : Str
  target : Str
  sourceLocator : Str
  deriving DecidableEq

structure StructuralPathReceipt where
  nodeId : Str
  steps : List StructuralPathStep
  deriving DecidableEq

structure SkippedStructuralEdge where
  edgeId : Str
  certainty : StructuralEdgeCertainty
  reason : Str
  deriving DecidableEq

structure StructuralTraversalReceipt where
  snapshotDigest : Str
  seed : Str
  relationships : List StructuralEdgeKind
  maxDepth : ℕ
  maxNodes : ℕ
  maxEdges : ℕ
  visitedIds : List Str
  paths : List StructuralPathReceipt
  inspectedEdgeCount : ℕ
  acceptedEdgeCount : ℕ
  skippedEdges : List SkippedStructuralEdge
  terminal : StructuralTraversalTerminal
  deriving DecidableEq

inductive StructuralTraversalError
  | missingSeed (seed : Str)
  | emptyRelationships
  | duplicateRelationship (kind : StructuralEdgeKind)
  | unsupportedRelationship (kind : StructuralEdgeKind)
  | invalidLimits (maxDepth maxNodes maxEdges : ℕ)
  | arithmeticOverflow (counter : Str)
  deriving DecidableEq

namespace Traversal

def maxDepth : ℕ := 64

def maxNodes : ℕ := 4096

def maxEdges : ℕ := 65536

end Traversal

/-! ## The search -/

def traversableStructuralKind : StructuralEdgeKind → Bool
  | .dependency | .impact | .requirement | .design | .implementation | .validation | .domain
  | .architecture | .businessFlow => true
  | _ => false

/-- The place of a kind in the declaration, by which kinds are compared. -/
def StructuralEdgeKind.rank (kind : StructuralEdgeKind) : ℕ := StructuralEdgeKind.all.idxOf kind

/-- What the edges of a node are sorted by. -/
def edgeOrder (edge : StructuralEdge) : ℕ ×ₗ Str ×ₗ Str ×ₗ Str ×ₗ Str :=
  toLex (edge.kind.rank, toLex (edge.source, toLex (edge.target,
    toLex (edge.sourceLocator, edge.id))))

/-- The edges at a node, the outgoing ones first; an edge from the node to itself is listed
twice. -/
def SnapshotFields.incidentEdges (snapshot : SnapshotFields) (node : Str) :
    List StructuralEdge :=
  (snapshot.forwardEdges node ++ snapshot.reverseEdges node).filterMap snapshot.edge

def otherEnd (edge : StructuralEdge) (node : Str) : Str :=
  if edge.source = node then edge.target else edge.source

/-- The record of an edge on a path. -/
def pathStep (edge : StructuralEdge) : StructuralPathStep :=
  ⟨edge.id, edge.kind, edge.source, edge.target, edge.sourceLocator⟩

structure QueueEntry where
  nodeId : Str
  depth : ℕ
  path : List StructuralPathStep
  deriving DecidableEq

/-- The local variables of `run`. -/
structure TraversalState where
  visited : Finset Str
  queue : List QueueEntry
  visitedIds : List Str
  paths : List StructuralPathReceipt
  inspected : ℕ
  accepted : ℕ
  skipped : List SkippedStructuralEdge
  terminal : StructuralTraversalTerminal

namespace TraversalState

/-- The variables before the loop. -/
def start (seed : Str) : TraversalState where
  visited := {seed}
  queue := [⟨seed, 0, []⟩]
  visitedIds := [seed]
  paths := [⟨seed, []⟩]
  inspected := 0
  accepted := 0
  skipped := []
  terminal := .complete

/-- An edge that is inspected but not followed. -/
def skip (state : TraversalState) (edge : StructuralEdge) (reason : Str) : TraversalState :=
  { state with skipped := state.skipped ++ [⟨edge.id, edge.certainty, reason⟩] }

/-- A node that is visited for the first time. -/
def visit (state : TraversalState) (entry : QueueEntry) (accepted : ℕ) : TraversalState :=
  { state with
    accepted
    visited := insert entry.nodeId state.visited
    visitedIds := state.visitedIds ++ [entry.nodeId]
    paths := state.paths ++ [⟨entry.nodeId, entry.path⟩]
    queue := state.queue ++ [entry] }

end TraversalState

/-- The entry behind an edge of the node in front of the queue. -/
def entryBehind (front : QueueEntry) (edge : StructuralEdge) : QueueEntry :=
  ⟨otherEnd edge front.nodeId, front.depth + 1, front.path ++ [pathStep edge]⟩

section Search

variable (snapshot : StructuralGraphSnapshot) (request : StructuralTraversalRequest)
  (allowed : Finset StructuralEdgeKind)

/-- The part of the inner loop of `run` that follows the count of an inspection. -/
def followEdge (front : QueueEntry) (edge : StructuralEdge) (state : TraversalState) :
    Except StructuralTraversalError TraversalState :=
  let next := otherEnd edge front.nodeId
  if edge.certainty ≠ .known then .ok (state.skip edge "non-known".toList)
  else if snapshot.node next = none then .ok (state.skip edge "missing-target".toList)
  else if next ∈ state.visited then .ok state
  else if state.visited.card = request.maxNodes then .ok { state with terminal := .nodeLimit }
  else do
    let accepted ← checkedAdd state.accepted 1 (.arithmeticOverflow "accepted edges".toList)
    .ok (state.visit (entryBehind front edge) accepted)

/-- The body of the inner loop of `run`; it leaves the loop by setting `terminal`. -/
def inspectEdge (front : QueueEntry) (edge : StructuralEdge) (state : TraversalState) :
    Except StructuralTraversalError TraversalState :=
  if edge.kind ∉ allowed then .ok state
  else if state.inspected = request.maxEdges then .ok { state with terminal := .edgeLimit }
  else do
    let inspected ← checkedAdd state.inspected 1 (.arithmeticOverflow "inspected edges".toList)
    followEdge snapshot request front edge { state with inspected }

/-- The inner loop of `run`. -/
def inspectEdges (front : QueueEntry) :
    List StructuralEdge → TraversalState → Except StructuralTraversalError TraversalState
  | [], state => .ok state
  | edge :: rest, state => do
      let state ← inspectEdge snapshot request allowed front edge state
      if state.terminal = .complete then inspectEdges front rest state else .ok state

def hasTraversableNeighbor (node : Str) (visited : Finset Str) : Bool :=
  (snapshot.incidentEdges node).any fun edge =>
    edge.kind ∈ allowed && edge.certainty = .known &&
      match snapshot.node (otherEnd edge node) with
      | some record => record.id ∉ visited
      | none => false

/-- The outer loop of `run`; `none` when the fuel is used up. -/
def traversalLoop :
    ℕ → TraversalState → Option (Except StructuralTraversalError TraversalState)
  | 0, _ => none
  | fuel + 1, state =>
      match state.queue with
      | [] => some (.ok state)
      | front :: queue =>
          if front.depth = request.maxDepth then
            if hasTraversableNeighbor snapshot allowed front.nodeId state.visited then
              some (.ok { state with queue, terminal := .depthLimit })
            else traversalLoop fuel { state with queue }
          else
            match inspectEdges snapshot request allowed front
                (sortBy edgeOrder (snapshot.incidentEdges front.nodeId)) { state with queue } with
            | .error error => some (.error error)
            | .ok state =>
                if state.terminal = .complete then traversalLoop fuel state else some (.ok state)

/-- The checks of `run`, up to and including the loop that fills `allowed`. -/
def checkTraversal : Except StructuralTraversalError (Finset StructuralEdgeKind) := do
  failIf (snapshot.node request.seed = none) (.missingSeed request.seed)
  failIf (request.relationships = []) .emptyRelationships
  failIf (request.maxDepth = 0 ∨ request.maxDepth > Traversal.maxDepth ∨
      request.maxNodes = 0 ∨ request.maxNodes > Traversal.maxNodes ∨
      request.maxEdges = 0 ∨ request.maxEdges > Traversal.maxEdges)
    (.invalidLimits request.maxDepth request.maxNodes request.maxEdges)
  collectDistinct
    (fun kind => failIf (traversableStructuralKind kind = false) (.unsupportedRelationship kind))
    .duplicateRelationship request.relationships ∅

/-- The receipt of a finished search. -/
def traversalReceipt (state : TraversalState) : StructuralTraversalReceipt where
  snapshotDigest := snapshot.snapshotDigest
  seed := request.seed
  relationships := request.relationships
  maxDepth := request.maxDepth
  maxNodes := request.maxNodes
  maxEdges := request.maxEdges
  visitedIds := state.visitedIds
  paths := state.paths
  inspectedEdgeCount := state.inspected
  acceptedEdgeCount := state.accepted
  skippedEdges := state.skipped
  terminal := state.terminal

/-- `Traversal::run`.  Every turn of its loop takes an entry off the queue and no more than
`max_nodes` entries are made, which the fuel allows for. -/
def Traversal.run : Option (Except StructuralTraversalError StructuralTraversalReceipt) :=
  match checkTraversal snapshot request with
  | .error error => some (.error error)
  | .ok allowed =>
      (traversalLoop snapshot request allowed (request.maxNodes + 1) (.start request.seed)).map
        fun result => result.map (traversalReceipt snapshot request)

end Search

/-! ## Walks along the followed edges -/

/-- An edge leads from one node to the other, in either direction. -/
def Joins (edge : StructuralEdge) (node next : Str) : Prop :=
  (edge.source = node ∧ edge.target = next) ∨ (edge.target = node ∧ edge.source = next)

/-- An edge that the search follows: `Known`, and of a requested kind. -/
def Followed (snapshot : StructuralGraphSnapshot) (kinds : List StructuralEdgeKind)
    (edge : StructuralEdge) : Prop :=
  edge ∈ snapshot.edges ∧ edge.certainty = .known ∧ edge.kind ∈ kinds

/-- A followed edge leads from one node to the other. -/
def Linked (snapshot : StructuralGraphSnapshot) (kinds : List StructuralEdgeKind)
    (node next : Str) : Prop :=
  ∃ edge, Followed snapshot kinds edge ∧ Joins edge node next

/-- The node can be reached from the seed along followed edges. -/
def Connected (snapshot : StructuralGraphSnapshot) (kinds : List StructuralEdgeKind)
    (seed node : Str) : Prop :=
  Relation.ReflTransGen (Linked snapshot kinds) seed node

/-- A walk along followed edges, with the nodes it passes. -/
inductive KnownWalk (snapshot : StructuralGraphSnapshot) (kinds : List StructuralEdgeKind)
    (seed : Str) : List StructuralPathStep → List Str → Str → Prop
  | nil : KnownWalk snapshot kinds seed [] [seed] seed
  | snoc {steps : List StructuralPathStep} {nodes : List Str} {node next : Str}
      {edge : StructuralEdge} :
      KnownWalk snapshot kinds seed steps nodes node → Followed snapshot kinds edge →
      Joins edge node next →
      KnownWalk snapshot kinds seed (steps ++ [pathStep edge]) (nodes ++ [next]) next

/-- The steps lead from the seed to the node and pass no node twice. -/
def IsSimplePath (snapshot : StructuralGraphSnapshot) (kinds : List StructuralEdgeKind)
    (seed : Str) (steps : List StructuralPathStep) (node : Str) : Prop :=
  ∃ nodes, KnownWalk snapshot kinds seed steps nodes node ∧ nodes.Nodup

variable {snapshot : StructuralGraphSnapshot} {request : StructuralTraversalRequest}
  {allowed : Finset StructuralEdgeKind}

variable {node : Str} {kinds : List StructuralEdgeKind}

theorem mem_incidentEdges {edge : StructuralEdge} :
    edge ∈ snapshot.incidentEdges node ↔
      edge ∈ snapshot.edges ∧ (edge.source = node ∨ edge.target = node) := by
  have hvalid := snapshot.isValid
  unfold SnapshotFields.incidentEdges
  simp only [mem_filterMap, SnapshotFields.edge_eq_some_iff hvalid, mem_append,
    SnapshotFields.forwardEdges_eq hvalid, SnapshotFields.reverseEdges_eq hvalid, mem_map,
    mem_filter, decide_eq_true_eq]
  constructor
  · rintro ⟨id, hlisted, hedge, rfl⟩
    refine ⟨hedge, ?_⟩
    -- edges are identified by their ids, so the listed edge is the one looked up
    have hsame : ∀ other ∈ snapshot.edges, other.id = edge.id → other = edge := fun other hother =>
      inj_on_of_nodup_map hvalid.indexable.edgeIds hother hedge
    rcases hlisted with ⟨other, ⟨hother, hend⟩, hid⟩ | ⟨other, ⟨hother, hend⟩, hid⟩
    · exact Or.inl (hsame other hother hid ▸ hend)
    · exact Or.inr (hsame other hother hid ▸ hend)
  · rintro ⟨hedge, hend⟩
    refine ⟨edge.id, ?_, hedge, rfl⟩
    exact hend.imp (fun h => ⟨edge, ⟨hedge, h⟩, rfl⟩) fun h => ⟨edge, ⟨hedge, h⟩, rfl⟩

theorem joins_iff {edge : StructuralEdge} {next : Str} :
    Joins edge node next ↔
      (edge.source = node ∨ edge.target = node) ∧ otherEnd edge node = next := by
  unfold Joins otherEnd
  constructor
  · rintro (⟨hsource, htarget⟩ | ⟨htarget, hsource⟩)
    · exact ⟨Or.inl hsource, by rw [if_pos hsource, htarget]⟩
    · refine ⟨Or.inr htarget, ?_⟩
      split_ifs with h
      · rw [htarget, ← h, hsource]
      · exact hsource
  · rintro ⟨hend, hother⟩
    split_ifs at hother with h
    · exact Or.inl ⟨h, hother⟩
    · exact Or.inr ⟨hend.resolve_left h, hother⟩

/-- A node is linked to the other ends of the followed edges at it. -/
theorem linked_iff {next : Str} :
    Linked snapshot kinds node next ↔ ∃ edge ∈ snapshot.incidentEdges node,
      Followed snapshot kinds edge ∧ otherEnd edge node = next := by
  simp only [Linked, mem_incidentEdges, joins_iff]
  constructor
  · rintro ⟨edge, hfollowed, hend, hother⟩
    exact ⟨edge, ⟨hfollowed.1, hend⟩, hfollowed, hother⟩
  · rintro ⟨edge, ⟨_, hend⟩, hfollowed, hother⟩
    exact ⟨edge, hfollowed, hend, hother⟩

/-- Both ends of a `Known` edge are nodes of the snapshot. -/
theorem Linked.isNode {next : Str} (h : Linked snapshot kinds node next) :
    snapshot.node next ≠ none := by
  obtain ⟨edge, ⟨hedge, hknown, _⟩, hjoins⟩ := h
  have hvalid := snapshot.isValid
  have hsource : HoldsStructural snapshot.nodes edge.source := hvalid.indexable.sources edge hedge
  have htarget : HoldsStructural snapshot.nodes edge.target := by
    by_contra hmissing
    have hcertainty := (hvalid.indexable.targets edge hedge).mpr hmissing
    rw [hknown] at hcertainty
    exact absurd hcertainty (by decide)
  have hlookup : ∀ id, HoldsStructural snapshot.nodes id → snapshot.node id ≠ none := by
    rintro id ⟨record, hrecord, hid⟩
    rw [(SnapshotFields.node_eq_some_iff hvalid).mpr ⟨hrecord, hid⟩]
    exact Option.some_ne_none record
  rcases hjoins with ⟨_, rfl⟩ | ⟨_, rfl⟩
  · exact hlookup _ htarget
  · exact hlookup _ hsource

theorem knownWalk_nil_iff {seed : Str} {nodes : List Str} :
    KnownWalk snapshot kinds seed [] nodes node ↔ nodes = [seed] ∧ node = seed := by
  constructor
  · intro h
    generalize hsteps : ([] : List StructuralPathStep) = steps at h
    cases h with
    | nil => exact ⟨rfl, rfl⟩
    | snoc _ _ _ => simp at hsteps
  · rintro ⟨rfl, rfl⟩
    exact .nil

theorem knownWalk_snoc_iff {seed next : Str} {steps : List StructuralPathStep}
    {step : StructuralPathStep} {nodes : List Str} :
    KnownWalk snapshot kinds seed (steps ++ [step]) nodes next ↔
      ∃ before node edge, KnownWalk snapshot kinds seed steps before node ∧
        Followed snapshot kinds edge ∧ Joins edge node next ∧ step = pathStep edge ∧
        nodes = before ++ [next] := by
  constructor
  · intro h
    generalize hsteps : steps ++ [step] = all at h
    cases h with
    | nil => simp at hsteps
    | snoc hwalk hfollowed hjoins =>
        obtain ⟨rfl, hstep⟩ := append_inj' hsteps rfl
        exact ⟨_, _, _, hwalk, hfollowed, hjoins, head_eq_of_cons_eq hstep, rfl⟩
  · rintro ⟨before, node, edge, hwalk, hfollowed, hjoins, rfl, rfl⟩
    exact hwalk.snoc hfollowed hjoins

/-! ## The invariant -/

def QueueEntry.place (entry : QueueEntry) : Str × ℕ := (entry.nodeId, entry.depth)

def QueueEntry.receipt (entry : QueueEntry) : StructuralPathReceipt := ⟨entry.nodeId, entry.path⟩

/-- What holds between two inspections of an edge, when the entries `done` are expanded and the
entries `pending` are not. -/
structure TraversalInv (snapshot : StructuralGraphSnapshot) (request : StructuralTraversalRequest)
    (done pending : List QueueEntry) (state : TraversalState) : Prop where
  frontier : Frontier (Linked snapshot request.relationships) (· = request.seed) request.maxDepth
    (done.map QueueEntry.place) (pending.map QueueEntry.place) fun _ => False
  first : (done ++ pending).head? = some ⟨request.seed, 0, []⟩
  visitedIds : state.visitedIds = (done ++ pending).map QueueEntry.nodeId
  visited : state.visited = state.visitedIds.toFinset
  paths : state.paths = (done ++ pending).map QueueEntry.receipt
  lengths : ∀ entry ∈ done ++ pending, entry.path.length = entry.depth
  walks : ∀ entry ∈ done ++ pending, ∃ nodes,
    KnownWalk snapshot request.relationships request.seed entry.path nodes entry.nodeId ∧
      nodes.Nodup ∧ ∀ id ∈ nodes, id ∈ state.visitedIds
  accepted : state.accepted + 1 = state.visitedIds.length
  acceptedLe : state.accepted ≤ state.inspected
  inspectedLe : state.inspected ≤ request.maxEdges
  nodesLe : state.visitedIds.length ≤ request.maxNodes
  skipped : ∀ record ∈ state.skipped, ∃ edge ∈ snapshot.edges,
    edge.kind ∈ request.relationships ∧ edge.certainty ≠ .known ∧
      record = ⟨edge.id, edge.certainty, "non-known".toList⟩

/-- Why a run is allowed to end. -/
def StopReason (snapshot : StructuralGraphSnapshot) (request : StructuralTraversalRequest)
    (pending : List QueueEntry) (state : TraversalState) : Prop :=
  match state.terminal with
  | .complete => pending = []
  | .depthLimit => ∃ front rest next, pending = front :: rest ∧ front.depth = request.maxDepth ∧
      Linked snapshot request.relationships front.nodeId next ∧ next ∉ state.visitedIds
  | .nodeLimit => state.visitedIds.length = request.maxNodes ∧ ∃ entry ∈ pending, ∃ next,
      Linked snapshot request.relationships entry.nodeId next ∧ next ∉ state.visitedIds
  | .edgeLimit => state.inspected = request.maxEdges

namespace TraversalInv

variable {done pending : List QueueEntry} {state : TraversalState}

theorem map_place_fst (entries : List QueueEntry) :
    (entries.map QueueEntry.place).map Prod.fst = entries.map QueueEntry.nodeId := by
  rw [map_map]
  rfl

theorem nodup (h : TraversalInv snapshot request done pending state) :
    state.visitedIds.Nodup := by
  have hnodup := h.frontier.nodup
  rw [← map_append, map_place_fst, ← h.visitedIds] at hnodup
  exact hnodup

theorem mem_visited (h : TraversalInv snapshot request done pending state) {id : Str} :
    id ∈ state.visited ↔ id ∈ state.visitedIds := by
  rw [h.visited, mem_toFinset]

theorem card_visited (h : TraversalInv snapshot request done pending state) :
    state.visited.card = state.visitedIds.length := by
  rw [h.visited, toFinset_card_of_nodup h.nodup]

/-- Counting an inspection. -/
theorem count (h : TraversalInv snapshot request done pending state)
    (hlimit : state.inspected ≠ request.maxEdges) :
    TraversalInv snapshot request done pending { state with inspected := state.inspected + 1 } := by
  have hle := h.inspectedLe
  have haccepted := h.acceptedLe
  exact { h with
    acceptedLe := by show state.accepted ≤ state.inspected + 1; omega
    inspectedLe := by show state.inspected + 1 ≤ request.maxEdges; omega }

/-- An edge that is not `Known` is recorded as skipped. -/
theorem skip (h : TraversalInv snapshot request done pending state) {edge : StructuralEdge}
    (hedge : edge ∈ snapshot.edges) (hkind : edge.kind ∈ request.relationships)
    (hcertainty : edge.certainty ≠ .known) :
    TraversalInv snapshot request done pending (state.skip edge "non-known".toList) := by
  refine { h with skipped := ?_ }
  intro record hrecord
  rcases mem_append.mp hrecord with hold | hnew
  · exact h.skipped record hold
  · exact ⟨edge, hedge, hkind, hcertainty, mem_singleton.mp hnew⟩

/-- A new node is visited one step behind the front of the queue. -/
theorem visit {front : QueueEntry} {queue : List QueueEntry} {edge : StructuralEdge}
    (h : TraversalInv snapshot request done (front :: queue) state)
    (hdepth : front.depth < request.maxDepth)
    (hedge : edge ∈ snapshot.incidentEdges front.nodeId)
    (hfollowed : Followed snapshot request.relationships edge)
    (hnew : otherEnd edge front.nodeId ∉ state.visited)
    (hroom : state.visited.card ≠ request.maxNodes) (hcount : state.accepted < state.inspected) :
    TraversalInv snapshot request done (front :: (queue ++ [entryBehind front edge]))
      (state.visit (entryBehind front edge) (state.accepted + 1)) := by
  have hassoc : done ++ front :: (queue ++ [entryBehind front edge]) =
      (done ++ front :: queue) ++ [entryBehind front edge] := by simp
  have hlinked : Linked snapshot request.relationships front.nodeId (otherEnd edge front.nodeId) :=
    linked_iff.mpr ⟨edge, hedge, hfollowed, rfl⟩
  have hunlisted : otherEnd edge front.nodeId ∉ state.visitedIds := fun hmem =>
    hnew (h.mem_visited.mpr hmem)
  have hnodes := h.nodesLe
  have hcard := h.card_visited
  refine
    { frontier := ?_
      first := ?_
      visitedIds := ?_
      visited := ?_
      paths := ?_
      lengths := ?_
      walks := ?_
      accepted := ?_
      acceptedLe := hcount
      inspectedLe := h.inspectedLe
      nodesLe := ?_
      skipped := h.skipped }
  · have hpush := @Frontier.push _ _ _ _ _ _ _ front.place h.frontier _ hlinked hdepth (by
      rw [← map_cons, ← map_append, map_place_fst, ← h.visitedIds]
      exact hunlisted)
    simpa [entryBehind, QueueEntry.place] using hpush
  · rw [hassoc, head?_append, h.first]
    rfl
  · rw [hassoc, map_append, ← h.visitedIds]
    rfl
  · show insert _ state.visited = _
    rw [h.visited]
    ext id
    simp [TraversalState.visit, or_comm]
  · rw [hassoc, map_append, ← h.paths]
    rfl
  · rw [hassoc]
    intro entry hentry
    rcases mem_append.mp hentry with hold | hlast
    · exact h.lengths entry hold
    · obtain rfl := mem_singleton.mp hlast
      show (front.path ++ [pathStep edge]).length = front.depth + 1
      rw [length_append, h.lengths front (by simp)]
      rfl
  · rw [hassoc]
    intro entry hentry
    rcases mem_append.mp hentry with hold | hlast
    · obtain ⟨nodes, hwalk, hnodup, hmem⟩ := h.walks entry hold
      exact ⟨nodes, hwalk, hnodup, fun id hid => mem_append_left _ (hmem id hid)⟩
    · -- the walk to the front passes visited nodes only, so the new end is not on it
      obtain rfl := mem_singleton.mp hlast
      obtain ⟨nodes, hwalk, hnodup, hmem⟩ := h.walks front (by simp)
      have hjoins : Joins edge front.nodeId (otherEnd edge front.nodeId) :=
        joins_iff.mpr ⟨(mem_incidentEdges.mp hedge).2, rfl⟩
      refine ⟨nodes ++ [otherEnd edge front.nodeId], hwalk.snoc hfollowed hjoins, ?_, ?_⟩
      · rw [nodup_append]
        refine ⟨hnodup, by simp, ?_⟩
        intro id hid other hother heq
        rw [heq, mem_singleton.mp hother] at hid
        exact hunlisted (hmem _ hid)
      · intro id hid
        rcases mem_append.mp hid with hold | hend
        · exact mem_append_left _ (hmem id hold)
        · exact mem_append_right _ hend
  · show state.accepted + 1 + 1 = (state.visitedIds ++ [_]).length
    rw [length_append, h.accepted]
    rfl
  · show (state.visitedIds ++ [_]).length ≤ request.maxNodes
    rw [length_append, length_singleton]
    omega

end TraversalInv

/-! ## One inspection -/

/-- What an inspection leaves behind. -/
structure Inspected (snapshot : StructuralGraphSnapshot) (request : StructuralTraversalRequest)
    (done : List QueueEntry) (front : QueueEntry) (edges : List StructuralEdge)
    (before after : TraversalState) : Prop where
  inv : TraversalInv snapshot request done (front :: after.queue) after
  visited : before.visited ⊆ after.visited
  outcome :
    (after.terminal = .complete ∧ ∀ edge ∈ edges, Followed snapshot request.relationships edge →
      otherEnd edge front.nodeId ∈ after.visited) ∨
    (after.terminal ≠ .complete ∧ StopReason snapshot request (front :: after.queue) after)

section Inspection

variable {done : List QueueEntry} {front : QueueEntry} {edge : StructuralEdge}
  {state : TraversalState}

/-- The counters stay far below the bound of their type. -/
theorem checkedAdd_counter {counter : ℕ} {error : StructuralTraversalError}
    (hcounter : counter ≤ Traversal.maxEdges) :
    checkedAdd counter 1 error = .ok (counter + 1) := by
  apply checkedAdd_eq_ok
  unfold Traversal.maxEdges at hcounter
  omega

theorem followEdge_spec (hlimit : request.maxEdges ≤ Traversal.maxEdges)
    (hinv : TraversalInv snapshot request done (front :: state.queue) state)
    (hcount : state.accepted < state.inspected) (hterminal : state.terminal = .complete)
    (hdepth : front.depth < request.maxDepth)
    (hedge : edge ∈ snapshot.incidentEdges front.nodeId)
    (hkind : edge.kind ∈ request.relationships) :
    ∃ after, followEdge snapshot request front edge state = .ok after ∧
      Inspected snapshot request done front [edge] state after := by
  have hmember : edge ∈ snapshot.edges := (mem_incidentEdges.mp hedge).1
  unfold followEdge
  by_cases hknown : edge.certainty ≠ .known
  · refine ⟨_, if_pos hknown, hinv.skip hmember hkind hknown, subset_rfl, Or.inl ⟨hterminal, ?_⟩⟩
    intro other hother hfollowed
    obtain rfl := mem_singleton.mp hother
    exact absurd hfollowed.2.1 hknown
  have hfollowed : Followed snapshot request.relationships edge :=
    ⟨hmember, not_not.mp hknown, hkind⟩
  have hlinked : Linked snapshot request.relationships front.nodeId (otherEnd edge front.nodeId) :=
    linked_iff.mpr ⟨edge, hedge, hfollowed, rfl⟩
  rw [if_neg hknown, if_neg hlinked.isNode]
  by_cases hseen : otherEnd edge front.nodeId ∈ state.visited
  · refine ⟨state, if_pos hseen, hinv, subset_rfl, Or.inl ⟨hterminal, ?_⟩⟩
    intro other hother _
    obtain rfl := mem_singleton.mp hother
    exact hseen
  rw [if_neg hseen]
  by_cases hroom : state.visited.card = request.maxNodes
  · refine ⟨_, if_pos hroom, { hinv with }, subset_rfl, Or.inr ⟨by simp, ?_⟩⟩
    refine ⟨hinv.card_visited.symm.trans hroom, front, mem_cons_self, _, hlinked, ?_⟩
    exact fun hmem => hseen (hinv.mem_visited.mpr hmem)
  · have hadd : checkedAdd state.accepted 1
        (StructuralTraversalError.arithmeticOverflow "accepted edges".toList) =
        .ok (state.accepted + 1) :=
      checkedAdd_counter (hinv.acceptedLe.trans (hinv.inspectedLe.trans hlimit))
    rw [if_neg hroom, hadd]
    refine ⟨state.visit (entryBehind front edge) (state.accepted + 1), rfl,
      hinv.visit hdepth hedge hfollowed hseen hroom hcount, Finset.subset_insert _ _,
      Or.inl ⟨hterminal, ?_⟩⟩
    intro other hother _
    obtain rfl := mem_singleton.mp hother
    exact Finset.mem_insert_self _ _

theorem inspectEdge_spec (hlimit : request.maxEdges ≤ Traversal.maxEdges)
    (hallowed : ∀ kind, kind ∈ allowed ↔ kind ∈ request.relationships)
    (hinv : TraversalInv snapshot request done (front :: state.queue) state)
    (hterminal : state.terminal = .complete) (hdepth : front.depth < request.maxDepth)
    (hedge : edge ∈ snapshot.incidentEdges front.nodeId) :
    ∃ after, inspectEdge snapshot request allowed front edge state = .ok after ∧
      Inspected snapshot request done front [edge] state after := by
  unfold inspectEdge
  by_cases hkind : edge.kind ∉ allowed
  · refine ⟨state, if_pos hkind, hinv, subset_rfl, Or.inl ⟨hterminal, ?_⟩⟩
    intro other hother hfollowed
    obtain rfl := mem_singleton.mp hother
    exact absurd ((hallowed _).mpr hfollowed.2.2) hkind
  rw [if_neg hkind]
  by_cases hfull : state.inspected = request.maxEdges
  · exact ⟨_, if_pos hfull, { hinv with }, subset_rfl, Or.inr ⟨by simp, hfull⟩⟩
  · have hadd : checkedAdd state.inspected 1
        (StructuralTraversalError.arithmeticOverflow "inspected edges".toList) =
        .ok (state.inspected + 1) := checkedAdd_counter (hinv.inspectedLe.trans hlimit)
    rw [if_neg hfull, hadd]
    obtain ⟨after, hfollow, hafter⟩ := @followEdge_spec _ _ _ _ _
      { state with inspected := state.inspected + 1 } hlimit (hinv.count hfull)
      (Nat.lt_succ_of_le hinv.acceptedLe) hterminal hdepth hedge
      ((hallowed _).mp (not_not.mp hkind))
    exact ⟨after, hfollow, hafter.inv, hafter.visited, hafter.outcome⟩

/-- The inner loop, by induction on the edges that are left. -/
theorem inspectEdges_spec (hlimit : request.maxEdges ≤ Traversal.maxEdges)
    (hallowed : ∀ kind, kind ∈ allowed ↔ kind ∈ request.relationships)
    (hdepth : front.depth < request.maxDepth) {edges : List StructuralEdge}
    (hedges : ∀ edge ∈ edges, edge ∈ snapshot.incidentEdges front.nodeId)
    (hinv : TraversalInv snapshot request done (front :: state.queue) state)
    (hterminal : state.terminal = .complete) :
    ∃ after, inspectEdges snapshot request allowed front edges state = .ok after ∧
      Inspected snapshot request done front edges state after := by
  induction edges generalizing state with
  | nil => exact ⟨state, rfl, hinv, subset_rfl, Or.inl ⟨hterminal, by simp⟩⟩
  | cons edge rest ih =>
      obtain ⟨middle, hstep, hmiddle⟩ :=
        inspectEdge_spec hlimit hallowed hinv hterminal hdepth (hedges edge mem_cons_self)
      rw [inspectEdges, hstep]
      rcases hmiddle.outcome with ⟨hcomplete, hhead⟩ | ⟨hstopped, hreason⟩
      · obtain ⟨after, hrest, hafter⟩ :=
          ih (fun other hother => hedges other (mem_cons_of_mem _ hother)) hmiddle.inv hcomplete
        refine ⟨after, (if_pos hcomplete).trans hrest, hafter.inv,
          hmiddle.visited.trans hafter.visited, ?_⟩
        rcases hafter.outcome with ⟨hdone, htail⟩ | hstopped
        · refine Or.inl ⟨hdone, ?_⟩
          intro other hother hfollowed
          rcases mem_cons.mp hother with rfl | hother
          · exact hafter.visited (hhead other (mem_singleton_self _) hfollowed)
          · exact htail other hother hfollowed
        · exact Or.inr hstopped
      · exact ⟨middle, if_neg hstopped, hmiddle.inv, hmiddle.visited,
          Or.inr ⟨hstopped, hreason⟩⟩

end Inspection

/-! ## The whole run -/

/-- The look-ahead at the depth limit finds a linked node that is not visited. -/
theorem hasTraversableNeighbor_iff
    (hallowed : ∀ kind, kind ∈ allowed ↔ kind ∈ request.relationships) {visited : Finset Str} :
    hasTraversableNeighbor snapshot allowed node visited = true ↔
      ∃ next, Linked snapshot request.relationships node next ∧ next ∉ visited := by
  unfold hasTraversableNeighbor
  simp only [any_eq_true, Bool.and_eq_true, decide_eq_true_eq, hallowed]
  constructor
  · rintro ⟨edge, hedge, ⟨hkind, hknown⟩, hnext⟩
    have hfollowed : Followed snapshot request.relationships edge :=
      ⟨(mem_incidentEdges.mp hedge).1, hknown, hkind⟩
    refine ⟨otherEnd edge node, linked_iff.mpr ⟨edge, hedge, hfollowed, rfl⟩, ?_⟩
    cases hlookup : snapshot.node (otherEnd edge node) with
    | none => simp [hlookup] at hnext
    | some record =>
        have hid := ((SnapshotFields.node_eq_some_iff snapshot.isValid).mp hlookup).2
        simpa [hlookup, hid] using hnext
  · rintro ⟨next, hlinked, hnew⟩
    obtain ⟨edge, hedge, hfollowed, rfl⟩ := linked_iff.mp hlinked
    refine ⟨edge, hedge, ⟨hfollowed.2.2, hfollowed.2.1⟩, ?_⟩
    obtain ⟨record, hlookup⟩ := Option.ne_none_iff_exists'.mp hlinked.isNode
    have hid := ((SnapshotFields.node_eq_some_iff snapshot.isValid).mp hlookup).2
    simpa [hlookup, hid] using hnew

/-- An expanded entry moves to `done` once its linked nodes are visited. -/
theorem TraversalInv.retire {done queue : List QueueEntry} {front : QueueEntry}
    {state : TraversalState} (h : TraversalInv snapshot request done (front :: queue) state)
    (hclosed : ∀ next, Linked snapshot request.relationships front.nodeId next →
      next ∈ state.visited) :
    TraversalInv snapshot request (done ++ [front]) queue state := by
  have hassoc : done ++ [front] ++ queue = done ++ front :: queue := by simp
  have hfrontier := @Frontier.retire _ _ _ _ _ _ _ front.place h.frontier (by
    intro next hlinked
    refine Or.inl ?_
    rw [← map_cons, ← map_append, map_place_fst, ← h.visitedIds]
    exact h.mem_visited.mp (hclosed next hlinked))
  rw [← map_singleton, ← map_append] at hfrontier
  exact { h with
    frontier := hfrontier
    first := by rw [hassoc]; exact h.first
    visitedIds := by rw [hassoc]; exact h.visitedIds
    paths := by rw [hassoc]; exact h.paths
    lengths := by rw [hassoc]; exact h.lengths
    walks := by rw [hassoc]; exact h.walks }

theorem TraversalInv.start (hnodes : request.maxNodes ≠ 0) :
    TraversalInv snapshot request [] [⟨request.seed, 0, []⟩] (.start request.seed) := by
  have hsources : ∀ id, id = request.seed ↔ id ∈ [request.seed] := fun id =>
    mem_singleton.symm
  exact {
    frontier := Frontier.init (nodup_singleton _) hsources
    first := rfl
    visitedIds := rfl
    visited := rfl
    paths := rfl
    lengths := by simp
    walks := by
      intro entry hentry
      obtain rfl := mem_singleton.mp hentry
      exact ⟨[request.seed], .nil, nodup_singleton _, fun id hid => hid⟩
    accepted := rfl
    acceptedLe := le_rfl
    inspectedLe := Nat.zero_le _
    nodesLe := Nat.one_le_iff_ne_zero.mpr hnodes
    skipped := by simp [TraversalState.start] }

/-- The outer loop, by induction on the fuel: every turn moves one of at most `max_nodes`
entries from the queue to `done`. -/
theorem traversalLoop_spec (hlimit : request.maxEdges ≤ Traversal.maxEdges)
    (hallowed : ∀ kind, kind ∈ allowed ↔ kind ∈ request.relationships) {fuel : ℕ}
    {done : List QueueEntry} {state : TraversalState}
    (hinv : TraversalInv snapshot request done state.queue state)
    (hterminal : state.terminal = .complete) (hfuel : request.maxNodes < done.length + fuel) :
    ∃ final done' pending,
      traversalLoop snapshot request allowed fuel state = some (.ok final) ∧
        TraversalInv snapshot request done' pending final ∧
        StopReason snapshot request pending final := by
  induction fuel generalizing done state with
  | zero =>
      have hnodes := hinv.nodesLe
      rw [hinv.visitedIds, length_map, length_append] at hnodes
      omega
  | succ fuel ih =>
      rw [traversalLoop]
      cases hqueue : state.queue with
      | nil =>
          rw [hqueue] at hinv
          refine ⟨state, done, [], rfl, hinv, ?_⟩
          rw [StopReason, hterminal]
      | cons front queue =>
          rw [hqueue] at hinv
          have hwithin : front.depth ≤ request.maxDepth :=
            hinv.frontier.within front.place (by simp)
          have hretired : (done ++ [front]).length = done.length + 1 := by simp
          by_cases hdepth : front.depth = request.maxDepth
          · -- the front is at the depth limit: it is only looked past
            simp only [hdepth, if_true]
            by_cases hneighbor :
                hasTraversableNeighbor snapshot allowed front.nodeId state.visited = true
            · rw [if_pos hneighbor]
              obtain ⟨next, hlinked, hnew⟩ := (hasTraversableNeighbor_iff hallowed).mp hneighbor
              exact ⟨_, done, front :: queue, rfl, { hinv with }, front, queue, next, rfl, hdepth,
                hlinked, fun hmem => hnew (hinv.mem_visited.mpr hmem)⟩
            · rw [if_neg hneighbor]
              have hclosed : ∀ next, Linked snapshot request.relationships front.nodeId next →
                  next ∈ state.visited := by
                intro next hlinked
                by_contra hnew
                exact hneighbor ((hasTraversableNeighbor_iff hallowed).mpr ⟨next, hlinked, hnew⟩)
              refine @ih (done ++ [front]) { state with queue } ?_ hterminal
                (by omega)
              exact { hinv.retire hclosed with }
          · simp only [hdepth, if_false]
            have hstart : TraversalInv snapshot request done (front :: queue)
                { state with queue } := { hinv with }
            obtain ⟨after, hloop, hafter⟩ := @inspectEdges_spec _ _ _ _ _
              { state with queue } hlimit hallowed (lt_of_le_of_ne hwithin hdepth)
              (sortBy edgeOrder _) (fun edge hedge => mem_sortBy.mp hedge) hstart hterminal
            rw [hloop]
            rcases hafter.outcome with ⟨hcomplete, hall⟩ | ⟨hstopped, hreason⟩
            · simp only [hcomplete, if_true]
              have hclosed : ∀ next, Linked snapshot request.relationships front.nodeId next →
                  next ∈ after.visited := by
                intro next hlinked
                obtain ⟨edge, hedge, hfollowed, rfl⟩ := linked_iff.mp hlinked
                exact hall edge (mem_sortBy.mpr hedge) hfollowed
              exact ih (hafter.inv.retire hclosed) hcomplete (by omega)
            · simp only [hstopped, if_false]
              exact ⟨after, done, _, rfl, hafter.inv, hreason⟩

/-- A request that `run` does not reject. -/
structure AcceptedTraversal (snapshot : StructuralGraphSnapshot)
    (request : StructuralTraversalRequest) : Prop where
  seed : HoldsStructural snapshot.nodes request.seed
  relationships : request.relationships ≠ []
  depth : 0 < request.maxDepth ∧ request.maxDepth ≤ Traversal.maxDepth
  nodes : 0 < request.maxNodes ∧ request.maxNodes ≤ Traversal.maxNodes
  edges : 0 < request.maxEdges ∧ request.maxEdges ≤ Traversal.maxEdges
  traversable : ∀ kind ∈ request.relationships, traversableStructuralKind kind = true
  distinct : request.relationships.Nodup

theorem SnapshotFields.node_eq_none_iff {snapshot : SnapshotFields} (hvalid : snapshot.Valid)
    {id : Str} : snapshot.node id = none ↔ ¬ HoldsStructural snapshot.nodes id := by
  rw [Option.eq_none_iff_forall_ne_some]
  simp only [ne_eq, node_eq_some_iff hvalid, HoldsStructural]
  simp only [not_exists, not_and]

theorem checkTraversal_eq_ok_iff :
    checkTraversal snapshot request = .ok allowed ↔
      AcceptedTraversal snapshot request ∧ ∀ kind, kind ∈ allowed ↔ kind ∈ request.relationships := by
  simp only [checkTraversal, check_bind_eq_ok_iff, failIf_eq_ok_iff, collectDistinct_eq_ok_iff,
    SnapshotFields.node_eq_none_iff snapshot.isValid, not_not, not_or, not_lt, Bool.not_eq_false,
    Finset.notMem_empty, not_false_eq_true, implies_true, true_and, false_or, gt_iff_lt]
  constructor
  · rintro ⟨hseed, hrelationships, ⟨hdepth, hdepth', hnodes, hnodes', hedges, hedges'⟩,
      htraversable, hdistinct, hallowed⟩
    exact ⟨⟨hseed, hrelationships, ⟨Nat.pos_of_ne_zero hdepth, hdepth'⟩,
      ⟨Nat.pos_of_ne_zero hnodes, hnodes'⟩, ⟨Nat.pos_of_ne_zero hedges, hedges'⟩, htraversable,
      hdistinct⟩, hallowed⟩
  · rintro ⟨haccepted, hallowed⟩
    exact ⟨haccepted.seed, haccepted.relationships,
      ⟨haccepted.depth.1.ne', haccepted.depth.2, haccepted.nodes.1.ne', haccepted.nodes.2,
        haccepted.edges.1.ne', haccepted.edges.2⟩,
      haccepted.traversable, haccepted.distinct, hallowed⟩

/-- An accepted request is answered, from a state that satisfies the invariant and had a reason
to stop. -/
theorem run_spec (haccepted : AcceptedTraversal snapshot request) :
    ∃ state done pending,
      Traversal.run snapshot request = some (.ok (traversalReceipt snapshot request state)) ∧
        TraversalInv snapshot request done pending state ∧
        StopReason snapshot request pending state := by
  have hmem : ∀ kind, kind ∈ request.relationships.toFinset ↔ kind ∈ request.relationships :=
    fun kind => mem_toFinset
  have hcheck := checkTraversal_eq_ok_iff.mpr ⟨haccepted, hmem⟩
  obtain ⟨state, done, pending, hloop, hinv, hreason⟩ := @traversalLoop_spec _ _ _
    haccepted.edges.2 hmem (request.maxNodes + 1) [] (.start request.seed)
    (TraversalInv.start haccepted.nodes.1.ne') rfl (by simp)
  refine ⟨state, done, pending, ?_, hinv, hreason⟩
  rw [Traversal.run, hcheck]
  simp only [hloop]
  rfl

/-- `run` answers exactly the accepted requests. -/
theorem run_isOk_iff :
    (∃ receipt, Traversal.run snapshot request = some (.ok receipt)) ↔
      AcceptedTraversal snapshot request := by
  constructor
  · rintro ⟨receipt, hrun⟩
    rw [Traversal.run] at hrun
    cases hcheck : checkTraversal snapshot request with
    | error error => simp [hcheck] at hrun
    | ok allowed => exact (checkTraversal_eq_ok_iff.mp hcheck).1
  · intro haccepted
    obtain ⟨state, _, _, hrun, _, _⟩ := run_spec haccepted
    exact ⟨_, hrun⟩

/-! ## Exactness -/

/-- What the receipt of a traversal says, and what its terminal means. -/
structure ExactTraversal (snapshot : StructuralGraphSnapshot)
    (request : StructuralTraversalRequest) (receipt : StructuralTraversalReceipt) : Prop where
  nodup : receipt.visitedIds.Nodup
  seedFirst : receipt.visitedIds.head? = some request.seed
  nodesLe : receipt.visitedIds.length ≤ request.maxNodes
  inspectedLe : receipt.inspectedEdgeCount ≤ request.maxEdges
  pathNodes : receipt.paths.map StructuralPathReceipt.nodeId = receipt.visitedIds
  simplePaths : ∀ path ∈ receipt.paths,
    IsSimplePath snapshot request.relationships request.seed path.steps path.nodeId
  shortest : ∀ path ∈ receipt.paths,
    IsDistance (Linked snapshot request.relationships) (· = request.seed) path.steps.length
      path.nodeId
  depthLe : ∀ path ∈ receipt.paths, path.steps.length ≤ request.maxDepth
  complete : receipt.terminal = .complete →
    ∀ id, id ∈ receipt.visitedIds ↔ Connected snapshot request.relationships request.seed id
  depthLimit : receipt.terminal = .depthLimit →
    (∀ distance ≤ request.maxDepth, ∀ id,
      ReachedIn (Linked snapshot request.relationships) (· = request.seed) distance id →
        id ∈ receipt.visitedIds) ∧
      ∃ id, Connected snapshot request.relationships request.seed id ∧ id ∉ receipt.visitedIds
  nodeLimit : receipt.terminal = .nodeLimit →
    receipt.visitedIds.length = request.maxNodes ∧
      ∃ id, Connected snapshot request.relationships request.seed id ∧ id ∉ receipt.visitedIds

section Exactness

variable {done pending : List QueueEntry} {state : TraversalState}

theorem TraversalInv.connected_of_linked
    (hinv : TraversalInv snapshot request done pending state) {entry : QueueEntry} {next : Str}
    (hentry : entry ∈ pending)
    (hlinked : Linked snapshot request.relationships entry.nodeId next) :
    Connected snapshot request.relationships request.seed next := by
  have hplace : entry.place ∈ done.map QueueEntry.place ++ pending.map QueueEntry.place :=
    mem_append_right _ (mem_map_of_mem hentry)
  obtain ⟨source, rfl, hwalk⟩ := hinv.frontier.sound _ hplace
  exact hwalk.reflTransGen.tail hlinked

theorem TraversalInv.connected (hinv : TraversalInv snapshot request done pending state) {id : Str}
    (hid : id ∈ state.visitedIds) : Connected snapshot request.relationships request.seed id := by
  rw [hinv.visitedIds] at hid
  obtain ⟨entry, hentry, rfl⟩ := mem_map.mp hid
  obtain ⟨source, rfl, hwalk⟩ := hinv.frontier.sound entry.place
    (by rw [← map_append]; exact mem_map_of_mem hentry)
  exact hwalk.reflTransGen

theorem TraversalInv.mem_visitedIds_of_place
    (hinv : TraversalInv snapshot request done pending state) {id : Str} {depth : ℕ}
    (h : (id, depth) ∈ done.map QueueEntry.place ++ pending.map QueueEntry.place) :
    id ∈ state.visitedIds := by
  rw [← map_append] at h
  obtain ⟨entry, hentry, hplace⟩ := mem_map.mp h
  rw [hinv.visitedIds]
  exact mem_map.mpr ⟨entry, hentry, congrArg Prod.fst hplace⟩

theorem exactTraversal_of_inv (hinv : TraversalInv snapshot request done pending state)
    (hreason : StopReason snapshot request pending state) :
    ExactTraversal snapshot request (traversalReceipt snapshot request state) := by
  have hpaths : ∀ path ∈ state.paths, ∃ entry ∈ done ++ pending, entry.receipt = path := by
    rw [hinv.paths]
    exact fun path hpath => mem_map.mp hpath
  have hplaces : ∀ entry ∈ done ++ pending,
      entry.place ∈ done.map QueueEntry.place ++ pending.map QueueEntry.place := by
    intro entry hentry
    rw [← map_append]
    exact mem_map_of_mem hentry
  refine
    { nodup := hinv.nodup
      seedFirst := ?_
      nodesLe := hinv.nodesLe
      inspectedLe := hinv.inspectedLe
      pathNodes := ?_
      simplePaths := ?_
      shortest := ?_
      depthLe := ?_
      complete := ?_
      depthLimit := ?_
      nodeLimit := ?_ }
  · show state.visitedIds.head? = some request.seed
    rw [hinv.visitedIds, head?_map, hinv.first]
    rfl
  · show state.paths.map StructuralPathReceipt.nodeId = state.visitedIds
    rw [hinv.paths, hinv.visitedIds, map_map]
    rfl
  · intro path hpath
    obtain ⟨entry, hentry, rfl⟩ := hpaths path hpath
    obtain ⟨nodes, hwalk, hnodup, _⟩ := hinv.walks entry hentry
    exact ⟨nodes, hwalk, hnodup⟩
  · intro path hpath
    obtain ⟨entry, hentry, rfl⟩ := hpaths path hpath
    have hdistance := hinv.frontier.isDistance (fun _ h => h.elim) (hplaces entry hentry)
    rw [← hinv.lengths entry hentry] at hdistance
    exact hdistance
  · intro path hpath
    obtain ⟨entry, hentry, rfl⟩ := hpaths path hpath
    have hwithin := hinv.frontier.within _ (hplaces entry hentry)
    rw [QueueEntry.place, ← hinv.lengths entry hentry] at hwithin
    exact hwithin
  · intro hterminal id
    rw [StopReason, show state.terminal = .complete from hterminal] at hreason
    obtain rfl : pending = [] := hreason
    refine ⟨hinv.connected, ?_⟩
    intro hconnected
    obtain ⟨distance, hwalk⟩ := exists_walk_iff.mpr hconnected
    obtain ⟨depth, _, hfound⟩ := hinv.frontier.found_of_complete (fun _ h => h)
      ⟨request.seed, rfl, hwalk⟩
    exact hinv.mem_visitedIds_of_place (mem_append_left _ hfound)
  · intro hterminal
    rw [StopReason, show state.terminal = .depthLimit from hterminal] at hreason
    obtain ⟨front, rest, next, rfl, hdepth, hlinked, hnew⟩ := hreason
    refine ⟨?_, next, hinv.connected_of_linked mem_cons_self hlinked, hnew⟩
    intro distance hle id hreached
    -- the front is as deep as the limit, and nothing behind it is shallower
    have hqueue : ∀ place ∈ (front :: rest).map QueueEntry.place, distance ≤ place.2 := by
      intro place hplace
      have hfront : front.depth ≤ place.2 :=
        @Frontier.front_le _ _ _ _ _ _ _ front.place hinv.frontier _ hplace
      omega
    obtain ⟨depth, _, hfound⟩ :=
      hinv.frontier.found_of_le (fun _ h => h.elim) hreached hle hqueue
    exact hinv.mem_visitedIds_of_place hfound
  · intro hterminal
    rw [StopReason, show state.terminal = .nodeLimit from hterminal] at hreason
    obtain ⟨hlength, entry, hentry, next, hlinked, hnew⟩ := hreason
    exact ⟨hlength, next, hinv.connected_of_linked hentry hlinked, hnew⟩

end Exactness

/-- Every accepted request is answered, and every answer is exact. -/
theorem traversal_exact_and_honest (snapshot : StructuralGraphSnapshot)
    (request : StructuralTraversalRequest) :
    (AcceptedTraversal snapshot request ↔
      ∃ receipt, Traversal.run snapshot request = some (.ok receipt)) ∧
    ∀ receipt, Traversal.run snapshot request = some (.ok receipt) →
      ExactTraversal snapshot request receipt := by
  refine ⟨run_isOk_iff.symm, ?_⟩
  intro receipt hrun
  obtain ⟨state, done, pending, hspec, hinv, hreason⟩ := run_spec (run_isOk_iff.mp ⟨receipt, hrun⟩)
  rw [hspec, Option.some.injEq, Except.ok.injEq] at hrun
  rw [← hrun]
  exact exactTraversal_of_inv hinv hreason

end Bran.Graph
