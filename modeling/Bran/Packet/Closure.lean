import Bran.Graph.Reachability
import Bran.View.Compile

/-!
# Dependency closures

A context packet holds the nodes of a view and what they depend on.
`dependency_closure` is a breadth-first search from the view seeds along `Known`
edges whose relationship is positive; it stops at a depth limit and at a number of
admitted nodes.  `ClosureInv` is the invariant of the search between two edges.
Once an edge was cut off nothing is admitted any more, so the flag `truncated`
says exactly that a node is missing.  When a node is found, every node that is nearer
has been found before, so whatever lies on a shortest path to an admitted node is admitted.
-/

namespace Bran.Packet

open Bran.Graph View Validation BoundedSearch List OrdMap Text

/-! ## Requests -/

inductive EvidencePriority
  | required
  | recommended
  | related
  deriving DecidableEq

theorem evidencePriority_injective : Function.Injective EvidencePriority.ctorIdx := by
  intro first second h
  cases first <;> cases second <;> first | rfl | exact absurd h (by decide)

instance : LinearOrder EvidencePriority :=
  LinearOrder.lift' EvidencePriority.ctorIdx evidencePriority_injective

namespace PreservationAnchor

def maxIdBytes : ℕ := 64
def maxValueBytes : ℕ := 512

/-- A byte that an anchor identity may hold. -/
def idChar (c : Char) : Bool := c.isAlphanum || c = '.' || c = '_' || c = '-'

/-- What `PreservationAnchor::new` checks. -/
def Valid (id value : Str) : Prop :=
  id ≠ [] ∧ byteLen id ≤ maxIdBytes ∧ id.all idChar = true ∧ isBlank value = false ∧
    byteLen value ≤ maxValueBytes

instance (id value : Str) : Decidable (Valid id value) :=
  inferInstanceAs (Decidable (id ≠ [] ∧ byteLen id ≤ maxIdBytes ∧ id.all idChar = true ∧
    isBlank value = false ∧ byteLen value ≤ maxValueBytes))

end PreservationAnchor

structure PreservationAnchor where
  id : Str
  value : Str
  valid : PreservationAnchor.Valid id value
  deriving DecidableEq

inductive PreservationAnchorError
  | invalidIdLength
  | invalidIdCharacter
  | blankValue
  | valueTooLong
  deriving DecidableEq

def PreservationAnchor.new (id value : Str) :
    Except PreservationAnchorError PreservationAnchor :=
  if hlength : id = [] ∨ byteLen id > maxIdBytes then .error .invalidIdLength
  else if hchars : id.all idChar = true then
    if hblank : isBlank value = true then .error .blankValue
    else if hvalue : byteLen value > maxValueBytes then .error .valueTooLong
    else
      .ok ⟨id, value, fun h => hlength (Or.inl h), not_lt.mp fun h => hlength (Or.inr h), hchars,
        Bool.eq_false_iff.mpr hblank, not_lt.mp hvalue⟩
  else .error .invalidIdCharacter

structure EvidenceContent where
  id : NodeId
  content : Str
  priority : EvidencePriority
  authority : ℕ
  freshness : ℕ
  preservationAnchors : List PreservationAnchor
  deriving DecidableEq

structure PacketLimits where
  maxItems : ℕ
  maxBytes : ℕ
  runtimeTokenCeiling : Option ℕ
  deriving DecidableEq

inductive PacketBound
  | items
  | bytes
  | runtimeTokens
  deriving DecidableEq

inductive PacketError
  | invalidDependencyClosureLimits (maxDepth maxNodes : ℕ)
  | viewSeedNotInGraph (id : NodeId)
  | missingSelectedEvidence (id : NodeId)
  | duplicateSelectedEvidence (id : NodeId)
  | evidenceNotInView (id : NodeId)
  | unrelatedEvidence (id : NodeId)
  | requiredEvidenceMissingPreservationAnchors (id : NodeId)
  | preservationAnchorNotInEvidence (evidenceId : NodeId) (anchorId : Str)
  | requiredEvidenceDoesNotFit (id : NodeId) (bound : PacketBound)
  | arithmeticOverflow (operation : Str)
  deriving DecidableEq

def DependencyClosureLimits.hardMaxDepth : ℕ := 64
def DependencyClosureLimits.hardMaxNodes : ℕ := 4096

structure DependencyClosureLimits where
  maxDepth : ℕ
  maxNodes : ℕ
  valid : maxDepth ≤ DependencyClosureLimits.hardMaxDepth ∧ 0 < maxNodes ∧
    maxNodes ≤ DependencyClosureLimits.hardMaxNodes
  deriving DecidableEq

def DependencyClosureLimits.new (maxDepth maxNodes : ℕ) :
    Except PacketError DependencyClosureLimits :=
  if h : maxDepth ≤ hardMaxDepth ∧ 0 < maxNodes ∧ maxNodes ≤ hardMaxNodes then
    .ok ⟨maxDepth, maxNodes, h⟩
  else .error (.invalidDependencyClosureLimits maxDepth maxNodes)

structure PacketAssemblyRequest where
  view : CompiledView
  graph : KnowledgeGraph
  evidence : List EvidenceContent
  limits : PacketLimits
  dependencyLimits : DependencyClosureLimits

/-! ## The search -/

def positiveContextRelationship : EdgeRelationship → Bool
  | .dependency | .implementation | .replacement | .supersedes | .validation | .reachability =>
      true
  | _ => false

structure DependencyClosure where
  admittedIds : List NodeId
  truncated : Bool

/-- The variables of `dependency_closure`; `frontier` holds the entries from the cursor on. -/
structure ClosureState where
  visited : OrdSet NodeId
  frontier : List (NodeId × ℕ)
  admitted : OrdSet NodeId
  truncated : Bool

/-- The condition on which the loop over the edges goes on to the next edge at once. -/
def skipsEdge (graph : KnowledgeGraph) (visited : OrdSet NodeId) (edge : EdgeInput) : Bool :=
  edge.certainty ≠ .known || !positiveContextRelationship edge.relationship ||
    (graph.node edge.target).isNone || visited.contains edge.target

/-- The loop over the edges of the node under the cursor. -/
def expandClosure (graph : KnowledgeGraph) (limits : DependencyClosureLimits) (depth : ℕ) :
    List EdgeInput → ClosureState → ClosureState
  | [], state => state
  | edge :: rest, state =>
      if skipsEdge graph state.visited edge = true then
        expandClosure graph limits depth rest state
      else if depth = limits.maxDepth ∨ state.admitted.keys.length = limits.maxNodes then
        expandClosure graph limits depth rest { state with truncated := true }
      else
        expandClosure graph limits depth rest
          { state with
            visited := state.visited.insert edge.target ()
            admitted := state.admitted.insert edge.target ()
            frontier := state.frontier ++ [(edge.target, depth + 1)] }

/-- The loop over the frontier; `none` when the fuel is used up. -/
def closureLoop (graph : KnowledgeGraph) (limits : DependencyClosureLimits) :
    ℕ → ClosureState → Option ClosureState
  | 0, _ => none
  | fuel + 1, state =>
      match state.frontier with
      | [] => some state
      | (source, depth) :: frontier =>
          closureLoop graph limits fuel
            (expandClosure graph limits depth (graph.outgoing source)
              { state with frontier := frontier })

/-- The state in front of the loop. -/
def closureStart (seeds : OrdSet NodeId) : ClosureState :=
  ⟨seeds, seeds.keys.map fun id => (id, 0), OrdMap.empty, false⟩

/-- `dependency_closure`; the fuel lasts, see `dependencyClosure_spec`. -/
def dependencyClosure (request : PacketAssemblyRequest) :
    Option (Except PacketError DependencyClosure) :=
  let seeds : OrdSet NodeId := OrdSet.ofList request.view.ids
  match seeds.keys.find? fun seed => (request.graph.node seed).isNone with
  | some seed => some (.error (.viewSeedNotInGraph seed))
  | none =>
      (closureLoop request.graph request.dependencyLimits (request.graph.nodes.length + 1)
        (closureStart seeds)).map fun state => .ok ⟨state.admitted.keys, state.truncated⟩

/-! ## What the search looks for -/

/-- A `Known` edge of a positive relationship leads from one node to another. -/
def PositiveStep (graph : KnowledgeGraph) (source target : NodeId) : Prop :=
  ∃ edge ∈ graph.edges, edge.certainty = .known ∧
    positiveContextRelationship edge.relationship = true ∧ edge.source = source ∧
      edge.target = target

variable {graph : KnowledgeGraph} {limits : DependencyClosureLimits}

theorem PositiveStep.knownStep {source target : NodeId} (h : PositiveStep graph source target) :
    graph.KnownStep source target := by
  obtain ⟨edge, hedge, hknown, _, hsource, htarget⟩ := h
  exact ⟨edge, hedge, hknown, hsource, htarget⟩

theorem mem_nodeIds_of_positive {source : NodeId → Prop}
    (hsource : ∀ id, source id → Holds graph.nodes id) (n : ℕ) (id : NodeId)
    (h : ReachedIn (PositiveStep graph) source n id) : id ∈ graph.nodeIds :=
  KnowledgeGraph.mem_nodeIds_of_steps hsource (fun _ _ hstep => hstep.knownStep.holds.2) n id h

/-- An edge is looked at more closely when it leads to a node not visited yet. -/
theorem skipsEdge_eq_false_iff {visited : OrdSet NodeId} {edge : EdgeInput}
    (hedge : edge ∈ graph.edges) :
    skipsEdge graph visited edge = false ↔
      edge.certainty = .known ∧ positiveContextRelationship edge.relationship = true ∧
        edge.target ∉ visited.keys := by
  have hpresent : edge.certainty = .known → (graph.node edge.target).isNone = false := by
    intro hknown
    have hstep : graph.KnownStep edge.source edge.target := ⟨edge, hedge, hknown, rfl, rfl⟩
    rw [← Option.not_isSome, KnowledgeGraph.node_isSome_iff.mpr hstep.holds.2]
    rfl
  simp only [skipsEdge, Bool.or_eq_false_iff, decide_eq_false_iff_not, not_not,
    Bool.not_eq_false', contains_eq_false_iff, find?_eq_none_iff]
  constructor
  · rintro ⟨⟨⟨hknown, hpositive⟩, _⟩, hnew⟩
    exact ⟨hknown, hpositive, hnew⟩
  · rintro ⟨hknown, hpositive, hnew⟩
    exact ⟨⟨⟨hknown, hpositive⟩, hpresent hknown⟩, hnew⟩

/-! ## The invariant -/

/-- What holds of the search between two edges; `done` holds the entries in front of the cursor. -/
structure ClosureInv (graph : KnowledgeGraph) (limits : DependencyClosureLimits)
    (seeds : OrdSet NodeId) (done queue : List (NodeId × ℕ)) (state : ClosureState) : Prop where
  frontier : Frontier (PositiveStep graph) (· ∈ seeds.keys) limits.maxDepth done queue
    fun _ => state.truncated = true
  visited : ∀ id, id ∈ state.visited.keys ↔ id ∈ (done ++ queue).map Prod.fst
  admitted : ∀ id, id ∈ state.admitted.keys ↔ id ∈ state.visited.keys ∧ id ∉ seeds.keys
  count : state.admitted.keys.length ≤ limits.maxNodes
  flag : state.truncated = true →
    (∃ id n, ReachedIn (PositiveStep graph) (· ∈ seeds.keys) n id ∧ id ∉ state.visited.keys) ∧
      (state.admitted.keys.length = limits.maxNodes ∨ ∀ p ∈ queue, p.2 = limits.maxDepth)
  shallow : ∀ p ∈ done ++ queue, ∀ m < p.2, ∀ id,
    ReachedIn (PositiveStep graph) (· ∈ seeds.keys) m id → id ∈ state.visited.keys

section Invariant

variable {seeds : OrdSet NodeId} {done queue : List (NodeId × ℕ)} {state : ClosureState}

theorem closureInv_start : ClosureInv graph limits seeds [] (closureStart seeds).frontier
    (closureStart seeds) := by
  refine ⟨Frontier.init seeds.keys_nodup fun _ => Iff.rfl, ?_, ?_, Nat.zero_le _, ?_, ?_⟩
  · intro id
    simp [closureStart, map_map, Function.comp_def]
  · intro id
    simp [closureStart]
  · intro h
    exact absurd h (by simp [closureStart])
  · intro p hp m hm
    obtain ⟨id, _, rfl⟩ := mem_map.mp hp
    exact absurd hm (Nat.not_lt_zero m)

/-- As long as nothing was cut off, no node before the front of the queue is missing. -/
theorem ClosureInv.visited_of_le {source id : NodeId} {depth m : ℕ}
    (h : ClosureInv graph limits seeds done ((source, depth) :: queue) state)
    (htruncated : state.truncated ≠ true) (hm : m ≤ depth)
    (hreached : ReachedIn (PositiveStep graph) (· ∈ seeds.keys) m id) :
    id ∈ state.visited.keys := by
  obtain ⟨seed, hseed, hwalk⟩ := hreached
  rcases h.frontier.found_or_pending hseed hwalk with ⟨k, _, hmem⟩ | ⟨p, hp, hlt⟩ | ⟨_, _, hcut⟩
  · exact (h.visited id).mpr (mem_map_of_mem hmem)
  · have hfront := h.frontier.front_le hp
    dsimp only at hfront
    omega
  · exact absurd hcut htruncated

theorem keys_insert_length {set : OrdSet NodeId} {id : NodeId} (hnew : id ∉ set.keys) :
    (set.insert id ()).keys.length = set.keys.length + 1 := by
  have hnodup : (id :: set.keys).Nodup := nodup_cons.mpr ⟨hnew, set.keys_nodup⟩
  have hperm : (set.insert id ()).keys.Perm (id :: set.keys) :=
    (perm_ext_iff_of_nodup (keys_nodup _) hnodup).mpr fun other => by
      rw [mem_keys_insert, mem_cons]
  exact hperm.length_eq

/-- An unvisited node behind the cursor entry is admitted. -/
theorem ClosureInv.accept {source id : NodeId} {depth : ℕ}
    (h : ClosureInv graph limits seeds done ((source, depth) :: queue) state)
    (hstep : PositiveStep graph source id) (hnew : id ∉ state.visited.keys)
    (hdepth : depth ≠ limits.maxDepth)
    (hcount : state.admitted.keys.length ≠ limits.maxNodes) :
    ClosureInv graph limits seeds done ((source, depth) :: (queue ++ [(id, depth + 1)]))
      { state with
        visited := state.visited.insert id ()
        admitted := state.admitted.insert id ()
        frontier := state.frontier ++ [(id, depth + 1)] } := by
  have hfront := h.frontier
  have hwithin := hfront.within (source, depth) (by simp)
  have hnew' : id ∉ (done ++ (source, depth) :: queue).map Prod.fst := fun hmem =>
    hnew ((h.visited id).mpr hmem)
  have hunseeded : id ∉ seeds.keys := fun hseed => hnew' (by
    have hmem := mem_map_of_mem (f := Prod.fst) (hfront.sources id hseed)
    exact hmem)
  have hunadmitted : id ∉ state.admitted.keys := fun hmem => hnew ((h.admitted id).mp hmem).1
  -- a search that was cut off admits nothing any more
  have hwhole : state.truncated ≠ true := by
    intro htruncated
    rcases (h.flag htruncated).2 with hfull | hdeep
    · exact hcount hfull
    · exact hdepth (hdeep (source, depth) (by simp))
  refine ⟨hfront.push hstep (lt_of_le_of_ne hwithin hdepth) hnew', ?_, ?_, ?_,
    fun htruncated => absurd htruncated hwhole, ?_⟩
  · intro other
    have hvisited := h.visited other
    simp only [mem_keys_insert, hvisited, map_append, mem_append, map_cons,
      mem_cons, map_nil, not_mem_nil, or_false]
    tauto
  · intro other
    have hadmitted := h.admitted other
    simp only [mem_keys_insert, hadmitted]
    constructor
    · rintro (rfl | ⟨hvisited, hseed⟩)
      · exact ⟨Or.inl rfl, hunseeded⟩
      · exact ⟨Or.inr hvisited, hseed⟩
    · rintro ⟨rfl | hvisited, hseed⟩
      · exact Or.inl rfl
      · exact Or.inr ⟨hvisited, hseed⟩
  · have hle := h.count
    dsimp only
    rw [keys_insert_length hunadmitted]
    omega
  · intro p hp m hm other hreached
    refine mem_keys_insert.mpr (.inr ?_)
    rw [← cons_append, ← append_assoc] at hp
    rcases mem_append.mp hp with hold | hlast
    · exact h.shallow p hold m hm other hreached
    · -- the new entry is one behind the front of the queue
      obtain rfl := mem_singleton.mp hlast
      exact h.visited_of_le hwhole (Nat.le_of_lt_succ hm) hreached

/-- An unvisited node behind the cursor entry is cut off. -/
theorem ClosureInv.cutOff {source id : NodeId} {depth : ℕ}
    (h : ClosureInv graph limits seeds done ((source, depth) :: queue) state)
    (hstep : PositiveStep graph source id) (hnew : id ∉ state.visited.keys)
    (hlimit : depth = limits.maxDepth ∨ state.admitted.keys.length = limits.maxNodes) :
    ClosureInv graph limits seeds done ((source, depth) :: queue)
      { state with truncated := true } := by
  have hreached : ReachedIn (PositiveStep graph) (· ∈ seeds.keys) (depth + 1) id :=
    (h.frontier.sound (source, depth) (by simp)).snoc hstep
  refine ⟨h.frontier.mono_cut fun _ _ => rfl, h.visited, h.admitted, h.count, fun _ => ?_, h.shallow⟩
  refine ⟨⟨id, depth + 1, hreached, hnew⟩, ?_⟩
  rcases hlimit with hdepth | hfull
  · refine Or.inr fun p hp => le_antisymm ?_ ?_
    · exact h.frontier.within p (mem_append_right _ hp)
    · rw [← hdepth]
      exact h.frontier.front_le hp
  · exact Or.inl hfull

/-- What the loop over the edges of one node does. -/
theorem expandClosure_spec {source : NodeId} {depth : ℕ} {edges : List EdgeInput}
    (hedges : ∀ edge ∈ edges, edge ∈ graph.edges ∧ edge.source = source)
    (hinv : ClosureInv graph limits seeds done ((source, depth) :: state.frontier) state) :
    ∃ state', expandClosure graph limits depth edges state = state' ∧
      ClosureInv graph limits seeds done ((source, depth) :: state'.frontier) state' ∧
      (∀ id ∈ state.visited.keys, id ∈ state'.visited.keys) ∧
      (state.truncated = true → state'.truncated = true) ∧
      ∀ edge ∈ edges, edge.certainty = .known →
        positiveContextRelationship edge.relationship = true →
          edge.target ∈ state'.visited.keys ∨ state'.truncated = true := by
  induction edges generalizing state with
  | nil => exact ⟨state, rfl, hinv, fun _ h => h, fun h => h, by simp⟩
  | cons edge rest ih =>
      have hrest : ∀ e ∈ rest, e ∈ graph.edges ∧ e.source = source := fun e he =>
        hedges e (mem_cons_of_mem _ he)
      obtain ⟨hedge, hsource⟩ := hedges edge (by simp)
      rw [expandClosure]
      split_ifs with hskip hlimit
      · obtain ⟨state', hrun, hinv', hvisited, hflag, hall⟩ := ih hrest hinv
        refine ⟨state', hrun, hinv', hvisited, hflag, ?_⟩
        intro e he hknown hpositive
        rcases mem_cons.mp he with rfl | he
        · refine Or.inl (hvisited _ ?_)
          by_contra hnew
          rw [(skipsEdge_eq_false_iff hedge).mpr ⟨hknown, hpositive, hnew⟩] at hskip
          exact absurd hskip (by decide)
        · exact hall e he hknown hpositive
      · obtain ⟨hknown, hpositive, hnew⟩ :=
          (skipsEdge_eq_false_iff hedge).mp (Bool.eq_false_iff.mpr hskip)
        have hstep : PositiveStep graph source edge.target :=
          ⟨edge, hedge, hknown, hpositive, hsource, rfl⟩
        obtain ⟨state', hrun, hinv', hvisited, hflag, hall⟩ := @ih
          { state with truncated := true } hrest (hinv.cutOff hstep hnew hlimit)
        refine ⟨state', hrun, hinv', hvisited, fun _ => hflag rfl, ?_⟩
        intro e he hknown hpositive
        rcases mem_cons.mp he with rfl | he
        · exact Or.inr (hflag rfl)
        · exact hall e he hknown hpositive
      · obtain ⟨hknown, hpositive, hnew⟩ :=
          (skipsEdge_eq_false_iff hedge).mp (Bool.eq_false_iff.mpr hskip)
        rw [not_or] at hlimit
        have hstep : PositiveStep graph source edge.target :=
          ⟨edge, hedge, hknown, hpositive, hsource, rfl⟩
        obtain ⟨state', hrun, hinv', hvisited, hflag, hall⟩ := @ih
          { state with
            visited := state.visited.insert edge.target ()
            admitted := state.admitted.insert edge.target ()
            frontier := state.frontier ++ [(edge.target, depth + 1)] }
          hrest (hinv.accept hstep hnew hlimit.1 hlimit.2)
        refine ⟨state', hrun, hinv', ?_, hflag, ?_⟩
        · intro id hid
          exact hvisited id (mem_keys_insert.mpr (Or.inr hid))
        · intro e he hknown hpositive
          rcases mem_cons.mp he with rfl | he
          · exact Or.inl (hvisited _ (mem_keys_insert.mpr (Or.inl rfl)))
          · exact hall e he hknown hpositive

/-- The cursor moves on once all edges of its entry are looked at. -/
theorem ClosureInv.retire {source : NodeId} {depth : ℕ}
    (h : ClosureInv graph limits seeds done ((source, depth) :: queue) state)
    (hedges : ∀ edge ∈ graph.outgoing source, edge.certainty = .known →
      positiveContextRelationship edge.relationship = true →
        edge.target ∈ state.visited.keys ∨ state.truncated = true) :
    ClosureInv graph limits seeds (done ++ [(source, depth)]) queue state := by
  have hassoc : done ++ [(source, depth)] ++ queue = done ++ (source, depth) :: queue := by simp
  refine ⟨h.frontier.retire ?_, ?_, h.admitted, h.count, ?_, hassoc ▸ h.shallow⟩
  · rintro id ⟨edge, hedge, hknown, hpositive, hsource, rfl⟩
    have hmem := KnowledgeGraph.mem_outgoing.mpr ⟨hedge, hsource⟩
    exact (hedges edge hmem hknown hpositive).imp_left (h.visited _).mp
  · rw [hassoc]
    exact h.visited
  · intro htruncated
    obtain ⟨hmissing, hlimit⟩ := h.flag htruncated
    exact ⟨hmissing, hlimit.imp_right fun hdeep p hp => hdeep p (mem_cons_of_mem _ hp)⟩

/-- The loop ends, with an empty frontier. -/
theorem closureLoop_spec {fuel : ℕ}
    (hseeds : ∀ id ∈ seeds.keys, Holds graph.nodes id)
    (hinv : ClosureInv graph limits seeds done state.frontier state)
    (hfuel : graph.nodes.length < fuel + done.length) :
    ∃ state' done', closureLoop graph limits fuel state = some state' ∧
      ClosureInv graph limits seeds done' [] state' := by
  induction fuel generalizing done state with
  | zero =>
      have hlength := hinv.frontier.length_le (mem_nodeIds_of_positive hseeds)
      have hnodes : graph.nodeIds.length = graph.nodes.length := length_map _
      omega
  | succ fuel ih =>
      rw [closureLoop]
      cases hfrontier : state.frontier with
      | nil => exact ⟨state, done, rfl, hfrontier ▸ hinv⟩
      | cons front queue =>
          obtain ⟨source, depth⟩ := front
          dsimp only
          rw [hfrontier] at hinv
          have hstart : ClosureInv graph limits seeds done ((source, depth) :: queue)
              { state with frontier := queue } :=
            ⟨hinv.frontier, hinv.visited, hinv.admitted, hinv.count, hinv.flag, hinv.shallow⟩
          obtain ⟨state', hrun, hinv', _, _, hall⟩ := @expandClosure_spec _ _ _ _
            { state with frontier := queue } source depth (graph.outgoing source)
            (fun edge h => KnowledgeGraph.mem_outgoing.mp h) hstart
          rw [hrun]
          refine ih (hinv'.retire hall) ?_
          rw [length_append, length_singleton]
          omega

end Invariant

/-! ## The result -/

section Result

variable {request : PacketAssemblyRequest}

/-- The nodes that the closure of a request may take in, at their distance. -/
def PositivelyReached (request : PacketAssemblyRequest) (n : ℕ) (id : NodeId) : Prop :=
  ReachedIn (PositiveStep request.graph) (· ∈ request.view.ids) n id

/-- The search succeeds on a view of the graph, and it fails otherwise. -/
theorem dependencyClosure_cases (request : PacketAssemblyRequest) :
    (∃ seed ∈ request.view.ids,
      dependencyClosure request = some (.error (.viewSeedNotInGraph seed)) ∧
        ¬ Holds request.graph.nodes seed) ∨
    ∃ closure done state, dependencyClosure request = some (.ok closure) ∧
      (∀ seed ∈ request.view.ids, Holds request.graph.nodes seed) ∧
      closure = ⟨state.admitted.keys, state.truncated⟩ ∧
      ClosureInv request.graph request.dependencyLimits (OrdSet.ofList request.view.ids) done []
        state := by
  cases hfind : (OrdSet.ofList request.view.ids).keys.find? fun seed =>
      (request.graph.node seed).isNone with
  | some seed =>
      refine Or.inl ⟨seed, OrdSet.mem_keys_ofList.mp (mem_of_find?_eq_some hfind), ?_, ?_⟩
      · simp only [dependencyClosure, hfind]
      · have hnone := find?_some hfind
        rw [← KnowledgeGraph.node_isSome_iff, Option.isNone_iff_eq_none.mp hnone]
        exact fun h => absurd h (by decide)
  | none =>
      have hseeds : ∀ seed ∈ (OrdSet.ofList request.view.ids).keys,
          Holds request.graph.nodes seed := by
        intro seed hseed
        have hpresent := find?_eq_none.mp hfind seed hseed
        rw [← KnowledgeGraph.node_isSome_iff, Option.isSome_iff_ne_none]
        simpa using hpresent
      obtain ⟨state, done, hrun, hinv⟩ := @closureLoop_spec _ request.dependencyLimits
        _ _ _ (request.graph.nodes.length + 1) hseeds closureInv_start (by simp)
      refine Or.inr ⟨_, done, state, ?_, ?_, rfl, hinv⟩
      · simp only [dependencyClosure, hfind, hrun, Option.map_some]
      · exact fun seed hseed => hseeds seed (OrdSet.mem_keys_ofList.mpr hseed)

/-- What a successful search returns. -/
structure ClosureSpec (request : PacketAssemblyRequest) (closure : DependencyClosure) : Prop where
  seeds : ∀ seed ∈ request.view.ids, Holds request.graph.nodes seed
  sorted : closure.admittedIds.Pairwise (· < ·)
  present : ∀ id ∈ closure.admittedIds, Holds request.graph.nodes id
  unseeded : ∀ id ∈ closure.admittedIds, id ∉ request.view.ids
  within : ∀ id ∈ closure.admittedIds,
    ∃ n ≤ request.dependencyLimits.maxDepth, PositivelyReached request n id
  count : closure.admittedIds.length ≤ request.dependencyLimits.maxNodes
  truncated : closure.truncated = true ↔ ∃ id n, PositivelyReached request n id ∧
    id ∉ request.view.ids ∧ id ∉ closure.admittedIds

theorem dependencyClosure_spec {closure : DependencyClosure}
    (h : dependencyClosure request = some (.ok closure)) : ClosureSpec request closure := by
  rcases dependencyClosure_cases request with ⟨seed, _, herror, _⟩ | ⟨_, done, state, hok, hseeds,
    hclosure, hinv⟩
  · rw [herror] at h
    exact absurd h (by simp)
  · rw [hok] at h
    obtain rfl := Except.ok.inj (Option.some.inj h)
    subst hclosure
    have hsource : (fun id => id ∈ (OrdSet.ofList request.view.ids).keys) =
        (fun id => id ∈ request.view.ids) := by
      funext id
      exact propext OrdSet.mem_keys_ofList
    have hfound := hinv.frontier
    rw [hsource] at hfound
    have hvisited : ∀ id, id ∈ state.visited.keys ↔ ∃ k, (id, k) ∈ done := by
      intro id
      rw [hinv.visited, append_nil, mem_map]
      constructor
      · rintro ⟨p, hp, rfl⟩
        exact ⟨p.2, hp⟩
      · rintro ⟨k, hk⟩
        exact ⟨_, hk, rfl⟩
    have hreached : ∀ id ∈ state.admitted.keys,
        ∃ n ≤ request.dependencyLimits.maxDepth, PositivelyReached request n id := by
      intro id hid
      obtain ⟨k, hk⟩ := (hvisited id).mp ((hinv.admitted id).mp hid).1
      have hmem : (id, k) ∈ done ++ [] := by simpa using hk
      exact ⟨k, hfound.within _ hmem, hfound.sound _ hmem⟩
    refine ⟨hseeds, state.admitted.sorted, ?_, ?_, hreached, hinv.count, ?_⟩
    · intro id hid
      obtain ⟨n, _, hn⟩ := hreached id hid
      obtain ⟨node, hnode, hnodeId⟩ := mem_map.mp (mem_nodeIds_of_positive hseeds n id hn)
      exact ⟨node, hnode, hnodeId⟩
    · intro id hid
      exact fun hseed => ((hinv.admitted id).mp hid).2 (OrdSet.mem_keys_ofList.mpr hseed)
    · constructor
      · intro htruncated
        obtain ⟨⟨id, n, hn, hnew⟩, _⟩ := hinv.flag htruncated
        rw [hsource] at hn
        refine ⟨id, n, hn, fun hseed => hnew ?_, fun hid => hnew ((hinv.admitted id).mp hid).1⟩
        exact (hvisited id).mpr ⟨0, by simpa using hfound.sources id hseed⟩
      · rintro ⟨id, n, hn, hunseeded, hunadmitted⟩
        by_contra htruncated
        obtain ⟨k, _, hk⟩ := hfound.found_of_complete (fun _ => htruncated) hn
        refine hunadmitted ((hinv.admitted id).mpr ⟨(hvisited id).mpr ⟨k, hk⟩, ?_⟩)
        exact fun hseed => hunseeded (OrdSet.mem_keys_ofList.mp hseed)

end Result

/-! ## Shortest paths -/

/-- Whatever lies on a shortest path from the seeds to an admitted node is a seed or admitted. -/
def PrefixClosed (request : PacketAssemblyRequest) (closure : DependencyClosure) : Prop :=
  ∀ id ∈ closure.admittedIds, ∀ n,
    IsDistance (PositiveStep request.graph) (· ∈ request.view.ids) n id →
      ∀ k m between, PositivelyReached request k between →
        Walk (PositiveStep request.graph) m between id → k + m = n →
          between ∈ request.view.ids ∨ between ∈ closure.admittedIds

/-- The closure of a request is exact: it is refused for a view that is not one of the graph, and
otherwise it admits nodes that positive `Known` edges reach, no seed, not too many, everything on the
shortest paths to them, and says truthfully whether a reachable node is missing. -/
theorem dependencyClosure_exact (request : PacketAssemblyRequest) :
    (∃ seed ∈ request.view.ids, ¬ Holds request.graph.nodes seed ∧
      dependencyClosure request = some (.error (.viewSeedNotInGraph seed))) ∨
    ∃ closure, dependencyClosure request = some (.ok closure) ∧ ClosureSpec request closure ∧
      PrefixClosed request closure := by
  rcases dependencyClosure_cases request with ⟨seed, hseed, herror, habsent⟩ |
    ⟨_, done, state, hok, _, rfl, hinv⟩
  · exact .inl ⟨seed, hseed, habsent, herror⟩
  · refine .inr ⟨_, hok, dependencyClosure_spec hok, ?_⟩
    intro id hid n hdistance k m between hbetween hwalk hsum
    have hsource : (fun id => id ∈ (OrdSet.ofList request.view.ids).keys) =
        (fun id => id ∈ request.view.ids) := by
      funext id
      exact propext OrdSet.mem_keys_ofList
    have hvisited : between ∈ state.visited.keys := by
      obtain ⟨p, hp, rfl⟩ := mem_map.mp
        ((hinv.visited id).mp ((hinv.admitted id).mp hid).1)
      rw [append_nil] at hp
      cases hwalk with
      | nil => exact ((hinv.admitted _).mp hid).1
      | snoc _ _ =>
          -- the entry of the node is no nearer than the node
          have hreached := hinv.frontier.sound p (mem_append_left _ hp)
          rw [hsource] at hreached
          have hle := hdistance.2 p.2 hreached
          refine hinv.shallow p (mem_append_left _ hp) k (by omega) between ?_
          rw [hsource]
          exact hbetween
    by_cases hseed : between ∈ request.view.ids
    · exact .inl hseed
    · refine .inr ((hinv.admitted between).mpr ⟨hvisited, fun hkey => hseed ?_⟩)
      exact OrdSet.mem_keys_ofList.mp hkey

end Bran.Packet
