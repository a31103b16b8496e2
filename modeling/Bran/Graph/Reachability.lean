import Bran.Graph.Build
import Bran.Library.BoundedSearch

/-!
# Reachability and zombies

`KnowledgeGraph::reachability` runs up to two breadth-first passes with a depth
limit.  The first one looks for the target from the entrypoints along `Known`
edges, the second one looks for it from the ends of all other edges.  Both expand
a node in the same way, which is `expand` below; `PassInv` is the invariant that
one expansion preserves, and the two runs are followed from there.

A pass keeps a set of seen nodes, a queue and a flag which says that an unseen
node was cut off at the depth limit.  The loops of the source end when their
queue is empty; here they carry a fuel argument, and `knownDistanceTo_spec` and
`uncertainPathTo_spec` include that the fuel is never used up.
-/

namespace Bran.Graph

open BoundedSearch List

/-! ## Results -/

structure NodeEvidence where
  id : NodeId
  role : NodeRole
  provenance : Provenance
  confidence : Confidence
  facts : NodeFacts
  deriving DecidableEq

def nodeEvidence (node : NodeInput) : NodeEvidence :=
  ⟨node.id, node.role, node.provenance, node.confidence, node.facts⟩

structure EdgeEvidence where
  id : EdgeId
  source : NodeId
  target : NodeId
  provenance : Provenance
  confidence : Confidence
  certainty : EdgeCertainty
  relationship : EdgeRelationship
  deriving DecidableEq

def edgeEvidence (edge : EdgeInput) : EdgeEvidence :=
  ⟨edge.id, edge.source, edge.target, edge.provenance, edge.confidence, edge.certainty,
    edge.relationship⟩

structure QueryBounds where
  maxResults : ℕ
  maxDepth : ℕ

structure Bounded (α : Type*) where
  items : List α
  truncated : Bool
  deriving DecidableEq

inductive NodeQuery (α : Type*)
  | found (result : Bounded α)
  | missing (id : NodeId)
  deriving DecidableEq

inductive ReachabilityReason
  | entrypoint
  | knownPath (depth : ℕ)
  | testRole
  | generatedRole
  | noKnownPath
  | uncertain (edge : EdgeEvidence)
  | depthBound
  | partialCoverage
  deriving DecidableEq

inductive Reachability
  | active (reason : ReachabilityReason)
  | supporting (reason : ReachabilityReason)
  | testOnly (reason : ReachabilityReason)
  | generated (reason : ReachabilityReason)
  | unreachable (reason : ReachabilityReason)
  | unknown (reason : ReachabilityReason)
  deriving DecidableEq

structure Classification where
  node : NodeEvidence
  outcome : Reachability
  truncated : Bool
  deriving DecidableEq

structure Zombie where
  node : NodeEvidence
  reason : ReachabilityReason
  deriving DecidableEq

/-! ## The two passes -/

/-- The state of a breadth-first pass whose queue entries carry a payload. -/
structure Pass (π : Type*) where
  seen : Finset NodeId
  queue : List (NodeId × π × ℕ)
  bounded : Bool

/-- The loop over the edges of the node in front of the queue.  A pass that looks
for `stop` ends at the edge that finds it, with `none`. -/
def expand {π : Type*} (stop : Option NodeId) (maxDepth : ℕ) (payload : π) (depth : ℕ) :
    List EdgeInput → Pass π → Option (Pass π)
  | [], pass => some pass
  | edge :: rest, pass =>
      if edge.certainty ≠ .known ∨ edge.target ∈ pass.seen then
        expand stop maxDepth payload depth rest pass
      else if depth = maxDepth then
        expand stop maxDepth payload depth rest { pass with bounded := true }
      else if some edge.target = stop then none
      else
        expand stop maxDepth payload depth rest
          { pass with
            seen := insert edge.target pass.seen
            queue := pass.queue ++ [(edge.target, payload, depth + 1)] }

/-- The first loop of `known_distance_to`; `none` when the target is an entrypoint. -/
def enqueueEntrypoints (target : NodeId) : List NodeInput → Pass Unit → Option (Pass Unit)
  | [], pass => some pass
  | node :: rest, pass =>
      if node.role = .entrypoint then
        if node.id = target then none
        else
          enqueueEntrypoints target rest
            { pass with
              seen := insert node.id pass.seen
              queue := pass.queue ++ [(node.id, (), 0)] }
      else enqueueEntrypoints target rest pass

/-- The second loop of `known_distance_to`. -/
def knownLoop (graph : KnowledgeGraph) (target : NodeId) (maxDepth : ℕ) :
    ℕ → Pass Unit → Option (Option ℕ × Bool)
  | 0, _ => none
  | fuel + 1, pass =>
      match pass.queue with
      | [] => some (none, pass.bounded)
      | (current, _, depth) :: queue =>
          match expand (some target) maxDepth () depth (graph.outgoing current)
              { pass with queue := queue } with
          | none => some (some (depth + 1), false)
          | some pass' => knownLoop graph target maxDepth fuel pass'

def KnowledgeGraph.knownDistanceTo (graph : KnowledgeGraph) (target : NodeId) (maxDepth : ℕ) :
    Option (Option ℕ × Bool) :=
  match enqueueEntrypoints target graph.nodes ⟨∅, [], false⟩ with
  | none => some (some 0, false)
  | some pass => knownLoop graph target maxDepth (graph.nodes.length + 1) pass

/-- One insertion of the first loop of `uncertain_path_to`. -/
def taint (id : NodeId) (evidence : EdgeEvidence) (pass : Pass EdgeEvidence) :
    Pass EdgeEvidence :=
  if id ∈ pass.seen then pass
  else { pass with seen := insert id pass.seen, queue := pass.queue ++ [(id, evidence, 0)] }

/-- The first loop of `uncertain_path_to`. -/
def enqueueUncertain (graph : KnowledgeGraph) :
    List EdgeInput → Pass EdgeEvidence → Pass EdgeEvidence
  | [], pass => pass
  | edge :: rest, pass =>
      if edge.certainty = .known then enqueueUncertain graph rest pass
      else
        let fromSource := taint edge.source (edgeEvidence edge) pass
        if (graph.node edge.target).isSome then
          enqueueUncertain graph rest (taint edge.target (edgeEvidence edge) fromSource)
        else enqueueUncertain graph rest fromSource

/-- The second loop of `uncertain_path_to`. -/
def uncertainLoop (graph : KnowledgeGraph) (target : NodeId) (maxDepth : ℕ) :
    ℕ → Pass EdgeEvidence → Option (Option EdgeEvidence × Bool)
  | 0, _ => none
  | fuel + 1, pass =>
      match pass.queue with
      | [] => some (none, pass.bounded)
      | (current, evidence, depth) :: queue =>
          if current = target then some (some evidence, pass.bounded)
          else
            match expand none maxDepth evidence depth (graph.outgoing current)
                { pass with queue := queue } with
            | none => none
            | some pass' => uncertainLoop graph target maxDepth fuel pass'

def KnowledgeGraph.uncertainPathTo (graph : KnowledgeGraph) (target : NodeId) (maxDepth : ℕ) :
    Option (Option EdgeEvidence × Bool) :=
  uncertainLoop graph target maxDepth (graph.nodes.length + 1)
    (enqueueUncertain graph graph.edges ⟨∅, [], false⟩)

/-! ## Classification -/

/-- The answer of a query that found one node. -/
def answer (classification : Classification) : NodeQuery Classification :=
  .found ⟨[classification], false⟩

/-- The roles that decide a classification on their own. -/
def immediate : NodeRole → Option Reachability
  | .entrypoint => some (.active .entrypoint)
  | .test => some (.testOnly .testRole)
  | .generated => some (.generated .generatedRole)
  | _ => none

def passOutcome (depth : Option ℕ) (knownBounded : Bool) (uncertain : Option EdgeEvidence)
    (uncertainBounded : Bool) : Reachability :=
  match depth with
  | some depth => .supporting (.knownPath depth)
  | none =>
      if knownBounded then .unknown .depthBound
      else
        match uncertain with
        | some edge => .unknown (.uncertain edge)
        | none =>
            if uncertainBounded then .unknown .depthBound else .unreachable .noKnownPath

def KnowledgeGraph.reachability (graph : KnowledgeGraph) (target : NodeId) (maxDepth : ℕ) :
    Option (NodeQuery Classification) :=
  match graph.node target with
  | none => some (.missing target)
  | some node =>
      if node.facts.containsValue "coverage".toList "partial".toList then
        some (answer ⟨nodeEvidence node, .unknown .partialCoverage, false⟩)
      else
        match immediate node.role with
        | some outcome => some (answer ⟨nodeEvidence node, outcome, false⟩)
        | none =>
            match graph.knownDistanceTo target maxDepth with
            | none => none
            | some (depth, knownBounded) =>
                match
                  if depth.isNone && !knownBounded then graph.uncertainPathTo target maxDepth
                  else some (none, false) with
                | none => none
                | some (uncertain, uncertainBounded) =>
                    some (answer ⟨nodeEvidence node,
                      passOutcome depth knownBounded uncertain uncertainBounded,
                      knownBounded || uncertainBounded⟩)

/-- The loop of `zombies`; `result.items[0]` of an empty answer is `none`. -/
def zombiesFrom (graph : KnowledgeGraph) (bounds : QueryBounds) :
    List NodeId → List Zombie → Option (Bounded Zombie)
  | [], items => some ⟨items, false⟩
  | id :: rest, items =>
      match graph.reachability id bounds.maxDepth with
      | none => none
      | some (.missing _) => zombiesFrom graph bounds rest items
      | some (.found result) =>
          match result.items with
          | [] => none
          | classification :: _ =>
              match classification.outcome with
              | .unreachable reason =>
                  if classification.truncated then zombiesFrom graph bounds rest items
                  else if items.length = bounds.maxResults then some ⟨items, true⟩
                  else
                    zombiesFrom graph bounds rest (items ++ [⟨classification.node, reason⟩])
              | _ => zombiesFrom graph bounds rest items

def KnowledgeGraph.zombies (graph : KnowledgeGraph) (bounds : QueryBounds) :
    Option (Bounded Zombie) :=
  zombiesFrom graph bounds graph.nodeIds []

/-! ## What the passes look for -/

namespace KnowledgeGraph

/-- A `Known` edge leads from one node to another. -/
def KnownStep (graph : KnowledgeGraph) (source target : NodeId) : Prop :=
  ∃ edge ∈ graph.edges, edge.certainty = .known ∧ edge.source = source ∧ edge.target = target

/-- An edge of any certainty leads from one node to another. -/
def AnyStep (graph : KnowledgeGraph) (source target : NodeId) : Prop :=
  ∃ edge ∈ graph.edges, edge.source = source ∧ edge.target = target

/-- The identity belongs to an entrypoint. -/
def IsEntrypoint (graph : KnowledgeGraph) (id : NodeId) : Prop :=
  ∃ node ∈ graph.nodes, node.role = .entrypoint ∧ node.id = id

/-- The identity is a present endpoint of an edge that is not `Known`. -/
def Tainted (graph : KnowledgeGraph) (id : NodeId) : Prop :=
  ∃ edge ∈ graph.edges, edge.certainty ≠ .known ∧
    (edge.source = id ∨ edge.target = id ∧ Holds graph.nodes id)

variable {graph : KnowledgeGraph}

theorem node_isSome_iff {id : NodeId} : (graph.node id).isSome = true ↔ Holds graph.nodes id := by
  rw [Option.isSome_iff_exists]
  simp only [node_eq_some_iff, Holds]

theorem KnownStep.holds {source target : NodeId} (h : graph.KnownStep source target) :
    Holds graph.nodes source ∧ Holds graph.nodes target := by
  obtain ⟨edge, hedge, hknown, rfl, rfl⟩ := h
  refine ⟨graph.valid.sources edge hedge, ?_⟩
  by_contra htarget
  have hmissing := (graph.valid.targets edge hedge).mpr htarget
  rw [hknown] at hmissing
  exact absurd hmissing (by decide)

theorem mem_nodeIds_of_steps {step : NodeId → NodeId → Prop} {source : NodeId → Prop}
    (hsource : ∀ id, source id → Holds graph.nodes id)
    (hstep : ∀ first second, step first second → Holds graph.nodes second) (n : ℕ) (id : NodeId)
    (h : ReachedIn step source n id) : id ∈ graph.nodeIds := by
  have hholds : Holds graph.nodes id := by
    obtain ⟨start, hstart, hwalk⟩ := h
    cases hwalk with
    | nil => exact hsource _ hstart
    | snoc _ hlast => exact hstep _ _ hlast
  obtain ⟨node, hnode, rfl⟩ := hholds
  exact mem_map_of_mem hnode

theorem mem_nodeIds_of_reachedIn {source : NodeId → Prop}
    (hsource : ∀ id, source id → Holds graph.nodes id) (n : ℕ) (id : NodeId)
    (h : ReachedIn graph.KnownStep source n id) : id ∈ graph.nodeIds :=
  mem_nodeIds_of_steps hsource (fun _ _ hstep => hstep.holds.2) n id h

end KnowledgeGraph

/-! ## One expansion -/

namespace Pass

variable {π : Type*}

/-- The queue without its payloads. -/
def places (pass : Pass π) : List (NodeId × ℕ) := pass.queue.map fun entry => (entry.1, entry.2.2)

/-- The pass with an entry put back in front of its queue. -/
def withFront (pass : Pass π) (entry : NodeId × π × ℕ) : Pass π :=
  { pass with queue := entry :: pass.queue }

@[simp] theorem places_withFront (pass : Pass π) (entry : NodeId × π × ℕ) :
    (pass.withFront entry).places = (entry.1, entry.2.2) :: pass.places := rfl

@[simp] theorem seen_withFront (pass : Pass π) (entry : NodeId × π × ℕ) :
    (pass.withFront entry).seen = pass.seen := rfl

@[simp] theorem bounded_withFront (pass : Pass π) (entry : NodeId × π × ℕ) :
    (pass.withFront entry).bounded = pass.bounded := rfl

end Pass

/-- The invariant of a pass: `done` holds the nodes that left the queue. -/
structure PassInv {π : Type*} (graph : KnowledgeGraph) (source : NodeId → Prop) (maxDepth : ℕ)
    (done : List (NodeId × ℕ)) (pass : Pass π) : Prop where
  frontier : Frontier graph.KnownStep source maxDepth done pass.places
    fun k => pass.bounded = true ∧ k = maxDepth
  seen : ∀ id, id ∈ pass.seen ↔ id ∈ (done ++ pass.places).map Prod.fst
  flag : pass.bounded = true → ∃ p ∈ done ++ pass.places, p.2 = maxDepth

section Expansion

variable {π : Type*} {graph : KnowledgeGraph} {source : NodeId → Prop} {maxDepth depth : ℕ}
  {done : List (NodeId × ℕ)} {current : NodeId} {payload : π} {stop : Option NodeId}

/-- Finding an unseen node behind the front of the queue. -/
theorem PassInv.discover {pass : Pass π}
    (h : PassInv graph source maxDepth done (pass.withFront (current, payload, depth)))
    {id : NodeId} (hstep : graph.KnownStep current id) (hdepth : depth ≠ maxDepth)
    (hnew : id ∉ pass.seen) :
    PassInv graph source maxDepth done
      (Pass.withFront { pass with
        seen := insert id pass.seen
        queue := pass.queue ++ [(id, payload, depth + 1)] } (current, payload, depth)) := by
  have hfront := h.frontier
  have hwithin := hfront.within (current, depth) (by simp)
  have hnew' : id ∉ (done ++ (current, depth) :: pass.places).map Prod.fst := fun hmem =>
    hnew ((h.seen id).mpr hmem)
  have hplaces : (Pass.withFront { pass with
      seen := insert id pass.seen
      queue := pass.queue ++ [(id, payload, depth + 1)] } (current, payload, depth)).places =
      (current, depth) :: pass.places ++ [(id, depth + 1)] := by
    simp [Pass.places, Pass.withFront]
  refine ⟨?_, ?_, ?_⟩
  · rw [hplaces]
    exact hfront.push hstep (lt_of_le_of_ne hwithin hdepth) hnew'
  · intro other
    have hseen := h.seen other
    simp only [Pass.seen_withFront, Pass.places_withFront] at hseen
    rw [hplaces]
    simp only [Pass.seen_withFront, Finset.mem_insert, hseen, map_append, mem_append,
      map_cons, mem_cons, map_nil, not_mem_nil, or_false]
    tauto
  · intro hbounded
    obtain ⟨p, hp, hmax⟩ := h.flag hbounded
    refine ⟨p, ?_, hmax⟩
    rw [hplaces]
    simp only [Pass.places_withFront, mem_append, mem_cons] at hp ⊢
    tauto

/-- Cutting an unseen node off at the depth limit. -/
theorem PassInv.cutOff {pass : Pass π}
    (h : PassInv graph source maxDepth done (pass.withFront (current, payload, depth)))
    (hdepth : depth = maxDepth) :
    PassInv graph source maxDepth done
      (Pass.withFront { pass with bounded := true } (current, payload, depth)) :=
  ⟨h.frontier.mono_cut fun _ hk => ⟨rfl, hk.2⟩, h.seen,
    fun _ => ⟨(current, depth), by simp, hdepth⟩⟩

/-- What the loop over the edges of one node does. -/
inductive Expanded (graph : KnowledgeGraph) (source : NodeId → Prop) (maxDepth : ℕ)
    (done : List (NodeId × ℕ)) (front : NodeId × π × ℕ) (stop : Option NodeId)
    (edges : List EdgeInput) (pass : Pass π) : Option (Pass π) → Prop
  | stopped (id : NodeId) (hstop : stop = some id) (hlimit : front.2.2 + 1 ≤ maxDepth)
      (hdistance : IsDistance graph.KnownStep source (front.2.2 + 1) id) :
      Expanded graph source maxDepth done front stop edges pass none
  | done (pass' : Pass π) (hinv : PassInv graph source maxDepth done (pass'.withFront front))
      (hedges : ∀ edge ∈ edges, edge.certainty = .known →
        edge.target ∈ pass'.seen ∨ (pass'.bounded = true ∧ front.2.2 = maxDepth))
      (hseen : pass.seen ⊆ pass'.seen) (hbounded : pass.bounded = true → pass'.bounded = true)
      (hstop : ∀ id, stop = some id → id ∉ pass.seen → id ∉ pass'.seen) :
      Expanded graph source maxDepth done front stop edges pass (some pass')

/-- One more edge in front: it leads to a node seen by now, or the depth limit cut it off. -/
theorem Expanded.cons {front : NodeId × π × ℕ} {edge : EdgeInput} {rest : List EdgeInput}
    {pass next : Pass π} {result : Option (Pass π)}
    (h : Expanded graph source maxDepth done front stop rest next result)
    (hedge : edge.certainty = .known →
      edge.target ∈ next.seen ∨ (next.bounded = true ∧ front.2.2 = maxDepth))
    (hseen : pass.seen ⊆ next.seen) (hbounded : pass.bounded = true → next.bounded = true)
    (hnew : ∀ id, stop = some id → id ∉ pass.seen → id ∉ next.seen) :
    Expanded graph source maxDepth done front stop (edge :: rest) pass result := by
  cases h with
  | stopped id hstop hlimit hdistance => exact .stopped id hstop hlimit hdistance
  | done pass' hinv hrest hseen' hbounded' hstop =>
      refine .done pass' hinv (forall_mem_cons.mpr ⟨fun hknown => ?_, hrest⟩)
        (hseen.trans hseen') (fun h => hbounded' (hbounded h))
        fun id hid hunseen => hstop id hid (hnew id hid hunseen)
      exact (hedge hknown).imp (fun h => hseen' h) fun h => ⟨hbounded' h.1, h.2⟩

theorem expand_spec {edges : List EdgeInput} {pass : Pass π}
    (hedges : ∀ edge ∈ edges, edge ∈ graph.edges ∧ edge.source = current)
    (hinv : PassInv graph source maxDepth done (pass.withFront (current, payload, depth))) :
    Expanded graph source maxDepth done (current, payload, depth) stop edges pass
      (expand stop maxDepth payload depth edges pass) := by
  induction edges generalizing pass with
  | nil =>
      exact .done pass hinv (by simp) (Finset.Subset.refl _) id fun _ _ h => h
  | cons edge rest ih =>
      have hrest : ∀ e ∈ rest, e ∈ graph.edges ∧ e.source = current := fun e he =>
        hedges e (mem_cons_of_mem _ he)
      obtain ⟨hedge, hsource⟩ := hedges edge (by simp)
      rw [expand]
      split_ifs with hskip hdepth hfound
      · refine (ih hrest hinv).cons (fun hknown => ?_) (Finset.Subset.refl _) id fun _ _ h => h
        exact Or.inl (hskip.resolve_left fun h => h hknown)
      · exact (ih hrest (hinv.cutOff hdepth)).cons (fun _ => Or.inr ⟨rfl, hdepth⟩)
          (Finset.Subset.refl _) (fun _ => rfl) fun _ _ h => h
      · -- the pass ends here: the target is found at its distance
        rw [not_or, not_not] at hskip
        have hstep : graph.KnownStep current edge.target :=
          ⟨edge, hedge, hskip.1, hsource, rfl⟩
        have hpushed := (hinv.discover hstep hdepth hskip.2).frontier
        have hmem : (edge.target, depth + 1) ∈ done ++ (Pass.withFront { pass with
            seen := insert edge.target pass.seen
            queue := pass.queue ++ [(edge.target, payload, depth + 1)] }
              (current, payload, depth)).places := by
          simp [Pass.places, Pass.withFront]
        exact .stopped edge.target hfound.symm (hpushed.within _ hmem)
          (hpushed.isDistance (fun k hk => hk.2.ge) hmem)
      · rw [not_or, not_not] at hskip
        have hstep : graph.KnownStep current edge.target :=
          ⟨edge, hedge, hskip.1, hsource, rfl⟩
        refine (ih hrest (hinv.discover hstep hdepth hskip.2)).cons
          (fun _ => Or.inl (Finset.mem_insert_self _ _)) (Finset.subset_insert _ _) id ?_
        intro id hid hnew hmem
        rcases Finset.mem_insert.mp hmem with rfl | hmem
        · exact hfound hid.symm
        · exact hnew hmem

/-- The front of the queue leaves it once all its edges are looked at. -/
theorem PassInv.retire {pass' : Pass π}
    (hinv : PassInv graph source maxDepth done (pass'.withFront (current, payload, depth)))
    (hedges : ∀ edge ∈ graph.outgoing current, edge.certainty = .known →
      edge.target ∈ pass'.seen ∨ (pass'.bounded = true ∧ depth = maxDepth)) :
    PassInv graph source maxDepth (done ++ [(current, depth)]) pass' := by
  have hassoc : done ++ [(current, depth)] ++ pass'.places =
      done ++ (current, depth) :: pass'.places := by simp
  refine ⟨hinv.frontier.retire ?_, ?_, ?_⟩
  · rintro id ⟨edge, hedge, hknown, hsource, rfl⟩
    refine (hedges edge (KnowledgeGraph.mem_outgoing.mpr ⟨hedge, hsource⟩) hknown).imp_left ?_
    exact (hinv.seen _).mp
  · rw [hassoc]
    exact hinv.seen
  · rw [hassoc]
    exact hinv.flag

end Expansion

end Bran.Graph
