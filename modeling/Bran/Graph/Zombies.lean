import Bran.Graph.Reachability

/-!
# Negative verdicts are safe and stable

The runs of the two passes of `reachability`, followed with the invariant of one
expansion, and what they mean for a classification: a node is unreachable only if
no evidence of any kind leads to it, a known path has the length of a shortest
one, and a deeper limit changes nothing but an outcome that a limit decided.
-/

namespace Bran.Graph

open BoundedSearch List
open Option (some.inj)

/-! ## Starting a pass -/

/-- A pass before its first expansion. -/
def Fresh {π : Type*} (pass : Pass π) : Prop :=
  pass.bounded = false ∧ ∃ sources : List NodeId, sources.Nodup ∧
    (pass.places = sources.map fun id => (id, 0)) ∧ ∀ id, id ∈ pass.seen ↔ id ∈ sources

theorem fresh_empty {π : Type*} : Fresh (⟨∅, [], false⟩ : Pass π) :=
  ⟨rfl, [], nodup_nil, rfl, by simp⟩

theorem Fresh.enqueue {π : Type*} {pass : Pass π} (h : Fresh pass) {id : NodeId} (payload : π)
    (hnew : id ∉ pass.seen) :
    Fresh { pass with seen := insert id pass.seen, queue := pass.queue ++ [(id, payload, 0)] } := by
  obtain ⟨hbounded, sources, hnodup, hplaces, hseen⟩ := h
  refine ⟨hbounded, sources ++ [id], ?_, ?_, ?_⟩
  · rw [nodup_append]
    refine ⟨hnodup, by simp, ?_⟩
    rintro a ha b hb rfl
    rw [mem_singleton] at hb
    subst hb
    exact hnew ((hseen a).mpr ha)
  · rw [Pass.places] at hplaces
    simp [Pass.places, hplaces]
  · intro other
    rw [Finset.mem_insert, hseen, mem_append, mem_singleton]
    tauto

theorem Fresh.passInv {π : Type*} {pass : Pass π} (h : Fresh pass) {graph : KnowledgeGraph}
    {source : NodeId → Prop} (hsource : ∀ id, source id ↔ id ∈ pass.seen) (maxDepth : ℕ) :
    PassInv graph source maxDepth [] pass := by
  obtain ⟨hbounded, sources, hnodup, hplaces, hseen⟩ := h
  refine ⟨?_, ?_, by simp [hbounded]⟩
  · rw [hplaces]
    exact Frontier.init hnodup fun id => (hsource id).trans (hseen id)
  · intro id
    rw [hseen, hplaces]
    simp

theorem enqueueEntrypoints_spec {target : NodeId} {nodes : List NodeInput} {pass : Pass Unit}
    (hfresh : Fresh pass) (hnodup : (nodes.map NodeInput.id).Nodup)
    (hnew : ∀ node ∈ nodes, node.id ∉ pass.seen)
    (htarget : ∀ node ∈ nodes, node.role = .entrypoint → node.id ≠ target) :
    ∃ pass', enqueueEntrypoints target nodes pass = some pass' ∧ Fresh pass' ∧
      ∀ id, id ∈ pass'.seen ↔
        id ∈ pass.seen ∨ ∃ node ∈ nodes, node.role = .entrypoint ∧ node.id = id := by
  induction nodes generalizing pass with
  | nil => exact ⟨pass, rfl, hfresh, by simp⟩
  | cons node rest ih =>
      rw [map_cons, nodup_cons] at hnodup
      rw [enqueueEntrypoints]
      by_cases hrole : node.role = .entrypoint
      · rw [if_pos hrole, if_neg (htarget node (by simp) hrole)]
        obtain ⟨pass', hpass', hfresh', hseen'⟩ := ih
          (hfresh.enqueue () (hnew node (by simp))) hnodup.2 (by
            intro other hother hmem
            rcases Finset.mem_insert.mp hmem with heq | hmem
            · exact hnodup.1 (heq ▸ mem_map_of_mem hother)
            · exact hnew other (mem_cons_of_mem _ hother) hmem)
          fun other hother => htarget other (mem_cons_of_mem _ hother)
        refine ⟨pass', hpass', hfresh', fun id => ?_⟩
        rw [hseen', Finset.mem_insert]
        simp only [mem_cons, exists_eq_or_imp, hrole, true_and]
        tauto
      · rw [if_neg hrole]
        obtain ⟨pass', hpass', hfresh', hseen'⟩ := ih hfresh hnodup.2
          (fun other hother => hnew other (mem_cons_of_mem _ hother))
          fun other hother => htarget other (mem_cons_of_mem _ hother)
        refine ⟨pass', hpass', hfresh', fun id => ?_⟩
        rw [hseen']
        simp [hrole]

theorem taint_spec {pass : Pass EdgeEvidence} (hfresh : Fresh pass) (id : NodeId)
    (evidence : EdgeEvidence) :
    Fresh (taint id evidence pass) ∧
      ∀ other, other ∈ (taint id evidence pass).seen ↔ other = id ∨ other ∈ pass.seen := by
  unfold taint
  split_ifs with hseen
  · refine ⟨hfresh, fun other => ⟨Or.inr, ?_⟩⟩
    rintro (rfl | h)
    · exact hseen
    · exact h
  · exact ⟨hfresh.enqueue evidence hseen, fun other => Finset.mem_insert⟩

theorem enqueueUncertain_spec {graph : KnowledgeGraph} {edges : List EdgeInput}
    {pass : Pass EdgeEvidence} (hfresh : Fresh pass) :
    Fresh (enqueueUncertain graph edges pass) ∧
      ∀ id, id ∈ (enqueueUncertain graph edges pass).seen ↔
        id ∈ pass.seen ∨ ∃ edge ∈ edges, edge.certainty ≠ .known ∧
          (edge.source = id ∨ edge.target = id ∧ Holds graph.nodes id) := by
  induction edges generalizing pass with
  | nil => exact ⟨hfresh, by simp [enqueueUncertain]⟩
  | cons edge rest ih =>
      rw [enqueueUncertain]
      obtain ⟨hfresh₁, hseen₁⟩ := taint_spec hfresh edge.source (edgeEvidence edge)
      obtain ⟨hfresh₂, hseen₂⟩ := taint_spec hfresh₁ edge.target (edgeEvidence edge)
      by_cases hknown : edge.certainty = .known
      · rw [if_pos hknown]
        refine ⟨(ih hfresh).1, fun id => ?_⟩
        rw [(ih hfresh).2 id]
        simp [hknown]
      · rw [if_neg hknown]
        by_cases htarget : Holds graph.nodes edge.target
        · simp only [KnowledgeGraph.node_isSome_iff.mpr htarget, ↓reduceIte]
          refine ⟨(ih hfresh₂).1, fun id => ?_⟩
          rw [(ih hfresh₂).2 id, hseen₂, hseen₁]
          simp only [mem_cons, exists_eq_or_imp, ne_eq, hknown, not_false_eq_true, true_and]
          constructor
          · rintro ((rfl | rfl | h) | h)
            · exact Or.inr (Or.inl (Or.inr ⟨rfl, htarget⟩))
            · exact Or.inr (Or.inl (Or.inl rfl))
            · exact Or.inl h
            · exact Or.inr (Or.inr h)
          · rintro (h | (rfl | ⟨rfl, _⟩) | h)
            · exact Or.inl (Or.inr (Or.inr h))
            · exact Or.inl (Or.inr (Or.inl rfl))
            · exact Or.inl (Or.inl rfl)
            · exact Or.inr h
        · have hnone : (graph.node edge.target).isSome = false := by
            rw [← Bool.not_eq_true, KnowledgeGraph.node_isSome_iff]
            exact htarget
          simp only [hnone, Bool.false_eq_true, ↓reduceIte]
          refine ⟨(ih hfresh₁).1, fun id => ?_⟩
          rw [(ih hfresh₁).2 id, hseen₁]
          simp only [mem_cons, exists_eq_or_imp, ne_eq, hknown, not_false_eq_true, true_and]
          constructor
          · rintro ((rfl | h) | h)
            · exact Or.inr (Or.inl (Or.inl rfl))
            · exact Or.inl h
            · exact Or.inr (Or.inr h)
          · rintro (h | (rfl | ⟨rfl, h⟩) | h)
            · exact Or.inl (Or.inr h)
            · exact Or.inl (Or.inl rfl)
            · exact absurd h htarget
            · exact Or.inr h

/-! ## Finished passes -/

/-- A pass ended without finding `target`; `bounded` is its flag. -/
def Exhausted (graph : KnowledgeGraph) (source : NodeId → Prop) (maxDepth : ℕ) (target : NodeId)
    (bounded : Bool) : Prop :=
  ∃ done : List (NodeId × ℕ),
    Frontier graph.KnownStep source maxDepth done []
      (fun k => bounded = true ∧ k = maxDepth) ∧
    target ∉ done.map Prod.fst ∧ (bounded = true → ∃ p ∈ done, p.2 = maxDepth)

section Exhausted

variable {graph : KnowledgeGraph} {source : NodeId → Prop} {maxDepth maxDepth' : ℕ}
  {target : NodeId} {bounded : Bool}

/-- The target is further away than the limit. -/
theorem Exhausted.far (h : Exhausted graph source maxDepth target bounded) {n : ℕ}
    (hreached : ReachedIn graph.KnownStep source n target) : maxDepth < n := by
  obtain ⟨done, hfrontier, hmissed, _⟩ := h
  by_contra hle
  obtain ⟨k, _, hmem⟩ := hfrontier.found_of_le (fun k hk => hk.2.ge) hreached (not_lt.mp hle)
    (by simp)
  rw [append_nil] at hmem
  exact hmissed (mem_map_of_mem hmem)

/-- Without the flag the target is not reachable at all. -/
theorem Exhausted.unreached (h : Exhausted graph source maxDepth target false) (n : ℕ) :
    ¬ ReachedIn graph.KnownStep source n target := by
  obtain ⟨done, hfrontier, hmissed, _⟩ := h
  intro hreached
  obtain ⟨k, _, hmem⟩ := hfrontier.found_of_complete (fun k hk => by simp at hk) hreached
  exact hmissed (mem_map_of_mem hmem)

/-- A pass that was complete stays complete under a deeper limit. -/
theorem Exhausted.complete_of_lt {target' : NodeId}
    (h : Exhausted graph source maxDepth target false)
    (h' : Exhausted graph source maxDepth' target' bounded) (hlt : maxDepth < maxDepth') :
    bounded = false := by
  obtain ⟨done, hfrontier, _, _⟩ := h
  obtain ⟨done', hfrontier', _, hflag'⟩ := h'
  by_contra hbounded
  obtain ⟨p, hp, hdepth⟩ := hflag' (by simpa using hbounded)
  have hdistance := hfrontier'.isDistance (fun k hk => hk.2.ge)
    (v := p.1) (k := p.2) (by simpa using hp)
  obtain ⟨k, _, hmem⟩ := hfrontier.found_of_complete (fun k hk => by simp at hk) hdistance.1
  have hwithin : k ≤ maxDepth := hfrontier.within (p.1, k) (by simpa using hmem)
  have hle : p.2 ≤ k := hdistance.2 k (hfrontier.sound (p.1, k) (by simpa using hmem))
  omega

theorem exhausted_of_passInv {π : Type*} {done : List (NodeId × ℕ)} {pass : Pass π}
    (hinv : PassInv graph source maxDepth done pass) (hqueue : pass.queue = [])
    (hmissed : target ∉ done.map Prod.fst) :
    Exhausted graph source maxDepth target pass.bounded := by
  have hplaces : pass.places = [] := by simp [Pass.places, hqueue]
  refine ⟨done, ?_, hmissed, ?_⟩
  · rw [← hplaces]
    exact hinv.frontier
  · simpa [hplaces] using hinv.flag

end Exhausted

/-! ## The run from the entrypoints -/

/-- What `known_distance_to` can return. -/
inductive KnownResult (graph : KnowledgeGraph) (target : NodeId) (maxDepth : ℕ) :
    Option (Option ℕ × Bool) → Prop
  | found (k : ℕ) (hdistance : IsDistance graph.KnownStep graph.IsEntrypoint k target)
      (hlimit : k ≤ maxDepth) : KnownResult graph target maxDepth (some (some k, false))
  | missed (bounded : Bool)
      (hexhausted : Exhausted graph graph.IsEntrypoint maxDepth target bounded) :
      KnownResult graph target maxDepth (some (none, bounded))

theorem IsEntrypoint.holds {graph : KnowledgeGraph} (id : NodeId) (h : graph.IsEntrypoint id) :
    Holds graph.nodes id := by
  obtain ⟨node, hnode, _, hid⟩ := h
  exact ⟨node, hnode, hid⟩

theorem Tainted.holds {graph : KnowledgeGraph} (id : NodeId) (h : graph.Tainted id) :
    Holds graph.nodes id := by
  obtain ⟨edge, hedge, _, rfl | ⟨rfl, hholds⟩⟩ := h
  · exact graph.valid.sources edge hedge
  · exact hholds

variable {done : List (NodeId × ℕ)}

/-- A queue entry can be expanded: the nodes done so far leave room for it. -/
theorem PassInv.done_length_lt {π : Type*} {graph : KnowledgeGraph} {source : NodeId → Prop}
    {maxDepth : ℕ} {pass : Pass π} (hinv : PassInv graph source maxDepth done pass)
    (hsource : ∀ id, source id → Holds graph.nodes id) (hqueue : pass.queue ≠ []) :
    done.length < graph.nodes.length := by
  have hle := hinv.frontier.length_le (KnowledgeGraph.mem_nodeIds_of_reachedIn hsource)
  have hpos : 0 < pass.places.length := by
    rw [Pass.places, length_map]
    exact length_pos_iff.mpr hqueue
  rw [KnowledgeGraph.nodeIds, length_map] at hle
  omega

theorem withFront_eq {π : Type*} {pass : Pass π} {front : NodeId × π × ℕ}
    {queue : List (NodeId × π × ℕ)} (hqueue : pass.queue = front :: queue) :
    Pass.withFront { pass with queue := queue } front = pass := by
  rw [Pass.withFront, ← hqueue]

theorem outgoing_spec {graph : KnowledgeGraph} {current : NodeId} :
    ∀ edge ∈ graph.outgoing current, edge ∈ graph.edges ∧ edge.source = current :=
  fun _ h => KnowledgeGraph.mem_outgoing.mp h

theorem knownLoop_spec {graph : KnowledgeGraph} {target : NodeId} {maxDepth fuel : ℕ}
    {pass : Pass Unit} (hinv : PassInv graph graph.IsEntrypoint maxDepth done pass)
    (hmissed : target ∉ pass.seen) (hfuel : graph.nodes.length < done.length + fuel) :
    KnownResult graph target maxDepth (knownLoop graph target maxDepth fuel pass) := by
  induction fuel generalizing done pass with
  | zero =>
      have hle := hinv.frontier.length_le
        (KnowledgeGraph.mem_nodeIds_of_reachedIn IsEntrypoint.holds)
      rw [KnowledgeGraph.nodeIds, length_map] at hle
      omega
  | succ fuel ih =>
      rw [knownLoop]
      cases hqueue : pass.queue with
      | nil =>
          have hnotDone : target ∉ done.map Prod.fst := fun hmem => by
            refine hmissed ((hinv.seen target).mpr ?_)
            rw [map_append]
            exact mem_append_left _ hmem
          exact .missed pass.bounded (exhausted_of_passInv hinv hqueue hnotDone)
      | cons front queue =>
          obtain ⟨current, payload, depth⟩ := front
          have hroom := hinv.done_length_lt IsEntrypoint.holds (by simp [hqueue])
          have hexpanded := @expand_spec _ _ _ _ _ _ _ _ (some target) _ _ outgoing_spec
            (by rw [withFront_eq hqueue]; exact hinv)
          simp only
          generalize expand (some target) maxDepth () depth (graph.outgoing current) _ = result
            at hexpanded ⊢
          cases hexpanded with
          | stopped id hstop hlimit hdistance =>
              obtain rfl := some.inj hstop
              exact .found (depth + 1) hdistance hlimit
          | done pass' hinv' hedges hseen hbounded hstop =>
              refine ih (hinv'.retire hedges) (hstop target rfl hmissed) ?_
              rw [length_append, length_singleton]
              omega

theorem knownDistanceTo_spec (graph : KnowledgeGraph) (target : NodeId) (maxDepth : ℕ)
    (htarget : ¬ graph.IsEntrypoint target) :
    KnownResult graph target maxDepth (graph.knownDistanceTo target maxDepth) := by
  obtain ⟨pass, hpass, hfresh, hseen⟩ := @enqueueEntrypoints_spec target _ _
    fresh_empty graph.valid.nodeIds (by simp)
    fun node hnode hrole hid => htarget ⟨node, hnode, hrole, hid⟩
  rw [KnowledgeGraph.knownDistanceTo, hpass]
  have hsource : ∀ id, graph.IsEntrypoint id ↔ id ∈ pass.seen := fun id => by
    rw [hseen]
    simp [KnowledgeGraph.IsEntrypoint]
  refine knownLoop_spec (hfresh.passInv hsource maxDepth) ?_ (by simp)
  exact fun hmem => htarget ((hsource target).mpr hmem)

/-! ## The run from the uncertain edges -/

/-- What `uncertain_path_to` can return. -/
inductive UncertainResult (graph : KnowledgeGraph) (target : NodeId) (maxDepth : ℕ) :
    Option (Option EdgeEvidence × Bool) → Prop
  | found (evidence : EdgeEvidence) (bounded : Bool) (k : ℕ)
      (hreached : ReachedIn graph.KnownStep graph.Tainted k target) :
      UncertainResult graph target maxDepth (some (some evidence, bounded))
  | missed (bounded : Bool)
      (hexhausted : Exhausted graph graph.Tainted maxDepth target bounded) :
      UncertainResult graph target maxDepth (some (none, bounded))

/-- Without a node to stop at, an expansion always ends. -/
theorem expand_none_spec {graph : KnowledgeGraph} {source : NodeId → Prop} {maxDepth depth : ℕ}
    {current : NodeId} {π : Type*} {payload : π} {pass : Pass π} {queue : List (NodeId × π × ℕ)}
    (hqueue : pass.queue = (current, payload, depth) :: queue)
    (hinv : PassInv graph source maxDepth done pass) :
    ∃ pass', expand none maxDepth payload depth (graph.outgoing current)
        { pass with queue := queue } = some pass' ∧
      PassInv graph source maxDepth (done ++ [(current, depth)]) pass' := by
  have hexpanded := @expand_spec _ _ _ _ _ _ _ _ none _ _ outgoing_spec
    (by rw [withFront_eq hqueue]; exact hinv)
  generalize expand none maxDepth payload depth (graph.outgoing current) _ = result
    at hexpanded ⊢
  cases hexpanded with
  | stopped id hstop hlimit hdistance => simp at hstop
  | done pass' hinv' hedges hseen hbounded hstop => exact ⟨pass', rfl, hinv'.retire hedges⟩

theorem uncertainLoop_spec {graph : KnowledgeGraph} {target : NodeId} {maxDepth fuel : ℕ}
    {pass : Pass EdgeEvidence} (hinv : PassInv graph graph.Tainted maxDepth done pass)
    (hmissed : target ∉ done.map Prod.fst) (hfuel : graph.nodes.length < done.length + fuel) :
    UncertainResult graph target maxDepth (uncertainLoop graph target maxDepth fuel pass) := by
  induction fuel generalizing done pass with
  | zero =>
      have hle := hinv.frontier.length_le
        (KnowledgeGraph.mem_nodeIds_of_reachedIn Tainted.holds)
      rw [KnowledgeGraph.nodeIds, length_map] at hle
      omega
  | succ fuel ih =>
      rw [uncertainLoop]
      cases hqueue : pass.queue with
      | nil => exact .missed pass.bounded (exhausted_of_passInv hinv hqueue hmissed)
      | cons front queue =>
          obtain ⟨current, evidence, depth⟩ := front
          have hroom := hinv.done_length_lt Tainted.holds (by simp [hqueue])
          simp only
          split_ifs with hcurrent
          · have hmem : (current, depth) ∈ done ++ pass.places := by simp [Pass.places, hqueue]
            exact .found evidence pass.bounded depth (hcurrent ▸ hinv.frontier.sound _ hmem)
          · obtain ⟨pass', hpass', hinv'⟩ := expand_none_spec hqueue hinv
            rw [hpass']
            refine ih hinv' ?_ ?_
            · simpa [Ne.symm hcurrent] using hmissed
            · rw [length_append, length_singleton]
              omega

theorem passInv_enqueueUncertain (graph : KnowledgeGraph) (maxDepth : ℕ) :
    PassInv graph graph.Tainted maxDepth []
      (enqueueUncertain graph graph.edges ⟨∅, [], false⟩) := by
  obtain ⟨hfresh, hseen⟩ := @enqueueUncertain_spec graph graph.edges _ fresh_empty
  refine hfresh.passInv (fun id => ?_) maxDepth
  rw [hseen]
  simp [KnowledgeGraph.Tainted]

theorem uncertainPathTo_spec (graph : KnowledgeGraph) (target : NodeId) (maxDepth : ℕ) :
    UncertainResult graph target maxDepth (graph.uncertainPathTo target maxDepth) :=
  uncertainLoop_spec (passInv_enqueueUncertain graph maxDepth) (by simp) (by simp)

/-! ## The same run under a deeper limit -/

section Deeper

variable {π : Type*} {payload : π} {depth : ℕ}

/-- Without a node to stop at, an expansion only appends to the queue. -/
theorem expand_none_appends (payload : π) (depth maxDepth : ℕ) (edges : List EdgeInput) (pass : Pass π) :
    ∃ pass' added, expand none maxDepth payload depth edges pass = some pass' ∧
      pass'.queue = pass.queue ++ added := by
  induction edges generalizing pass with
  | nil => exact ⟨pass, [], rfl, (append_nil _).symm⟩
  | cons edge rest ih =>
      rw [expand]
      split_ifs with hskip hdepth hstop
      · exact ih pass
      · exact ih { pass with bounded := true }
      · exact hstop.elim
      · obtain ⟨pass', added, hpass', hqueue⟩ := ih { pass with
          seen := insert edge.target pass.seen
          queue := pass.queue ++ [(edge.target, payload, depth + 1)] }
        exact ⟨pass', (edge.target, payload, depth + 1) :: added, hpass', by simp [hqueue]⟩

/-- At the limit an expansion leaves queue and seen nodes alone. -/
theorem expand_none_at_limit {edges : List EdgeInput} {pass pass' : Pass π}
    (hpass' : expand none depth payload depth edges pass = some pass') :
    pass'.queue = pass.queue ∧ pass'.seen = pass.seen := by
  induction edges generalizing pass with
  | nil =>
      obtain rfl := some.inj hpass'
      exact ⟨rfl, rfl⟩
  | cons edge rest ih =>
      rw [expand] at hpass'
      by_cases hskip : edge.certainty ≠ .known ∨ edge.target ∈ pass.seen
      · rw [if_pos hskip] at hpass'
        exact ih hpass'
      · rw [if_neg hskip, if_pos rfl] at hpass'
        obtain ⟨hqueue, hseen⟩ := ih hpass'
        exact ⟨hqueue, hseen⟩

/-- Off both limits an expansion does the same under either. -/
theorem expand_none_congr {maxDepth maxDepth' : ℕ} (hdepth : depth ≠ maxDepth)
    (hdepth' : depth ≠ maxDepth') {edges : List EdgeInput} {first second first' second' : Pass π}
    (hqueue : second.queue = first.queue) (hseen : second.seen = first.seen)
    (hfirst : expand none maxDepth payload depth edges first = some first')
    (hsecond : expand none maxDepth' payload depth edges second = some second') :
    second'.queue = first'.queue ∧ second'.seen = first'.seen := by
  induction edges generalizing first second with
  | nil =>
      obtain rfl := some.inj hfirst
      obtain rfl := some.inj hsecond
      exact ⟨hqueue, hseen⟩
  | cons edge rest ih =>
      rw [expand] at hfirst hsecond
      rw [hseen] at hsecond
      by_cases hskip : edge.certainty ≠ .known ∨ edge.target ∈ first.seen
      · rw [if_pos hskip] at hfirst hsecond
        exact ih hqueue hseen hfirst hsecond
      · rw [if_neg hskip, if_neg hdepth, if_neg (by simp)] at hfirst
        rw [if_neg hskip, if_neg hdepth', if_neg (by simp)] at hsecond
        refine ih ?_ ?_ hfirst hsecond
        · rw [hqueue]
        · rfl

/-- The second pass runs under a deeper limit than `maxDepth`: it has done what the
first one did and holds what the first one cut off. -/
def Ahead (maxDepth : ℕ) (first second : Pass π) : Prop :=
  ∃ extra, second.queue = first.queue ++ extra ∧
    ((extra = [] ∧ second.seen = first.seen) ∨ ∀ p ∈ first.places, p.2 = maxDepth)

theorem Ahead.expand {graph : KnowledgeGraph} {source : NodeId → Prop} {maxDepth maxDepth' : ℕ}
    {done : List (NodeId × ℕ)} {first second first' second' : Pass π} {current : NodeId}
    {queue extra : List (NodeId × π × ℕ)} (hlt : maxDepth < maxDepth')
    (hinv : PassInv graph source maxDepth done first)
    (hqueue : first.queue = (current, payload, depth) :: queue)
    (hahead : (extra = [] ∧ second.seen = first.seen) ∨ ∀ p ∈ first.places, p.2 = maxDepth)
    (hfirst : Graph.expand none maxDepth payload depth (graph.outgoing current)
      { first with queue := queue } = some first')
    (hsecond : Graph.expand none maxDepth' payload depth (graph.outgoing current)
      { second with queue := queue ++ extra } = some second') :
    Ahead maxDepth first' second' := by
  have hplaces : first.places = (current, depth) :: queue.map fun e => (e.1, e.2.2) := by
    rw [Pass.places, hqueue, map_cons]
  have hfrontier := hinv.frontier
  rw [hplaces] at hfrontier
  have hwithin : ∀ p ∈ first.places, p.2 ≤ maxDepth := fun p hp =>
    hinv.frontier.within p (mem_append_right _ hp)
  by_cases hdepth : depth = maxDepth
  · -- the first pass is at its limit and only empties its queue from here on
    subst hdepth
    obtain ⟨hqueue', _⟩ := expand_none_at_limit hfirst
    obtain ⟨pass', added, hpass', happend⟩ :=
      expand_none_appends payload depth maxDepth'
        (graph.outgoing current) { second with queue := queue ++ extra }
    obtain rfl := some.inj (hpass'.symm.trans hsecond)
    refine ⟨extra ++ added, ?_, Or.inr ?_⟩
    · rw [happend, hqueue', append_assoc]
    · intro p hp
      rw [Pass.places, hqueue'] at hp
      have hmem : p ∈ (current, depth) :: queue.map fun e => (e.1, e.2.2) :=
        mem_cons_of_mem _ hp
      exact le_antisymm (hwithin p (hplaces ▸ hmem)) (hfrontier.front_le hmem)
  · have hfront : (current, depth) ∈ first.places := by
      rw [hplaces]
      exact mem_cons_self
    rcases hahead with ⟨rfl, hseen⟩ | hall
    · have hdepth' : depth ≠ maxDepth' := by
        have := hwithin _ hfront
        simp only at this
        omega
      obtain ⟨hqueue', hseen'⟩ := @expand_none_congr _ _ _ _ _ hdepth hdepth' _
        { first with queue := queue } { second with queue := queue ++ [] } _ _
        (append_nil _) hseen hfirst hsecond
      exact ⟨[], by rw [hqueue', append_nil], Or.inl ⟨rfl, hseen'⟩⟩
    · exact absurd (hall _ hfront) hdepth

end Deeper

/-- Uncertain evidence found under a limit is found under a deeper one. -/
theorem uncertainLoop_deeper {graph : KnowledgeGraph} {target : NodeId}
    {maxDepth maxDepth' fuel : ℕ} {first second : Pass EdgeEvidence} {evidence : EdgeEvidence}
    {bounded : Bool} (hlt : maxDepth < maxDepth')
    (hinv : PassInv graph graph.Tainted maxDepth done first) (hahead : Ahead maxDepth first second)
    (hfound : uncertainLoop graph target maxDepth fuel first = some (some evidence, bounded)) :
    ∃ bounded', uncertainLoop graph target maxDepth' fuel second =
      some (some evidence, bounded') := by
  induction fuel generalizing done first second with
  | zero => simp [uncertainLoop] at hfound
  | succ fuel ih =>
      obtain ⟨extra, hextra, hcase⟩ := hahead
      rw [uncertainLoop] at hfound
      cases hqueue : first.queue with
      | nil => simp [hqueue] at hfound
      | cons front queue =>
          obtain ⟨current, payload, depth⟩ := front
          rw [hqueue] at hextra hfound
          rw [uncertainLoop, hextra, cons_append]
          simp only at hfound ⊢
          split_ifs at hfound ⊢ with hcurrent
          · have hpayload := congrArg Prod.fst (some.inj hfound)
            exact ⟨second.bounded, by rw [show some payload = some evidence from hpayload]⟩
          · obtain ⟨first', hfirst', hinv'⟩ := expand_none_spec hqueue hinv
            obtain ⟨second', added, hsecond', _⟩ :=
              expand_none_appends payload depth maxDepth'
                (graph.outgoing current) { second with queue := queue ++ extra }
            rw [hfirst'] at hfound
            rw [hsecond']
            exact ih hinv' (Ahead.expand hlt hinv hqueue hcase hfirst' hsecond') hfound

/-! ## Classifications -/

/-- `reachability` classifies `target` with this outcome. -/
def Classified (graph : KnowledgeGraph) (target : NodeId) (maxDepth : ℕ)
    (outcome : Reachability) : Prop :=
  ∃ classification, graph.reachability target maxDepth = some (answer classification) ∧
    classification.outcome = outcome

/-- No evidence of any kind leads to `target`. -/
def Unevidenced (graph : KnowledgeGraph) (target : NodeId) : Prop :=
  (∀ start, graph.IsEntrypoint start → ¬ Relation.ReflTransGen graph.AnyStep start target) ∧
    ∀ edge ∈ graph.edges, edge.certainty ≠ .known →
      ¬ Relation.ReflTransGen graph.KnownStep edge.source target ∧
        ¬ Relation.ReflTransGen graph.KnownStep edge.target target

/-- The outcomes that the two passes decide. -/
inductive Decided (graph : KnowledgeGraph) (target : NodeId) (maxDepth : ℕ) :
    Reachability → Prop
  | known (k : ℕ) (hdistance : IsDistance graph.KnownStep graph.IsEntrypoint k target)
      (hlimit : k ≤ maxDepth) : Decided graph target maxDepth (.supporting (.knownPath k))
  | knownBound (hknown : Exhausted graph graph.IsEntrypoint maxDepth target true) :
      Decided graph target maxDepth (.unknown .depthBound)
  | uncertain (evidence : EdgeEvidence) (bounded : Bool)
      (hknown : Exhausted graph graph.IsEntrypoint maxDepth target false)
      (hpath : graph.uncertainPathTo target maxDepth = some (some evidence, bounded)) :
      Decided graph target maxDepth (.unknown (.uncertain evidence))
  | uncertainBound (hknown : Exhausted graph graph.IsEntrypoint maxDepth target false)
      (hpath : graph.uncertainPathTo target maxDepth = some (none, true)) :
      Decided graph target maxDepth (.unknown .depthBound)
  | unreachable (hknown : Exhausted graph graph.IsEntrypoint maxDepth target false)
      (hpath : graph.uncertainPathTo target maxDepth = some (none, false)) :
      Decided graph target maxDepth (.unreachable .noKnownPath)

/-- The part of `reachability` that depends on the depth. -/
theorem reachability_decided {graph : KnowledgeGraph} {target : NodeId} {node : NodeInput}
    (hnode : graph.node target = some node)
    (hcoverage : node.facts.containsValue "coverage".toList "partial".toList = false)
    (hrole : immediate node.role = none) (maxDepth : ℕ) :
    ∃ outcome, Classified graph target maxDepth outcome ∧
      Decided graph target maxDepth outcome := by
  have htarget : ¬ graph.IsEntrypoint target := by
    rintro ⟨other, hother, hentry, hid⟩
    obtain rfl := some.inj (hnode.symm.trans
      (KnowledgeGraph.node_eq_some_iff.mpr ⟨hother, hid⟩))
    simp [immediate, hentry] at hrole
  simp only [Classified, KnowledgeGraph.reachability, hnode, hcoverage, Bool.false_eq_true,
    ↓reduceIte, hrole]
  have hknown := knownDistanceTo_spec graph target maxDepth htarget
  generalize graph.knownDistanceTo target maxDepth = known at hknown
  cases hknown with
  | found k hdistance hlimit => exact ⟨_, ⟨_, rfl, rfl⟩, .known k hdistance hlimit⟩
  | missed knownBounded hexhausted =>
      cases knownBounded with
      | true => exact ⟨_, ⟨_, rfl, rfl⟩, .knownBound hexhausted⟩
      | false =>
          have huncertain := uncertainPathTo_spec graph target maxDepth
          cases hpath : graph.uncertainPathTo target maxDepth with
          | none =>
              rw [hpath] at huncertain
              cases huncertain
          | some result =>
              obtain ⟨evidence, bounded⟩ := result
              refine ⟨_, ⟨_, rfl, rfl⟩, ?_⟩
              cases evidence with
              | some evidence => exact .uncertain evidence bounded hexhausted hpath
              | none =>
                  cases bounded with
                  | true => exact .uncertainBound hexhausted hpath
                  | false => exact .unreachable hexhausted hpath

theorem Classified.unique {graph : KnowledgeGraph} {target : NodeId} {maxDepth : ℕ}
    {outcome outcome' : Reachability} (h : Classified graph target maxDepth outcome)
    (h' : Classified graph target maxDepth outcome') : outcome = outcome' := by
  obtain ⟨classification, hanswer, rfl⟩ := h
  obtain ⟨classification', hanswer', rfl⟩ := h'
  rw [hanswer] at hanswer'
  have heq := some.inj hanswer'
  simp only [answer, NodeQuery.found.injEq, Bounded.mk.injEq, List.cons.injEq, and_true] at heq
  rw [heq]

/-- How `reachability` comes to an answer. -/
inductive Answered (graph : KnowledgeGraph) (target : NodeId) : Prop
  | missing (hmissing : ∀ maxDepth, graph.reachability target maxDepth = some (.missing target))
  | fixed (outcome : Reachability) (houtcome : ∀ maxDepth, Classified graph target maxDepth outcome)
      (hreachable : ∀ reason, outcome ≠ .unreachable reason)
      (hpath : ∀ k, outcome ≠ .supporting (.knownPath k))
  | decided (hdecided : ∀ maxDepth, ∃ outcome, Classified graph target maxDepth outcome ∧
      Decided graph target maxDepth outcome) (hholds : Holds graph.nodes target)

theorem reachability_answered (graph : KnowledgeGraph) (target : NodeId) :
    Answered graph target := by
  cases hnode : graph.node target with
  | none => exact .missing fun maxDepth => by rw [KnowledgeGraph.reachability, hnode]
  | some node =>
      cases hcoverage : node.facts.containsValue "coverage".toList "partial".toList with
      | true =>
          refine .fixed (.unknown .partialCoverage) (fun maxDepth => ?_) (by simp) (by simp)
          simp only [Classified, KnowledgeGraph.reachability, hnode, hcoverage, ↓reduceIte]
          exact ⟨_, rfl, rfl⟩
      | false =>
          cases hrole : immediate node.role with
          | some outcome =>
              refine .fixed outcome (fun maxDepth => ?_) ?_ ?_
              · simp only [Classified, KnowledgeGraph.reachability, hnode, hcoverage,
                  Bool.false_eq_true, ↓reduceIte, hrole]
                exact ⟨_, rfl, rfl⟩
              · rintro reason rfl
                cases hrole' : node.role <;> simp [immediate, hrole'] at hrole
              · rintro k rfl
                cases hrole' : node.role <;> simp [immediate, hrole'] at hrole
          | none =>
              refine .decided (reachability_decided hnode hcoverage hrole) ?_
              obtain ⟨hmem, hid⟩ := KnowledgeGraph.node_eq_some_iff.mp hnode
              exact ⟨node, hmem, hid⟩

section Verdicts

variable {graph : KnowledgeGraph} {target : NodeId} {maxDepth maxDepth' : ℕ}
  {outcome : Reachability}

theorem Exhausted.not_reflTransGen {source : NodeId → Prop}
    (h : Exhausted graph source maxDepth target false) {start : NodeId} (hstart : source start) :
    ¬ Relation.ReflTransGen graph.KnownStep start target := by
  intro hpath
  obtain ⟨n, hwalk⟩ := exists_walk_iff.mpr hpath
  exact h.unreached n ⟨start, hstart, hwalk⟩

/-- A path over edges of any certainty either uses `Known` edges only or passes the
target of another edge, from where it goes on along `Known` edges. -/
theorem knownPath_or_tainted {start : NodeId} (hholds : Holds graph.nodes target)
    (hpath : Relation.ReflTransGen graph.AnyStep start target) :
    Relation.ReflTransGen graph.KnownStep start target ∨
      ∃ id, graph.Tainted id ∧ Relation.ReflTransGen graph.KnownStep id target := by
  induction hpath using Relation.ReflTransGen.head_induction_on with
  | refl => exact Or.inl .refl
  | @head source middle hstep htail ih =>
      rcases ih with hknown | htainted
      · obtain ⟨edge, hedge, rfl, rfl⟩ := hstep
        by_cases hcertainty : edge.certainty = .known
        · exact Or.inl (.head ⟨edge, hedge, hcertainty, rfl, rfl⟩ hknown)
        · have hmiddle : Holds graph.nodes edge.target := by
            rcases Relation.ReflTransGen.cases_head hknown with heq | ⟨next, hnext, _⟩
            · rw [heq]
              exact hholds
            · exact hnext.holds.1
          exact Or.inr ⟨_, ⟨edge, hedge, hcertainty, Or.inr ⟨rfl, hmiddle⟩⟩, hknown⟩
      · exact Or.inr htainted

theorem exhausted_of_uncertainPathTo {bounded : Bool}
    (hpath : graph.uncertainPathTo target maxDepth = some (none, bounded)) :
    Exhausted graph graph.Tainted maxDepth target bounded := by
  have hspec := uncertainPathTo_spec graph target maxDepth
  rw [hpath] at hspec
  cases hspec with
  | missed _ hexhausted => exact hexhausted

theorem reachedIn_of_uncertainPathTo {evidence : EdgeEvidence} {bounded : Bool}
    (hpath : graph.uncertainPathTo target maxDepth = some (some evidence, bounded)) :
    ∃ k, ReachedIn graph.KnownStep graph.Tainted k target := by
  have hspec := uncertainPathTo_spec graph target maxDepth
  rw [hpath] at hspec
  cases hspec with
  | found _ _ k hreached => exact ⟨k, hreached⟩

/-- Two complete passes rule out evidence of any kind. -/
theorem unevidenced_of_exhausted (hholds : Holds graph.nodes target)
    (hknown : Exhausted graph graph.IsEntrypoint maxDepth target false)
    (huncertain : Exhausted graph graph.Tainted maxDepth target false) :
    Unevidenced graph target := by
  refine ⟨fun start hstart hpath => ?_, fun edge hedge hcertainty => ⟨?_, fun hpath => ?_⟩⟩
  · rcases knownPath_or_tainted hholds hpath with hpath | ⟨id, htainted, hpath⟩
    · exact hknown.not_reflTransGen hstart hpath
    · exact huncertain.not_reflTransGen htainted hpath
  · exact huncertain.not_reflTransGen ⟨edge, hedge, hcertainty, Or.inl rfl⟩
  · have htarget : Holds graph.nodes edge.target := by
      rcases Relation.ReflTransGen.cases_head hpath with heq | ⟨next, hnext, _⟩
      · rw [heq]
        exact hholds
      · exact hnext.holds.1
    exact huncertain.not_reflTransGen ⟨edge, hedge, hcertainty, Or.inr ⟨rfl, htarget⟩⟩ hpath

theorem Classified.unevidenced {reason : ReachabilityReason}
    (h : Classified graph target maxDepth (.unreachable reason)) : Unevidenced graph target := by
  rcases reachability_answered graph target with hmissing | ⟨outcome, houtcome, hreachable, _⟩ |
    ⟨hdecided, hholds⟩
  · obtain ⟨classification, hanswer, _⟩ := h
    simp [hmissing maxDepth, answer] at hanswer
  · exact absurd ((houtcome maxDepth).unique h) (hreachable reason)
  · obtain ⟨outcome, houtcome, hcase⟩ := hdecided maxDepth
    obtain rfl := houtcome.unique h
    cases hcase with
    | unreachable hknown hpath =>
        exact unevidenced_of_exhausted hholds hknown (exhausted_of_uncertainPathTo hpath)

theorem Classified.isDistance {k : ℕ}
    (h : Classified graph target maxDepth (.supporting (.knownPath k))) :
    IsDistance graph.KnownStep graph.IsEntrypoint k target ∧ k ≤ maxDepth := by
  rcases reachability_answered graph target with hmissing | ⟨outcome, houtcome, _, hpath⟩ |
    ⟨hdecided, hholds⟩
  · obtain ⟨classification, hanswer, _⟩ := h
    simp [hmissing maxDepth, answer] at hanswer
  · exact absurd ((houtcome maxDepth).unique h) (hpath k)
  · obtain ⟨outcome, houtcome, hcase⟩ := hdecided maxDepth
    obtain rfl := houtcome.unique h
    cases hcase with
    | known _ hdistance hlimit => exact ⟨hdistance, hlimit⟩

/-- Uncertain evidence is found again under a deeper limit. -/
theorem uncertainPathTo_deeper {evidence : EdgeEvidence} {bounded : Bool}
    (hlt : maxDepth < maxDepth')
    (hpath : graph.uncertainPathTo target maxDepth = some (some evidence, bounded)) :
    ∃ bounded', graph.uncertainPathTo target maxDepth' = some (some evidence, bounded') :=
  uncertainLoop_deeper hlt (passInv_enqueueUncertain graph maxDepth)
    ⟨[], (append_nil _).symm, Or.inl ⟨rfl, rfl⟩⟩ hpath

/-- What one depth decides, every deeper one decides in the same way. -/
theorem Decided.stable (hlt : maxDepth < maxDepth') (h : Decided graph target maxDepth outcome)
    {outcome' : Reachability} (h' : Decided graph target maxDepth' outcome')
    (hbound : outcome ≠ .unknown .depthBound) : outcome' = outcome := by
  cases h with
  | knownBound _ | uncertainBound _ _ => exact absurd rfl hbound
  | known k hdistance hlimit =>
      -- the path is within the deeper limit, so no pass can miss it
      have hfound : ∀ {bounded}, ¬ Exhausted graph graph.IsEntrypoint maxDepth' target bounded :=
        fun hexhausted => by
          have := hexhausted.far hdistance.1
          omega
      cases h' with
      | known k' hdistance' _ => rw [hdistance.unique hdistance']
      | knownBound hknown' | uncertain _ _ hknown' _ | uncertainBound hknown' _
      | unreachable hknown' _ => exact absurd hknown' hfound
  | uncertain evidence bounded hknown hpath =>
      obtain ⟨bounded', hdeeper⟩ := uncertainPathTo_deeper hlt hpath
      cases h' with
      | known k' hdistance' _ => exact absurd hdistance'.1 (hknown.unreached k')
      | knownBound hknown' => exact absurd (hknown.complete_of_lt hknown' hlt) (by simp)
      | uncertain evidence' _ _ hpath' =>
          have heq := congrArg Prod.fst (some.inj (hpath'.symm.trans hdeeper))
          rw [some.inj heq]
      | uncertainBound _ hpath' | unreachable _ hpath' => simp [hpath'] at hdeeper
  | unreachable hknown hpath =>
      have huncertain := exhausted_of_uncertainPathTo hpath
      cases h' with
      | known k' hdistance' _ => exact absurd hdistance'.1 (hknown.unreached k')
      | knownBound hknown' => exact absurd (hknown.complete_of_lt hknown' hlt) (by simp)
      | uncertain _ _ _ hpath' =>
          obtain ⟨k, hreached⟩ := reachedIn_of_uncertainPathTo hpath'
          exact absurd hreached (huncertain.unreached k)
      | uncertainBound _ hpath' =>
          exact absurd (huncertain.complete_of_lt (exhausted_of_uncertainPathTo hpath') hlt)
            (by simp)
      | unreachable _ _ => rfl

theorem Classified.deeper (h : Classified graph target maxDepth outcome)
    (hle : maxDepth ≤ maxDepth') (hbound : outcome ≠ .unknown .depthBound) :
    Classified graph target maxDepth' outcome := by
  rcases reachability_answered graph target with hmissing | ⟨outcome', houtcome, _, _⟩ |
    ⟨hdecided, _⟩
  · obtain ⟨classification, hanswer, _⟩ := h
    simp [hmissing maxDepth, answer] at hanswer
  · obtain rfl := (houtcome maxDepth).unique h
    exact houtcome maxDepth'
  · rcases hle.eq_or_lt with rfl | hlt
    · exact h
    · obtain ⟨first, hfirst, hcase⟩ := hdecided maxDepth
      obtain ⟨second, hsecond, hcase'⟩ := hdecided maxDepth'
      obtain rfl := hfirst.unique h
      rw [hcase.stable hlt hcase' hbound] at hsecond
      exact hsecond

/-- The fuel of the passes is never used up. -/
theorem reachability_returns (graph : KnowledgeGraph) (target : NodeId) (maxDepth : ℕ) :
    graph.reachability target maxDepth = some (.missing target) ∨
      ∃ outcome, Classified graph target maxDepth outcome := by
  rcases reachability_answered graph target with hmissing | ⟨outcome, houtcome, _, _⟩ |
    ⟨hdecided, _⟩
  · exact Or.inl (hmissing maxDepth)
  · exact Or.inr ⟨outcome, houtcome maxDepth⟩
  · obtain ⟨outcome, houtcome, _⟩ := hdecided maxDepth
    exact Or.inr ⟨outcome, houtcome⟩

theorem Classified.node_id {classification : Classification}
    (h : graph.reachability target maxDepth = some (answer classification)) :
    classification.node.id = target := by
  have hevidence : ∃ node, graph.node target = some node ∧
      classification.node = nodeEvidence node := by
    have hinj : ∀ c : Classification, some (answer c) = some (answer classification) →
        classification.node = c.node := fun c hc => by
      simp only [answer, Option.some.injEq, NodeQuery.found.injEq, Bounded.mk.injEq,
        List.cons.injEq, and_true] at hc
      rw [hc]
    unfold KnowledgeGraph.reachability at h
    split at h
    · simp [answer] at h
    · next node hnode =>
        refine ⟨node, hnode, ?_⟩
        split_ifs at h
        · exact hinj _ h
        · split at h
          · exact hinj _ h
          · split at h
            · simp at h
            · split at h
              · simp at h
              · exact hinj _ h
  obtain ⟨node, hnode, heq⟩ := hevidence
  rw [heq]
  exact (KnowledgeGraph.node_eq_some_iff.mp hnode).2

/-- The loop of `zombies` returns, and it lists unreachable nodes only. -/
theorem zombiesFrom_spec (graph : KnowledgeGraph) (bounds : QueryBounds) (ids : List NodeId)
    {items : List Zombie}
    (hitems : ∀ zombie ∈ items,
      Classified graph zombie.node.id bounds.maxDepth (.unreachable zombie.reason)) :
    ∃ result, zombiesFrom graph bounds ids items = some result ∧ ∀ zombie ∈ result.items,
      Classified graph zombie.node.id bounds.maxDepth (.unreachable zombie.reason) := by
  induction ids generalizing items with
  | nil => exact ⟨_, rfl, hitems⟩
  | cons id rest ih =>
      rw [zombiesFrom]
      rcases reachability_returns graph id bounds.maxDepth with hmissing | ⟨outcome, hclassified⟩
      · rw [hmissing]
        exact ih hitems
      · obtain ⟨classification, hanswer, houtcome⟩ := hclassified
        rw [hanswer]
        simp only [answer]
        cases hcase : classification.outcome with
        | unreachable reason =>
            simp only
            split_ifs
            · exact ih hitems
            · exact ⟨_, rfl, hitems⟩
            · refine ih ?_
              intro zombie hzombie
              rcases mem_append.mp hzombie with hzombie | hzombie
              · exact hitems zombie hzombie
              · rw [mem_singleton] at hzombie
                subst hzombie
                refine ⟨classification, ?_, hcase⟩
                rw [Classified.node_id hanswer]
                exact hanswer
        | active _ | supporting _ | testOnly _ | generated _ | unknown _ => exact ih hitems

end Verdicts

/-- In every graph that `build` returns (its checks are the field `valid`), negative
verdicts are sound, known distances are exact, and a verdict that no limit decided is
returned under every deeper limit. -/
theorem reachability_sound_and_stable (graph : KnowledgeGraph) (target : NodeId)
    (maxDepth : ℕ) :
    (∃ result, graph.reachability target maxDepth = some result) ∧
      (∀ reason, Classified graph target maxDepth (.unreachable reason) →
        Unevidenced graph target) ∧
      (∀ maxResults, ∃ result, graph.zombies ⟨maxResults, maxDepth⟩ = some result ∧
        ∀ zombie ∈ result.items,
          Classified graph zombie.node.id maxDepth (.unreachable zombie.reason) ∧
            Unevidenced graph zombie.node.id) ∧
      (∀ depth, Classified graph target maxDepth (.supporting (.knownPath depth)) →
        IsDistance graph.KnownStep graph.IsEntrypoint depth target ∧ depth ≤ maxDepth) ∧
      ∀ maxDepth' ≥ maxDepth, ∀ outcome, Classified graph target maxDepth outcome →
        outcome ≠ .unknown .depthBound → Classified graph target maxDepth' outcome := by
  refine ⟨?_, fun reason h => h.unevidenced, fun maxResults => ?_, fun depth h => h.isDistance,
    fun maxDepth' hle outcome h hbound => h.deeper hle hbound⟩
  · rcases reachability_returns graph target maxDepth with hmissing | ⟨_, classification, hfound, _⟩
    · exact ⟨_, hmissing⟩
    · exact ⟨_, hfound⟩
  · obtain ⟨result, hresult, hitems⟩ := @zombiesFrom_spec graph ⟨maxResults, maxDepth⟩
      graph.nodeIds [] (by simp)
    exact ⟨result, hresult, fun zombie hzombie =>
      ⟨hitems zombie hzombie, (hitems zombie hzombie).unevidenced⟩⟩

end Bran.Graph
