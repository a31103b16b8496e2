import Bran.Library.OrdMap
import Mathlib.Data.List.Chain
import Mathlib.Data.List.Perm.Subperm

/-!
# Depth-first search for a directed cycle

The search colours every vertex: `0` before it is visited, `1` while it is on the
stack, `2` once it is left.  An edge into a vertex on the stack closes a cycle.
The recursion carries a fuel argument; `visit` without fuel has no outcome.

`Coloured` is the invariant between two looks at an edge.  Its last two fields are
what makes the answer complete: whatever was left has only left successors, and no
cycle goes through it.  `visit_spec` says what one visit does, and
`search_spec` what the search over a list of roots does.
-/

namespace CycleSearch

open List

variable {V : Type*} [LinearOrder V]

/-- The colours and the stack, last vertex last. -/
structure VisitState (V : Type*) [LinearOrder V] where
  colours : OrdMap V ℕ
  stack : List V

def VisitState.colour (state : VisitState V) (vertex : V) : ℕ :=
  (state.colours.find? vertex).getD 0

/-- What a visit comes to. -/
inductive Outcome (V : Type*) [LinearOrder V]
  | found (trail : List V)
  | done (state : VisitState V)
  | exhausted

/-- The loop over the successors of a vertex. -/
def visitTargets (visit : V → VisitState V → Outcome V) :
    List V → VisitState V → Outcome V
  | [], state => .done state
  | target :: rest, state =>
      if state.colour target = 0 then
        match visit target state with
        | .done state' => visitTargets visit rest state'
        | other => other
      else if state.colour target = 1 then
        .found (state.stack.drop (state.stack.idxOf target) ++ [target])
      else visitTargets visit rest state

/-- A vertex enters the stack. -/
def VisitState.enter (state : VisitState V) (vertex : V) : VisitState V :=
  ⟨state.colours.insert vertex 1, state.stack ++ [vertex]⟩

/-- The last vertex leaves the stack. -/
def VisitState.leave (state : VisitState V) (vertex : V) : VisitState V :=
  ⟨state.colours.insert vertex 2, state.stack.dropLast⟩

def visit (successors : V → List V) : ℕ → V → VisitState V → Outcome V
  | 0, _, _ => .exhausted
  | fuel + 1, vertex, state =>
      match visitTargets (visit successors fuel) (successors vertex) (state.enter vertex) with
      | .done state' => .done (state'.leave vertex)
      | other => other

/-- The loop over the roots of a search. -/
def search (successors : V → List V) (fuel : ℕ) : List V → VisitState V → Outcome V
  | [], state => .done state
  | root :: rest, state =>
      if state.colour root = 0 then
        match visit successors fuel root state with
        | .done state' => search successors fuel rest state'
        | other => other
      else search successors fuel rest state

/-! ## The invariant -/

/-- An edge of the searched graph. -/
def Step (successors : V → List V) (source target : V) : Prop := target ∈ successors source

def VisitState.Left (state : VisitState V) (vertex : V) : Prop :=
  state.colour vertex ≠ 0 ∧ state.colour vertex ≠ 1

/-- A closed walk along edges, with its first vertex repeated at the end. -/
def IsCycle (successors : V → List V) (trail : List V) : Prop :=
  2 ≤ trail.length ∧ trail.head? = trail.getLast? ∧ trail.IsChain (Step successors)

/-- What holds between two looks at an edge. -/
structure Coloured (successors : V → List V) (state : VisitState V) : Prop where
  grey : ∀ vertex, state.colour vertex = 1 ↔ vertex ∈ state.stack
  nodup : state.stack.Nodup
  chain : state.stack.IsChain (Step successors)
  closed : ∀ vertex, state.Left vertex → ∀ target ∈ successors vertex, state.Left target
  acyclic : ∀ vertex, state.Left vertex → ¬ Relation.TransGen (Step successors) vertex vertex

omit [LinearOrder V] in
/-- Some vertex of a closed walk reaches itself. -/
theorem IsCycle.transGen {successors : V → List V} {trail : List V}
    (h : IsCycle successors trail) : ∃ vertex, Relation.TransGen (Step successors) vertex vertex := by
  obtain ⟨hlength, hends, hchain⟩ := h
  have hwalk : ∀ (rest : List V) (first : V), (first :: rest).IsChain (Step successors) →
      ∀ last, (first :: rest).getLast? = some last →
        Relation.ReflTransGen (Step successors) first last := by
    intro rest
    induction rest with
    | nil =>
        intro first _ last hlast
        obtain rfl : first = last := by simpa using hlast
        exact .refl
    | cons second rest ih =>
        intro first hchain last hlast
        rw [isChain_cons_cons] at hchain
        rw [getLast?_cons_cons] at hlast
        exact (ih second hchain.2 last hlast).head hchain.1
  match trail, hlength, hends, hchain with
  | first :: second :: rest, _, hends, hchain =>
      rw [isChain_cons_cons] at hchain
      rw [head?_cons, getLast?_cons_cons] at hends
      exact ⟨first, .head' hchain.1 (hwalk rest second hchain.2 first hends.symm)⟩

theorem coloured_empty (successors : V → List V) :
    Coloured successors (⟨OrdMap.empty, []⟩ : VisitState V) := by
  refine ⟨?_, nodup_nil, isChain_nil, ?_, ?_⟩
  · simp [VisitState.colour]
  · intro vertex hleft
    exact absurd rfl hleft.1
  · intro vertex hleft
    exact absurd rfl hleft.1

section Steps

variable {successors : V → List V} {state : VisitState V} {vertex : V}

theorem colour_enter (state : VisitState V) (vertex other : V) :
    (state.enter vertex).colour other = if vertex = other then 1 else state.colour other := by
  unfold VisitState.colour VisitState.enter
  rw [OrdMap.find?_insert]
  split_ifs <;> rfl

theorem colour_leave (state : VisitState V) (vertex other : V) :
    (state.leave vertex).colour other = if vertex = other then 2 else state.colour other := by
  unfold VisitState.colour VisitState.leave
  rw [OrdMap.find?_insert]
  split_ifs <;> rfl

theorem left_enter (hwhite : state.colour vertex = 0) (other : V) :
    (state.enter vertex).Left other ↔ state.Left other := by
  unfold VisitState.Left
  rw [colour_enter]
  by_cases h : vertex = other
  · subst h
    simp [hwhite]
  · simp [h]

theorem left_leave (other : V) :
    (state.leave vertex).Left other ↔ vertex = other ∨ state.Left other := by
  unfold VisitState.Left
  rw [colour_leave]
  by_cases h : vertex = other <;> simp [h]

/-- Entering a white vertex behind the last one of the stack. -/
theorem Coloured.enter (h : Coloured successors state) (hwhite : state.colour vertex = 0)
    (hstep : ∀ last ∈ state.stack.getLast?, Step successors last vertex) :
    Coloured successors (state.enter vertex) := by
  have hnot : vertex ∉ state.stack := fun hmem => by
    have := (h.grey vertex).mpr hmem
    omega
  refine ⟨?_, ?_, ?_, ?_, ?_⟩
  · intro other
    rw [colour_enter, VisitState.enter, mem_append, mem_singleton, ← h.grey]
    by_cases heq : vertex = other
    · simp [heq]
    · simp [heq, Ne.symm heq]
  · rw [VisitState.enter, nodup_append]
    refine ⟨h.nodup, by simp, ?_⟩
    rintro a ha b hb rfl
    rw [mem_singleton] at hb
    exact hnot (hb ▸ ha)
  · rw [VisitState.enter, isChain_append]
    refine ⟨h.chain, isChain_singleton _, ?_⟩
    intro last hlast first hfirst
    obtain rfl : vertex = first := by simpa using hfirst
    exact hstep last hlast
  · intro other hleft target htarget
    rw [left_enter hwhite] at hleft ⊢
    exact h.closed other hleft target htarget
  · intro other hleft
    rw [left_enter hwhite] at hleft
    exact h.acyclic other hleft

theorem Coloured.left_of_reach (h : Coloured successors state) {source target : V}
    (hleft : state.Left source) (hreach : Relation.ReflTransGen (Step successors) source target) :
    state.Left target := by
  induction hreach with
  | refl => exact hleft
  | tail _ hstep ih => exact h.closed _ ih _ hstep

/-- Leaving a vertex once all its successors are left. -/
theorem Coloured.leave {stack : List V} (h : Coloured successors state)
    (hstack : state.stack = stack ++ [vertex])
    (htargets : ∀ target ∈ successors vertex, state.Left target) :
    Coloured successors (state.leave vertex) ∧ (state.leave vertex).stack = stack := by
  have hpopped : (state.leave vertex).stack = stack := by
    rw [VisitState.leave, hstack, dropLast_concat]
  have hnodup := h.nodup
  rw [hstack, nodup_append] at hnodup
  have hnot : vertex ∉ stack := fun hmem => hnodup.2.2 vertex hmem vertex (by simp) rfl
  have hgrey : state.colour vertex = 1 := (h.grey vertex).mpr (by rw [hstack]; simp)
  refine ⟨⟨?_, ?_, ?_, ?_, ?_⟩, hpopped⟩
  · intro other
    rw [hpopped, colour_leave]
    by_cases heq : vertex = other
    · subst heq
      simp [hnot]
    · rw [if_neg heq, h.grey, hstack]
      simp [Ne.symm heq]
  · rw [hpopped]
    exact hnodup.1
  · rw [hpopped]
    have hchain := h.chain
    rw [hstack, isChain_append] at hchain
    exact hchain.1
  · intro other hleft target htarget
    rw [left_leave] at hleft ⊢
    rcases hleft with rfl | hleft
    · exact Or.inr (htargets target htarget)
    · exact Or.inr (h.closed other hleft target htarget)
  · intro other hleft
    rw [left_leave] at hleft
    rcases hleft with rfl | hleft
    · -- a cycle through the vertex would make the vertex itself left
      intro hcycle
      obtain ⟨target, hstep, hreach⟩ := Relation.TransGen.head'_iff.mp hcycle
      exact (h.left_of_reach (htargets target hstep) hreach).2 hgrey
    · exact h.acyclic other hleft

/-- An edge from the last vertex of the stack into the stack closes a cycle. -/
theorem Coloured.cycle (h : Coloured successors state) {target last : V}
    (hlast : state.stack.getLast? = some last) (hstep : Step successors last target)
    (hgrey : state.colour target = 1) :
    IsCycle successors (state.stack.drop (state.stack.idxOf target) ++ [target]) := by
  have hmem := (h.grey target).mp hgrey
  have hlt : state.stack.idxOf target < state.stack.length := idxOf_lt_length_of_mem hmem
  have hdrop : state.stack.drop (state.stack.idxOf target) =
      target :: state.stack.drop (state.stack.idxOf target + 1) := by
    rw [drop_eq_getElem_cons hlt, getElem_idxOf hlt]
  refine ⟨?_, ?_, ?_⟩
  · rw [hdrop]
    simp
  · rw [hdrop, getLast?_append]
    simp
  · rw [isChain_append]
    refine ⟨h.chain.drop _, isChain_singleton _, ?_⟩
    intro before hbefore first hfirst
    obtain rfl : target = first := by simpa using hfirst
    have hlast' : (state.stack.drop (state.stack.idxOf target)).getLast? =
        state.stack.getLast? := by
      rw [getLast?_drop, if_neg (by omega)]
    rw [hlast', hlast] at hbefore
    obtain rfl : last = before := by simpa using hbefore
    exact hstep

end Steps

/-! ## The search -/

/-- What a visit that started in `before` may come to; `Goal` is what it has to leave. -/
inductive Visited (successors : V → List V) (before : VisitState V) (Goal : V → Prop) :
    Outcome V → Prop
  | found (trail : List V) (hcycle : IsCycle successors trail) :
      Visited successors before Goal (.found trail)
  | done (after : VisitState V) (hcoloured : Coloured successors after)
      (hstack : after.stack = before.stack)
      (hleft : ∀ vertex, before.Left vertex → after.Left vertex)
      (hgoal : ∀ vertex, Goal vertex → after.Left vertex) :
      Visited successors before Goal (.done after)

section Runs

variable {successors : V → List V} {vertices : List V}

/-- A vertex that has been left and then the others. -/
theorem Visited.cons {before after : VisitState V} {vertex : V} {rest : List V}
    {outcome : Outcome V} (h : Visited successors after (· ∈ rest) outcome)
    (hstack : after.stack = before.stack) (hleft : ∀ other, before.Left other → after.Left other)
    (hvertex : after.Left vertex) : Visited successors before (· ∈ vertex :: rest) outcome := by
  cases h with
  | found trail hcycle => exact .found trail hcycle
  | done final hfinal hstack' hleft' hgoal =>
      refine .done final hfinal (hstack'.trans hstack) (fun v hv => hleft' v (hleft v hv)) ?_
      exact forall_mem_cons.mpr ⟨hleft' vertex hvertex, hgoal⟩

/-- The loop over the successors, from what one visit does. -/
theorem visitTargets_spec {visit : V → VisitState V → Outcome V} {last : V}
    {stack targets : List V} (hlast : stack.getLast? = some last)
    (hvisit : ∀ target ∈ targets, ∀ state : VisitState V, Coloured successors state →
      state.stack = stack → state.colour target = 0 →
      Visited successors state (· = target) (visit target state))
    (hsteps : ∀ target ∈ targets, Step successors last target) {state : VisitState V}
    (hcoloured : Coloured successors state) (hstate : state.stack = stack) :
    Visited successors state (· ∈ targets) (visitTargets visit targets state) := by
  induction targets generalizing state with
  | nil => exact .done state hcoloured rfl (fun _ h => h) (by simp)
  | cons target rest ih =>
      have hrest : ∀ target ∈ rest, ∀ state : VisitState V, Coloured successors state →
          state.stack = stack → state.colour target = 0 →
          Visited successors state (· = target) (visit target state) := fun t ht =>
        hvisit t (mem_cons_of_mem _ ht)
      have hstepsRest : ∀ target ∈ rest, Step successors last target := fun t ht =>
        hsteps t (mem_cons_of_mem _ ht)
      rw [visitTargets]
      split_ifs with hwhite hgrey
      · have hnext := hvisit target (by simp) state hcoloured hstate hwhite
        generalize visit target state = outcome at hnext
        cases hnext with
        | found trail hcycle => exact .found trail hcycle
        | done after hafter hstack hleft hgoal =>
            have htail := ih hrest hstepsRest hafter (hstack.trans hstate)
            exact htail.cons hstack hleft (hgoal target rfl)
      · exact .found _ (hcoloured.cycle (hstate ▸ hlast) (hsteps target (by simp)) hgrey)
      · have htail := ih hrest hstepsRest hcoloured hstate
        exact htail.cons rfl (fun _ h => h) ⟨hwhite, hgrey⟩

/-- A visit finds a cycle or leaves its vertex; the fuel is used up only when the stack
would outgrow the graph. -/
theorem visit_spec (hclosed : ∀ vertex ∈ vertices, ∀ target ∈ successors vertex,
      target ∈ vertices) {fuel : ℕ} {vertex : V} {state : VisitState V}
    (hvertex : vertex ∈ vertices) (hstack : state.stack ⊆ vertices)
    (hfuel : vertices.length ≤ state.stack.length + fuel)
    (hcoloured : Coloured successors state) (hwhite : state.colour vertex = 0)
    (hstep : ∀ last ∈ state.stack.getLast?, Step successors last vertex) :
    Visited successors state (· = vertex) (visit successors fuel vertex state) := by
  induction fuel generalizing vertex state with
  | zero =>
      have hnodup := (hcoloured.enter hwhite hstep).nodup
      have hsubset : state.stack ++ [vertex] ⊆ vertices := by
        simpa [hvertex] using hstack
      have hle := (List.Nodup.subperm hnodup hsubset).length_le
      rw [VisitState.enter, length_append, length_singleton] at hle
      omega
  | succ fuel ih =>
      have hentered := hcoloured.enter hwhite hstep
      have hlast : (state.enter vertex).stack.getLast? = some vertex := by
        simp [VisitState.enter]
      have hinner : ∀ target ∈ successors vertex, ∀ inner : VisitState V,
          Coloured successors inner → inner.stack = (state.enter vertex).stack →
          inner.colour target = 0 →
          Visited successors inner (· = target) (visit successors fuel target inner) := by
        intro target htarget inner hcoloured' hinner hwhite'
        refine ih (hclosed vertex hvertex target htarget) ?_ ?_ hcoloured' hwhite' ?_
        · rw [hinner]
          simpa [VisitState.enter, hvertex] using hstack
        · rw [hinner, VisitState.enter, length_append, length_singleton]
          omega
        · intro last hlast'
          rw [hinner, hlast, Option.mem_some_iff] at hlast'
          exact hlast' ▸ htarget
      have htargets := visitTargets_spec hlast hinner (fun target htarget => htarget) hentered rfl
      rw [visit]
      generalize visitTargets (visit successors fuel) (successors vertex) (state.enter vertex) =
        outcome at htargets ⊢
      cases htargets with
      | found trail hcycle => exact .found trail hcycle
      | done after hafter hafterStack hleft hgoal =>
          obtain ⟨hleave, hpopped⟩ := hafter.leave hafterStack hgoal
          refine .done _ hleave hpopped (fun v hv => ?_) fun v hv => ?_
          · exact (left_leave v).mpr (Or.inr (hleft v ((left_enter hwhite v).mpr hv)))
          · exact (left_leave v).mpr (Or.inl hv.symm)

/-- The search over a list of roots: it ends, with a cycle or with every root left. -/
theorem search_spec (hclosed : ∀ vertex ∈ vertices, ∀ target ∈ successors vertex,
      target ∈ vertices) {fuel : ℕ} (hfuel : vertices.length ≤ fuel) {roots : List V}
    (hroots : roots ⊆ vertices) {state : VisitState V} (hcoloured : Coloured successors state)
    (hstack : state.stack = []) :
    Visited successors state (· ∈ roots) (search successors fuel roots state) := by
  induction roots generalizing state with
  | nil => exact .done state hcoloured rfl (fun _ h => h) (by simp)
  | cons root rest ih =>
      rw [cons_subset] at hroots
      rw [search]
      split_ifs with hwhite
      · have hvisit := @visit_spec _ _ _ _ hclosed fuel _ _ hroots.1 (by simp [hstack])
          (by simpa [hstack] using hfuel) hcoloured hwhite (by simp [hstack])
        generalize visit successors fuel root state = outcome at hvisit
        cases hvisit with
        | found trail hcycle => exact .found trail hcycle
        | done after hafter hafterStack hleft hgoal =>
            have htail := ih hroots.2 hafter (hafterStack.trans hstack)
            exact htail.cons hafterStack hleft (hgoal root rfl)
      · have htail := ih hroots.2 hcoloured hstack
        have hgrey : state.colour root ≠ 1 := fun h => by
          have := (hcoloured.grey root).mp h
          simp [hstack] at this
        exact htail.cons rfl (fun _ h => h) ⟨hwhite, hgrey⟩

/-- A search over every vertex that has a successor decides whether there is a cycle. -/
theorem search_decides {roots : List V} (hroots : ∀ vertex, successors vertex ≠ [] → vertex ∈ roots)
    {fuel : ℕ} (hfuel : (roots ++ roots.flatMap successors).length ≤ fuel) :
    (∃ trail, search successors fuel roots ⟨OrdMap.empty, []⟩ = .found trail ∧
        IsCycle successors trail) ∨
      ∃ state, search successors fuel roots ⟨OrdMap.empty, []⟩ = .done state ∧
        ∀ vertex, ¬ Relation.TransGen (Step successors) vertex vertex := by
  have hclosed : ∀ vertex ∈ roots ++ roots.flatMap successors, ∀ target ∈ successors vertex,
      target ∈ roots ++ roots.flatMap successors := by
    intro vertex _ target htarget
    have hroot := hroots vertex (ne_nil_of_mem htarget)
    exact mem_append_right _ (mem_flatMap.mpr ⟨vertex, hroot, htarget⟩)
  have hsearch := search_spec hclosed hfuel (subset_append_left _ _)
    (coloured_empty successors) rfl
  generalize search successors fuel roots ⟨OrdMap.empty, []⟩ = outcome at hsearch
  cases hsearch with
  | found trail hcycle => exact Or.inl ⟨trail, rfl, hcycle⟩
  | done final hfinal hfinalStack hleft hgoal =>
      refine Or.inr ⟨final, rfl, fun vertex hcycle => ?_⟩
      obtain ⟨target, hstep, _⟩ := Relation.TransGen.head'_iff.mp hcycle
      exact hfinal.acyclic vertex (hgoal vertex (hroots vertex (ne_nil_of_mem hstep))) hcycle

end Runs

end CycleSearch
