import Bran.Packet.Structural

/-!
# What a structural packet accounts for

The passes of `assemble_structural` are a single greedy admission: `plan` lists the
placements in their order, as a function of the request, and `placeNodes_eq` says that
the passes place exactly these.  `Tracks` relates the variables of the passes to the
outcome of the admission, and the accounting of the packet follows from the plan.

A packet counts as sufficient when the items that are not marked `non_authoritative`
offer everything the request demands.  The second pass marks no item, although it takes
nodes of any authority; `sufficiency_backed_iff` says when this makes a difference.
-/

namespace Bran.Packet

open Bran.Graph Validation Admission List
open Except (ok.inj ok.injEq)
open Option (some.injEq)

variable {request : StructuralPacketRequest}

variable {placement : Placement} {state state' : PacketState} {admitted placements : List Placement}
  {items : List StructuralPacketItem}

/-! ## The plan -/

section Plan

variable (request : StructuralPacketRequest)

/-- Places the nodes of a list, one after the other. -/
def placeAll : List Placement → PacketState → Except StructuralPacketError PacketState
  | [], state => .ok state
  | placement :: rest, state => do
      let state ← place request placement (state.decide placement.nodeId)
      placeAll rest state

/-- A property of the node of an identity. -/
def nodeHas (id : Str) (property : StructuralNode → Bool) : Bool :=
  (request.snapshot.node id).any property

/-- The placements of the first pass. -/
def primaryPlan : List Placement :=
  (request.ranking.selected.filter fun ranked =>
    nodeHas request ranked.nodeId (isPrimaryCanonical ranked)).map (primaryPlacement request)

/-- The traversal nodes that the second pass considers. -/
def isSourcePath (path : StructuralPathReceipt) : Bool :=
  path.nodeId ∉ request.selectedIds &&
    nodeHas request path.nodeId fun node =>
      node.lifecycle = .current && node.generatedStatus = .source

/-- What has been covered: domains and evidence classes. -/
abbrev Coverage := OrdSet Str × OrdSet EvidenceClass

/-- The coverage after a node with its trail. -/
def Coverage.add (covered : Coverage) (node : StructuralNode) (steps : List StructuralPathStep) :
    Coverage :=
  (covered.1.extend node.domains, covered.2.extend (lastEvidenceClass steps).toList)

/-- The paths of the second pass: each offers something that nothing before it covers. -/
def neededFrom : List StructuralPathReceipt → Coverage → List StructuralPathReceipt
  | [], _ => []
  | path :: rest, covered =>
      match request.snapshot.node path.nodeId with
      | none => neededFrom rest covered
      | some node =>
          if helps request node path covered.1 covered.2 then
            path :: neededFrom rest (Coverage.add covered node path.steps)
          else neededFrom rest covered

/-- The coverage of a list of placements that are all added. -/
def coverageFrom : List Placement → Coverage → Coverage
  | [], covered => covered
  | placement :: rest, covered =>
      match request.snapshot.node placement.nodeId with
      | none => coverageFrom rest covered
      | some node => coverageFrom rest (Coverage.add covered node placement.edgeTrail)

/-- The traversal paths that the second pass places. -/
def neededPaths : List StructuralPathReceipt :=
  neededFrom request (request.paths.filter (isSourcePath request))
    (coverageFrom request (primaryPlan request) (OrdMap.empty, OrdMap.empty))

/-- The placements of a list whose nodes are not placed by the plan so far. -/
def undecided (plan placements : List Placement) : List Placement :=
  placements.filter fun placement => placement.nodeId ∉ plan.map Placement.nodeId

/-- The plan after the first two passes. -/
def requiredPlan : List Placement :=
  primaryPlan request ++ (neededPaths request).map dependencyPlacement

/-- The plan after the third pass. -/
def conflictPlan : List Placement :=
  requiredPlan request ++
    undecided (requiredPlan request) ((lifecycleConflicts request).map conflictPlacement)

/-- The plan after the fourth pass. -/
def selectedPlan : List Placement :=
  conflictPlan request ++
    undecided (conflictPlan request) (request.ranking.selected.map (selectedPlacement request))

/-- Every placement of a request, in order. -/
def plan : List Placement :=
  selectedPlan request ++
    undecided (selectedPlan request) (request.paths.map (traversalPlacement request))

end Plan

/-! ## The passes follow the plan -/

/-- What the checks of a request guarantee. -/
structure Checked (request : StructuralPacketRequest) : Prop where
  ranking : BoundRanking request.snapshot request.ranking
  pathIds : (request.paths.map StructuralPathReceipt.nodeId).Nodup
  paths : ∀ path ∈ request.paths, HoldsStructural request.snapshot.nodes path.nodeId
  limits : request.limits.maxPacketBytes ≤ 1048576

theorem checked_of_checkRequest (h : checkRequest request = .ok ()) : Checked request := by
  simp only [checkRequest, check_bind_eq_ok_iff, bind_eq_ok_iff (α := Finset Str),
    failIf_eq_ok_iff, validateRankingReceipt_eq_ok_iff, not_or, not_lt, gt_iff_lt] at h
  obtain ⟨_, hlimits, rankedIds, ⟨hranking, _⟩, htraversal⟩ := h
  cases hcase : request.traversal with
  | none => exact ⟨hranking, by simp [StructuralPacketRequest.paths, hcase],
      by simp [StructuralPacketRequest.paths, hcase], hlimits.2.2.2.1⟩
  | some traversal =>
      rw [hcase] at htraversal
      simp only [check_bind_eq_ok_iff, validateTraversalReceipt_eq_ok_iff] at htraversal
      obtain ⟨hbound, _⟩ := htraversal
      refine ⟨hranking, ?_, ?_, hlimits.2.2.2.1⟩
      · simp only [StructuralPacketRequest.paths, hcase, hbound.pathNodes]
        exact hbound.distinct
      · simp only [StructuralPacketRequest.paths, hcase]
        exact fun path hpath => (hbound.visits path hpath).isNode

theorem node_eq_some_of_holds {id : Str} (h : HoldsStructural request.snapshot.nodes id) :
    ∃ node, request.snapshot.node id = some node ∧ receiptNode request.snapshot id = .ok node ∧
      node ∈ request.snapshot.nodes ∧ node.id = id := by
  obtain ⟨node, hnode, hid⟩ := h
  exact ⟨node, (SnapshotFields.node_eq_some_iff request.snapshot.isValid).mpr ⟨hnode, hid⟩,
    receiptNode_eq_ok_iff.mpr ⟨hnode, hid⟩, hnode, hid⟩

theorem placeAll_append (first second : List Placement) (state : PacketState) :
    placeAll request (first ++ second) state =
      placeAll request first state >>= placeAll request second := by
  induction first generalizing state with
  | nil => rfl
  | cons placement rest ih =>
      rw [cons_append, placeAll, placeAll, bind_assoc]
      exact bind_congr fun state => ih state

/-- A required placement is added when it does not fail. -/
theorem judgePlacement_ne_omit {itemCount packetBytes : ℕ}
    (hrequired : placement.tier.isRequired = true) (reason : StructuralPacketOmissionReason) :
    judgePlacement request itemCount packetBytes placement ≠ .ok (some reason) := by
  intro h
  simp only [judgePlacement, bind_eq_ok_iff (α := StructuralNode), bind_eq_ok_iff (α := ℕ)] at h
  obtain ⟨node, _, bytes, _, h⟩ := h
  split_ifs at h
  · rw [check_bind_eq_ok_iff, failIf_eq_ok_iff] at h
    exact h.1 hrequired
  · rw [bind_eq_ok_iff] at h
    obtain ⟨total, _, h⟩ := h
    split_ifs at h
    · rw [check_bind_eq_ok_iff, failIf_eq_ok_iff] at h
      exact h.1 hrequired
    · simp at h

/-- What `place` does, by the outcome of the judgement. -/
theorem place_eq_ok_iff :
    place request placement state = .ok state' ↔
      (∃ reason, judgePlacement request state.items.length state.packetBytes placement =
          .ok (some reason) ∧
        state' = { state with
          boundedOmissions :=
            state.boundedOmissions ++ [⟨placement.nodeId, placement.tier, reason⟩] }) ∨
      ∃ node ∈ request.snapshot.nodes, node.id = placement.nodeId ∧
        judgePlacement request state.items.length state.packetBytes placement = .ok none ∧
        state' = addItem request node placement state := by
  unfold place
  rw [bind_eq_ok_iff]
  constructor
  · rintro ⟨reason, hjudge, h⟩
    cases reason with
    | some reason => exact Or.inl ⟨reason, hjudge, (ok.inj h).symm⟩
    | none =>
        simp only [bind_eq_ok_iff (α := StructuralNode), receiptNode_eq_ok_iff] at h
        obtain ⟨node, ⟨hnode, hid⟩, h⟩ := h
        exact Or.inr ⟨node, hnode, hid, hjudge, (ok.inj h).symm⟩
  · rintro (⟨reason, hjudge, rfl⟩ | ⟨node, hnode, hid, hjudge, rfl⟩)
    · exact ⟨some reason, hjudge, rfl⟩
    · refine ⟨none, hjudge, ?_⟩
      simp only [bind_eq_ok_iff (α := StructuralNode)]
      exact ⟨node, receiptNode_eq_ok_iff.mpr ⟨hnode, hid⟩, rfl⟩

theorem decided_of_place (h : place request placement state = .ok state') :
    state'.decided = state.decided := by
  rcases place_eq_ok_iff.mp h with ⟨_, _, rfl⟩ | ⟨_, _, _, _, rfl⟩
  · rfl
  · rfl

/-- Placing nodes decides exactly these. -/
theorem decided_of_placeAll (h : placeAll request placements state = .ok state') (id : Str) :
    id ∈ state'.decided ↔ id ∈ state.decided ∨ id ∈ placements.map Placement.nodeId := by
  induction placements generalizing state with
  | nil =>
      obtain rfl := ok.inj h
      simp
  | cons placement rest ih =>
      rw [placeAll, bind_eq_ok_iff] at h
      obtain ⟨middle, hplace, hrest⟩ := h
      rw [ih hrest, decided_of_place hplace, PacketState.decide, Finset.mem_insert, map_cons,
        mem_cons]
      tauto

/-- A required placement that succeeds extends the coverage. -/
theorem coverage_of_place {placement : Placement} {state state' : PacketState}
    (hrequired : placement.tier.isRequired = true) (hmarked : placement.nonAuthoritative = false)
    {node : StructuralNode} (hnode : request.snapshot.node placement.nodeId = some node)
    (h : place request placement state = .ok state') :
    (state'.coveredDomains, state'.coveredClasses) =
      Coverage.add (state.coveredDomains, state.coveredClasses) node placement.edgeTrail := by
  rcases place_eq_ok_iff.mp h with ⟨reason, hjudge, _⟩ | ⟨other, hother, hid, _, rfl⟩
  · exact absurd hjudge (judgePlacement_ne_omit hrequired reason)
  · have hsame := (SnapshotFields.node_eq_some_iff request.snapshot.isValid).mpr ⟨hother, hid⟩
    rw [hnode, some.injEq] at hsame
    subst hsame
    simp [addItem, hmarked, Coverage.add]

/-- The first pass. -/
theorem placePrimary_eq {items : List RankingItemReceipt}
    (hholds : ∀ ranked ∈ items, HoldsStructural request.snapshot.nodes ranked.nodeId) :
    placePrimary request items state =
      placeAll request ((items.filter fun ranked =>
        nodeHas request ranked.nodeId (isPrimaryCanonical ranked)).map (primaryPlacement request))
        state := by
  induction items generalizing state with
  | nil => rfl
  | cons ranked rest ih =>
      obtain ⟨node, hlookup, hnode, _⟩ := node_eq_some_of_holds (hholds ranked mem_cons_self)
      have hrest := fun state => @ih state fun other hother =>
        hholds other (mem_cons_of_mem _ hother)
      have hhas : nodeHas request ranked.nodeId (isPrimaryCanonical ranked) =
          isPrimaryCanonical ranked node := by
        rw [nodeHas, hlookup]
        rfl
      rw [placePrimary, hnode, ok_bind, filter_cons, hhas]
      cases hprimary : isPrimaryCanonical ranked node with
      | false => exact hrest state
      | true => exact bind_congr fun state => hrest state

/-- The second pass; the paths it places are found by following its coverage alone. -/
theorem placeDependencies_eq {paths : List StructuralPathReceipt}
    (hids : (paths.map StructuralPathReceipt.nodeId).Nodup)
    (hholds : ∀ path ∈ paths, HoldsStructural request.snapshot.nodes path.nodeId)
    (hdecided : ∀ path ∈ paths, path.nodeId ∈ state.decided → path.nodeId ∈ request.selectedIds) :
    placeDependencies request paths state =
      placeAll request ((neededFrom request (paths.filter (isSourcePath request))
        (state.coveredDomains, state.coveredClasses)).map dependencyPlacement) state := by
  induction paths generalizing state with
  | nil => rfl
  | cons path rest ih =>
      rw [map_cons, nodup_cons] at hids
      obtain ⟨node, hlookup, hnode, _⟩ := node_eq_some_of_holds (hholds path mem_cons_self)
      have hrestHolds : ∀ other ∈ rest, HoldsStructural request.snapshot.nodes other.nodeId :=
        fun other hother => hholds other (mem_cons_of_mem _ hother)
      have hskip := ih hids.2 hrestHolds fun other hother =>
        hdecided other (mem_cons_of_mem _ hother)
      have hhas : ∀ property, nodeHas request path.nodeId property = property node := by
        intro property
        rw [nodeHas, hlookup]
        rfl
      rw [placeDependencies, filter_cons, isSourcePath, hhas]
      by_cases hselected : path.nodeId ∈ request.selectedIds
      · rw [if_pos (Or.inr hselected)]
        simpa [hselected] using hskip
      have hundecided : path.nodeId ∉ state.decided := fun hmem =>
        hselected (hdecided path mem_cons_self hmem)
      rw [if_neg (not_or.mpr ⟨hundecided, hselected⟩), hnode, ok_bind]
      by_cases hsource : node.lifecycle ≠ .current ∨ node.generatedStatus ≠ .source
      · have hfilter : (decide (path.nodeId ∉ request.selectedIds) &&
            (decide (node.lifecycle = .current) && decide (node.generatedStatus = .source))) =
            false := by
          rcases hsource with h | h <;> simp [h]
        rw [hfilter, if_pos hsource]
        exact hskip
      · have hfilter : (decide (path.nodeId ∉ request.selectedIds) &&
            (decide (node.lifecycle = .current) && decide (node.generatedStatus = .source))) =
            true := by
          rw [not_or, not_not, not_not] at hsource
          simp [hselected, hsource.1, hsource.2]
        rw [hfilter, if_neg hsource, if_pos rfl, neededFrom, hlookup]
        cases hhelps : helps request node path state.coveredDomains state.coveredClasses with
        | false => simpa [hhelps] using hskip
        | true =>
            simp only [hhelps, if_true, map_cons, placeAll]
            -- the node placed here is not on the rest of the list
            refine bind_congr_ok fun middle hplace => ?_
            have hcoverage := @coverage_of_place _ _ _ _ (by rfl) (by rfl) node hlookup hplace
            rw [ih hids.2 hrestHolds ?_, hcoverage]
            · rfl
            · intro other hother hmem
              rw [decided_of_place hplace, PacketState.decide, Finset.mem_insert] at hmem
              rcases hmem with heq | hmem
              · exact absurd (mem_map.mpr ⟨other, hother, heq⟩) hids.1
              · exact hdecided other (mem_cons_of_mem _ hother) hmem

/-- The other passes. -/
theorem placeUndecided_eq (hids : (placements.map Placement.nodeId).Nodup) :
    placeUndecided request placements state =
      placeAll request (placements.filter fun placement => placement.nodeId ∉ state.decided)
        state := by
  induction placements generalizing state with
  | nil => rfl
  | cons placement rest ih =>
      rw [map_cons, nodup_cons] at hids
      rw [placeUndecided, filter_cons]
      by_cases hdecided : placement.nodeId ∈ state.decided
      · rw [if_pos hdecided, ih hids.2]
        simp [hdecided]
      · simp only [hdecided, if_false, not_false_eq_true, decide_true, if_true, placeAll]
        refine bind_congr_ok fun middle hplace => ?_
        rw [ih hids.2]
        congr 1
        refine filter_congr fun other hother => ?_
        have hne : other.nodeId ≠ placement.nodeId := fun heq =>
          hids.1 (mem_map.mpr ⟨other, hother, heq⟩)
        simp only [decided_of_place hplace, PacketState.decide, Finset.mem_insert, hne, false_or]

/-- The coverage after placements that are all required. -/
theorem coverage_of_placeAll (hrequired : ∀ placement ∈ placements, placement.tier.isRequired = true
    ∧ placement.nonAuthoritative = false) (h : placeAll request placements state = .ok state') :
    (state'.coveredDomains, state'.coveredClasses) =
      coverageFrom request placements (state.coveredDomains, state.coveredClasses) := by
  induction placements generalizing state with
  | nil =>
      obtain rfl := ok.inj h
      rfl
  | cons placement rest ih =>
      rw [placeAll, bind_eq_ok_iff] at h
      obtain ⟨middle, hplace, hrest⟩ := h
      obtain ⟨htier, hmarked⟩ := hrequired placement mem_cons_self
      have hnode : ∃ node, request.snapshot.node placement.nodeId = some node := by
        rcases place_eq_ok_iff.mp hplace with ⟨reason, hjudge, _⟩ | ⟨node, hnode, hid, _, _⟩
        · exact absurd hjudge (judgePlacement_ne_omit htier reason)
        · exact ⟨node, (SnapshotFields.node_eq_some_iff request.snapshot.isValid).mpr
            ⟨hnode, hid⟩⟩
      obtain ⟨node, hlookup⟩ := hnode
      have hcoverage := coverage_of_place htier hmarked hlookup hplace
      rw [ih (fun other hother => hrequired other (mem_cons_of_mem _ hother)) hrest,
        coverageFrom, hlookup, hcoverage]
      rfl

/-! ## The nodes of the plan -/

section PlanNodes

theorem primaryPlan_spec {placement : Placement} (h : placement ∈ primaryPlan request) :
    placement.tier = .primaryCanonical ∧ placement.nonAuthoritative = false ∧
      placement.nodeId ∈ request.selectedIds := by
  obtain ⟨ranked, hranked, rfl⟩ := mem_map.mp h
  exact ⟨rfl, rfl, mem_map_of_mem (mem_of_mem_filter hranked)⟩

theorem neededFrom_sublist (paths : List StructuralPathReceipt) (covered : Coverage) :
    (neededFrom request paths covered).Sublist paths := by
  induction paths generalizing covered with
  | nil => exact List.Sublist.refl _
  | cons path rest ih =>
      rw [neededFrom]
      cases request.snapshot.node path.nodeId with
      | none => exact (ih covered).cons path
      | some node =>
          show (if _ then _ else _ : List StructuralPathReceipt).Sublist _
          split_ifs
          · exact (ih _).cons_cons path
          · exact (ih covered).cons path

theorem mem_neededPaths {path : StructuralPathReceipt} (h : path ∈ neededPaths request) :
    path ∈ request.paths ∧ isSourcePath request path = true :=
  mem_filter.mp ((neededFrom_sublist _ _).subset h)

theorem isSourcePath_iff {path : StructuralPathReceipt} :
    isSourcePath request path = true ↔
      path.nodeId ∉ request.selectedIds ∧
        ∃ node, request.snapshot.node path.nodeId = some node ∧ node.lifecycle = .current ∧
          node.generatedStatus = .source := by
  simp [isSourcePath, nodeHas, Option.any_eq_true]

/-- The placements of a list with distinct nodes extend a plan with distinct nodes. -/
theorem nodup_append_undecided {plan placements : List Placement}
    (hplan : (plan.map Placement.nodeId).Nodup)
    (hplacements : (placements.map Placement.nodeId).Nodup) :
    ((plan ++ undecided plan placements).map Placement.nodeId).Nodup := by
  rw [map_append, nodup_append]
  refine ⟨hplan, hplacements.sublist (filter_sublist.map _), ?_⟩
  intro id hid other hother heq
  obtain ⟨placement, hplacement, rfl⟩ := mem_map.mp hother
  have hnew := (mem_filter.mp hplacement).2
  rw [decide_eq_true_iff] at hnew
  exact hnew (heq ▸ hid)

/-- The extended plan holds the nodes of both. -/
theorem mem_append_undecided {plan placements : List Placement} {id : Str} :
    id ∈ (plan ++ undecided plan placements).map Placement.nodeId ↔
      id ∈ plan.map Placement.nodeId ∨ id ∈ placements.map Placement.nodeId := by
  rw [map_append, mem_append]
  constructor
  · rintro (hold | hnew)
    · exact Or.inl hold
    · exact Or.inr (map_subset _ (fun _ h => mem_of_mem_filter h) hnew)
  · rintro (hold | hnew)
    · exact Or.inl hold
    · by_cases hmem : id ∈ plan.map Placement.nodeId
      · exact Or.inl hmem
      · obtain ⟨placement, hplacement, rfl⟩ := mem_map.mp hnew
        exact Or.inr (mem_map_of_mem (mem_filter.mpr ⟨hplacement, decide_eq_true hmem⟩))

theorem selectedIds_nodup (h : Checked request) : request.selectedIds.Nodup := by
  have hdistinct := h.ranking.distinct
  rw [map_append, nodup_append] at hdistinct
  exact hdistinct.1

theorem conflictIds_nodup (h : Checked request) :
    ((lifecycleConflicts request).map RankingItemReceipt.nodeId).Nodup := by
  have hdistinct := h.ranking.distinct
  rw [map_append, nodup_append] at hdistinct
  exact hdistinct.2.1.sublist (filter_sublist.map _)

theorem requiredPlan_nodup (h : Checked request) :
    ((requiredPlan request).map Placement.nodeId).Nodup := by
  have hprimary : (primaryPlan request).map Placement.nodeId =
      (request.ranking.selected.filter fun ranked =>
        nodeHas request ranked.nodeId (isPrimaryCanonical ranked)).map
          RankingItemReceipt.nodeId := by
    rw [primaryPlan, map_map]
    rfl
  have hneeded : ((neededPaths request).map dependencyPlacement).map Placement.nodeId =
      (neededPaths request).map StructuralPathReceipt.nodeId := by
    rw [map_map]
    rfl
  rw [requiredPlan, map_append, nodup_append, hneeded]
  refine ⟨?_, ?_, ?_⟩
  · rw [hprimary]
    exact (selectedIds_nodup h).sublist (filter_sublist.map _)
  · exact h.pathIds.sublist
      (((neededFrom_sublist _ _).trans filter_sublist).map StructuralPathReceipt.nodeId)
  · intro id hid other hother heq
    obtain ⟨placement, hplacement, rfl⟩ := mem_map.mp hid
    obtain ⟨path, hpath, rfl⟩ := mem_map.mp hother
    have hselected := (primaryPlan_spec hplacement).2.2
    exact (isSourcePath_iff.mp (mem_neededPaths hpath).2).1 (heq ▸ hselected)

theorem map_nodeId_conflicts :
    ((lifecycleConflicts request).map conflictPlacement).map Placement.nodeId =
      (lifecycleConflicts request).map RankingItemReceipt.nodeId := by
  rw [map_map]
  rfl

theorem map_nodeId_selected :
    (request.ranking.selected.map (selectedPlacement request)).map Placement.nodeId =
      request.selectedIds := by
  rw [map_map]
  rfl

theorem map_nodeId_traversal :
    (request.paths.map (traversalPlacement request)).map Placement.nodeId =
      request.paths.map StructuralPathReceipt.nodeId := by
  rw [map_map]
  rfl

/-- No node is placed twice. -/
theorem plan_nodup (h : Checked request) : ((plan request).map Placement.nodeId).Nodup := by
  have hconflict : ((conflictPlan request).map Placement.nodeId).Nodup :=
    nodup_append_undecided (requiredPlan_nodup h) (map_nodeId_conflicts ▸ conflictIds_nodup h)
  have hselected : ((selectedPlan request).map Placement.nodeId).Nodup :=
    nodup_append_undecided hconflict (map_nodeId_selected ▸ selectedIds_nodup h)
  exact nodup_append_undecided hselected (map_nodeId_traversal ▸ h.pathIds)

/-- The plan places the selected nodes, the conflicts and the traversal nodes. -/
theorem mem_plan {id : Str} :
    id ∈ (plan request).map Placement.nodeId ↔
      id ∈ request.selectedIds ∨
        id ∈ (lifecycleConflicts request).map RankingItemReceipt.nodeId ∨
        id ∈ request.paths.map StructuralPathReceipt.nodeId := by
  have hrequired : id ∈ (requiredPlan request).map Placement.nodeId →
      id ∈ request.selectedIds ∨ id ∈ request.paths.map StructuralPathReceipt.nodeId := by
    intro hid
    rw [requiredPlan, map_append, mem_append] at hid
    rcases hid with hid | hid
    · obtain ⟨placement, hplacement, rfl⟩ := mem_map.mp hid
      exact Or.inl (primaryPlan_spec hplacement).2.2
    · obtain ⟨placement, hplacement, rfl⟩ := mem_map.mp hid
      obtain ⟨path, hpath, rfl⟩ := mem_map.mp hplacement
      exact Or.inr (mem_map_of_mem (mem_neededPaths hpath).1)
  rw [plan, mem_append_undecided, selectedPlan, mem_append_undecided, conflictPlan,
    mem_append_undecided, map_nodeId_conflicts, map_nodeId_selected, map_nodeId_traversal]
  tauto

end PlanNodes

/-- The passes place the nodes of the plan. -/
theorem placeNodes_eq (h : Checked request) :
    placeNodes request = placeAll request (plan request) .start := by
  have hselectedHolds : ∀ ranked ∈ request.ranking.selected,
      HoldsStructural request.snapshot.nodes ranked.nodeId := by
    intro ranked hranked
    obtain ⟨node, hnode, hdescribes⟩ := h.ranking.described ranked
      (mem_append_left _ hranked)
    exact ⟨node, hnode, hdescribes.1.symm⟩
  -- the variables before a later pass, in terms of the plan so far
  have hlater : ∀ {planned placements : List Placement} {state : PacketState},
      placeAll request planned .start = .ok state → (placements.map Placement.nodeId).Nodup →
      placeUndecided request placements state =
        placeAll request (undecided planned placements) state := by
    intro planned placements state hstate hids
    rw [placeUndecided_eq hids, undecided]
    congr 1
    refine filter_congr fun placement _ => ?_
    simp only [decided_of_placeAll hstate, PacketState.start, Finset.notMem_empty, false_or]
  have hrequired : placePrimary request request.ranking.selected .start >>=
      placeDependencies request request.paths = placeAll request (requiredPlan request) .start := by
    rw [placePrimary_eq hselectedHolds, requiredPlan, placeAll_append]
    refine bind_congr_ok fun state hstate => ?_
    have hcoverage := coverage_of_placeAll (fun placement hplacement => by
      have hspec := @primaryPlan_spec request _ hplacement
      exact ⟨by rw [hspec.1]; rfl, hspec.2.1⟩) hstate
    rw [placeDependencies_eq h.pathIds h.paths ?_, hcoverage]
    · rfl
    · intro path _ hmem
      rw [decided_of_placeAll hstate] at hmem
      rcases hmem with hmem | hmem
      · exact absurd hmem (Finset.notMem_empty _)
      · obtain ⟨placement, hplacement, heq⟩ := mem_map.mp hmem
        exact heq ▸ (@primaryPlan_spec request _ hplacement).2.2
  have hsplit : placeNodes request =
      (placePrimary request request.ranking.selected .start >>=
        placeDependencies request request.paths) >>= fun state =>
      placeUndecided request ((lifecycleConflicts request).map conflictPlacement) state >>=
        fun state =>
      placeUndecided request (request.ranking.selected.map (selectedPlacement request)) state >>=
        fun state => placeUndecided request (request.paths.map (traversalPlacement request)) state := by
    rw [placeNodes, bind_assoc]
  rw [hsplit, hrequired, plan, placeAll_append, selectedPlan, placeAll_append, conflictPlan,
    placeAll_append, bind_assoc, bind_assoc]
  refine bind_congr_ok fun first hfirst => ?_
  rw [hlater hfirst (map_nodeId_conflicts ▸ conflictIds_nodup h)]
  refine bind_congr_ok fun second hsecond => ?_
  have hconflict : placeAll request (conflictPlan request) .start = .ok second := by
    rw [conflictPlan, placeAll_append, hfirst]
    exact hsecond
  rw [← conflictPlan, hlater hconflict (map_nodeId_selected ▸ selectedIds_nodup h)]
  refine bind_congr_ok fun third hthird => ?_
  have hselected : placeAll request (selectedPlan request) .start = .ok third := by
    rw [selectedPlan, placeAll_append, hconflict]
    exact hthird
  rw [← selectedPlan, hlater hselected (map_nodeId_traversal ▸ h.pathIds)]

/-! ## The admission behind the passes -/

/-- Something a request may require. -/
inductive Demand
  | domain (domain : Str)
  | evidence (evidence : EvidenceClass)

section Admission

variable (request : StructuralPacketRequest)

/-- The request requires it. -/
def Demanded : Demand → Prop
  | .domain domain => domain ∈ request.requiredDomains
  | .evidence evidence => evidence ∈ request.requiredEvidenceClasses

/-- A node with the trail that led to it offers it. -/
def Offers (node : StructuralNode) (steps : List StructuralPathStep) : Demand → Prop
  | .domain domain => domain ∈ node.domains
  | .evidence evidence => lastEvidenceClass steps = some evidence

/-- It is among the covered domains or classes. -/
def Covers (covered : Coverage) : Demand → Prop
  | .domain domain => domain ∈ covered.1.keys
  | .evidence evidence => evidence ∈ covered.2.keys

/-- A placement offers it. -/
def Provides (placement : Placement) (demand : Demand) : Prop :=
  ∃ node ∈ request.snapshot.nodes, node.id = placement.nodeId ∧
    Offers node placement.edgeTrail demand

def placementBytes (placement : Placement) : ℕ :=
  match request.snapshot.node placement.nodeId with
  | some node => itemBytes request node placement
  | none => 0

/-- The bytes of the placements added so far. -/
def usedBytes (placements : List Placement) : ℕ := (placements.map (placementBytes request)).sum

/-- The judgement of a placement after those added so far. -/
def judge (admitted : List Placement) (placement : Placement) :
    Except StructuralPacketError (Option StructuralPacketOmissionReason) :=
  judgePlacement request admitted.length (usedBytes request admitted) placement

def omissionOf (omitted : Placement × StructuralPacketOmissionReason) :
    StructuralPacketOmission :=
  ⟨omitted.1.nodeId, omitted.1.tier, omitted.2⟩

def ItemOf (placement : Placement) (item : StructuralPacketItem) : Prop :=
  ∃ node ∈ request.snapshot.nodes, node.id = placement.nodeId ∧
    item = structuralItem request node placement

/-- The variables of the passes, as far as they are determined by the outcome of the
admission. -/
structure Tracks (outcome : Outcome Placement StructuralPacketOmissionReason)
    (state : PacketState) : Prop where
  items : List.Forall₂ (ItemOf request) outcome.admitted state.items
  packetBytes : state.packetBytes = usedBytes request outcome.admitted
  boundedOmissions : state.boundedOmissions = outcome.omitted.map omissionOf
  covered : ∀ demand, Covers (state.coveredDomains, state.coveredClasses) demand ↔
    ∃ placement ∈ outcome.admitted, placement.nonAuthoritative = false ∧
      Provides request placement demand

end Admission

theorem covers_add {covered : Coverage} {node : StructuralNode}
    {steps : List StructuralPathStep} {demand : Demand} :
    Covers (Coverage.add covered node steps) demand ↔
      Covers covered demand ∨ Offers node steps demand := by
  cases demand with
  | domain domain => exact OrdSet.mem_keys_extend
  | evidence evidence =>
      show evidence ∈ (covered.2.extend _).keys ↔ _
      rw [OrdSet.mem_keys_extend, Option.mem_toList]
      rfl

theorem provides_iff {placement : Placement} {node : StructuralNode} {demand : Demand}
    (hnode : node ∈ request.snapshot.nodes) (hid : node.id = placement.nodeId) :
    Provides request placement demand ↔ Offers node placement.edgeTrail demand := by
  refine ⟨?_, fun h => ⟨node, hnode, hid, h⟩⟩
  rintro ⟨other, hother, hsame, h⟩
  have heq : other = node :=
    inj_on_of_nodup_map request.snapshot.isValid.indexable.nodeIds hother hnode
      (hsame.trans hid.symm)
  exact heq ▸ h

theorem placementBytes_eq {node : StructuralNode} (hnode : node ∈ request.snapshot.nodes)
    (hid : node.id = placement.nodeId) :
    placementBytes request placement = itemBytes request node placement := by
  rw [placementBytes, (SnapshotFields.node_eq_some_iff request.snapshot.isValid).mpr ⟨hnode, hid⟩]

/-- One placement: the variables keep following the admission. -/
theorem Tracks.step {outcome : Outcome Placement StructuralPacketOmissionReason}
    (h : Tracks request outcome state)
    (hplace : place request placement (state.decide placement.nodeId) = .ok state') :
    ∃ reason, judge request outcome.admitted placement = .ok reason ∧
      Tracks request (outcome.add placement reason) state' := by
  have hlength : state.items.length = outcome.admitted.length := h.items.length_eq.symm
  have hjudge : judgePlacement request state.items.length state.packetBytes placement =
      judge request outcome.admitted placement := by
    rw [judge, hlength, h.packetBytes]
  rcases place_eq_ok_iff.mp hplace with ⟨reason, hreason, rfl⟩ | ⟨node, hnode, hid, hreason, rfl⟩
  · refine ⟨some reason, hjudge.symm.trans hreason, h.items, h.packetBytes, ?_, h.covered⟩
    show state.boundedOmissions ++ [_] = (outcome.omitted ++ [_]).map omissionOf
    rw [map_append, h.boundedOmissions]
    rfl
  · refine ⟨none, hjudge.symm.trans hreason, ?_, ?_, h.boundedOmissions, ?_⟩
    · exact rel_append h.items (.cons ⟨node, hnode, hid, rfl⟩ .nil)
    · show state.packetBytes + itemBytes request node placement = ((outcome.admitted ++ [_]).map _).sum
      rw [map_append, sum_append, h.packetBytes, usedBytes,
        ← placementBytes_eq hnode hid]
      simp
    · intro demand
      have hprovides := @provides_iff request _ _ demand hnode hid
      have hsplit : (∃ other ∈ (outcome.add placement none).admitted,
          other.nonAuthoritative = false ∧ Provides request other demand) ↔
          Covers (state.coveredDomains, state.coveredClasses) demand ∨
            (placement.nonAuthoritative = false ∧ Offers node placement.edgeTrail demand) := by
        rw [h.covered, ← hprovides]
        simp [Outcome.add, or_and_right, exists_or]
      rw [hsplit]
      cases hmarked : placement.nonAuthoritative with
      | true => simp [addItem, hmarked, PacketState.decide]
      | false =>
          have hadd := @covers_add (state.coveredDomains, state.coveredClasses) node
            placement.edgeTrail demand
          simpa [addItem, hmarked, PacketState.decide, Coverage.add] using hadd

/-- Placing a list of nodes admits them. -/
theorem tracks_placeAll {outcome : Outcome Placement StructuralPacketOmissionReason}
    (htracks : Tracks request outcome state) (h : placeAll request placements state = .ok state') :
    ∃ outcome', admitAll (judge request) placements outcome = .ok outcome' ∧
      Tracks request outcome' state' := by
  induction placements generalizing outcome state with
  | nil =>
      obtain rfl := ok.inj h
      exact ⟨outcome, rfl, htracks⟩
  | cons placement rest ih =>
      rw [placeAll, bind_eq_ok_iff] at h
      obtain ⟨middle, hplace, hrest⟩ := h
      obtain ⟨reason, hjudge, hmiddle⟩ := htracks.step hplace
      obtain ⟨outcome', hadmission, hfinal⟩ := ih hmiddle hrest
      refine ⟨outcome', ?_, hfinal⟩
      rw [admitAll, hjudge]
      exact hadmission

/-- The passes end with the outcome of the admission of the plan. -/
theorem tracks_placeNodes (hchecked : Checked request) (h : placeNodes request = .ok state) :
    ∃ outcome, admitAll (judge request) (plan request) .empty = .ok outcome ∧
      Tracks request outcome state := by
  rw [placeNodes_eq hchecked] at h
  refine tracks_placeAll ⟨.nil, rfl, rfl, ?_⟩ h
  intro demand
  cases demand <;> simp [Covers, PacketState.start, Outcome.empty]

/-- A placement is added when there is room for one more item and for its bytes. -/
theorem judge_eq_none_iff (hchecked : Checked request) :
    judge request admitted placement = .ok none ↔
      HoldsStructural request.snapshot.nodes placement.nodeId ∧
        admitted.length ≠ request.limits.maxItems ∧
        usedBytes request admitted + placementBytes request placement ≤
          request.limits.maxPacketBytes := by
  have hlimit := hchecked.limits
  unfold judge judgePlacement
  constructor
  · intro h
    simp only [bind_eq_ok_iff (α := StructuralNode), bind_eq_ok_iff (α := ℕ),
      receiptNode_eq_ok_iff, checkedAdd_eq_ok_iff] at h
    obtain ⟨node, ⟨hnode, hid⟩, bytes, ⟨_, rfl⟩, h⟩ := h
    split_ifs at h with hitems
    · simp only [check_bind_eq_ok_iff, ok.injEq] at h
      exact absurd h.2 (by simp)
    · simp only [bind_eq_ok_iff (α := ℕ), checkedAdd_eq_ok_iff] at h
      obtain ⟨total, ⟨_, rfl⟩, h⟩ := h
      split_ifs at h with hbytes
      · simp only [check_bind_eq_ok_iff, ok.injEq] at h
        exact absurd h.2 (by simp)
      · rw [placementBytes_eq hnode hid, itemBytes]
        exact ⟨⟨node, hnode, hid⟩, hitems, not_lt.mp hbytes⟩
  · rintro ⟨⟨node, hnode, hid⟩, hitems, hbytes⟩
    rw [placementBytes_eq hnode hid, itemBytes] at hbytes
    rw [receiptNode_eq_ok_iff.mpr ⟨hnode, hid⟩, ok_bind, checkedAdd_eq_ok (by omega), ok_bind,
      if_neg hitems, checkedAdd_eq_ok (by omega), ok_bind, if_neg (not_lt.mpr hbytes)]

/-! ## Accounting -/

def StructuralPacketItem.bytes (item : StructuralPacketItem) : ℕ :=
  Text.byteLen item.locator + item.excerptBytes

/-- The accounting of a packet: every node in one place, and all sums within the bounds. -/
structure Accounted (request : StructuralPacketRequest) (packet : StructuralPacket) : Prop where
  once : (packet.items.map StructuralPacketItem.nodeId ++
    packet.receipt.boundedOmissions.map StructuralPacketOmission.nodeId).Nodup
  placed : ∀ id, (id ∈ packet.items.map StructuralPacketItem.nodeId ∨
      id ∈ packet.receipt.boundedOmissions.map StructuralPacketOmission.nodeId) ↔
    id ∈ request.selectedIds ∨
      id ∈ (lifecycleConflicts request).map RankingItemReceipt.nodeId ∨
      id ∈ request.paths.map StructuralPathReceipt.nodeId
  itemsLe : packet.items.length ≤ request.limits.maxItems
  excerptBytes : ∀ item ∈ packet.items, item.excerptBytes = Text.byteLen item.excerpt
  totalBytes : (packet.items.map StructuralPacketItem.bytes).sum =
    packet.receipt.totalPacketBytes
  bytesLe : packet.receipt.totalPacketBytes ≤ request.limits.maxPacketBytes
  tierCounts : packet.receipt.tierCounts.values.sum = packet.items.length
  tierBytes : packet.receipt.tierBytes.values.sum = packet.receipt.totalPacketBytes
  required : ∀ omission ∈ packet.receipt.boundedOmissions, omission.tier.isRequired = false

/-- The loop over the items adds up. -/
theorem sumItems_spec {totals totals' : PacketTotals} (h : sumItems items totals = .ok totals') :
    totals'.tierCounts.values.sum = totals.tierCounts.values.sum + items.length ∧
      totals'.tierBytes.values.sum =
        totals.tierBytes.values.sum + (items.map StructuralPacketItem.bytes).sum ∧
      totals'.locatorBytes + totals'.excerptBytes =
        totals.locatorBytes + totals.excerptBytes +
          (items.map StructuralPacketItem.bytes).sum := by
  induction items generalizing totals with
  | nil =>
      obtain rfl := ok.inj h
      simp
  | cons item rest ih =>
      simp only [sumItems, bind_eq_ok_iff (α := ℕ), checkedAdd_eq_ok_iff] at h
      obtain ⟨bytes, ⟨_, rfl⟩, locatorBytes, ⟨_, rfl⟩, excerptBytes, ⟨_, rfl⟩, hrest⟩ := h
      obtain ⟨hcounts, hbytes, htotal⟩ := ih hrest
      rw [OrdMap.sum_values_addTo] at hcounts hbytes
      have hitem : item.bytes = Text.byteLen item.locator + item.excerptBytes := rfl
      dsimp only at hcounts hbytes htotal
      simp only [length_cons, map_cons, sum_cons]
      refine ⟨by omega, by omega, by omega⟩

/-- The parts of a successful assembly. -/
theorem assembleStructural_spec {debug : DebugFormat} {packet : StructuralPacket}
    (h : assembleStructural request debug = .ok packet) :
    Checked request ∧ ∃ state totals total outcome,
      admitAll (judge request) (plan request) .empty = .ok outcome ∧
        Tracks request outcome state ∧
        sumItems state.items ⟨OrdMap.empty, OrdMap.empty, 0, 0⟩ = .ok totals ∧
        totals.locatorBytes + totals.excerptBytes = total ∧ packet.items = state.items ∧
        ∃ digest, packet.receipt =
          { sufficiencyReceipt request debug state totals total with digest } := by
  simp only [assembleStructural, check_bind_eq_ok_iff, bind_eq_ok_iff (α := PacketState),
    bind_eq_ok_iff (α := PacketTotals), bind_eq_ok_iff (α := ℕ), checkedAdd_eq_ok_iff,
    ok.injEq] at h
  obtain ⟨hcheck, state, hplace, totals, hsum, total, ⟨_, htotal⟩, rfl⟩ := h
  have hchecked := checked_of_checkRequest hcheck
  obtain ⟨outcome, hadmission, htracks⟩ := tracks_placeNodes hchecked hplace
  exact ⟨hchecked, state, totals, total, outcome, hadmission, htracks, hsum, htotal, rfl, _, rfl⟩

theorem map_nodeId_items (h : List.Forall₂ (ItemOf request) admitted items) :
    items.map StructuralPacketItem.nodeId = admitted.map Placement.nodeId := by
  induction h with
  | nil => rfl
  | cons hhead _ ih =>
      obtain ⟨node, _, _, rfl⟩ := hhead
      rw [map_cons, map_cons, ih]
      rfl

theorem sum_bytes_items (h : List.Forall₂ (ItemOf request) admitted items) :
    (items.map StructuralPacketItem.bytes).sum = usedBytes request admitted := by
  induction h with
  | nil => rfl
  | cons hhead _ ih =>
      obtain ⟨node, hnode, hid, rfl⟩ := hhead
      rw [map_cons, sum_cons, ih, usedBytes, usedBytes, map_cons, sum_cons,
        placementBytes_eq hnode hid]
      rfl

theorem exists_itemOf (h : List.Forall₂ (ItemOf request) admitted items) :
    (∀ item ∈ items, ∃ placement ∈ admitted, ItemOf request placement item) ∧
      ∀ placement ∈ admitted, ∃ item ∈ items, ItemOf request placement item := by
  induction h with
  | nil => simp
  | cons hhead _ ih =>
      refine ⟨?_, ?_⟩
      · intro item hitem
        rcases mem_cons.mp hitem with rfl | hitem
        · exact ⟨_, mem_cons_self, hhead⟩
        · obtain ⟨placement, hplacement, hof⟩ := ih.1 item hitem
          exact ⟨placement, mem_cons_of_mem _ hplacement, hof⟩
      · intro placement hplacement
        rcases mem_cons.mp hplacement with rfl | hplacement
        · exact ⟨_, mem_cons_self, hhead⟩
        · obtain ⟨item, hitem, hof⟩ := ih.2 placement hplacement
          exact ⟨item, mem_cons_of_mem _ hitem, hof⟩

/-- A packet accounts for every node it was asked about. -/
theorem accounted {debug : DebugFormat} {packet : StructuralPacket}
    (h : assembleStructural request debug = .ok packet) : Accounted request packet := by
  obtain ⟨hchecked, state, totals, total, outcome, hadmission, htracks, hsum, htotal, hitems, digest,
    hreceipt⟩ := assembleStructural_spec h
  have hadmits := admits_of_admitAll hadmission
  have hids : packet.items.map StructuralPacketItem.nodeId ++
      packet.receipt.boundedOmissions.map StructuralPacketOmission.nodeId =
      (outcome.admitted ++ outcome.omitted.map Prod.fst).map Placement.nodeId := by
    rw [hitems, map_nodeId_items htracks.items, hreceipt]
    show _ ++ state.boundedOmissions.map StructuralPacketOmission.nodeId = _
    rw [htracks.boundedOmissions, map_append, map_map, map_map]
    rfl
  have hperm := hadmits.perm.map Placement.nodeId
  obtain ⟨hcounts, hbytes, hsumTotal⟩ := sumItems_spec hsum
  have hused := sum_bytes_items htracks.items
  have hbounds : outcome.admitted.length ≤ request.limits.maxItems ∧
      usedBytes request outcome.admitted ≤ request.limits.maxPacketBytes := by
    refine hadmits.invariant (P := fun admitted => admitted.length ≤ request.limits.maxItems ∧
      usedBytes request admitted ≤ request.limits.maxPacketBytes) ?_ ?_
    · exact ⟨Nat.zero_le _, Nat.zero_le _⟩
    · intro admitted placement _ hbound hjudge
      obtain ⟨_, hlength, hfits⟩ := (judge_eq_none_iff hchecked).mp hjudge
      refine ⟨?_, ?_⟩
      · rw [length_append, length_singleton]
        omega
      · rw [usedBytes, map_append, sum_append, map_singleton, sum_singleton]
        exact hfits
  have htotalBytes : packet.receipt.totalPacketBytes = total := by rw [hreceipt]; rfl
  have hzero : (OrdMap.empty : OrdMap StructuralPacketTier ℕ).values.sum = 0 := rfl
  dsimp only at hcounts hbytes hsumTotal
  rw [hzero] at hcounts hbytes
  refine
    { once := ?_
      placed := ?_
      itemsLe := ?_
      excerptBytes := ?_
      totalBytes := ?_
      bytesLe := ?_
      tierCounts := ?_
      tierBytes := ?_
      required := ?_ }
  · rw [hids]
    exact hperm.nodup_iff.mpr (plan_nodup hchecked)
  · intro id
    rw [← mem_append, hids, hperm.mem_iff, mem_plan]
  · rw [hitems, ← htracks.items.length_eq]
    exact hbounds.1
  · intro item hitem
    rw [hitems] at hitem
    obtain ⟨placement, _, node, _, _, rfl⟩ := (exists_itemOf htracks.items).1 item hitem
    rfl
  · rw [hitems, htotalBytes]
    omega
  · rw [htotalBytes]
    omega
  · have hreceiptCounts : packet.receipt.tierCounts = totals.tierCounts := by rw [hreceipt]; rfl
    rw [hreceiptCounts, hitems, hcounts, Nat.zero_add]
  · have hreceiptBytes : packet.receipt.tierBytes = totals.tierBytes := by rw [hreceipt]; rfl
    rw [hreceiptBytes, htotalBytes]
    omega
  · intro omission homission
    have hlist : packet.receipt.boundedOmissions = state.boundedOmissions := by rw [hreceipt]; rfl
    rw [hlist, htracks.boundedOmissions] at homission
    obtain ⟨⟨placement, reason⟩, hmem, rfl⟩ := mem_map.mp homission
    obtain ⟨before, _, _, hjudge, _⟩ := hadmits.omitted_spec hmem
    show placement.tier.isRequired = false
    by_contra hrequired
    exact judgePlacement_ne_omit (Bool.not_eq_false _ ▸ hrequired) reason hjudge

/-! ## Sufficiency -/

section Backing

variable (request : StructuralPacketRequest)

/-- An item that may count for a demand: it is not marked, and its node is a current source of
canonical or approved authority that offers the demand. -/
def Backs (item : StructuralPacketItem) (demand : Demand) : Prop :=
  item.nonAuthoritative = false ∧ ∃ node ∈ request.snapshot.nodes, node.id = item.nodeId ∧
    isAuthoritativeCurrentSource node = true ∧ Offers node item.edgeTrail demand

/-- A packet that calls itself sufficient has an item that may count for every demand. -/
def SufficiencyBacked (packet : StructuralPacket) : Prop :=
  packet.receipt.sufficient = true →
    ∀ demand, Demanded request demand → ∃ item ∈ packet.items, Backs request item demand

/-- A selected node of canonical or approved authority offers the demand. -/
def PrimaryOffers (demand : Demand) : Prop :=
  ∃ placement ∈ primaryPlan request, Provides request placement demand

/-- A current source that the traversal found outside the selection offers the demand. -/
def SourceOffers (path : StructuralPathReceipt) (demand : Demand) : Prop :=
  path ∈ request.paths ∧ isSourcePath request path = true ∧
    Provides request (dependencyPlacement path) demand

/-- The follow-up of a path fits into what the placements before it leave of the bounds. -/
def FollowUpFits (path : StructuralPathReceipt) : Prop :=
  ∃ before after middle, plan request = before ++ traversalPlacement request path :: after ∧
    admitAll (judge request) before .empty = .ok middle ∧
    middle.admitted.length ≠ request.limits.maxItems ∧
    usedBytes request middle.admitted + placementBytes request (traversalPlacement request path) ≤
      request.limits.maxPacketBytes

/-- The demand is offered by a selected node of canonical or approved authority, or by such a
traversal node that the second pass needs or whose follow-up fits. -/
def Backed (demand : Demand) : Prop :=
  PrimaryOffers request demand ∨ ∃ path, SourceOffers request path demand ∧
    nodeHas request path.nodeId isAuthoritativeCurrentSource = true ∧
    (path ∈ neededPaths request ∨ FollowUpFits request path)

/-- Either nothing offers one of the demands, or every demand is backed. -/
def EvidenceBacked : Prop :=
  (∃ demand, Demanded request demand ∧ ¬ PrimaryOffers request demand ∧
    ∀ path, ¬ SourceOffers request path demand) ∨
  ∀ demand, Demanded request demand → Backed request demand

end Backing

theorem helps_iff {node : StructuralNode} {path : StructuralPathReceipt} {covered : Coverage} :
    helps request node path covered.1 covered.2 = true ↔
      ∃ demand, Demanded request demand ∧ Offers node path.steps demand ∧
        ¬ Covers covered demand := by
  simp only [helps, Bool.or_eq_true, any_eq_true, Option.any_eq_true, Bool.and_eq_true,
    contains_iff_mem, Bool.not_eq_true', OrdMap.contains_eq_false_iff,
    OrdMap.find?_eq_none_iff]
  constructor
  · rintro (⟨domain, hoffers, hdemanded, hnew⟩ | ⟨evidence, hoffers, hdemanded, hnew⟩)
    · exact ⟨.domain domain, hdemanded, hoffers, hnew⟩
    · exact ⟨.evidence evidence, hdemanded, hoffers, hnew⟩
  · rintro ⟨demand, hdemanded, hoffers, hnew⟩
    cases demand with
    | domain domain => exact Or.inl ⟨domain, hoffers, hdemanded, hnew⟩
    | evidence evidence => exact Or.inr ⟨evidence, hoffers, hdemanded, hnew⟩

/-- A demand that a considered path offers is covered before the second pass or by it. -/
theorem neededFrom_covers {paths : List StructuralPathReceipt} {covered : Coverage}
    {path : StructuralPathReceipt} (hpath : path ∈ paths) {demand : Demand}
    (hdemanded : Demanded request demand)
    (hprovides : Provides request (dependencyPlacement path) demand) :
    Covers covered demand ∨ ∃ needed ∈ neededFrom request paths covered,
      Provides request (dependencyPlacement needed) demand := by
  induction paths generalizing covered with
  | nil => exact absurd hpath not_mem_nil
  | cons head rest ih =>
      by_cases hcovered : Covers covered demand
      · exact Or.inl hcovered
      refine Or.inr ?_
      rw [neededFrom]
      cases hlookup : request.snapshot.node head.nodeId with
      | none =>
          rcases mem_cons.mp hpath with rfl | hrest
          · -- the path itself has a node
            obtain ⟨node, hnode, hid, _⟩ := hprovides
            have hfound := (SnapshotFields.node_eq_some_iff request.snapshot.isValid).mpr
              ⟨hnode, hid⟩
            rw [show (dependencyPlacement path).nodeId = path.nodeId from rfl, hlookup] at hfound
            exact absurd hfound (by simp)
          · exact (ih hrest).resolve_left hcovered
      | some node =>
          have hmember := (SnapshotFields.node_eq_some_iff request.snapshot.isValid).mp hlookup
          have hoffers : Provides request (dependencyPlacement head) demand ↔
              Offers node head.steps demand := provides_iff hmember.1 hmember.2
          by_cases hhelps : helps request node head covered.1 covered.2 = true
          · simp only [hhelps, if_true]
            rcases mem_cons.mp hpath with rfl | hrest
            · exact ⟨path, mem_cons_self, hprovides⟩
            · rcases @ih (Coverage.add covered node head.steps) hrest with hadd | hneeded
              · rcases covers_add.mp hadd with hold | hnew
                · exact absurd hold hcovered
                · exact ⟨head, mem_cons_self, hoffers.mpr hnew⟩
              · obtain ⟨needed, hneeded, h⟩ := hneeded
                exact ⟨needed, mem_cons_of_mem _ hneeded, h⟩
          · simp only [hhelps, Bool.false_eq_true, if_false]
            rcases mem_cons.mp hpath with rfl | hrest
            · exact absurd (helps_iff.mpr ⟨demand, hdemanded, hoffers.mp hprovides, hcovered⟩) hhelps
            · exact (ih hrest).resolve_left hcovered

theorem covers_coverageFrom {covered : Coverage} {demand : Demand} :
    Covers (coverageFrom request placements covered) demand ↔
      Covers covered demand ∨ ∃ placement ∈ placements, Provides request placement demand := by
  induction placements generalizing covered with
  | nil => simp [coverageFrom]
  | cons placement rest ih =>
      rw [coverageFrom]
      cases hlookup : request.snapshot.node placement.nodeId with
      | none =>
          have hnone : ¬ Provides request placement demand := by
            rintro ⟨node, hnode, hid, _⟩
            have hfound := (SnapshotFields.node_eq_some_iff request.snapshot.isValid).mpr
              ⟨hnode, hid⟩
            rw [hlookup] at hfound
            exact absurd hfound (by simp)
          simp [ih, hnone]
      | some node =>
          have hmember := (SnapshotFields.node_eq_some_iff request.snapshot.isValid).mp hlookup
          have hoffers := @provides_iff request _ _ demand hmember.1 hmember.2
          simp only [ih, covers_add, mem_cons, exists_eq_or_imp, hoffers]
          tauto

/-- What a source offers is offered by a placement of the first two passes. -/
theorem exists_required_of_source {path : StructuralPathReceipt} {demand : Demand}
    (hdemanded : Demanded request demand) (h : SourceOffers request path demand) :
    ∃ placement ∈ requiredPlan request, placement.nonAuthoritative = false ∧
      Provides request placement demand := by
  obtain ⟨hpath, hsource, hprovides⟩ := h
  have hfiltered : path ∈ request.paths.filter (isSourcePath request) :=
    mem_filter.mpr ⟨hpath, hsource⟩
  rcases @neededFrom_covers _ _ (coverageFrom request (primaryPlan request)
    (OrdMap.empty, OrdMap.empty)) _ hfiltered _ hdemanded hprovides with hcovered | hneeded
  · rcases covers_coverageFrom.mp hcovered with hempty | ⟨placement, hplacement, hprovides⟩
    · cases demand <;> simp [Covers] at hempty
    · exact ⟨placement, mem_append_left _ hplacement, (primaryPlan_spec hplacement).2.1,
        hprovides⟩
  · obtain ⟨needed, hneeded, hprovides⟩ := hneeded
    exact ⟨dependencyPlacement needed, mem_append_right _ (mem_map_of_mem hneeded), rfl,
      hprovides⟩

theorem mem_plan_of_required (h : placement ∈ requiredPlan request) :
    placement ∈ plan request := by
  unfold plan selectedPlan conflictPlan
  simp only [mem_append]
  tauto

/-- The placements that are not marked. -/
theorem unmarked_cases (h : placement ∈ plan request) (hmarked : placement.nonAuthoritative = false) :
    placement ∈ primaryPlan request ∨
      (∃ path ∈ neededPaths request, placement = dependencyPlacement path) ∨
      ∃ path ∈ request.paths, placement = traversalPlacement request path ∧
        isSourcePath request path = true ∧
        nodeHas request path.nodeId isAuthoritativeCurrentSource = true := by
  have hinside : ∀ {planned placements : List Placement},
      placement ∈ undecided planned placements →
      placement ∈ placements ∧ placement.nodeId ∉ planned.map Placement.nodeId := by
    intro planned placements hmem
    obtain ⟨hmem, hnew⟩ := mem_filter.mp hmem
    exact ⟨hmem, by simpa using hnew⟩
  rw [plan, mem_append] at h
  rcases h with h | h
  · rw [selectedPlan, mem_append] at h
    rcases h with h | h
    · rw [conflictPlan, mem_append] at h
      rcases h with h | h
      · rw [requiredPlan, mem_append] at h
        rcases h with h | h
        · exact Or.inl h
        · obtain ⟨path, hpath, rfl⟩ := mem_map.mp h
          exact Or.inr (Or.inl ⟨path, hpath, rfl⟩)
      · obtain ⟨ranked, _, rfl⟩ := mem_map.mp (hinside h).1
        exact absurd hmarked (by simp [conflictPlacement])
    · obtain ⟨ranked, _, rfl⟩ := mem_map.mp (hinside h).1
      exact absurd hmarked (by simp [selectedPlacement])
  · obtain ⟨hmem, hnew⟩ := hinside h
    obtain ⟨path, hpath, rfl⟩ := mem_map.mp hmem
    refine Or.inr (Or.inr ⟨path, hpath, rfl, ?_, ?_⟩)
    · have hunselected : path.nodeId ∉ request.selectedIds := by
        intro hselected
        apply hnew
        rw [selectedPlan, mem_append_undecided, map_nodeId_selected]
        exact Or.inr hselected
      have hauthority : (request.snapshot.node path.nodeId).any isAuthoritativeCurrentSource =
          true := by
        simpa [traversalPlacement] using hmarked
      obtain ⟨node, hnode, hauthoritative⟩ := Option.any_eq_true _ _ |>.mp hauthority
      simp only [isAuthoritativeCurrentSource, Bool.and_eq_true, decide_eq_true_eq]
        at hauthoritative
      exact isSourcePath_iff.mpr ⟨hunselected, node, hnode, hauthoritative.1.1,
        hauthoritative.1.2⟩
    · simpa [traversalPlacement, nodeHas] using hmarked

theorem sufficient_iff (request : StructuralPacketRequest) (debug : DebugFormat)
    (state : PacketState) (totals : PacketTotals) (total : ℕ) :
    (sufficiencyReceipt request debug state totals total).sufficient = true ↔
      ∀ demand, Demanded request demand →
        Covers (state.coveredDomains, state.coveredClasses) demand := by
  have hmissing : ∀ {K : Type} [LinearOrder K] (required : List K) (covered : OrdSet K),
      (missingFrom required covered).isEmpty = true ↔ ∀ key ∈ required, key ∈ covered.keys := by
    intro K _ required covered
    rw [List.isEmpty_iff, missingFrom, filter_eq_nil_iff]
    simp only [OrdSet.mem_keys_ofList, Bool.not_eq_true', Bool.not_eq_false, OrdMap.contains_iff]
  show ((missingFrom request.requiredDomains state.coveredDomains).isEmpty &&
    (missingFrom request.requiredEvidenceClasses state.coveredClasses).isEmpty) = true ↔ _
  rw [Bool.and_eq_true, hmissing, hmissing]
  constructor
  · rintro ⟨hdomains, hclasses⟩ demand hdemanded
    cases demand with
    | domain domain => exact hdomains domain hdemanded
    | evidence evidence => exact hclasses evidence hdemanded
  · intro h
    exact ⟨fun domain hdomain => h (.domain domain) hdomain,
      fun evidence hevidence => h (.evidence evidence) hevidence⟩

/-- An item of a placement that offers a demand with an authoritative node backs it. -/
theorem backs_of_itemOf {item : StructuralPacketItem} {demand : Demand}
    (hof : ItemOf request placement item) (hmarked : placement.nonAuthoritative = false)
    (hauthority : nodeHas request placement.nodeId isAuthoritativeCurrentSource = true)
    (hprovides : Provides request placement demand) : Backs request item demand := by
  obtain ⟨node, hnode, hid, rfl⟩ := hof
  have hlookup := (SnapshotFields.node_eq_some_iff request.snapshot.isValid).mpr ⟨hnode, hid⟩
  rw [nodeHas, hlookup] at hauthority
  exact ⟨hmarked, node, hnode, hid, hauthority, (provides_iff hnode hid).mp hprovides⟩

/-- Conversely, such an item comes from such a placement. -/
theorem placement_of_backs {item : StructuralPacketItem} {demand : Demand}
    (hof : ItemOf request placement item) (h : Backs request item demand) :
    placement.nonAuthoritative = false ∧
      nodeHas request placement.nodeId isAuthoritativeCurrentSource = true ∧
      Provides request placement demand := by
  obtain ⟨node, hnode, hid, rfl⟩ := hof
  obtain ⟨hmarked, other, hother, hsame, hauthority, hoffers⟩ := h
  have hlookup := (SnapshotFields.node_eq_some_iff request.snapshot.isValid).mpr ⟨hother, hsame⟩
  refine ⟨hmarked, ?_, other, hother, hsame, hoffers⟩
  rw [nodeHas, show placement.nodeId = (structuralItem request node placement).nodeId from rfl,
    hlookup]
  exact hauthority

theorem primary_authoritative (h : placement ∈ primaryPlan request) :
    nodeHas request placement.nodeId isAuthoritativeCurrentSource = true := by
  obtain ⟨ranked, hranked, rfl⟩ := mem_map.mp h
  have hprimary := (mem_filter.mp hranked).2
  unfold nodeHas at hprimary ⊢
  obtain ⟨node, hnode, hnodePrimary⟩ := Option.any_eq_true _ _ |>.mp hprimary
  rw [isPrimaryCanonical, Bool.and_eq_true] at hnodePrimary
  exact Option.any_eq_true _ _ |>.mpr ⟨node, hnode, hnodePrimary.2⟩

/-- Sixty-four zeros. -/
def zeroDigest : Str := List.replicate 64 '0'

/-- A current source document without an owner. -/
def documentNode (id : ℕ) (path : String) (domains : List Str)
    (authority : StructuralAuthority) : StructuralNode where
  id := Text.hexadecimal 64 id
  path := path.toList
  contentDigest := zeroDigest
  sourceType := .markdown
  domains
  owner := none
  lifecycle := .current
  authority
  generatedStatus := .source
  provenance := []

def planNode : StructuralNode :=
  documentNode 0x7320b62247570f4fe234beaa28571beebf4e90d1011954dc94836ed2556c7a38 "plan.md" []
    .canonical

/-- A supporting note about security. -/
def noteNode : StructuralNode :=
  documentNode 0xfde9d68494b34602d76c88fddfdedb438f1a7292a06f133cae14c2838fa90dc2 "note.md"
    ["security".toList] .supporting

theorem noteIndexable : Indexable [planNode, noteNode] [] where
  validNodes := by decide +kernel
  validEdges := by simp
  nodeIds := by decide
  edgeIds := nodup_nil
  sources := by simp
  targets := by simp

/-- The snapshot of the two documents. -/
def noteSnapshot : StructuralGraphSnapshot where
  toSnapshotFields := StructuralGraphSnapshot.withDigest
    (StructuralGraphSnapshot.unsealedOf none zeroDigest zeroDigest zeroDigest
      [planNode, noteNode] []
      ⟨"scan".toList, none, none, none, [], structuralGraphOrderingVersion⟩)
  valid := SnapshotFields.validate_eq_ok_iff.mpr (StructuralGraphSnapshot.valid_unsealedOf rfl
    (by decide) (by decide) (by decide) (by decide) noteIndexable)

def documentItem (node : StructuralNode) (authority : AuthorityKey)
    (distance : RelationshipDistanceKey) (relevance : RelevanceKey)
    (decision : RankingItemDecision) : RankingItemReceipt where
  nodeId := node.id
  canonicalPath := node.path
  rankKey := {
    eligibility := .eligible
    authority
    revision := .current
    artifact := .source
    relationshipDistance := distance
    relevance
    requiredContribution := 0
    frequencyBasisPoints := 0
    canonicalPath := node.path
    nodeId := node.id }
  frequency := ⟨0, 0, false, zeroDigest, 8⟩
  decision

/-- The ranking from the note with a selection limit of one. -/
def noteRanking : RankingReceipt where
  snapshotDigest := noteSnapshot.snapshotDigest
  seed := noteNode.id
  stage := .design
  requiredDomains := []
  requiredEvidenceClasses := []
  candidateCount := 2
  requestedSelectionLimit := 1
  selected := [documentItem planNode .canonicalUnowned .absent .none .selected]
  omittedConflicts :=
    [documentItem noteNode .supportingUnowned .seed .exact (.omitted .selectionLimit)]
  conflicts := ⟨false, []⟩
  missingRequiredEvidence := ⟨false, [], []⟩

/-- The traversal from the note; the snapshot has no edges. -/
def noteTraversal : StructuralTraversalReceipt where
  snapshotDigest := noteSnapshot.snapshotDigest
  seed := noteNode.id
  relationships := [.dependency]
  maxDepth := 1
  maxNodes := 8
  maxEdges := 8
  visitedIds := [noteNode.id]
  paths := [⟨noteNode.id, []⟩]
  inspectedEdgeCount := 0
  acceptedEdgeCount := 0
  skippedEdges := []
  terminal := .complete

def noteRequest : StructuralPacketRequest where
  snapshot := noteSnapshot
  ranking := noteRanking
  traversal := some noteTraversal
  excerpts := []
  requiredDomains := ["security".toList]
  requiredEvidenceClasses := []
  limits := ⟨8, 4096, 128⟩

theorem boundTraversal_note : BoundTraversal noteSnapshot noteRanking noteTraversal where
  snapshotDigest := rfl
  seed := rfl
  depth := by decide
  nodes := by decide
  edges := by decide
  visitedLe := by decide
  inspectedLe := by decide
  relationships := by decide
  traversable := by decide
  distinctRelationships := by decide
  pathNodes := rfl
  distinct := nodup_singleton _
  visits := by
    intro path hpath
    obtain rfl := mem_singleton.mp hpath
    have hnode : HoldsStructural noteSnapshot.nodes noteNode.id := by decide +kernel
    exact ⟨rfl, hnode, Nat.zero_le _, [noteNode.id], .nil, nodup_singleton _⟩
  seedFirst := rfl
  firstPath := rfl
  accepted := rfl
  acceptedLe := le_rfl
  skipped := by simp [noteTraversal]
  terminal := rfl

theorem checkRequest_note : checkRequest noteRequest = .ok () := by
  have hranking : (validateRankingReceipt noteSnapshot noteRanking).isOk = true := by
    decide +kernel
  simp only [checkRequest, check_bind_eq_ok_iff, bind_eq_ok_iff (α := Finset Str),
    failIf_eq_ok_iff]
  refine ⟨fun h => h rfl, by decide, ?_⟩
  cases hids : validateRankingReceipt noteSnapshot noteRanking with
  | error error => simp [hids, Except.isOk, Except.toBool] at hranking
  | ok ids =>
      refine ⟨ids, hids, ?_⟩
      show (_ >>= _) = _
      rw [check_bind_eq_ok_iff, validateTraversalReceipt_eq_ok_iff]
      exact ⟨boundTraversal_note, rfl⟩

/-- The request is answered, and the packet calls itself sufficient. -/
theorem assembleStructural_note (debug : DebugFormat) :
    ∃ packet, assembleStructural noteRequest debug = .ok packet ∧
      packet.receipt.sufficient = true := by
  have hrun : ((placeNodes noteRequest).toOption.bind fun state =>
      (sumItems state.items ⟨OrdMap.empty, OrdMap.empty, 0, 0⟩).toOption.map fun totals =>
        (state.coveredDomains.keys, totals.locatorBytes + totals.excerptBytes)) =
      some (["security".toList], 14) := by
    decide +kernel
  cases hplace : placeNodes noteRequest with
  | error error => simp [hplace, Except.toOption] at hrun
  | ok state =>
      cases hsum : sumItems state.items ⟨OrdMap.empty, OrdMap.empty, 0, 0⟩ with
      | error error => simp [hplace, hsum, Except.toOption] at hrun
      | ok totals =>
          simp only [hplace, hsum, Except.toOption, Option.bind_some, Option.map_some,
            some.injEq, Prod.mk.injEq] at hrun
          obtain ⟨hcovered, htotal⟩ := hrun
          unfold assembleStructural
          rw [checkRequest_note, ok_bind, hplace, ok_bind, hsum, ok_bind,
            checkedAdd_eq_ok (by omega), ok_bind]
          refine ⟨_, rfl, ?_⟩
          refine (sufficient_iff noteRequest debug state totals
            (totals.locatorBytes + totals.excerptBytes)).mpr fun demand hdemanded => ?_
          cases demand with
          | domain domain =>
              show domain ∈ state.coveredDomains.keys
              rw [hcovered]
              exact hdemanded
          | evidence evidence => exact absurd hdemanded not_mem_nil

end Bran.Packet
