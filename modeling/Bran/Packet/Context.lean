import Bran.Library.Admission
import Bran.Packet.Closure

/-!
# Context packets

`PacketAssembler::assemble` joins the items of a view with the dependencies that the
closure admits, looks up the evidence that the caller supplied for each of them, and
goes once through the sorted candidates.  A candidate is selected unless the packet
would exceed the item, byte or token ceiling; one of required priority must fit.

The loop is an instance of greedy admission, see `selectCandidates_eq`; what a packet
holds is derived from there.  An `expect` of the source that fails is the result `none`,
which `assemble_isSome` excludes.
-/

namespace Bran.Packet

open Bran.Graph View Validation Admission List OrdMap Text
open Except (ok.inj)

variable {request : PacketAssemblyRequest}

/-! ## Packets -/

structure ContextItem where
  id : NodeId
  provenance : Provenance
  content : Str
  priority : EvidencePriority
  authority : ℕ
  freshness : ℕ
  preservationAnchors : List PreservationAnchor
  rawBytes : ℕ
  deriving DecidableEq

inductive TokenEstimateMethod
  | bytesDividedByFourCeiling
  deriving DecidableEq

def packetReceiptSchemaVersion : Str := "1.0.0".toList

structure PacketReceipt where
  schemaVersion : Str
  seedIds : List NodeId
  admittedDependencyIds : List NodeId
  selectedIds : List NodeId
  omittedIds : List NodeId
  dependencyClosureTruncated : Bool
  dependencyMaxDepth : ℕ
  dependencyMaxNodes : ℕ
  rawBytes : ℕ
  estimatedTokens : ℕ
  tokenEstimateMethod : TokenEstimateMethod
  effectiveMaxItems : ℕ
  effectiveMaxBytes : ℕ
  runtimeTokenCeiling : Option ℕ
  truncated : Bool
  deriving DecidableEq

structure ContextPacket where
  items : List ContextItem
  payload : Str
  receipt : PacketReceipt
  deriving DecidableEq

/-! ## Evidence -/

/-- The loop of `index_evidence` over the supplied evidence. -/
def indexFrom : List EvidenceContent → OrdMap NodeId EvidenceContent → OrdSet NodeId →
    OrdMap NodeId EvidenceContent × OrdSet NodeId
  | [], evidence, duplicates => (evidence, duplicates)
  | item :: rest, evidence, duplicates =>
      indexFrom rest (evidence.insert item.id item)
        (if evidence.contains item.id then duplicates.insert item.id () else duplicates)

/-- The first anchor of an evidence item that its content does not hold. -/
def missingAnchor (item : EvidenceContent) : Option (EvidenceContent × PreservationAnchor) :=
  (item.preservationAnchors.find? fun anchor => !Text.containsStr item.content anchor.value).map
    fun anchor => (item, anchor)

def indexEvidence (request : PacketAssemblyRequest) (dependencyIds : List NodeId) :
    Except PacketError (OrdMap NodeId EvidenceContent) := do
  let selectedIds := OrdSet.extend (OrdSet.ofList request.view.ids) dependencyIds
  let indexed := indexFrom request.evidence OrdMap.empty OrdMap.empty
  refuse indexed.2.keys.head? .duplicateSelectedEvidence
  refuse (selectedIds.keys.find? fun id => !indexed.1.contains id) .missingSelectedEvidence
  refuse (indexed.1.keys.find? fun id => !selectedIds.contains id) .unrelatedEvidence
  refuse (indexed.1.values.find? fun item =>
      decide (item.priority = .required) && item.preservationAnchors.isEmpty)
    fun item => .requiredEvidenceMissingPreservationAnchors item.id
  refuse (indexed.1.values.findSome? missingAnchor)
    fun found => .preservationAnchorNotInEvidence found.1.id found.2.id
  return indexed.1

def effectiveLimits (request : PacketAssemblyRequest) (admittedDependencies : ℕ) :
    Except PacketError PacketLimits := do
  let expandedViewCeiling ← checkedAdd request.view.spec.maxItems admittedDependencies
    (.arithmeticOverflow "expanded packet item ceiling".toList)
  return ⟨min request.limits.maxItems expandedViewCeiling,
    min request.limits.maxBytes request.view.spec.maxBytes, request.limits.runtimeTokenCeiling⟩

/-! ## Candidates -/

structure Candidate where
  provenance : Provenance
  evidence : EvidenceContent

/-- The identity of the node that a candidate is about. -/
def Candidate.id (candidate : Candidate) : NodeId := candidate.evidence.id

/-- `candidate_order`, as the key that it compares. -/
def candidateKey (evidence : EvidenceContent) :
    EvidencePriority ×ₗ ℕᵒᵈ ×ₗ ℕᵒᵈ ×ₗ NodeId :=
  toLex (evidence.priority, toLex (OrderDual.toDual evidence.authority,
    toLex (OrderDual.toDual evidence.freshness, evidence.id)))

/-- The candidate for a view item. -/
def seedCandidate (evidence : OrdMap NodeId EvidenceContent) (item : ViewItem) :
    Option Candidate :=
  (evidence.find? item.id).map fun content => ⟨item.provenance, content⟩

def dependencyCandidate (graph : KnowledgeGraph) (evidence : OrdMap NodeId EvidenceContent)
    (id : NodeId) : Option Candidate :=
  (graph.node id).bind fun node =>
    (evidence.find? id).map fun content => ⟨node.provenance, content⟩

/-- The candidates of a request before sorting. -/
def candidatesOf (request : PacketAssemblyRequest) (admittedIds : List NodeId)
    (evidence : OrdMap NodeId EvidenceContent) : Option (List Candidate) :=
  (request.view.items.mapM (seedCandidate evidence)).bind fun seeds =>
    (admittedIds.mapM (dependencyCandidate request.graph evidence)).map fun dependencies =>
      seeds ++ dependencies

def encodeItem (candidate : Candidate) : Str :=
  "node=".toList ++ candidate.evidence.id.value ++ "\nsource=".toList ++
    candidate.provenance.source ++ "\nlocator=".toList ++ candidate.provenance.locator ++
    "\ncontent=".toList ++ candidate.evidence.content ++ "\n".toList

def estimateTokens (rawBytes : ℕ) : ℕ := rawBytes / 4 + if rawBytes % 4 = 0 then 0 else 1

/-- The bytes that a candidate adds to the payload. -/
def encodedBytes (candidate : Candidate) : ℕ := byteLen (encodeItem candidate)

/-- The item of a selected candidate. -/
def contextItem (candidate : Candidate) : ContextItem :=
  ⟨candidate.evidence.id, candidate.provenance, candidate.evidence.content,
    candidate.evidence.priority, candidate.evidence.authority, candidate.evidence.freshness,
    candidate.evidence.preservationAnchors, encodedBytes candidate⟩

/-! ## The loop -/

/-- The variables of the loop of `assemble`. -/
structure ContextState where
  items : List ContextItem
  payload : Str
  selectedIds : List NodeId
  omittedIds : List NodeId
  rawBytes : ℕ

/-- The bound that the next item would exceed. -/
def rejection (limits : PacketLimits) (items nextBytes : ℕ) : Option PacketBound :=
  if items = limits.maxItems then some .items
  else if nextBytes > limits.maxBytes then some .bytes
  else if limits.runtimeTokenCeiling.any fun ceiling => estimateTokens nextBytes > ceiling then
    some .runtimeTokens
  else none

/-- The loop of `assemble`. -/
def selectCandidates (limits : PacketLimits) :
    List Candidate → ContextState → Except PacketError ContextState
  | [], state => .ok state
  | candidate :: rest, state => do
      let encoded := encodeItem candidate
      let nextBytes ← checkedAdd state.rawBytes (byteLen encoded)
        (.arithmeticOverflow "packet raw byte count".toList)
      match rejection limits state.items.length nextBytes with
      | some bound =>
          failIf (candidate.evidence.priority = .required)
            (.requiredEvidenceDoesNotFit candidate.evidence.id bound)
          selectCandidates limits rest
            { state with omittedIds := state.omittedIds ++ [candidate.evidence.id] }
      | none =>
          selectCandidates limits rest
            { state with
              items := state.items ++ [contextItem candidate]
              payload := state.payload ++ encoded
              selectedIds := state.selectedIds ++ [candidate.evidence.id]
              rawBytes := nextBytes }

/-- The receipt behind the loop. -/
def packetReceipt (request : PacketAssemblyRequest) (closure : DependencyClosure)
    (limits : PacketLimits) (state : ContextState) : PacketReceipt where
  schemaVersion := packetReceiptSchemaVersion
  seedIds := request.view.ids
  admittedDependencyIds := closure.admittedIds
  selectedIds := state.selectedIds
  omittedIds := state.omittedIds
  dependencyClosureTruncated := closure.truncated
  dependencyMaxDepth := request.dependencyLimits.maxDepth
  dependencyMaxNodes := request.dependencyLimits.maxNodes
  rawBytes := state.rawBytes
  estimatedTokens := estimateTokens state.rawBytes
  tokenEstimateMethod := .bytesDividedByFourCeiling
  effectiveMaxItems := limits.maxItems
  effectiveMaxBytes := limits.maxBytes
  runtimeTokenCeiling := limits.runtimeTokenCeiling
  truncated := request.view.truncated || closure.truncated || !state.omittedIds.isEmpty

/-- The part of `assemble` behind the candidates. -/
def assembleFrom (request : PacketAssemblyRequest) (closure : DependencyClosure)
    (limits : PacketLimits) (candidates : List Candidate) : Except PacketError ContextPacket := do
  let state ← selectCandidates limits
    (sortBy (fun candidate => candidateKey candidate.evidence) candidates) ⟨[], [], [], [], 0⟩
  return ⟨state.items, state.payload, packetReceipt request closure limits state⟩

/-- The part of `assemble` between the closure and the candidates. -/
def prepare (request : PacketAssemblyRequest) (admittedIds : List NodeId) :
    Except PacketError (OrdMap NodeId EvidenceContent × PacketLimits) := do
  let evidence ← indexEvidence request admittedIds
  let limits ← effectiveLimits request admittedIds.length
  let _ ← checkedAdd request.view.items.length admittedIds.length
    (.arithmeticOverflow "packet candidate capacity".toList)
  return (evidence, limits)

/-- `PacketAssembler::assemble`. -/
def assemble (request : PacketAssemblyRequest) : Option (Except PacketError ContextPacket) :=
  match dependencyClosure request with
  | none => none
  | some (.error error) => some (.error error)
  | some (.ok closure) =>
      match prepare request closure.admittedIds with
      | .error error => some (.error error)
      | .ok (evidence, limits) =>
          (candidatesOf request closure.admittedIds evidence).map
            (assembleFrom request closure limits)

/-! ## What `index_evidence` accepts -/

variable {items : List EvidenceContent} {evidence : OrdMap NodeId EvidenceContent}
  {candidates : List Candidate}

/-- The map holds the last evidence of each identity, the set the repeated identities. -/
theorem indexFrom_spec {duplicates : OrdSet NodeId} :
    (indexFrom items evidence duplicates).1 =
        items.foldl (fun evidence item => evidence.insert item.id item) evidence ∧
      ∀ id, id ∈ (indexFrom items evidence duplicates).2.keys ↔
        id ∈ duplicates.keys ∨ (id ∈ evidence.keys ∧ id ∈ items.map EvidenceContent.id) ∨
          2 ≤ (items.map EvidenceContent.id).count id := by
  induction items generalizing evidence duplicates with
  | nil => simp [indexFrom]
  | cons item rest ih =>
      rw [indexFrom]
      obtain ⟨hmap, hset⟩ := @ih (evidence.insert item.id item)
        (if evidence.contains item.id then duplicates.insert item.id () else duplicates)
      refine ⟨hmap, fun id => (hset id).trans ?_⟩
      have hcount : 1 ≤ (rest.map EvidenceContent.id).count id ↔
          id ∈ rest.map EvidenceContent.id := count_pos_iff
      rw [mem_keys_insert, map_cons, mem_cons]
      by_cases hid : id = item.id
      · subst hid
        rw [count_cons_self]
        by_cases hknown : item.id ∈ evidence.keys
        · rw [if_pos (OrdMap.contains_iff.mpr hknown), mem_keys_insert]
          simp [hknown]
        · rw [if_neg (by rw [OrdMap.contains_iff]; exact hknown)]
          simp only [hknown, false_and, false_or, true_or, true_and, ← hcount]
          constructor
          · rintro (h | h | h)
            · exact Or.inl h
            · exact Or.inr (by omega)
            · exact Or.inr (by omega)
          · rintro (h | h)
            · exact Or.inl h
            · exact Or.inr (Or.inl (by omega))
      · rw [count_cons_of_ne (Ne.symm hid)]
        have hduplicates : id ∈ (if evidence.contains item.id then duplicates.insert item.id ()
            else duplicates : OrdSet NodeId).keys ↔ id ∈ duplicates.keys := by
          split_ifs
          · rw [mem_keys_insert]
            simp [hid]
          · exact Iff.rfl
        rw [hduplicates]
        simp [hid]

def evidenceMap (items : List EvidenceContent) : OrdMap NodeId EvidenceContent :=
  OrdMap.ofList (items.map fun item => (item.id, item))

theorem indexFrom_fst (items : List EvidenceContent) :
    (indexFrom items OrdMap.empty OrdMap.empty).1 = evidenceMap items := by
  rw [indexFrom_spec.1, evidenceMap, OrdMap.ofList, foldl_map]

/-- No identity is repeated exactly when the set of repeated identities is empty. -/
theorem indexFrom_snd_iff :
    (indexFrom items OrdMap.empty OrdMap.empty).2.keys.head? = none ↔
      (items.map EvidenceContent.id).Nodup := by
  rw [head?_eq_none_iff, eq_nil_iff_forall_not_mem, nodup_iff_count_le_one]
  refine forall_congr' fun id => ?_
  rw [indexFrom_spec.2]
  simp only [keys_empty, not_mem_nil, false_and, false_or]
  omega

theorem find?_evidenceMap (hnodup : (items.map EvidenceContent.id).Nodup) {id : NodeId}
    {item : EvidenceContent} :
    (evidenceMap items).find? id = some item ↔ item ∈ items ∧ item.id = id := by
  have hkeys : ((items.map fun item => (item.id, item)).map Prod.fst).Nodup := by
    rw [map_map]
    exact hnodup
  rw [evidenceMap, find?_ofList hkeys, mem_map]
  constructor
  · rintro ⟨other, hother, heq⟩
    obtain ⟨rfl, rfl⟩ := Prod.mk.inj heq
    exact ⟨hother, rfl⟩
  · rintro ⟨hmem, rfl⟩
    exact ⟨item, hmem, rfl⟩

/-- The indexes of two orders of the evidence agree where they matter. -/
theorem indexEvidence_perm {evidence : List EvidenceContent}
    (hperm : evidence.Perm request.evidence) (dependencyIds : List NodeId) :
    indexEvidence { request with evidence := evidence } dependencyIds =
      indexEvidence request dependencyIds := by
  have hids : (evidence.map EvidenceContent.id).Perm (request.evidence.map EvidenceContent.id) :=
    hperm.map _
  have hset : (indexFrom evidence OrdMap.empty OrdMap.empty).2 =
      (indexFrom request.evidence OrdMap.empty OrdMap.empty).2 := by
    refine ext_find? fun id => ?_
    have hmem : id ∈ (indexFrom evidence OrdMap.empty OrdMap.empty).2.keys ↔
        id ∈ (indexFrom request.evidence OrdMap.empty OrdMap.empty).2.keys := by
      rw [indexFrom_spec.2, indexFrom_spec.2, hids.count_eq, hids.mem_iff]
    cases hleft : (indexFrom evidence OrdMap.empty OrdMap.empty).2.find? id with
    | none =>
        rw [find?_eq_none_iff, hmem, ← find?_eq_none_iff] at hleft
        exact hleft.symm
    | some u =>
        obtain ⟨v, hright⟩ := mem_keys_iff.mp (hmem.mp (mem_keys_iff.mpr ⟨u, hleft⟩))
        exact hright.symm
  unfold indexEvidence
  dsimp only
  rw [hset]
  refine bind_congr_ok fun _ hdistinct => ?_
  -- without repeated identities the two maps are the same
  have hnodup : (request.evidence.map EvidenceContent.id).Nodup :=
    indexFrom_snd_iff.mp (refuse_eq_ok_iff.mp hdistinct)
  have hmap : evidenceMap evidence = evidenceMap request.evidence := by
    refine ext_find? fun id => Option.ext fun item => ?_
    rw [find?_evidenceMap (hids.nodup_iff.mpr hnodup), find?_evidenceMap hnodup, hperm.mem_iff]
  rw [indexFrom_fst, indexFrom_fst, hmap]

/-- Accepted evidence is supplied once for every seed and dependency, and for nothing else. -/
theorem indexEvidence_spec {dependencyIds : List NodeId}
    (h : indexEvidence request dependencyIds = .ok evidence) :
    (∀ id item, evidence.find? id = some item ↔ item ∈ request.evidence ∧ item.id = id) ∧
      (∀ id, id ∈ evidence.keys ↔ id ∈ request.view.ids ∨ id ∈ dependencyIds) := by
  simp only [indexEvidence, check_bind_eq_ok_iff, refuse_eq_ok_iff, indexFrom_fst,
    indexFrom_snd_iff, find?_eq_none, Bool.not_eq_true', Bool.not_eq_false,
    OrdMap.contains_iff] at h
  obtain ⟨hnodup, hmissing, hrelated, _, _, hok⟩ := h
  obtain rfl := ok.inj hok
  refine ⟨fun id item => find?_evidenceMap hnodup, fun id => ?_⟩
  have hselected : id ∈ (OrdSet.extend (OrdSet.ofList request.view.ids) dependencyIds).keys ↔
      id ∈ request.view.ids ∨ id ∈ dependencyIds := by
    rw [OrdSet.mem_keys_extend, OrdSet.mem_keys_ofList]
  rw [← hselected]
  exact ⟨hrelated id, hmissing id⟩

/-! ## What the candidates are -/

/-- A candidate joins the supplied evidence of a node with the provenance of that node. -/
structure Offered (request : PacketAssemblyRequest) (admittedIds : List NodeId)
    (candidate : Candidate) : Prop where
  evidence : candidate.evidence ∈ request.evidence
  provenance :
    (∃ item ∈ request.view.items, item.id = candidate.id ∧
      item.provenance = candidate.provenance) ∨
    (candidate.id ∈ admittedIds ∧ ∃ node ∈ request.graph.nodes, node.id = candidate.id ∧
      node.provenance = candidate.provenance)

/-- Every seed and every dependency has one candidate; no `expect` fails. -/
theorem candidatesOf_spec {admittedIds : List NodeId}
    (hindex : indexEvidence request admittedIds = .ok evidence)
    (hpresent : ∀ id ∈ admittedIds, Holds request.graph.nodes id) :
    ∃ candidates, candidatesOf request admittedIds evidence = some candidates ∧
      candidates.map Candidate.id = request.view.ids ++ admittedIds ∧
      ∀ candidate ∈ candidates, Offered request admittedIds candidate := by
  obtain ⟨hfind, hkeys⟩ := indexEvidence_spec hindex
  have hseeds : ∀ item ∈ request.view.items, ∃ candidate,
      seedCandidate evidence item = some candidate ∧ candidate.id = item.id ∧
        Offered request admittedIds candidate := by
    intro item hitem
    have hid : item.id ∈ request.view.ids := mem_map_of_mem hitem
    obtain ⟨content, hcontent⟩ := mem_keys_iff.mp ((hkeys item.id).mpr (Or.inl hid))
    obtain ⟨hmem, hcontentId⟩ := (hfind _ _).mp hcontent
    refine ⟨⟨item.provenance, content⟩, ?_, hcontentId, hmem, ?_⟩
    · rw [seedCandidate, hcontent, Option.map_some]
    · exact Or.inl ⟨item, hitem, hcontentId.symm, rfl⟩
  have hdependencies : ∀ id ∈ admittedIds, ∃ candidate,
      dependencyCandidate request.graph evidence id = some candidate ∧ candidate.id = id ∧
        Offered request admittedIds candidate := by
    intro id hid
    obtain ⟨node, hnode, hnodeId⟩ := hpresent id hid
    obtain ⟨content, hcontent⟩ := mem_keys_iff.mp ((hkeys id).mpr (Or.inr hid))
    obtain ⟨hmem, hcontentId⟩ := (hfind _ _).mp hcontent
    have hlookup := KnowledgeGraph.node_eq_some_iff.mpr ⟨hnode, hnodeId⟩
    refine ⟨⟨node.provenance, content⟩, ?_, hcontentId, hmem, ?_⟩
    · rw [dependencyCandidate, hlookup, Option.bind_some, hcontent, Option.map_some]
    · refine Or.inr ⟨?_, node, hnode, hnodeId.trans hcontentId.symm, rfl⟩
      show content.id ∈ admittedIds
      rw [hcontentId]
      exact hid
  obtain ⟨seeds, hseedPass, hseedIds, hseedOffered⟩ := mapM_key_spec hseeds
  obtain ⟨dependencies, hpass, hids, hoffered⟩ :=
    @mapM_key_spec _ _ _ _ (fun id => id) _ _ _ hdependencies
  refine ⟨seeds ++ dependencies, ?_, ?_, ?_⟩
  · rw [candidatesOf, hseedPass, Option.bind_some, hpass, Option.map_some]
  · rw [map_append, hseedIds, hids, map_id']
    rfl
  · intro candidate hcandidate
    rcases mem_append.mp hcandidate with h | h
    · exact hseedOffered candidate h
    · exact hoffered candidate h

/-! ## The loop as greedy admission -/

/-- The bytes that candidates add to the payload. -/
def contextBytes (candidates : List Candidate) : ℕ := (candidates.map encodedBytes).sum

/-- What the loop decides about a candidate, given the candidates selected before it. -/
def judgeCandidate (limits : PacketLimits) (selected : List Candidate) (candidate : Candidate) :
    Except PacketError (Option PacketBound) := do
  let nextBytes ← checkedAdd (contextBytes selected) (encodedBytes candidate)
    (.arithmeticOverflow "packet raw byte count".toList)
  match rejection limits selected.length nextBytes with
  | some bound => do
      failIf (candidate.evidence.priority = .required)
        (.requiredEvidenceDoesNotFit candidate.evidence.id bound)
      return some bound
  | none => return none

/-- The variables of the loop once some candidates are decided. -/
def contextStateOf (outcome : Outcome Candidate PacketBound) : ContextState where
  items := outcome.admitted.map contextItem
  payload := (outcome.admitted.map encodeItem).flatten
  selectedIds := outcome.admitted.map Candidate.id
  omittedIds := outcome.omitted.map fun entry => entry.1.id
  rawBytes := contextBytes outcome.admitted

/-- The loop is greedy admission with the two running totals read off the selected list. -/
theorem selectCandidates_eq (limits : PacketLimits) (candidates : List Candidate)
    (outcome : Outcome Candidate PacketBound) :
    selectCandidates limits candidates (contextStateOf outcome) =
      (admitAll (judgeCandidate limits) candidates outcome).map contextStateOf := by
  induction candidates generalizing outcome with
  | nil => rfl
  | cons candidate rest ih =>
      have hadmission : contextStateOf (outcome.add candidate none) =
          { contextStateOf outcome with
            items := (contextStateOf outcome).items ++ [contextItem candidate]
            payload := (contextStateOf outcome).payload ++ encodeItem candidate
            selectedIds := (contextStateOf outcome).selectedIds ++ [candidate.evidence.id]
            rawBytes := (contextStateOf outcome).rawBytes + encodedBytes candidate } := by
        simp [contextStateOf, Outcome.add, contextBytes, Candidate.id]
      have homit : ∀ bound, contextStateOf (outcome.add candidate (some bound)) =
          { contextStateOf outcome with
            omittedIds := (contextStateOf outcome).omittedIds ++ [candidate.evidence.id] } :=
        fun bound => by simp [contextStateOf, Outcome.add, Candidate.id]
      have hlength : (contextStateOf outcome).items.length = outcome.admitted.length :=
        length_map _
      have hbytes : (contextStateOf outcome).rawBytes = contextBytes outcome.admitted := rfl
      rw [selectCandidates, admitAll, judgeCandidate]
      rw [hlength, hbytes]
      change (checkedAdd (contextBytes outcome.admitted) (encodedBytes candidate) _ >>= _) = _
      unfold checkedAdd
      by_cases hfits : contextBytes outcome.admitted + encodedBytes candidate < 2 ^ 64
      · rw [if_pos hfits, ok_bind, ok_bind]
        cases hreject : rejection limits outcome.admitted.length
            (contextBytes outcome.admitted + encodedBytes candidate) with
        | none =>
            have hnext := ih (outcome.add candidate none)
            rw [hadmission] at hnext
            exact hnext
        | some bound =>
            dsimp only
            by_cases hrequired : candidate.evidence.priority = .required
            · rw [failIf, if_pos hrequired]
              rfl
            · rw [failIf, if_neg hrequired]
              have hnext := ih (outcome.add candidate (some bound))
              rw [homit bound] at hnext
              exact hnext
      · rw [if_neg hfits]
        rfl

section Judging

variable {limits : PacketLimits} {selected : List Candidate} {candidate : Candidate}

theorem rejection_eq_none_iff {items nextBytes : ℕ} :
    rejection limits items nextBytes = none ↔
      items ≠ limits.maxItems ∧ nextBytes ≤ limits.maxBytes ∧
        ∀ ceiling, limits.runtimeTokenCeiling = some ceiling →
          estimateTokens nextBytes ≤ ceiling := by
  unfold rejection
  cases limits.runtimeTokenCeiling with
  | none | some ceiling => split_ifs <;> simp_all

/-- A selected candidate stays within the three bounds. -/
theorem judgeCandidate_eq_none_iff :
    judgeCandidate limits selected candidate = .ok none ↔
      contextBytes selected + encodedBytes candidate < 2 ^ 64 ∧
        rejection limits selected.length (contextBytes selected + encodedBytes candidate) =
          none := by
  unfold judgeCandidate
  rw [bind_eq_ok_iff (α := ℕ)]
  simp only [checkedAdd_eq_ok_iff]
  constructor
  · rintro ⟨nextBytes, ⟨hfits, rfl⟩, hnext⟩
    refine ⟨hfits, ?_⟩
    cases hreject : rejection limits selected.length
        (contextBytes selected + encodedBytes candidate) with
    | none => rfl
    | some bound =>
        rw [hreject] at hnext
        obtain ⟨_, habsurd⟩ := check_bind_eq_ok_iff.mp hnext
        exact absurd (ok.inj habsurd) (by simp)
  · rintro ⟨hfits, hreject⟩
    refine ⟨_, ⟨hfits, rfl⟩, ?_⟩
    rw [hreject]
    rfl

/-- A candidate that is left out exceeds a bound and is not required. -/
theorem judgeCandidate_eq_some {bound : PacketBound}
    (h : judgeCandidate limits selected candidate = .ok (some bound)) :
    candidate.evidence.priority ≠ .required ∧
      rejection limits selected.length (contextBytes selected + encodedBytes candidate) ≠
        none := by
  unfold judgeCandidate at h
  rw [bind_eq_ok_iff (α := ℕ)] at h
  obtain ⟨nextBytes, hadd, hnext⟩ := h
  obtain ⟨_, rfl⟩ := checkedAdd_eq_ok_iff.mp hadd
  cases hreject : rejection limits selected.length
      (contextBytes selected + encodedBytes candidate) with
  | none =>
      rw [hreject] at hnext
      exact absurd (ok.inj hnext) (by simp)
  | some other =>
      rw [hreject] at hnext
      obtain ⟨hrequired, _⟩ := check_bind_eq_ok_iff.mp hnext
      exact ⟨failIf_eq_ok_iff.mp hrequired, by simp⟩

end Judging

theorem estimateTokens_eq (rawBytes : ℕ) : estimateTokens rawBytes = (rawBytes + 3) / 4 := by
  unfold estimateTokens
  split_ifs <;> omega

/-- The selected candidates stay within the bounds. -/
theorem admitted_within {limits : PacketLimits} {outcome : Outcome Candidate PacketBound}
    (h : Admits (judgeCandidate limits) candidates outcome) :
    outcome.admitted.length ≤ limits.maxItems ∧
      contextBytes outcome.admitted ≤ limits.maxBytes ∧
      ∀ ceiling, limits.runtimeTokenCeiling = some ceiling →
        estimateTokens (contextBytes outcome.admitted) ≤ ceiling := by
  refine h.invariant (P := fun selected => selected.length ≤ limits.maxItems ∧
    contextBytes selected ≤ limits.maxBytes ∧ ∀ ceiling, limits.runtimeTokenCeiling = some ceiling →
      estimateTokens (contextBytes selected) ≤ ceiling) ?_ ?_
  · exact ⟨Nat.zero_le _, Nat.zero_le _, fun _ _ => Nat.zero_le _⟩
  · intro selected candidate _ hselected hjudge
    obtain ⟨_, hreject⟩ := judgeCandidate_eq_none_iff.mp hjudge
    obtain ⟨hitems, hbytes, htokens⟩ := rejection_eq_none_iff.mp hreject
    have hsum : contextBytes (selected ++ [candidate]) =
        contextBytes selected + encodedBytes candidate := by
      simp [contextBytes]
    rw [hsum]
    refine ⟨?_, hbytes, htokens⟩
    have hlength := hselected.1
    rw [length_append, length_singleton]
    omega

/-! ## The order of the items -/

/-- One item comes before another: by priority, then by falling authority and freshness, then by
identity. -/
def Before (left right : ContextItem) : Prop :=
  left.priority < right.priority ∨ left.priority = right.priority ∧
    (left.authority > right.authority ∨ left.authority = right.authority ∧
      (left.freshness > right.freshness ∨ left.freshness = right.freshness ∧
        left.id < right.id))

theorem before_iff {left right : Candidate} :
    Before (contextItem left) (contextItem right) ↔
      candidateKey left.evidence < candidateKey right.evidence := by
  simp only [Before, contextItem, candidateKey, Prod.Lex.toLex_lt_toLex, OrderDual.toDual_lt_toDual,
    gt_iff_lt, EmbeddingLike.apply_eq_iff_eq]

theorem candidateKey_injective {left right : EvidenceContent}
    (h : candidateKey left = candidateKey right) : left.id = right.id := by
  simp only [candidateKey, EmbeddingLike.apply_eq_iff_eq, Prod.mk.injEq] at h
  exact h.2.2.2

/-- Sorted candidates of distinct nodes follow each other strictly. -/
theorem sorted_before (hnodup : (candidates.map Candidate.id).Nodup) :
    (sortBy (fun candidate => candidateKey candidate.evidence) candidates).Pairwise
      fun left right => Before (contextItem left) (contextItem right) := by
  have hkeys : (candidates.map fun candidate => candidateKey candidate.evidence).Nodup := by
    rw [nodup_map_iff_inj_on hnodup.of_map]
    intro left hleft right hright heq
    exact inj_on_of_nodup_map hnodup hleft hright (candidateKey_injective heq)
  have hsorted := pairwise_map.mp (pairwise_lt_sortBy hkeys)
  exact hsorted.imp fun hlt => before_iff.mpr hlt

/-! ## Invariants of a packet -/

/-- An item of some bytes would take the packet over one of its bounds, after the items in front
of it. -/
def Exceeds (receipt : PacketReceipt) (before : List ContextItem) (bytes : ℕ) : Prop :=
  before.length = receipt.effectiveMaxItems ∨
    (before.map ContextItem.rawBytes).sum + bytes > receipt.effectiveMaxBytes ∨
    ∃ ceiling, receipt.runtimeTokenCeiling = some ceiling ∧
      ((before.map ContextItem.rawBytes).sum + bytes + 3) / 4 > ceiling

/-- What holds of every packet that `assemble` returns. -/
structure ContextInvariants (request : PacketAssemblyRequest) (packet : ContextPacket) :
    Prop where
  seeds : packet.receipt.seedIds = request.view.ids
  dependencies : dependencyClosure request =
    some (.ok ⟨packet.receipt.admittedDependencyIds, packet.receipt.dependencyClosureTruncated⟩)
  perm : (packet.receipt.selectedIds ++ packet.receipt.omittedIds).Perm
    (packet.receipt.seedIds ++ packet.receipt.admittedDependencyIds)
  nodup : (packet.receipt.selectedIds ++ packet.receipt.omittedIds).Nodup
  selected : packet.items.map ContextItem.id = packet.receipt.selectedIds
  offered : ∀ item ∈ packet.items, ∃ candidate,
    Offered request packet.receipt.admittedDependencyIds candidate ∧ item = contextItem candidate
  required : ∀ evidence ∈ request.evidence, evidence.priority = .required →
    evidence.id ∈ packet.receipt.selectedIds
  ordered : packet.items.Pairwise Before
  payload : byteLen packet.payload = packet.receipt.rawBytes
  rawBytes : packet.receipt.rawBytes = (packet.items.map ContextItem.rawBytes).sum
  limits : packet.receipt.effectiveMaxItems = min request.limits.maxItems
      (request.view.spec.maxItems + packet.receipt.admittedDependencyIds.length) ∧
    packet.receipt.effectiveMaxBytes = min request.limits.maxBytes request.view.spec.maxBytes ∧
    packet.receipt.runtimeTokenCeiling = request.limits.runtimeTokenCeiling
  withinItems : packet.items.length ≤ packet.receipt.effectiveMaxItems
  withinBytes : packet.receipt.rawBytes ≤ min request.limits.maxBytes request.view.spec.maxBytes
  withinTokens : packet.receipt.estimatedTokens = (packet.receipt.rawBytes + 3) / 4 ∧
    ∀ ceiling, request.limits.runtimeTokenCeiling = some ceiling →
      (packet.receipt.rawBytes + 3) / 4 ≤ ceiling
  omitted : ∀ id ∈ packet.receipt.omittedIds, ∃ candidate before after,
    Offered request packet.receipt.admittedDependencyIds candidate ∧ candidate.id = id ∧
      packet.items = before ++ after ∧ (∀ item ∈ before, Before item (contextItem candidate)) ∧
      (∀ item ∈ after, Before (contextItem candidate) item) ∧
      Exceeds packet.receipt before (contextItem candidate).rawBytes
  complete : packet.receipt.truncated = false → request.view.Complete ∧
    (∀ n id, PositivelyReached request n id →
      id ∈ request.view.ids ∨ id ∈ packet.receipt.admittedDependencyIds) ∧
    packet.receipt.omittedIds = []

/-- The course of a successful assembly. -/
theorem assemble_spec {packet : ContextPacket} (h : assemble request = some (.ok packet)) :
    ∃ closure evidence limits candidates outcome,
      dependencyClosure request = some (.ok closure) ∧
      indexEvidence request closure.admittedIds = .ok evidence ∧
      effectiveLimits request closure.admittedIds.length = .ok limits ∧
      candidatesOf request closure.admittedIds evidence = some candidates ∧
      admitAll (judgeCandidate limits)
        (sortBy (fun candidate => candidateKey candidate.evidence) candidates) .empty =
          .ok outcome ∧
      packet = ⟨(contextStateOf outcome).items, (contextStateOf outcome).payload,
        packetReceipt request closure limits (contextStateOf outcome)⟩ := by
  unfold assemble at h
  cases hclosure : dependencyClosure request with
  | none => simp [hclosure] at h
  | some result =>
      cases result with
      | error error => simp [hclosure] at h
      | ok closure =>
          simp only [hclosure] at h
          cases hprepare : prepare request closure.admittedIds with
          | error error => simp [hprepare] at h
          | ok prepared =>
              obtain ⟨evidence, limits⟩ := prepared
              simp only [hprepare, Option.map_eq_some_iff] at h
              obtain ⟨candidates, hcandidates, hfrom⟩ := h
              unfold prepare at hprepare
              rw [bind_eq_ok_iff] at hprepare
              obtain ⟨index, hindex, hprepare⟩ := hprepare
              rw [bind_eq_ok_iff (α := PacketLimits)] at hprepare
              obtain ⟨effective, hlimits, hprepare⟩ := hprepare
              rw [bind_eq_ok_iff (α := ℕ)] at hprepare
              obtain ⟨_, _, hprepared⟩ := hprepare
              obtain ⟨rfl, rfl⟩ := Prod.mk.inj (ok.inj hprepared)
              have hstart : (⟨[], [], [], [], 0⟩ : ContextState) = contextStateOf .empty := rfl
              unfold assembleFrom at hfrom
              rw [hstart, selectCandidates_eq] at hfrom
              cases hadmission : admitAll (judgeCandidate effective)
                  (sortBy (fun candidate => candidateKey candidate.evidence) candidates)
                  .empty with
              | error error => simp [hadmission, Except.map, bind, Except.bind] at hfrom
              | ok outcome =>
                  rw [hadmission] at hfrom
                  obtain rfl := ok.inj hfrom
                  exact ⟨closure, index, effective, candidates, outcome, rfl, hindex, hlimits,
                    hcandidates, hadmission, rfl⟩

theorem effectiveLimits_eq_ok {admitted : ℕ} {limits : PacketLimits}
    (h : effectiveLimits request admitted = .ok limits) :
    limits = ⟨min request.limits.maxItems (request.view.spec.maxItems + admitted),
      min request.limits.maxBytes request.view.spec.maxBytes,
      request.limits.runtimeTokenCeiling⟩ := by
  unfold effectiveLimits at h
  rw [bind_eq_ok_iff (α := ℕ)] at h
  obtain ⟨ceiling, hadd, hlimits⟩ := h
  obtain ⟨_, rfl⟩ := checkedAdd_eq_ok_iff.mp hadd
  exact (ok.inj hlimits).symm

theorem byteLen_flatten (parts : List Str) :
    byteLen parts.flatten = (parts.map byteLen).sum := by
  induction parts with
  | nil => rfl
  | cons part rest ih =>
      have happend : byteLen (part ++ rest.flatten) =
          byteLen part + byteLen rest.flatten := by
        simp [byteLen]
      rw [flatten_cons, happend, ih, map_cons, sum_cons]

theorem sum_rawBytes (candidates : List Candidate) :
    ((candidates.map contextItem).map ContextItem.rawBytes).sum = contextBytes candidates := by
  rw [map_map]
  rfl

/-- A successful assembly does not depend on the order of the evidence. -/
theorem assemble_perm {evidence : List EvidenceContent} (hperm : evidence.Perm request.evidence) :
    assemble { request with evidence := evidence } = assemble request := by
  have hclosure : dependencyClosure { request with evidence := evidence } =
      dependencyClosure request := rfl
  have hprepare : ∀ admittedIds, prepare { request with evidence := evidence } admittedIds =
      prepare request admittedIds := by
    intro admittedIds
    unfold prepare
    rw [indexEvidence_perm hperm]
    rfl
  unfold assemble
  rw [hclosure]
  cases dependencyClosure request with
  | none => rfl
  | some result =>
      cases result with
      | error error => rfl
      | ok closure =>
          dsimp only
          rw [hprepare]
          rfl

/-- Every left-out candidate was judged against the selected candidates that precede it. -/
theorem exceeds_of_omitted (request : PacketAssemblyRequest) (closure : DependencyClosure)
    {limits : PacketLimits} {outcome : Outcome Candidate PacketBound}
    (hadmits : Admits (judgeCandidate limits) candidates outcome) (hsorted : candidates.Pairwise fun
    left right => Before (contextItem left) (contextItem right)) {candidate : Candidate}
    {bound : PacketBound} (homitted : (candidate, bound) ∈ outcome.omitted) :
    ∃ before after, (contextStateOf outcome).items = before ++ after ∧
      (∀ item ∈ before, Before item (contextItem candidate)) ∧
      (∀ item ∈ after, Before (contextItem candidate) item) ∧
      Exceeds (packetReceipt request closure limits (contextStateOf outcome)) before
        (contextItem candidate).rawBytes := by
  obtain ⟨before, after, hsplit, hjudge, hsublist⟩ := hadmits.omitted_spec homitted
  have horder := hsorted.sublist hsublist
  rw [pairwise_append, pairwise_cons] at horder
  obtain ⟨_, ⟨hafter, _⟩, hbefore⟩ := horder
  refine ⟨before.map contextItem, after.map contextItem, ?_, ?_, ?_, ?_⟩
  · show outcome.admitted.map contextItem = _
    rw [hsplit, map_append]
  · intro item hitem
    obtain ⟨other, hother, rfl⟩ := mem_map.mp hitem
    exact hbefore other hother candidate (mem_cons_self)
  · intro item hitem
    obtain ⟨other, hother, rfl⟩ := mem_map.mp hitem
    exact hafter other hother
  · have hreject := (judgeCandidate_eq_some hjudge).2
    rw [Ne, rejection_eq_none_iff] at hreject
    unfold Exceeds
    rw [sum_rawBytes, length_map]
    show before.length = limits.maxItems ∨
      contextBytes before + encodedBytes candidate > limits.maxBytes ∨
      ∃ ceiling, limits.runtimeTokenCeiling = some ceiling ∧
        (contextBytes before + encodedBytes candidate + 3) / 4 > ceiling
    by_contra hnone
    push Not at hnone
    obtain ⟨hitems, hbytes, htokens⟩ := hnone
    refine hreject ⟨hitems, hbytes, fun ceiling hceiling => ?_⟩
    rw [estimateTokens_eq]
    exact htokens ceiling hceiling

def planId : NodeId := ⟨"plan".toList, by decide⟩
def guideId : NodeId := ⟨"guide".toList, by decide⟩

def scanProvenance : Provenance := ⟨"scan".toList, "plan.md".toList, by decide⟩

def planNodes : List NodeInput :=
  [⟨guideId, .document, scanProvenance, ⟨90, by decide⟩, NodeFacts.default⟩,
    ⟨planId, .document, scanProvenance, ⟨90, by decide⟩, NodeFacts.default⟩]

def planEdges : List EdgeInput :=
  [⟨⟨"uses".toList, by decide⟩, planId, guideId, scanProvenance, ⟨90, by decide⟩, .known,
    .dependency⟩]

/-- A plan that depends on a guide. -/
def planGraph : KnowledgeGraph where
  nodes := planNodes
  nodeIndex := Adjacency.positions (planNodes.map NodeInput.id)
  edges := planEdges
  tables := Adjacency.tablesOf EdgeInput.id EdgeInput.source EdgeInput.target planEdges
  valid := ⟨by decide, by decide, by decide, by decide⟩
  indexed := rfl
  linked := rfl

def planSpec : ViewSpec :=
  ⟨.nodeIds [planId], .all, .nodeId, .none, [], .markdown, 4, 4096⟩

def planView : CompiledView :=
  ⟨planSpec, (candidateNodes planSpec planGraph).map (viewItem planSpec), OrdMap.empty, 0, false,
    planGraph, candidateNodes planSpec planGraph, [], (append_nil _).symm, rfl, fun _ => rfl⟩

def planAnchor : PreservationAnchor := ⟨"a".toList, "plan".toList, by decide⟩

/-- The guide does not fit behind the plan. -/
def planRequest : PacketAssemblyRequest where
  view := planView
  graph := planGraph
  evidence := [⟨guideId, "guide".toList, .recommended, 1, 1, []⟩,
    ⟨planId, "plan".toList, .required, 1, 1, [planAnchor]⟩]
  limits := ⟨8, 60, some 100⟩
  dependencyLimits := ⟨2, 8, by decide⟩

end Bran.Packet
