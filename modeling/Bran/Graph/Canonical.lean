import Bran.Graph.Snapshot

/-!
# The canonical form of a snapshot

`canonical_json` identifies a snapshot in two directions.  It does not depend on
the order in which nodes, edges and the collections inside them were passed to
the constructors, because those normalise every collection.  And it determines
the snapshot, because each writer is uniquely parsable: field after field can be
read off its output.
-/

namespace Bran.Graph

open Validation Encoding List
open Except (ok.inj)

/-! ## Order of the arguments -/

theorem normalizeStrings_perm {values values' normalized normalized' : List Str} {field : Str}
    (hperm : values.Perm values') (h : normalizeStrings values field = .ok normalized)
    (h' : normalizeStrings values' field = .ok normalized') : normalized = normalized' := by
  obtain ⟨_, rfl⟩ := normalizeStrings_eq_ok_iff.mp h
  obtain ⟨_, rfl⟩ := normalizeStrings_eq_ok_iff.mp h'
  exact normalize_eq_of_perm hperm

/-- Two nodes built from the same arguments up to the order of domains and provenance. -/
inductive NodeVariant : StructuralNode → StructuralNode → Prop
  | intro {path contentDigest : Str} {sourceType : StructuralSourceType}
      {domains domains' : List Str} {owner : Option Str} {lifecycle : StructuralLifecycle}
      {authority : StructuralAuthority} {generatedStatus : StructuralGeneratedStatus}
      {provenance provenance' : List Provenance} {first second : StructuralNode}
      (hdomains : domains.Perm domains') (hprovenance : provenance.Perm provenance')
      (hfirst : StructuralNode.new path contentDigest sourceType domains owner lifecycle authority
        generatedStatus provenance = .ok first)
      (hsecond : StructuralNode.new path contentDigest sourceType domains' owner lifecycle
        authority generatedStatus provenance' = .ok second) : NodeVariant first second

/-- Two edges built from the same arguments up to the order of provenance. -/
inductive EdgeVariant : StructuralEdge → StructuralEdge → Prop
  | intro {kind : StructuralEdgeKind} {source target sourceLocator : Str}
      {provenance provenance' : List Provenance} {certainty : StructuralEdgeCertainty}
      {first second : StructuralEdge} (hprovenance : provenance.Perm provenance')
      (hfirst : StructuralEdge.new kind source target sourceLocator provenance certainty =
        .ok first)
      (hsecond : StructuralEdge.new kind source target sourceLocator provenance' certainty =
        .ok second) : EdgeVariant first second

/-- Two receipts built from the same arguments up to the order of validation facts. -/
inductive ReceiptVariant : StructuralSnapshotReceipt → StructuralSnapshotReceipt → Prop
  | intro {operationId : Str} {beforeDigest candidateDigest publishedDigest : Option Str}
      {validationFacts validationFacts' : List Str} {first second : StructuralSnapshotReceipt}
      (hfacts : validationFacts.Perm validationFacts')
      (hfirst : StructuralSnapshotReceipt.new operationId beforeDigest candidateDigest
        publishedDigest validationFacts = .ok first)
      (hsecond : StructuralSnapshotReceipt.new operationId beforeDigest candidateDigest
        publishedDigest validationFacts' = .ok second) : ReceiptVariant first second

/-- One list is a permutation of the other, record by record up to `variant`. -/
def Rearranged {α : Type*} (variant : α → α → Prop) (first second : List α) : Prop :=
  ∃ middle, List.Forall₂ variant first middle ∧ middle.Perm second

theorem NodeVariant.eq {first second : StructuralNode} (h : NodeVariant first second) :
    first = second := by
  obtain ⟨hdomains, hprovenance, hfirst, hsecond⟩ := h
  rw [StructuralNode.new, check_bind_eq_ok_iff, check_bind_eq_ok_iff, bind_eq_ok_iff]
    at hfirst hsecond
  obtain ⟨_, _, normalized, hnormalized, hfirst⟩ := hfirst
  obtain ⟨_, _, normalized', hnormalized', hsecond⟩ := hsecond
  rw [check_bind_eq_ok_iff] at hfirst hsecond
  obtain rfl := ok.inj hfirst.2
  obtain rfl := ok.inj hsecond.2
  rw [normalizeStrings_perm hdomains hnormalized hnormalized', normalizeProvenance,
    normalizeProvenance, normalize_eq_of_perm hprovenance]

theorem EdgeVariant.eq {first second : StructuralEdge} (h : EdgeVariant first second) :
    first = second := by
  obtain ⟨hprovenance, hfirst, hsecond⟩ := h
  rw [StructuralEdge.new, check_bind_eq_ok_iff, check_bind_eq_ok_iff, check_bind_eq_ok_iff]
    at hfirst hsecond
  obtain rfl := ok.inj hfirst.2.2.2
  obtain rfl := ok.inj hsecond.2.2.2
  rw [normalizeProvenance, normalizeProvenance, normalize_eq_of_perm hprovenance]

theorem ReceiptVariant.eq {first second : StructuralSnapshotReceipt}
    (h : ReceiptVariant first second) : first = second := by
  obtain ⟨hfacts, hfirst, hsecond⟩ := h
  rw [StructuralSnapshotReceipt.new, check_bind_eq_ok_iff, check_bind_eq_ok_iff,
    check_bind_eq_ok_iff, check_bind_eq_ok_iff, bind_eq_ok_iff] at hfirst hsecond
  obtain ⟨_, _, _, _, normalized, hnormalized, hfirst⟩ := hfirst
  obtain ⟨_, _, _, _, normalized', hnormalized', hsecond⟩ := hsecond
  obtain rfl := ok.inj hfirst
  obtain rfl := ok.inj hsecond
  rw [normalizeStrings_perm hfacts hnormalized hnormalized']

theorem Rearranged.perm {α : Type*} {variant : α → α → Prop}
    (hvariant : ∀ first second, variant first second → first = second) {first second : List α}
    (h : Rearranged variant first second) : first.Perm second := by
  obtain ⟨middle, hmiddle, hperm⟩ := h
  have heq : first = middle := by
    rw [← forall₂_eq_eq_eq]
    exact hmiddle.imp hvariant
  exact heq ▸ hperm

/-- Rearranged arguments give the same snapshot. -/
theorem StructuralGraphSnapshot.new_eq_of_rearranged {schemaVersion : ℕ}
    {parentDigest : Option Str} {scanInputDigest graphDigest frozenFrequencyDigest : Str}
    {nodes nodes' : List StructuralNode} {edges edges' : List StructuralEdge}
    {receipt receipt' : StructuralSnapshotReceipt} {first second : StructuralGraphSnapshot}
    (hnodes : Rearranged NodeVariant nodes nodes') (hedges : Rearranged EdgeVariant edges edges')
    (hreceipt : ReceiptVariant receipt receipt')
    (hfirst : StructuralGraphSnapshot.new schemaVersion parentDigest scanInputDigest graphDigest
      frozenFrequencyDigest nodes edges receipt = .ok first)
    (hsecond : StructuralGraphSnapshot.new schemaVersion parentDigest scanInputDigest graphDigest
      frozenFrequencyDigest nodes' edges' receipt' = .ok second) : first = second := by
  obtain ⟨_, _, _, _, _, _, hindexable, hfields⟩ := new_eq_ok_iff.mp hfirst
  obtain ⟨_, _, _, _, _, _, _, hfields'⟩ := new_eq_ok_iff.mp hsecond
  have hsortedNodes := sortBy_eq_of_perm (hnodes.perm fun _ _ h => h.eq) hindexable.nodeIds
  have hsortedEdges := sortBy_eq_of_perm (hedges.perm fun _ _ h => h.eq) hindexable.edgeIds
  refine eq_of_fields ?_
  rw [hfields, hfields', hreceipt.eq, unsealedOf, unsealedOf, hsortedNodes, hsortedEdges]

/-! ## Reading the canonical form -/

theorem parsable_writeJsonString : Parsable writeJsonString := Schema.parsable_writeEscapedString

theorem parsable_writeJsonOption : Parsable writeJsonOption := by
  intro first second rest rest' heq
  cases first with
  | none =>
      cases second with
      | none => exact ⟨rfl, append_cancel_left heq⟩
      | some value => exact absurd (List.cons.inj heq).1 (by decide)
  | some value =>
      cases second with
      | none => exact absurd (List.cons.inj heq).1 (by decide)
      | some value' =>
          obtain ⟨rfl, hrest⟩ := parsable_writeJsonString heq
          exact ⟨rfl, hrest⟩

/-- An array is read up to its bracket when no element starts with one. -/
theorem parsable_writeJsonArray {α : Type*} {write : α → Str} (h : Parsable write)
    (start : Char) (hstart : ∀ value, (write value).head? = some start) (hne : start ≠ ']') :
    Parsable fun values => writeJsonArray values write ++ [']'] :=
  parsable_separated h (by decide) fun value => by
    obtain ⟨tail, htail⟩ := List.head?_eq_some_iff.mp (hstart value)
    exact ⟨start, tail, htail, hne⟩

theorem parsable_writeJsonStrings : Parsable fun values => writeJsonStrings values ++ [']'] :=
  parsable_writeJsonArray parsable_writeJsonString '"' (fun _ => rfl) (by decide)

theorem parsable_writeProvenance : Parsable writeProvenance := by
  intro first second rest rest' heq
  unfold writeProvenance at heq
  simp only [append_assoc] at heq
  replace heq := append_cancel_left heq
  obtain ⟨hlocator, heq⟩ := parsable_writeJsonString.field _ heq
  obtain ⟨hsource, heq⟩ := parsable_writeJsonString.field _ heq
  refine ⟨Provenance.key_injective ?_, heq⟩
  rw [Provenance.key, Provenance.key, hlocator, hsource]

theorem head_writeProvenance (value : Provenance) : (writeProvenance value).head? = some '{' := rfl

theorem parsable_provenances :
    Parsable fun values => writeJsonArray values writeProvenance ++ [']'] :=
  parsable_writeJsonArray parsable_writeProvenance '{' head_writeProvenance (by decide)

theorem parsable_writeStructuralNode : Parsable writeStructuralNode := by
  intro first second rest rest' heq
  unfold writeStructuralNode at heq
  simp only [append_assoc] at heq
  replace heq := append_cancel_left heq
  obtain ⟨hauthority, heq⟩ := parsable_writeJsonString.field _ heq
  obtain ⟨hcontentDigest, heq⟩ := parsable_writeJsonString.field _ heq
  obtain ⟨hdomains, heq⟩ := parsable_writeJsonStrings.closedField (by rfl) heq
  obtain ⟨hgeneratedStatus, heq⟩ := parsable_writeJsonString.field _ heq
  obtain ⟨hid, heq⟩ := parsable_writeJsonString.field _ heq
  obtain ⟨hlifecycle, heq⟩ := parsable_writeJsonString.field _ heq
  obtain ⟨howner, heq⟩ := parsable_writeJsonOption.field _ heq
  obtain ⟨hpath, heq⟩ := parsable_writeJsonString.field _ heq
  obtain ⟨hprovenance, heq⟩ := parsable_provenances.closedField (by rfl) heq
  obtain ⟨hsourceType, heq⟩ := parsable_writeJsonString.field _ heq
  refine ⟨?_, heq⟩
  cases first
  cases second
  simp only [StructuralNode.mk.injEq]
  exact ⟨hid, hpath, hcontentDigest, StructuralSourceType.asStr_injective hsourceType, hdomains,
    howner, StructuralLifecycle.asStr_injective hlifecycle,
    StructuralAuthority.asStr_injective hauthority,
    StructuralGeneratedStatus.asStr_injective hgeneratedStatus, hprovenance⟩

theorem parsable_structuralNodes :
    Parsable fun values => writeJsonArray values writeStructuralNode ++ [']'] :=
  parsable_writeJsonArray parsable_writeStructuralNode '{' (fun value => by
    unfold writeStructuralNode
    simp only [append_assoc]
    rfl) (by decide)

theorem parsable_writeStructuralEdge : Parsable writeStructuralEdge := by
  intro first second rest rest' heq
  unfold writeStructuralEdge at heq
  simp only [append_assoc] at heq
  replace heq := append_cancel_left heq
  obtain ⟨hcertainty, heq⟩ := parsable_writeJsonString.field _ heq
  obtain ⟨hid, heq⟩ := parsable_writeJsonString.field _ heq
  obtain ⟨hkind, heq⟩ := parsable_writeJsonString.field _ heq
  obtain ⟨hprovenance, heq⟩ := parsable_provenances.closedField (by rfl) heq
  obtain ⟨hsource, heq⟩ := parsable_writeJsonString.field _ heq
  obtain ⟨hsourceLocator, heq⟩ := parsable_writeJsonString.field _ heq
  obtain ⟨htarget, heq⟩ := parsable_writeJsonString.field _ heq
  refine ⟨?_, heq⟩
  cases first
  cases second
  simp only [StructuralEdge.mk.injEq]
  exact ⟨hid, StructuralEdgeKind.asStr_injective hkind, hsource, htarget, hsourceLocator,
    hprovenance, StructuralEdgeCertainty.asStr_injective hcertainty⟩

theorem parsable_structuralEdges :
    Parsable fun values => writeJsonArray values writeStructuralEdge ++ [']'] :=
  parsable_writeJsonArray parsable_writeStructuralEdge '{' (fun value => by
    unfold writeStructuralEdge
    simp only [append_assoc]
    rfl) (by decide)

theorem parsable_writeReceipt : Parsable writeReceipt := by
  intro first second rest rest' heq
  unfold writeReceipt at heq
  simp only [append_assoc] at heq
  replace heq := append_cancel_left heq
  obtain ⟨hbefore, heq⟩ := parsable_writeJsonOption.field _ heq
  obtain ⟨hcandidate, heq⟩ := parsable_writeJsonOption.field _ heq
  obtain ⟨hoperation, heq⟩ := parsable_writeJsonString.field _ heq
  obtain ⟨hordering, heq⟩ := (parsable_decimal ',' (by decide)).closedField
    (by rfl) heq
  obtain ⟨hpublished, heq⟩ := parsable_writeJsonOption.field _ heq
  obtain ⟨hfacts, heq⟩ := parsable_writeJsonStrings.closedField (by rfl) heq
  refine ⟨?_, heq⟩
  cases first
  cases second
  simp only [StructuralSnapshotReceipt.mk.injEq]
  exact ⟨hoperation, hbefore, hcandidate, hpublished, hfacts, hordering⟩

namespace SnapshotFields

theorem parsable_writeIndexRecord : Parsable writeIndexRecord := by
  intro first second rest rest' heq
  unfold writeIndexRecord at heq
  simp only [append_assoc] at heq
  replace heq := append_cancel_left heq
  obtain ⟨hid, heq⟩ := parsable_writeJsonString.field _ heq
  obtain ⟨hposition, heq⟩ := (parsable_decimal '}' (by decide)).closedField
    (by rfl) heq
  exact ⟨Prod.ext hid hposition, heq⟩

theorem parsable_indexRecords :
    Parsable fun records => writeJsonArray records writeIndexRecord ++ [']'] :=
  parsable_writeJsonArray parsable_writeIndexRecord '{' (fun _ => rfl) (by decide)

/-- The forward edges, the identity and the reverse edges of an adjacency record. -/
def writeAdjacencyEntry (entry : List Str × Str × List Str) : Str :=
  "\x7b\"forward\":[".toList ++ writeJsonStrings entry.1 ++
    "],\"node_id\":".toList ++ writeJsonString entry.2.1 ++
    ",\"reverse\":[".toList ++ writeJsonStrings entry.2.2 ++ "]\x7d".toList

theorem parsable_writeAdjacencyEntry : Parsable writeAdjacencyEntry := by
  intro first second rest rest' heq
  unfold writeAdjacencyEntry at heq
  simp only [append_assoc] at heq
  replace heq := append_cancel_left heq
  obtain ⟨hforward, heq⟩ := parsable_writeJsonStrings.closedField (by rfl) heq
  obtain ⟨hid, heq⟩ := parsable_writeJsonString.field _ heq
  obtain ⟨hreverse, heq⟩ := parsable_writeJsonStrings.closedField (by rfl) heq
  exact ⟨Prod.ext hforward (Prod.ext hid hreverse), heq⟩

theorem parsable_adjacency :
    Parsable fun entries => writeJsonArray entries writeAdjacencyEntry ++ [']'] :=
  parsable_writeJsonArray parsable_writeAdjacencyEntry '{' (fun _ => rfl) (by decide)

/-- The entries that `write_adjacency` writes. -/
def adjacencyEntries (snapshot : SnapshotFields) : List (List Str × Str × List Str) :=
  snapshot.nodes.map fun node =>
    (snapshot.forwardEdges node.id, node.id, snapshot.reverseEdges node.id)

theorem writeAdjacency_eq (snapshot : SnapshotFields) :
    snapshot.writeAdjacency = writeJsonArray snapshot.adjacencyEntries writeAdjacencyEntry := by
  rw [adjacencyEntries, writeJsonArray, separated_map]
  rfl

/-- Two records of the same canonical form agree in every field that is not derived. -/
theorem eq_fields_of_canonicalJson_eq {first second : SnapshotFields}
    (h : first.canonicalJson = second.canonicalJson) :
    first.schemaVersion = second.schemaVersion ∧ first.snapshotDigest = second.snapshotDigest ∧
      first.parentDigest = second.parentDigest ∧
      first.scanInputDigest = second.scanInputDigest ∧ first.graphDigest = second.graphDigest ∧
      first.frozenFrequencyDigest = second.frozenFrequencyDigest ∧ first.nodes = second.nodes ∧
      first.edges = second.edges ∧ first.receipt = second.receipt := by
  have hbrace : "\x7d".toList = ['}'] := rfl
  unfold canonicalJson canonicalJsonWithoutDigest writeIndexes writeIndexRecords at h
  simp only [hbrace, dropLast_concat] at h
  simp only [writeAdjacency_eq, append_assoc] at h
  replace h := append_cancel_left h
  obtain ⟨_, h⟩ := parsable_adjacency.closedField (by rfl) h
  obtain ⟨_, h⟩ := parsable_writeJsonString.field _ h
  obtain ⟨hedges, h⟩ := parsable_structuralEdges.closedField (by rfl) h
  obtain ⟨hfrequency, h⟩ := parsable_writeJsonString.field _ h
  obtain ⟨hgraph, h⟩ := parsable_writeJsonString.field _ h
  replace h := append_cancel_left h
  obtain ⟨_, h⟩ := parsable_indexRecords.closedField (by rfl) h
  obtain ⟨_, h⟩ := parsable_indexRecords.closedField (by rfl) h
  replace h := append_cancel_left h
  obtain ⟨hnodes, h⟩ := parsable_structuralNodes.closedField (by rfl) h
  obtain ⟨hparent, h⟩ := parsable_writeJsonOption.field _ h
  obtain ⟨hreceipt, h⟩ := parsable_writeReceipt.field _ h
  obtain ⟨hscan, h⟩ := parsable_writeJsonString.field _ h
  obtain ⟨hschema, h⟩ := (parsable_decimal ',' (by decide)).closedField (by rfl) h
  obtain ⟨hdigest, _⟩ := parsable_writeJsonString h
  exact ⟨hschema, hdigest, hparent, hscan, hgraph, hfrequency, hnodes, hedges, hreceipt⟩

end SnapshotFields

/-- The canonical form determines a snapshot: what is derived follows from the rest. -/
theorem StructuralGraphSnapshot.canonicalJson_injective :
    Function.Injective fun snapshot : StructuralGraphSnapshot => snapshot.canonicalJson := by
  intro first second h
  obtain ⟨hschema, hdigest, hparent, hscan, hgraph, hfrequency, hnodes, hedges, hreceipt⟩ :=
    SnapshotFields.eq_fields_of_canonicalJson_eq h
  have hnodeIndex : first.nodeIndex = second.nodeIndex := by
    rw [first.isValid.nodeIndex_eq, second.isValid.nodeIndex_eq, hnodes]
  have htables : first.tables = second.tables := by
    rw [first.isValid.tables_eq, second.isValid.tables_eq, hedges]
  refine eq_of_fields ?_
  obtain ⟨⟨_, _, _, _, _, _, _, _, _, _, _, _⟩, _⟩ := first
  obtain ⟨⟨_, _, _, _, _, _, _, _, _, _, _, _⟩, _⟩ := second
  simp only [SnapshotFields.mk.injEq] at *
  exact ⟨hschema, hdigest, trivial, hparent, hscan, hgraph, hfrequency, hnodes, hedges, hnodeIndex,
    htables, hreceipt⟩

/-- The canonical form identifies a snapshot: rearranged arguments give the same form and
digest, and equal forms come from equal snapshots. -/
theorem snapshot_identity_canonical :
    (∀ {schemaVersion : ℕ} {parentDigest : Option Str}
        {scanInputDigest graphDigest frozenFrequencyDigest : Str}
        {nodes nodes' : List StructuralNode} {edges edges' : List StructuralEdge}
        {receipt receipt' : StructuralSnapshotReceipt} {first second : StructuralGraphSnapshot},
      Rearranged NodeVariant nodes nodes' → Rearranged EdgeVariant edges edges' →
      ReceiptVariant receipt receipt' →
      StructuralGraphSnapshot.new schemaVersion parentDigest scanInputDigest graphDigest
        frozenFrequencyDigest nodes edges receipt = .ok first →
      StructuralGraphSnapshot.new schemaVersion parentDigest scanInputDigest graphDigest
        frozenFrequencyDigest nodes' edges' receipt' = .ok second →
      first.canonicalJson = second.canonicalJson ∧
        first.snapshotDigest = second.snapshotDigest) ∧
    ∀ first second : StructuralGraphSnapshot,
      first.canonicalJson = second.canonicalJson → first = second := by
  refine ⟨?_, fun first second h => StructuralGraphSnapshot.canonicalJson_injective h⟩
  intro _ _ _ _ _ _ _ _ _ _ _ first second hnodes hedges hreceipt hfirst hsecond
  obtain rfl :=
    StructuralGraphSnapshot.new_eq_of_rearranged hnodes hedges hreceipt hfirst hsecond
  exact ⟨rfl, rfl⟩

end Bran.Graph
