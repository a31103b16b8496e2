import Bran.Agent.ResultId
import Bran.Graph.Model
import Bran.Library.Validation
import Bran.Schema
import Mathlib.Data.Prod.Lex

/-!
# Structural records

The nodes, edges and receipts of a structural graph snapshot, with the checks and
the normalisation of their constructors and the writers of their canonical form.
The identity of a node is the digest of its path and source type, the identity of
an edge the digest of its kind, endpoints and locator.
-/

namespace Bran.Graph

open Validation

def structuralGraphSchemaVersion : ℕ := 1

def structuralGraphOrderingVersion : ℕ := 1

/-! ## Vocabularies -/

inductive StructuralPathCasePolicy
  | caseSensitive
  deriving DecidableEq

def StructuralPathCasePolicy.asStr : StructuralPathCasePolicy → Str
  | .caseSensitive => "case-sensitive".toList

inductive StructuralSourceType
  | text
  | code
  | markdown
  | mermaid
  | metadata
  | preextractedText
  deriving DecidableEq

def StructuralSourceType.asStr : StructuralSourceType → Str
  | .text => "text".toList
  | .code => "code".toList
  | .markdown => "markdown".toList
  | .mermaid => "mermaid".toList
  | .metadata => "metadata".toList
  | .preextractedText => "preextracted-text".toList

inductive StructuralEdgeKind
  | ownership
  | lifecycle
  | supersedes
  | predecessor
  | dependency
  | impact
  | requirement
  | design
  | implementation
  | validation
  | domain
  | architecture
  | businessFlow
  | generatedFrom
  | sourceLink
  deriving DecidableEq

def StructuralEdgeKind.asStr : StructuralEdgeKind → Str
  | .ownership => "ownership".toList
  | .lifecycle => "lifecycle".toList
  | .supersedes => "supersedes".toList
  | .predecessor => "predecessor".toList
  | .dependency => "dependency".toList
  | .impact => "impact".toList
  | .requirement => "requirement".toList
  | .design => "design".toList
  | .implementation => "implementation".toList
  | .validation => "validation".toList
  | .domain => "domain".toList
  | .architecture => "architecture".toList
  | .businessFlow => "business-flow".toList
  | .generatedFrom => "generated-from".toList
  | .sourceLink => "source-link".toList

inductive StructuralLifecycle
  | current
  | superseded
  | draft
  | archive
  | rejected
  deriving DecidableEq

def StructuralLifecycle.asStr : StructuralLifecycle → Str
  | .current => "current".toList
  | .superseded => "superseded".toList
  | .draft => "draft".toList
  | .archive => "archive".toList
  | .rejected => "rejected".toList

inductive StructuralAuthority
  | canonical
  | approved
  | supporting
  | unknown
  deriving DecidableEq

def StructuralAuthority.asStr : StructuralAuthority → Str
  | .canonical => "canonical".toList
  | .approved => "approved".toList
  | .supporting => "supporting".toList
  | .unknown => "unknown".toList

inductive StructuralGeneratedStatus
  | source
  | generated
  | preextracted
  deriving DecidableEq

def StructuralGeneratedStatus.asStr : StructuralGeneratedStatus → Str
  | .source => "source".toList
  | .generated => "generated".toList
  | .preextracted => "preextracted".toList

inductive StructuralEdgeCertainty
  | known
  | dynamic
  | unknown
  | missingTarget
  deriving DecidableEq

def StructuralEdgeCertainty.asStr : StructuralEdgeCertainty → Str
  | .known => "known".toList
  | .dynamic => "dynamic".toList
  | .unknown => "unknown".toList
  | .missingTarget => "missing-target".toList

theorem StructuralSourceType.asStr_injective : Function.Injective asStr := by
  intro first second h
  cases first <;> cases second <;> first | rfl | exact absurd h (by decide)

/-- The members of `StructuralEdgeKind`, in declaration order. -/
def StructuralEdgeKind.all : List StructuralEdgeKind :=
  [.ownership, .lifecycle, .supersedes, .predecessor, .dependency, .impact, .requirement, .design,
    .implementation, .validation, .domain, .architecture, .businessFlow, .generatedFrom, .sourceLink]

theorem StructuralEdgeKind.mem_all (kind : StructuralEdgeKind) : kind ∈ all := by
  cases kind <;> decide

theorem StructuralEdgeKind.asStr_injective : Function.Injective asStr := by
  have hall : ∀ first ∈ all, ∀ second ∈ all, asStr first = asStr second → first = second := by
    decide +kernel
  exact fun first second h => hall first (mem_all first) second (mem_all second) h

theorem StructuralLifecycle.asStr_injective : Function.Injective asStr := by
  intro first second h
  cases first <;> cases second <;> first | rfl | exact absurd h (by decide)

theorem StructuralAuthority.asStr_injective : Function.Injective asStr := by
  intro first second h
  cases first <;> cases second <;> first | rfl | exact absurd h (by decide)

theorem StructuralGeneratedStatus.asStr_injective : Function.Injective asStr := by
  intro first second h
  cases first <;> cases second <;> first | rfl | exact absurd h (by decide)

theorem StructuralEdgeCertainty.asStr_injective : Function.Injective asStr := by
  intro first second h
  cases first <;> cases second <;> first | rfl | exact absurd h (by decide)

/-! ## Checks -/

/-- The private `digest`. -/
def digest (text : Str) : Str := Agent.sha256Value (Text.bytes text)

def validateDigest (value : Str) : Except GraphError Unit :=
  failIf (Agent.isDigest value = false) (.invalidStructuralDigest value)

def validateOptionalDigest : Option Str → Except GraphError Unit
  | some value => validateDigest value
  | none => .ok ()

def validateStructuralPath (path : Str) : Except GraphError Unit :=
  failIf (path.isEmpty || path.head? = some '/' || path.contains '\\' ||
      (path.splitOn '/').any fun part => part.isEmpty || part = ".".toList || part = "..".toList)
    (.invalidStructuralPath path)

def validateStructuralText (value field : Str) : Except GraphError Unit :=
  failIf (Text.isBlank value = true) (.invalidStructuralField field value)

def normalizeStrings (values : List Str) (field : Str) : Except GraphError (List Str) := do
  forEach (fun value => validateStructuralText value field) values
  .ok (normalize values)

def validateSortedUniqueStrings (values : List Str) (field : Str) : Except GraphError Unit := do
  forEach (fun value => validateStructuralText value field) values
  failIf (strictlySorted values = false) (.nonCanonicalStructuralOrder field)

/-- What provenance records are compared by. -/
def Provenance.key (value : Provenance) : Str ×ₗ Str := toLex (value.source, value.locator)

theorem Provenance.key_injective : Function.Injective Provenance.key := by
  rintro ⟨source, locator, _⟩ ⟨source', locator', _⟩ h
  have hpair : (source, locator) = (source', locator') := toLex.injective h
  simpa using hpair

instance : LinearOrder Provenance := LinearOrder.lift' Provenance.key Provenance.key_injective

def normalizeProvenance (values : List Provenance) : List Provenance := normalize values

def validateSortedUniqueProvenance (values : List Provenance) : Except GraphError Unit :=
  failIf (strictlySorted values = false) (.nonCanonicalStructuralOrder "provenance".toList)

/-! ## Nodes -/

structure StructuralNode where
  id : Str
  path : Str
  contentDigest : Str
  sourceType : StructuralSourceType
  domains : List Str
  owner : Option Str
  lifecycle : StructuralLifecycle
  authority : StructuralAuthority
  generatedStatus : StructuralGeneratedStatus
  provenance : List Provenance
  deriving DecidableEq

def structuralNodeIdentity (path : Str) (sourceType : StructuralSourceType) : Str :=
  digest (path ++ '\n' :: sourceType.asStr)

/-- The owner check of `StructuralNode`. -/
def validateOwner : Option Str → Except GraphError Unit
  | some owner => validateStructuralText owner "owner".toList
  | none => .ok ()

def StructuralNode.new (path contentDigest : Str) (sourceType : StructuralSourceType)
    (domains : List Str) (owner : Option Str) (lifecycle : StructuralLifecycle)
    (authority : StructuralAuthority) (generatedStatus : StructuralGeneratedStatus)
    (provenance : List Provenance) : Except GraphError StructuralNode := do
  validateStructuralPath path
  validateDigest contentDigest
  let domains ← normalizeStrings domains "domain".toList
  validateOwner owner
  .ok {
    id := structuralNodeIdentity path sourceType
    path
    contentDigest
    sourceType
    domains
    owner
    lifecycle
    authority
    generatedStatus
    provenance := normalizeProvenance provenance }

def StructuralNode.validate (node : StructuralNode) : Except GraphError Unit := do
  validateStructuralPath node.path
  validateDigest node.contentDigest
  failIf (node.id ≠ structuralNodeIdentity node.path node.sourceType)
    (.invalidStructuralIdentity node.id)
  validateSortedUniqueStrings node.domains "domain".toList
  validateOwner node.owner
  validateSortedUniqueProvenance node.provenance

/-! ## Edges -/

structure StructuralEdge where
  id : Str
  kind : StructuralEdgeKind
  source : Str
  target : Str
  sourceLocator : Str
  provenance : List Provenance
  certainty : StructuralEdgeCertainty
  deriving DecidableEq

def structuralEdgeIdentity (kind : StructuralEdgeKind) (source target locator : Str) : Str :=
  digest (kind.asStr ++ '\n' :: source ++ '\n' :: target ++ '\n' :: locator)

def StructuralEdge.new (kind : StructuralEdgeKind) (source target sourceLocator : Str)
    (provenance : List Provenance) (certainty : StructuralEdgeCertainty) :
    Except GraphError StructuralEdge := do
  validateDigest source
  validateDigest target
  validateStructuralText sourceLocator "source locator".toList
  .ok {
    id := structuralEdgeIdentity kind source target sourceLocator
    kind
    source
    target
    sourceLocator
    provenance := normalizeProvenance provenance
    certainty }

def StructuralEdge.validate (edge : StructuralEdge) : Except GraphError Unit := do
  validateDigest edge.source
  validateDigest edge.target
  validateStructuralText edge.sourceLocator "source locator".toList
  failIf (edge.id ≠ structuralEdgeIdentity edge.kind edge.source edge.target edge.sourceLocator)
    (.invalidStructuralIdentity edge.id)
  validateSortedUniqueProvenance edge.provenance

/-! ## Receipts -/

structure StructuralSnapshotReceipt where
  operationId : Str
  beforeDigest : Option Str
  candidateDigest : Option Str
  publishedDigest : Option Str
  validationFacts : List Str
  orderingVersion : ℕ
  deriving DecidableEq

def StructuralSnapshotReceipt.new (operationId : Str)
    (beforeDigest candidateDigest publishedDigest : Option Str) (validationFacts : List Str) :
    Except GraphError StructuralSnapshotReceipt := do
  validateStructuralText operationId "operation id".toList
  validateOptionalDigest beforeDigest
  validateOptionalDigest candidateDigest
  validateOptionalDigest publishedDigest
  let validationFacts ← normalizeStrings validationFacts "validation fact".toList
  .ok {
    operationId
    beforeDigest
    candidateDigest
    publishedDigest
    validationFacts
    orderingVersion := structuralGraphOrderingVersion }

def StructuralSnapshotReceipt.validate (receipt : StructuralSnapshotReceipt) :
    Except GraphError Unit := do
  validateStructuralText receipt.operationId "operation id".toList
  validateOptionalDigest receipt.beforeDigest
  validateOptionalDigest receipt.candidateDigest
  validateOptionalDigest receipt.publishedDigest
  validateSortedUniqueStrings receipt.validationFacts "validation fact".toList
  failIf (receipt.orderingVersion ≠ structuralGraphOrderingVersion)
    (.invalidStructuralOrderingVersion receipt.orderingVersion)

/-! ## Writers -/

def writeJsonString (value : Str) : Str := Schema.writeEscapedString value

def writeJsonOption : Option Str → Str
  | some value => writeJsonString value
  | none => "null".toList

def writeJsonArray {α : Type*} (values : List α) (write : α → Str) : Str :=
  Encoding.separated ',' write values

def writeJsonStrings (values : List Str) : Str := writeJsonArray values writeJsonString

def writeProvenance (value : Provenance) : Str :=
  "\x7b\"locator\":".toList ++ writeJsonString value.locator ++
    ",\"source\":".toList ++ writeJsonString value.source ++ "\x7d".toList

def writeStructuralNode (value : StructuralNode) : Str :=
  "\x7b\"authority\":".toList ++ writeJsonString value.authority.asStr ++
    ",\"content_digest\":".toList ++ writeJsonString value.contentDigest ++
    ",\"domains\":[".toList ++ writeJsonStrings value.domains ++
    "],\"generated_status\":".toList ++ writeJsonString value.generatedStatus.asStr ++
    ",\"id\":".toList ++ writeJsonString value.id ++
    ",\"lifecycle\":".toList ++ writeJsonString value.lifecycle.asStr ++
    ",\"owner\":".toList ++ writeJsonOption value.owner ++
    ",\"path\":".toList ++ writeJsonString value.path ++
    ",\"provenance\":[".toList ++ writeJsonArray value.provenance writeProvenance ++
    "],\"source_type\":".toList ++ writeJsonString value.sourceType.asStr ++ "\x7d".toList

def writeStructuralEdge (value : StructuralEdge) : Str :=
  "\x7b\"certainty\":".toList ++ writeJsonString value.certainty.asStr ++
    ",\"id\":".toList ++ writeJsonString value.id ++
    ",\"kind\":".toList ++ writeJsonString value.kind.asStr ++
    ",\"provenance\":[".toList ++ writeJsonArray value.provenance writeProvenance ++
    "],\"source\":".toList ++ writeJsonString value.source ++
    ",\"source_locator\":".toList ++ writeJsonString value.sourceLocator ++
    ",\"target\":".toList ++ writeJsonString value.target ++ "\x7d".toList

def writeReceipt (value : StructuralSnapshotReceipt) : Str :=
  "\x7b\"before_digest\":".toList ++ writeJsonOption value.beforeDigest ++
    ",\"candidate_digest\":".toList ++ writeJsonOption value.candidateDigest ++
    ",\"operation_id\":".toList ++ writeJsonString value.operationId ++
    ",\"ordering_version\":".toList ++ Text.decimal value.orderingVersion ++
    ",\"published_digest\":".toList ++ writeJsonOption value.publishedDigest ++
    ",\"validation_facts\":[".toList ++ writeJsonStrings value.validationFacts ++ "]\x7d".toList

def structuralContentDigest (nodes : List StructuralNode) (edges : List StructuralEdge) : Str :=
  digest ("\x7b\"edges\":[".toList ++
    writeJsonArray (sortBy StructuralEdge.id edges) writeStructuralEdge ++
    "],\"nodes\":[".toList ++
    writeJsonArray (sortBy StructuralNode.id nodes) writeStructuralNode ++ "]\x7d".toList)

/-! ## What the checks say -/

@[simp] theorem isDigest_digest (text : Str) : Agent.isDigest (digest text) = true :=
  Agent.isDigest_sha256Value _

@[simp] theorem validateDigest_eq_ok_iff {value : Str} :
    validateDigest value = .ok () ↔ Agent.isDigest value = true := by
  rw [validateDigest, failIf_eq_ok_iff, Bool.not_eq_false]

theorem validateStructuralText_eq_ok_iff {value field : Str} :
    validateStructuralText value field = .ok () ↔ Text.isBlank value = false := by
  rw [validateStructuralText, failIf_eq_ok_iff, Bool.not_eq_true]

theorem normalizeStrings_eq_ok_iff {values normalized : List Str} {field : Str} :
    normalizeStrings values field = .ok normalized ↔
      (∀ value ∈ values, Text.isBlank value = false) ∧ normalize values = normalized := by
  rw [normalizeStrings, check_bind_eq_ok_iff, forEach_eq_ok_iff]
  simp only [validateStructuralText_eq_ok_iff, Except.ok.injEq]

end Bran.Graph
