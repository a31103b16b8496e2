import Bran.Library.OrdMap
import Bran.Library.Text

/-!
# Graph input and topology records

The scanner-neutral records of `graph/model.rs`.  A type whose Rust constructor
validates its argument carries the validated condition as a field, so that an
identity, a provenance or a confidence is well formed wherever it occurs.
-/

namespace Bran.Graph

open Text

inductive NodeRole
  | document
  | section_
  | symbol
  | external
  | entrypoint
  | test
  | generated
  | archived
  deriving DecidableEq

inductive EdgeCertainty
  | known
  | dynamic
  | unknown
  | missingTarget
  deriving DecidableEq

inductive EdgeRelationship
  | unspecified
  | dependency
  | implementation
  | replacement
  | supersedes
  | validation
  | reachability
  | contradiction
  | conflict
  deriving DecidableEq

/-! ## Identities -/

/-- A byte that `valid_identity` admits; every one is ASCII, so the scalars of an
admitted string are its bytes. -/
def identityChar (c : Char) : Bool :=
  c.isAlphanum || c = '.' || c = '/' || c = ':' || c = '_' || c = '-'

def validIdentity (value : Str) : Bool :=
  !value.isEmpty && byteLen value ≤ 256 && value.all identityChar

structure NodeId where
  value : Str
  valid : validIdentity value = true

structure EdgeId where
  value : Str
  valid : validIdentity value = true

theorem NodeId.value_injective : Function.Injective NodeId.value := by
  rintro ⟨first, _⟩ ⟨second, _⟩ h
  simpa using h

theorem EdgeId.value_injective : Function.Injective EdgeId.value := by
  rintro ⟨first, _⟩ ⟨second, _⟩ h
  simpa using h

instance : LinearOrder NodeId := LinearOrder.lift' NodeId.value NodeId.value_injective

instance : LinearOrder EdgeId := LinearOrder.lift' EdgeId.value EdgeId.value_injective

/-! ## Construction failures -/

inductive GraphError
  | invalidNodeId (value : Str)
  | invalidEdgeId (value : Str)
  | invalidProvenance
  | invalidConfidence (value : ℕ)
  | invalidFactKey (key : Str)
  | invalidFactValue (key value : Str)
  | factFieldLimitExceeded (limit : ℕ)
  | factValuesPerFieldExceeded (key : Str) (limit : ℕ)
  | semanticByteLimitExceeded (limit actual : ℕ)
  | invalidLimits
  | nodeLimitExceeded (limit actual : ℕ)
  | edgeLimitExceeded (limit actual : ℕ)
  | duplicateNodeId (id : NodeId)
  | duplicateEdgeId (id : EdgeId)
  | missingSource (id : NodeId)
  | missingTargetMustBeExplicit (edge : EdgeId) (target : NodeId)
  | missingTargetMustBeAbsent (edge : EdgeId) (target : NodeId)
  | unknownStructuralSchemaVersion (version : ℕ)
  | invalidStructuralOrderingVersion (version : ℕ)
  | invalidStructuralPath (path : Str)
  | invalidStructuralDigest (digest : Str)
  | invalidStructuralIdentity (identity : Str)
  | invalidStructuralField (field value : Str)
  | nonCanonicalStructuralOrder (field : Str)
  | duplicateStructuralNodeId (id : Str)
  | duplicateStructuralEdgeId (id : Str)
  | missingStructuralSource (id : Str)
  | missingStructuralTarget (id : Str)
  | presentStructuralTargetMarkedMissing (id : Str)
  | invalidStructuralIndexes
  | structuralDigestMismatch (expected actual : Str)
  | invalidGeneratedFromTarget (edge target : Str)
  | missingReciprocalLineage (edge : Str)
  | structuralLineageCycle (trail : List Str)
  deriving DecidableEq

def NodeId.parse (value : Str) : Except GraphError NodeId :=
  if h : validIdentity value = true then .ok ⟨value, h⟩ else .error (.invalidNodeId value)

def EdgeId.parse (value : Str) : Except GraphError EdgeId :=
  if h : validIdentity value = true then .ok ⟨value, h⟩ else .error (.invalidEdgeId value)

/-! ## Provenance and confidence -/

def Provenance.maxSourceBytes : ℕ := 128
def Provenance.maxLocatorBytes : ℕ := 1024

/-- The condition `Provenance::new` checks. -/
def validProvenance (source locator : Str) : Bool :=
  !Text.isBlank source && !Text.isBlank locator &&
    byteLen source ≤ Provenance.maxSourceBytes &&
    byteLen locator ≤ Provenance.maxLocatorBytes

structure Provenance where
  source : Str
  locator : Str
  valid : validProvenance source locator = true
  deriving DecidableEq

def Provenance.new (source locator : Str) : Except GraphError Provenance :=
  if h : validProvenance source locator = true then .ok ⟨source, locator, h⟩
  else .error .invalidProvenance

structure Confidence where
  value : ℕ
  valid : value ≤ 100
  deriving DecidableEq

def Confidence.new (value : ℕ) : Except GraphError Confidence :=
  if h : value ≤ 100 then .ok ⟨value, h⟩ else .error (.invalidConfidence value)

/-! ## Semantic facts -/

structure NodeFacts where
  fields : OrdMap Str (List Str)
  semanticBytes : ℕ
  deriving DecidableEq

namespace NodeFacts

def maxFields : ℕ := 32
def maxFieldKeyBytes : ℕ := 64
def maxFieldKeyChars : ℕ := 64
def maxValuesPerField : ℕ := 32
def maxValueBytes : ℕ := 256
def maxSemanticBytes : ℕ := 8 * 1024

def default : NodeFacts := ⟨OrdMap.empty, 0⟩

/-- `valid_fact_key`, as a condition. -/
def validFactKey (key : Str) : Bool :=
  !Text.isBlank key && byteLen key ≤ maxFieldKeyBytes && key.length ≤ maxFieldKeyChars

/-- `valid_fact_value`, as a condition. -/
def validFactValue (value : Str) : Bool :=
  !Text.isBlank value && byteLen value ≤ maxValueBytes

/-- The payload bytes that a new value of `key` adds. -/
def additionalBytes (facts : NodeFacts) (key value : Str) : ℕ :=
  byteLen value + if facts.fields.contains key then 0 else byteLen key

/-- The part of `with_field_value` behind its limits: the value is appended to the
field, which is sorted again. -/
def store (facts : NodeFacts) (key value : Str) : NodeFacts :=
  ⟨facts.fields.insert key
      (((facts.fields.find? key).getD [] ++ [value]).insertionSort (· ≤ ·)),
    facts.semanticBytes + facts.additionalBytes key value⟩

def withFieldValue (facts : NodeFacts) (key value : Str) : Except GraphError NodeFacts :=
  if !validFactKey key then .error (.invalidFactKey key)
  else if !validFactValue value then .error (.invalidFactValue key value)
  else
    match facts.fields.find? key with
    | some values =>
        if values.contains value then .ok facts
        else if values.length = maxValuesPerField then
          .error (.factValuesPerFieldExceeded key maxValuesPerField)
        else withinSemanticBytes facts key value
    | none =>
        if facts.fields.keys.length = maxFields then
          .error (.factFieldLimitExceeded maxFields)
        else withinSemanticBytes facts key value
where
  /-- The last limit, on the payload of the whole node. -/
  withinSemanticBytes (facts : NodeFacts) (key value : Str) : Except GraphError NodeFacts :=
    let actual := facts.semanticBytes + facts.additionalBytes key value
    if actual > maxSemanticBytes then
      .error (.semanticByteLimitExceeded maxSemanticBytes actual)
    else .ok (facts.store key value)

def values (facts : NodeFacts) (key : Str) : Option (List Str) := facts.fields.find? key

/-- `slice::binary_search`, as a test: `fuel` bounds the halvings. -/
def binarySearch (value : Str) : ℕ → List Str → Bool
  | 0, _ => false
  | fuel + 1, items =>
      match items[items.length / 2]? with
      | none => false
      | some middle =>
          if middle = value then true
          else if middle < value then
            binarySearch value fuel (items.drop (items.length / 2 + 1))
          else binarySearch value fuel (items.take (items.length / 2))

def containsValue (facts : NodeFacts) (key value : Str) : Bool :=
  match facts.values key with
  | none => false
  | some items => binarySearch value items.length items

end NodeFacts

/-! ## Messages -/

/-- The derived `Debug` form of an identity, which holds no character to escape. -/
def debugIdentity (name value : Str) : Str := name ++ "(\"".toList ++ value ++ "\")".toList

/-- `Debug` of `NodeId`. -/
def NodeId.debug (id : NodeId) : Str := debugIdentity "NodeId".toList id.value

/-- `Debug` of `EdgeId`. -/
def EdgeId.debug (id : EdgeId) : Str := debugIdentity "EdgeId".toList id.value

/-- `Display` of `GraphError`. -/
def GraphError.display : GraphError → Str
  | .invalidNodeId id => "invalid node identity: ".toList ++ id
  | .invalidEdgeId id => "invalid edge identity: ".toList ++ id
  | .invalidProvenance =>
      "provenance source and locator must be nonblank and at most ".toList ++
        decimal Provenance.maxSourceBytes ++ " and ".toList ++
        decimal Provenance.maxLocatorBytes ++ " bytes".toList
  | .invalidConfidence value => "confidence must be at most 100: ".toList ++ decimal value
  | .invalidFactKey key =>
      "semantic key must be nonblank and at most ".toList ++
        decimal NodeFacts.maxFieldKeyBytes ++ " bytes and ".toList ++
        decimal NodeFacts.maxFieldKeyChars ++ " characters: ".toList ++ key
  | .invalidFactValue key value =>
      key ++ " semantic value must be nonblank and at most ".toList ++
        decimal NodeFacts.maxValueBytes ++ " bytes: ".toList ++ value
  | .factFieldLimitExceeded limit => "semantic field limit exceeded: ".toList ++ decimal limit
  | .factValuesPerFieldExceeded key limit =>
      "semantic value limit exceeded for ".toList ++ key ++ ": ".toList ++ decimal limit
  | .semanticByteLimitExceeded limit actual =>
      "semantic byte limit ".toList ++ decimal limit ++ " exceeded: ".toList ++
        decimal actual
  | .invalidLimits => "node and edge limits must be nonzero".toList
  | .nodeLimitExceeded limit actual =>
      "node limit ".toList ++ decimal limit ++ " exceeded by ".toList ++ decimal actual
  | .edgeLimitExceeded limit actual =>
      "edge limit ".toList ++ decimal limit ++ " exceeded by ".toList ++ decimal actual
  | .duplicateNodeId id => "duplicate node identity: ".toList ++ id.debug
  | .duplicateEdgeId id => "duplicate edge identity: ".toList ++ id.debug
  | .missingSource id => "edge source is not a graph node: ".toList ++ id.debug
  | .missingTargetMustBeExplicit edge target =>
      "edge ".toList ++ edge.debug ++ " references absent target ".toList ++ target.debug ++
        " without MissingTarget certainty".toList
  | .missingTargetMustBeAbsent edge target =>
      "edge ".toList ++ edge.debug ++ " marks present target ".toList ++ target.debug ++
        " MissingTarget".toList
  | .unknownStructuralSchemaVersion version =>
      "unknown structural graph schema version: ".toList ++ decimal version
  | .invalidStructuralOrderingVersion version =>
      "unknown structural graph ordering version: ".toList ++ decimal version
  | .invalidStructuralPath path => "invalid structural path: ".toList ++ path
  | .invalidStructuralDigest digest => "invalid structural digest: ".toList ++ digest
  | .invalidStructuralIdentity identity => "invalid structural identity: ".toList ++ identity
  | .invalidStructuralField field value =>
      "invalid structural ".toList ++ field ++ ": ".toList ++ value
  | .nonCanonicalStructuralOrder field =>
      "noncanonical structural ordering for ".toList ++ field
  | .duplicateStructuralNodeId id => "duplicate structural node: ".toList ++ id
  | .duplicateStructuralEdgeId id => "duplicate structural edge: ".toList ++ id
  | .missingStructuralSource id => "missing structural edge source: ".toList ++ id
  | .missingStructuralTarget id => "missing structural edge target: ".toList ++ id
  | .presentStructuralTargetMarkedMissing id =>
      "present structural target marked missing: ".toList ++ id
  | .invalidStructuralIndexes => "invalid structural indexes".toList
  | .structuralDigestMismatch expected actual =>
      "structural digest mismatch: expected ".toList ++ expected ++ ", got ".toList ++ actual
  | .invalidGeneratedFromTarget edge target =>
      "generated_from edge ".toList ++ edge ++ " targets non-source node ".toList ++ target
  | .missingReciprocalLineage edge =>
      "lineage edge ".toList ++ edge ++ " lacks reciprocal evidence".toList
  | .structuralLineageCycle trail =>
      "structural lineage cycle: ".toList ++ join " -> ".toList trail

/-! ## Nodes, edges and limits -/

structure NodeInput where
  id : NodeId
  role : NodeRole
  provenance : Provenance
  confidence : Confidence
  facts : NodeFacts
  deriving DecidableEq

structure EdgeInput where
  id : EdgeId
  source : NodeId
  target : NodeId
  provenance : Provenance
  confidence : Confidence
  certainty : EdgeCertainty
  relationship : EdgeRelationship
  deriving DecidableEq

structure GraphInput where
  nodes : List NodeInput
  edges : List EdgeInput
  deriving DecidableEq

structure GraphLimits where
  maxNodes : ℕ
  maxEdges : ℕ
  valid : 0 < maxNodes ∧ 0 < maxEdges
  deriving DecidableEq

def GraphLimits.new (maxNodes maxEdges : ℕ) : Except GraphError GraphLimits :=
  if h : 0 < maxNodes ∧ 0 < maxEdges then .ok ⟨maxNodes, maxEdges, h⟩
  else .error .invalidLimits

end Bran.Graph
