import Bran.Adapters.Sqz
import Bran.Packet.Sufficiency

/-!
# Connected synthesis

`ConnectedCoordinator::run` asks a synthesis port about one structural packet, validates the
response against that packet, writes both into one canonical text and hands the text to the SQZ
adapter.  The two ports are arbitrary.  The `Debug` text of a request, which enters its digest
only, is a parameter.
-/

namespace Bran.Adapters

open Bran.Agent Bran.Graph Bran.Packet Text Validation Exchange

/-! ## Data -/

def maxQuery : ℕ := 1024

def maxId : ℕ := 40

def maxText : ℕ := 512

def maxResponseItems : ℕ := 64

structure ConnectedCapabilities where
  search : Bool
  filesystem : Bool
  shell : Bool
  network : Bool
  mutation : Bool
  recursiveDelegation : Bool
  deriving DecidableEq

/-- `ConnectedCapabilities::DENIED`. -/
def ConnectedCapabilities.deniedAll : ConnectedCapabilities :=
  ⟨false, false, false, false, false, false⟩

def ConnectedCapabilities.denied (capabilities : ConnectedCapabilities) : Bool :=
  !capabilities.search && !capabilities.filesystem && !capabilities.shell &&
    !capabilities.network && !capabilities.mutation && !capabilities.recursiveDelegation

structure ConnectedRequest where
  packet : StructuralPacket
  query : Str
  capabilities : ConnectedCapabilities
  deriving DecidableEq

structure ConnectedClaim where
  id : Str
  text : Str
  material : Bool
  deriving DecidableEq

structure ConnectedCitation where
  id : Str
  claimId : Str
  nodeId : Str
  locator : Str
  contentDigest : Str
  deriving DecidableEq

structure ConnectedUsage where
  id : Str
  nodeId : Str
  locator : Str
  contentDigest : Str
  support : Str
  deriving DecidableEq

structure ProviderTokenUsage where
  actualInputTokens : Option ℕ
  actualOutputTokens : Option ℕ
  deriving DecidableEq

structure ConnectedResponse where
  claims : List ConnectedClaim
  citations : List ConnectedCitation
  usages : List ConnectedUsage
  conflicts : List Str
  missingEvidence : List Str
  tokenUsage : ProviderTokenUsage
  resultId : Option ResultId
  deriving DecidableEq

inductive ConnectedError where
  | invalidRequest
  | port
  | grounding
  deriving DecidableEq

inductive GroundingStatus where
  | accepted
  | rejected
  deriving DecidableEq

structure GroundingReceipt where
  packetDigest : Str
  requestDigest : Str
  originalDigest : Str
  returnedDigest : Str
  claimIds : List Str
  citationIds : List Str
  usageIds : List Str
  unsupportedCount : ℕ
  uncitedMaterialCount : ℕ
  materialErrorCount : ℕ
  conflicts : List Str
  missingEvidence : List Str
  actualTokens : ProviderTokenUsage
  status : GroundingStatus
  connectedCalls : ℕ
  sqzCalls : ℕ
  fallbackReason : Option Str
  deriving DecidableEq

structure ConnectedOutcome where
  response : ConnectedResponse
  bytes : List UInt8
  originalBytes : List UInt8
  grounding : GroundingReceipt
  sqz : Option SqzReceipt
  fallbackReason : Option Str
  deriving DecidableEq

structure ConnectedPort (C : Type) where
  synthesize : ConnectedRequest → C → Except ConnectedError ConnectedResponse × C

/-- The states of the two ports and the calls they have answered. -/
structure ConnectedSession (C S : Type) where
  connected : C
  connectedCalls : List (ConnectedRequest × Except ConnectedError ConnectedResponse)
  sqz : SqzSession S

/-! ## Validation of a response -/

def validId (value : Str) : Bool :=
  !value.isEmpty && decide (byteLen value ≤ maxId) && value.all PreservationAnchor.idChar

def validField (value : Str) : Bool :=
  !isBlank value && decide (byteLen value ≤ maxText) && !value.contains '\r' &&
    !value.contains '\n'

/-- The `Debug` text of an evidence class. -/
def debugEvidenceClass : EvidenceClass → Str
  | .requirement => "Requirement".toList
  | .design => "Design".toList
  | .implementation => "Implementation".toList
  | .validation => "Validation".toList
  | .architecture => "Architecture".toList
  | .businessFlow => "BusinessFlow".toList

def missing (packet : StructuralPacket) : List Str :=
  packet.receipt.missingDomains ++ packet.receipt.missingEvidenceClasses.map debugEvidenceClass

/-- The variables of `validate`. -/
structure Tally where
  ids : Finset Str
  bad : ℕ
  uncited : ℕ

/-- An entry that counts as bad when a test fails. -/
def Tally.count (tally : Tally) (test : Bool) : Tally :=
  { tally with bad := tally.bad + if test then 0 else 1 }

/-- `ids.insert`, reached after the other tests of an entry have passed. -/
def Tally.insertId (tally : Tally) (wellFormed : Bool) (id : Str) : Bool × Tally :=
  if wellFormed then (decide (id ∉ tally.ids), { tally with ids := insert id tally.ids })
  else (false, tally)

section Validate

variable (packet : StructuralPacket) (response : ConnectedResponse)

/-- Whether a list of the response is longer than `MAX_RESPONSE_ITEMS`. -/
def oversized : Bool :=
  decide (response.claims.length > maxResponseItems) ||
    decide (response.citations.length > maxResponseItems) ||
    decide (response.usages.length > maxResponseItems) ||
    decide (response.conflicts.length > maxResponseItems) ||
    decide (response.missingEvidence.length > maxResponseItems)

/-- A claim in the loop of `validate`. -/
def checkClaim (tally : Tally) (claim : ConnectedClaim) : Tally :=
  let (fresh, tally) := tally.insertId (validId claim.id && validField claim.text) claim.id
  let cited := response.citations.any fun citation => citation.claimId == claim.id
  { tally.count fresh with
    uncited := tally.uncited + if claim.material && !cited then 1 else 0 }

/-- `admitted`: the items by node. -/
def admitted : OrdMap Str StructuralPacketItem :=
  OrdMap.ofList (packet.items.map fun item => (item.nodeId, item))

/-- Whether a node, a locator and a digest are those of an item that was read. -/
def names (nodeId locator contentDigest : Str) : Bool :=
  match (admitted packet).find? nodeId with
  | some item =>
      !item.locatorOnly && item.locator == locator && item.contentDigest == contentDigest
  | none => false

/-- A citation in the loop of `validate`. -/
def checkCitation (tally : Tally) (citation : ConnectedCitation) : Tally :=
  let wellFormed := validId citation.id && validId citation.claimId &&
    validField citation.nodeId && validField citation.locator && isDigest citation.contentDigest
  let (fresh, tally) := tally.insertId wellFormed citation.id
  if fresh then
    tally.count (names packet citation.nodeId citation.locator citation.contentDigest &&
      response.claims.any fun claim => claim.id == citation.claimId)
  else tally.count false

/-- A usage in the loop of `validate`. -/
def checkUsage (tally : Tally) (usage : ConnectedUsage) : Tally :=
  let wellFormed := validId usage.id && !isBlank usage.support &&
    decide (byteLen usage.support ≤ maxText) && validField usage.nodeId &&
    validField usage.locator && isDigest usage.contentDigest
  let (fresh, tally) := tally.insertId wellFormed usage.id
  if fresh then tally.count (names packet usage.nodeId usage.locator usage.contentDigest)
  else tally.count false

/-- The checks of a list of acknowledgements: the entries are distinct fields, and every required
one is there. -/
def checkAcknowledged (given required : List Str) (tally : Tally) : Tally :=
  let tally := tally.count (decide given.Nodup && given.all validField)
  { tally with bad := tally.bad + (required.filter fun value => decide (value ∉ given)).length }

/-- The answer of `validate`. -/
structure Verdict where
  valid : Bool
  unsupported : ℕ
  uncited : ℕ
  errors : ℕ

def validate : Verdict :=
  let tally : Tally := ⟨∅, if oversized response then 1 else 0, 0⟩
  let tally := response.claims.foldl (checkClaim response) tally
  let tally := response.citations.foldl (checkCitation packet response) tally
  let tally := response.usages.foldl (checkUsage packet) tally
  let tally := checkAcknowledged response.conflicts packet.receipt.conflictIds tally
  let tally := checkAcknowledged response.missingEvidence (missing packet) tally
  ⟨decide (tally.bad = 0) && decide (tally.uncited = 0) && !response.claims.isEmpty, tally.bad,
    tally.uncited, tally.bad + tally.uncited⟩

/-! ## The canonical text -/

/-- `writeln!`. -/
def writeLine (text : Str) : Str := text ++ ['\n']

def numbered (name : String) (values : List Str) : Str :=
  values.zipIdx.flatMap fun entry =>
    writeLine (name.toList ++ decimal entry.2 ++ '=' :: entry.1)

/-- The fields of a record, with bars between them. -/
def barred (values : List Str) : Str := join ['|'] values

def claimLines (claim : ConnectedClaim) : List Str :=
  ["claim.".toList ++ claim.id ++ ".id=".toList ++ claim.id,
    "claim.".toList ++ claim.id ++ ".text=".toList ++ claim.text]

def citationLine (citation : ConnectedCitation) : Str :=
  "citation.".toList ++ citation.id ++ '=' :: barred [citation.id, citation.claimId,
    citation.nodeId, citation.locator, citation.contentDigest]

def usageText (usage : ConnectedUsage) : Str :=
  "usage.".toList ++ usage.id ++ '=' :: barred [usage.id, usage.nodeId, usage.locator,
    usage.contentDigest, usage.support]

def optionalUsize : Option ℕ → Str
  | none => "unavailable".toList
  | some value => decimal value

/-- The part of the canonical text that the packet determines. -/
def packetText : Str :=
  writeLine ("packet=".toList ++ packet.receipt.digest) ++
    numbered "requirement." packet.receipt.requiredDomains ++
    numbered "register." packet.receipt.selectedIds ++
    writeLine ("numeric.max-items=".toList ++ decimal packet.receipt.maxItems) ++
    writeLine ("numeric.max-packet-bytes=".toList ++ decimal packet.receipt.maxPacketBytes) ++
    writeLine ("numeric.max-excerpt-bytes=".toList ++ decimal packet.receipt.maxExcerptBytes)

/-- The last lines of the canonical text. -/
def closingLines : List Str :=
  ["actual-input-tokens=".toList ++ optionalUsize response.tokenUsage.actualInputTokens,
    "actual-output-tokens=".toList ++ optionalUsize response.tokenUsage.actualOutputTokens,
    "result-id=".toList ++ (response.resultId.map ResultId.value).getD "unavailable".toList]

/-- The text of `canonical`. -/
def canonicalText : Str :=
  packetText packet ++ numbered "conflict." response.conflicts ++
    numbered "missing." response.missingEvidence ++
    (response.claims.flatMap claimLines).flatMap writeLine ++
    (response.citations.map citationLine).flatMap writeLine ++
    (response.usages.map usageText).flatMap writeLine ++ (closingLines response).flatMap writeLine

def canonical : List UInt8 := bytes (canonicalText packet response)

/-! ## Anchors -/

/-- The anchors of a numbered list. -/
def numberedEntries (name : String) (values : List Str) : List (Str × Str) :=
  values.zipIdx.map fun entry => (name.toList ++ decimal entry.2, entry.1)

/-- The calls of `push` in `anchors`. -/
def anchorEntries : List (Str × Str) :=
  ("packet.digest".toList, packet.receipt.digest) ::
    (response.claims.flatMap fun claim =>
      [("claim.".toList ++ claim.id ++ ".id".toList, claim.id),
        ("claim.".toList ++ claim.id ++ ".text".toList, claim.text)]) ++
    (response.citations.flatMap fun citation =>
      [("id", citation.id), ("claim", citation.claimId), ("node", citation.nodeId),
        ("locator", citation.locator), ("digest", citation.contentDigest)].map fun entry =>
          ("citation.".toList ++ citation.id ++ '.' :: entry.1.toList, entry.2)) ++
    (response.usages.flatMap fun usage =>
      [("id", usage.id), ("node", usage.nodeId), ("locator", usage.locator),
        ("digest", usage.contentDigest), ("support", usage.support)].map fun entry =>
          ("usage.".toList ++ usage.id ++ '.' :: entry.1.toList, entry.2)) ++
    numberedEntries "requirement." packet.receipt.requiredDomains ++
    numberedEntries "register." packet.receipt.selectedIds ++
    numberedEntries "conflict." response.conflicts ++
    numberedEntries "missing." response.missingEvidence ++
    [("numeric.max-items".toList, decimal packet.receipt.maxItems),
      ("numeric.max-packet-bytes".toList, decimal packet.receipt.maxPacketBytes),
      ("numeric.max-excerpt-bytes".toList, decimal packet.receipt.maxExcerptBytes)]

/-- The closure `push` of `anchors`. -/
def pushAnchor (original : Str) (entry : Str × Str) : Except ConnectedError PreservationAnchor :=
  match PreservationAnchor.new entry.1 entry.2 with
  | .error _ => .error .grounding
  | .ok anchor => if containsStr original anchor.value then .ok anchor else .error .grounding

/-- `from_utf8`, with the error of the coordinator. -/
def groundedText (original : List UInt8) : Except ConnectedError Str :=
  match fromUtf8 original with
  | none => .error .grounding
  | some text => .ok text

def anchors (original : List UInt8) : Except ConnectedError (List PreservationAnchor) := do
  let text ← groundedText original
  (anchorEntries packet response).mapM (pushAnchor text)

end Validate

/-! ## The run -/

def emptyReceipt : PacketReceipt where
  schemaVersion := "connected-grounded-v1".toList
  seedIds := []
  admittedDependencyIds := []
  selectedIds := []
  omittedIds := []
  dependencyClosureTruncated := false
  dependencyMaxDepth := 0
  dependencyMaxNodes := 0
  rawBytes := 0
  estimatedTokens := 0
  tokenEstimateMethod := .bytesDividedByFourCeiling
  effectiveMaxItems := 0
  effectiveMaxBytes := 0
  runtimeTokenCeiling := none
  truncated := false

def digest (bytes : List UInt8) : Str := (ResultId.sha256 bytes).value

def sqzPortCalls (receipt : SqzReceipt) : ℕ :=
  if receipt.candidateCompressedBytes.isSome then 1
  else
    match receipt.failureReason with
    | some (.portUnavailable _) => 1
    | _ => 0

/-- The `Debug` text of an error code of the SQZ port. -/
def debugPortErrorCode : SqzPortErrorCode → String
  | .unavailable => "Unavailable"
  | .timeout => "Timeout"
  | .executionFailed => "ExecutionFailed"
  | .invalidOutput => "InvalidOutput"

/-- The `Debug` text of a failure reason. -/
def debugFailureReason : Option SqzFailureReason → Str
  | none => "None".toList
  | some .configuredIdentityMismatch => "Some(ConfiguredIdentityMismatch)".toList
  | some .returnedIdentityMismatch => "Some(ReturnedIdentityMismatch)".toList
  | some (.portUnavailable code) =>
      "Some(PortUnavailable(".toList ++ (debugPortErrorCode code).toList ++ "))".toList
  | some .fidelityAnchorsUnavailable => "Some(FidelityAnchorsUnavailable)".toList
  | some .missingFidelityAnchors => "Some(MissingFidelityAnchors)".toList
  | some .fidelityAnchorMissingFromInput => "Some(FidelityAnchorMissingFromInput)".toList
  | some .conflictingFidelityAnchorIds => "Some(ConflictingFidelityAnchorIds)".toList
  | some .dlpFindings => "Some(DlpFindings)".toList
  | some .outputExceedsBound => "Some(OutputExceedsBound)".toList

def fallbackReason (receipt : SqzReceipt) : Str :=
  match receipt.status with
  | .off => "sqz-off".toList
  | .notBeneficial => "sqz-not-beneficial".toList
  | .failed => "sqz-failed:".toList ++ debugFailureReason receipt.failureReason
  | .applied => "none".toList

/-- `ConnectedCoordinator`, without its ports. -/
structure ConnectedCoordinator where
  sqz : SqzAdapter
  maxOutputBytes : ℕ

namespace ConnectedCoordinator

variable (coordinator : ConnectedCoordinator) {C S : Type} (connected : ConnectedPort C)
  (port : SqzPort S) (requestDebug : ConnectedRequest → Str)

/-- `self.connected.synthesize`, recorded. -/
def synthesize (request : ConnectedRequest) :
    Exchange (ConnectedSession C S) ConnectedError ConnectedResponse :=
  attempt fun session =>
    let answer := connected.synthesize request session.connected
    (answer.1, { session with
      connected := answer.2
      connectedCalls := session.connectedCalls ++ [(request, answer.1)] })

/-- `self.sqz.evaluate_with_anchors`. -/
def evaluateSqz (packet : ContextPacket) (anchors : List PreservationAnchor) :
    Exchange (ConnectedSession C S) ConnectedError (Except SqzError SqzEvaluation) :=
  step fun session =>
    let answer := coordinator.sqz.evaluateWithAnchors port packet coordinator.maxOutputBytes anchors
      session.sqz
    (answer.1, { session with sqz := answer.2 })

/-- The receipt before the outcome of the SQZ adapter is known. -/
def groundingReceipt (request : ConnectedRequest) (response : ConnectedResponse) :
    GroundingReceipt :=
  let verdict := validate request.packet response
  { packetDigest := request.packet.receipt.digest
    requestDigest := digest (bytes (requestDebug request))
    originalDigest := digest (canonical request.packet response)
    returnedDigest := digest []
    claimIds := response.claims.map fun claim => claim.id
    citationIds := response.citations.map fun citation => citation.id
    usageIds := response.usages.map fun usage => usage.id
    unsupportedCount := verdict.unsupported
    uncitedMaterialCount := verdict.uncited
    materialErrorCount := verdict.errors
    conflicts := request.packet.receipt.conflictIds
    missingEvidence := missing request.packet
    actualTokens := response.tokenUsage
    status := if verdict.valid then .accepted else .rejected
    connectedCalls := 1
    sqzCalls := 0
    fallbackReason := none }

def rejectedOutcome (request : ConnectedRequest) (response : ConnectedResponse) :
    ConnectedOutcome where
  response := response
  bytes := []
  originalBytes := canonical request.packet response
  grounding :=
    { groundingReceipt requestDebug request response with
      fallbackReason := some "grounding-rejected".toList }
  sqz := none
  fallbackReason := some "grounding-rejected".toList

def acceptedOutcome (request : ConnectedRequest) (response : ConnectedResponse)
    (evaluated : Except SqzError SqzEvaluation) : ConnectedOutcome :=
  let original := canonical request.packet response
  let receipt := groundingReceipt requestDebug request response
  match evaluated with
  | .ok value =>
      let returned :=
        if value.receipt.status = .applied then bytes value.packet.payload else original
      let fallback :=
        if value.receipt.status = .applied then none else some (fallbackReason value.receipt)
      { response := response
        bytes := returned
        originalBytes := original
        grounding :=
          { receipt with
            sqzCalls := sqzPortCalls value.receipt
            returnedDigest := digest returned
            fallbackReason := fallback }
        sqz := some value.receipt
        fallbackReason := fallback }
  | .error error =>
      { response := response
        bytes := original
        originalBytes := original
        grounding :=
          { receipt with
            sqzCalls := sqzPortCalls error.receipt
            returnedDigest := digest original
            fallbackReason := some (fallbackReason error.receipt) }
        sqz := some error.receipt
        fallbackReason := some (fallbackReason error.receipt) }

def sqzPacket (payload : Str) : ContextPacket where
  items := []
  payload := payload
  receipt := emptyReceipt

/-- `run` after the response was accepted. -/
def deliver (request : ConnectedRequest) (response : ConnectedResponse) :
    Exchange (ConnectedSession C S) ConnectedError ConnectedOutcome := do
  let original := canonical request.packet response
  let anchors ← ofExcept (anchors request.packet response original)
  let payload ← ofExcept (groundedText original)
  let evaluated ← coordinator.evaluateSqz port (sqzPacket payload) anchors
  pure (acceptedOutcome requestDebug request response evaluated)

def run (packet : StructuralPacket) (query : Str) :
    Exchange (ConnectedSession C S) ConnectedError ConnectedOutcome := do
  let request : ConnectedRequest := ⟨packet, query, .deniedAll⟩
  ofExcept (failIf (isBlank query = true ∨ maxQuery < byteLen query ∨
    request.capabilities.denied = false) .invalidRequest)
  let response ← synthesize connected request
  if (validate packet response).valid = false then
    pure (rejectedOutcome requestDebug request response)
  else coordinator.deliver port requestDebug request response

end ConnectedCoordinator

end Bran.Adapters
