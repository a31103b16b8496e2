import Bran.Database.Descriptor
import Bran.Library.Exchange
import Bran.Packet.Closure
import Bran.Schema

/-!
# Database evidence

`extract` of `database/evidence.rs`: a request that policy admits is answered by an engine, which
is an arbitrary state machine behind the port.  Cancellation and the deadline are flags over a
running clock; they are polled around every call of the engine and inside the callback that it
hands its rows to.
-/

namespace Bran.Database.Evidence

open Graph Packet Text

def databaseEvidenceSource : Str := "database-evidence".toList

/-! ## Outcomes -/

inductive EvidenceOutcome
  | schemaOnly
  | boundedRows
  | truncated
  | cancelled
  | timeout
  | unavailable
  | staleSnapshot
  | dlpRejected
  deriving DecidableEq

namespace EvidenceOutcome

def asStr : EvidenceOutcome → Str
  | schemaOnly => "schema-only".toList
  | boundedRows => "bounded-rows".toList
  | truncated => "truncated".toList
  | cancelled => "cancelled".toList
  | timeout => "timeout".toList
  | unavailable => "unavailable".toList
  | staleSnapshot => "stale-snapshot".toList
  | dlpRejected => "dlp-rejected".toList

def admitted : EvidenceOutcome → Bool
  | schemaOnly | boundedRows | truncated => true
  | _ => false

end EvidenceOutcome

/-- `Cell`; integers are 64-bit, and their text is that of the integer. -/
inductive Cell
  | null
  | integer (value : ℤ)
  | text (value : Str)
  deriving DecidableEq

inductive RelationKind
  | table
  | view
  deriving DecidableEq

structure ColumnSchema where
  name : Str
  declaredType : Str
  deriving DecidableEq

structure RelationSchema where
  relation : RelationName
  kind : RelationKind
  columns : List ColumnSchema
  deriving DecidableEq

inductive EngineFailure
  | unavailable
  | cancelled
  | timeout
  deriving DecidableEq

inductive RowRequest
  | projection (relation : RelationName) (columns : List Str)
  | sql (text : Str)
  deriving DecidableEq

inductive DlpStatus
  | notEvaluated
  | passed
  | findings
  deriving DecidableEq

def DlpStatus.asStr : DlpStatus → Str
  | .notEvaluated => "not-evaluated".toList
  | .passed => "passed".toList
  | .findings => "findings".toList

/-- `ExtractionRequest`; its cancellation flag and its deadline are the `Flags` of the run. -/
structure ExtractionRequest where
  source : EvidenceSourceDescriptor
  rows : Option RowRequest
  extractedAt : Str
  dlp : Str → DlpStatus

inductive ExtractionRefusal
  | rowsNotPermitted
  | sql (rejection : SqlRejection)
  | queryNotAllowlisted
  deriving DecidableEq

structure DatabaseEvidence where
  sourceId : Str
  outcome : EvidenceOutcome
  record : Str
  evidenceDigest : Str
  resultDigest : Str
  rows : List (List Cell)
  truncated : Bool
  deriving DecidableEq

/-! ## Engines -/

/-- What an engine answers, how many instants later, and its state after it. -/
structure Reply (σ α : Type) where
  answer : Except EngineFailure α
  elapsed : ℕ
  state : σ

/-- The rows that an engine hands to the callback; what it does next depends on the answer. -/
inductive RowStream (σ : Type)
  | done (result : Except EngineFailure Unit) (elapsed : ℕ) (state : σ)
  | emit (elapsed : ℕ) (row : List Cell) (next : Bool → RowStream σ)

/-- `EvidenceEngine`: any state machine may be behind it. -/
structure EvidenceEngine (σ : Type) where
  adapter : σ → Str
  snapshot : σ → Reply σ (Option Str)
  catalog : σ → List RelationName → Reply σ (List RelationSchema)
  rows : σ → GatedQuery → RowStream σ

/-- `Interrupt`: when the cancellation flag is set and when the effective deadline has passed.
Both stay as they are once raised. -/
structure Flags where
  cancelled : ℕ → Bool
  expired : ℕ → Bool
  cancelled_stays : ∀ {first second}, first ≤ second → cancelled first = true →
    cancelled second = true
  expired_stays : ∀ {first second}, first ≤ second → expired first = true → expired second = true

/-- The closure `interrupted`: the flag is read first and the clock an instant later. -/
def Flags.interrupted (flags : Flags) (now : ℕ) : Option EvidenceOutcome :=
  if flags.cancelled now then some .cancelled
  else if flags.expired (now + 1) then some .timeout
  else none

/-! ## Rendering -/

def writeOptional : Option Str → Str
  | some value => Schema.writeEscapedString value
  | none => "null".toList

def writeStrings (values : List Str) : Str :=
  join [','] (values.map Schema.writeEscapedString)

/-- `i64::to_string`. -/
def integerText : ℤ → Str
  | .ofNat value => decimal value
  | .negSucc value => '-' :: decimal (value + 1)

def cellJson : Cell → Str
  | .null => "null".toList
  | .integer value => integerText value
  | .text value => Schema.writeEscapedString value

def rowJson (row : List Cell) : Str := '[' :: (join [','] (row.map cellJson) ++ [']'])

def rowsText (rows : List (List Cell)) : Str := rows.flatMap fun row => rowJson row ++ ['\n']

def columnJson (column : ColumnSchema) : Str :=
  "\x7b\"name\":".toList ++ Schema.writeEscapedString column.name ++ ",\"type\":".toList ++
    Schema.writeEscapedString column.declaredType ++ "\x7d".toList

def schemaJson (schema : RelationSchema) : Str :=
  "\x7b\"columns\":[".toList ++ join [','] (schema.columns.map columnJson) ++
    "],\"kind\":".toList ++
    (match schema.kind with
      | .table => "\"table\"".toList
      | .view => "\"view\"".toList) ++
    ",\"relation\":".toList ++ Schema.writeEscapedString schema.relation.text ++ "\x7d".toList

def catalogJson (catalog : List RelationSchema) : Str :=
  '[' :: (join [','] (catalog.map schemaJson) ++ [']'])

/-- The private `digest`. -/
def digest (text : Str) : Str := digestText (Text.bytes text)

def sealedSnapshot (snapshot : Str) : Str :=
  if isDigestText snapshot then snapshot else digest snapshot

/-- The locators `schema.relation.column` of a catalog. -/
def columnLocators (catalog : List RelationSchema) : List Str :=
  catalog.flatMap fun schema => schema.columns.map fun column =>
    schema.relation.text ++ '.' :: column.name

def boolText (value : Bool) : Str := if value then "true".toList else "false".toList

/-! ## A run -/

structure Run where
  adapter : Option Str
  snapshot : Option Str
  catalog : List RelationSchema
  rows : List (List Cell)
  truncated : Bool

def Run.default : Run := ⟨none, none, [], [], false⟩

/-- What has gone over the port: the snapshots as the engine gave them, the rows it streamed, and
the instant its last call returned. -/
structure Log where
  calls : ℕ
  snapshots : List (Option Str)
  streamed : List (List Cell)
  returned : ℕ

/-- The state of the engine, the clock, the run so far and what has gone over the port. -/
structure Progress (σ : Type) where
  engine : σ
  now : ℕ
  run : Run
  log : Log

def failure : EngineFailure → EvidenceOutcome
  | .unavailable => .unavailable
  | .cancelled => .cancelled
  | .timeout => .timeout

section Collect

variable {σ : Type}

/-- The early returns of `collect` are its failures. -/
abbrev Collecting (σ : Type) := Exchange (Progress σ) EvidenceOutcome

/-- A poll of the flags, which takes two instants. -/
def poll (flags : Flags) : Collecting σ Unit := fun progress =>
  match flags.interrupted progress.now with
  | some outcome => (.error outcome, { progress with now := progress.now + 2 })
  | none => (.ok (), { progress with now := progress.now + 2 })

/-- One call of the engine; `record` notes its answer. -/
def callEngine {α : Type} (call : σ → Reply σ α) (record : α → Progress σ → Progress σ) :
    Collecting σ α := fun progress =>
  let reply := call progress.engine
  let returned := progress.now + reply.elapsed
  let progress := { progress with
    engine := reply.state
    now := returned
    log := { progress.log with calls := progress.log.calls + 1, returned } }
  match reply.answer with
  | .ok answer => (.ok answer, record answer progress)
  | .error error => (.error (failure error), progress)

/-- `engine.snapshot()`, sealed. -/
def callSnapshot (engine : EvidenceEngine σ) : Collecting σ (Option Str) := do
  let snapshot ← callEngine engine.snapshot fun snapshot progress =>
    { progress with log :=
      { progress.log with snapshots := progress.log.snapshots ++ [snapshot] } }
  return snapshot.map sealedSnapshot

/-- The part of the run that is kept after a call. -/
def keep (change : Run → Run) : Collecting σ Unit :=
  Exchange.step fun progress => ((), { progress with run := change progress.run })

/-- What the callback remembers between two rows. -/
structure Sink where
  rows : List (List Cell)
  truncated : Bool
  stopped : Option EvidenceOutcome
  bytes : ℕ

/-- The bytes a row counts for. -/
def rowSize (row : List Cell) : ℕ := byteLen (rowJson row) + 1

/-- The callback: its answer and what it remembers after a row. -/
def Sink.accept (flags : Flags) (limits : EvidenceLimits) (now : ℕ) (row : List Cell)
    (sink : Sink) : Bool × Sink :=
  match flags.interrupted now with
  | some outcome => (false, { sink with stopped := some outcome })
  | none =>
      if sink.rows.length = limits.maxRows ∨ sink.bytes + rowSize row > limits.maxBytes then
        (false, { sink with truncated := true })
      else
        (true, { sink with bytes := sink.bytes + rowSize row, rows := sink.rows ++ [row] })

/-- What a stream of rows has left behind. -/
structure Drained (σ : Type) where
  result : Except EngineFailure Unit
  sink : Sink
  returned : ℕ
  engine : σ
  streamed : List (List Cell)

/-- `engine.rows()` with the callback. -/
def drain (flags : Flags) (limits : EvidenceLimits) :
    RowStream σ → ℕ → Sink → List (List Cell) → Drained σ
  | .done result elapsed state, now, sink, streamed =>
      ⟨result, sink, now + elapsed, state, streamed⟩
  | .emit elapsed row next, now, sink, streamed =>
      let answered := sink.accept flags limits (now + elapsed) row
      drain flags limits (next answered.1) (now + elapsed + 2) answered.2 (streamed ++ [row])

/-- `stopped.or_else(interrupted)` and the result of the call. -/
def rowsOutcome (flags : Flags) (drained : Drained σ) : EvidenceOutcome :=
  match drained.sink.stopped.or (flags.interrupted drained.returned), drained.result with
  | some outcome, _ => outcome
  | none, .error error => failure error
  | none, .ok () => if drained.sink.truncated then .truncated else .boundedRows

/-- The rows of a query; an outcome that is not admitted ends the collection. -/
def collectRows (engine : EvidenceEngine σ) (flags : Flags) (limits : EvidenceLimits)
    (query : GatedQuery) : Collecting σ EvidenceOutcome := fun progress =>
  let drained := drain flags limits (engine.rows progress.engine query) progress.now
    ⟨progress.run.rows, progress.run.truncated, none, 0⟩ []
  let outcome := rowsOutcome flags drained
  let progress : Progress σ :=
    { engine := drained.engine
      now := drained.returned + 2
      run := { progress.run with rows := drained.sink.rows, truncated := drained.sink.truncated }
      log := { progress.log with
        calls := progress.log.calls + 1
        streamed := drained.streamed
        returned := drained.returned } }
  if outcome.admitted then (.ok outcome, progress) else (.error outcome, progress)

/-- The snapshot of a pinned source must be the pinned one. -/
def checkPinned (pinned observed : Option Str) : Collecting σ Unit :=
  if pinned.isSome ∧ observed ≠ pinned then Exchange.fail .staleSnapshot else pure ()

/-- The outcome of the row request, if there is one. -/
def collectOutcome (engine : EvidenceEngine σ) (flags : Flags) (limits : EvidenceLimits) :
    Option GatedQuery → Collecting σ EvidenceOutcome
  | none => pure .schemaOnly
  | some query => collectRows engine flags limits query

def collect (engine : EvidenceEngine σ) (flags : Flags) (request : ExtractionRequest)
    (query : Option GatedQuery) : Collecting σ EvidenceOutcome := do
  poll flags
  let first ← callSnapshot engine
  keep fun run => { run with snapshot := first }
  poll flags
  checkPinned request.source.snapshot first
  let catalog ← callEngine (fun state => engine.catalog state request.source.relations)
    fun _ progress => progress
  keep fun run => { run with catalog := catalog }
  poll flags
  keep fun run => { run with
    catalog := catalog.insertionSort fun left right => left.relation ≤ right.relation }
  let outcome ← collectOutcome engine flags request.source.limits query
  let after ← callSnapshot engine
  poll flags
  if after = first then pure outcome else Exchange.fail .staleSnapshot

end Collect

/-! ## Sealing -/

/-- The evidence that is sealed from what a run has kept. -/
def sealEvidence (request : ExtractionRequest) (query : Option GatedQuery)
    (outcome : EvidenceOutcome) (dlp : DlpStatus) (run : Run) : DatabaseEvidence :=
  let source := request.source
  let limits := source.limits
  let resultDigest := digest (rowsText run.rows)
  let record := "\x7b\"access\":".toList ++ Schema.writeEscapedString source.access.asStr ++
    ",\"adapter\":".toList ++ writeOptional run.adapter ++
    ",\"classification\":\"unavailable\",\"columns\":[".toList ++
    writeStrings (columnLocators run.catalog) ++
    "],\"credential\":".toList ++ writeOptional (source.credential.map CredentialReference.text) ++
    ",\"database\":".toList ++ Schema.writeEscapedString source.database ++
    ",\"derivation\":".toList ++ Schema.writeEscapedString
      (query.elim "schema-only".toList fun query => query.derivation.asStr) ++
    ",\"dlp\":".toList ++ Schema.writeEscapedString dlp.asStr ++
    ",\"engine\":".toList ++ Schema.writeEscapedString source.engine.asStr ++
    ",\"extracted_at\":".toList ++ Schema.writeEscapedString request.extractedAt ++
    ",\"limits\":\x7b\"max_bytes\":".toList ++ decimal limits.maxBytes ++
    ",\"max_rows\":".toList ++ decimal limits.maxRows ++
    ",\"timeout_ms\":".toList ++ decimal limits.timeoutMs ++
    "\x7d,\"outcome\":".toList ++ Schema.writeEscapedString outcome.asStr ++
    ",\"query_digest\":".toList ++ writeOptional (query.map GatedQuery.digest) ++
    ",\"redaction\":\"unavailable\",\"relations\":[".toList ++
    writeStrings (source.relations.map RelationName.text) ++
    "],\"result_digest\":\"".toList ++ resultDigest ++
    "\",\"row_count\":".toList ++ decimal run.rows.length ++
    ",\"snapshot\":".toList ++
    (match run.snapshot with
      | some value => "\x7b\"state\":\"attested\",\"value\":".toList ++
          Schema.writeEscapedString value ++ "\x7d".toList
      | none => "\x7b\"state\":\"unavailable\",\"value\":null\x7d".toList) ++
    ",\"source_digest\":\"".toList ++ digest (catalogJson run.catalog) ++
    "\",\"source_id\":".toList ++ Schema.writeEscapedString source.id ++
    ",\"truncated\":".toList ++ boolText run.truncated ++ "\x7d".toList
  { sourceId := source.id
    outcome := outcome
    record := record
    evidenceDigest := digest record
    resultDigest := resultDigest
    rows := run.rows
    truncated := run.truncated }

def dlpText (run : Run) : Str := catalogJson run.catalog ++ '\n' :: rowsText run.rows

/-- A run of which nothing that the engine has shown is kept. -/
def Run.cleared (run : Run) : Run := { run with catalog := [], rows := [], truncated := false }

def finish (request : ExtractionRequest) (query : Option GatedQuery) (outcome : EvidenceOutcome)
    (run : Run) : DatabaseEvidence :=
  if outcome.admitted then
    match request.dlp (dlpText run) with
    | .findings => sealEvidence request query .dlpRejected .findings run.cleared
    | dlp => sealEvidence request query outcome dlp run
  else sealEvidence request query outcome .notEvaluated run.cleared

/-! ## Extraction -/

/-- The policy checks of `extract`: the query to run, if any. -/
def admitRequest (request : ExtractionRequest) : Except ExtractionRefusal (Option GatedQuery) :=
  match request.rows with
  | none => .ok none
  | some rows =>
      if request.source.access = .introspection then .error .rowsNotPermitted
      else match rows with
        | .projection relation columns =>
            match project relation columns request.source.relations with
            | .ok query => .ok (some query)
            | .error rejection => .error (.sql rejection)
        | .sql sql =>
            match gate sql request.source.relations with
            | .ok query =>
                if query.digest ∈ request.source.queries then .ok (some query)
                else .error .queryNotAllowlisted
            | .error rejection => .error (.sql rejection)

/-- The progress before any call. -/
def Progress.start {σ : Type} (engine : σ) (now : ℕ) : Progress σ :=
  ⟨engine, now, Run.default, ⟨0, [], [], now⟩⟩

/-- The early returns and the last answer of `collect` are outcomes alike. -/
def outcomeOf : Except EvidenceOutcome EvidenceOutcome → EvidenceOutcome
  | .ok outcome => outcome
  | .error outcome => outcome

/-- `extract`, with what has gone over the port. -/
def extract {σ : Type} (engine : Option (EvidenceEngine σ)) (state : σ) (flags : Flags) (now : ℕ)
    (request : ExtractionRequest) : Except ExtractionRefusal DatabaseEvidence × Progress σ :=
  let start := Progress.start state now
  match admitRequest request with
  | .error refusal => (.error refusal, start)
  | .ok query =>
      match engine with
      | none => (.ok (finish request query .unavailable start.run), start)
      | some engine =>
          -- the name of the adapter is asked for before the first call
          let named := { start with run := { start.run with adapter := some (engine.adapter state) } }
          let collected := collect engine flags request query named
          (.ok (finish request query (outcomeOf collected.1) collected.2.run), collected.2)

/-! ## Packet inputs -/

/-- `packet_evidence`: an outcome that is not admitted is refused, and nothing is answered where
the source expects a value to be valid. -/
def packetEvidence (evidence : DatabaseEvidence) (priority : EvidencePriority) :
    Except EvidenceOutcome (Option (NodeInput × EvidenceContent)) :=
  if !evidence.outcome.admitted then .error evidence.outcome
  else
    let hex := evidence.evidenceDigest.drop "sha256:".length
    let facts : List (Str × Str) := [("db.outcome".toList, evidence.outcome.asStr),
      ("db.truncated".toList, boolText evidence.truncated),
      ("db.row_count".toList, decimal evidence.rows.length),
      ("db.result_digest".toList, evidence.resultDigest)]
    .ok do
      let id ← (NodeId.parse
        ("db:".toList ++ evidence.sourceId ++ ':' :: hex.take 32)).toOption
      let provenance ← (Provenance.new databaseEvidenceSource
        ("database:".toList ++ evidence.sourceId ++ '#' :: evidence.evidenceDigest)).toOption
      let confidence ← (Confidence.new 50).toOption
      let nodeFacts ← facts.foldlM (fun (all : NodeFacts) fact =>
        (all.withFieldValue (fact.1.drop 3) fact.2).toOption) NodeFacts.default
      let anchors ← facts.mapM fun fact => (PreservationAnchor.new fact.1 fact.2).toOption
      let content := evidence.record ++ '\n' :: rowsText evidence.rows
      return (⟨id, .external, provenance, confidence, nodeFacts⟩,
        ⟨id, content, priority, 0, 0, anchors⟩)

end Bran.Database.Evidence
