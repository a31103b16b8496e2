import Bran.Library.CharCode
import Bran.Library.Utf8
import Bran.Library.Validation

/-!
# The query evidence store

The records of recorded queries and the lines in which they are stored: one line for each field, the
fields escaped, a rule of dashes before each record.
-/

namespace Bran.Cli

open Text Validation

def evidenceStoreVersion : Str := "BRAN-QUERY-EVIDENCE/1".toList

def maxEvidenceRecords : ℕ := 32

def maxEvidenceFileBytes : ℕ := 64 * 1024

def maxEvidenceRequestBytes : ℕ := 4096

def maxEvidenceRoots : ℕ := 8

def maxEvidenceFieldBytes : ℕ := 4096

def queryResultLimit : ℕ := 32

structure QueryEvidenceRanking where
  bundle : Str
  locator : Str
  rank : UInt64
  matchReason : Str
  exact_ : UInt64
  partial_ : UInt64
  active : UInt8
  canonical : UInt8
  publicSafe : UInt8
  confidence : UInt8
  freshness : Str
  deriving DecidableEq

structure QueryEvidenceRecord where
  request : Str
  requestedRoots : List Str
  outcome : Str
  matched : List Str
  unmatched : List Str
  rankings : List QueryEvidenceRanking
  deriving DecidableEq

inductive EvidenceError
  | corrupt
  | oversized
  | full
  | unsafe_
  | unavailable
  | writeFailed
  deriving DecidableEq

def EvidenceError.text : EvidenceError → Str
  | .corrupt => "evidence_store_corrupt".toList
  | .oversized => "evidence_store_oversized".toList
  | .full => "evidence_store_full".toList
  | .unsafe_ => "evidence_store_unsafe".toList
  | .unavailable => "evidence_store_unavailable".toList
  | .writeFailed => "evidence_store_write_failed".toList

/-! ## Fields -/

def evidenceEscape (value : Str) : Str :=
  value.flatMap fun c =>
    if c = '\\' then ['\\', '\\']
    else if c = '\n' then ['\\', 'n']
    else if c = '\r' then ['\\', 'r']
    else if c = '\t' then ['\\', 't']
    else [c]

/-- The loop of `evidence_unescape`. -/
def unescapeChars : Str → Option Str
  | [] => some []
  | '\\' :: '\\' :: rest => (unescapeChars rest).map ('\\' :: ·)
  | '\\' :: 'n' :: rest => (unescapeChars rest).map ('\n' :: ·)
  | '\\' :: 'r' :: rest => (unescapeChars rest).map ('\r' :: ·)
  | '\\' :: 't' :: rest => (unescapeChars rest).map ('\t' :: ·)
  | c :: rest => if c = '\\' then none else (unescapeChars rest).map (c :: ·)

def evidenceUnescape (value : Str) : Except EvidenceError Str :=
  match unescapeChars value with
  | none => .error .corrupt
  | some out => if byteLen out > maxEvidenceFieldBytes then .error .oversized else .ok out

def parseNumber (bound : ℕ) (text : Str) : Except EvidenceError ℕ :=
  match CharCode.parseInteger bound text with
  | some n => .ok n
  | none => .error .corrupt

def parseEvidenceRank (value : Str) : Except EvidenceError QueryEvidenceRanking :=
  match value.splitOn '\t' with
  | [rank, bundle, locator, matchReason, exact_, partial_, active, canonical, publicSafe,
      confidence, freshness] => do
      let rank ← parseNumber (2 ^ 64) rank
      let bundle ← evidenceUnescape bundle
      let locator ← evidenceUnescape locator
      let matchReason ← evidenceUnescape matchReason
      let exact_ ← parseNumber (2 ^ 64) exact_
      let partial_ ← parseNumber (2 ^ 64) partial_
      let active ← parseNumber (2 ^ 8) active
      let canonical ← parseNumber (2 ^ 8) canonical
      let publicSafe ← parseNumber (2 ^ 8) publicSafe
      let confidence ← parseNumber (2 ^ 8) confidence
      let freshness ← evidenceUnescape freshness
      return ⟨bundle, locator, .ofNat rank, matchReason, .ofNat exact_, .ofNat partial_,
        .ofNat active, .ofNat canonical, .ofNat publicSafe, .ofNat confidence, freshness⟩
  | _ => .error .corrupt

/-! ## Parsing -/

def queryOutcomes : List Str :=
  ["grounded".toList, "miss".toList, "partial_unanchored".toList, "unavailable".toList]

/-- A record that is being read. -/
structure OpenRecord where
  record : QueryEvidenceRecord
  seenRequest : Bool
  seenOutcome : Bool

/-- A record without fields. -/
def OpenRecord.new : OpenRecord := ⟨⟨[], [], [], [], [], []⟩, false, false⟩

def OpenRecord.finish (current : OpenRecord) : Except EvidenceError QueryEvidenceRecord :=
  if !current.seenRequest || !current.seenOutcome || current.record.requestedRoots.isEmpty ||
      current.record.requestedRoots.length > maxEvidenceRoots ||
      current.record.rankings.length > queryResultLimit ||
      !queryOutcomes.contains current.record.outcome then
    .error .corrupt
  else .ok current.record

def OpenRecord.field (current : OpenRecord) (key value : Str) : Except EvidenceError OpenRecord :=
  let record := current.record
  if key = "request".toList ∧ current.seenRequest = false then do
    let request ← evidenceUnescape value
    failIf (byteLen request > maxEvidenceRequestBytes) .oversized
    return { current with record := { record with request := request }, seenRequest := true }
  else if key = "root".toList then do
    let root ← evidenceUnescape value
    let roots := record.requestedRoots ++ [root]
    return { current with record := { record with requestedRoots := roots } }
  else if key = "outcome".toList ∧ current.seenOutcome = false then do
    let outcome ← evidenceUnescape value
    return { current with record := { record with outcome := outcome }, seenOutcome := true }
  else if key = "matched".toList then do
    let term ← evidenceUnescape value
    return { current with record := { record with matched := record.matched ++ [term] } }
  else if key = "unmatched".toList then do
    let term ← evidenceUnescape value
    return { current with record := { record with unmatched := record.unmatched ++ [term] } }
  else if key = "rank".toList then do
    let ranking ← parseEvidenceRank value
    return { current with record := { record with rankings := record.rankings ++ [ranking] } }
  else .error .corrupt

/-- The records read so far and the one that is being read. -/
structure StoreState where
  records : List QueryEvidenceRecord
  current : Option OpenRecord

/-- The record that is being read joins the others. -/
def StoreState.close (state : StoreState) : Except EvidenceError (List QueryEvidenceRecord) :=
  match state.current with
  | none => .ok state.records
  | some current => do return state.records ++ [← current.finish]

/-- One line behind the version. -/
def StoreState.line (state : StoreState) (line : Str) : Except EvidenceError StoreState :=
  if line = "---".toList then do
    let records ← state.close
    failIf (records.length > maxEvidenceRecords) .full
    return ⟨records, some .new⟩
  else
    match state.current, splitOnce '\t' line with
    | some current, some (key, value) => do return ⟨state.records, some (← current.field key value)⟩
    | _, _ => .error .corrupt

def parseEvidenceStore (input : List UInt8) : Except EvidenceError (List QueryEvidenceRecord) :=
  match fromUtf8 input with
  | none => .error .corrupt
  | some text =>
      match lines text with
      | [] => .error .corrupt
      | version :: rest => do
          failIf (version ≠ evidenceStoreVersion) .corrupt
          let state ← rest.foldlM StoreState.line ⟨[], none⟩
          let records ← state.close
          failIf (records.length > maxEvidenceRecords) .full
          return records

/-! ## Encoding -/

def fieldLine (key value : Str) : Str := key ++ '\t' :: value

def rankingLine (ranking : QueryEvidenceRanking) : Str :=
  fieldLine "rank".toList (join ['\t']
    [decimal ranking.rank.toNat, evidenceEscape ranking.bundle, evidenceEscape ranking.locator,
      evidenceEscape ranking.matchReason, decimal ranking.exact_.toNat,
      decimal ranking.partial_.toNat, decimal ranking.active.toNat,
      decimal ranking.canonical.toNat, decimal ranking.publicSafe.toNat,
      decimal ranking.confidence.toNat, evidenceEscape ranking.freshness])

def recordLines (record : QueryEvidenceRecord) : List Str :=
  ["---".toList, fieldLine "request".toList (evidenceEscape record.request)] ++
    record.requestedRoots.map (fun root => fieldLine "root".toList (evidenceEscape root)) ++
    [fieldLine "outcome".toList (evidenceEscape record.outcome)] ++
    record.matched.map (fun term => fieldLine "matched".toList (evidenceEscape term)) ++
    record.unmatched.map (fun term => fieldLine "unmatched".toList (evidenceEscape term)) ++
    record.rankings.map rankingLine

def terminated (all : List Str) : Str := all.flatMap (· ++ ['\n'])

/-- A record with more than the store holds. -/
def QueryEvidenceRecord.Oversized (record : QueryEvidenceRecord) : Prop :=
  byteLen record.request > maxEvidenceRequestBytes ∨
    record.requestedRoots.length > maxEvidenceRoots ∨ record.rankings.length > queryResultLimit

instance (record : QueryEvidenceRecord) : Decidable record.Oversized :=
  inferInstanceAs (Decidable (_ ∨ _ ∨ _))

/-- The loop of `encode_evidence_store` behind what it has written. -/
def encodeRecords : Str → List QueryEvidenceRecord → Except EvidenceError Str
  | out, [] => .ok out
  | out, record :: rest => do
      failIf record.Oversized .oversized
      let out := out ++ terminated (recordLines record)
      failIf (byteLen out > maxEvidenceFileBytes) .oversized
      encodeRecords out rest

def encodeEvidenceStore (records : List QueryEvidenceRecord) : Except EvidenceError (List UInt8) := do
  failIf (records.length > maxEvidenceRecords) .full
  let out ← encodeRecords (terminated [evidenceStoreVersion]) records
  failIf (byteLen out > maxEvidenceFileBytes) .oversized
  return bytes out

end Bran.Cli
