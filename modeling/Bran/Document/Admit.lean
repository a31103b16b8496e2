import Bran.Document.JsonReaders
import Bran.Document.Projection

/-!
# Admission

`admit.rs`: the anchors of a projection are cut to the budgets of the envelope, the envelope is
built from them with an account of what was left out, and the whole of it is checked once more.
-/

namespace Bran.Document

open Text Validation Export Scanner

def maxAnchors : ℕ := 4096

def maxTextBytes : ℕ := 8192

def maxEnvelopeBytes : ℕ := 1048576

def maxLocatorBytes : ℕ := 1024

/-- The bound on the bytes of an original and on the bytes omitted. -/
def maxOriginalBytes : ℤ := 20971520

def secretMarkers : List Str :=
  ["-----BEGIN ".toList, "AIza".toList, "X-Goog-Credential=".toList, "X-Goog-Signature=".toList,
    "access_token=".toList, "private_key".toList, "refresh_token=".toList, "ya29.".toList]

def validateLocator (locator : Str) : Except Refusal Unit :=
  match validateEmittedString locator with
  | .error (.dlpViolation _) => .error .dlpFindings
  | .error _ => .error .publicBoundary
  | .ok () => failIf (secretMarkers.any (containsStr locator) = true) .publicBoundary

structure Admitted where
  envelope : Json
  anchors : List EvidenceAnchor
  fidelity : Json

/-! ## Budgets -/

/-- The prefix up to the last character boundary at or before an offset. -/
def lastBoundary (text : Str) : ℕ → Str
  | 0 => []
  | stop + 1 => (takeBytes text (stop + 1)).getD (lastBoundary text stop)

def truncateBytes (text : Str) (max : ℕ) : Str :=
  if byteLen text ≤ max then text else lastBoundary text max

/-- One step of the `retain` of `apply_anchor_budgets`. -/
def retainStep (state : List EvidenceAnchor × ℕ × ℕ) (anchor : EvidenceAnchor) :
    List EvidenceAnchor × ℕ × ℕ :=
  let (kept, omittedAnchors, omittedBytes) := state
  if isBlank anchor.text then (kept, omittedAnchors, omittedBytes)
  else if maxTextBytes < byteLen anchor.text then
    (kept, omittedAnchors + 1, omittedBytes + byteLen anchor.text)
  else (kept ++ [anchor], omittedAnchors, omittedBytes)

/-- One step of the `drain` of `apply_anchor_budgets`. -/
def drainStep (state : ℕ × ℕ) (anchor : EvidenceAnchor) : ℕ × ℕ :=
  (state.1 + 1, state.2 + byteLen anchor.text)

def applyAnchorBudgets (anchors : List EvidenceAnchor) : List EvidenceAnchor × ℕ × ℕ :=
  let sorted := sortBy EvidenceAnchor.id anchors
  let (kept, omittedAnchors, omittedBytes) := sorted.foldl retainStep ([], 0, 0)
  if maxAnchors < kept.length then
    let (omittedAnchors, omittedBytes) :=
      (kept.drop maxAnchors).foldl drainStep (omittedAnchors, omittedBytes)
    (kept.take maxAnchors, omittedAnchors, omittedBytes)
  else (kept, omittedAnchors, omittedBytes)

/-! ## The envelope -/

/-- The record of an anchor in the envelope. -/
def anchorJson (format : Format) (anchor : EvidenceAnchor) : Json :=
  Json.object [("family", Json.text format.family), ("id", .str anchor.id),
    ("locator", anchor.locator), ("role", .str anchor.role), ("text", .str anchor.text),
    ("text_digest", .str anchor.textDigest)]

/-- The features a fidelity map calls unsupported. -/
def unsupportedFeatures : Json → List Str
  | .obj map => sortBy id <| (map.filter fun entry => match entry.2 with
      | .str level => level = "unsupported".toList
      | _ => false).map Prod.fst
  | _ => []

/-- What the envelope says about the cuts. -/
structure Cuts where
  omittedAnchors : ℕ
  omittedBytes : ℕ
  truncated : Bool

/-- The normalized content of the envelope. -/
def contentJson (format : Format) (normalizedText : Str) : Json :=
  Json.object [("family", Json.text format.family), ("language", Json.text "en"),
    ("text", .str normalizedText)]

/-- The receipt of what was cut. -/
def truncationJson (cuts : Cuts) : Json :=
  Json.object [("omitted_anchor_count", .int cuts.omittedAnchors),
    ("omitted_bytes", .int cuts.omittedBytes),
    ("reason", if cuts.truncated then Json.text "envelope-budget" else .null),
    ("truncated", .bool cuts.truncated)]

def envelopeFields (content : List UInt8) (format : Format) (locator : Str)
    (anchors : List EvidenceAnchor) (fidelity : Json) (processor : String) (normalizedText : Str)
    (cuts : Cuts) : List (String × Json) :=
  let sourceDigest := sha256Hex content
  let normalized := contentJson format normalizedText
  [("admission", Json.object [("packet", Json.text "eligible"), ("query", Json.text "eligible"),
      ("reasons", .arr []), ("status", Json.text "admitted")]),
    ("anchors", .arr (anchors.map (anchorJson format))),
    ("assets", .arr []),
    ("evidence_id", .str ("evd:".toList ++ format.extension.toList ++ ':' :: sourceDigest.take 16)),
    ("fidelity", fidelity),
    ("hazards", Json.object
      [("active_content", Json.object [("kinds", .arr []), ("present", .bool false)]),
        ("external_references", Json.object [("count", .int 0), ("present", .bool false)])]),
    ("normalized", Json.object
      [("content", normalized), ("digest", .str (sha256Hex normalized.toBytes))]),
    ("original", Json.object [("byte_length", .int content.length),
      ("media_type", Json.text format.mediaType), ("sha256", .str sourceDigest)]),
    ("parser", Json.object [("attestation", Json.text "unavailable"),
      ("identity", Json.text "bran-document-adapter"), ("processor", Json.text processor),
      ("version", Json.text "0.1.0")]),
    ("policy", Json.object
      [("classification", Json.object [("status", Json.text "unavailable"), ("value", .null)]),
        ("dlp", Json.object [("findings", .arr []), ("status", Json.text "passed")]),
        ("public_boundary", Json.object
          [("outcome", Json.text "unavailable"), ("value", .null)])]),
    ("receipts", Json.object
      [("malformed_input", Json.object [("present", .bool false), ("reason", .null)]),
        ("truncation", truncationJson cuts),
        ("unavailable", Json.object
          [("features", .arr ((unsupportedFeatures fidelity).map .str)),
            ("parser_attestation", .bool true), ("revision", .bool true)])]),
    ("relations", .arr []),
    ("schema_version", Json.text "1.0.0"),
    ("source", Json.object [("locator", .str locator),
      ("revision", Json.object [("state", Json.text "unavailable"), ("value", .null)])])]

/-! ## The check of the built envelope -/

/-- `ok_or`. -/
def orRefuse {α : Type} (refusal : Refusal) : Option α → Except Refusal α
  | some value => .ok value
  | none => .error refusal

def keysAre (value : Json) (keys : List String) : Bool :=
  match value with
  | .obj map => map.length = keys.length &&
      keys.all fun key => (OrdMap.findEntry key.toList map).isSome
  | _ => false

/-- A number under a key within two bounds. -/
def bounded (locator : Json) (key : String) (low high : ℤ) : Bool :=
  (intField locator key).any (within low high)

/-- A name under a key that is neither blank nor long. -/
def named (locator : Json) (key : String) : Bool :=
  (strField locator key).any fun value => !isBlank value && value.length ≤ 256

/-- The numbers under two keys do not decrease, and a missing one is below any number. -/
def ordered (value : Json) (first second : String) : Bool :=
  match intField value first, intField value second with
  | none, _ => true
  | some _, none => false
  | some low, some high => low ≤ high

def validNativeLocator (format : Format) (locator : Json) : Bool :=
  strField locator "family" = some format.family.toList &&
    match format with
    | .docx => keysAre locator ["family", "section", "ordinal"] && named locator "section" &&
        bounded locator "ordinal" 1 1000000
    | .xlsx => keysAre locator ["family", "sheet", "row", "column"] && named locator "sheet" &&
        bounded locator "row" 1 1048576 && bounded locator "column" 1 16384
    | .pptx => keysAre locator ["family", "slide", "shape", "z_index"] &&
        bounded locator "slide" 1 1000000 && bounded locator "shape" 1 1000000 &&
        bounded locator "z_index" 0 1000000
    | .pdf =>
        match locator.get "bbox".toList with
        | none => false
        | some bbox => keysAre locator ["family", "page", "block", "bbox"] &&
            bounded locator "page" 1 1000000 && bounded locator "block" 1 1000000 &&
            keysAre bbox ["x0", "y0", "x1", "y1"] &&
            (["x0", "y0", "x1", "y1"].all fun key => bounded bbox key 0 1000000) &&
            ordered bbox "x0" "x1" && ordered bbox "y0" "y1"

/-- One anchor of the envelope, behind the identity of the one before it. -/
def checkAnchor (format : Format) (previous : Str) (anchor : Json) : Except Refusal Str := do
  let malformed := Refusal.malformedContainer
  let id ← orRefuse malformed (strField anchor "id")
  failIf (validId id = false ∨ id ≤ previous) malformed
  let role ← orRefuse malformed (strField anchor "role")
  failIf (validRole format role = false) malformed
  let locator ← orRefuse malformed (anchor.get "locator".toList)
  failIf (validNativeLocator format locator = false) malformed
  return id

/-- The anchors of the envelope, in order. -/
def checkAnchors (format : Format) : Str → List Json → Except Refusal Unit
  | _, [] => .ok ()
  | previous, anchor :: rest => do
      let id ← checkAnchor format previous anchor
      checkAnchors format id rest

/-- The features of a format's fidelity map. -/
def features : Format → List String
  | .docx => ["text", "paragraphs", "headings", "lists", "tables", "headers_footers", "macros"]
  | .xlsx => ["text", "sheets", "cells", "formulas", "charts", "macros"]
  | .pptx => ["text", "slides", "shapes", "speaker_notes", "z_order", "macros", "animations"]
  | .pdf => ["text", "reading_order", "bounding_boxes", "tables", "figures", "ocr", "javascript"]

mutual

/-- Every string of a value is validated.  The values still to look at are on a stack, so the last
of several is looked at first. -/
def checkStrings : Json → Except Refusal Unit
  | .str text => validateLocator text
  | .arr items => checkItems items
  | .obj entries => checkEntries entries
  | _ => .ok ()

def checkItems : List Json → Except Refusal Unit
  | [] => .ok ()
  | item :: rest => do
      checkItems rest
      checkStrings item

def checkEntries : List (Str × Json) → Except Refusal Unit
  | [] => .ok ()
  | (_, item) :: rest => do
      checkEntries rest
      checkStrings item

end

def validateBuiltEnvelope (envelope : Json) (format : Format) : Except Refusal Unit := do
  let malformed := Refusal.malformedContainer
  failIf (maxEnvelopeBytes < envelope.toBytes.length) .oversized
  let original ← orRefuse malformed (envelope.get "original".toList)
  failIf (bounded original "byte_length" 1 maxOriginalBytes = false) .oversized
  let truncation ← orRefuse malformed
    ((envelope.get "receipts".toList).bind (Json.get "truncation".toList))
  failIf (bounded truncation "omitted_anchor_count" 0 maxAnchors = false ∨
    bounded truncation "omitted_bytes" 0 maxOriginalBytes = false) .oversized
  let anchors ← orRefuse malformed ((envelope.get "anchors".toList).bind arrItems)
  checkAnchors format [] anchors
  let fidelity ← orRefuse malformed (envelope.get "fidelity".toList)
  failIf (keysAre fidelity (features format) = false ∨ validFidelity fidelity = false) malformed
  failIf (["macros", "formulas", "javascript", "animations"].any (fun key =>
    strField fidelity key = some "exact".toList) = true) .unsupportedContainer
  checkStrings envelope

/-! ## `admit` -/

/-- The construction of the envelope in `admit`, from what was read of a projection. -/
def construct (content : List UInt8) (format : Format) (locator : Str)
    (projected : List EvidenceAnchor) (fidelity : Json) (processor : String) :
    Except Refusal Admitted := do
  let (anchors, omittedAnchors, omittedBytes) := applyAnchorBudgets projected
  failIf (anchors.isEmpty = true) .noAdmissibleText
  let joined := join ['\n'] (anchors.map EvidenceAnchor.text)
  let normalizedText := truncateBytes joined maxTextBytes
  let cut := byteLen normalizedText ≠ byteLen joined
  let truncated := decide (cut ∨ 0 < omittedAnchors)
  let omittedBytes :=
    if truncated = true ∧ cut then omittedBytes + (byteLen joined - byteLen normalizedText)
    else omittedBytes
  forEach validateLocator (anchors.map EvidenceAnchor.text ++ [locator, normalizedText])
  let fields := OrdMap.ofList ((envelopeFields content format locator anchors fidelity processor
    normalizedText ⟨omittedAnchors, omittedBytes, truncated⟩).map
      fun field => (field.1.toList, field.2))
  let digest := sha256Hex (Json.ofMap fields).toBytes
  let envelope := Json.ofMap (fields.insert "envelope_digest".toList (.str digest))
  validateBuiltEnvelope envelope format
  return { envelope, anchors, fidelity }

/-- What `Imported` holds of an import. -/
structure Imported where
  canonical : List UInt8
  receipt : List Str

/-- `admit`, with the import of the registered adapters. -/
def admitBytes (importOf : Format → List UInt8 → Except Refusal Imported) (content : List UInt8)
    (format : Format) (locator : Str) : Except Refusal Admitted := do
  failIf (locator = [] ∨ maxLocatorBytes < byteLen locator ∨ isBlank locator = true)
    .malformedContainer
  validateLocator locator
  let imported ← importOf format content
  failIf ("dlp-findings".toList ∈ imported.receipt) .dlpFindings
  failIf ("public-boundary-violation".toList ∈ imported.receipt) .publicBoundary
  let projection ← (Json.parse imported.canonical).mapError fun _ => .malformedContainer
  let (anchors, fidelity, processor) ←
    orRefuse .unsupportedContainer (readProjection format projection)
  construct content format locator anchors fidelity processor

end Bran.Document
