import Bran.Graph.Lineage
import Bran.Scan.Deltas
import Bran.Scan.Incremental

/-!
# Index transactions

An `IndexTransaction` owns the published snapshot, the scan it was built from and the parse results of
that scan.  A refresh reparses what the scanner reports as added or changed, builds one candidate from
all results and replaces the publication at its very end.  What a transaction holds is therefore what
an index made from its scan alone would hold; the field `reparsed` says so.
-/

namespace Bran.Scan

open List OrdMap Text Validation

open DirTree (WellFormed)
open Bran.Agent (sha256Value)
open Bran.Graph (GraphBuilder GraphError Provenance SoundLineage StructuralAuthority StructuralEdge
  StructuralEdgeCertainty StructuralEdgeKind StructuralGeneratedStatus StructuralGraphCandidate
  StructuralGraphSnapshot StructuralLifecycle StructuralNode structuralContentDigest)

/-! ## Parse results -/

inductive StructuralParseStatus
  | accepted
  | rejected
  deriving DecidableEq

structure StructuralFact where
  key : Str
  value : Str

structure StructuralEdgeCandidate where
  kind : StructuralEdgeKind
  target : Str
  locator : Str

/-- A `StructuralParseResult` with all its fields. -/
structure ParsedSource extends StructuralParseResult where
  status : StructuralParseStatus
  facts : List StructuralFact
  edges : List StructuralEdgeCandidate
  diagnostics : List Str

/-- `parse_structural` without an extraction. -/
abbrev Parser := Str → List UInt8 → ParsedSource

section

variable {M : Type} (parser : Parser)

/-- The diagnostics of a rejected source. -/
def parseDiagnostics (path : Str) (result : ParsedSource) : List Str :=
  if result.status = .rejected then
    result.diagnostics.map fun diagnostic =>
      "parse ".toList ++ path ++ ": ".toList ++ diagnostic
  else []

def parsePaths (scan : ScanSnapshot M) :
    List Str → OrdMap Str ParsedSource → List Str × OrdMap Str ParsedSource
  | [], parsed => ([], parsed)
  | path :: rest, parsed =>
      match scan.entries.find? path with
      | none => parsePaths scan rest parsed
      | some entry =>
          let result := parser path entry.source
          let (diagnostics, parsed) := parsePaths scan rest (parsed.insert path result)
          (parseDiagnostics path result ++ diagnostics, parsed)

/-- The results of all files of a scan. -/
def parseAll (scan : ScanSnapshot M) : OrdMap Str ParsedSource :=
  scan.entries.mapValues fun path entry => parser path entry.source

end

/-! ## The candidate -/

def factValues (result : ParsedSource) (key : String) : List Str :=
  (OrdSet.ofList ((result.facts.filter fun fact => fact.key = key.toList).map
    StructuralFact.value)).keys

/-- What the value of a fact stands for; the first choice is that of a missing fact. -/
def choose {α : Type} (asStr : α → Str) (name : String) (path : Str) (first : α) (others : List α) :
    Option Str → Except Str α
  | none => .ok first
  | some value =>
      match (first :: others).find? fun choice => asStr choice = value with
      | some choice => .ok choice
      | none => .error ("graph ".toList ++ path ++ ": invalid ".toList ++ name.toList ++ ' ' :: value)

def lifecycle (result : ParsedSource) (path : Str) : Except Str StructuralLifecycle :=
  choose StructuralLifecycle.asStr "lifecycle" path .current
    [.superseded, .draft, .archive, .rejected] (factValues result "lifecycle").head?

def authority (result : ParsedSource) (path : Str) : Except Str StructuralAuthority :=
  choose StructuralAuthority.asStr "authority" path .unknown [.canonical, .approved, .supporting]
    (factValues result "authority").head?

def generatedStatus (result : ParsedSource) (path : Str) : Except Str StructuralGeneratedStatus :=
  choose StructuralGeneratedStatus.asStr "generated status" path .source
    [.generated, .preextracted] ((factValues result "generated_status").head?.or
      ((factValues result "type").find? fun value => value = "generated".toList))

/-- The texts of the errors of `graph_candidate`. -/
def graphError (label : String) (path : Str) (error : GraphError) : Str :=
  label.toList ++ path ++ ": ".toList ++ error.display

def nodeProvenance (path : Str) (result : ParsedSource) : Except Str Provenance :=
  (match result.provenance with
    | some extraction =>
        Provenance.new "preextracted-text".toList (extraction.originalArtifactDigest ++
          ':' :: extraction.extractorIdentity ++ '@' :: extraction.extractorVersion ++
          ':' :: extraction.extractionDigest)
    | none => Provenance.new "repository-scanner".toList path).mapError
      (graphError "graph provenance " path)

section

variable {M : Type}

def graphNode (scan : ScanSnapshot M) (path : Str) (result : ParsedSource) :
    Except Str StructuralNode := do
  let entry ← (scan.entries.find? path).elim
    (.error ("graph: parsed path missing from scan: ".toList ++ path)) .ok
  let sourceType ← result.sourceType.elim
    (.error ("graph: accepted source type missing: ".toList ++ path)) .ok
  let lifecycle ← lifecycle result path
  let authority ← authority result path
  let status ← generatedStatus result path
  let provenance ← nodeProvenance path result
  (StructuralNode.new path (sha256Value entry.source) sourceType (factValues result "domain")
    (factValues result "owner").head? lifecycle authority status [provenance]).mapError
    (graphError "graph node " path)

/-- An edge of a file; its target may be none of the files. -/
def graphEdge (nodeIds : OrdMap Str Str) (path source : Str) (edge : StructuralEdgeCandidate) :
    Except Str StructuralEdge := do
  let (target, certainty) : Str × StructuralEdgeCertainty :=
    match nodeIds.find? edge.target with
    | none => (sha256Value (bytes ("missing\n".toList ++ edge.target)), .missingTarget)
    | some target => (target, .known)
  let provenance ← (Provenance.new "structural-parser-v1".toList edge.locator).mapError
    (graphError "graph edge " path)
  (StructuralEdge.new edge.kind source target edge.locator [provenance] certainty).mapError
    (graphError "graph edge " path)

def graphCandidate (scan : ScanSnapshot M) (parsed : OrdMap Str ParsedSource)
    (scanInputDigest : Str) : Except Str StructuralGraphCandidate := do
  let nodes ← parsed.entries.mapM fun file => graphNode scan file.1 file.2
  let nodeIds := OrdMap.ofList (nodes.map fun node => (node.path, node.id))
  let edges ← parsed.entries.mapM fun file => do
    let source ← (nodeIds.find? file.1).elim
      (.error ("graph: source node missing: ".toList ++ file.1)) .ok
    file.2.edges.mapM (graphEdge nodeIds file.1 source)
  .ok ⟨scanInputDigest, nodes, edges.flatten⟩

end

/-! ## Receipts -/

structure RefreshInputIdentity where
  priorDigest : Str
  changedPaths : List Str
  scanInputDigest : Str

inductive IndexValidationState
  | notRun
  | passed
  | failed

structure IndexReceipt where
  priorDigest : Str
  candidateDigest : Option Str
  publishedDigest : Str
  deltas : List IndexDelta
  reusedPaths : List Str
  renameAmbiguities : List RenameAmbiguity
  validationState : IndexValidationState
  diagnostics : List Str
  refreshInput : RefreshInputIdentity

inductive IndexFailureKind
  | scan
  | parse
  | graph
  | limit
  | receipt
  | validation

structure IndexFailure where
  kind : IndexFailureKind
  receipt : IndexReceipt

def deltaKey (delta : IndexDelta) : Str ×ₗ Str ×ₗ ℕ :=
  toLex ((delta.oldPath.or delta.newPath).getD [],
    toLex (delta.newPath.getD [], delta.kind.ctorIdx))

/-- `receipt`, from the fields it is given. -/
def receipt (fields : IndexReceipt) : IndexReceipt :=
  { fields with
    deltas := sortBy deltaKey fields.deltas
    reusedPaths := normalize fields.reusedPaths
    renameAmbiguities := sortBy (fun ambiguity => toLex (ambiguity.contentDigest,
      toLex (ambiguity.removedPaths, ambiguity.addedPaths))) fields.renameAmbiguities
    diagnostics := normalize fields.diagnostics }

/-! ## Transactions -/

section

variable {M : Type} (parser : Parser)

/-- No file of a scan is rejected with diagnostics. -/
def Quiet (scan : ScanSnapshot M) : Prop :=
  ∀ path entry, scan.entries.find? path = some entry →
    parseDiagnostics path (parser path entry.source) = []

structure IndexTransaction (M : Type) (parser : Parser) where
  published : StructuralGraphSnapshot
  scan : ScanSnapshot M
  parsed : OrdMap Str ParsedSource
  reparsed : parsed = parseAll parser scan
  quiet : Quiet parser scan

/-- The arguments of a call of `refresh`, and the files it meets. -/
structure RefreshRequest (M : Type) where
  scanner : RepositoryScanner M
  root : Root
  wellFormed : WellFormed IsName (.directory root)
  changedPaths : OrdSet Str
  builder : GraphBuilder
  operationId : Str

def scanFailureKind : ScanFailure → IndexFailureKind
  | .limitExceeded _ _ _ => .limit
  | .depthExceeded _ _ _ => .limit
  | _ => .scan

/-- The kind and the validation state of a failed build. -/
def buildFailureKind : Graph.GraphBuildFailureKind → IndexFailureKind × IndexValidationState
  | .limit => (.limit, .notRun)
  | .receipt => (.receipt, .notRun)
  | .validation => (.validation, .failed)

/-- The results of the files after the ones that are gone were removed and the new ones parsed, and
the diagnostics of these. -/
def reparse (change : ScanChange M) (parsed : OrdMap Str ParsedSource) :
    List Str × OrdMap Str ParsedSource :=
  parsePaths parser change.snapshot (change.added ++ change.changed)
    (change.removed.foldl OrdMap.erase parsed)

variable {parser}

theorem find?_parsePaths (scan : ScanSnapshot M) (paths : List Str)
    (parsed : OrdMap Str ParsedSource) (path : Str) :
    (parsePaths parser scan paths parsed).2.find? path =
      if path ∈ paths then ((parseAll parser scan).find? path).or (parsed.find? path)
      else parsed.find? path := by
  induction paths generalizing parsed with
  | nil => rfl
  | cons first rest ih =>
      rw [parsePaths]
      cases hentry : scan.entries.find? first with
      | none =>
          have hnone : (parseAll parser scan).find? first = none := by
            rw [parseAll, find?_mapValues, hentry, Option.map_none]
          grind
      | some entry =>
          have hsome : (parseAll parser scan).find? first =
              some (parser first entry.source) := by
            rw [parseAll, find?_mapValues, hentry, Option.map_some]
          grind [find?_insert]

theorem parsePaths_eq_nil_iff (scan : ScanSnapshot M) (paths : List Str)
    (parsed : OrdMap Str ParsedSource) :
    (parsePaths parser scan paths parsed).1 = [] ↔ ∀ path ∈ paths, ∀ entry,
      scan.entries.find? path = some entry →
        parseDiagnostics path (parser path entry.source) = [] := by
  induction paths generalizing parsed with
  | nil => simp [parsePaths]
  | cons first rest ih =>
      rw [parsePaths, forall_mem_cons]
      cases hentry : scan.entries.find? first with
      | none => simp [ih]
      | some entry => simp [ih]

theorem parsePaths_keys (scan : ScanSnapshot M) :
    (parsePaths parser scan scan.entries.keys .empty).2 = parseAll parser scan := by
  refine ext_find? fun path => ?_
  have hempty : (OrdMap.empty : OrdMap Str ParsedSource).find? path = none := rfl
  rw [find?_parsePaths, hempty, Option.or_none]
  split_ifs with hpath
  · rfl
  · rw [parseAll, find?_mapValues, find?_eq_none_iff.mpr hpath, Option.map_none]

theorem quiet_of_parsePaths (scan : ScanSnapshot M) {parsed : OrdMap Str ParsedSource}
    (h : (parsePaths parser scan scan.entries.keys parsed).1 = []) : Quiet parser scan :=
  fun path entry hentry =>
    (parsePaths_eq_nil_iff _ _ _).mp h path (mem_keys_iff.mpr ⟨entry, hentry⟩) entry hentry

theorem find?_foldl_erase (paths : List Str) (parsed : OrdMap Str ParsedSource) (path : Str) :
    (paths.foldl OrdMap.erase parsed).find? path =
      if path ∈ paths then none else parsed.find? path := by
  induction paths generalizing parsed with
  | nil => rfl
  | cons first rest ih =>
      rw [foldl_cons, ih, find?_erase]
      grind

variable {change : ScanChange M} {previous : ScanSnapshot M} {changedPaths : OrdSet Str}

/-- A file whose result is kept has the bytes that were parsed. -/
theorem ScanChange.Exact.kept (h : change.Exact previous changedPaths) {path : Str}
    {entry : ScanEntry M} (hentry : change.snapshot.entries.find? path = some entry)
    (hpath : path ∉ change.added ++ change.changed) :
    ∃ prior, previous.entries.find? path = some prior ∧ prior.source = entry.source := by
  have hmem := mem_keys_iff.mpr ⟨entry, hentry⟩
  rw [mem_append, h.added, h.changed] at hpath
  have hreused : path ∈ change.reused := by
    tauto
  obtain ⟨_, _, prior, found, hprior, hfound, _, hsource⟩ := (h.reused path).mp hreused
  obtain rfl := Option.some.inj (hfound.symm.trans hentry)
  exact ⟨prior, hprior, hsource⟩

/-- After the reparse of a change the results are those of the new scan. -/
theorem reparse_eq (h : change.Exact previous changedPaths) {parsed : OrdMap Str ParsedSource}
    (hparsed : parsed = parseAll parser previous) :
    (reparse parser change parsed).2 = parseAll parser change.snapshot := by
  refine ext_find? fun path => ?_
  rw [hparsed, reparse, find?_parsePaths, find?_foldl_erase]
  simp only [h.removed]
  simp only [parseAll, find?_mapValues]
  cases hentry : change.snapshot.entries.find? path with
  | none =>
      have hnot := find?_eq_none_iff.mp hentry
      cases hprior : previous.entries.find? path with
      | none => simp
      | some prior =>
          have hmem := mem_keys_iff.mpr ⟨prior, hprior⟩
          simp [hnot, hmem]
  | some entry =>
      have hmem := mem_keys_iff.mpr ⟨entry, hentry⟩
      by_cases hpath : path ∈ change.added ++ change.changed
      · rw [if_pos hpath, Option.map_some, Option.some_or]
      · obtain ⟨prior, hprior, hsource⟩ := h.kept hentry hpath
        simp [hpath, hmem, hprior, hsource]

theorem quiet_of_reparse (h : change.Exact previous changedPaths) (hprevious : Quiet parser previous)
    {parsed : OrdMap Str ParsedSource} (hquiet : (reparse parser change parsed).1 = []) :
    Quiet parser change.snapshot := by
  intro path entry hentry
  by_cases hpath : path ∈ change.added ++ change.changed
  · exact (parsePaths_eq_nil_iff _ _ _).mp hquiet path hpath entry hentry
  · obtain ⟨prior, hprior, hsource⟩ := h.kept hentry hpath
    rw [← hsource]
    exact hprevious path prior hprior

end

/-! ## Refreshing -/

section

variable {M : Type} {parser : Parser} (inputsText : ScanInputFingerprint → Str)
  (failureText : ScanFailure → Str)

/-- `scan_input_digest`; `inputsText` is the `Debug` text of the inputs. -/
def scanInputDigest (scan : ScanSnapshot M) : Str :=
  sha256Value (bytes ("inputs:".toList ++ inputsText scan.inputs ++ ['\n']) ++
    scan.entries.entries.flatMap fun entry =>
      bytes entry.1 ++ 0 :: bytes (sha256Value entry.2.source) ++ [10])

/-- The source type and the provenance of each result. -/
def evidenceOf (parsed : OrdMap Str ParsedSource) : OrdMap Str StructuralParseResult :=
  parsed.mapValues fun _ result => result.toStructuralParseResult

/-- `unchanged`. -/
def sameContent (candidate published : StructuralGraphSnapshot) : Bool :=
  candidate.graphDigest = published.graphDigest &&
    candidate.scanInputDigest = published.scanInputDigest &&
    candidate.frozenFrequencyDigest = published.frozenFrequencyDigest &&
    candidate.nodes = published.nodes && candidate.edges = published.edges

namespace IndexTransaction

def new (published : StructuralGraphSnapshot) (scan : ScanSnapshot M) :
    Except IndexFailure (IndexTransaction M parser) :=
  if h : (parsePaths parser scan scan.entries.keys .empty).1 = [] then
    .ok {
      published
      scan
      parsed := (parsePaths parser scan scan.entries.keys .empty).2
      reparsed := parsePaths_keys scan
      quiet := quiet_of_parsePaths scan h }
  else
    .error ⟨.parse, receipt ⟨published.snapshotDigest, none, published.snapshotDigest, [], [], [],
      .notRun, (parsePaths parser scan scan.entries.keys .empty).1,
      ⟨published.snapshotDigest, [], scanInputDigest inputsText scan⟩⟩⟩

/-- `refresh`, with the transaction it leaves; the outer `none` is that of `GraphBuilder.build`. -/
def refresh (index : IndexTransaction M parser) (request : RefreshRequest M) :
    Option (Except IndexFailure IndexReceipt × IndexTransaction M parser) :=
  let prior := index.published.snapshotDigest
  match hscan : scanChanged request.scanner request.root index.scan request.changedPaths with
  | .error error =>
      some (.error ⟨scanFailureKind error, receipt ⟨prior, none, prior, [], [], [], .notRun,
        ["scan: ".toList ++ failureText error],
        ⟨prior, request.changedPaths.keys, scanInputDigest inputsText index.scan⟩⟩⟩, index)
  | .ok change =>
      let inputDigest := scanInputDigest inputsText change.snapshot
      let parsed := reparse parser change index.parsed
      let (deltas, ambiguities) := classifyDeltas change index.scan change.snapshot
        (evidenceOf index.parsed) (evidenceOf parsed.2)
      let report (candidate : Option Str) (published : Str) (state : IndexValidationState)
          (diagnostics : List Str) : IndexReceipt :=
        receipt ⟨prior, candidate, published, deltas, change.reused, ambiguities, state,
          diagnostics, ⟨prior, request.changedPaths.keys, inputDigest⟩⟩
      if hquiet : parsed.1 = [] then
        match graphCandidate change.snapshot parsed.2 inputDigest with
        | .error diagnostic =>
            some (.error ⟨.graph, report none prior .notRun [diagnostic]⟩, index)
        | .ok candidate =>
            match request.builder.build candidate (some prior) request.operationId with
            | none => none
            | some (.error error) =>
                let (kind, state) := buildFailureKind error.kind
                some (.error ⟨kind, report (some error.candidateDigest) prior state
                  [error.diagnostic]⟩, index)
            | some (.ok candidate) =>
                let published :=
                  if sameContent candidate index.published then index.published else candidate
                some (.ok (report (some candidate.snapshotDigest) published.snapshotDigest .passed
                  [if sameContent candidate index.published then
                    "candidate-identical-publication-retained".toList
                  else "candidate-atomically-published".toList]), {
                    published
                    scan := change.snapshot
                    parsed := parsed.2
                    reparsed := reparse_eq (exact_of_scanChanged hscan) index.reparsed
                    quiet := quiet_of_reparse (exact_of_scanChanged hscan) index.quiet hquiet })
      else some (.error ⟨.parse, report none prior .notRun parsed.1⟩, index)

/-! ## What refreshes keep -/

def receiptOf : Except IndexFailure IndexReceipt → IndexReceipt
  | .ok receipt => receipt
  | .error failure => failure.receipt

/-- The publication is what the candidate of the whole scan gives, under a sound lineage. -/
structure Published (index : IndexTransaction M parser) : Prop where
  content : ∃ candidate, graphCandidate index.scan (parseAll parser index.scan)
      (scanInputDigest inputsText index.scan) = .ok candidate ∧
    index.published.nodes = sortBy StructuralNode.id candidate.nodes ∧
    index.published.edges = sortBy StructuralEdge.id candidate.edges ∧
    index.published.graphDigest = structuralContentDigest candidate.nodes candidate.edges ∧
    index.published.scanInputDigest = scanInputDigest inputsText index.scan
  /-- The nodes are those of the scanned files, with the digests of their bytes. -/
  files : ∀ path digest, (∃ node ∈ index.published.nodes,
      node.path = path ∧ node.contentDigest = digest) ↔
    ∃ entry, index.scan.entries.find? path = some entry ∧ sha256Value entry.source = digest
  lineage : SoundLineage index.published.nodes index.published.edges

/-- A publication names the one before it. -/
def Follows (prior next : StructuralGraphSnapshot) : Prop :=
  next.parentDigest = some prior.snapshotDigest

/-- What one refresh does. -/
inductive Refreshed (index : IndexTransaction M parser) (request : RefreshRequest M) :
    Except IndexFailure IndexReceipt → IndexTransaction M parser → Prop
  | failed (failure : IndexFailure)
      (hprior : failure.receipt.priorDigest = index.published.snapshotDigest)
      (hpublished : failure.receipt.publishedDigest = index.published.snapshotDigest) :
      Refreshed index request (.error failure) index
  | done (receipt : IndexReceipt) (next : IndexTransaction M parser)
      (hprior : receipt.priorDigest = index.published.snapshotDigest)
      (hpublished : receipt.publishedDigest = next.published.snapshotDigest)
      (hscan : ∃ change, scanChanged request.scanner request.root index.scan
        request.changedPaths = .ok change ∧ next.scan = change.snapshot)
      (hnext : Published inputsText next)
      (hfollows : next.published = index.published ∨ Follows index.published next.published) :
      Refreshed index request (.ok receipt) next

variable {inputsText failureText}

theorem graphNode_eq_ok {scan : ScanSnapshot M} {path : Str} {result : ParsedSource}
    {node : StructuralNode} (h : graphNode scan path result = .ok node) :
    node.path = path ∧ (scan.entries.find? path).map (fun entry => sha256Value entry.source) =
      some node.contentDigest := by
  simp only [graphNode, StructuralNode.new, bind_eq_ok_iff, mapError_eq_ok_iff] at h
  obtain ⟨entry, hentry, _, -, _, -, _, -, _, -, _, -, _, -, _, -, _, -, _, -, h⟩ := h
  obtain rfl := Except.ok.inj h
  cases hfind : scan.entries.find? path with
  | none =>
      rw [hfind] at hentry
      cases hentry
  | some found =>
      rw [hfind] at hentry
      obtain rfl := Except.ok.inj hentry
      exact ⟨rfl, rfl⟩

theorem mapM_graphNode {scan : ScanSnapshot M} {files : List (Str × ParsedSource)}
    {nodes : List StructuralNode}
    (h : (files.mapM fun file => graphNode scan file.1 file.2) = .ok nodes) :
    nodes.map StructuralNode.path = files.map Prod.fst ∧ ∀ node ∈ nodes,
      (scan.entries.find? node.path).map (fun entry => sha256Value entry.source) =
        some node.contentDigest := by
  rw [mapM_eq_ok_iff] at h
  induction h with
  | nil => exact ⟨rfl, fun _ hnode => absurd hnode not_mem_nil⟩
  | cons hfile _ ih =>
      obtain ⟨hpath, hdigest⟩ := graphNode_eq_ok hfile
      obtain ⟨hpaths, hdigests⟩ := ih
      rw [map_cons, map_cons, hpath, hpaths]
      exact ⟨rfl, forall_mem_cons.mpr ⟨hpath ▸ hdigest, hdigests⟩⟩

/-- A candidate has one node for every file. -/
theorem files_of_graphCandidate {scan : ScanSnapshot M} {inputDigest : Str}
    {candidate : StructuralGraphCandidate}
    (h : graphCandidate scan (parseAll parser scan) inputDigest = .ok candidate)
    (path digest : Str) :
    (∃ node ∈ candidate.nodes, node.path = path ∧ node.contentDigest = digest) ↔
      ∃ entry, scan.entries.find? path = some entry ∧ sha256Value entry.source = digest := by
  obtain ⟨nodes, hnodes, h⟩ := bind_eq_ok_iff.mp h
  obtain ⟨_, _, h⟩ := bind_eq_ok_iff.mp h
  obtain rfl := Except.ok.inj h
  obtain ⟨hpaths, hdigests⟩ := mapM_graphNode hnodes
  constructor
  · intro h
    obtain ⟨node, hnode, rfl, rfl⟩ := h
    exact Option.map_eq_some_iff.mp (hdigests node hnode)
  · intro h
    obtain ⟨entry, hentry, rfl⟩ := h
    have hfind : (parseAll parser scan).find? path = some (parser path entry.source) := by
      rw [parseAll, find?_mapValues, hentry, Option.map_some]
    have hmem : path ∈ nodes.map StructuralNode.path := by
      rw [hpaths]
      exact mem_keys_iff.mpr ⟨_, hfind⟩
    obtain ⟨node, hnode, rfl⟩ := mem_map.mp hmem
    have hdigest := hdigests node hnode
    rw [hentry] at hdigest
    exact ⟨node, hnode, rfl, (Option.some.inj hdigest).symm⟩

theorem scanInputDigest_graphCandidate {scan : ScanSnapshot M} {parsed : OrdMap Str ParsedSource}
    {inputDigest : Str} {candidate : StructuralGraphCandidate}
    (h : graphCandidate scan parsed inputDigest = .ok candidate) :
    candidate.scanInputDigest = inputDigest := by
  obtain ⟨_, _, h⟩ := bind_eq_ok_iff.mp h
  obtain ⟨_, _, h⟩ := bind_eq_ok_iff.mp h
  rw [← Except.ok.inj h]

/-- A publication that is retained has the content of the candidate. -/
theorem content_retained (candidate published : StructuralGraphSnapshot) :
    ∃ kept, (if sameContent candidate published then published else candidate) = kept ∧
      kept.graphDigest = candidate.graphDigest ∧
      kept.scanInputDigest = candidate.scanInputDigest ∧ kept.nodes = candidate.nodes ∧
      kept.edges = candidate.edges := by
  by_cases hsame : sameContent candidate published = true
  · refine ⟨published, if_pos hsame, ?_⟩
    simp only [sameContent, Bool.and_eq_true, decide_eq_true_eq] at hsame
    obtain ⟨⟨⟨⟨hgraph, hinput⟩, _⟩, hnodes⟩, hedges⟩ := hsame
    exact ⟨hgraph.symm, hinput.symm, hnodes.symm, hedges.symm⟩
  · exact ⟨candidate, if_neg hsame, rfl, rfl, rfl, rfl⟩

theorem refresh_spec (index : IndexTransaction M parser) (request : RefreshRequest M) :
    ∃ outcome next, index.refresh inputsText failureText request = some (outcome, next) ∧
      Refreshed inputsText index request outcome next := by
  rw [refresh]
  dsimp only
  split
  · exact ⟨_, _, rfl, .failed _ rfl rfl⟩
  · next change hscan =>
      split_ifs with hquiet
      · cases hcandidate : graphCandidate change.snapshot (reparse parser change index.parsed).2
            (scanInputDigest inputsText change.snapshot) with
        | error diagnostic => exact ⟨_, _, rfl, .failed _ rfl rfl⟩
        | ok candidate =>
            obtain ⟨result, hresult, hbuilt⟩ := request.builder.build_spec candidate
              (some index.published.snapshotDigest) request.operationId
            dsimp only
            rw [hresult]
            cases result with
            | error error => exact ⟨_, _, rfl, .failed _ rfl rfl⟩
            | ok snapshot =>
                obtain ⟨hnodes, hedges, hgraph, hinput, hparent, hlineage⟩ := hbuilt snapshot rfl
                obtain ⟨kept, hkept, hkeptGraph, hkeptInput, hkeptNodes, hkeptEdges⟩ :=
                  content_retained snapshot index.published
                refine ⟨_, _, rfl, .done _ _ rfl rfl ⟨change, hscan, rfl⟩ ?_ ?_⟩
                · rw [reparse_eq (exact_of_scanChanged hscan) index.reparsed] at hcandidate
                  have hdigest := scanInputDigest_graphCandidate hcandidate
                  constructor
                  · refine ⟨candidate, hcandidate, ?_⟩
                    dsimp only
                    rw [hkept, hkeptNodes, hkeptEdges, hkeptGraph, hkeptInput]
                    exact ⟨hnodes, hedges, hgraph, hinput.trans hdigest⟩
                  · dsimp only
                    rw [hkept, hkeptNodes, hnodes]
                    simp only [mem_sortBy]
                    exact files_of_graphCandidate hcandidate
                  · dsimp only
                    rw [hkept, hkeptNodes, hkeptEdges]
                    exact hlineage
                · dsimp only
                  split_ifs
                  · exact Or.inl rfl
                  · exact Or.inr hparent
      · exact ⟨_, _, rfl, .failed _ rfl rfl⟩

/-- A refresh under other inputs than those of the scan, for example of a new index, covers the
repository: the publication has one node for every file that a full scan reads, with the digest of
its bytes. -/
theorem refresh_indexes_repository (index : IndexTransaction M parser)
    (request : RefreshRequest M) :
    ∃ outcome next, index.refresh inputsText failureText request = some (outcome, next) ∧
      ((∃ failure, outcome = .error failure ∧ next = index) ∨
        ∃ receipt matcher ignore, outcome = .ok receipt ∧
          readIgnore request.root = .ok (matcher, ignore) ∧
          (request.scanner.inputs ignore ≠ index.scan.inputs → ∀ path digest,
            (∃ node ∈ next.published.nodes, node.path = path ∧ node.contentDigest = digest) ↔
              ∃ entry, request.scanner.entryAt matcher request.root path = some entry ∧
                sha256Value entry.source = digest)) := by
  obtain ⟨outcome, next, hrefresh, hrefreshed⟩ := @refresh_spec _ _ inputsText failureText index
    request
  refine ⟨outcome, next, hrefresh, ?_⟩
  cases hrefreshed with
  | failed failure _ _ => exact Or.inl ⟨failure, rfl, rfl⟩
  | done receipt next _ _ hscan hnext _ =>
      obtain ⟨change, hchange, hsnapshot⟩ := hscan
      rw [scanChanged] at hchange
      obtain ⟨_, _, hchange⟩ := bind_eq_ok_iff.mp hchange
      obtain ⟨⟨matcher, ignore⟩, hignore, hchange⟩ := bind_eq_ok_iff.mp hchange
      refine Or.inr ⟨receipt, matcher, ignore, rfl, hignore, fun hinputs path digest => ?_⟩
      dsimp only at hchange
      rw [if_pos hinputs] at hchange
      obtain ⟨snapshot, hfull, hchange⟩ := bind_eq_ok_iff.mp hchange
      obtain rfl := Except.ok.inj hchange
      rw [hnext.files, hsnapshot, (classify_sameFiles _ _ _).entries,
        (scan_eq_ok request.wellFormed hignore hfull).1.entries]

/-! ## Runs -/

variable (inputsText failureText)

/-- Refreshes one after the other, with their outcomes. -/
def refreshAll (index : IndexTransaction M parser) : List (RefreshRequest M) →
    Option (List (Except IndexFailure IndexReceipt) × IndexTransaction M parser)
  | [] => some ([], index)
  | request :: rest => do
      let (outcome, next) ← index.refresh inputsText failureText request
      let (outcomes, last) ← refreshAll next rest
      return (outcome :: outcomes, last)

/-- The receipts lead from one digest to another. -/
def Chained : Str → List IndexReceipt → Str → Prop
  | start, [], finish => start = finish
  | start, receipt :: rest, finish =>
      receipt.priorDigest = start ∧ Chained receipt.publishedDigest rest finish

/-- What a run keeps, whichever of its refreshes fail. -/
structure Kept (index : IndexTransaction M parser)
    (outcomes : List (Except IndexFailure IndexReceipt)) (last : IndexTransaction M parser) :
    Prop where
  published : (∃ receipt, .ok receipt ∈ outcomes) → Published inputsText last
  failed : (∀ receipt, .ok receipt ∉ outcomes) → last = index
  follows : Relation.ReflTransGen Follows index.published last.published
  chained : Chained index.published.snapshotDigest (outcomes.map receiptOf)
    last.published.snapshotDigest

variable {inputsText failureText}

theorem Kept.cons {index next last : IndexTransaction M parser}
    {request : RefreshRequest M} {outcome : Except IndexFailure IndexReceipt}
    {outcomes : List (Except IndexFailure IndexReceipt)}
    (hfirst : Refreshed inputsText index request outcome next) (h : Kept inputsText next outcomes last) :
    Kept inputsText index (outcome :: outcomes) last := by
  cases hfirst with
  | failed failure hprior hpublished =>
      refine ⟨fun hok => h.published ?_, fun hall => h.failed ?_, h.follows, hprior, ?_⟩
      · simpa using hok
      · simpa using hall
      · rw [receiptOf, hpublished]
        exact h.chained
  | done receipt next hprior hpublished _ hnext hfollows =>
      refine ⟨fun _ => ?_, fun hall => absurd mem_cons_self (hall receipt), ?_, hprior, ?_⟩
      · by_cases hok : ∃ receipt, .ok receipt ∈ outcomes
        · exact h.published hok
        · rw [h.failed (not_exists.mp hok)]
          exact hnext
      · rcases hfollows with hsame | hfollows
        · rw [← hsame]
          exact h.follows
        · exact h.follows.head hfollows
      · rw [receiptOf, hpublished]
        exact h.chained

end IndexTransaction

end

end Bran.Scan
