import Bran.Library.DirTree
import Bran.Library.Files
import Bran.Scan.Digest
import Bran.Scan.Ignore
import Mathlib.Data.Prod.Lex

/-!
# The repository scanner

The scan of a directory tree, in full (`scan`) and from a set of changed paths (`scan_changed`).  The
tree does not change during a scan and its calls do not fail; a lookup through a symbolic link is
refused.
-/

namespace Bran.Scan

open Text Validation DirTree

abbrev RepoItem := Item Str (List UInt8)

/-- The entries of the root directory. -/
abbrev Root := List (Str × RepoItem)

structure ScanConfig where
  maxFiles : ℕ
  maxFileBytes : ℕ
  maxTotalBytes : ℕ
  profile : Str
  knowledgeDocumentsOnly : Bool

structure ScanEntry (M : Type) where
  identity : ContentIdentity
  source : List UInt8
  metadata : M

structure ScanInputFingerprint where
  schema : ContentIdentity
  parser : ContentIdentity
  profile : ContentIdentity
  config : ContentIdentity
  packageDefaults : ContentIdentity
  ignore : ContentIdentity
  deriving DecidableEq

inductive ScanDiagnostic
  | symlink (path : Str)
  | unreadable (path reason : Str)
  | nonUtf8Path (path : Str)
  | unsupportedInput (path : Str)
  | oversizedInput (path : Str) (actual limit : ℕ)
  | weakIdentityMismatch (path : Str)
  deriving DecidableEq

def ScanDiagnostic.path : ScanDiagnostic → Str
  | .symlink path => path
  | .unreadable path _ => path
  | .nonUtf8Path path => path
  | .unsupportedInput path => path
  | .oversizedInput path _ _ => path
  | .weakIdentityMismatch path => path

/-- The fields of a diagnostic in the order of their comparison. -/
def ScanDiagnostic.key : ScanDiagnostic → ℕ ×ₗ Str ×ₗ Str ×ₗ ℕ ×ₗ ℕ
  | .symlink path => toLex (0, toLex (path, toLex ([], toLex (0, 0))))
  | .unreadable path reason => toLex (1, toLex (path, toLex (reason, toLex (0, 0))))
  | .nonUtf8Path path => toLex (2, toLex (path, toLex ([], toLex (0, 0))))
  | .unsupportedInput path => toLex (3, toLex (path, toLex ([], toLex (0, 0))))
  | .oversizedInput path actual limit =>
      toLex (4, toLex (path, toLex ([], toLex (actual, limit))))
  | .weakIdentityMismatch path => toLex (5, toLex (path, toLex ([], toLex (0, 0))))

structure ScanSnapshot (M : Type) where
  entries : OrdMap Str (ScanEntry M)
  diagnostics : List ScanDiagnostic
  inputs : ScanInputFingerprint
  fileCount : ℕ
  totalBytes : ℕ
  observedBytes : OrdMap Str ℕ

inductive ScanFailure
  | invalidIgnore (diagnostic : IgnoreDiagnostic)
  | unreadableIgnore (reason : Str)
  | limitExceeded (path : Str) (actual limit : ℕ)
  | depthExceeded (path : Str) (actual limit : ℕ)
  | rootEscape (path : Str)
  | invalidChangedPath (path reason : Str)
  deriving DecidableEq

/-- `RepositoryScanner`: `parse` is the parser with the package defaults of each path. -/
structure RepositoryScanner (M : Type) where
  config : ScanConfig
  parse : Str → Str → M
  parserFingerprint : Str
  packageDefaultsFingerprint : Str

def maxScanDepth : ℕ := 64

def maxOversizeProbeBytes : ℕ := 512

/-! ## Paths -/

def branignoreFilename : Str := ".branignore".toList

def legacyOkfignoreFilename : Str := ".okfignore".toList

def gitignoreFilename : Str := ".gitignore".toList

def isIgnoreControlPath (path : Str) : Bool :=
  path = branignoreFilename || path = legacyOkfignoreFilename || path = gitignoreFilename

def joinRelative (directory name : Str) : Str :=
  if directory = [] then name else directory ++ '/' :: name

def isKnowledgeDocumentPath (path : Str) : Bool :=
  ".md".toList <:+ path || ".markdown".toList <:+ path

def ScanConfig.acceptsFile (config : ScanConfig) (relative : Str) : Bool :=
  !config.knowledgeDocumentsOnly || isKnowledgeDocumentPath relative

def validateChangedPath (path : Str) : Except ScanFailure Unit :=
  failIf (path = [] ∨ path.head? = some '/' ∨ '\\' ∈ path ∨ Char.ofNat 0 ∈ path ∨
    byteLen path > 4096 ∨ ∃ part ∈ path.splitOn '/', part = [] ∨ part = ['.'] ∨ part = ['.', '.'])
    (.invalidChangedPath path "path must be a normalized relative file path".toList)

/-! ## Inputs -/

def fingerprint (value : Str) : ContentIdentity := .fromBytes (bytes value)

def ScanConfig.text (config : ScanConfig) : Str :=
  "max-files=".toList ++ decimal config.maxFiles ++ ";max-file-bytes=".toList ++
    decimal config.maxFileBytes ++ ";max-total-bytes=".toList ++ decimal config.maxTotalBytes ++
    ";knowledge-documents-only=".toList ++
    (if config.knowledgeDocumentsOnly then "true".toList else "false".toList)

def RepositoryScanner.inputs {M : Type} (scanner : RepositoryScanner M) (ignore : ContentIdentity) :
    ScanInputFingerprint :=
  ⟨fingerprint "source-metadata-schema-v2".toList, fingerprint scanner.parserFingerprint,
    fingerprint scanner.config.profile, fingerprint scanner.config.text,
    fingerprint scanner.packageDefaultsFingerprint, ignore⟩

/-- The root ignore file that is read, with the start of its identity. -/
def configuredIgnore (root : Root) : Option (Str × Str × RepoItem) :=
  match entryNamed branignoreFilename root with
  | some item => some (branignoreFilename, "branignore-v1:".toList, item)
  | none => (entryNamed legacyOkfignoreFilename root).map fun item =>
      (legacyOkfignoreFilename, "okfignore-v1:".toList, item)

/-- The matcher of the root ignore file and the input of its identity. -/
def readConfigured (root : Root) : Except ScanFailure (IgnoreMatcher × List UInt8) :=
  match configuredIgnore root with
  | none => .ok (.default, Text.bytes "branignore-v1:missing;okfignore-v1:missing".toList)
  | some (_, version, .file data) => do
      failIf (data.length > maxBranignoreBytes) (.invalidIgnore (.inputTooLarge data.length))
      let matcher ← (IgnoreMatcher.fromBranignore data).mapError .invalidIgnore
      return (matcher, Text.bytes version ++ 0 :: data)
  | some (filename, _, _) => .error (.unreadableIgnore
      ("root ".toList ++ filename ++ " must be a regular file, not a symlink".toList))

def readIgnore (root : Root) : Except ScanFailure (IgnoreMatcher × ContentIdentity) := do
  let (matcher, input) ← readConfigured root
  match entryNamed gitignoreFilename root with
  | some (.file data) =>
      if data.length > maxBranignoreBytes then
        return (matcher, .fromBytes (input ++ Text.bytes ";gitignore-v1:oversized".toList))
      else
        return (matcher.addGitignore data,
          .fromBytes (input ++ Text.bytes ";gitignore-v1:".toList ++ 0 :: data))
  | some _ => return (matcher, .fromBytes (input ++ Text.bytes ";gitignore-v1:unsupported".toList))
  | none => return (matcher, .fromBytes (input ++ Text.bytes ";gitignore-v1:missing".toList))

/-! ## Files -/

/-- `limit`. -/
def limitExceeded (path : Str) (actual limit : ℕ) : ScanFailure := .limitExceeded path actual limit

/-- `probe_oversized` of a file above the limit. -/
def probeOversized (config : ScanConfig) (relative : Str) (data : List UInt8) : ScanDiagnostic :=
  let probe := data.take maxOversizeProbeBytes
  if 0 ∈ probe ∨ fromUtf8 probe = none then .unsupportedInput relative
  else .oversizedInput relative data.length config.maxFileBytes

/-- The text of a file, or the diagnostic that is recorded in its place. -/
def inspectSource (config : ScanConfig) (relative : Str) (data : List UInt8) :
    Except ScanDiagnostic Str := do
  failIf (data.length > config.maxFileBytes) (probeOversized config relative data)
  match fromUtf8 data with
  | none => .error (.unsupportedInput relative)
  | some text => do
      failIf (data.length > config.maxFileBytes)
        (.oversizedInput relative data.length config.maxFileBytes)
      return text

def checkBytes (config : ScanConfig) (path : Str) (size prior : ℕ) : Except ScanFailure Unit := do
  failIf (size > config.maxFileBytes) (limitExceeded path size config.maxFileBytes)
  failIf (size > config.maxTotalBytes - prior)
    (limitExceeded path (prior + size) config.maxTotalBytes)

namespace ScanSnapshot

variable {M : Type}

/-- A diagnostic behind the others. -/
def push (snapshot : ScanSnapshot M) (diagnostic : ScanDiagnostic) : ScanSnapshot M :=
  { snapshot with diagnostics := snapshot.diagnostics ++ [diagnostic] }

def removeObserved (snapshot : ScanSnapshot M) (path : Str) : ScanSnapshot M :=
  match snapshot.observedBytes.find? path with
  | none => snapshot
  | some bytes =>
      { snapshot with
        observedBytes := snapshot.observedBytes.erase path
        fileCount := snapshot.fileCount - 1
        totalBytes := snapshot.totalBytes - bytes }

def replaceObserved (snapshot : ScanSnapshot M) (path : Str) (size : ℕ) : ScanSnapshot M :=
  let removed := snapshot.removeObserved path
  { removed with
    observedBytes := removed.observedBytes.insert path size
    fileCount := removed.fileCount + 1
    totalBytes := removed.totalBytes + size }

/-- An entry under its path. -/
def store (snapshot : ScanSnapshot M) (path : Str) (entry : ScanEntry M) : ScanSnapshot M :=
  { snapshot with entries := snapshot.entries.insert path entry }

end ScanSnapshot

/-! ## The walk -/

structure ScanLimits where
  paths : ℕ
  files : ℕ
  bytes : ℕ

structure WalkState (M : Type) where
  snapshot : ScanSnapshot M
  limits : ScanLimits

variable {M : Type} (scanner : RepositoryScanner M)

/-- The entry of a file with its text. -/
def RepositoryScanner.entryOf (relative : Str) (data : List UInt8) (text : Str) : ScanEntry M :=
  ⟨.fromBytes data, data, scanner.parse relative text⟩

def readFile (relative : Str) (data : List UInt8) (state : WalkState M) :
    Except ScanFailure (WalkState M) :=
  match inspectSource scanner.config relative data with
  | .error diagnostic => .ok { state with snapshot := state.snapshot.push diagnostic }
  | .ok text => do
      let files := state.limits.files + 1
      failIf (files > scanner.config.maxFiles)
        (limitExceeded relative files scanner.config.maxFiles)
      checkBytes scanner.config relative data.length state.limits.bytes
      .ok ⟨(state.snapshot.replaceObserved relative data.length).store relative
          (scanner.entryOf relative data text),
        { state.limits with files := files, bytes := state.limits.bytes + data.length }⟩

/-- Whether an item counts towards the limit of paths. -/
def countsPath (config : ScanConfig) (relative : Str) : RepoItem → Bool
  | .file _ => config.acceptsFile relative
  | _ => true

/-- The count of an item that is not ignored. -/
def countPath (config : ScanConfig) (relative : Str) (item : RepoItem) (state : WalkState M) :
    Except ScanFailure (WalkState M) :=
  if countsPath config relative item then do
    let paths := state.limits.paths + 1
    failIf (paths > config.maxFiles * 4 + maxScanDepth)
      (limitExceeded relative paths (config.maxFiles * 4 + maxScanDepth))
    .ok { state with limits := { state.limits with paths := paths } }
  else .ok state

/-- Whether the walk passes over a path. -/
def skipped (matcher : IgnoreMatcher) (relative : Str) : Bool :=
  isIgnoreControlPath relative || matcher.isIgnoredRelative relative

mutual

/-- One item of `walk`, at the depth of the directory that holds it. -/
def walkItem (matcher : IgnoreMatcher) (relative : Str) (depth : ℕ) :
    RepoItem → WalkState M → Except ScanFailure (WalkState M)
  | .symlink, state => .ok { state with snapshot := state.snapshot.push (.symlink relative) }
  | .other, state =>
      .ok { state with snapshot := state.snapshot.push (.unsupportedInput relative) }
  | .file data, state =>
      if scanner.config.acceptsFile relative then readFile scanner relative data state
      else .ok state
  | .directory entries, state => do
      failIf (depth + 1 > maxScanDepth) (.depthExceeded relative (depth + 1) maxScanDepth)
      walk matcher relative (depth + 1) entries state

/-- `walk`: the loop over the sorted entries of a directory. -/
def walk (matcher : IgnoreMatcher) (directory : Str) (depth : ℕ) :
    List (Str × RepoItem) → WalkState M → Except ScanFailure (WalkState M)
  | [], state => .ok state
  | (name, item) :: rest, state =>
      if skipped matcher (joinRelative directory name) then walk matcher directory depth rest state
      else do
        let state ← countPath scanner.config (joinRelative directory name) item state
        let state ← walkItem matcher (joinRelative directory name) depth item state
        walk matcher directory depth rest state

end

/-- A snapshot without files. -/
def emptySnapshot (inputs : ScanInputFingerprint) : ScanSnapshot M :=
  ⟨.empty, [], inputs, 0, 0, .empty⟩

/-- The counters and the order of the diagnostics that `collect` ends with. -/
def finishSnapshot (snapshot : ScanSnapshot M) : ScanSnapshot M :=
  { snapshot with
    fileCount := snapshot.observedBytes.entries.length
    totalBytes := snapshot.observedBytes.values.sum
    diagnostics := sortBy ScanDiagnostic.key snapshot.diagnostics }

/-- `scan`, that is `collect` without a previous snapshot. -/
def scan (root : Root) : Except ScanFailure (ScanSnapshot M) := do
  let (matcher, ignore) ← readIgnore root
  let state ← walk scanner matcher [] 0 root
    ⟨emptySnapshot (scanner.inputs ignore), ⟨0, 0, 0⟩⟩
  .ok (finishSnapshot state.snapshot)

/-! ## Changed paths -/

/-- `apply_changed_path` behind its check of the path. -/
def applyFound (relative : Str) (snapshot : ScanSnapshot M) :
    Found Str (List UInt8) → Except ScanFailure (ScanSnapshot M)
  | .missing => .ok snapshot
  | .notDirectory => .ok (snapshot.push (.unreadable relative Files.Error.notADirectory.text))
  | .throughLink => .ok (snapshot.push (.unreadable relative Files.Error.tooManyLinks.text))
  | .item .symlink => .ok (snapshot.push (.symlink relative))
  | .item (.directory _) =>
      .error (.invalidChangedPath relative "changed path must not be a directory".toList)
  | .item .other => .ok (snapshot.push (.unsupportedInput relative))
  | .item (.file data) =>
      if !scanner.config.acceptsFile relative then .ok snapshot
      else
        match inspectSource scanner.config relative data with
        | .error diagnostic => .ok (snapshot.push diagnostic)
        | .ok text => do
            checkBytes scanner.config relative data.length snapshot.totalBytes
            .ok ((snapshot.replaceObserved relative data.length).store relative
              (scanner.entryOf relative data text))

/-- A snapshot without a path. -/
def dropPath (relative : Str) (snapshot : ScanSnapshot M) : ScanSnapshot M :=
  ({ snapshot with entries := snapshot.entries.erase relative }).removeObserved relative

def applyChangedPath (root : Root) (relative : Str) (snapshot : ScanSnapshot M) :
    Except ScanFailure (ScanSnapshot M) := do
  validateChangedPath relative
  applyFound scanner relative (dropPath relative snapshot)
    (lookup (relative.splitOn '/') (.directory root))

/-- The loop over the changed paths. -/
def applyChanges (root : Root) (matcher : IgnoreMatcher) :
    List Str → ScanSnapshot M → Except ScanFailure (ScanSnapshot M)
  | [], snapshot => .ok snapshot
  | relative :: rest, snapshot =>
      if skipped matcher relative then applyChanges root matcher rest (dropPath relative snapshot)
      else do
        let snapshot ← applyChangedPath scanner root relative snapshot
        applyChanges root matcher rest snapshot

structure AffectedNode where
  path : Str
  previous : Option ContentIdentity
  current : Option ContentIdentity

structure ScanChange (M : Type) where
  snapshot : ScanSnapshot M
  added : List Str
  changed : List Str
  removed : List Str
  reused : List Str
  affected : List AffectedNode

/-- One entry of the new snapshot against the previous one. -/
def classifyEntry (previous : ScanSnapshot M) (changedPaths : OrdSet Str) (inputChanged : Bool)
    (change : ScanChange M) (entry : Str × ScanEntry M) : ScanChange M :=
  match previous.entries.find? entry.1 with
  | none =>
      { change with
        added := change.added ++ [entry.1]
        affected := change.affected ++ [⟨entry.1, none, some entry.2.identity⟩] }
  | some prior =>
      if !inputChanged && !changedPaths.contains entry.1 && prior.identity = entry.2.identity &&
          prior.source = entry.2.source then
        { change with reused := change.reused ++ [entry.1] }
      else
        { change with
          snapshot :=
            if prior.identity = entry.2.identity ∧ prior.source ≠ entry.2.source then
              change.snapshot.push (.weakIdentityMismatch entry.1)
            else change.snapshot
          changed := change.changed ++ [entry.1]
          affected := change.affected ++ [⟨entry.1, some prior.identity, some entry.2.identity⟩] }

/-- The change from the previous snapshot to a new one. -/
def classify (previous : ScanSnapshot M) (changedPaths : OrdSet Str) (snapshot : ScanSnapshot M) :
    ScanChange M :=
  let inputChanged : Bool := snapshot.inputs ≠ previous.inputs
  let change := snapshot.entries.entries.foldl (classifyEntry previous changedPaths inputChanged)
    ⟨snapshot, [], [], [], [], []⟩
  let gone := previous.entries.entries.filter fun entry => !snapshot.entries.contains entry.1
  { change with
    snapshot := { change.snapshot with
      diagnostics := sortBy ScanDiagnostic.key change.snapshot.diagnostics }
    removed := gone.map Prod.fst
    affected := sortBy AffectedNode.path (change.affected ++
      gone.map fun entry => ⟨entry.1, some entry.2.identity, none⟩) }

/-- The incremental part of `scan_changed`. -/
def updateSnapshot (root : Root) (matcher : IgnoreMatcher) (inputs : ScanInputFingerprint)
    (previous : ScanSnapshot M) (changedPaths : OrdSet Str) :
    Except ScanFailure (ScanSnapshot M) := do
  let kept := previous.diagnostics.filter fun diagnostic => !changedPaths.contains diagnostic.path
  let snapshot ← applyChanges scanner root matcher changedPaths.keys
    { previous with diagnostics := kept, inputs := inputs }
  failIf (snapshot.fileCount > scanner.config.maxFiles)
    (limitExceeded "<snapshot>".toList snapshot.fileCount scanner.config.maxFiles)
  failIf (snapshot.totalBytes > scanner.config.maxTotalBytes)
    (limitExceeded "<snapshot>".toList snapshot.totalBytes scanner.config.maxTotalBytes)
  .ok snapshot

def scanChanged (root : Root) (previous : ScanSnapshot M) (changedPaths : OrdSet Str) :
    Except ScanFailure (ScanChange M) := do
  forEach validateChangedPath changedPaths.keys
  let (matcher, ignore) ← readIgnore root
  let snapshot ←
    if scanner.inputs ignore ≠ previous.inputs then scan scanner root
    else updateSnapshot scanner root matcher (scanner.inputs ignore) previous changedPaths
  .ok (classify previous changedPaths snapshot)

end Bran.Scan
