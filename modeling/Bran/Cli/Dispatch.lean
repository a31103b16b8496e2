import Bran.Agent.Profiles
import Bran.Cli.Envelope
import Bran.Library.CharCode
import Bran.Library.Program

/-!
# Dispatch

The dispatch of `check`, `query` and `packet` with their argument grammars, and the mode in which
only registered roots are admitted.  What a command does behind its admission is a call.
-/

namespace Bran.Cli

open Text Agent Program

/-- An argument or a variable as the system hands it over. -/
abbrev OsStr := List UInt8

/-! ## Registered roots -/

def maxRegisteredRequestBytes : ℕ := 8 * 1024

inductive ModeFailure
  | registeredRootsInvalid
  | unavailable
  | rootNotRegistered
  | requestOversized
  | requestDlpRejected
  deriving DecidableEq

def ModeFailure.detail : ModeFailure → Str
  | .registeredRootsInvalid => "registered_roots_invalid".toList
  | .unavailable => "unavailable_in_registered_root_mode".toList
  | .rootNotRegistered => "root_not_registered".toList
  | .requestOversized => "request_oversized".toList
  | .requestDlpRejected => "request_dlp_rejected".toList

structure RegisteredRoots where
  roots : List OsStr

namespace RegisteredRoots

/-- `RegisteredRoots::parse`: `canonicalDirectory` tells the directories that are spelled as their
canonical path. -/
def parse (canonicalDirectory : OsStr → Bool) (value : OsStr) :
    Except ModeFailure RegisteredRoots :=
  let roots := value.splitOn 58
  if roots.all fun root => root.head? = some 47 && canonicalDirectory root then .ok ⟨roots⟩
  else .error .registeredRootsInvalid

def admitRoot (registered : RegisteredRoots) (root : Str) : Except ModeFailure Unit :=
  if registered.roots.any fun entry => entry = bytes root then .ok ()
  else .error .rootNotRegistered

end RegisteredRoots

def admitRegisteredRequest (text : Str) : Except ModeFailure Unit :=
  if byteLen text > maxRegisteredRequestBytes then .error .requestOversized
  else if !isPublicDlpSafe text then .error .requestDlpRejected
  else .ok ()

def makeRegisteredModeError (failure : ModeFailure) : Str := errorEnvelope [] failure.detail

/-! ## Controls -/

structure ExperimentalControls where
  maxSources : Option ℕ
  effectiveMaxSources : Option ℕ
  dependencyDepth : Option ℕ
  responseSources : Option ℕ
  excerptBytes : Option ℕ
  deriving DecidableEq

inductive UsageFailure
  | missingRoot
  | invalidUtf8
  | missingAddDir
  | duplicateRecord
  | missingQuery
  | duplicateOption
  | missingValue
  | invalidControl
  | unknownOption
  | invalidPolicyStdinFlag
  | missingProfile
  | tooManyArgs
  deriving DecidableEq

def UsageFailure.detail : UsageFailure → Str
  | .missingRoot => "missing_root".toList
  | .invalidUtf8 => "invalid_utf8".toList
  | .missingAddDir => "missing_add_dir".toList
  | .duplicateRecord => "duplicate_record".toList
  | .missingQuery => "missing_query".toList
  | .duplicateOption => "duplicate_option".toList
  | .missingValue => "missing_value".toList
  | .invalidControl => "invalid_control".toList
  | .unknownOption => "unknown_option".toList
  | .invalidPolicyStdinFlag => "invalid_policy_stdin_flag".toList
  | .missingProfile => "missing_profile".toList
  | .tooManyArgs => "too_many_args".toList

/-- A control: what it holds, how it is stored, and its bounds. -/
structure ControlSlot where
  held : ExperimentalControls → Option ℕ
  store : ExperimentalControls → ℕ → ExperimentalControls
  minimum : ℕ
  maximum : ℕ

def controlSlot (argument : Str) : Option ControlSlot :=
  if argument = "--max-sources".toList then
    some ⟨(·.maxSources), fun controls value => { controls with maxSources := some value }, 1, 32⟩
  else if argument = "--dependency-depth".toList then
    some ⟨(·.dependencyDepth),
      fun controls value => { controls with dependencyDepth := some value }, 0, 4⟩
  else if argument = "--response-sources".toList then
    some ⟨(·.responseSources),
      fun controls value => { controls with responseSources := some value }, 1, 32⟩
  else if argument = "--excerpt-bytes".toList then
    some ⟨(·.excerptBytes),
      fun controls value => { controls with excerptBytes := some value }, 1, 4096⟩
  else none

/-- `usize::from_str`. -/
def parseUsize (text : Str) : Option ℕ :=
  CharCode.parseInteger (2 ^ 64) text

def experimentalControls : List Str → ExperimentalControls → List Str →
    Except UsageFailure (ExperimentalControls × List Str)
  | [], controls, positionals => .ok (controls, positionals)
  | argument :: rest, controls, positionals =>
      match controlSlot argument with
      | some slot =>
          if (slot.held controls).isSome then .error .duplicateOption
          else
            match rest with
            | [] => .error .missingValue
            | value :: rest =>
                match parseUsize value with
                | none => .error .invalidControl
                | some value =>
                    if value < slot.minimum ∨ value > slot.maximum then .error .invalidControl
                    else experimentalControls rest (slot.store controls value) positionals
      | none =>
          if "--".toList <+: argument then .error .unknownOption
          else experimentalControls rest controls (positionals ++ [argument])

/-! ## Argument grammars -/

structure QueryArguments where
  added : List Str
  parts : List Str
  acceptFlags : Bool
  expectAddDir : Bool
  record : Bool

def queryArguments : List OsStr → QueryArguments → Except UsageFailure QueryArguments
  | [], state => .ok state
  | argument :: rest, state =>
      match fromUtf8 argument with
      | none => .error .invalidUtf8
      | some value =>
          if state.expectAddDir then
            if value = [] then .error .missingAddDir
            else queryArguments rest
              { state with added := state.added ++ [value], expectAddDir := false }
          else if state.acceptFlags ∧ value = "--add-dir".toList then
            queryArguments rest { state with expectAddDir := true }
          else if state.acceptFlags ∧ value = "--record".toList then
            if state.record then .error .duplicateRecord
            else queryArguments rest { state with record := true }
          else queryArguments rest
            { state with acceptFlags := false, parts := state.parts ++ [value] }

/-- A query as its arguments spell it. -/
structure QueryRequest where
  root : Str
  added : List Str
  text : Str
  record : Bool

/-- The argument grammar of `query`. -/
def readQuery (arguments : List OsStr) : Except UsageFailure QueryRequest :=
  match arguments.head?.bind fromUtf8 with
  | none => .error .missingRoot
  | some root => do
      let state ← queryArguments arguments.tail ⟨[], [], true, false, false⟩
      if state.expectAddDir then .error .missingAddDir
      else
        let text := join [' '] state.parts
        if trim text = [] then .error .missingQuery
        else .ok ⟨root, state.added, text, state.record⟩

structure PacketRequest where
  root : Str
  text : Str
  controls : ExperimentalControls

/-- The argument grammar of `packet`. -/
def readPacket (arguments : List OsStr) : Except UsageFailure PacketRequest :=
  match arguments.mapM fromUtf8 with
  | none => .error .invalidUtf8
  | some arguments => do
      let (controls, positionals) ← experimentalControls arguments ⟨none, none, none, none, none⟩ []
      match positionals with
      | [] => .error .missingRoot
      | root :: parts =>
          let text := join [' '] parts
          if trim text = [] then .error .missingQuery else .ok ⟨root, text, controls⟩

/-- A check as its arguments spell it. -/
inductive CheckRequest
  | policyStdin (arguments : List Str)
  | ofRoot (root profile : Str)

/-- `--policy-stdin`. -/
def policyStdinFlag : Str := "--policy-stdin".toList

/-- The argument grammar of `check`, up to the arguments behind `--policy-stdin`. -/
def readCheck (arguments : List Str) : Except UsageFailure CheckRequest :=
  let count := arguments.count policyStdinFlag
  if count > 0 ∧ (arguments.head? ≠ some policyStdinFlag ∨ count > 1) then
    .error .invalidPolicyStdinFlag
  else
    match arguments with
    | [] => .error .missingRoot
    | first :: rest =>
        if first = policyStdinFlag then .ok (.policyStdin rest)
        else
          match rest with
          | [] => .error .missingProfile
          | [profile] => .ok (.ofRoot first profile)
          | _ => .error .tooManyArgs

/-- The arguments behind `--policy-stdin`. -/
def readPolicyStdin : List Str → Except UsageFailure (Str × Str)
  | [] => .error .missingRoot
  | [_] => .error .missingProfile
  | [root, profile] => .ok (root, profile)
  | _ => .error .tooManyArgs

/-! ## Calls -/

inductive SourceRevision
  | attested (reference : Option Str) (commit : Str)
  | unavailable (reason : Str)
  deriving DecidableEq

/-- The answer of `do_query` and `do_query_multi`. -/
structure QueryReport where
  status : Str
  data : Str
  warnings : List Str
  failures : List Str
  provenance : Str
  metrics : Str

/-- The answer of `do_packet`. -/
structure PacketReport where
  data : Str
  warnings : List Str
  failures : List Str
  provenance : Str
  metrics : Str

/-- `CliPacketFailure`. -/
structure PacketFailure where
  detail : Str
  data : Str
  metrics : Str

/-- The answer of `do_check`. -/
structure CheckReport where
  data : Str
  warnings : List Str
  failures : List Str
  exitCode : TypedExit
  status : Str
  provenance : Str
  metrics : Str

/-- What the dispatch calls: everything that reads a repository or the standard input.  `P` are the
policies. -/
inductive CliCall (P : Type)
  | sourceRevision (root : Str)
  | doQuery (root text : Str) (record : Bool)
  | doQueryMulti (roots : List Str) (text : Str) (record : Bool)
  | doPacket (root text : Str) (controls : ExperimentalControls)
  | loadPolicy (root : Str)
  | policyFromStdin
  | doCheck (root profile : Str) (policy : P) (source : Str)
  | other (command : Str) (arguments : List OsStr)

abbrev CliAnswer {P : Type} : CliCall P → Type
  | .sourceRevision _ => SourceRevision
  | .doQuery _ _ _ => Except Str QueryReport
  | .doQueryMulti _ _ _ => Except Str QueryReport
  | .doPacket _ _ _ => Except PacketFailure PacketReport
  | .loadPolicy _ => Except Str P
  | .policyFromStdin => Except Str P
  | .doCheck _ _ _ _ => Except Str CheckReport
  | .other _ _ => CliResult

/-- A part of the dispatch. -/
abbrev CliProgram (P : Type) (α : Type) := Program (CliCall P) CliAnswer Empty α

def cliCall {P : Type} (a : CliCall P) : CliProgram P (CliAnswer a) := call a

/-! ## Provenance -/

/-- One entry of `source_revisions_json`. -/
def revisionEntry (root : Str) (revision : SourceRevision) : Str :=
  let (status, reference, value, reason) :=
    match revision with
    | .attested reference commit =>
        ("attested".toList, (reference.map quoted).getD "null".toList, '"' :: commit ++ ['"'],
          "null".toList)
    | .unavailable reason =>
        ("unavailable".toList, "null".toList, "null".toList, '"' :: reason ++ ['"'])
  "\x7b\"root\":".toList ++ quoted root ++ ",\"kind\":\"git-head\",\"status\":\"".toList ++
    status ++ "\",\"ref\":".toList ++ reference ++ ",\"value\":".toList ++ value ++
    ",\"reason\":".toList ++ reason ++ ['}']

/-- The entries of `source_revisions_json`. -/
def revisionEntries {P : Type} : List Str → CliProgram P (List Str)
  | [] => pure []
  | root :: rest => do
      let revision : SourceRevision ← cliCall (.sourceRevision root)
      let entries ← revisionEntries rest
      return revisionEntry root revision :: entries

/-- `source_revisions_json`, in registered-root mode. -/
def sourceRevisions {P : Type} (registered : Option RegisteredRoots) (roots : List Str) :
    CliProgram P (Option Str) :=
  match registered with
  | none => pure none
  | some _ => do
      let entries ← revisionEntries roots
      return some ('[' :: join [','] entries ++ [']'])

def registeredProvenance (provenance : Str) (revisions : Option Str) : Str :=
  match revisions, stripEnd ['}'] provenance with
  | some list, some body =>
      if body = ['{'] then "\x7b\"source_revisions\":".toList ++ list ++ ['}']
      else body ++ ",\"source_revisions\":".toList ++ list ++ ['}']
  | _, _ => provenance

/-- The envelope of a failed operation. -/
def operationError (command detail : Str) (revisions : Option Str) : Str :=
  makeEnvelope command "error".toList "null".toList [] [detail]
    (registeredProvenance "\x7b\x7d".toList revisions) "\x7b\x7d".toList

/-! ## Commands -/

section Commands

variable {P : Type} (registered : Option RegisteredRoots)

def admitQuery (roots : RegisteredRoots) (request : QueryRequest) : Except ModeFailure Unit :=
  if request.record then .error .unavailable
  else do
    Validation.forEach roots.admitRoot (request.root :: request.added)
    admitRegisteredRequest request.text

/-- `do_query` or `do_query_multi`. -/
def askQuery (request : QueryRequest) : CliProgram P (Except Str QueryReport) :=
  if request.added = [] then
    cliCall (CliCall.doQuery request.root request.text request.record)
  else
    cliCall (CliCall.doQueryMulti (request.root :: request.added) request.text request.record)

/-- The arm of `query`. -/
def runQuery (arguments : List OsStr) : CliProgram P CliResult :=
  match readQuery arguments with
  | .error failure => pure (.usage (makeQueryError failure.detail))
  | .ok request =>
      match registered.elim (.ok ()) (admitQuery · request) with
      | .error failure => pure (.usage (makeQueryError failure.detail))
      | .ok () => do
          let revisions ← sourceRevisions registered (request.root :: request.added)
          match ← askQuery request with
          | .ok report => return .success (makeEnvelope "query".toList report.status report.data
              report.warnings report.failures (registeredProvenance report.provenance revisions)
              report.metrics)
          | .error message => return .operation (operationError "query".toList message revisions)

def admitPacket (roots : RegisteredRoots) (request : PacketRequest) : Except ModeFailure Unit := do
  roots.admitRoot request.root
  admitRegisteredRequest request.text

/-- The arm of `packet`. -/
def runPacket (arguments : List OsStr) : CliProgram P CliResult :=
  match readPacket arguments with
  | .error failure => pure (.usage (makePacketError failure.detail))
  | .ok request =>
      match registered.elim (.ok ()) (admitPacket · request) with
      | .error failure => pure (.usage (makePacketError failure.detail))
      | .ok () => do
          let revisions ← sourceRevisions registered [request.root]
          let answer : Except PacketFailure PacketReport ←
            cliCall (.doPacket request.root request.text request.controls)
          match answer with
          | .ok report => return .success (makeEnvelope "packet".toList "ok".toList report.data
              report.warnings report.failures (registeredProvenance report.provenance revisions)
              report.metrics)
          | .error failure => return .operation (makeEnvelope "packet".toList "error".toList
              failure.data [] [failure.detail]
              (registeredProvenance "\x7b\x7d".toList revisions) failure.metrics)

/-- The end of `check`: `do_check` on a root with a policy from a source. -/
def finishCheck (root profile : Str) (policy : P) (source : Str) : CliProgram P CliResult := do
  let revisions ← sourceRevisions registered [root]
  let answer : Except Str CheckReport ← cliCall (.doCheck root profile policy source)
  match answer with
  | .ok report => return ⟨makeEnvelope "check".toList report.status report.data report.warnings
        report.failures (registeredProvenance report.provenance revisions) report.metrics,
      report.exitCode, report.status = "error".toList⟩
  | .error message => return .operation (operationError "check".toList message revisions)

/-- `check` with a policy from the standard input. -/
def checkWithStdin (arguments : List Str) : CliProgram P CliResult :=
  match readPolicyStdin arguments with
  | .error failure => pure (.usage (makeCheckError failure.detail))
  | .ok (root, profile) => do
      let answer : Except Str P ← cliCall .policyFromStdin
      match answer with
      | .error detail => return .usage (makeCheckError detail)
      | .ok policy => finishCheck registered root profile policy "stdin".toList

/-- `check` with the policy of its root. -/
def checkWithFile (root profile : Str) : CliProgram P CliResult := do
  let answer : Except Str P ← cliCall (.loadPolicy root)
  match answer with
  | .error detail => do
      let revisions ← sourceRevisions registered [root]
      return .usage (operationError "check".toList detail revisions)
  | .ok policy => finishCheck registered root profile policy "repository-file".toList

/-- The arm of `check`. -/
def runCheck (arguments : List OsStr) : CliProgram P CliResult :=
  match arguments.mapM fromUtf8 with
  | none => pure (.usage unknownCommandError)
  | some arguments =>
      match readCheck arguments with
      | .error failure => pure (.usage (makeCheckError failure.detail))
      | .ok (.policyStdin rest) =>
          if registered.isSome then pure (.usage (makeCheckError ModeFailure.unavailable.detail))
          else checkWithStdin registered rest
      | .ok (.ofRoot root profile) =>
          match registered.elim (.ok ()) fun roots => roots.admitRoot root with
          | .error failure => pure (.usage (makeCheckError failure.detail))
          | .ok () => checkWithFile registered root profile

def runCommand (command : Str) (arguments : List OsStr) : CliProgram P CliResult :=
  if command = "query".toList then runQuery registered arguments
  else if command = "packet".toList then runPacket registered arguments
  else if command = "check".toList then runCheck registered arguments
  else cliCall (CliCall.other command arguments)

end Commands

def registeredCommands : List Str := ["check".toList, "query".toList, "packet".toList]

def runInner {P : Type} (canonicalDirectory : OsStr → Bool) (arguments : List OsStr)
    (registry : Option OsStr) : CliProgram P CliResult :=
  match arguments with
  | [] => pure (.usage missingCommandError)
  | first :: rest =>
      match fromUtf8 first with
      | none => pure (.usage unknownCommandError)
      | some command =>
          match registry with
          | none => runCommand none command rest
          | some value =>
              match RegisteredRoots.parse canonicalDirectory value with
              | .error failure => pure (.operation (makeRegisteredModeError failure))
              | .ok roots =>
                  if command ∉ registeredCommands then
                    pure (.usage (makeRegisteredModeError .unavailable))
                  else runCommand (some roots) command rest

end Bran.Cli
