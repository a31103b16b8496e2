import Bran.Agent.Receipt
import Bran.Agent.ResultStore
import Bran.Library.Files
import Bran.Library.Program

/-!
# The ports of the coordinator

Everything the coordinator asks of others: the stores and ports it is given, and the file system it
verifies support in.  A call may be answered by any value of its answer type, which holds what the
constructors of the source let through.
-/

namespace Bran.Agent

open Text Adapters Packet

/-! ## The SQZ stages -/

inductive SqzStage where
  | input
  | output
  deriving DecidableEq

structure AgentSqzOutput where
  payload : Str
  receipt : SqzReceipt
  valid : isBlank payload = false ∧ byteLen payload ≤ 1048576
  deriving DecidableEq

inductive AgentSqzFailureCode where
  | inputFailed
  | outputFailed
  | invalidOutput
  deriving DecidableEq

structure AgentSqzError where
  code : AgentSqzFailureCode
  receipt : Option SqzReceipt
  deriving DecidableEq

/-! ## Files -/

/-- `fs::FileType`. -/
inductive FileType where
  | file
  | directory
  | symlink
  | other
  deriving DecidableEq

/-- `fs::Metadata`, as far as it is read. -/
structure Metadata where
  fileType : FileType
  len : ℕ
  dev : ℕ
  ino : ℕ
  mtime : ℤ
  mtimeNsec : ℤ
  deriving DecidableEq

/-! ## Calls -/

/-- A call of the coordinator; `K` is the type of the credentials. -/
inductive AgentCall (K : Type) where
  /-- The factory of the ports. -/
  | ports
  /-- `AuthStore::resolve`. -/
  | resolve (accountHandle : Str)
  /-- `AgentSqzPort::evaluate_with_anchors`. -/
  | evaluateWithAnchors (stage : SqzStage) (payload : Str) (maxOutputBytes : ℕ)
      (preservationAnchors : List PreservationAnchor)
  /-- `AgentSqzPort::evaluate`. -/
  | evaluate (stage : SqzStage) (payload : Str) (maxOutputBytes : ℕ)
  /-- `ProviderPort::invoke`. -/
  | provider (request : ProviderRequest) (credential : K)
  /-- `ResultStore::limits`. -/
  | limits
  /-- `ResultStore::put_batch`. -/
  | putBatch (payloads : List (List UInt8)) (nowTick : ℕ)
  /-- `ResultStore::get`. -/
  | get (id : ResultId) (nowTick : ℕ)
  /-- `fs::symlink_metadata`. -/
  | symlinkMetadata (path : Files.Path)
  /-- `fs::canonicalize`. -/
  | canonicalize (path : Files.Path)
  /-- `File::open` and the metadata of what was opened. -/
  | openFile (path : Files.Path)
  /-- `read_to_end` of the opened file. -/
  | readToEnd (path : Files.Path)
  /-- `fs::metadata`. -/
  | metadata (path : Files.Path)

def AgentCall.Answer {K : Type} : AgentCall K → Type
  | .ports => Unit
  | .resolve _ => Except AuthError K
  | .evaluateWithAnchors _ _ _ _ | .evaluate _ _ _ => Except AgentSqzError AgentSqzOutput
  | .provider _ _ => Except ProviderError ProviderOutput
  | .limits => ResultStoreLimits
  | .putBatch _ _ => Except ResultStoreError (List ResultId)
  | .get _ _ => Except ResultStoreError (List UInt8)
  | .symlinkMetadata _ | .openFile _ | .metadata _ => Option Metadata
  | .canonicalize _ => Option Files.Path
  | .readToEnd _ => Option (List UInt8)

/-- A program over the ports. -/
abbrev Coordination (K ε α : Type) := Program (AgentCall K) AgentCall.Answer ε α

/-- A call of the coordinator with its answer. -/
abbrev AgentEvent (K : Type) := Program.Event (AgentCall K) AgentCall.Answer

namespace AgentCall

variable {K ε : Type}

def makePorts : Coordination K ε Unit := Program.call (A := AgentCall K) .ports

def askAccount (accountHandle : Str) : Coordination K ε (Except AuthError K) :=
  Program.call (A := AgentCall K) (.resolve accountHandle)

/-- A call of the SQZ port for the input. -/
def askSqzWithAnchors (stage : SqzStage) (payload : Str) (maxOutputBytes : ℕ)
    (anchors : List PreservationAnchor) :
    Coordination K ε (Except AgentSqzError AgentSqzOutput) :=
  Program.call (A := AgentCall K) (.evaluateWithAnchors stage payload maxOutputBytes anchors)

def askSqz (stage : SqzStage) (payload : Str) (maxOutputBytes : ℕ) :
    Coordination K ε (Except AgentSqzError AgentSqzOutput) :=
  Program.call (A := AgentCall K) (.evaluate stage payload maxOutputBytes)

def askProvider (request : ProviderRequest) (credential : K) :
    Coordination K ε (Except ProviderError ProviderOutput) :=
  Program.call (A := AgentCall K) (.provider request credential)

def askLimits : Coordination K ε ResultStoreLimits := Program.call (A := AgentCall K) .limits

def askPutBatch (payloads : List (List UInt8)) (nowTick : ℕ) :
    Coordination K ε (Except ResultStoreError (List ResultId)) :=
  Program.call (A := AgentCall K) (.putBatch payloads nowTick)

/-- A call that reads a result. -/
def askGet (id : ResultId) (nowTick : ℕ) : Coordination K ε (Except ResultStoreError (List UInt8)) :=
  Program.call (A := AgentCall K) (.get id nowTick)

/-- A call of `fs::symlink_metadata`. -/
def askSymlinkMetadata (path : Files.Path) : Coordination K ε (Option Metadata) :=
  Program.call (A := AgentCall K) (.symlinkMetadata path)

/-- A call of `fs::canonicalize`. -/
def askCanonicalize (path : Files.Path) : Coordination K ε (Option Files.Path) :=
  Program.call (A := AgentCall K) (.canonicalize path)

def askOpenFile (path : Files.Path) : Coordination K ε (Option Metadata) :=
  Program.call (A := AgentCall K) (.openFile path)

def askReadToEnd (path : Files.Path) : Coordination K ε (Option (List UInt8)) :=
  Program.call (A := AgentCall K) (.readToEnd path)

/-- A call of `fs::metadata`. -/
def askMetadata (path : Files.Path) : Coordination K ε (Option Metadata) :=
  Program.call (A := AgentCall K) (.metadata path)

end AgentCall

end Bran.Agent
