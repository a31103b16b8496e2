import Bran.Library.Files
import Bran.Database.Descriptor

/-!
# The state store

`FileStateStore` of `database/state.rs`: content-addressed objects in one namespace below a state
root.  An object is written to a staging file, which is renamed to its final name; opening the
store checks every path before it writes and removes the staging files that an interrupted write
has left.  Each operation is a script over the file system, so that any of its calls may be
refused and the process may stop in any of them.
-/

namespace Bran.Database

open Files Files.Script Agent

/-! ## Failures -/

inductive StateStoreError
  | unavailable
  | corrupt
  | migrationFailed
  | quotaExceeded
  | notFound
  | emptyInput
  | unconfined
  | io (kind : ErrorKind)
  deriving DecidableEq

/-- `StateStoreError::from` of an I/O error. -/
def ofIo {α : Type} : Except Error α → Except StateStoreError α
  | .ok answer => .ok answer
  | .error error => .error (.io error.kind)

/-- A call whose error is passed on by `?`. -/
def translated {α : Type} (script : Script (Except Error α)) :
    Script (Except StateStoreError α) := do
  return ofIo (← script)

def stateLayoutVersion : Str := "1".toList

/-! ## Inspecting paths -/

/-- The cases of the answer in `entry`. -/
def existing : Except Error Files.Entry → Except StateStoreError (Option Files.Entry)
  | .ok entry => .ok (some entry)
  | .error error => if error.kind = .notFound then .ok none else .error (.io error.kind)

/-- `entry`: what stands at a path, never following a link. -/
def entry (path : Path) : Script (Except StateStoreError (Option Files.Entry)) := do
  return existing (← symlinkMetadata path)

/-- Whether an entry is a real directory; any other entry is refused. -/
def asDirectory : Option Files.Entry → Except StateStoreError Bool
  | none => .ok false
  | some .directory => .ok true
  | some _ => .error .unconfined

def realDir (path : Path) : Script (Except StateStoreError Bool) :=
  (entry path).andThen fun found => return asDirectory found

/-- The length of an entry that is a regular file; any other entry is refused. -/
def asRegularFile : Option Files.Entry → Except StateStoreError (Option ℕ)
  | none => .ok none
  | some (.file bytes) => .ok (some bytes.length)
  | some _ => .error .unconfined

def regularFile (path : Path) : Script (Except StateStoreError (Option ℕ)) :=
  (entry path).andThen fun found => return asRegularFile found

/-- The loop of `regular_files`: an entry that has gone is refused. -/
def fileLengths : List Path → Script (Except StateStoreError (List (Path × ℕ)))
  | [] => return .ok []
  | path :: rest => (regularFile path).andThen fun
      | none => return .error .unconfined
      | some length => (fileLengths rest).andThen fun files => return .ok ((path, length) :: files)

def regularFiles (dir : Path) : Script (Except StateStoreError (List (Path × ℕ))) :=
  (translated (readDir dir)).andThen fileLengths

/-- The sum of 64-bit lengths; one that does not fit ends the process. -/
def sumLengths (files : List (Path × ℕ)) : Script ℕ :=
  if (files.map Prod.snd).sum < 2 ^ 64 then pure (files.map Prod.snd).sum else stop

/-! ## Opening -/

structure FileStateStore where
  dir : Path
  quota : ℕ
  used : ℕ
  recoveredPartialWrites : ℕ
  nextTemp : ℕ
  deriving DecidableEq

def versionFile (dir : Path) : Path := dir ++ ["VERSION".toList]

def objectsDir (dir : Path) : Path := dir ++ ["objects".toList]

def stagingDir (dir : Path) : Path := dir ++ ["tmp".toList]

/-- The segments below the state root. -/
def segments (descriptor : StateStoreDescriptor) : List Str :=
  descriptor.location.splitOn '/' ++ [descriptor.namespaceName]

/-- `dir` of `FileStateStore::open`. -/
def storeDir (descriptor : StateStoreDescriptor) (stateRoot : Path) : Path :=
  stateRoot ++ segments descriptor

/-- `components[1..]`: every directory below the root down to the last segment. -/
def componentsBelow (stateRoot : Path) : List Str → List Path
  | [] => []
  | segment :: rest => (stateRoot ++ [segment]) :: componentsBelow (stateRoot ++ [segment]) rest

/-- Whether every component is a real directory; nothing is looked at below an absent one. -/
def allPresent : List Path → Script (Except StateStoreError Bool)
  | [] => return .ok true
  | component :: rest => (realDir component).andThen fun present =>
      if present then allPresent rest else return .ok false

/-- The check of the bytes of `VERSION`. -/
def checkVersion (bytes : List UInt8) : Except StateStoreError Unit :=
  match (Text.fromUtf8 bytes).bind (Text.stripEnd ['\n']) with
  | none => .error .corrupt
  | some found =>
      if found = [] ∨ !found.all Char.isDigit then .error .corrupt
      else if found ≠ stateLayoutVersion then .error .migrationFailed
      else .ok ()

/-- The layout of a present directory: its version, or no entry at all. -/
def checkLayout (dir : Path) (present : Bool) :
    Option ℕ → Script (Except StateStoreError Unit)
  | some _ => (translated (read (versionFile dir))).andThen fun bytes => return checkVersion bytes
  | none =>
      if present then (translated (readDir dir)).andThen fun children =>
        return if children ≠ [] then .error .corrupt else .ok ()
      else return .ok ()

/-- What `open` has seen before it writes. -/
structure Inspection where
  version : Option ℕ
  objectsPresent : Bool
  stagingPresent : Bool
  staged : List (Path × ℕ)
  stored : List (Path × ℕ)

/-- The part of `open` that only looks. -/
def inspect (components : List Path) (dir : Path) : Script (Except StateStoreError Inspection) :=
  (allPresent components).andThen fun present =>
  (if present then regularFile (versionFile dir) else return .ok none).andThen fun version =>
  (checkLayout dir present version).andThen fun _ =>
  (if present then realDir (objectsDir dir) else return .ok false).andThen fun objectsPresent =>
  (if present then realDir (stagingDir dir) else return .ok false).andThen fun stagingPresent =>
  (if stagingPresent then regularFiles (stagingDir dir) else return .ok []).andThen fun staged =>
  (if objectsPresent then regularFiles (objectsDir dir) else return .ok []).andThen fun stored =>
  return .ok ⟨version, objectsPresent, stagingPresent, staged, stored⟩

/-- `Path::is_dir`: no error is told from an absent path. -/
def isDir (path : Path) : Script Bool := do
  return (← symlinkMetadata path).toOption = some .directory

/-- A directory made unless there is one. -/
def createDirOrFound (path : Path) : Script (Except Error Unit) := do
  match ← createDir path with
  | .ok () => return .ok ()
  | .error error => return if ← isDir path then .ok () else .error error

/-- `fs::create_dir_all` of the path whose names, from the last to the first, are given. -/
def createDirAll : List Str → Script (Except Error Unit)
  | [] => return .ok ()
  | name :: above => do
      let path := (name :: above).reverse
      match ← createDir path with
      | .ok () => return .ok ()
      | .error error =>
          if error.kind = .notFound then
            (createDirAll above).andThen fun _ => createDirOrFound path
          else return if ← isDir path then .ok () else .error error

/-- The loop that makes the absent components. -/
def createMissing : List Path → Script (Except StateStoreError Unit)
  | [] => return .ok ()
  | component :: rest => (realDir component).andThen fun present =>
      (if present then return .ok () else translated (createDir component)).andThen fun _ =>
      createMissing rest

/-- `fs::write` of the layout version. -/
def writeVersion (dir : Path) : Script (Except Error Unit) :=
  (createFile (versionFile dir)).andThen fun _ =>
  writeAll (versionFile dir) (Text.bytes (stateLayoutVersion ++ ['\n']))

/-- A directory made when it was absent. -/
def createUnless (present : Bool) (path : Path) : Script (Except StateStoreError Unit) :=
  if present then return .ok () else translated (createDir path)

def removeStaged : List (Path × ℕ) → Script (Except StateStoreError Unit)
  | [] => return .ok ()
  | (path, _) :: rest => (translated (removeFile path)).andThen fun _ => removeStaged rest

/-- The part of `open` that writes. -/
def prepare (stateRoot : Path) (components : List Path) (dir : Path) (found : Inspection) :
    Script (Except StateStoreError Unit) :=
  (translated (createDirAll stateRoot.reverse)).andThen fun _ =>
  (createMissing components).andThen fun _ =>
  (if found.version = none then translated (writeVersion dir) else return .ok ()).andThen fun _ =>
  (createUnless found.objectsPresent (objectsDir dir)).andThen fun _ =>
  (createUnless found.stagingPresent (stagingDir dir)).andThen fun _ =>
  removeStaged found.staged

/-- `FileStateStore::open`. -/
def openStore (descriptor : StateStoreDescriptor) (stateRoot : Path) :
    Script (Except StateStoreError FileStateStore) :=
  if descriptor.backend ≠ .file ∨ descriptor.encryptionKey.isSome then return .error .unavailable
  else
    let components := componentsBelow stateRoot (segments descriptor)
    let dir := storeDir descriptor stateRoot
    (inspect components dir).andThen fun found =>
    (prepare stateRoot components dir found).andThen fun _ => do
      let used ← sumLengths found.stored
      return .ok ⟨dir, descriptor.quotaBytes, used, found.staged.length, 0⟩

namespace FileStateStore

/-! ## Objects -/

def object (store : FileStateStore) (id : ResultId) : Path := objectsDir store.dir ++ [id.value]

/-- The staging file of the next write. -/
def temp (store : FileStateStore) (id : ResultId) : Path :=
  stagingDir store.dir ++ [id.value ++ ['.'] ++ Text.decimal store.nextTemp]

def get (store : FileStateStore) (id : ResultId) : Script (Except StateStoreError (List UInt8)) :=
  (regularFile (store.object id)).andThen fun
    | none => return .error .notFound
    | some _ => (translated (read (store.object id))).andThen fun bytes =>
        return if ResultId.sha256 bytes ≠ id then .error .corrupt else .ok bytes

/-- The identifier that the name of an object file spells. -/
def identifier (path : Path) : Option ResultId :=
  path.getLast?.bind fun hex => ResultId.parse ("sha256:".toList ++ hex)

/-- The loop of `verify`. -/
def verifyAll (store : FileStateStore) : List (Path × ℕ) → Script (Except StateStoreError Unit)
  | [] => return .ok ()
  | (path, _) :: rest =>
      match identifier path with
      | none => return .error .corrupt
      | some id => (store.get id).andThen fun _ => store.verifyAll rest

def verify (store : FileStateStore) : Script (Except StateStoreError ℕ) :=
  (regularFiles (objectsDir store.dir)).andThen fun objects =>
  (store.verifyAll objects).andThen fun _ => return .ok objects.length

/-! ## Putting -/

/-- Whether the object of these bytes is stored and intact. -/
def holds (path : Path) (bytes : List UInt8) : Option ℕ → Script (Except StateStoreError Bool)
  | none => return .ok false
  | some _ => (translated (read path)).andThen fun stored => return .ok (stored = bytes)

/-- The usage before the write: recounted when a damaged object is replaced. -/
def usage (store : FileStateStore) : Option ℕ → Script (Except StateStoreError ℕ)
  | none => return .ok store.used
  | some _ => (regularFiles (objectsDir store.dir)).andThen fun files => do
      let used ← sumLengths files
      return .ok used

/-- The usage after the write, unless it is past the quota. -/
def admitted (store : FileStateStore) (used : ℕ) (replacing : Option ℕ) (bytes : List UInt8) :
    Except StateStoreError ℕ :=
  let total := used - replacing.getD 0 + bytes.length
  if total < 2 ^ 64 ∧ total ≤ store.quota then .ok total else .error .quotaExceeded

/-- What `put` decides before it writes: nothing for an intact object, else the new usage. -/
def plan (store : FileStateStore) (bytes : List UInt8) :
    Script (Except StateStoreError (Option ℕ)) :=
  if bytes = [] then return .error .emptyInput
  else
    let path := store.object (ResultId.sha256 bytes)
    (regularFile path).andThen fun found =>
    (holds path bytes found).andThen fun intact =>
    if intact then return .ok none
    else (store.usage found).andThen fun used =>
      return (store.admitted used found bytes).map some

/-- The staging file, filled and renamed to its final name. -/
def publish (temp path : Path) (bytes : List UInt8) : Script (Except Error Unit) :=
  (createNew temp).andThen fun _ =>
  (writeAll temp bytes).andThen fun _ =>
  syncAll.andThen fun _ =>
  rename temp path

/-- `FileStateStore::put`, with the store it leaves. -/
def put (store : FileStateStore) (bytes : List UInt8) :
    Script (Except StateStoreError ResultId × FileStateStore) := do
  let id := ResultId.sha256 bytes
  match ← store.plan bytes with
  | .error error => return (.error error, store)
  | .ok none => return (.ok id, store)
  | .ok (some total) =>
      let next := { store with nextTemp := store.nextTemp + 1 }
      match ← publish (store.temp id) (store.object id) bytes with
      | .ok () => return (.ok id, { next with used := total })
      | .error error =>
          let _ ← removeFile (store.temp id)
          return (.error (.io error.kind), next)

def usedBytes (store : FileStateStore) : ℕ := store.used

end FileStateStore

end Bran.Database
