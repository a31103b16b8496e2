import Bran.Agent.ResultStore
import Bran.Cli.EvidenceFormat
import Bran.Library.Files

/-!
# Persisting query evidence

A record is added to the store of its first root by reading the store, replacing the record of its
key and renaming a temporary file over the store.  Every call may be refused and the process may stop
in any of them.
-/

namespace Bran.Cli

open Text Validation Files Files.Script List
open Agent (ResultStoreError)

/-! ## Paths -/

/-- `.bran` below a root. -/
def branDirectory (root : Path) : Path := root ++ [".bran".toList]

/-- `POLICY_FILENAME` below a root. -/
def policyFile (root : Path) : Path := branDirectory root ++ ["policy.yaml".toList]

/-- `.bran/cache` below a root. -/
def cacheDirectory (root : Path) : Path := branDirectory root ++ ["cache".toList]

/-- `EVIDENCE_STORE_RELATIVE` below a root. -/
def storeFile (root : Path) : Path := cacheDirectory root ++ ["query-evidence".toList]

/-- `EVIDENCE_STORE_TMP_NAME` below a root. -/
def storeTemp (root : Path) : Path := cacheDirectory root ++ ["query-evidence.tmp".toList]

theorem storeFile_injective : Function.Injective storeFile := by
  intro first second h
  rw [storeFile, storeFile, cacheDirectory, cacheDirectory, branDirectory, branDirectory] at h
  exact append_cancel_right (append_cancel_right (append_cancel_right h))

theorem storeFile_ne_storeTemp (root other : Path) : storeFile root ≠ storeTemp other := by
  intro h
  have hlast := congrArg List.getLast? h
  rw [storeFile, storeTemp, getLast?_concat, getLast?_concat] at hlast
  exact absurd (Option.some.inj hlast) (by decide)

theorem storeFile_ne_cacheDirectory (root other : Path) : storeFile root ≠ cacheDirectory other := by
  intro h
  have hlast := congrArg List.getLast? h
  rw [storeFile, getLast?_concat, cacheDirectory, getLast?_concat] at hlast
  exact absurd (Option.some.inj hlast) (by decide)

/-! ## Reading the store -/

/-- What a script makes of the metadata of a path. -/
def metadataOf {α ε : Type} (path : Path) (check : Except Error Files.Entry → Except ε α) :
    Script (Except ε α) := do
  return check (← symlinkMetadata path)

/-- The check of `.bran`. -/
def asBranDirectory : Except Error Files.Entry → Except EvidenceError Unit
  | .ok .directory => .ok ()
  | .ok _ => .error .unsafe_
  | .error _ => .error .unavailable

def asPolicy : Except Error Files.Entry → Except EvidenceError Unit
  | .ok (.file _) => .ok ()
  | .ok _ => .error .unsafe_
  | .error _ => .error .unavailable

/-- The check of the cache directory, which may be absent. -/
def asCache : Except Error Files.Entry → Except EvidenceError Unit
  | .ok .directory => .ok ()
  | .ok _ => .error .unsafe_
  | .error error => if error.kind = .notFound then .ok () else .error .unavailable

/-- `inspect_evidence_file`: whether there is a store. -/
def inspectEvidenceFile : Except Error Files.Entry → Except EvidenceError Bool
  | .error error => if error.kind = .notFound then .ok false else .error .unavailable
  | .ok (.file bytes) => if bytes.length > maxEvidenceFileBytes then .error .oversized else .ok true
  | .ok _ => .error .unsafe_

/-- The checks of `read_regular_bounded` before it opens the file. -/
def asBounded (limit : ℕ) : Except Error Files.Entry → Except ResultStoreError Unit
  | .error error => .error (if error.kind = .notFound then .notFound else .unavailable)
  | .ok (.file bytes) => if bytes.length > limit then .error .corrupt else .ok ()
  | .ok _ => .error .corrupt

/-- The checks of `read_regular_bounded` behind its reading. -/
def asContents (limit : ℕ) : Except Error (List UInt8) → Except ResultStoreError (List UInt8)
  | .error _ => .error .unavailable
  | .ok bytes => if bytes = [] ∨ bytes.length > limit then .error .corrupt else .ok bytes

def readRegularBounded (path : Path) (limit : ℕ) : Script (Except ResultStoreError (List UInt8)) :=
  (metadataOf path (asBounded limit)).andThen fun _ => do
    return asContents limit (← read path)

/-- The errors of reading as `load_evidence_records` reports them. -/
def loadError : ResultStoreError → EvidenceError
  | .notFound => .unavailable
  | .corrupt => .corrupt
  | .itemTooLarge => .oversized
  | _ => .unavailable

section Persist

variable (locate : Str → Path)

/-- `evidence_store_path`: the checks of the path itself hold of every path that is built here. -/
def evidenceStorePath (root : Str) : Script (Except EvidenceError Path) :=
  if ['.', '.'] ∈ root.splitOn '/' then return .error .unsafe_
  else
    (metadataOf (branDirectory (locate root)) asBranDirectory).andThen fun _ =>
    (metadataOf (policyFile (locate root)) asPolicy).andThen fun _ =>
    (metadataOf (cacheDirectory (locate root)) asCache).andThen fun _ =>
    return .ok (storeFile (locate root))

def loadEvidenceRecords (root : Str) : Script (Except EvidenceError (List QueryEvidenceRecord)) :=
  (evidenceStorePath locate root).andThen fun path =>
  (metadataOf path inspectEvidenceFile).andThen fun found =>
  if found = false then return .ok []
  else do
    match ← readRegularBounded path maxEvidenceFileBytes with
    | .error error => return .error (loadError error)
    | .ok bytes => return parseEvidenceStore bytes

/-! ## Writing the store -/

def checkedDirectory (path : Path) : Script (Except ResultStoreError Unit) := do
  match ← symlinkMetadata path with
  | .ok .directory => return .ok ()
  | .ok _ => return .error .corrupt
  | .error error =>
      if error.kind = .notFound then
        match ← createDir path with
        | .ok () => return .ok ()
        | .error _ => return .error .unavailable
      else return .error .unavailable

/-- The errors of the directory as `write_evidence_records` reports them. -/
def directoryError : ResultStoreError → EvidenceError
  | .corrupt => .unsafe_
  | _ => .writeFailed

def writePrivateFile (path : Path) (bytes : List UInt8) : Script (Except ResultStoreError Unit) := do
  match ← (createNew path).andThen fun _ => (writeAll path bytes).andThen fun _ => syncAll with
  | .ok () => return .ok ()
  | .error _ => return .error .unavailable

/-- The errors of the file as `write_evidence_records` reports them. -/
def fileError : ResultStoreError → EvidenceError
  | .corrupt => .corrupt
  | _ => .writeFailed

/-- A temporary file that was left behind is removed. -/
def clearTemporary (path : Path) : Script (Except EvidenceError Unit) := do
  match ← symlinkMetadata path with
  | .error error =>
      if error.kind = .notFound then return .ok () else return .error .unavailable
  | .ok (.file _) =>
      match ← removeFile path with
      | .ok () => return .ok ()
      | .error _ => return .error .writeFailed
  | .ok _ => return .error .unsafe_

/-- The temporary file, renamed over the store; what is left of it is removed on a failure. -/
def publishStore (temp store : Path) (encoded : List UInt8) : Script (Except EvidenceError Unit) := do
  match ← writePrivateFile temp encoded with
  | .error error =>
      let _ ← removeFile temp
      return .error (fileError error)
  | .ok () =>
      match ← rename temp store with
      | .error _ =>
          let _ ← removeFile temp
          return .error .writeFailed
      | .ok () => return .ok ()

/-- The check of the store before it is written. -/
def asWritable (found : Except Error Files.Entry) : Except EvidenceError Unit :=
  match inspectEvidenceFile found with
  | .ok _ => .ok ()
  | .error _ => .error .unsafe_

def writeEvidenceRecords (root : Str) (records : List QueryEvidenceRecord) :
    Script (Except EvidenceError Unit) :=
  (evidenceStorePath locate root).andThen fun store =>
  (metadataOf store asWritable).andThen fun _ =>
  (do return (← checkedDirectory (cacheDirectory (locate root))).mapError directoryError).andThen
    fun _ =>
  (pure (encodeEvidenceStore records) : Script _).andThen fun encoded =>
  (clearTemporary (storeTemp (locate root))).andThen fun _ =>
  publishStore (storeTemp (locate root)) store encoded

/-- The order of the records. -/
def QueryEvidenceRecord.key (record : QueryEvidenceRecord) : Str ×ₗ List Str :=
  toLex (record.request, record.requestedRoots)

def withoutKey (records : List QueryEvidenceRecord) (record : QueryEvidenceRecord) :
    List QueryEvidenceRecord :=
  records.filter fun existing =>
    existing.request ≠ record.request || existing.requestedRoots ≠ record.requestedRoots

/-- The records with one in the place of that of its key. -/
def upserted (records : List QueryEvidenceRecord) (record : QueryEvidenceRecord) :
    List QueryEvidenceRecord :=
  sortBy QueryEvidenceRecord.key (withoutKey records record ++ [record])

def persistQueryEvidence (record : QueryEvidenceRecord) : Script (Except EvidenceError Unit) :=
  match record.requestedRoots with
  | [] => return .error .unavailable
  | primary :: _ =>
      if record.Oversized then return .error .oversized
      else
        (loadEvidenceRecords locate primary).andThen fun records =>
        if (withoutKey records record).length ≥ maxEvidenceRecords then return .error .full
        else writeEvidenceRecords locate primary (upserted records record)

end Persist

end Bran.Cli
