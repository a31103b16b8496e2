import Bran.Document.Intake
import Bran.Library.Text
import Mathlib.Data.Prod.Lex

/-!
# ZIP packages

The bounded reader and the deterministic writer of `zip.rs`.  Offsets and lengths are words whose
sums and differences can panic, as in the source; `flate2` and `crc32fast` are a `Codec`.
-/

namespace Bran.Document.Zip

open Words Validation Text

/-! ## Third-party code -/

/-- What a call of `Decompress::decompress_vec` has done. -/
structure Decompressed (S : Type) where
  streamEnd : Bool
  consumed : ℕ
  produced : List UInt8
  next : S

/-- The compression and the checksum that the package format uses. -/
structure Codec where
  S : Type
  start : S
  decompress : S → List UInt8 → Option (Decompressed S)
  compress : List UInt8 → List UInt8
  crc32 : List UInt8 → UInt32
  consumed_le : ∀ state input step, decompress state input = some step →
    step.consumed ≤ input.length

/-- The loop of `inflate_counted` from a state with the rest of the input and the output so far. -/
def inflateFrom (codec : Codec) (size : ℕ) (state : codec.S) (rest data : List UInt8) :
    Except Refusal (List UInt8) :=
  match h : codec.decompress state rest with
  | none => .error .malformedContainer
  | some step =>
      if step.streamEnd then
        if rest.drop step.consumed = [] ∧ (data ++ step.produced).length = size then
          .ok (data ++ step.produced)
        else .error .malformedContainer
      else if hsize : size < (data ++ step.produced).length then .error .malformedContainer
      -- no progress without a stream end: the stream is truncated
      else if hprogress : step.consumed = 0 ∧ step.produced = [] then .error .malformedContainer
      else inflateFrom codec size step.next (rest.drop step.consumed) (data ++ step.produced)
termination_by rest.length + (size - data.length)
decreasing_by
  have hconsumed := codec.consumed_le state rest step h
  rw [List.length_append] at hsize
  rw [List.length_drop, List.length_append]
  by_cases hnone : step.produced = []
  · have hne : step.consumed ≠ 0 := fun hzero => hprogress ⟨hzero, hnone⟩
    omega
  · have hpos : 0 < step.produced.length := List.length_pos_iff.mpr hnone
    omega

def inflate (codec : Codec) (raw : List UInt8) (size : ℕ) : Except Refusal (List UInt8) :=
  inflateFrom codec size codec.start raw []

/-! ## Fields -/

/-- `LOCAL`. -/
def localSignature : ℕ := 0x04034b50

/-- `CENTRAL`. -/
def centralSignature : ℕ := 0x02014b50

/-- `END`. -/
def endSignature : ℕ := 0x06054b50

def zip64Locator : ℕ := 0x07064b50

def compoundFile : List UInt8 := [0xD0, 0xCF, 0x11, 0xE0, 0xA1, 0xB1, 0x1A, 0xE1]

/-- `u16_at` and `u32_at`, for a field of any width. -/
def fieldAt (width : ℕ) (bytes : List UInt8) (offset : ℕ) : Checked Refusal ℕ := do
  let stop ← checkedAdd offset width (.refused .malformedContainer)
  match rangeOf bytes offset stop with
  | some field => .ok (fromLittleEndian field)
  | none => .error (.refused .malformedContainer)

def u16At (bytes : List UInt8) (offset : ℕ) : Checked Refusal ℕ := fieldAt 2 bytes offset

def u32At (bytes : List UInt8) (offset : ℕ) : Checked Refusal ℕ := fieldAt 4 bytes offset

/-- `u16_at(bytes, base + index)`. -/
def u16From (bytes : List UInt8) (base index : ℕ) : Checked Refusal ℕ := do
  let offset ← addWord base index
  u16At bytes offset

/-- `u32_at(bytes, base + index)`. -/
def u32From (bytes : List UInt8) (base index : ℕ) : Checked Refusal ℕ := do
  let offset ← addWord base index
  u32At bytes offset

def slice (bytes : List UInt8) (offset length : ℕ) : Checked Refusal (List UInt8) := do
  let stop ← checkedAdd offset length (.refused .malformedContainer)
  match rangeOf bytes offset stop with
  | some field => .ok field
  | none => .error (.refused .malformedContainer)

/-! ## The end record -/

def isEndRecord (bytes : List UInt8) (offset : ℕ) : Checked Refusal Bool :=
  if u32At bytes offset = .ok endSignature then do
    let field ← addWord offset 20
    match u16At bytes field with
    | .ok comment => do
        let header ← addWord offset 22
        let stop ← addWord header comment
        .ok (stop == bytes.length)
    | .error _ => .ok false
  else .ok false

/-- `find` over candidate offsets. -/
def findEndRecord (bytes : List UInt8) : List ℕ → Checked Refusal ℕ
  | [] => .error (.refused .malformedContainer)
  | offset :: rest => do
      let found ← isEndRecord bytes offset
      if found then .ok offset else findEndRecord bytes rest

/-- The last 22 bytes and a comment of any length. -/
def endCandidates (bytes : List UInt8) : List ℕ :=
  (List.range (bytes.length - 21)).reverse.take (22 + 0xFFFF)

structure EndRecord where
  total : ℕ
  cdOffset : ℕ
  cdEnd : ℕ
  deriving DecidableEq

/-- `read` from the end record to the central directory. -/
def readEndRecord (bytes : List UInt8) (limits : Limits) (found : ℕ) :
    Checked Refusal EndRecord := do
  failIf (20 ≤ found ∧ u32At bytes (found - 20) = .ok zip64Locator) (.refused .unsupportedContainer)
  let disk ← u16From bytes found 4
  let cdDisk ← u16From bytes found 6
  let here ← u16From bytes found 8
  let total ← u16From bytes found 10
  let cdSize ← u32From bytes found 12
  let cdOffset ← u32From bytes found 16
  failIf (total = 0xFFFF ∨ cdSize = 2 ^ 32 - 1 ∨ cdOffset = 2 ^ 32 - 1)
    (.refused .unsupportedContainer)
  failIf (disk ≠ 0 ∨ cdDisk ≠ 0 ∨ here ≠ total) (.refused .unsupportedContainer)
  failIf (total > limits.maxParts) (.refused .tooManyParts)
  let cdEnd ← addWord cdOffset cdSize
  failIf (cdEnd ≠ found) (.refused .malformedContainer)
  .ok ⟨total, cdOffset, cdEnd⟩

/-! ## The central directory -/

structure Central where
  name : Str
  flags : ℕ
  method : ℕ
  crc : ℕ
  compressed : ℕ
  size : ℕ
  localOffset : ℕ
  deriving DecidableEq

/-- `String::from_utf8` of a name. -/
def nameOf (field : List UInt8) : Checked Refusal Str :=
  match fromUtf8 field with
  | some name => .ok name
  | none => .error (.refused .unsafePartPath)

/-- One record of the central directory, with the offset of the next. -/
def readCentral (bytes : List UInt8) (offset : ℕ) : Checked Refusal (Central × ℕ) := do
  let signature ← u32At bytes offset
  failIf (signature ≠ centralSignature) (.refused .malformedContainer)
  let nameLen ← u16From bytes offset 28
  let extraLen ← u16From bytes offset 30
  let commentLen ← u16From bytes offset 32
  let nameOffset ← addWord offset 46
  let field ← slice bytes nameOffset nameLen
  let name ← nameOf field
  let compressed ← u32From bytes offset 20
  let size ← u32From bytes offset 24
  let localOffset ← u32From bytes offset 42
  failIf (compressed = 2 ^ 32 - 1 ∨ size = 2 ^ 32 - 1 ∨ localOffset = 2 ^ 32 - 1)
    (.refused .unsupportedContainer)
  let disk ← u16From bytes offset 34
  failIf (disk ≠ 0) (.refused .unsupportedContainer)
  let flags ← u16From bytes offset 8
  let method ← u16From bytes offset 10
  let crc ← u32From bytes offset 16
  let step ← addWord 46 nameLen
  let step ← addWord step extraLen
  let step ← addWord step commentLen
  let next ← addWord offset step
  .ok (⟨name, flags, method, crc, compressed, size, localOffset⟩, next)

/-- The loop over the central directory. -/
def readCentrals (bytes : List UInt8) : ℕ → ℕ → Checked Refusal (List Central × ℕ)
  | 0, offset => .ok ([], offset)
  | count + 1, offset => do
      let (record, next) ← readCentral bytes offset
      let (records, stop) ← readCentrals bytes count next
      .ok (record :: records, stop)

/-! ## Local headers -/

def encryptedFlags (flags : ℕ) : Prop := flags &&& 0x0041 ≠ 0

instance (flags : ℕ) : Decidable (encryptedFlags flags) :=
  inferInstanceAs (Decidable (flags &&& 0x0041 ≠ 0))

/-- The check of the local CRC and sizes, which a data descriptor replaces. -/
def checkDescriptor (bytes : List UInt8) (record : Central) : Checked Refusal Unit :=
  if record.flags &&& 0x0008 = 0 then do
    let crc ← u32From bytes record.localOffset 14
    failIf (crc ≠ record.crc) (.refused .malformedContainer)
    let compressed ← u32From bytes record.localOffset 18
    failIf (compressed ≠ record.compressed) (.refused .malformedContainer)
    let size ← u32From bytes record.localOffset 22
    failIf (size ≠ record.size) (.refused .malformedContainer)
  else .ok ()

/-- `local + 30 + name_len + extra_len`. -/
def dataOffset (record : Central) (nameLen extraLen : ℕ) : Checked Refusal ℕ := do
  let data ← addWord record.localOffset 30
  let data ← addWord data nameLen
  addWord data extraLen

/-- The check of one record against its local header; it answers with the range of the entry. -/
def checkRecord (bytes : List UInt8) (cdOffset : ℕ) (record : Central) :
    Checked Refusal (ℕ × ℕ) := do
  failIf (encryptedFlags record.flags) (.refused .encrypted)
  failIf (record.method ≠ 0 ∧ record.method ≠ 8) (.refused .unsupportedContainer)
  let signature ← u32At bytes record.localOffset
  failIf (signature ≠ localSignature) (.refused .malformedContainer)
  let localFlags ← u16From bytes record.localOffset 6
  failIf (encryptedFlags localFlags) (.refused .encrypted)
  let method ← u16From bytes record.localOffset 8
  failIf (method ≠ record.method ∨ (localFlags ^^^ record.flags) &&& 0x0008 ≠ 0)
    (.refused .malformedContainer)
  checkDescriptor bytes record
  let nameLen ← u16From bytes record.localOffset 26
  let extraLen ← u16From bytes record.localOffset 28
  let nameOffset ← addWord record.localOffset 30
  let name ← slice bytes nameOffset nameLen
  failIf (name ≠ Text.bytes record.name) (.refused .malformedContainer)
  let data ← dataOffset record nameLen extraLen
  let dataEnd ← checkedAdd data record.compressed (.refused .malformedContainer)
  failIf (dataEnd > cdOffset) (.refused .malformedContainer)
  .ok (record.localOffset, dataEnd)

/-- The loop over the records. -/
def checkRecords (bytes : List UInt8) (cdOffset : ℕ) :
    List Central → List Str → Checked Refusal (List (ℕ × ℕ))
  | [], _ => .ok []
  | record :: rest, names => do
      failIf (record.name ∈ names) (.refused .duplicatePart)
      let span ← checkRecord bytes cdOffset record
      let spans ← checkRecords bytes cdOffset rest (record.name :: names)
      .ok (span :: spans)

/-- `spans.sort_unstable()`. -/
def sortSpans (spans : List (ℕ × ℕ)) : List (ℕ × ℕ) := sortBy toLex spans

/-- A pair of `windows(2)` overlaps. -/
def overlapping : List (ℕ × ℕ) → Bool
  | first :: second :: rest => decide (first.2 > second.1) || overlapping (second :: rest)
  | _ => false

/-! ## Entries -/

structure Entry where
  name : Str
  data : List UInt8
  deriving DecidableEq

/-- `u64::saturating_mul`. -/
def saturatingMul (left right : ℕ) : ℕ := min (left * right) (2 ^ 64 - 1)

/-- A refusal without a panic. -/
def refusing {α : Type} (outcome : Except Refusal α) : Checked Refusal α :=
  outcome.mapError .refused

def entryData (codec : Codec) (limits : Limits) (record : Central) (budget : ℕ)
    (raw : List UInt8) : Checked Refusal (List UInt8) :=
  if record.method = 0 then do
    failIf (record.size ≠ raw.length) (.refused .malformedContainer)
    failIf (record.size > budget) (.refused .oversized)
    .ok raw
  else do
    failIf (record.size > budget ∨
      record.size > saturatingMul limits.maxRatio (max raw.length 1)) (.refused .decompressionLimit)
    refusing (inflate codec raw record.size)

/-- One entry, with what remains of the total budget. -/
def readEntry (codec : Codec) (bytes : List UInt8) (limits : Limits) (record : Central)
    (remaining : ℕ) : Checked Refusal (Entry × ℕ) := do
  let nameLen ← u16From bytes record.localOffset 26
  let extraLen ← u16From bytes record.localOffset 28
  let offset ← dataOffset record nameLen extraLen
  let raw ← slice bytes offset record.compressed
  let data ← entryData codec limits record (min limits.maxPartBytes remaining) raw
  failIf ((codec.crc32 data).toNat ≠ record.crc) (.refused .malformedContainer)
  let remaining ← subWord remaining data.length
  .ok (⟨record.name, data⟩, remaining)

/-- The loop over the records that reads their data; `check` counts the checks of the flag. -/
def readEntries (codec : Codec) (bytes : List UInt8) (limits : Limits) (cancel : Cancel) :
    List Central → ℕ → ℕ → Checked Refusal (List Entry)
  | [], _, _ => .ok []
  | record :: rest, remaining, check => do
      failIf (cancel check = true) (.refused .cancelled)
      let (entry, remaining) ← readEntry codec bytes limits record remaining
      let entries ← readEntries codec bytes limits cancel rest remaining (check + 1)
      .ok (entry :: entries)

def read (codec : Codec) (bytes : List UInt8) (limits : Limits) (cancel : Cancel) :
    Checked Refusal (List Entry) := do
  failIf (cancel 0 = true) (.refused .cancelled)
  failIf (bytes.length > limits.maxPackageBytes) (.refused .oversized)
  failIf (compoundFile <+: bytes) (.refused .encrypted)
  let found ← findEndRecord bytes (endCandidates bytes)
  let record ← readEndRecord bytes limits found
  let (records, stop) ← readCentrals bytes record.total record.cdOffset
  failIf (stop ≠ record.cdEnd) (.refused .malformedContainer)
  let spans ← checkRecords bytes record.cdOffset records []
  failIf (overlapping (sortSpans spans) = true) (.refused .malformedContainer)
  readEntries codec bytes limits cancel records limits.maxTotalBytes 1

/-! ## Writing -/

structure WriteEntry where
  name : Str
  data : List UInt8
  deflate : Bool
  dosTime : UInt16
  dosDate : UInt16
  deriving DecidableEq

/-- The stored form of an entry and its method. -/
def packed (codec : Codec) (maxRatio : ℕ) (entry : WriteEntry) : List UInt8 × ℕ :=
  if entry.deflate then
    if entry.data.length >
        saturatingMul maxRatio (max (codec.compress entry.data).length 1) then (entry.data, 0)
    else (codec.compress entry.data, 8)
  else (entry.data, 0)

/-- The fields that both headers share.  A number that a cast cuts off is written by its lowest
bytes. -/
def fields (codec : Codec) (entry : WriteEntry) (stored : List UInt8 × ℕ) : List UInt8 :=
  toLittleEndian 2 0x0800 ++ (toLittleEndian 2 stored.2 ++ (toLittleEndian 2 entry.dosTime.toNat ++
    (toLittleEndian 2 entry.dosDate.toNat ++ (toLittleEndian 4 (codec.crc32 entry.data).toNat ++
      (toLittleEndian 4 stored.1.length ++ (toLittleEndian 4 entry.data.length ++
        (toLittleEndian 2 (byteLen entry.name) ++ toLittleEndian 2 0)))))))

/-- The local header of an entry with its name and its data. -/
def localRecord (codec : Codec) (entry : WriteEntry) (stored : List UInt8 × ℕ) : List UInt8 :=
  toLittleEndian 4 localSignature ++ (toLittleEndian 2 20 ++ (fields codec entry stored ++
    (Text.bytes entry.name ++ stored.1)))

def centralRecord (codec : Codec) (entry : WriteEntry) (stored : List UInt8 × ℕ)
    (localOffset : ℕ) : List UInt8 :=
  toLittleEndian 4 centralSignature ++ (toLittleEndian 2 20 ++ (toLittleEndian 2 20 ++
    (fields codec entry stored ++ (toLittleEndian 6 0 ++ (toLittleEndian 4 0 ++
      (toLittleEndian 4 localOffset ++ Text.bytes entry.name))))))

/-- `u64::saturating_add`. -/
def saturatingAdd (left right : ℕ) : ℕ := min (left + right) (2 ^ 64 - 1)

def packageSize (out central : List UInt8) (entry : WriteEntry) (stored : List UInt8) : ℕ :=
  saturatingAdd (saturatingAdd (saturatingAdd (saturatingAdd out.length central.length)
    (76 + 2 * byteLen entry.name)) stored.length) 22

/-- The size is beyond the limits, where there are any. -/
def exceeds (limits : Option Limits) (size : ℕ) : Bool :=
  limits.any fun limits => decide (size > limits.maxPackageBytes ∨ size ≥ 2 ^ 32 - 1)

/-- The loop of `write_inner`. -/
def writeEntries (codec : Codec) (limits : Option Limits) (maxRatio : ℕ) :
    List WriteEntry → List UInt8 → List UInt8 → Except Refusal (List UInt8 × List UInt8)
  | [], out, central => .ok (out, central)
  | entry :: rest, out, central => do
      let stored := packed codec maxRatio entry
      failIf (exceeds limits (packageSize out central entry stored.1) = true) .oversized
      writeEntries codec limits maxRatio rest (out ++ localRecord codec entry stored)
        (central ++ centralRecord codec entry stored out.length)

def endRecord (count centralLength cdOffset : ℕ) : List UInt8 :=
  toLittleEndian 4 endSignature ++ (toLittleEndian 4 0 ++ (toLittleEndian 2 count ++
    (toLittleEndian 2 count ++ (toLittleEndian 4 centralLength ++ (toLittleEndian 4 cdOffset ++
      toLittleEndian 2 0)))))

def writeInner (codec : Codec) (entries : List WriteEntry) (limits : Option Limits)
    (maxRatio : ℕ) : Except Refusal (List UInt8) := do
  let (out, central) ← writeEntries codec limits maxRatio entries [] []
  .ok (out ++ (central ++ endRecord entries.length central.length out.length))

/-- The loop of `write_bounded` over the budgets. -/
def checkBudgets (limits : Limits) : List WriteEntry → ℕ → Except Refusal Unit
  | [], _ => .ok ()
  | entry :: rest, remaining => do
      failIf (byteLen entry.name > 0xFFFF ∨ entry.data.length > limits.maxPartBytes ∨
        entry.data.length ≥ 2 ^ 32 - 1) .oversized
      failIf (remaining < entry.data.length) .oversized
      checkBudgets limits rest (remaining - entry.data.length)

def writeBounded (codec : Codec) (entries : List WriteEntry) (limits : Limits) :
    Except Refusal (List UInt8) := do
  failIf (entries.length > limits.maxParts ∨ entries.length ≥ 0xFFFF) .tooManyParts
  checkBudgets limits entries limits.maxTotalBytes
  writeInner codec entries (some limits) limits.maxRatio

def write (codec : Codec) (entries : List WriteEntry) : Except Refusal (List UInt8) :=
  writeInner codec entries none (2 ^ 64 - 1)

def writeWithRatio (codec : Codec) (entries : List WriteEntry) (maxRatio : ℕ) :
    Except Refusal (List UInt8) :=
  writeInner codec entries none maxRatio

end Bran.Document.Zip
