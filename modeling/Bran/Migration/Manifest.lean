import Bran.Document.JsonReaders

/-!
# The migration manifest parser

`JsonParser` of the body-preservation check: a parser for one object with the members
`schema_version` and `files`.  Members that it does not know are skipped without being parsed.
-/

namespace Bran.Migration

open Text CharCode Validation Words Scanner Document.Json

inductive MigrationError where
  | manifestInvalidJson (message : Str)
  | manifestMissingFiles
  deriving DecidableEq

/-- `JsonParser::err`. -/
def err (message : String) : Stop MigrationError :=
  .refused (.manifestInvalidJson message.toList)

/-- `MAX_MANIFEST_BYTES`, which `validate_body_preservation` checks before it parses. -/
def maxManifestBytes : ℕ := 2 * 1024 * 1024

/-- An entry of `files`: `original_path`, `migrated_path` and `body_sha256`. -/
abbrev FileEntry := Str × Str × Option Str

abbrev ParsedManifest := ℕ × List FileEntry

variable {α σ : Type} (input : List UInt8)

/-- `self.bytes[self.pos]`. -/
def byteAt (at_ : ℕ) : Checked MigrationError UInt8 :=
  match input[at_]? with
  | some byte => .ok byte
  | none => .error .panicked

/-! ## Blanks and single bytes -/

/-- `u8::is_ascii_whitespace`. -/
def isAsciiWhitespace (byte : UInt8) : Bool :=
  byte = 0x20 || byte = 0x09 || byte = 0x0A || byte = 0x0C || byte = 0x0D

/-- `u8::is_ascii_alphabetic`. -/
def isAsciiAlphabetic (byte : UInt8) : Bool :=
  ('a'.toUInt8 ≤ byte && byte ≤ 'z'.toUInt8) || ('A'.toUInt8 ≤ byte && byte ≤ 'Z'.toUInt8)

/-- The bytes over which `skip_value` passes in a number. -/
def isNumberByte (byte : UInt8) : Bool :=
  isDigitByte byte || byte = '.'.toUInt8 || byte = 'e'.toUInt8 || byte = 'E'.toUInt8 ||
    byte = '-'.toUInt8 || byte = '+'.toUInt8

/-- `JsonParser::skip_ws`. -/
def skipWs (at_ : ℕ) : ℕ := runOf input isAsciiWhitespace at_

/-- `JsonParser::expect`. -/
def expect (c : Char) (at_ : ℕ) : Checked MigrationError (Unit × ℕ) := do
  failIf (input[skipWs input at_]? ≠ some c.toUInt8)
    (.refused (.manifestInvalidJson ("expected '".toList ++ c :: "'".toList)))
  return ((), skipWs input at_ + 1)

/-- `JsonParser::expect_comma_or_close`: a comma and the blanks behind it are taken, the closing
bracket is left to the loop that asks. -/
def expectCommaOrClose (close : Char) (at_ : ℕ) : Checked MigrationError (Unit × ℕ) := do
  failIf (input.length ≤ skipWs input at_) (err "unterminated object/array")
  let byte ← byteAt input (skipWs input at_)
  if byte = ','.toUInt8 then do
    failIf (input[skipWs input (skipWs input at_ + 1)]? = some close.toUInt8)
      (err "trailing comma")
    return ((), skipWs input (skipWs input at_ + 1))
  else if byte = close.toUInt8 then return ((), skipWs input at_)
  else .error (err "expected ',' or closing delimiter")

/-! ## Strings -/

/-- `JsonParser::parse_hex_u32`. -/
def parseHexU32 (at_ : ℕ) : Checked MigrationError (ℕ × ℕ) := do
  failIf (input.length < at_ + 4) (err "truncated \\u escape")
  match fourBytes input at_ with
  | none => .error .panicked
  | some field =>
      match (fromUtf8 field).bind fromStrRadix with
      | some val => return (val, at_ + 4)
      | none => .error (err "invalid hex")

def isHighSurrogate (code : ℕ) : Prop := 0xD800 ≤ code ∧ code ≤ 0xDBFF

instance (code : ℕ) : Decidable (isHighSurrogate code) := inferInstanceAs (Decidable (_ ∧ _))

def isLowSurrogate (code : ℕ) : Prop := 0xDC00 ≤ code ∧ code ≤ 0xDFFF

instance (code : ℕ) : Decidable (isLowSurrogate code) := inferInstanceAs (Decidable (_ ∧ _))

def pairCode (high low : ℕ) : ℕ := 0x10000 + (high - 0xD800) * 0x400 + (low - 0xDC00)

def codePoint (code at_ : ℕ) : Checked MigrationError (Char × ℕ) :=
  match fromU32 code with
  | some c => .ok (c, at_)
  | none => .error (err "invalid code point")

/-- `JsonParser::decode_u_escape`. -/
def decodeUEscape (at_ : ℕ) : Checked MigrationError (Char × ℕ) := do
  let (cp, at_) ← parseHexU32 input at_
  if isHighSurrogate cp then
    if input[at_]? = some '\\'.toUInt8 ∧ input[at_ + 1]? = some 'u'.toUInt8 then do
      let (low, at_) ← parseHexU32 input (at_ + 2)
      failIf (¬ isLowSurrogate low) (err "invalid surrogate pair")
      codePoint (pairCode cp low) at_
    else .error (err "lone high surrogate")
  else if isLowSurrogate cp then .error (err "lone low surrogate")
  else codePoint cp at_

/-- What a backslash starts. -/
def escape (at_ : ℕ) : Checked MigrationError (Char × ℕ) := do
  failIf (input.length ≤ at_) (err "unterminated escape")
  let esc ← byteAt input at_
  if esc = 'u'.toUInt8 then decodeUEscape input (at_ + 1)
  else
    match slashEscape (Char.ofNat esc.toNat) with
    | some c => return (c, at_ + 1)
    | none => .error (err "invalid escape")

/-- The loop of `parse_string`.  Running out of rounds stands for a loop that never ends. -/
def stringLoop : ℕ → List UInt8 → ℕ → Checked MigrationError (Str × ℕ)
  | 0, _, _ => .error .panicked
  | rounds + 1, buf, at_ => do
      failIf (input.length ≤ at_) (err "unterminated string")
      let b ← byteAt input at_
      if b = '"'.toUInt8 then
        match fromUtf8 buf with
        | some s => return (s, at_ + 1)
        | none => .error (err "invalid UTF-8")
      else if b < 0x20 then .error (err "control char in string")
      else if b = '\\'.toUInt8 then do
        let (decoded, at_) ← escape input (at_ + 1)
        stringLoop rounds (buf ++ String.utf8EncodeChar decoded) at_
      else stringLoop rounds (buf ++ [b]) (at_ + 1)

/-- `JsonParser::parse_string`. -/
def parseString (at_ : ℕ) : Checked MigrationError (Str × ℕ) := do
  let ((), at_) ← expect input '"' at_
  stringLoop input (input.length + 1) [] at_

/-! ## Numbers -/

/-- `JsonParser::parse_u64`. -/
def parseU64 (at_ : ℕ) : Checked MigrationError (ℕ × ℕ) := do
  let start := skipWs input at_
  let stop := runOf input isDigitByte start
  failIf (stop = start) (err "expected number")
  match rangeOf input start stop with
  | none => .error .panicked
  | some field =>
      match fromUtf8 field with
      | none => .error (err "invalid UTF-8")
      | some digits => do
          failIf (1 < byteLen digits ∧ digits.head? = some '0') (err "leading zero in number")
          match parseUnsigned (2 ^ 64) digits with
          | some n => return (n, stop)
          | none => .error (err "number overflow")

/-! ## Skipped values -/

/-- The inner loop of `skip_value` on a quote: the position behind the next quote without a
backslash before it, or past the end. -/
def closingQuote : ℕ → ℕ → Checked MigrationError (Unit × ℕ)
  | 0, _ => .error .panicked
  | rounds + 1, at_ =>
      match input[at_]? with
      | none => .ok ((), at_ + 1)
      | some byte =>
          if byte = '"'.toUInt8 then .ok ((), at_ + 1)
          else if byte = '\\'.toUInt8 then closingQuote rounds (at_ + 2)
          else closingQuote rounds (at_ + 1)

/-- The loop of `skip_value` on a bracket, with the brackets of its kind that are open.  The
count is a `u32`. -/
def nestedLoop (opening closing : Char) (unterminated : String) :
    ℕ → ℕ → ℕ → Checked MigrationError (Unit × ℕ)
  | 0, _, _ => .error .panicked
  | rounds + 1, depth, at_ =>
      if depth = 0 then .ok ((), at_)
      else
        match input[at_]? with
        | none => .error (err unterminated)
        | some byte =>
            if byte = '"'.toUInt8 then do
              let ((), at_) ← closingQuote input (input.length + 1) (at_ + 1)
              nestedLoop opening closing unterminated rounds depth at_
            else if byte = opening.toUInt8 then do
              failIf (2 ^ 32 ≤ depth + 1) .panicked
              nestedLoop opening closing unterminated rounds (depth + 1) (at_ + 1)
            else if byte = closing.toUInt8 then
              nestedLoop opening closing unterminated rounds (depth - 1) (at_ + 1)
            else nestedLoop opening closing unterminated rounds depth (at_ + 1)

/-- `true`, `false` or `null`. -/
def skipKeyword (at_ : ℕ) : Checked MigrationError (Unit × ℕ) :=
  match rangeOf input at_ (runOf input isAsciiAlphabetic at_) with
  | none => .error .panicked
  | some field =>
      match fromUtf8 field with
      | none => .error (err "invalid UTF-8")
      | some kw => do
          failIf (kw ≠ "true".toList ∧ kw ≠ "false".toList ∧ kw ≠ "null".toList)
            (err "invalid literal")
          return ((), runOf input isAsciiAlphabetic at_)

/-- `JsonParser::skip_value` on the byte that stands behind the blanks. -/
def skipFrom (byte : UInt8) (at_ : ℕ) : Checked MigrationError (Unit × ℕ) :=
  if byte = '"'.toUInt8 then do
    let (_, at_) ← parseString input at_
    return ((), at_)
  else if byte = '\x7b'.toUInt8 then
    nestedLoop input '\x7b' '\x7d' "unterminated object" (input.length + 1) 1 (at_ + 1)
  else if byte = '['.toUInt8 then
    nestedLoop input '[' ']' "unterminated array" (input.length + 1) 1 (at_ + 1)
  else if byte = 't'.toUInt8 ∨ byte = 'f'.toUInt8 ∨ byte = 'n'.toUInt8 then
    skipKeyword input at_
  else if startsNumber byte then .ok ((), runOf input isNumberByte at_)
  else .error (err "unexpected value")

/-- `JsonParser::skip_value`. -/
def skipValue (at_ : ℕ) : Checked MigrationError (Unit × ℕ) := do
  failIf (input.length ≤ skipWs input at_) (err "unexpected end")
  let byte ← byteAt input (skipWs input at_)
  skipFrom input byte (skipWs input at_)

/-! ## Objects and arrays -/

/-- The loop of an object or an array behind its bracket. -/
def itemsLoop (close : Char) (item : σ → ℕ → Checked MigrationError (σ × ℕ)) :
    ℕ → σ → ℕ → Checked MigrationError (σ × ℕ)
  | 0, _, _ => .error .panicked
  | rounds + 1, state, at_ =>
      if input[skipWs input at_]? = some close.toUInt8 then .ok (state, skipWs input at_ + 1)
      else do
        let (state, at_) ← item state (skipWs input at_)
        let ((), at_) ← expectCommaOrClose input close at_
        itemsLoop close item rounds state at_

/-- The keys that an object knows, and how their values are read. -/
abbrev Keys (α : Type) := List (Str × (ℕ → Checked MigrationError (α × ℕ)))

/-- A member of an object.  `found` holds the variables that are set, under the keys that set
them: a key has been seen when it is there. -/
def member (known : Keys α) (found : List (Str × α)) (at_ : ℕ) :
    Checked MigrationError (List (Str × α) × ℕ) := do
  let (key, at_) ← parseString input at_
  let ((), at_) ← expect input ':' at_
  match known.lookup key with
  | some read => do
      failIf (key ∈ found.map Prod.fst)
        (.refused (.manifestInvalidJson ("duplicate key '".toList ++ (key ++ "'".toList))))
      let (value, at_) ← read at_
      return (found ++ [(key, value)], at_)
  | none => do
      let ((), at_) ← skipValue input at_
      return (found, at_)

/-- An object: its bracket and its members. -/
def parseObject (known : Keys α) (at_ : ℕ) : Checked MigrationError (List (Str × α) × ℕ) := do
  let ((), at_) ← expect input '\x7b' at_
  itemsLoop input '\x7d' (member input known) (input.length + 1) [] at_

/-! ## The manifest -/

/-- The keys of `parse_file_entry`. -/
def fileKeys : Keys Str :=
  [("original_path".toList, parseString input), ("migrated_path".toList, parseString input),
    ("body_sha256".toList, parseString input)]

/-- The variables of `parse_file_entry` behind its loop: a path that is not given is empty, and an
empty digest is one that is not given. -/
def fileEntry (found : List (Str × Str)) : FileEntry :=
  ((found.lookup "original_path".toList).getD [], (found.lookup "migrated_path".toList).getD [],
    (found.lookup "body_sha256".toList).filter (· ≠ []))

/-- `JsonParser::parse_file_entry`. -/
def parseFileEntry (at_ : ℕ) : Checked MigrationError (FileEntry × ℕ) := do
  let (found, at_) ← parseObject input (fileKeys input) at_
  return (fileEntry found, at_)

/-- An item of `parse_files_array`. -/
def pushEntry (entries : List FileEntry) (at_ : ℕ) :
    Checked MigrationError (List FileEntry × ℕ) := do
  let (entry, at_) ← parseFileEntry input at_
  return (entries ++ [entry], at_)

/-- `JsonParser::parse_files_array`. -/
def parseFilesArray (at_ : ℕ) : Checked MigrationError (List FileEntry × ℕ) := do
  let ((), at_) ← expect input '[' at_
  itemsLoop input ']' (pushEntry input) (input.length + 1) [] at_

/-- The value of a key of the manifest. -/
inductive Field where
  | schemaVersion (version : ℕ)
  | files (entries : List FileEntry)
  deriving DecidableEq

def readSchemaVersion (at_ : ℕ) : Checked MigrationError (Field × ℕ) := do
  let (version, at_) ← parseU64 input at_
  return (.schemaVersion version, at_)

def readFiles (at_ : ℕ) : Checked MigrationError (Field × ℕ) := do
  let (entries, at_) ← parseFilesArray input at_
  return (.files entries, at_)

/-- The keys of `parse_manifest_object`. -/
def manifestKeys : Keys Field :=
  [("schema_version".toList, readSchemaVersion input), ("files".toList, readFiles input)]

/-- `schema_version`, which is 1 when it is not given. -/
def schemaVersionOf (found : List (Str × Field)) : ℕ :=
  match found.lookup "schema_version".toList with
  | some (.schemaVersion version) => version
  | _ => 1

/-- `files`. -/
def filesOf (found : List (Str × Field)) : Option (List FileEntry) :=
  match found.lookup "files".toList with
  | some (.files entries) => some entries
  | _ => none

/-- `JsonParser::parse_manifest_object`. -/
def parseManifestObject : Checked MigrationError ParsedManifest := do
  let (found, at_) ← parseObject input (manifestKeys input) 0
  failIf (skipWs input at_ < input.length) (err "trailing data after root object")
  match filesOf found with
  | some files => return (schemaVersionOf found, files)
  | none => .error (.refused .manifestMissingFiles)

end Bran.Migration
