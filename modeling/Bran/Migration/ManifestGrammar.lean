import Bran.Document.JsonBytes
import Bran.Library.JsonSyntax
import Bran.Migration.Manifest

/-!
# What a manifest is

One grammar of manifests over bytes, for two readings: the one of JSON and the one of the parser.
They differ in the pieces that a manifest is made of.  The parser takes more blanks and more
escapes than JSON has, and of a value that it skips it only looks for the end; a string with half
of a surrogate pair it cannot read.
-/

namespace Bran.Migration

open Text CharCode Words Document.Json JsonSyntax

variable {α σ : Type}

/-! ## Strings -/

/-- Four digits behind `\u`, or two times four that are a surrogate pair. -/
inductive UnicodeEscape (number : Str → ℕ → Prop) : Str → Char → Prop
  | single {digits : Str} {code : ℕ} {c : Char} (hlength : digits.length = 4)
      (hnumber : number digits code) (hc : fromU32 code = some c) :
      UnicodeEscape number ('u' :: digits) c
  | pair {high low : Str} {first second : ℕ} {c : Char} (hhigh : high.length = 4)
      (hlow : low.length = 4) (hfirst : number high first) (hsecond : number low second)
      (hpair : isHighSurrogate first ∧ isLowSurrogate second)
      (hc : fromU32 (pairCode first second) = some c) :
      UnicodeEscape number ('u' :: (high ++ '\\' :: 'u' :: low)) c

/-- The strings in which `\u` takes digits of a kind. -/
def manifestDialect (number : Str → ℕ → Prop) : Dialect where
  blank := true
  strict := false
  escape word c := SimpleWord slashEscape word c ∨ UnicodeEscape number word c

/-- `u32::from_str_radix` takes a plus sign for a digit. -/
def RadixNumber (digits : Str) (code : ℕ) : Prop := fromStrRadix digits = some code

def HexNumber (digits : Str) (code : ℕ) : Prop :=
  digits.all isHexDigit = true ∧ RadixNumber digits code

/-- The string between two quotes, as `parse_string` decodes it. -/
def Decodes (body value : Str) : Prop := (manifestDialect RadixNumber).Body body value

/-- The string between two quotes of a JSON text. -/
def Denotes (body value : Str) : Prop := (manifestDialect HexNumber).Body body value

/-! ## Skipped values -/

/-- Bytes without a quote, but for what stands behind a backslash. -/
inductive Unquoted : List UInt8 → Prop
  | nil : Unquoted []
  | byte {byte : UInt8} {rest : List UInt8}
      (hbyte : byte ≠ '"'.toUInt8 ∧ byte ≠ '\\'.toUInt8) (hrest : Unquoted rest) :
      Unquoted (byte :: rest)
  | escaped {byte : UInt8} {rest : List UInt8} (hrest : Unquoted rest) :
      Unquoted ('\\'.toUInt8 :: byte :: rest)

/-- Bytes that close as many brackets as are open, the last of them at the end. -/
inductive Nest (opening closing : Char) : ℕ → List UInt8 → Prop
  | nil : Nest opening closing 0 []
  | quoted {depth : ℕ} {body rest : List UInt8} (hbody : Unquoted body)
      (hrest : Nest opening closing (depth + 1) rest) :
      Nest opening closing (depth + 1) ('"'.toUInt8 :: (body ++ '"'.toUInt8 :: rest))
  | opens {depth : ℕ} {rest : List UInt8} (hrest : Nest opening closing (depth + 2) rest) :
      Nest opening closing (depth + 1) (opening.toUInt8 :: rest)
  | closes {depth : ℕ} {rest : List UInt8} (hrest : Nest opening closing depth rest) :
      Nest opening closing (depth + 1) (closing.toUInt8 :: rest)
  | other {depth : ℕ} {byte : UInt8} {rest : List UInt8}
      (hbyte : byte ≠ '"'.toUInt8 ∧ byte ≠ opening.toUInt8 ∧ byte ≠ closing.toUInt8)
      (hrest : Nest opening closing (depth + 1) rest) :
      Nest opening closing (depth + 1) (byte :: rest)

/-- The values over which `skip_value` passes. -/
inductive Skips : List UInt8 → Prop
  | string {body value : Str} (h : Decodes body value) :
      Skips ('"'.toUInt8 :: (bytes body ++ ['"'.toUInt8]))
  | object {rest : List UInt8} (h : Nest '\x7b' '\x7d' 1 rest) : Skips ('\x7b'.toUInt8 :: rest)
  | array {rest : List UInt8} (h : Nest '[' ']' 1 rest) : Skips ('['.toUInt8 :: rest)
  | keyword {word : Str} (h : word ∈ ["true".toList, "false".toList, "null".toList]) :
      Skips (bytes word)
  | number {byte : UInt8} {rest : List UInt8} (hbyte : startsNumber byte = true)
      (hrest : ∀ byte ∈ rest, isNumberByte byte = true) : Skips (byte :: rest)

/-! ## Pieces -/

/-- The pieces of a manifest in which its readings differ. -/
inductive Piece where
  | blank (raw : List UInt8)
  /-- A string between its quotes, and its value. -/
  | text (raw : List UInt8) (value : Str)
  /-- A key between its quotes that is none of these. -/
  | foreign (names : List Str) (raw : List UInt8)
  /-- The value of such a key. -/
  | skipped (raw : List UInt8)

namespace Piece

def Read : Piece → Prop
  | blank raw => ∀ byte ∈ raw, isAsciiWhitespace byte = true
  | text raw value => ∃ body, raw = bytes body ∧ Decodes body value
  | foreign names raw => ∃ body value, raw = bytes body ∧ Decodes body value ∧ value ∉ names
  | skipped raw => Skips raw

def Json : Piece → Prop
  | blank raw => ∃ w, raw = bytes w ∧ Whitespace w
  | text raw value => ∃ body, raw = bytes body ∧ Denotes body value
  | foreign names raw =>
      ∃ body, raw = bytes body ∧ Chars body ∧ ∀ name ∈ names, ¬ Denotes body name
  | skipped raw => ∃ text, raw = bytes text ∧ Derives .value text

/-- No form feed is a blank, four hexadecimal digits stand behind every `\u`, and a value that is
skipped is JSON. -/
def Tidy : Piece → Prop
  | blank raw => 0x0C ∉ raw
  | text raw _ => ∀ body, raw = bytes body → scan .string body ≠ .failed
  | foreign _ raw => ∀ body, raw = bytes body → scan .string body ≠ .failed
  | skipped raw => ∃ text, raw = bytes text ∧ Derives .value text

/-- The strings among the keys that are not known and among their values have no half of a
surrogate pair: they denote a text. -/
def Readable : Piece → Prop
  | foreign _ raw => ∃ body value, raw = bytes body ∧ Denotes body value
  | skipped raw => ∀ body, raw = '"'.toUInt8 :: (bytes body ++ ['"'.toUInt8]) →
      ∃ value, Denotes body value
  | _ => True

end Piece

/-! ## Manifests -/

section Grammar

variable (ok : Piece → Prop)

/-- The items of an object or an array, with the bracket behind them. -/
inductive Items (close : Char) (item : σ → List UInt8 → σ → Prop) : σ → List UInt8 → σ → Prop
  | last {state state' : σ} {w raw w' : List UInt8} (hw : ok (.blank w))
      (h : item state raw state') (hw' : ok (.blank w')) :
      Items close item state (w ++ (raw ++ (w' ++ [close.toUInt8]))) state'
  | cons {state state' state'' : σ} {w raw w' rest : List UInt8} (hw : ok (.blank w))
      (h : item state raw state') (hw' : ok (.blank w'))
      (hrest : Items close item state' rest state'') :
      Items close item state (w ++ (raw ++ (w' ++ ','.toUInt8 :: rest))) state''

/-- What stands behind the bracket of an object or an array, which may have no items. -/
inductive Bracketed (close : Char) (item : σ → List UInt8 → σ → Prop) :
    σ → List UInt8 → σ → Prop
  | empty {state : σ} {w : List UInt8} (hw : ok (.blank w)) :
      Bracketed close item state (w ++ [close.toUInt8]) state
  | items {state state' : σ} {raw : List UInt8} (h : Items ok close item state raw state') :
      Bracketed close item state raw state'

/-- A member of an object.  Those with a key that is known are collected, and no such key is
repeated. -/
inductive Member (names : List Str) (value : Str → α → List UInt8 → Prop) :
    List (Str × α) → List UInt8 → List (Str × α) → Prop
  | known {found : List (Str × α)} {name : Str} {v : α} {body w raw : List UInt8}
      (hname : name ∈ names) (hkey : ok (.text body name)) (hnew : name ∉ found.map Prod.fst)
      (hw : ok (.blank w)) (hvalue : value name v raw) :
      Member names value found
        ('"'.toUInt8 :: (body ++ '"'.toUInt8 :: (w ++ ':'.toUInt8 :: raw))) (found ++ [(name, v)])
  | foreign {found : List (Str × α)} {body w w' raw : List UInt8}
      (hkey : ok (.foreign names body)) (hw : ok (.blank w)) (hw' : ok (.blank w'))
      (hvalue : ok (.skipped raw)) :
      Member names value found
        ('"'.toUInt8 :: (body ++ '"'.toUInt8 :: (w ++ ':'.toUInt8 :: (w' ++ raw)))) found

/-- A string behind blanks. -/
inductive TextValue : Str → Str → List UInt8 → Prop
  | mk {name value : Str} {w body : List UInt8} (hw : ok (.blank w))
      (hbody : ok (.text body value)) :
      TextValue name value (w ++ '"'.toUInt8 :: (body ++ ['"'.toUInt8]))

def fileNames : List Str :=
  ["original_path".toList, "migrated_path".toList, "body_sha256".toList]

/-- An entry of `files`. -/
inductive Entry : List FileEntry → List UInt8 → List FileEntry → Prop
  | mk {entries : List FileEntry} {raw : List UInt8} {found : List (Str × Str)}
      (h : Bracketed ok '\x7d' (Member ok fileNames (TextValue ok)) [] raw found) :
      Entry entries ('\x7b'.toUInt8 :: raw) (entries ++ [fileEntry found])

def manifestNames : List Str := ["schema_version".toList, "files".toList]

/-- The values of the keys of a manifest: a whole number below 2^64, and an array of entries. -/
inductive FieldValue : Str → Field → List UInt8 → Prop
  | schemaVersion {w : List UInt8} {digits : Str} {n : ℕ} (hw : ok (.blank w))
      (hdigits : Whole digits) (hn : parseUnsigned (2 ^ 64) digits = some n) :
      FieldValue "schema_version".toList (.schemaVersion n) (w ++ bytes digits)
  | files {w raw : List UInt8} {entries : List FileEntry} (hw : ok (.blank w))
      (h : Bracketed ok ']' (Entry ok) [] raw entries) :
      FieldValue "files".toList (.files entries) (w ++ '['.toUInt8 :: raw)

/-- One object with the members of a manifest, and blanks around it. -/
inductive Manifest : List UInt8 → ParsedManifest → Prop
  | mk {w raw w' : List UInt8} {found : List (Str × Field)} {files : List FileEntry}
      (hw : ok (.blank w))
      (h : Bracketed ok '\x7d' (Member ok manifestNames (FieldValue ok)) [] raw found)
      (hw' : ok (.blank w')) (hfiles : filesOf found = some files) :
      Manifest (w ++ '\x7b'.toUInt8 :: (raw ++ w')) (schemaVersionOf found, files)

end Grammar

/-! ## Weaker readings -/

section Mono

variable {ok ok' : Piece → Prop} (hok : ∀ piece, ok piece → ok' piece)
include hok

variable {raw : List UInt8}

theorem Items.mono {close : Char} {item item' : σ → List UInt8 → σ → Prop}
    (hitem : ∀ state raw state', item state raw state' → item' state raw state') {state : σ}
    {state' : σ} (h : Items ok close item state raw state') :
    Items ok' close item' state raw state' := by
  induction h with
  | last hw h hw' => exact .last (hok _ hw) (hitem _ _ _ h) (hok _ hw')
  | cons hw h hw' _ ih => exact .cons (hok _ hw) (hitem _ _ _ h) (hok _ hw') ih

theorem Bracketed.mono {close : Char} {item item' : σ → List UInt8 → σ → Prop}
    (hitem : ∀ state raw state', item state raw state' → item' state raw state') {state : σ}
    {state' : σ} (h : Bracketed ok close item state raw state') :
    Bracketed ok' close item' state raw state' := by
  cases h with
  | empty hw => exact .empty (hok _ hw)
  | items h => exact .items (h.mono hok hitem)

theorem Member.mono {names : List Str} {value value' : Str → α → List UInt8 → Prop}
    (hvalue : ∀ name v raw, value name v raw → value' name v raw) {found : List (Str × α)}
    {found' : List (Str × α)} (h : Member ok names value found raw found') :
    Member ok' names value' found raw found' := by
  cases h with
  | known hname hkey hnew hw h =>
      exact .known hname (hok _ hkey) hnew (hok _ hw) (hvalue _ _ _ h)
  | foreign hkey hw hw' h => exact .foreign (hok _ hkey) (hok _ hw) (hok _ hw') (hok _ h)

theorem TextValue.mono {name value : Str} (h : TextValue ok name value raw) :
    TextValue ok' name value raw := by
  cases h with
  | mk hw hbody => exact .mk (hok _ hw) (hok _ hbody)

theorem Entry.mono {entries : List FileEntry} {entries' : List FileEntry}
    (h : Entry ok entries raw entries') : Entry ok' entries raw entries' := by
  cases h with
  | mk h => exact .mk (h.mono hok fun _ _ _ h => h.mono hok fun _ _ _ h => h.mono hok)

theorem FieldValue.mono {name : Str} {field : Field} (h : FieldValue ok name field raw) :
    FieldValue ok' name field raw := by
  cases h with
  | schemaVersion hw hdigits hn => exact .schemaVersion (hok _ hw) hdigits hn
  | files hw h => exact .files (hok _ hw) (h.mono hok fun _ _ _ h => h.mono hok)

theorem Manifest.mono {input : List UInt8} {fields : ParsedManifest}
    (h : Manifest ok input fields) : Manifest ok' input fields := by
  cases h with
  | mk hw h hw' hfiles =>
      exact .mk (hok _ hw) (h.mono hok fun _ _ _ h => h.mono hok fun _ _ _ h => h.mono hok)
        (hok _ hw') hfiles

end Mono

end Bran.Migration
