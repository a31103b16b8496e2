import Bran.Document.Intake
import Bran.Document.JsonReader

/-!
# The four readers of canonical JSON

The steps of `Json::parse` and of the readers of the DOCX, PPTX and XLSX adapters.  The first and
the PPTX one walk over a text, the other two over bytes.
-/

namespace Bran.Document.Json

open Text CharCode Validation Words Scanner

variable {ε : Type}

/-! ## Escapes -/

/-- The escapes of one character that every reader knows. -/
def simpleEscape (c : Char) : Option Char :=
  if c = '"' then some '"'
  else if c = '\\' then some '\\'
  else if c = 'n' then some '\n'
  else if c = 'r' then some '\r'
  else if c = 't' then some '\t'
  else if c = 'b' then some (Char.ofNat 0x8)
  else if c = 'f' then some (Char.ofNat 0xC)
  else none

def slashEscape (c : Char) : Option Char := if c = '/' then some '/' else simpleEscape c

/-! ## `canonical.rs` -/

namespace Parser

variable (text : Str)

def maxParseDepth : ℕ := 64

def space (at_ : ℕ) : Checked Unit (Unit × ℕ) := do
  let rest ← sliceText text at_
  return ((), at_ + (byteLen rest - byteLen (rest.dropWhile isBlank)))

def eat (token : Str) (at_ : ℕ) : Checked Unit (Bool × ℕ) := do
  let ((), at_) ← space text at_
  let rest ← sliceText text at_
  if token.isPrefixOf rest then return (true, at_ + byteLen token) else return (false, at_)

/-- The dispatch of `Parser::value`. -/
def start (at_ : ℕ) : Checked Unit (Token × ℕ) := do
  let ((), at_) ← space text at_
  let rest ← sliceText text at_
  match words.find? fun word => word.1.isPrefixOf rest with
  | some (word, value) => return (.word value, at_ + byteLen word)
  | none =>
      match rest with
      | [] => .error (.refused ())
      | c :: _ =>
          if c = '"' then return (.string, at_)
          else if c = '[' then return (.array, at_ + 1)
          else if c = '{' then return (.object, at_ + 1)
          else return (.number, at_)

/-- The run of digits and signs of `Parser::value`. -/
def number (at_ : ℕ) : Checked Unit (ℤ × ℕ) := do
  let rest ← sliceText text at_
  let run := rest.takeWhile fun c => c = '-' || c.isDigit
  match parseI64 run with
  | some n => return (n, at_ + byteLen run)
  | none => .error (.refused ())

/-- The loop of `Parser::string` over the characters behind the first quote, with the byte index
of the next one: the decoded text and the index behind the closing quote.  An escape of four
digits takes the next four characters, whatever they are; with fewer left there is no closing
quote either. -/
def stringLoop : Str → ℕ → Str → Option (Str × ℕ)
  | [], _, _ => none
  | c :: rest, index, out =>
      if c = '"' then some (out, index + 1)
      else if c = '\\' then
        match rest with
        | [] => none
        | 'u' :: a :: b :: d :: e :: rest =>
            match (fromStrRadix [a, b, d, e]).bind fromU32 with
            | some decoded =>
                stringLoop rest (index + 2 + byteLen [a, b, d, e]) (out ++ [decoded])
            | none => none
        | escaped :: rest =>
            match slashEscape escaped with
            | some decoded => stringLoop rest (index + 1 + escaped.utf8Size) (out ++ [decoded])
            | none => none
      else if c.toNat < 0x20 then none
      else stringLoop rest (index + c.utf8Size) (out ++ [c])

def string (at_ : ℕ) : Checked Unit (Str × ℕ) := do
  let rest ← sliceText text at_
  match rest with
  | [] => .error (.refused ())
  | c :: rest =>
      failIf (c ≠ '"') (.refused ())
      match stringLoop rest 1 [] with
      | some (out, index) => return (out, at_ + index)
      | none => .error (.refused ())

/-- After an item: the closing token is looked for first. -/
def next (close : Char) (at_ : ℕ) : Checked Unit (Bool × ℕ) := do
  let (closed, at_) ← eat text [close] at_
  if closed then return (true, at_)
  else
    let (comma, at_) ← eat text [','] at_
    failIf (comma = false) (.refused ())
    return (false, at_)

/-- A key: blanks may stand before it. -/
def key (at_ : ℕ) : Checked Unit (Str × ℕ) := do
  let ((), at_) ← space text at_
  string text at_

/-- The colon behind a key. -/
def colon (at_ : ℕ) : Checked Unit (Unit × ℕ) := do
  let (found, at_) ← eat text [':'] at_
  failIf (found = false) (.refused ())
  return ((), at_)

/-- The end of `Json::parse`. -/
def finish (at_ : ℕ) : Checked Unit (Unit × ℕ) := do
  let ((), at_) ← space text at_
  failIf (at_ ≠ byteLen text) (.refused ())
  return ((), at_)

/-- `Parser`. -/
def reader : Reader Unit where
  bad := ()
  rounds := byteLen text + 1
  strict := false
  start := start text
  string := string text
  number := number text
  empty close := eat text [close]
  next := next text
  key := key text
  colon := colon text
  finish := finish text

end Parser

/-- `Json::parse`; `None` is its one refusal. -/
def parse (input : List UInt8) : Checked Unit Json :=
  match fromUtf8 input with
  | some text => (Parser.reader text).read Parser.maxParseDepth
  | none => .error (.refused ())

/-! ## What the readers of the adapters share -/

/-- The next byte is an ASCII character, and is taken when it is. -/
def eatByte (input : List UInt8) (c : Char) (at_ : ℕ) : Checked ε (Bool × ℕ) :=
  if input[at_]? = some c.toUInt8 then .ok (true, at_ + 1) else .ok (false, at_)

/-- `expect`. -/
def expectByte (bad : ε) (input : List UInt8) (c : Char) (at_ : ℕ) : Checked ε (Unit × ℕ) := do
  let (found, at_) ← eatByte input c at_
  failIf (found = false) (.refused bad)
  return ((), at_)

def isDigitByte (byte : UInt8) : Bool := '0'.toUInt8 ≤ byte && byte ≤ '9'.toUInt8

/-- A hexadecimal digit of either case. -/
def isHexByte (byte : UInt8) : Bool :=
  isDigitByte byte || ('a'.toUInt8 ≤ byte && byte ≤ 'f'.toUInt8) ||
    ('A'.toUInt8 ≤ byte && byte ≤ 'F'.toUInt8)

/-- The position behind the digits that start here. -/
def skipDigits (input : List UInt8) (at_ : ℕ) : ℕ :=
  at_ + ((input.drop at_).takeWhile isDigitByte).length

/-- The dispatch of `value` on the next byte, with the reader's own literals and its own test for
the start of a number. -/
def dispatch (bad : ε) (input : List UInt8) (literal : Str → Json → ℕ → Checked ε (Token × ℕ))
    (startsNumber : UInt8 → Bool) (at_ : ℕ) : Checked ε (Token × ℕ) :=
  match input[at_]? with
  | none => .error (.refused bad)
  | some byte =>
      if byte = 'n'.toUInt8 then literal "null".toList .null at_
      else if byte = 't'.toUInt8 then literal "true".toList (.bool true) at_
      else if byte = 'f'.toUInt8 then literal "false".toList (.bool false) at_
      else if byte = '"'.toUInt8 then .ok (.string, at_)
      else if byte = '['.toUInt8 then .ok (.array, at_ + 1)
      else if byte = '{'.toUInt8 then .ok (.object, at_ + 1)
      else if startsNumber byte then .ok (.number, at_)
      else .error (.refused bad)

/-- What a backslash starts: one byte that the reader's table knows, or a `u` and digits. -/
def byteEscape (bad : ε) (input : List UInt8) (table : Char → Option Char)
    (unicode : ℕ → Checked ε (Char × ℕ)) (at_ : ℕ) : Checked ε (Char × ℕ) :=
  match input[at_]? with
  | none => .error (.refused bad)
  | some byte =>
      if byte = 'u'.toUInt8 then unicode (at_ + 1)
      else
        match table (Char.ofNat byte.toNat) with
        | some c => .ok (c, at_ + 1)
        | none => .error (.refused bad)

/-- The loop of `string` over bytes, with the reader's own escapes.  Running out of rounds stands
for a loop that never ends. -/
def bytesLoop (bad : ε) (input : List UInt8) (escape : ℕ → Checked ε (Char × ℕ)) :
    ℕ → List UInt8 → ℕ → Checked ε (Str × ℕ)
  | 0, _, _ => .error .panicked
  | rounds + 1, out, at_ =>
      match input[at_]? with
      | none => .error (.refused bad)
      | some byte =>
          if byte = '"'.toUInt8 then
            match fromUtf8 out with
            | some s => .ok (s, at_ + 1)
            | none => .error (.refused bad)
          else if byte = '\\'.toUInt8 then do
            let (c, at_) ← escape (at_ + 1)
            bytesLoop bad input escape rounds (out ++ String.utf8EncodeChar c) at_
          else if byte < 0x20 then .error (.refused bad)
          else bytesLoop bad input escape rounds (out ++ [byte]) (at_ + 1)

/-- `string` over bytes. -/
def bytesString (bad : ε) (input : List UInt8) (escape : ℕ → Checked ε (Char × ℕ)) (at_ : ℕ) :
    Checked ε (Str × ℕ) := do
  let ((), at_) ← expectByte bad input '"' at_
  bytesLoop bad input escape (input.length + 1) [] at_

/-- A word of the input, when it stands here. -/
def bytesLiteral (bad : ε) (input : List UInt8) (word : Str) (value : Json) (at_ : ℕ) :
    Checked ε (Token × ℕ) := do
  let rest ← sliceBytes input at_
  failIf (¬ bytes word <+: rest) (.refused bad)
  return (.word value, at_ + (bytes word).length)

/-- The number between two positions. -/
def bytesNumber (bad : ε) (input : List UInt8) (start stop : ℕ) : Checked ε (ℤ × ℕ) :=
  match rangeOf input start stop with
  | none => .error .panicked
  | some field =>
      match (fromUtf8 field).bind parseI64 with
      | some n => .ok (n, stop)
      | none => .error (.refused bad)

/-- Four bytes of the input, if there are as many. -/
def fourBytes (input : List UInt8) (at_ : ℕ) : Option (List UInt8) := rangeOf input at_ (at_ + 4)

def atEnd (bad : ε) (length at_ : ℕ) : Checked ε (Unit × ℕ) := do
  failIf (at_ ≠ length) (.refused bad)
  return ((), at_)

/-- A reader of an adapter: no blanks, no repeated key, and its own literals, strings, numbers and
separators. -/
def byteReader (bad : ε) (input : List UInt8) (literal : Str → Json → ℕ → Checked ε (Token × ℕ))
    (startsNumber : UInt8 → Bool) (string : ℕ → Checked ε (Str × ℕ))
    (number : ℕ → Checked ε (ℤ × ℕ)) (next : Char → ℕ → Checked ε (Bool × ℕ))
    (colon : ℕ → Checked ε (Unit × ℕ)) : Reader ε where
  bad := bad
  rounds := input.length + 1
  strict := true
  start := dispatch bad input literal startsNumber
  string := string
  number := number
  empty := eatByte input
  next := next
  key := string
  colon := colon
  finish := atEnd bad input.length

def startsNumber (byte : UInt8) : Bool := byte = '-'.toUInt8 || isDigitByte byte

end Bran.Document.Json

/-! ## `docx.rs` -/

namespace Bran.Document.Docx

open Text CharCode Validation Words Scanner Json

def maxJsonDepth : ℕ := 256

namespace JsonReader

variable (input : List UInt8)

/-- `Refusal::MalformedContainer`, the one refusal of the reader. -/
def bad : Refusal := .malformedContainer

/-- `JsonReader::hex` and the filter behind it: the canonical writer escapes only C0 controls. -/
def unicode (at_ : ℕ) : Checked Refusal (Char × ℕ) :=
  match (fourBytes input at_).filter fun digits => digits.all isHexByte with
  | none => .error (.refused bad)
  | some digits =>
      match ((fromUtf8 digits).bind fromStrRadix).bind fromU32 with
      | some c => if c.toNat < 0x20 then .ok (c, at_ + 4) else .error (.refused bad)
      | none => .error (.refused bad)

/-- What a backslash starts. -/
def escape (at_ : ℕ) : Checked Refusal (Char × ℕ) :=
  byteEscape bad input simpleEscape (unicode input) at_

/-- The digits of a number behind its first byte. -/
def number (at_ : ℕ) : Checked Refusal (ℤ × ℕ) :=
  bytesNumber bad input at_ (skipDigits input (at_ + 1))

/-- The byte after an item. -/
def next (close : Char) (at_ : ℕ) : Checked Refusal (Bool × ℕ) :=
  match input[at_]? with
  | none => .error (.refused bad)
  | some byte =>
      if byte = ','.toUInt8 then .ok (false, at_ + 1)
      else if byte = close.toUInt8 then .ok (true, at_ + 1)
      else .error (.refused bad)

/-- `JsonReader::literal` of a colon. -/
def colon (at_ : ℕ) : Checked Refusal (Unit × ℕ) := do
  let rest ← sliceBytes input at_
  failIf (¬ bytes [':'] <+: rest) (.refused bad)
  return ((), at_ + 1)

/-- `JsonReader`. -/
def reader : Json.Reader Refusal :=
  byteReader bad input (bytesLiteral bad input) startsNumber
    (bytesString bad input (escape input)) (number input) (next input) (colon input)

end JsonReader

def parseJson (input : List UInt8) : Checked Refusal Json :=
  (JsonReader.reader input).read (maxJsonDepth + 1)

end Bran.Document.Docx

/-! ## `xlsx.rs` -/

namespace Bran.Document.Xlsx

open Text CharCode Validation Words Scanner Json

/-- The depth the reader stops at. -/
def maxJsonDepth : ℕ := 32

namespace JsonReader

variable (input : List UInt8)

/-- `Refusal::MalformedContainer`, the one refusal of the reader. -/
def bad : Refusal := .malformedContainer

/-- Four digits, or a plus sign and three. -/
def unicode (at_ : ℕ) : Checked Refusal (Char × ℕ) :=
  match ((fourBytes input at_).bind fromUtf8).bind fromStrRadix with
  | none => .error (.refused bad)
  | some code =>
      match fromU32 code with
      | some c => .ok (c, at_ + 4)
      | none => .error (.refused bad)

/-- What a backslash starts. -/
def escape (at_ : ℕ) : Checked Refusal (Char × ℕ) :=
  byteEscape bad input slashEscape (unicode input) at_

/-- The sign of a number and its digits. -/
def number (at_ : ℕ) : Checked Refusal (ℤ × ℕ) := do
  let (_, behindSign) ← eatByte input '-' at_
  bytesNumber bad input at_ (skipDigits input behindSign)

/-- After an item: the comma is looked for first. -/
def next (close : Char) (at_ : ℕ) : Checked Refusal (Bool × ℕ) := do
  let (comma, at_) ← eatByte input ',' at_
  if comma then return (false, at_)
  else
    let ((), at_) ← expectByte bad input close at_
    return (true, at_)

/-- `JsonReader`. -/
def reader : Json.Reader Refusal :=
  byteReader bad input (bytesLiteral bad input) startsNumber
    (bytesString bad input (escape input)) (number input) (next input) (expectByte bad input ':')

end JsonReader

def parseCanonical (input : List UInt8) : Checked Refusal Json :=
  (JsonReader.reader input).read (maxJsonDepth + 1)

end Bran.Document.Xlsx

/-! ## `pptx.rs` -/

namespace Bran.Document.Pptx

open Text CharCode Validation Words Scanner Json

def maxJsonDepth : ℕ := 256

namespace JsonParser

variable (text : Str)

def bad : Refusal := .malformedContainer

/-- A word of the text, when it stands here. -/
def literal (word : Str) (value : Json) (at_ : ℕ) : Checked Refusal (Token × ℕ) := do
  let rest ← sliceText text at_
  failIf (word.isPrefixOf rest = false) (.refused bad)
  return (.word value, at_ + byteLen word)

/-- The sign of a number and its digits. -/
def number (at_ : ℕ) : Checked Refusal (ℤ × ℕ) := do
  let (_, behindSign) ← eatByte (bytes text) '-' at_
  let stop := skipDigits (bytes text) behindSign
  let field ← sliceTextTo text at_ stop
  match parseI64 field with
  | some n => return (n, stop)
  | none => .error (.refused bad)

/-- Four hexadecimal digits. -/
def unicode (at_ : ℕ) : Checked Refusal (Char × ℕ) :=
  match getText text at_ (at_ + 4) with
  | none => .error (.refused bad)
  | some digits =>
      if (bytes digits).all isHexByte then
        match (fromStrRadix digits).bind fromU32 with
        | some c => .ok (c, at_ + 4)
        | none => .error (.refused bad)
      else .error (.refused bad)

/-- What a backslash starts. -/
def escape (at_ : ℕ) : Checked Refusal (Char × ℕ) :=
  byteEscape bad (bytes text) slashEscape (unicode text) at_

/-- The loop of `JsonParser::string`: up to the next quote, backslash or control at once. -/
def stringLoop : ℕ → Str → ℕ → Checked Refusal (Str × ℕ)
  | 0, _, _ => .error .panicked
  | rounds + 1, out, at_ => do
      let rest ← sliceText text at_
      let run := rest.takeWhile fun c => !(c = '"' || c = '\\' || c < ' ')
      -- `find` gives no place to stop when nothing stops the run
      failIf (run = rest) (.refused bad)
      let stop := at_ + byteLen run
      match (bytes text)[stop]? with
      | none => .error (.refused bad)
      | some byte =>
          if byte = '"'.toUInt8 then return (out ++ run, stop + 1)
          else if byte = '\\'.toUInt8 then
            let (c, at_) ← escape text (stop + 1)
            stringLoop rounds (out ++ run ++ [c]) at_
          else .error (.refused bad)

def string (at_ : ℕ) : Checked Refusal (Str × ℕ) := do
  let ((), at_) ← expectByte bad (bytes text) '"' at_
  stringLoop text (byteLen text + 1) [] at_

/-- After an item: the closing byte is looked for first. -/
def next (close : Char) (at_ : ℕ) : Checked Refusal (Bool × ℕ) := do
  let (closed, at_) ← eatByte (bytes text) close at_
  if closed then return (true, at_)
  else
    let ((), at_) ← expectByte bad (bytes text) ',' at_
    return (false, at_)

/-- `JsonParser`. -/
def reader : Json.Reader Refusal :=
  byteReader bad (bytes text) (literal text) (fun _ => true) (string text) (number text)
    (next text) (expectByte bad (bytes text) ':')

end JsonParser

def parseCanonical (input : List UInt8) : Checked Refusal Json :=
  match fromUtf8 input with
  | some text => (JsonParser.reader text).read (maxJsonDepth + 1)
  | none => .error (.refused JsonParser.bad)

end Bran.Document.Pptx
