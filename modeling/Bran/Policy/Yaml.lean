import Bran.Library.CharCode
import Bran.Library.OrdMap
import Bran.Library.Validation

/-!
# The policy subset of YAML

The parser of `policy.rs`: a policy text is cut into line tokens, and mappings and sequences are
built from the tokens by their indentation.  Keys are compared as they are spelled.
-/

namespace Bran.Policy

open Text Validation

inductive PolicyError
  | unsafePath (path : Str)
  | io (message : Str)
  | malformedYaml (line : ℕ) (message : Str)
  | missingSchemaVersion
  | unsupportedVersion (found : Str)
  | unknownField (field : Str)
  | unknownNestedField (parent field : Str)
  | invalidFieldShape (field expected : Str)
  | oversized (size max : ℕ)
  | invalidMigrationState
  | invalidCoverageClass
  | emptyExclusionReason
  | unsafeDocumentPath
  | duplicateKey (line : ℕ) (key : Str)
  | duplicateDocumentPath (path : Str)
  | overlappingClassification (path first second : Str)
  deriving DecidableEq

/-- `YamlValue`; the entries of a mapping are those of a `BTreeMap`. -/
inductive YamlValue
  | scalar (text : Str)
  | map (entries : List (Str × YamlValue))
  | seq (items : List Str)

/-- The entries of a mapping. -/
abbrev Node := List (Str × YamlValue)

/-! ## Scalars -/

/-- The text between two quotation marks. -/
def inner (mark : Char) (raw : Str) : Option Str :=
  (stripStart [mark] raw).bind (stripEnd [mark])

/-- A character that a quoted scalar must not hold. -/
def isControl (c : Char) : Bool := c.toNat < 0x20 || c.toNat = 0x7F

/-- The loop of `decode_double_quoted`. -/
def decodeDouble (line : ℕ) : Str → Except PolicyError Str
  | [] => .ok []
  | '\\' :: '"' :: rest => do return '"' :: (← decodeDouble line rest)
  | '\\' :: '\\' :: rest => do return '\\' :: (← decodeDouble line rest)
  | ['\\'] =>
      .error (.malformedYaml line "dangling backslash at end of double-quoted scalar".toList)
  | '\\' :: _ =>
      .error (.malformedYaml line "unsupported escape in double-quoted scalar".toList)
  | '"' :: _ =>
      .error (.malformedYaml line "unescaped double quote in double-quoted scalar".toList)
  | c :: rest =>
      if isControl c then
        .error (.malformedYaml line "control character in double-quoted scalar".toList)
      else do return c :: (← decodeDouble line rest)

def decodeDoubleQuoted (raw : Str) (line : ℕ) : Except PolicyError Str :=
  match inner '"' raw with
  | none => .error (.malformedYaml line "unmatched double-quote delimiter".toList)
  | some text => decodeDouble line text

/-- The loop of `decode_single_quoted`. -/
def decodeSingle (line : ℕ) : Str → Except PolicyError Str
  | [] => .ok []
  | '\'' :: '\'' :: rest => do return '\'' :: (← decodeSingle line rest)
  | '\'' :: _ =>
      .error (.malformedYaml line "isolated apostrophe in single-quoted scalar".toList)
  | c :: rest =>
      if isControl c then
        .error (.malformedYaml line "control character in single-quoted scalar".toList)
      else do return c :: (← decodeSingle line rest)

def decodeSingleQuoted (raw : Str) (line : ℕ) : Except PolicyError Str :=
  match inner '\'' raw with
  | none => .error (.malformedYaml line "unmatched single-quote delimiter".toList)
  | some text => decodeSingle line text

def parseScalar (raw : Str) (line : ℕ) : Except PolicyError Str :=
  let s := trim raw
  if s.head? = some '"' then decodeDoubleQuoted s line
  else if s.head? = some '\'' then decodeSingleQuoted s line
  else if s.head? ∈ ['{', '[', '|', '>'].map some then
    .error (.malformedYaml line "unsupported YAML construct".toList)
  else .ok s

def flowItem (raw : Str) (line : ℕ) : Except PolicyError Str :=
  let item := trim raw
  if item = [] then .error (.malformedYaml line "empty flow-sequence item".toList)
  else parseScalar item line

/-- Whether a scan is inside of quotation marks, or behind a backslash. -/
structure Quotes where
  inSingle : Bool
  inDouble : Bool
  escaped : Bool
  deriving DecidableEq

/-- Outside of quotation marks. -/
def Quotes.none : Quotes := ⟨false, false, false⟩

/-- The loop of `parse_flow_sequence`; `item` is the text from `start` on. -/
def flowItems (line : ℕ) (item : Str) (quotes : Quotes) : Str → Except PolicyError (List Str)
  | [] => do
      failIf ((quotes.inSingle || quotes.inDouble || quotes.escaped) = true)
        (.malformedYaml line "unmatched quote in flow sequence".toList)
      return [← flowItem item line]
  | c :: rest =>
      if quotes.escaped then flowItems line (item ++ [c]) { quotes with escaped := false } rest
      else if c = '\\' && quotes.inDouble then
        flowItems line (item ++ [c]) { quotes with escaped := true } rest
      else if c = '\'' && !quotes.inDouble then
        flowItems line (item ++ [c]) { quotes with inSingle := !quotes.inSingle } rest
      else if c = '"' && !quotes.inSingle then
        flowItems line (item ++ [c]) { quotes with inDouble := !quotes.inDouble } rest
      else if c = ',' && !quotes.inSingle && !quotes.inDouble then do
        let first ← flowItem item line
        return first :: (← flowItems line [] quotes rest)
      else flowItems line (item ++ [c]) quotes rest

def parseFlowSequence (raw : Str) (line : ℕ) : Except PolicyError (List Str) :=
  match (stripStart ['['] raw).bind (stripEnd [']']) with
  | none => .error (.malformedYaml line "unmatched flow-sequence delimiter".toList)
  | some text => if trim text = [] then .ok [] else flowItems line [] .none (trim text)

def parseInlineValue (raw : Str) (line : ℕ) : Except PolicyError YamlValue :=
  let value := trim raw
  if value.head? = some '[' then do return .seq (← parseFlowSequence value line)
  else do return .scalar (← parseScalar value line)

/-! ## Lines -/

/-- The text before and behind the first of a character that is not in quotation marks. -/
def splitUnquoted (mark : Char) (inSingle inDouble : Bool) : Str → Option (Str × Str)
  | [] => none
  | c :: rest =>
      if c = '"' && !inSingle then
        (splitUnquoted mark inSingle (!inDouble) rest).map fun halves => (c :: halves.1, halves.2)
      else if c = '\'' && !inDouble then
        (splitUnquoted mark (!inSingle) inDouble rest).map fun halves => (c :: halves.1, halves.2)
      else if c = mark && !inSingle && !inDouble then some ([], rest)
      else (splitUnquoted mark inSingle inDouble rest).map fun halves => (c :: halves.1, halves.2)

def splitKeyValue (line : Str) : Option (Str × Str) := splitUnquoted ':' false false line

def stripInlineComment (s : Str) : Str :=
  match splitUnquoted '#' false false s with
  | none => s
  | some (before, _) => trimEnd before

inductive Token
  | mappingKey (indent line : ℕ) (key : Str) (value : YamlValue)
  | sequenceEntry (indent line : ℕ) (value : Str)
  | nestedKey (indent line : ℕ) (key : Str)

/-- `token_indent`. -/
def Token.indent : Token → ℕ
  | .mappingKey indent _ _ _ => indent
  | .sequenceEntry indent _ _ => indent
  | .nestedKey indent _ _ => indent

/-- A line that is neither blank nor a comment. -/
def tokenizeTrimmed (indent line : ℕ) (trimmed : Str) : Except PolicyError Token :=
  match stripStart "- ".toList (trimStart trimmed) with
  | some rest => do return .sequenceEntry indent line (← parseScalar (stripInlineComment rest) line)
  | none =>
      match splitKeyValue trimmed with
      | none => .error (.malformedYaml line "unexpected content".toList)
      | some (key, rest) =>
          if trim key = [] then .error (.malformedYaml line "empty mapping key".toList)
          else if trim rest = [] then .ok (.nestedKey indent line (trim key))
          else do
            let value ← parseInlineValue (stripInlineComment (trim rest)) line
            return .mappingKey indent line (trim key) value

/-- The loop of `tokenize`, with the number of the next line. -/
def tokenizeLines : ℕ → List Str → Except PolicyError (List Token)
  | _, [] => .ok []
  | number, line :: rest =>
      if trimEnd line = [] ∨ (trimEnd line).head? = some '#' then tokenizeLines (number + 1) rest
      else do
        let token ← tokenizeTrimmed (byteLen line - byteLen (trimStart line)) number (trimEnd line)
        return token :: (← tokenizeLines (number + 1) rest)

def tokenize (raw : Str) : Except PolicyError (List Token) := tokenizeLines 1 (lines raw)

/-! ## Blocks -/

/-- `eat_sequence`: the items at an indentation, and the tokens behind them. -/
def eatSequence (indent : ℕ) : List Token → List Str × List Token
  | .sequenceEntry itemIndent line value :: rest =>
      if itemIndent = indent then
        let eaten := eatSequence indent rest
        (value :: eaten.1, eaten.2)
      else ([], .sequenceEntry itemIndent line value :: rest)
  | tokens => ([], tokens)

/-- A key is stored once. -/
def insertNew (map : Node) (line : ℕ) (key : Str) (value : YamlValue) : Except PolicyError Node := do
  failIf ((OrdMap.findEntry key map).isSome = true) (.duplicateKey line key)
  .ok (OrdMap.insertEntry key value map)

/-- `eat_mapping`: the entries at an indentation, and the tokens behind them.  Each call is on fewer
tokens, so that fuel for their number is enough. -/
def eatMapping : ℕ → ℕ → List Token → Node → Except PolicyError (Node × List Token)
  | 0, _, tokens, map => .ok (map, tokens)
  | _ + 1, _, [], map => .ok (map, [])
  | _ + 1, _, .sequenceEntry itemIndent line value :: rest, map =>
      .ok (map, .sequenceEntry itemIndent line value :: rest)
  | fuel + 1, indent, .mappingKey keyIndent line key value :: rest, map =>
      if keyIndent ≠ indent then .ok (map, .mappingKey keyIndent line key value :: rest)
      else do
        let map ← insertNew map line key value
        eatMapping fuel indent rest map
  | fuel + 1, indent, .nestedKey keyIndent line key :: rest, map =>
      if keyIndent ≠ indent then .ok (map, .nestedKey keyIndent line key :: rest)
      else do
        failIf ((OrdMap.findEntry key map).isSome = true) (.duplicateKey line key)
        match rest with
        | [] => .ok (OrdMap.insertEntry key (.map []) map, [])
        | child :: after =>
            -- a key without deeper lines has no children
            if child.indent ≤ indent then
              eatMapping fuel indent (child :: after) (OrdMap.insertEntry key (.map []) map)
            else
              match child with
              | .sequenceEntry _ _ _ =>
                  let eaten := eatSequence child.indent (child :: after)
                  eatMapping fuel indent eaten.2 (OrdMap.insertEntry key (.seq eaten.1) map)
              | _ => do
                  let eaten ← eatMapping fuel child.indent (child :: after) []
                  eatMapping fuel indent eaten.2 (OrdMap.insertEntry key (.map eaten.1) map)

/-- The value below a key at the top; here a child may stand at any indentation. -/
def eatChildren : List Token → Except PolicyError (YamlValue × List Token)
  | [] => .ok (.map [], [])
  | child :: after =>
      match child with
      | .sequenceEntry _ _ _ =>
          let eaten := eatSequence child.indent (child :: after)
          .ok (.seq eaten.1, eaten.2)
      | _ => do
          let eaten ← eatMapping (after.length + 1) child.indent (child :: after) []
          .ok (.map eaten.1, eaten.2)

/-- The loop of `build_parsed_policy`. -/
def buildParsedPolicy : ℕ → List Token → Node → Except PolicyError Node
  | _, [], map => .ok map
  | fuel + 1, .mappingKey 0 line key value :: rest, map => do
      let map ← insertNew map line key value
      buildParsedPolicy fuel rest map
  | fuel + 1, .nestedKey 0 line key :: rest, map => do
      failIf ((OrdMap.findEntry key map).isSome = true) (.duplicateKey line key)
      let eaten ← eatChildren rest
      buildParsedPolicy fuel eaten.2 (OrdMap.insertEntry key eaten.1 map)
  | _, _, _ => .error (.malformedYaml 0 "unexpected indented content at top level".toList)

def parsePolicyYaml (raw : Str) : Except PolicyError Node := do
  let tokens ← tokenize raw
  buildParsedPolicy tokens.length tokens []

end Bran.Policy
