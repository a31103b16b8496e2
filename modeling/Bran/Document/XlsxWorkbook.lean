import Bran.Document.Canonical
import Bran.Document.Intake
import Bran.Document.XlsxFormula
import Bran.Library.CharCode
import Mathlib.Data.Prod.Lex
import Mathlib.Order.WithBot

/-!
# Where a workbook holds formulas

The cells, the defined names and the data validations of `xlsx.rs`, read into the grid
projection and written back, with the formula check at each of the six places.
-/

namespace Bran.Document.Xlsx

open Text Validation CharCode List OrdMap

/-! ## Small helpers -/

def flag (value : Bool) : Json := if value then .bool true else .null

def opt : Option Str → Json
  | some value => .str value
  | none => .null

/-- Whether a value is `Json::Null`. -/
def isNull : Json → Bool
  | .null => true
  | _ => false

/-- `obj`: an object without its `Null` fields. -/
def obj (pairs : List (Str × Json)) : Json :=
  Json.ofMap (OrdMap.ofList (pairs.filter fun pair => !isNull pair.2))

def typed (kind : Str) (value : Json) : Json :=
  obj [("type".toList, .str kind), ("value".toList, value)]

def strField (json : Json) (key : Str) : Option Str :=
  match json.get key with
  | some (.str value) => some value
  | _ => none

def text (json : Json) (key : Str) : Except Refusal Str :=
  match strField json key with
  | some value => .ok value
  | none => .error .exportUnsupported

def optText (json : Json) (key : Str) : Except Refusal (Option Str) :=
  match json.get key with
  | none => .ok none
  | some (.str value) => .ok (some value)
  | some _ => .error .exportUnsupported

def number (bound : ℕ) (value : Str) : Option ℕ := parseUnsigned bound value

def attr (attributes : List (Str × Str)) (key : Str) : Option Str :=
  (attributes.find? fun entry => entry.1 == key).map Prod.snd

def required (attributes : List (Str × Str)) (key : Str) : Except Refusal Str :=
  match attr attributes key with
  | some value => .ok value
  | none => .error .malformedContainer

def xmlTrue (value : Option Str) : Bool :=
  value == some ['1'] || value == some "true".toList

/-! ## Text encoding -/

/-- The text `escape` writes for one character. -/
def escapeChar (c : Char) : Except Refusal Str :=
  if c = '&' then .ok "&amp;".toList
  else if c = '<' then .ok "&lt;".toList
  else if c = '>' then .ok "&gt;".toList
  else if c = '\r' then .ok "&#13;".toList
  else if c = '\t' ∨ c = '\n' then .ok [c]
  else if c.toNat < 0x20 ∨ c.toNat = 0xFFFE ∨ c.toNat = 0xFFFF then .error .exportUnsupported
  else .ok [c]

def escape (value : Str) : Except Refusal Str := do
  let pieces ← value.mapM escapeChar
  return pieces.flatten

/-- The replacements of `attribute`. -/
def attributeChar (c : Char) : Str :=
  if c = '"' then "&quot;".toList
  else if c = '\t' then "&#9;".toList
  else if c = '\n' then "&#10;".toList
  else if c = '\r' then "&#13;".toList
  else [c]

/-- `attribute`. -/
def attributeText (value : Str) : Except Refusal Str := do
  return (← escape value).flatMap attributeChar

def xstringEscapeAt : Str → Option Char
  | '_' :: 'x' :: a :: b :: c :: d :: '_' :: _ =>
      if [a, b, c, d].all isHexDigit then fromU32 (hexNumber [a, b, c, d]) else none
  | _ => none

/-- A hexadecimal digit in upper case, as `{:X}` formats it. -/
def upperHexadecimal (width n : ℕ) : Str := (hexadecimal width n).map Char.toUpper

def encodeXstring : Str → Str
  | [] => []
  | c :: rest =>
      (if c = '_' ∧ (xstringEscapeAt (c :: rest)).isSome then "_x005F_".toList
        else if (c.toNat < 0x20 ∧ c ≠ '\t' ∧ c ≠ '\n' ∧ c ≠ '\r') ∨ c.toNat = 0xFFFE ∨
            c.toNat = 0xFFFF then
          ['_', 'x'] ++ upperHexadecimal 4 c.toNat ++ ['_']
        else [c]) ++ encodeXstring rest

/-- `decode_xstring`, with the characters of the last escape still to pass. -/
def decodeXstringFrom : ℕ → Str → Str
  | _, [] => []
  | skip + 1, _ :: rest => decodeXstringFrom skip rest
  | 0, c :: rest =>
      match xstringEscapeAt (c :: rest) with
      | some decoded => decoded :: decodeXstringFrom 6 rest
      | none => c :: decodeXstringFrom 0 rest

def decodeXstring (value : Str) : Str := decodeXstringFrom 0 value

/-! ## References -/

def maxRow : ℕ := 1048576

def maxColumn : ℕ := 16384

/-- The column of its letters, in base 26 from `A` as one. -/
def columnNumber (letters : Str) : ℕ :=
  letters.foldl (fun column c => column * 26 + (c.toNat - 'A'.toNat + 1)) 0

def cellRef (value : Str) : Option (ℕ × ℕ) := do
  let letters := value.takeWhile Char.isUpper
  let digits := value.dropWhile Char.isUpper
  -- `find` gives no place to split at when every character is a letter
  guard (digits ≠ [])
  guard (letters ≠ [] ∧ letters.length ≤ 3 ∧ digits.head? ≠ some '0')
  let row ← number (2 ^ 32) digits
  let column := columnNumber letters
  guard (1 ≤ row ∧ row ≤ maxRow ∧ 1 ≤ column ∧ column ≤ maxColumn)
  return (row, column)

def range (value : Str) : Option ((ℕ × ℕ) × (ℕ × ℕ)) :=
  match value.splitOn ':' with
  | [corner] => (cellRef corner).map fun first => (first, first)
  | [corner, corner'] => do
      let first ← cellRef corner
      let second ← cellRef corner'
      return (first, second)
  | _ => none

/-- The letters of a column, the last one first; every round divides by 26. -/
def columnLetters : ℕ → ℕ → Str
  | 0, _ => []
  | fuel + 1, rest =>
      if rest = 0 then []
      else Char.ofNat ('A'.toNat + (rest - 1) % 26) :: columnLetters fuel ((rest - 1) / 26)

def reference (row column : ℕ) : Str := (columnLetters column column).reverse ++ decimal row

/-- `str::replace` of a doubled apostrophe by one. -/
def undoubled : Str → Str
  | '\'' :: '\'' :: rest => '\'' :: undoubled rest
  | c :: rest => c :: undoubled rest
  | [] => []

def simpleReference (value : Str) : Option (Str × ℕ × ℕ) := do
  let (sheet, cells) ← rsplitOnce '!' value
  let sheet := match (stripStart ['\''] sheet).bind (stripEnd ['\'']) with
    | some quoted => undoubled quoted
    | none => sheet
  let ((row, column), _) ← range (cells.filter (· ≠ '$'))
  return (sheet, row, column)

def encodeId (name : Str) : Str :=
  (bytes name).flatMap fun byte =>
    let c := Char.ofNat byte.toNat
    if c.isAlphanum ∨ c = '.' ∨ c = '-' then [c] else '_' :: upperHexadecimal 2 byte.toNat

def anchor (id role sheet : Str) (row column : ℕ) (content : Str) : Json :=
  obj [("family".toList, .str "grid".toList),
    ("id".toList, .str id),
    ("locator".toList, obj [("column".toList, .int column),
      ("family".toList, .str "grid".toList),
      ("row".toList, .int row),
      ("sheet".toList, .str sheet)]),
    ("role".toList, .str role),
    ("text_digest".toList, .str (sha256Hex (bytes content))),
    ("text".toList, .str content)]

/-! ## Import -/

/-- `Entry`, ordered by its fields. -/
abbrev Entry := OrdMap Str Str

instance : LinearOrder Entry :=
  LinearOrder.lift' (fun entry => entry.entries.map toLex) fun first second h => by
    obtain ⟨first, hfirst⟩ := first
    obtain ⟨second, hsecond⟩ := second
    have heq : first = second := map_injective_iff.mpr toLex.injective h
    subst heq
    rfl

/-- What the reader collects: the receipt codes and the features that are not modelled. -/
structure Reader where
  codes : OrdSet Str
  unsupported : OrdSet Entry

def Reader.note (reader : Reader) (entry : Entry) : Reader where
  codes := reader.codes.insert
    ("unsupported-".toList ++ (entry.find? "kind".toList).getD []) ()
  unsupported := reader.unsupported.insert entry ()

def Reader.quarantineFormula (reader : Reader) (formula : Str) : Reader × Bool :=
  if activeFormula formula then
    ({ reader with codes := reader.codes.insert "formula-quarantined".toList () }, true)
  else (reader, false)

structure RawCell where
  row : ℕ
  column : ℕ
  kind : Str
  style : Option ℕ
  value : Option Str
  inline : Option Str
  formula : Option (OrdMap Str Json)

/-- What `str::parse::<f64>` makes of a text: whether it is a finite number. -/
abbrev ParsesFinite := Str → Bool

def isNumber (finite : ParsesFinite) (value : Str) : Bool :=
  !List.isPrefixOf ['+'] value && finite value

/-- The typed value of a `<v>` or `<is>` text, by the kind of its cell. -/
def typedValue (finite : ParsesFinite) (kind content : Str) (shared : List Str) :
    Except Refusal Json :=
  if kind = "s".toList then
    match (number (2 ^ 64) content).bind (shared[·]?) with
    | some value => .ok (typed "string".toList (.str value))
    | none => .error .malformedContainer
  else if kind = "inlineStr".toList then .ok (typed "string".toList (.str content))
  else if kind = "str".toList then
    .ok (typed "string".toList (.str (decodeXstring content)))
  else if kind = "b".toList then
    if content = ['0'] ∨ content = ['1'] then
      .ok (typed "boolean".toList (.bool (content = ['1'])))
    else .error .malformedContainer
  else if kind = "e".toList then .ok (typed "error".toList (.str content))
  else if kind = "d".toList ∧ content ≠ [] then .ok (typed "date".toList (.str content))
  else if kind = "n".toList ∧ isNumber finite content then
    .ok (typed "number".toList (.str content))
  else .error .malformedContainer

/-- The number format of a style, where the cell has one that is not the default. -/
def cellFormat (styles : List (Option Json)) (style : Option ℕ) : Except Refusal (Option Json) :=
  match styles[style.getD 0]? with
  | some format => .ok format
  | none => if style.getD 0 = 0 then .ok none else .error .malformedContainer

/-- The formula of a cell, marked when it is active. -/
def Reader.formula (reader : Reader) (sheet : Str) (raw : RawCell) (formula : OrdMap Str Json) :
    Reader × OrdMap Str Json :=
  let reader := match formula.find? "kind".toList with
    | some (.str kind) =>
        if kind = "dataTable".toList then
          reader.note (.ofList [("kind".toList, "data-table-formula".toList),
            ("ref".toList, reference raw.row raw.column), ("sheet".toList, sheet)])
        else reader
    | _ => reader
  match formula.find? "text".toList with
  | some (.str content) =>
      let (reader, active) := reader.quarantineFormula content
      (reader, if active then formula.insert "quarantined".toList (.bool true) else formula)
  | _ => (reader, formula)

/-- The typed value of a cell that has one. -/
def rawValue (finite : ParsesFinite) (raw : RawCell) (shared : List Str) :
    Except Refusal (Option Json) :=
  match if raw.kind = "inlineStr".toList then raw.inline else raw.value with
  | none => .ok none
  | some content => (typedValue finite raw.kind content shared).map some

/-- The fields every cell has, and its number format where it has one. -/
def cellFields (raw : RawCell) (format : Option Json) : OrdMap Str Json :=
  let cell := .ofList [("ref".toList, .str (reference raw.row raw.column)),
    ("row".toList, .int raw.row), ("column".toList, .int raw.column)]
  match format with
  | some format => cell.insert "number_format".toList format
  | none => cell

/-- A cell with the cached result of its formula, which nothing recalculates. -/
def Reader.cached (reader : Reader) (cell : OrdMap Str Json) :
    Option Json → OrdMap Str Json × Reader
  | some cached => (cell.insert "cached".toList cached, { reader with
      codes := reader.codes.insert "formula-cached-result-not-recalculated".toList () })
  | none => (cell, reader)

def Reader.typedCell (finite : ParsesFinite) (reader : Reader) (raw : RawCell)
    (shared : List Str) (styles : List (Option Json)) (sheet : Str) :
    Except Refusal (Option (OrdMap Str Json) × Reader) := do
  let value ← rawValue finite raw shared
  let format ← cellFormat styles raw.style
  let cell := cellFields raw format
  match raw.formula with
  | some formula =>
      let (reader, formula) := reader.formula sheet raw formula
      let (cell, reader) := reader.cached (cell.insert "formula".toList (Json.ofMap formula)) value
      return (some cell, reader)
  | none => return (value.map (cell.insert "value".toList), reader)

def Reader.validationFormula (reader : Reader) (validation : OrdMap Str Json) (key : Str) :
    Reader × OrdMap Str Json :=
  match validation.find? key with
  | some (.str formula) =>
      let (reader, active) := reader.quarantineFormula formula
      (reader, if active then validation.insert "quarantined".toList (.bool true) else validation)
  | _ => (reader, validation)

/-- The check of the two formulas of a data validation in `Reader::worksheet`. -/
def Reader.validation (reader : Reader) (validation : OrdMap Str Json) :
    Reader × OrdMap Str Json :=
  let (reader, validation) := reader.validationFormula validation "formula1".toList
  reader.validationFormula validation "formula2".toList

/-- The sheet a defined name is local to: its name and its id. -/
abbrev Scope := Option (Str × ℕ)

/-- The scope of a defined name; `none` for a sheet that is not imported. -/
def nameScope (attributes : List (Str × Str)) (positions : List Scope) :
    Except Refusal (Option Scope) :=
  match attr attributes "localSheetId".toList with
  | none => .ok (some none)
  | some position =>
      match (number (2 ^ 64) position).bind (positions[·]?) with
      | none => .error .malformedContainer
      | some none => .ok none
      | some (some sheet) => .ok (some (some sheet))

/-- The anchor of a defined name that names cells of an imported sheet. -/
def nameAnchor (ids : OrdMap Str ℕ) (name value : Str) (scope : Scope) : List Json :=
  match simpleReference value with
  | none => []
  | some (sheet, row, column) =>
      if ids.contains sheet then
        let id := match scope with
          | some (_, id) => "anc:xlsx:s".toList ++ decimal id ++ ":name-".toList ++ encodeId name
          | none => "anc:xlsx:name-".toList ++ encodeId name
        [anchor id "range".toList sheet row column (name ++ " = ".toList ++ value)]
      else []

/-- The key a defined name is stored under, from its lowercase name. -/
abbrev NameKey := Str ×ₗ WithBot ℕ

/-- What the loop over the defined names builds. -/
structure Names where
  reader : Reader
  anchors : List Json
  names : OrdMap NameKey Json

/-- The loop over the defined names in `Reader::workbook`, for one name.  `lowercase` is
`str::to_lowercase`. -/
def Names.define (lowercase : Str → Str) (source : Str) (positions : List Scope)
    (ids : OrdMap Str ℕ) (state : Names) (attributes : List (Str × Str)) (value : Str) :
    Except Refusal Names := do
  let name ← required attributes "name".toList
  match ← nameScope attributes positions with
  | none =>
      return { state with reader := state.reader.note (.ofList
        [("kind".toList, "defined-name".toList), ("name".toList, name),
          ("source".toList, source)]) }
  | some scope =>
      let key : NameKey := toLex (lowercase name, (scope.map Prod.snd : Option ℕ))
      let (reader, quarantined) := state.reader.quarantineFormula value
      let json := obj [("name".toList, .str name), ("value".toList, .str value),
        ("hidden".toList, flag (xmlTrue (attr attributes "hidden".toList))),
        ("quarantined".toList, flag quarantined),
        ("scope".toList, opt (scope.map Prod.fst))]
      failIf (state.names.contains key = true) .malformedContainer
      return { reader, anchors := state.anchors ++ nameAnchor ids name value scope,
               names := state.names.insert key json }

/-! ## Export -/

inductive NumberFormat where
  | builtin (id : ℤ)
  | custom (code : Str)
  deriving DecidableEq

/-- `Writer`, as its cells read it: the index of each number format. -/
structure Writer where
  formats : NumberFormat → Option ℕ

def Writer.formatIndex (writer : Writer) (format : NumberFormat) : Except Refusal ℕ :=
  match writer.formats format with
  | some index => .ok index
  | none => .error .exportUnsupported

/-- The style attribute of a cell. -/
def Writer.style (writer : Writer) (cell : Json) : Except Refusal Str :=
  let written (format : NumberFormat) : Except Refusal Str := do
    return " s=\"".toList ++ decimal (← writer.formatIndex format) ++ ['"']
  match cell.get "number_format".toList with
  | none => .ok []
  | some (.int id) => written (.builtin id)
  | some (.str code) => written (.custom code)
  | some _ => .error .exportUnsupported

/-- A `t` attribute. -/
def kindAttribute (kind : Str) : Str := " t=\"".toList ++ kind ++ ['"']

def valueXml (finite : ParsesFinite) (value : Json) (stringKind : Str) :
    Except Refusal (Str × Str) :=
  match strField value "type".toList, value.get "value".toList with
  | some kind, some (.str content) =>
      if kind = "number".toList ∧ isNumber finite content then .ok ([], content)
      else if kind = "string".toList then do
        return (kindAttribute stringKind, ← escape (encodeXstring content))
      else if kind = "error".toList then do
        return (kindAttribute ['e'], ← escape content)
      else if kind = "date".toList ∧ content ≠ [] then do
        return (kindAttribute ['d'], ← escape content)
      else .error .exportUnsupported
  | some kind, some (.bool content) =>
      if kind = "boolean".toList then
        .ok (kindAttribute ['b'], if content then ['1'] else ['0'])
      else .error .exportUnsupported
  | _, _ => .error .exportUnsupported

/-- The attributes of an `<f>` element. -/
def formulaAttributes (formula : Json) : Except Refusal Str := do
  let kind ← match ← optText formula "kind".toList with
    | none => .ok []
    | some kind =>
        if kind = "shared".toList ∨ kind = "array".toList then .ok (kindAttribute kind)
        else .error .exportUnsupported
  let area ← match ← optText formula "ref".toList with
    | none => .ok []
    | some area =>
        if (range area).isSome then .ok (" ref=\"".toList ++ area ++ ['"'])
        else .error .exportUnsupported
  let index ← match formula.get "si".toList with
    | none => .ok []
    | some (.int index) =>
        if 0 ≤ index then .ok (" si=\"".toList ++ Json.writeInt index ++ ['"'])
        else .error .exportUnsupported
    | some _ => .error .exportUnsupported
  return kind ++ area ++ index

/-- The `<f>` element of a formula, refused when it is active. -/
def formulaXml (formula : Json) : Except Refusal Str := do
  let content ← text formula "text".toList
  failIf (activeFormula content = true ∨ (formula.get "quarantined".toList).isSome)
    .activeContent
  let attributes ← formulaAttributes formula
  if content = [] then return "<f".toList ++ attributes ++ "/>".toList
  else
    return "<f".toList ++ attributes ++ ['>'] ++ (← escape content) ++ "</f>".toList

/-- The `t` attribute and the `<v>` element of a formula's cached result. -/
def cachedXml (finite : ParsesFinite) (cell : Json) : Except Refusal (Str × Str) :=
  match cell.get "cached".toList with
  | none => .ok ([], [])
  | some cached => do
      let (kind, value) ← valueXml finite cached "str".toList
      return (kind, "<v>".toList ++ value ++ "</v>".toList)

def Writer.cell (finite : ParsesFinite) (writer : Writer) (cell : Json) (reference : Str) :
    Except Refusal Str := do
  let style ← writer.style cell
  let opening := "<c r=\"".toList ++ reference ++ ['"'] ++ style
  match cell.get "formula".toList with
  | some formula =>
      let formulaText ← formulaXml formula
      let (kind, cached) ← cachedXml finite cell
      return opening ++ kind ++ ['>'] ++ formulaText ++ cached ++ "</c>".toList
  | none =>
      match cell.get "value".toList with
      | none => .error .exportUnsupported
      | some value =>
          if strField value "type".toList = some "string".toList then
            let content ← escape (encodeXstring (← text value "value".toList))
            return opening ++ " t=\"inlineStr\"><is><t xml:space=\"preserve\">".toList ++
              content ++ "</t></is></c>".toList
          else
            let (kind, content) ← valueXml finite value "str".toList
            return opening ++ kind ++ "><v>".toList ++ content ++ "</v></c>".toList

def validationAttributes : List Str :=
  ["type".toList, "errorStyle".toList, "imeMode".toList, "operator".toList,
    "allowBlank".toList, "showDropDown".toList, "showInputMessage".toList,
    "showErrorMessage".toList, "errorTitle".toList, "error".toList, "promptTitle".toList,
    "prompt".toList]

/-- One attribute of `<dataValidation>`. -/
def validationAttribute (entry : Str × Json) : Except Refusal Str :=
  match entry.2 with
  | .str value =>
      if entry.1 ∈ validationAttributes then do
        return ' ' :: entry.1 ++ "=\"".toList ++ (← attributeText value) ++ ['"']
      else .error .exportUnsupported
  | _ => .error .exportUnsupported

/-- The opening tag of `<dataValidation>`. -/
def validationHead (validation : Json) : Except Refusal Str := do
  let sqref ← text validation "sqref".toList
  let areas := (sqref.splitOnP isWhitespace).filter fun area => !area.isEmpty
  failIf ((areas.any fun area => (range area).isNone) = true) .exportUnsupported
  let attributes ← match validation.get "attributes".toList with
    | some (.obj attributes) => attributes.mapM validationAttribute
    | _ => .error .exportUnsupported
  return "<dataValidation".toList ++ attributes.flatten ++ " sqref=\"".toList ++ sqref ++
    "\">".toList

/-- One formula of a data validation, refused when it is active. -/
def validationFormulaXml (validation : Json) (key : Str) : Except Refusal Str := do
  match ← optText validation key with
  | none => return []
  | some formula =>
      failIf (activeFormula formula = true) .activeContent
      return ['<'] ++ key ++ ['>'] ++ (← escape formula) ++ "</".toList ++ key ++ ['>']

def dataValidation (validation : Json) : Except Refusal Str := do
  let head ← validationHead validation
  let first ← validationFormulaXml validation "formula1".toList
  let second ← validationFormulaXml validation "formula2".toList
  return head ++ first ++ second ++ "</dataValidation>".toList

/-- The loop over the defined names in `Writer::workbook`, for one name. -/
def definedName (lowercase : Str → Str) (positions : OrdMap Str ℕ) (name : Json) :
    Except Refusal Str := do
  let value ← text name "value".toList
  failIf (activeFormula value = true) .activeContent
  let scope ← match ← optText name "scope".toList with
    | none => .ok []
    | some sheet =>
        match positions.find? (lowercase sheet) with
        | some position => .ok (" localSheetId=\"".toList ++ decimal position ++ ['"'])
        | none => .error .exportUnsupported
  let hidden := match name.get "hidden".toList with
    | some (.bool true) => " hidden=\"1\"".toList
    | _ => []
  return "<definedName name=\"".toList ++ (← attributeText (← text name "name".toList)) ++ ['"'] ++
    scope ++ hidden ++ ['>'] ++ (← escape value) ++ "</definedName>".toList

/-! ## The formula check at each place -/

variable {finite : ParsesFinite} {reader : Reader} {formula : Str}

variable {key : Str} {validation : OrdMap Str Json}

/-- A field of an object that is not `Null` is found again. -/
theorem get_obj {pairs : List (Str × Json)} (hnodup : (pairs.map Prod.fst).Nodup) {value : Json}
    (hmem : (key, value) ∈ pairs) (hnull : isNull value = false) :
    (obj pairs).get key = some value := by
  refine (find?_ofList (hnodup.sublist (filter_sublist.map _))).mpr ?_
  exact mem_filter.mpr ⟨hmem, by simp [hnull]⟩

/-- The mark of an active formula in the projection. -/
def quarantinedKey : Str := "quarantined".toList

/-- The code of an active formula in the receipt. -/
def quarantinedCode : Str := "formula-quarantined".toList

theorem mem_codes_insert {codes : OrdSet Str} {code other : Str} (h : code ∈ codes.keys) :
    code ∈ (codes.insert other ()).keys := mem_keys_insert.mpr (Or.inr h)

theorem quarantineFormula_of_active (reader : Reader) (h : activeFormula formula = true) :
    (reader.quarantineFormula formula).2 = true ∧
      quarantinedCode ∈ (reader.quarantineFormula formula).1.codes.keys := by
  rw [Reader.quarantineFormula, if_pos h]
  exact ⟨rfl, mem_keys_insert.mpr (Or.inl rfl)⟩

theorem mem_codes_quarantineFormula {code : Str} (h : code ∈ reader.codes.keys) :
    code ∈ (reader.quarantineFormula formula).1.codes.keys := by
  rw [Reader.quarantineFormula]
  split
  · exact mem_codes_insert h
  · exact h

theorem formula_of_active (reader : Reader) (sheet : Str) (raw : RawCell) {found : OrdMap Str Json}
    (htext : found.find? "text".toList = some (.str formula)) (h : activeFormula formula = true) :
    (reader.formula sheet raw found).2.find? quarantinedKey = some (.bool true) ∧
      quarantinedCode ∈ (reader.formula sheet raw found).1.codes.keys := by
  rw [Reader.formula]
  dsimp only
  rw [htext]
  generalize (match found.find? "kind".toList with
    | some (.str kind) => _
    | _ => reader) = noted
  obtain ⟨hmarked, hcode⟩ := quarantineFormula_of_active noted h
  dsimp only
  rw [hmarked, if_pos rfl]
  exact ⟨find?_insert_self _ _ _, hcode⟩

/-- An active formula of a cell is imported with its mark. -/
theorem typedCell_of_active {raw : RawCell} {shared : List Str} {styles : List (Option Json)}
    {sheet : Str} {found cell : OrdMap Str Json} {after : Reader} (hraw : raw.formula = some found)
    (htext : found.find? "text".toList = some (.str formula)) (h : activeFormula formula = true)
    (hcell : reader.typedCell finite raw shared styles sheet = .ok (some cell, after)) :
    (∃ marked, cell.find? "formula".toList = some marked ∧
        marked.get quarantinedKey = some (.bool true)) ∧
      quarantinedCode ∈ after.codes.keys := by
  obtain ⟨hmarked, hcode⟩ := formula_of_active reader sheet raw htext h
  rw [Reader.typedCell] at hcell
  obtain ⟨value, -, hcell⟩ := bind_eq_ok_iff.mp hcell
  obtain ⟨format, -, hcell⟩ := bind_eq_ok_iff.mp hcell
  simp only [hraw] at hcell
  generalize reader.formula sheet raw found = result at hmarked hcode hcell
  cases value with
  | none =>
      obtain ⟨hsome, rfl⟩ := Prod.mk.inj (Except.ok.inj hcell)
      obtain rfl := Option.some.inj hsome
      exact ⟨⟨_, find?_insert_self _ _ _, hmarked⟩, hcode⟩
  | some cached =>
      obtain ⟨hsome, rfl⟩ := Prod.mk.inj (Except.ok.inj hcell)
      obtain rfl := Option.some.inj hsome
      refine ⟨⟨Json.ofMap result.2, ?_, hmarked⟩, mem_codes_insert hcode⟩
      have hne : "cached".toList ≠ "formula".toList := by decide
      exact (find?_insert_of_ne _ _ hne).trans (find?_insert_self _ _ _)

theorem validationFormula_of_active (reader : Reader)
    (hkey : validation.find? key = some (.str formula)) (h : activeFormula formula = true) :
    (reader.validationFormula validation key).2.find? quarantinedKey = some (.bool true) ∧
      quarantinedCode ∈ (reader.validationFormula validation key).1.codes.keys := by
  obtain ⟨hmarked, hcode⟩ := quarantineFormula_of_active reader h
  rw [Reader.validationFormula, hkey]
  dsimp only
  rw [hmarked, if_pos rfl]
  exact ⟨find?_insert_self _ _ _, hcode⟩

/-- The check of one formula changes no other field but the mark, and takes no mark away. -/
theorem find?_validationFormula {field : Str} {found : Json}
    (h : validation.find? field = some found) (hfield : field = quarantinedKey → found = .bool true) :
    (reader.validationFormula validation key).2.find? field = some found := by
  rw [Reader.validationFormula]
  split
  · dsimp only
    split
    · by_cases heq : field = quarantinedKey
      · rw [hfield heq, heq]
        exact find?_insert_self _ _ _
      · exact (find?_insert_of_ne _ _ (Ne.symm heq)).trans h
    · exact h
  · exact h

theorem mem_codes_validationFormula {code : Str} (h : code ∈ reader.codes.keys) :
    code ∈ (reader.validationFormula validation key).1.codes.keys := by
  rw [Reader.validationFormula]
  split
  · exact mem_codes_quarantineFormula h
  · exact h

def formulaKeys : List Str := ["formula1".toList, "formula2".toList]

/-- A data validation with an active formula is imported with its mark. -/
theorem validation_of_active (hmem : key ∈ formulaKeys)
    (hkey : validation.find? key = some (.str formula)) (h : activeFormula formula = true) :
    (reader.validation validation).2.find? quarantinedKey = some (.bool true) ∧
      quarantinedCode ∈ (reader.validation validation).1.codes.keys := by
  rw [Reader.validation]
  rcases mem_pair.mp hmem with rfl | rfl
  · obtain ⟨hmarked, hcode⟩ := validationFormula_of_active reader hkey h
    exact ⟨find?_validationFormula hmarked fun _ => rfl, mem_codes_validationFormula hcode⟩
  · refine validationFormula_of_active _ (find?_validationFormula hkey fun heq => ?_) h
    exact absurd heq (by decide)

/-- A defined name with an active formula is imported with its mark. -/
theorem define_of_active {lowercase : Str → Str} {source : Str} {positions : List Scope}
    {ids : OrdMap Str ℕ} {state after : Names} {attributes : List (Str × Str)} {scope : Scope}
    (hscope : nameScope attributes positions = .ok (some scope))
    (hdefine : state.define lowercase source positions ids attributes formula = .ok after)
    (h : activeFormula formula = true) :
    (∃ key json, after.names = state.names.insert key json ∧
        json.get quarantinedKey = some (.bool true)) ∧
      quarantinedCode ∈ after.reader.codes.keys := by
  obtain ⟨hmarked, hcode⟩ := quarantineFormula_of_active state.reader h
  rw [Names.define] at hdefine
  obtain ⟨name, -, hdefine⟩ := bind_eq_ok_iff.mp hdefine
  rw [hscope, ok_bind] at hdefine
  dsimp only at hdefine
  obtain ⟨-, -, hdefine⟩ := bind_eq_ok_iff.mp hdefine
  obtain rfl := Except.ok.inj hdefine
  refine ⟨⟨_, _, rfl, ?_⟩, hcode⟩
  rw [hmarked]
  have hkeys : ["name".toList, "value".toList, "hidden".toList, "quarantined".toList,
      "scope".toList].Nodup := by decide
  refine get_obj ?_ (.tail _ (.tail _ (.tail _ (.head _)))) rfl
  exact hkeys

/-- An active formula of a cell is never written. -/
theorem cell_of_active {writer : Writer} {cell found : Json} {reference : Str}
    (hfound : cell.get "formula".toList = some found)
    (htext : strField found "text".toList = some formula) (h : activeFormula formula = true) :
    (∀ xml, writer.cell finite cell reference ≠ .ok xml) ∧ ∀ style, writer.style cell = .ok style →
      writer.cell finite cell reference = .error .activeContent := by
  have hrefused : formulaXml found = .error .activeContent := by
    rw [formulaXml, text, htext, ok_bind, failIf, if_pos (Or.inl h), error_bind]
  have hstyle : ∀ style, writer.style cell = .ok style →
      writer.cell finite cell reference = .error .activeContent := by
    intro style hstyle
    rw [Writer.cell, hstyle, ok_bind]
    simp only [hfound]
    rw [hrefused, error_bind]
  refine ⟨fun xml hxml => ?_, hstyle⟩
  obtain ⟨style, hok, -⟩ := bind_eq_ok_iff.mp hxml
  exact (nomatch (hstyle style hok).symm.trans hxml)

/-- An active formula of a data validation is never written. -/
theorem dataValidation_of_active {validation : Json} (hmem : key ∈ formulaKeys)
    (hkey : strField validation key = some formula) (h : activeFormula formula = true) :
    validationFormulaXml validation key = .error .activeContent ∧
      ∀ xml, dataValidation validation ≠ .ok xml := by
  have hoptional : optText validation key = .ok (some formula) := by
    rw [strField] at hkey
    rw [optText]
    split at hkey
    · next value hget => rw [hget, Option.some.inj hkey]
    · cases hkey
  have hrefused : validationFormulaXml validation key = .error .activeContent := by
    rw [validationFormulaXml, hoptional, ok_bind]
    dsimp only
    rw [failIf, if_pos h, error_bind]
  refine ⟨hrefused, fun xml hxml => ?_⟩
  obtain ⟨head, -, hxml⟩ := bind_eq_ok_iff.mp hxml
  obtain ⟨first, hfirst, hxml⟩ := bind_eq_ok_iff.mp hxml
  obtain ⟨second, hsecond, -⟩ := bind_eq_ok_iff.mp hxml
  rcases mem_pair.mp hmem with rfl | rfl
  · exact (nomatch hrefused.symm.trans hfirst)
  · exact (nomatch hrefused.symm.trans hsecond)

/-- A defined name with an active formula is refused. -/
theorem definedName_of_active {lowercase : Str → Str} {positions : OrdMap Str ℕ} {name : Json}
    (hvalue : strField name "value".toList = some formula) (h : activeFormula formula = true) :
    definedName lowercase positions name = .error .activeContent := by
  rw [definedName, text, hvalue, ok_bind, failIf, if_pos h, error_bind]

/-- A formula is marked by every import site and refused by every export site. -/
structure Guarded (formula : Str) : Prop where
  active : activeFormula formula = true
  cellMarked : ∀ {finite : ParsesFinite} {reader after : Reader} {raw : RawCell}
    {shared : List Str} {styles : List (Option Json)} {sheet : Str} {found cell : OrdMap Str Json},
    raw.formula = some found → found.find? "text".toList = some (.str formula) →
    reader.typedCell finite raw shared styles sheet = .ok (some cell, after) →
    (∃ marked, cell.find? "formula".toList = some marked ∧
        marked.get quarantinedKey = some (.bool true)) ∧ quarantinedCode ∈ after.codes.keys
  nameMarked : ∀ {lowercase : Str → Str} {source : Str} {positions : List Scope}
    {ids : OrdMap Str ℕ} {state after : Names} {attributes : List (Str × Str)} {scope : Scope},
    nameScope attributes positions = .ok (some scope) →
    state.define lowercase source positions ids attributes formula = .ok after →
    (∃ key json, after.names = state.names.insert key json ∧
        json.get quarantinedKey = some (.bool true)) ∧ quarantinedCode ∈ after.reader.codes.keys
  validationMarked : ∀ {reader : Reader} {validation : OrdMap Str Json} {key : Str},
    key ∈ formulaKeys → validation.find? key = some (.str formula) →
    (reader.validation validation).2.find? quarantinedKey = some (.bool true) ∧
      quarantinedCode ∈ (reader.validation validation).1.codes.keys
  cellRefused : ∀ {finite : ParsesFinite} {writer : Writer} {cell found : Json} {reference : Str},
    cell.get "formula".toList = some found → strField found "text".toList = some formula →
    (∀ xml, writer.cell finite cell reference ≠ .ok xml) ∧ ∀ style, writer.style cell = .ok style →
      writer.cell finite cell reference = .error .activeContent
  nameRefused : ∀ {lowercase : Str → Str} {positions : OrdMap Str ℕ} {name : Json},
    strField name "value".toList = some formula →
    definedName lowercase positions name = .error .activeContent
  validationRefused : ∀ {validation : Json} {key : Str},
    key ∈ formulaKeys → strField validation key = some formula →
    validationFormulaXml validation key = .error .activeContent ∧
      ∀ xml, dataValidation validation ≠ .ok xml

/-- All six places follow `active_formula`. -/
theorem guarded_iff : Guarded formula ↔ activeFormula formula = true :=
  ⟨Guarded.active, fun h => {
    active := h
    cellMarked := fun hraw htext hcell => typedCell_of_active hraw htext h hcell
    nameMarked := fun hscope hdefine => define_of_active hscope hdefine h
    validationMarked := fun hmem hkey => validation_of_active hmem hkey h
    cellRefused := fun hfound htext => cell_of_active hfound htext h
    nameRefused := fun hvalue => definedName_of_active hvalue h
    validationRefused := fun hmem hkey => dataValidation_of_active hmem hkey h }⟩

/-- An active formula is guarded exactly when some mark of it stands after an even number of
double quotes: the source does not know that a double quote inside a sheet name quotes nothing. -/
theorem active_guarded_iff_seen (formula : Str) :
    (Active formula → Guarded formula) ↔ (Active formula → Seen formula) := by
  have hseen : Guarded formula ↔ Seen formula := guarded_iff.trans activeFormula_eq_true_iff
  exact ⟨fun h hactive => hseen.mp (h hactive), fun h hactive => hseen.mpr (h hactive)⟩

/-- A sheet name with one double quote hides the call after it. -/
def hiddenCall : Str := "'a\"b'!A1+WEBSERVICE(\"x\")".toList

theorem hiddenCall_not_guarded : ¬ ∀ formula, Active formula → Guarded formula := by
  intro h
  have hactive : Active hiddenCall := by
    refine Or.inl ⟨"'a\"b'!A1+".toList, "WEBSERVICE(".toList, "\"x\")".toList, rfl, ?_, rfl, ?_⟩
    · exact mem_cons_self
    · intro c hc
      obtain rfl := Option.some.inj hc
      rfl
  have hinert : activeFormula hiddenCall = false := by decide +kernel
  exact Bool.false_ne_true (hinert.symm.trans (h hiddenCall hactive).active)

end Bran.Document.Xlsx
