import Bran.Schema

/-!
# The frontmatter parser

`parse_frontmatter` and the functions below it: a text is cut into line tokens, and two
builders that call each other turn the tokens into nested values, deciding the nesting from the
indentation alone.
-/

namespace Bran.Frontmatter

open Schema List Text

/-! ## Fences -/

/-- The private `strip_fences`. -/
def stripFences (raw : Str) : Str :=
  let trimmed := raw.dropWhile (· = Char.ofNat 0xFEFF)
  match (stripStart "---\n".toList trimmed).or (stripStart "---\r\n".toList trimmed) with
  | none => trimmed
  | some content =>
      let trimmedEnd := trimEnd content
      if trim (trimmedEnd.rtakeWhile (· ≠ '\n')) = "---".toList then
        trimEnd (trimmedEnd.rdropWhile (· ≠ '\n'))
      else content

/-- A text that starts with no byte order mark and no fence is kept. -/
theorem stripFences_eq_self {raw : Str} (hmark : raw.dropWhile (· = Char.ofNat 0xFEFF) = raw)
    (hunix : stripStart "---\n".toList raw = none)
    (hwindows : stripStart "---\r\n".toList raw = none) : stripFences raw = raw := by
  unfold stripFences
  dsimp only
  rw [hmark, hunix, hwindows]
  rfl

/-! ## Lines -/

/-- One inline value on a `key:` or `- ` line. -/
inductive Inline
  | scalar (text : Str)
  | flowList (items : List Str)
  deriving DecidableEq

/-- A structural line. -/
inductive Token
  | key (indent : ℕ) (key : Str) (inline : Option Inline)
  | seqItem (indent : ℕ) (key : Option Str) (inline : Option Inline)
  deriving DecidableEq

/-- The private `next_indent`. -/
def Token.nextIndent : Token → ℕ
  | .key indent _ _ => indent
  | .seqItem indent _ _ => indent

/-- The private `valid_key`. -/
def validKey (key : Str) : Bool :=
  key ≠ [] && key.all fun c => c.isAlphanum || c = '_' || c = '-' || c = '.'

/-- The text between two quotation marks. -/
def quoted (mark : Char) (value : Str) : Option Str :=
  (stripStart [mark] value).bind fun item => stripEnd [mark] item

/-- A trimmed value without one layer of matching quotes. -/
def unquote (value : Str) : Str :=
  trim (((quoted '"' value).or (quoted '\'' value)).getD value)

/-- The private `scalar`. -/
def scalar (value : Str) : Except Str Str :=
  let unquoted := unquote (trim value)
  if unquoted = [] then .error "empty YAML scalar".toList else .ok unquoted

/-- The private `strip_inline_comment`. -/
def stripInlineComment (value : Str) : Option Str :=
  match splitOnceStr " #".toList value with
  | none => some value
  | some (head, _) =>
      let head := trimEnd head
      if head = [] then none else some head

/-- A value without its comment; a quoted value keeps any ` #`. -/
def uncomment (rest : Str) : Str :=
  trim
    (if rest.head? ∈ ['"', '\''].map some then rest else (stripInlineComment rest).getD [])

/-- The private `parse_inline`. -/
def parseInline (rest : Str) : Except Str (Option Inline) :=
  let rest := trim rest
  if rest = [] then .ok none
  else if rest.head? ∈ ['{', '|', '>'].map some then .error "unsupported YAML scalar".toList
  else
    let uncommented := uncomment rest
    if uncommented = [] then .error "empty YAML scalar".toList
    else if uncommented.head? = some '[' then
      if uncommented.getLast? ≠ some ']' then .error "malformed YAML list".toList
      else do
        let values ← (uncommented.tail.dropLast.splitOn ',').mapM scalar
        return some (.flowList values)
    else do return some (.scalar (← scalar uncommented))

/-- The loop of `split_sequence_value` that looks for the colon of a mapping item; `head` is the
text before it. -/
def mappingColon (head : Str) : Str → Option (Str × Str)
  | [] => none
  | c :: rest =>
      if c = ':' && validKey (trim head) then
        if rest = [] ∨ rest.head? = some ' ' then some (head, rest) else none
      else mappingColon (head ++ [c]) rest

/-- The private `split_sequence_value`. -/
def splitSequenceValue (rest : Str) : Except Str (Option Str × Option Inline) :=
  match mappingColon [] rest with
  | some (head, after) => do return (some (trim head), ← parseInline after)
  | none => do return (none, some (.scalar (← scalar rest)))

/-- The token of a line without its indentation. -/
def tokenizeTrimmed (indent : ℕ) (trimmed : Str) : Except Str Token :=
  match stripStart "- ".toList trimmed with
  | some rest => do
      let (key, inline) ← splitSequenceValue rest
      return .seqItem indent key inline
  | none =>
      match splitOnce ':' trimmed with
      | none => .error "not key/value YAML".toList
      | some (head, rest) =>
          let key := trim head
          if !validKey key then .error "unsupported YAML scalar".toList
          else do return .key indent key (← parseInline rest)

/-- One line; blank lines and comment lines give no token. -/
def tokenizeLine (rawLine : Str) : Except Str (Option Token) :=
  let line := trimEnd rawLine
  let trimmed := trimStart line
  if trimmed = [] ∨ trimmed.head? = some '#' then .ok none
  else do return some (← tokenizeTrimmed (byteLen line - byteLen trimmed) trimmed)

/-- The private `tokenize`. -/
def tokenize (raw : Str) : Except Str (List Token) := do
  return ((← (lines raw).mapM tokenizeLine).filterMap id)

/-! ## Blocks -/

/-- The private `yaml_value`. -/
def yamlValue : Inline → YamlValue
  | .scalar value => .string value
  | .flowList values => .sequence (values.map .string)

/-- Entries stored one after the other, where a repeated key is refused. -/
def insertFields (map : OrdMap Str YamlValue) :
    List (Str × YamlValue) → Except Str (OrdMap Str YamlValue)
  | [] => .ok map
  | (key, value) :: rest =>
      if map.contains key then .error ("duplicate frontmatter key: ".toList ++ key)
      else insertFields (map.insert key value) rest

mutual

/-- The private `build_mapping`, on the tokens from its index on; it returns the tokens it leaves
and the entries.  Every call is on fewer tokens, so `fuel` need only exceed their number. -/
def buildMapping : ℕ → List Token → ℕ → List (Str × YamlValue) →
    Except Str (List Token × List (Str × YamlValue))
  | 0, tokens, _, entries => .ok (tokens, entries)
  | _ + 1, [], _, entries => .ok ([], entries)
  | _ + 1, .seqItem itemIndent key inline :: rest, indent, entries =>
      -- a shallower item closes a nested mapping block
      if itemIndent < indent then .ok (.seqItem itemIndent key inline :: rest, entries)
      else .error "sequence item outside of a sequence".toList
  | fuel + 1, .key keyIndent key inline :: rest, indent, entries =>
      if keyIndent ≠ indent then .ok (.key keyIndent key inline :: rest, entries)
      else
        match inline, rest with
        | some inline, rest => buildMapping fuel rest indent (entries ++ [(key, yamlValue inline)])
        | none, [] => .error "frontmatter key has an empty value".toList
        | none, next :: after =>
            if next.nextIndent ≤ indent then .error "frontmatter key has an empty value".toList
            else
              match next with
              | .seqItem _ _ _ => do
                  let (rest, items) ← buildSequence fuel (next :: after) next.nextIndent []
                  buildMapping fuel rest indent (entries ++ [(key, .sequence items)])
              | .key _ _ _ => do
                  let (rest, nested) ← buildMapping fuel (next :: after) next.nextIndent []
                  buildMapping fuel rest indent
                    (entries ++ [(key, .ofMap (OrdMap.ofList nested))])

/-- The private `build_sequence`. -/
def buildSequence : ℕ → List Token → ℕ → List YamlValue →
    Except Str (List Token × List YamlValue)
  | 0, tokens, _, items => .ok (tokens, items)
  | _ + 1, [], _, items => .ok ([], items)
  | _ + 1, .key keyIndent key inline :: rest, _, items =>
      .ok (.key keyIndent key inline :: rest, items)
  | fuel + 1, .seqItem itemIndent key inline :: rest, indent, items =>
      if itemIndent ≠ indent then .ok (.seqItem itemIndent key inline :: rest, items)
      else
        match key, inline with
        | none, none => .error "empty sequence item".toList
        | none, some inline => buildSequence fuel rest indent (items ++ [yamlValue inline])
        | some key, inline => do
            let mapping := match inline with
              | some inline => OrdMap.empty.insert key (yamlValue inline)
              | none => OrdMap.empty
            match rest with
            | next :: after =>
                if next.nextIndent > itemIndent then do
                  let (rest, fields) ← buildMapping fuel (next :: after) next.nextIndent []
                  let mapping ← insertFields mapping fields
                  buildSequence fuel rest indent (items ++ [.ofMap mapping])
                else buildSequence fuel (next :: after) indent (items ++ [.ofMap mapping])
            | [] => buildSequence fuel [] indent (items ++ [.ofMap mapping])

end

/-! ## The builders step by step -/

section Steps

variable {fuel indent keyIndent itemIndent : ℕ} {key : Str} {itemKey : Option Str}
  {inline : Option Inline} {value : Inline} {next : Token} {rest after : List Token}
  {entries : List (Str × YamlValue)} {items : List YamlValue}

theorem buildMapping_nil : buildMapping fuel [] indent entries = .ok ([], entries) := by
  cases fuel with
  | zero => rfl
  | succ fuel => unfold buildMapping; rfl

theorem buildMapping_other (h : keyIndent ≠ indent) :
    buildMapping (fuel + 1) (.key keyIndent key inline :: rest) indent entries =
      .ok (.key keyIndent key inline :: rest, entries) := by
  unfold buildMapping
  exact if_pos h

theorem buildMapping_item (h : itemIndent < indent) :
    buildMapping (fuel + 1) (.seqItem itemIndent itemKey inline :: rest) indent entries =
      .ok (.seqItem itemIndent itemKey inline :: rest, entries) := by
  unfold buildMapping
  exact if_pos h

theorem buildMapping_inline :
    buildMapping (fuel + 1) (.key indent key (some value) :: rest) indent entries =
      buildMapping fuel rest indent (entries ++ [(key, yamlValue value)]) := by
  conv_lhs => unfold buildMapping
  exact if_neg (not_not.mpr rfl)

theorem buildMapping_sequence (h : indent < itemIndent) :
    buildMapping (fuel + 1)
        (.key indent key none :: .seqItem itemIndent itemKey inline :: after) indent entries =
      (buildSequence fuel (.seqItem itemIndent itemKey inline :: after) itemIndent [] >>=
        fun result => buildMapping fuel result.1 indent
          (entries ++ [(key, .sequence result.2)])) := by
  conv_lhs => unfold buildMapping
  rw [if_neg (not_not.mpr rfl)]
  exact if_neg (Nat.not_le.mpr h)

theorem buildMapping_mapping {nested : Str} (h : indent < keyIndent) :
    buildMapping (fuel + 1)
        (.key indent key none :: .key keyIndent nested inline :: after) indent entries =
      (buildMapping fuel (.key keyIndent nested inline :: after) keyIndent [] >>=
        fun result => buildMapping fuel result.1 indent
          (entries ++ [(key, .ofMap (OrdMap.ofList result.2))])) := by
  conv_lhs => unfold buildMapping
  rw [if_neg (not_not.mpr rfl)]
  exact if_neg (Nat.not_le.mpr h)

theorem buildSequence_nil : buildSequence fuel [] indent items = .ok ([], items) := by
  cases fuel with
  | zero => rfl
  | succ fuel => unfold buildSequence; rfl

theorem buildSequence_key :
    buildSequence (fuel + 1) (.key keyIndent key inline :: rest) indent items =
      .ok (.key keyIndent key inline :: rest, items) := by
  unfold buildSequence
  rfl

theorem buildSequence_other (h : itemIndent ≠ indent) :
    buildSequence (fuel + 1) (.seqItem itemIndent itemKey inline :: rest) indent items =
      .ok (.seqItem itemIndent itemKey inline :: rest, items) := by
  unfold buildSequence
  exact if_pos h

theorem buildSequence_scalar :
    buildSequence (fuel + 1) (.seqItem indent none (some value) :: rest) indent items =
      buildSequence fuel rest indent (items ++ [yamlValue value]) := by
  conv_lhs => unfold buildSequence
  exact if_neg (not_not.mpr rfl)

end Steps

theorem insertFields_eq_ok {entries : List (Str × YamlValue)} {map : OrdMap Str YamlValue}
    (hnodup : (entries.map Prod.fst).Nodup)
    (hfresh : ∀ key ∈ entries.map Prod.fst, map.contains key = false) :
    insertFields map entries =
      .ok (entries.foldl (fun map entry => map.insert entry.1 entry.2) map) := by
  induction entries generalizing map with
  | nil => rfl
  | cons entry rest ih =>
      obtain ⟨key, value⟩ := entry
      rw [map_cons, nodup_cons] at hnodup
      have hkey : map.contains key = false := hfresh key (by simp)
      rw [insertFields, hkey]
      apply ih hnodup.2
      intro other hother
      have hne : key ≠ other := fun h => hnodup.1 (h ▸ hother)
      rw [OrdMap.contains, OrdMap.find?_insert_of_ne _ _ hne]
      exact hfresh other (mem_cons_of_mem _ hother)

/-- Fields that could be stored had distinct keys. -/
theorem insertFields_spec {entries : List (Str × YamlValue)} {map result : OrdMap Str YamlValue}
    (h : insertFields map entries = .ok result) :
    (entries.map Prod.fst).Nodup ∧ (∀ key ∈ entries.map Prod.fst, map.contains key = false) ∧
      result = entries.foldl (fun map entry => map.insert entry.1 entry.2) map := by
  induction entries generalizing map with
  | nil =>
      obtain rfl := Except.ok.inj h
      simp
  | cons entry rest ih =>
      obtain ⟨key, value⟩ := entry
      rw [insertFields] at h
      cases hkey : map.contains key with
      | true =>
          rw [hkey, if_pos rfl] at h
          cases h
      | false =>
          rw [hkey] at h
          obtain ⟨hnodup, hfresh, rfl⟩ := ih h
          have hnew : key ∉ rest.map Prod.fst := by
            intro hmem
            have hfalse := hfresh key hmem
            rw [OrdMap.contains, OrdMap.find?_insert_self] at hfalse
            cases hfalse
          refine ⟨nodup_cons.mpr ⟨hnew, hnodup⟩, ?_, rfl⟩
          intro other hother
          rw [map_cons, mem_cons] at hother
          obtain rfl | hother := hother
          · exact hkey
          · have hne : key ≠ other := fun h => hnew (h ▸ hother)
            have hfalse := hfresh other hother
            rw [OrdMap.contains, OrdMap.find?_insert_of_ne _ _ hne] at hfalse
            exact hfalse

def parseFrontmatter (raw : Str) : Except Str (OrdMap Str YamlValue) := do
  let tokens ← tokenize (stripFences raw)
  let (rest, entries) ← buildMapping (tokens.length + 1) tokens 0 []
  if rest ≠ [] then .error "unexpected indented content".toList
  else insertFields OrdMap.empty entries

end Bran.Frontmatter
