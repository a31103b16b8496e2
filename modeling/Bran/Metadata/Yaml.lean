import Bran.Frontmatter.Parse
import Bran.Library.Validation

/-!
# The header reader of the scanner

`metadata::yaml`, which turns the body of a header into the facts of a file, and its relation to
`parse_frontmatter`: on a flat body that both accept, they give a key the same values unless a
comment follows one of the values on its line.
-/

namespace Bran.Metadata

open Schema List Option Text Frontmatter Validation
open Except (ok.inj)
open Prod (mk.inj)

/-! ## The reader -/

/-- The facts read so far and the key whose list may follow, with its indentation and whether an
item has been seen. -/
structure Reader where
  fields : List (Str × Str)
  blockList : Option (Str × ℕ × Bool)

/-- The private `scalar` of `metadata`. -/
def scalar (value : Str) : Except Str Str :=
  let value := unquote (trim value)
  if value = [] then .error "empty YAML scalar".toList else .ok value

/-- The values after the colon of a key. -/
def inlineValues (value : Str) : Except Str (List Str) :=
  match (stripStart ['['] value).bind (stripEnd [']']) with
  | some values => (values.splitOn ',').mapM scalar
  | none => do return [← scalar value]

/-- One line of the loop of `yaml`. -/
def yamlLine (reader : Reader) (raw : Str) : Except Str Reader :=
  let indent := byteLen raw - byteLen (trimStart raw)
  let line := trim raw
  if line = [] ∨ line.head? = some '#' then .ok reader
  else
    match stripStart "- ".toList line with
    | some value =>
        match reader.blockList with
        | none => .error ("YAML list item has no key: ".toList ++ line)
        | some (key, keyIndent, _) =>
            if indent ≤ keyIndent then .error ("YAML list item is not indented: ".toList ++ line)
            else do
              let value ← scalar value
              return ⟨reader.fields ++ [(key, value)], some (key, keyIndent, true)⟩
    | none =>
        if reader.blockList.any fun list => !list.2.2 then
          .error ("unsupported empty YAML value: ".toList ++ line)
        else
          match splitOnce ':' line with
          | none => .error ("not key/value YAML: ".toList ++ line)
          | some (key, value) =>
              let key := trim key
              let value := trim value
              if !Frontmatter.validKey key || value.head? ∈ ['{', '|', '>'].map some then
                .error ("unsupported YAML scalar: ".toList ++ line)
              else if value = [] then .ok ⟨reader.fields, some (key, indent, false)⟩
              else if decide (value.head? = some '[') ≠ decide (value.getLast? = some ']') then
                .error ("malformed YAML list: ".toList ++ line)
              else do
                let values ← inlineValues value
                return ⟨reader.fields ++ values.map fun value => (key, value), none⟩

def yaml (body : Str) : Except Str (List (Str × Str)) := do
  let reader ← (Text.lines body).foldlM yamlLine ⟨[], none⟩
  if reader.blockList.any fun list => !list.2.2 then
    .error "unsupported empty YAML value at end of header".toList
  else return reader.fields

/-! ## Agreement -/

/-- The values of a key among the facts. -/
def valuesOf (fields : List (Str × Str)) (key : Str) : List Str :=
  (fields.filter fun field => field.1 = key).map Prod.snd

/-- The strings of a `String` or of a `Sequence` of them. -/
def stringsOf : YamlValue → Option (List Str)
  | .string value => some [value]
  | .sequence items => items.mapM fun
      | .string value => some value
      | _ => none
  | _ => none

/-- Every key has the same values for both readers. -/
def Agree (fields : List (Str × Str)) (map : OrdMap Str YamlValue) : Prop :=
  ∀ key, match map.find? key with
    | none => valuesOf fields key = []
    | some value => stringsOf value = some (valuesOf fields key)

/-- A line on which a comment follows a value that does not start with a quotation mark. -/
def CommentedValue (raw : Str) : Prop :=
  let line := trim raw
  line.head? ≠ some '#' ∧ stripStart "- ".toList line = none ∧
    ∃ key value, splitOnce ':' line = some (key, value) ∧
      (trim value).head? ∉ ['"', '\''].map some ∧ " #".toList <:+: trim value

/-- Every item line of the body is a scalar. -/
def Flat (body : Str) : Prop :=
  ∀ raw ∈ Text.lines body, ∀ rest, stripStart "- ".toList (trim raw) = some rest →
    mappingColon [] rest = none

/-! ## Lines both readers understand -/

/-- A line that is neither blank nor a comment, as both readers see it; the value of an entry is
trimmed. -/
inductive Line
  | item (indent : ℕ) (text : Str)
  | entry (indent : ℕ) (key value : Str)

/-- What `parse_frontmatter` reads on a line of a flat body. -/
inductive Reads : Line → Token → Prop
  | item {indent : ℕ} {text value : Str} (h : Frontmatter.scalar text = .ok value) :
      Reads (.item indent text) (.seqItem indent none (some (.scalar value)))
  | entry {indent : ℕ} {key value : Str} {inline : Option Inline}
      (hkey : validKey key = true) (htrim : trim value = value)
      (h : parseInline value = .ok inline) :
      Reads (.entry indent key value) (.key indent key inline)

/-- What `metadata::yaml` does on it; without a reader it has refused the line. -/
def readLine (reader : Reader) : Line → Option Reader
  | .item indent text =>
      match reader.blockList with
      | none => none
      | some (key, keyIndent, _) =>
          if indent ≤ keyIndent then none
          else (scalar text).toOption.map fun value =>
            ⟨reader.fields ++ [(key, value)], some (key, keyIndent, true)⟩
  | .entry indent key value =>
      if reader.blockList.any fun list => !list.2.2 then none
      else if !Frontmatter.validKey key || value.head? ∈ ['{', '|', '>'].map some then none
      else if value = [] then some ⟨reader.fields, some (key, indent, false)⟩
      else if decide (value.head? = some '[') ≠ decide (value.getLast? = some ']') then none
      else (inlineValues value).toOption.map fun values =>
        ⟨reader.fields ++ values.map fun value => (key, value), none⟩

/-- A comment follows the value of an entry. -/
def Line.Commented : Line → Prop
  | .item _ _ => False
  | .entry _ _ value => value.head? ∉ ['"', '\''].map some ∧ " #".toList <:+: value

theorem map_eq_ok_iff {α β : Type} {first : Except Str α} {f : α → β} {result : β} :
    (do return f (← first)) = Except.ok result ↔ first.toOption.map f = some result := by
  cases first with
  | error error => simp [bind, Except.bind, Except.toOption]
  | ok value => simp [bind, Except.bind, pure, Except.pure, Except.toOption]

/-- A blank line or a comment line means nothing to either reader. -/
theorem read_blank {raw : Str} (h : trim raw = [] ∨ (trim raw).head? = some '#') :
    tokenizeLine raw = .ok none ∧ (∀ reader, yamlLine reader raw = .ok reader) ∧
      ¬ CommentedValue raw := by
  refine ⟨?_, ?_, ?_⟩
  · unfold tokenizeLine
    dsimp only
    by_cases hnil : trim raw = []
    · have htrim : trimStart (trimEnd raw) = [] := by
        rw [trimEnd_eq_nil hnil]
        rfl
      rw [if_pos (Or.inl htrim)]
    · rw [(trimStart_trimEnd hnil).1, if_pos h]
  · intro reader
    unfold yamlLine
    dsimp only
    rw [if_pos h]
  · intro hcomment
    obtain ⟨hmark, _, key, value, hsplit, _⟩ := hcomment
    obtain hnil | hhead := h
    · rw [hnil] at hsplit
      cases hsplit
    · exact hmark hhead

/-- Any other line that the tokenizer accepts is an item or an entry for both readers. -/
theorem read_line {raw : Str} {token : Option Token}
    (hline : ¬ (trim raw = [] ∨ (trim raw).head? = some '#'))
    (hflat : ∀ rest, stripStart "- ".toList (trim raw) = some rest →
      mappingColon [] rest = none)
    (h : tokenizeLine raw = .ok token) :
    ∃ line token', token = some token' ∧ Reads line token' ∧
      (∀ reader reader', yamlLine reader raw = .ok reader' ↔ readLine reader line = some reader') ∧
      (CommentedValue raw ↔ line.Commented) := by
  have hnil : trim raw ≠ [] := fun hnil => hline (Or.inl hnil)
  obtain ⟨htrim, hlen⟩ := trimStart_trimEnd hnil
  unfold tokenizeLine at h
  dsimp only at h
  rw [htrim, if_neg hline] at h
  have hindent : byteLen (trimEnd raw) - byteLen (trim raw) =
      byteLen raw - byteLen (trimStart raw) := by omega
  rw [hindent] at h
  generalize hcolumn : byteLen raw - byteLen (trimStart raw) = column at h
  obtain ⟨token', htoken, h⟩ := bind_eq_ok_iff.mp h
  obtain rfl := ok.inj h
  unfold tokenizeTrimmed at htoken
  cases hdash : stripStart "- ".toList (trim raw) with
  | some rest =>
      rw [hdash] at htoken
      dsimp only at htoken
      obtain ⟨_, hpair, htoken⟩ := bind_eq_ok_iff.mp htoken
      rw [splitSequenceValue, hflat rest hdash] at hpair
      obtain ⟨value, hscalar, hpair⟩ := bind_eq_ok_iff.mp hpair
      obtain rfl := ok.inj hpair
      obtain rfl := ok.inj htoken
      refine ⟨.item column rest, _, rfl, .item hscalar, ?_, ?_⟩
      · intro reader reader'
        unfold yamlLine readLine
        dsimp only
        rw [if_neg hline, hdash, hcolumn]
        dsimp only
        cases reader.blockList with
        | none => simp
        | some list =>
            dsimp only
            split
            · simp
            · exact map_eq_ok_iff
      · constructor
        · intro hcomment
          rw [CommentedValue, hdash] at hcomment
          exact absurd hcomment.2.1 (by simp)
        · intro hfalse
          exact hfalse.elim
  | none =>
      rw [hdash] at htoken
      dsimp only at htoken
      cases hsplit : splitOnce ':' (trim raw) with
      | none =>
          rw [hsplit] at htoken
          cases htoken
      | some halves =>
          obtain ⟨key, value⟩ := halves
          rw [hsplit] at htoken
          dsimp only at htoken
          cases hkey : validKey (trim key) with
          | false =>
              rw [hkey] at htoken
              cases htoken
          | true =>
              rw [hkey] at htoken
              have htrimmed : parseInline (trim value) =
                  parseInline value := by
                unfold parseInline
                rw [trim_trim]
              obtain ⟨inline, hinline, htoken⟩ := bind_eq_ok_iff.mp htoken
              obtain rfl := ok.inj htoken
              refine ⟨.entry column (trim key) (trim value), _, rfl,
                .entry hkey (trim_trim value) (htrimmed.trans hinline), ?_, ?_⟩
              · intro reader reader'
                unfold yamlLine readLine
                dsimp only
                rw [if_neg hline, hdash, hsplit, hcolumn]
                dsimp only
                split
                · simp
                · split
                  · simp
                  · split
                    · simp
                    · split
                      · simp
                      · exact map_eq_ok_iff
              · have hmark : (trim raw).head? ≠ some '#' := fun h => hline (Or.inr h)
                simp only [CommentedValue, hdash, hsplit, Line.Commented]
                constructor
                · intro hcomment
                  obtain ⟨_, _, key', value', heq, hvalue⟩ := hcomment
                  obtain ⟨rfl, rfl⟩ := mk.inj (Option.some.inj heq)
                  exact hvalue
                · intro hvalue
                  exact ⟨hmark, trivial, key, value, rfl, hvalue⟩

/-- A whole body: its lines with something on them, read by both. -/
theorem read_lines {raws : List Str} {tokens : List (Option Token)}
    (hflat : ∀ raw ∈ raws, ∀ rest, stripStart "- ".toList (trim raw) = some rest →
      mappingColon [] rest = none)
    (h : raws.mapM tokenizeLine = .ok tokens) :
    ∃ lines, List.Forall₂ Reads lines (tokens.filterMap id) ∧
      (∀ reader reader', raws.foldlM yamlLine reader = .ok reader' ↔
        lines.foldlM readLine reader = some reader') ∧
      ((∃ raw ∈ raws, CommentedValue raw) ↔ ∃ line ∈ lines, line.Commented) := by
  induction raws generalizing tokens with
  | nil =>
      obtain rfl := ok.inj h
      refine ⟨[], List.Forall₂.nil, ?_, by simp⟩
      intro reader reader'
      simp [pure, Except.pure]
  | cons raw rest ih =>
      rw [mapM_cons] at h
      obtain ⟨token, htoken, h⟩ := bind_eq_ok_iff.mp h
      obtain ⟨later, htokens, h⟩ := bind_eq_ok_iff.mp h
      obtain rfl := ok.inj h
      obtain ⟨lines, hreads, hfold, hcomment⟩ :=
        ih (fun raw hraw => hflat raw (mem_cons_of_mem _ hraw)) htokens
      by_cases hblank : trim raw = [] ∨ (trim raw).head? = some '#'
      · obtain ⟨hnone, hsame, hno⟩ := read_blank hblank
        obtain rfl : none = token := ok.inj (hnone.symm.trans htoken)
        refine ⟨lines, hreads, ?_, ?_⟩
        · intro reader reader'
          rw [foldlM_cons, hsame, ← hfold]
          rfl
        · rw [← hcomment]
          simp [hno]
      · obtain ⟨line, token', rfl, hread, hline, hmark⟩ :=
          read_line hblank (hflat raw (by simp)) htoken
        refine ⟨line :: lines, ?_, ?_, ?_⟩
        · simpa using List.Forall₂.cons hread hreads
        · intro reader reader'
          rw [foldlM_cons, foldlM_cons]
          cases hstep : yamlLine reader raw with
          | error error =>
              have hnone : readLine reader line = none := by
                rw [eq_none_iff_forall_ne_some]
                intro next hnext
                rw [(hline reader next).mpr hnext] at hstep
                cases hstep
              simp [hnone, bind, Except.bind]
          | ok next =>
              rw [(hline reader next).mp hstep]
              exact hfold next reader'
        · simp only [mem_cons, exists_eq_or_imp, hmark, hcomment]

/-! ## Values -/

/-- The number of comment marks in a list of strings. -/
def marks (strings : List Str) : ℕ := (strings.map (List.count '#')).sum

theorem count_trim (s : Str) : (trim s).count '#' = s.count '#' := by
  have hstart : (trimStart s).count '#' = s.count '#' := by
    conv_rhs => rw [← takeWhile_append_dropWhile (p := isWhitespace) (l := s)]
    rw [count_append, trimStart]
    have hzero : (s.takeWhile isWhitespace).count '#' = 0 := by
      rw [count_eq_zero]
      intro hmem
      have hspace := mem_takeWhile_imp hmem
      revert hspace
      decide
    omega
  have hend : ∀ t : Str, (trimEnd t).count '#' = t.count '#' := by
    intro t
    conv_rhs => rw [← rdropWhile_append_rtakeWhile (p := isWhitespace) (l := t)]
    rw [count_append, trimEnd]
    have hzero : (t.rtakeWhile isWhitespace).count '#' = 0 := by
      rw [count_eq_zero]
      intro hmem
      have hspace := mem_rtakeWhile_imp hmem
      revert hspace
      decide
    omega
  rw [trim, hend, hstart]

theorem count_quoted {mark : Char} {value inner : Str} (hmark : mark ≠ '#')
    (h : quoted mark value = some inner) : inner.count '#' = value.count '#' := by
  rw [quoted, bind_eq_some_iff] at h
  obtain ⟨middle, hmiddle, hinner⟩ := h
  rw [stripStart_eq_some_iff] at hmiddle
  rw [stripEnd, isSuffixOf?_eq_some_iff_append_eq] at hinner
  rw [hmiddle, ← hinner]
  simp [hmark]

theorem count_unquote (value : Str) : (unquote value).count '#' = value.count '#' := by
  rw [unquote, count_trim]
  cases hdouble : quoted '"' value with
  | some inner =>
      rw [some_or, getD_some]
      exact count_quoted (by decide) hdouble
  | none =>
      rw [none_or]
      cases hsingle : quoted '\'' value with
      | some inner =>
          rw [getD_some]
          exact count_quoted (by decide) hsingle
      | none => rw [getD_none]

theorem scalar_eq : scalar = Frontmatter.scalar := rfl

theorem count_scalar {value result : Str} (h : Frontmatter.scalar value = .ok result) :
    result.count '#' = value.count '#' := by
  unfold Frontmatter.scalar at h
  dsimp only at h
  split at h
  · cases h
  · obtain rfl := ok.inj h
    rw [count_unquote, count_trim]

theorem marks_mapM {items results : List Str} (h : items.mapM Frontmatter.scalar = .ok results) :
    marks results = marks items := by
  induction items generalizing results with
  | nil =>
      obtain rfl := ok.inj h
      rfl
  | cons item rest ih =>
      rw [mapM_cons] at h
      obtain ⟨result, hitem, h⟩ := bind_eq_ok_iff.mp h
      obtain ⟨later, hrest, h⟩ := bind_eq_ok_iff.mp h
      obtain rfl := ok.inj h
      have htail := ih hrest
      unfold marks at htail ⊢
      rw [map_cons, map_cons, sum_cons, sum_cons, htail, count_scalar hitem]

theorem marks_splitOn (s : Str) : marks (s.splitOn ',') = s.count '#' := by
  have hjoin : ∀ parts : List Str, ([','].intercalate parts).count '#' = marks parts := by
    intro parts
    induction parts with
    | nil => rfl
    | cons part rest ih =>
        unfold marks at ih ⊢
        rw [map_cons, sum_cons, ← ih]
        by_cases hne : rest = []
        · rw [hne]
          simp
        · rw [intercalate_cons_of_ne_nil hne, count_append, count_append]
          simp
  rw [← hjoin, intercalate_splitOn]

/-- The scanner keeps every comment mark of a value. -/
theorem marks_inlineValues {value : Str} {values : List Str} (h : inlineValues value = .ok values) :
    marks values = value.count '#' := by
  unfold inlineValues at h
  cases hlist : (stripStart ['['] value).bind (stripEnd [']']) with
  | some inner =>
      rw [hlist] at h
      rw [bind_eq_some_iff] at hlist
      obtain ⟨middle, hmiddle, hinner⟩ := hlist
      rw [stripStart_eq_some_iff] at hmiddle
      rw [stripEnd, isSuffixOf?_eq_some_iff_append_eq] at hinner
      have hcount : inner.count '#' = value.count '#' := by
        rw [hmiddle, ← hinner]
        simp
      calc marks values = marks (inner.splitOn ',') := marks_mapM h
        _ = inner.count '#' := marks_splitOn inner
        _ = value.count '#' := hcount
  | none =>
      rw [hlist] at h
      dsimp only at h
      obtain ⟨result, hscalar, h⟩ := bind_eq_ok_iff.mp h
      obtain rfl := ok.inj h
      rw [← count_scalar hscalar]
      simp [marks]

theorem stringsOf_sequence (strings : List Str) :
    stringsOf (.sequence (strings.map .string)) = some strings := by
  rw [stringsOf, mapM_map]
  induction strings with
  | nil => rfl
  | cons string rest ih =>
      rw [mapM_cons, ih]
      rfl

/-- The strings of an inline value are read from it without its comment. -/
theorem strings_parseInline {value : Str} {inline : Option Inline}
    (htrim : trim value = value) (hne : value ≠ [])
    (h : parseInline value = .ok inline) :
    ∃ found strings, inline = some found ∧
      stringsOf (yamlValue found) = some strings ∧
      ((uncomment value).head? = some '[' ∧
          (uncomment value).getLast? = some ']' ∧
          ((uncomment value).tail.dropLast.splitOn ',').mapM Frontmatter.scalar =
            .ok strings ∨
        (uncomment value).head? ≠ some '[' ∧
          ∃ text, Frontmatter.scalar (uncomment value) = .ok text ∧
            strings = [text]) := by
  unfold parseInline at h
  dsimp only at h
  rw [htrim, if_neg hne] at h
  split at h
  · cases h
  split at h
  · cases h
  split at h
  · rename_i hbracket
    split at h
    · cases h
    · rename_i hend
      obtain ⟨strings, hvalues, h⟩ := bind_eq_ok_iff.mp h
      obtain rfl := ok.inj h
      exact ⟨.flowList strings, strings, rfl, stringsOf_sequence strings,
        Or.inl ⟨hbracket, not_not.mp hend, hvalues⟩⟩
  · rename_i hbracket
    obtain ⟨text, hscalar, h⟩ := bind_eq_ok_iff.mp h
    obtain rfl := ok.inj h
    exact ⟨.scalar text, [text], rfl, rfl, Or.inr ⟨hbracket, text, hscalar, rfl⟩⟩

/-- On one entry the readers agree exactly when no comment follows the value. -/
theorem inline_agree {indent : ℕ} {key value : Str} {inline : Option Inline}
    {values : List Str} (htrim : trim value = value) (hne : value ≠ [])
    (hlist : decide (value.head? = some '[') = decide (value.getLast? = some ']'))
    (hinline : parseInline value = .ok inline)
    (hvalues : inlineValues value = .ok values) :
    ∃ found strings, inline = some found ∧
      stringsOf (yamlValue found) = some strings ∧
      (strings = values ↔ ¬ (Line.entry indent key value).Commented) := by
  obtain ⟨found, strings, rfl, hstrings, hread⟩ := strings_parseInline htrim hne hinline
  refine ⟨found, strings, rfl, hstrings, ?_⟩
  by_cases hcomment : (Line.entry indent key value).Commented
  · refine iff_of_false ?_ (not_not.mpr hcomment)
    obtain ⟨hquote, hoccurs⟩ := hcomment
    obtain ⟨head, tail, hsplit, heq⟩ := splitOnceStr_of_infix hoccurs
    -- the comment takes at least one mark away
    have hless : (uncomment value).count '#' < value.count '#' := by
      have hhead : (uncomment value).count '#' ≤ head.count '#' := by
        rw [uncomment, if_neg hquote, stripInlineComment, hsplit, count_trim]
        dsimp only
        split
        · simp
        · rw [getD_some, trimEnd]
          exact (List.rdropWhile_prefix _ _).sublist.count_le '#'
      have hvalue : value.count '#' = head.count '#' + 1 + tail.count '#' := by
        rw [heq, count_append, count_append]
        rfl
      omega
    have hfew : marks strings ≤ (uncomment value).count '#' := by
      obtain ⟨_, _, hmap⟩ | ⟨_, text, hscalar, rfl⟩ := hread
      · rw [marks_mapM hmap, marks_splitOn]
        exact ((dropLast_sublist _).trans (tail_sublist _)).count_le '#'
      · rw [← count_scalar hscalar]
        simp [marks]
    intro hsame
    have hmany := marks_inlineValues hvalues
    rw [hsame] at hfew
    omega
  · refine iff_of_true ?_ hcomment
    have huncomment : uncomment value = value := by
      rw [uncomment]
      by_cases hquote : value.head? ∈ ['"', '\''].map some
      · rw [if_pos hquote, htrim]
      · have hnone : ¬ " #".toList <:+: value := fun hoccurs => hcomment ⟨hquote, hoccurs⟩
        rw [if_neg hquote, stripInlineComment, splitOnceStr_eq_none hnone]
        exact htrim
    rw [huncomment] at hread
    unfold inlineValues at hvalues
    obtain ⟨hhead, hlast, hmap⟩ | ⟨hhead, text, hscalar, rfl⟩ := hread
    · obtain ⟨rest, rfl⟩ : ∃ rest, value = '[' :: rest := by
        obtain ⟨x, rest, rfl⟩ := exists_cons_of_ne_nil hne
        obtain rfl : x = '[' := by simpa using hhead
        exact ⟨rest, rfl⟩
      obtain rfl | ⟨inner, c, rfl⟩ := eq_nil_or_concat rest
      · simp at hlast
      · rw [concat_eq_append] at hlast hmap hvalues
        obtain rfl : c = ']' := by
          rw [← cons_append, getLast?_append_of_ne_nil _ (by simp)] at hlast
          simpa using hlast
        have hstart : stripStart ['['] ('[' :: (inner ++ [']'])) = some (inner ++ [']']) :=
          stripStart_eq_some_iff.mpr rfl
        have hend : stripEnd [']'] (inner ++ [']']) = some inner := by
          rw [stripEnd, isSuffixOf?_eq_some_iff_append_eq]
        rw [hstart, bind_some, hend] at hvalues
        rw [tail_cons, dropLast_concat] at hmap
        exact ok.inj (hmap.symm.trans hvalues)
    · have hstart : stripStart ['['] value = none := by
        rw [eq_none_iff_forall_ne_some]
        intro rest hrest
        rw [stripStart_eq_some_iff] at hrest
        exact hhead (by rw [hrest]; rfl)
      rw [hstart, bind_none] at hvalues
      dsimp only at hvalues
      rw [scalar_eq, hscalar] at hvalues
      exact ok.inj hvalues

/-! ## Blocks -/

/-- A key without items waits for its list. -/
def Reader.waiting (reader : Reader) : Bool := reader.blockList.any fun list => !list.2.2

/-- The lines begin with a run of items that both readers take as the same strings; the tokens
are what is left. -/
def RunsTo (indent : ℕ) (lines : List Line) (tokens : List Token)
    (items items' : List YamlValue) : Prop :=
  ∃ (run rest : List Line) (strings : List Str), lines = run ++ rest ∧
    List.Forall₂ Reads rest tokens ∧ items' = items ++ strings.map .string ∧
    (∀ line ∈ run, ¬ line.Commented) ∧
    ∀ fields key keyIndent seen, keyIndent < indent →
      run.foldlM readLine ⟨fields, some (key, keyIndent, seen)⟩ =
        some ⟨fields ++ strings.map fun string => (key, string),
          some (key, keyIndent, seen || !run.isEmpty)⟩

theorem runsTo_stop {indent : ℕ} {lines : List Line} {tokens : List Token}
    {items : List YamlValue} (hreads : List.Forall₂ Reads lines tokens) :
    RunsTo indent lines tokens items items :=
  ⟨[], lines, [], rfl, hreads, by simp, by simp, by simp⟩

/-- The items of a list are the same strings for both readers. -/
theorem sequence_agree {fuel indent : ℕ} {lines : List Line}
    {tokens tokens' : List Token} {items items' : List YamlValue}
    (hreads : List.Forall₂ Reads lines tokens)
    (h : buildSequence fuel tokens indent items = .ok (tokens', items')) :
    RunsTo indent lines tokens' items items' := by
  induction fuel generalizing lines tokens items with
  | zero =>
      rw [buildSequence] at h
      obtain ⟨rfl, rfl⟩ := mk.inj (ok.inj h)
      exact runsTo_stop hreads
  | succ fuel ih =>
      cases hreads with
      | nil =>
          rw [buildSequence_nil] at h
          obtain ⟨rfl, rfl⟩ := mk.inj (ok.inj h)
          exact runsTo_stop List.Forall₂.nil
      | @cons line _ lines tokens hread hreads =>
          cases hread with
          | @entry keyIndent key value inline hkey htrim hinline =>
              rw [buildSequence_key] at h
              obtain ⟨rfl, rfl⟩ := mk.inj (ok.inj h)
              exact runsTo_stop (List.Forall₂.cons (.entry hkey htrim hinline) hreads)
          | @item itemIndent text value hscalar =>
              by_cases hindent : itemIndent = indent
              · rw [hindent, buildSequence_scalar] at h
                obtain ⟨run, rest, strings, rfl, hrest, rfl, hcomment, hfold⟩ := ih hreads h
                refine ⟨.item itemIndent text :: run, rest, value :: strings, rfl, hrest, ?_, ?_, ?_⟩
                · simp [yamlValue]
                · intro line hline
                  rw [mem_cons] at hline
                  obtain rfl | hline := hline
                  · exact id
                  · exact hcomment line hline
                · intro fields key keyIndent seen hlt
                  have hstep : readLine ⟨fields, some (key, keyIndent, seen)⟩
                      (.item itemIndent text) =
                        some ⟨fields ++ [(key, value)], some (key, keyIndent, true)⟩ := by
                    unfold readLine
                    dsimp only
                    rw [if_neg (by omega), scalar_eq, hscalar]
                    rfl
                  rw [foldlM_cons, hstep]
                  have hlater := hfold (fields ++ [(key, value)]) key keyIndent true hlt
                  refine hlater.trans ?_
                  simp
              · rw [buildSequence_other hindent] at h
                obtain ⟨rfl, rfl⟩ := mk.inj (ok.inj h)
                exact runsTo_stop (List.Forall₂.cons (.item hscalar) hreads)

/-- At the top level no item may come first. -/
theorem buildMapping_item_ne {fuel indent : ℕ} {itemKey : Option Str}
    {inline : Option Inline} {rest : List Token}
    {entries entries' : List (Str × YamlValue)} :
    buildMapping fuel (.seqItem indent itemKey inline :: rest) 0 entries ≠
      .ok ([], entries') := by
  intro h
  cases fuel with
  | zero =>
      rw [buildMapping] at h
      cases h
  | succ fuel =>
      unfold buildMapping at h
      rw [if_neg (Nat.not_lt_zero indent)] at h
      cases h

/-- What the scanner has read after an entry with a value. -/
theorem readLine_entry_spec {reader next : Reader} {indent : ℕ} {key value : Str}
    (hne : value ≠ []) (h : readLine reader (.entry indent key value) = some next) :
    decide (value.head? = some '[') = decide (value.getLast? = some ']') ∧
      ∃ values, inlineValues value = .ok values ∧
        next = ⟨reader.fields ++ values.map fun value => (key, value), none⟩ := by
  unfold readLine at h
  dsimp only at h
  split at h
  · cases h
  split at h
  · cases h
  split at h
  · cases h
  rename_i hlist
  refine ⟨not_not.mp hlist, ?_⟩
  obtain ⟨values, hvalues, hnext⟩ := map_eq_some_iff.mp h
  exact ⟨values, toOption_eq_some_iff.mp hvalues, hnext.symm⟩

/-- What one key has for either reader. -/
structure Group where
  key : Str
  value : YamlValue
  values : List Str

/-- The facts of a list of groups. -/
def factsOf (groups : List Group) : List (Str × Str) :=
  groups.flatMap fun group => group.values.map fun value => (group.key, value)

/-- An accepted body is a list of groups, which agree unless an entry carries a comment. -/
theorem mapping_agree {fuel : ℕ} {lines : List Line} {tokens : List Token}
    {reader reader' : Reader} {entries entries' : List (Str × YamlValue)}
    (hreads : List.Forall₂ Reads lines tokens) (hready : reader.waiting = false)
    (hbuild : buildMapping fuel tokens 0 entries = .ok ([], entries'))
    (hfold : lines.foldlM readLine reader = some reader') :
    ∃ groups : List Group, entries' = entries ++ groups.map (fun group => (group.key, group.value)) ∧
      reader'.fields = reader.fields ++ factsOf groups ∧
      ((∀ group ∈ groups, stringsOf group.value = some group.values) ↔
        ∀ line ∈ lines, ¬ line.Commented) := by
  induction fuel generalizing lines tokens reader entries with
  | zero =>
      rw [buildMapping] at hbuild
      obtain ⟨rfl, rfl⟩ := mk.inj (ok.inj hbuild)
      cases hreads
      obtain rfl := Option.some.inj hfold
      exact ⟨[], by simp, by simp [factsOf], by simp⟩
  | succ fuel ih =>
      cases hreads with
      | nil =>
          rw [buildMapping_nil] at hbuild
          obtain ⟨-, rfl⟩ := mk.inj (ok.inj hbuild)
          obtain rfl := Option.some.inj hfold
          exact ⟨[], by simp, by simp [factsOf], by simp⟩
      | @cons line _ lines tokens hread hreads =>
          cases hread with
          | item hscalar => exact absurd hbuild buildMapping_item_ne
          | @entry keyIndent key value inline hkey htrim hinline =>
              by_cases hindent : keyIndent = 0
              swap
              · rw [buildMapping_other hindent] at hbuild
                cases hbuild
              subst hindent
              rw [foldlM_cons] at hfold
              obtain ⟨next, hstep, hlater⟩ := bind_eq_some_iff.mp hfold
              have hwait : (reader.blockList.any fun list => !list.2.2) = false := hready
              by_cases hvalue : value = []
              · subst hvalue
                obtain rfl : none = inline := ok.inj hinline
                have hnext : next = ⟨reader.fields, some (key, 0, false)⟩ := by
                  simpa [readLine, hwait, hkey, eq_comm] using hstep
                subst hnext
                cases hreads with
                | nil =>
                    rw [buildMapping] at hbuild
                    cases hbuild
                | @cons line' _ lines tokens hread' hreads' =>
                    cases hread' with
                    | entry hkey' htrim' hinline' => cases hlater
                    | @item itemIndent text item hscalar =>
                        by_cases hdeep : itemIndent = 0
                        · subst hdeep
                          cases hlater
                        rw [buildMapping_sequence (Nat.pos_of_ne_zero hdeep)] at hbuild
                        obtain ⟨⟨tokens', items⟩, hsequence, hbuild⟩ :=
                          bind_eq_ok_iff.mp hbuild
                        dsimp only at hbuild
                        obtain ⟨run, rest, strings, hlines, hrest, hitems, hcomment, hrun⟩ :=
                          sequence_agree (List.Forall₂.cons (.item hscalar) hreads') hsequence
                        cases run with
                        | nil =>
                            -- the builder would stop before the item
                            rw [nil_append] at hlines
                            subst hlines
                            cases hrest with
                            | cons hfirst _ =>
                                cases hfirst with
                                | item _ => exact absurd hbuild buildMapping_item_ne
                        | cons first run =>
                            rw [hlines, foldlM_append,
                              hrun reader.fields key 0 false (Nat.pos_of_ne_zero hdeep)] at hlater
                            obtain ⟨groups, rfl, hfields, hagree⟩ := ih hrest rfl hbuild hlater
                            refine ⟨⟨key, .sequence items, strings⟩ :: groups, ?_, ?_, ?_⟩
                            · simp
                            · rw [hfields]
                              simp [factsOf]
                            · have hstrings : stringsOf (.sequence items) = some strings := by
                                rw [hitems, nil_append, stringsOf_sequence]
                              have hentry : ¬ (Line.entry 0 key []).Commented := by
                                intro hcomment
                                exact absurd hcomment.2 (by decide)
                              rw [hlines, forall_mem_cons, forall_mem_cons,
                                forall_mem_append, hagree]
                              exact ⟨fun h => ⟨hentry, hcomment, h.2⟩,
                                fun h => ⟨hstrings, h.2.2⟩⟩
              · obtain ⟨hlist, values, hvalues, rfl⟩ := readLine_entry_spec hvalue hstep
                obtain ⟨found, strings, rfl, hstrings, hsame⟩ :=
                  @inline_agree 0 key value inline values htrim hvalue hlist hinline hvalues
                rw [buildMapping_inline] at hbuild
                obtain ⟨groups, rfl, hfields, hagree⟩ := ih hreads rfl hbuild hlater
                refine ⟨⟨key, yamlValue found, values⟩ :: groups, ?_, ?_, ?_⟩
                · simp
                · rw [hfields]
                  simp [factsOf]
                · rw [forall_mem_cons, forall_mem_cons, hagree, ← hsame, hstrings,
                    Option.some.injEq]

/-! ## The two readers -/

theorem valuesOf_append (first second : List (Str × Str)) (key : Str) :
    valuesOf (first ++ second) key = valuesOf first key ++ valuesOf second key := by
  rw [valuesOf, filter_append, map_append, valuesOf, valuesOf]

theorem valuesOf_map (values : List Str) (key key' : Str) :
    valuesOf (values.map fun value => (key', value)) key = if key' = key then values else [] := by
  induction values with
  | nil => simp [valuesOf]
  | cons value rest ih =>
      unfold valuesOf at ih ⊢
      by_cases hkey : key' = key
      · rw [if_pos hkey] at ih ⊢
        rw [map_cons, filter_cons_of_pos (by simpa using hkey), map_cons, ih]
      · rw [if_neg hkey] at ih ⊢
        rw [map_cons, filter_cons_of_neg (by simpa using hkey), ih]

theorem valuesOf_factsOf_absent {groups : List Group} {key : Str}
    (hkey : key ∉ groups.map Group.key) : valuesOf (factsOf groups) key = [] := by
  induction groups with
  | nil => rfl
  | cons group rest ih =>
      rw [map_cons, mem_cons, not_or] at hkey
      rw [factsOf, flatMap_cons, valuesOf_append, valuesOf_map, if_neg (Ne.symm hkey.1)]
      exact ih hkey.2

theorem valuesOf_factsOf {groups : List Group} (hnodup : (groups.map Group.key).Nodup)
    {group : Group} (hgroup : group ∈ groups) :
    valuesOf (factsOf groups) group.key = group.values := by
  induction groups with
  | nil => cases hgroup
  | cons other rest ih =>
      rw [map_cons, nodup_cons] at hnodup
      rw [factsOf, flatMap_cons, valuesOf_append, valuesOf_map]
      rw [mem_cons] at hgroup
      obtain rfl | hgroup := hgroup
      · rw [if_pos rfl]
        have habsent : valuesOf (factsOf rest) group.key = [] := valuesOf_factsOf_absent hnodup.1
        rw [factsOf] at habsent
        rw [habsent, append_nil]
      · have hne : other.key ≠ group.key := fun h =>
          hnodup.1 (h ▸ List.mem_map_of_mem hgroup)
        rw [if_neg hne, nil_append]
        exact ih hnodup.2 hgroup

/-- A line that begins with a byte order mark has no valid key. -/
theorem yamlLine_mark (rest : Str) (reader' : Reader) :
    yamlLine ⟨[], none⟩ (Char.ofNat 0xFEFF :: rest) ≠ .ok reader' := by
  have hmark : isWhitespace (Char.ofNat 0xFEFF) = false := by decide
  have hlead : ∀ tail : Str, ∃ tail', trim (Char.ofNat 0xFEFF :: tail) =
      Char.ofNat 0xFEFF :: tail' := by
    intro tail
    obtain ⟨trail, htrail⟩ : trim (Char.ofNat 0xFEFF :: tail) <+: Char.ofNat 0xFEFF :: tail := by
      rw [trim, trimStart_cons hmark]
      exact rdropWhile_prefix _ _
    cases htrim : trim (Char.ofNat 0xFEFF :: tail) with
    | nil =>
        rw [trim, trimStart_cons hmark, trimEnd, rdropWhile_eq_nil_iff] at htrim
        have hspace := htrim (Char.ofNat 0xFEFF) (by simp)
        rw [hmark] at hspace
        cases hspace
    | cons x tail' =>
        rw [htrim, cons_append] at htrail
        exact ⟨tail', by rw [(List.cons.inj htrail).1]⟩
  obtain ⟨line, hline⟩ := hlead rest
  have hdash : stripStart "- ".toList (Char.ofNat 0xFEFF :: line) = none := by
    rw [eq_none_iff_forall_ne_some]
    intro after hafter
    rw [stripStart_eq_some_iff] at hafter
    have hhead := (List.cons.inj (show Char.ofNat 0xFEFF :: line = '-' :: ' ' :: after from hafter)).1
    revert hhead
    decide
  intro h
  unfold yamlLine at h
  dsimp only at h
  rw [hline, if_neg (by simp), hdash] at h
  dsimp only [any_none] at h
  rw [if_neg (by simp), splitOnce, if_neg (by decide)] at h
  cases hsplit : splitOnce ':' line with
  | none =>
      rw [hsplit] at h
      cases h
  | some halves =>
      rw [hsplit] at h
      dsimp only [map_some] at h
      obtain ⟨key, hkey⟩ := hlead halves.1
      have hinvalid : validKey (Char.ofNat 0xFEFF :: key) = false := by
        rw [validKey, all_cons]
        have hchar : ((Char.ofNat 0xFEFF).isAlphanum || Char.ofNat 0xFEFF = '_' ||
          Char.ofNat 0xFEFF = '-' || Char.ofNat 0xFEFF = '.') = false := by decide
        rw [hchar]
        simp
      rw [hkey, hinvalid] at h
      cases h

/-- A line of three dashes is no entry. -/
theorem yamlLine_fence (reader' : Reader) : yamlLine ⟨[], none⟩ "---".toList ≠ .ok reader' := by
  intro h
  cases h

/-- The scanner refuses a body with a first line that it refuses. -/
theorem yaml_first {body line : Str} {rest : List Str} {fields : List (Str × Str)}
    (hlines : Text.lines body = line :: rest) (h : yaml body = .ok fields) :
    ∃ reader', yamlLine ⟨[], none⟩ line = .ok reader' := by
  unfold yaml at h
  rw [hlines, foldlM_cons, bind_eq_ok_iff] at h
  obtain ⟨reader, hreader, _⟩ := h
  rw [bind_eq_ok_iff] at hreader
  obtain ⟨reader', hfirst, _⟩ := hreader
  exact ⟨reader', hfirst⟩

/-- A body that the scanner accepts has no fence and no byte order mark to strip. -/
theorem stripFences_of_yaml {body : Str} {fields : List (Str × Str)} (h : yaml body = .ok fields) :
    stripFences body = body := by
  have hstart : body.dropWhile (fun c => decide (c = Char.ofNat 0xFEFF)) = body := by
    cases body with
    | nil => rfl
    | cons c rest =>
        rw [dropWhile_cons_of_neg]
        intro hmark
        obtain rfl : c = Char.ofNat 0xFEFF := by simpa using hmark
        by_cases hbreak : '\n' ∈ rest
        · obtain ⟨before, after, rfl, hbefore⟩ := eq_append_cons_of_mem hbreak
          have hnot : '\n' ∉ Char.ofNat 0xFEFF :: before := by
            rw [mem_cons, not_or]
            exact ⟨by decide, hbefore⟩
          obtain ⟨reader', hfirst⟩ := yaml_first (lines_cons hnot after) h
          have hline : ∃ tail, dropCarriageReturn (Char.ofNat 0xFEFF :: before) =
              Char.ofNat 0xFEFF :: tail := by
            rw [dropCarriageReturn]
            cases hstrip : stripEnd ['\r'] (Char.ofNat 0xFEFF :: before) with
            | none => exact ⟨before, rfl⟩
            | some line =>
                rw [stripEnd, isSuffixOf?_eq_some_iff_append_eq] at hstrip
                cases line with
                | nil =>
                    have hhead := (List.cons.inj hstrip).1
                    exact absurd hhead (by decide)
                | cons x tail =>
                    rw [cons_append] at hstrip
                    exact ⟨tail, by rw [(List.cons.inj hstrip).1]; rfl⟩
          obtain ⟨tail, htail⟩ := hline
          rw [htail] at hfirst
          exact yamlLine_mark tail reader' hfirst
        · have hnot : '\n' ∉ Char.ofNat 0xFEFF :: rest := by
            rw [mem_cons, not_or]
            exact ⟨by decide, hbreak⟩
          obtain ⟨reader', hfirst⟩ :=
            yaml_first (lines_single hnot (cons_ne_nil _ _)) h
          exact yamlLine_mark rest reader' hfirst
  have hfence : ∀ fence : Str, '\n' ∉ fence → dropCarriageReturn fence = "---".toList →
      stripStart (fence ++ ['\n']) body = none := by
    intro fence hbreak hdashes
    rw [eq_none_iff_forall_ne_some]
    intro after hafter
    rw [stripStart_eq_some_iff, append_assoc] at hafter
    have hlines : Text.lines body = "---".toList :: Text.lines after := by
      rw [hafter, ← hdashes]
      exact lines_cons hbreak after
    obtain ⟨reader', hfirst⟩ := yaml_first hlines h
    exact yamlLine_fence reader' hfirst
  have hunix := hfence ['-', '-', '-'] (by decide) (by decide)
  have hwindows := hfence ['-', '-', '-', '\r'] (by decide) (by decide)
  exact stripFences_eq_self hstart hunix hwindows

/-- On a flat body that both readers accept, every key has the same values for both exactly when
no comment follows a value on its line. -/
theorem readers_agree_iff {body : Str} {fields : List (Str × Str)} {map : OrdMap Str YamlValue}
    (hflat : Flat body) (hyaml : yaml body = .ok fields)
    (hfrontmatter : parseFrontmatter body = .ok map) :
    Agree fields map ↔ ∀ raw ∈ Text.lines body, ¬ CommentedValue raw := by
  unfold parseFrontmatter at hfrontmatter
  rw [stripFences_of_yaml hyaml, bind_eq_ok_iff] at hfrontmatter
  obtain ⟨tokens, htokens, hfrontmatter⟩ := hfrontmatter
  rw [bind_eq_ok_iff] at hfrontmatter
  obtain ⟨⟨left, entries⟩, hbuild, hfrontmatter⟩ := hfrontmatter
  dsimp only at hfrontmatter
  split at hfrontmatter
  · cases hfrontmatter
  rename_i hleft
  obtain rfl : left = [] := not_not.mp hleft
  obtain ⟨read, hmap, htokens⟩ := bind_eq_ok_iff.mp htokens
  obtain rfl := Except.ok.inj htokens
  unfold yaml at hyaml
  rw [bind_eq_ok_iff] at hyaml
  obtain ⟨reader, hreader, hyaml⟩ := hyaml
  split at hyaml
  · cases hyaml
  obtain rfl := Except.ok.inj hyaml
  obtain ⟨lines, hreads, hfold, hcomment⟩ := read_lines hflat hmap
  obtain ⟨groups, hentries, hfields, hagree⟩ :=
    mapping_agree hreads rfl hbuild ((hfold _ _).mp hreader)
  obtain ⟨hnodup, -, rfl⟩ := insertFields_spec hfrontmatter
  rw [nil_append] at hentries hfields
  have hkeys : entries.map Prod.fst = groups.map Group.key := by
    rw [hentries, List.map_map]
    rfl
  have hstored : ∀ key value, (OrdMap.ofList entries).find? key = some value ↔
      ∃ group ∈ groups, group.key = key ∧ group.value = value := by
    intro key value
    rw [OrdMap.find?_ofList hnodup, hentries]
    simp
  have hbody : (∀ raw ∈ Text.lines body, ¬ CommentedValue raw) ↔
      ∀ line ∈ lines, ¬ line.Commented := by
    have hnot := not_congr hcomment
    push Not at hnot
    exact hnot
  rw [hbody, ← hagree, hfields]
  rw [hkeys] at hnodup
  constructor
  · intro h group hgroup
    have hgroupValue := h group.key
    have hfind : (OrdMap.ofList entries).find? group.key = some group.value :=
      (hstored _ _).mpr ⟨group, hgroup, rfl, rfl⟩
    change match (OrdMap.ofList entries).find? group.key with
      | none => valuesOf (factsOf groups) group.key = []
      | some value => stringsOf value = some (valuesOf (factsOf groups) group.key) at hgroupValue
    rw [hfind, valuesOf_factsOf hnodup hgroup] at hgroupValue
    exact hgroupValue
  · intro h key
    change match (OrdMap.ofList entries).find? key with
      | none => valuesOf (factsOf groups) key = []
      | some value => stringsOf value = some (valuesOf (factsOf groups) key)
    cases hfind : (OrdMap.ofList entries).find? key with
    | none =>
        apply valuesOf_factsOf_absent
        intro hmem
        obtain ⟨group, hgroup, rfl⟩ := List.mem_map.mp hmem
        rw [(hstored _ _).mpr ⟨group, hgroup, rfl, rfl⟩] at hfind
        cases hfind
    | some value =>
        obtain ⟨group, hgroup, rfl, rfl⟩ := (hstored _ _).mp hfind
        dsimp only
        rw [valuesOf_factsOf hnodup hgroup]
        exact h group hgroup

theorem readers_agree_plain : Agree [("type".toList, "Concept".toList)]
    (OrdMap.empty.insert "type".toList (.string "Concept".toList)) := by
  have hlines : Text.lines "type: Concept\n".toList = ["type: Concept".toList] := by decide +kernel
  have hdash : stripStart "- ".toList (trim "type: Concept".toList) = none := by
    decide +kernel
  have hflat : Flat "type: Concept\n".toList := by
    intro raw hraw rest hrest
    rw [hlines, mem_singleton] at hraw
    rw [hraw, hdash] at hrest
    cases hrest
  have hyaml : yaml "type: Concept\n".toList = .ok [("type".toList, "Concept".toList)] := by
    decide +kernel
  have hfrontmatter : parseFrontmatter "type: Concept\n".toList =
      .ok (OrdMap.empty.insert "type".toList (.string "Concept".toList)) := by
    rfl
  apply (readers_agree_iff hflat hyaml hfrontmatter).mpr
  intro raw hraw hcomment
  rw [hlines, mem_singleton] at hraw
  subst hraw
  obtain ⟨_, _, key, value, hsplit, _, hoccurs⟩ := hcomment
  have hhalves : splitOnce ':' (trim "type: Concept".toList) =
      some ("type".toList, " Concept".toList) := by decide +kernel
  obtain ⟨rfl, rfl⟩ := Prod.mk.inj (Option.some.inj (hhalves.symm.trans hsplit))
  revert hoccurs
  decide +kernel

/-- A header whose type is followed by a comment. -/
def commentedType : Str := "type: Concept # note\n".toList

/-- The scanner takes the comment for a part of the type. -/
theorem not_readers_agree : ¬ ∀ body fields map, Flat body → yaml body = .ok fields →
    parseFrontmatter body = .ok map → Agree fields map := by
  intro h
  have hyaml : yaml commentedType = .ok [("type".toList, "Concept # note".toList)] := by
    decide +kernel
  have hfrontmatter : parseFrontmatter commentedType =
      .ok (OrdMap.empty.insert "type".toList (.string "Concept".toList)) := by
    rfl
  have hflat : Flat commentedType := by
    intro raw hraw rest hrest
    have hlines : Text.lines commentedType = ["type: Concept # note".toList] := by decide +kernel
    rw [hlines, mem_singleton] at hraw
    have hnone : stripStart "- ".toList (trim "type: Concept # note".toList) = none := by
      decide +kernel
    rw [hraw, hnone] at hrest
    cases hrest
  have hagree := h _ _ _ hflat hyaml hfrontmatter "type".toList
  have hvalue : ["Concept".toList] = ["Concept # note".toList] := Option.some.inj hagree
  revert hvalue
  decide

end Bran.Metadata
