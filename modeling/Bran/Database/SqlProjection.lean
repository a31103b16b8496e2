import Bran.Database.SqlRelations
import Bran.Library.Encoding

/-!
# The text that is digested

The normalized text of a gated query is read as the tokens that were checked, so gating it
again changes nothing and equal texts mean equal token sequences (`gated_text_faithful`).

A projection is read as the tokens it was built from (`lexes_projection`); the only checks it
can fail are the two size limits of the gate, which come before its own limit of 256 columns.
-/

namespace Bran.Database

open List Text Validation

variable {columns : List Str} {allowed : List RelationName} {relation : RelationName}

/-! ## Lists of names and numbers -/

/-- A text that is read as a token before a comma, a blank or the end. -/
def ReadsAs (text : Str) (token : Token) : Prop :=
  ∃ c rest, text = c :: rest ∧ isBlank c = false ∧
    ∀ after : Str, (∀ d ∈ after.head?, d = ' ' ∨ d = ',') →
      lexToken c (rest ++ after) = .ok (token, after)

theorem readsAs_quoted {name : Str} (h : IsQuotable name) :
    ReadsAs ('"' :: (name ++ ['"'])) (.quoted name) := by
  refine ⟨'"', name ++ ['"'], rfl, rfl, fun after _ => ?_⟩
  rw [append_assoc]
  exact lexToken_quoted h after

theorem readsAs_decimal (n : ℕ) : ReadsAs (decimal n) (.literal (decimal n)) := by
  have hdigits : ∀ c ∈ decimal n, c.isDigit = true := fun c hc =>
    Nat.isDigit_of_mem_toDigits (by decide) (by decide) hc
  have hne : decimal n ≠ [] := Nat.toDigits_ne_nil
  cases hn : decimal n with
  | nil => exact absurd hn hne
  | cons c rest =>
      rw [hn] at hdigits
      have hc := hdigits c mem_cons_self
      have hblank : isBlank c = false := by
        have hbyte := isWordByte_of_isDigit hc
        simp [isBlank, not_isWordByte hbyte (show isWordByte ' ' = false by decide),
          not_isWordByte hbyte (show isWordByte '\t' = false by decide),
          not_isWordByte hbyte (show isWordByte '\n' = false by decide),
          not_isWordByte hbyte (show isWordByte '\r' = false by decide)]
      refine ⟨c, rest, rfl, hblank, fun after hafter => ?_⟩
      rw [lexToken_digit hc, ← cons_append]
      apply lexNumber_append (.whole hdigits)
      intro d hd
      obtain rfl | rfl := hafter d hd <;> decide

/-- A list with `", "` between its elements is read element by element. -/
theorem lexes_list (pieces : List (Str × Token)) (h : ∀ piece ∈ pieces, ReadsAs piece.1 piece.2)
    {after : Str} {tokens : List Token} (hafter : Lexes after tokens)
    (hhead : ∀ d ∈ after.head?, d = ' ') :
    Lexes (join ", ".toList (pieces.map Prod.fst) ++ after)
      ((pieces.map Prod.snd).intersperse (.symbol [',']) ++ tokens) := by
  induction pieces with
  | nil => exact hafter
  | cons piece rest ih =>
      rw [forall_mem_cons] at h
      obtain ⟨c, text, htext, hblank, hlex⟩ := h.1
      cases rest with
      | nil =>
          have hjoin : join ", ".toList [piece.1] ++ after = c :: (text ++ after) := by
            rw [join, intercalate_singleton, htext, cons_append]
          rw [map_singleton, hjoin]
          exact .token hblank (hlex after fun d hd => .inl (hhead d hd)) hafter
      | cons next rest =>
          have hjoin : join ", ".toList ((piece :: next :: rest).map Prod.fst) ++ after =
              c :: (text ++ ',' :: ' ' ::
                (join ", ".toList ((next :: rest).map Prod.fst) ++ after)) := by
            rw [join, map_cons, htext, map_cons, intercalate_cons_cons]
            simp [join]
          rw [hjoin]
          refine .token hblank (hlex _ fun d hd => .inr ?_) ?_
          · cases hd
            rfl
          · exact .token rfl rfl (.blank rfl (ih h.2))

/-! ## The tokens of a projection -/

/-- The columns of a projection: their texts and tokens. -/
def columnPieces (columns : List Str) : List (Str × Token) :=
  columns.map fun column => ('"' :: (column ++ ['"']), .quoted column)

/-- The positions of a projection: their texts and tokens. -/
def positionPieces (count : ℕ) : List (Str × Token) :=
  (List.range count).map fun index => (decimal (index + 1), .literal (decimal (index + 1)))

/-- The tokens of `projectionText`. -/
def projectionTokens (relation : RelationName) (columns : List Str) : List Token :=
  .word "select".toList :: (((columnPieces columns).map Prod.snd).intersperse (.symbol [',']) ++
    .word "from".toList :: .quoted relation.schema :: .symbol ['.'] :: .quoted relation.relation ::
    .word "order".toList :: .word "by".toList ::
    ((positionPieces columns.length).map Prod.snd).intersperse (.symbol [',']))

/-- Four tokens a column and five around them. -/
theorem length_projectionTokens (relation : RelationName) (h : columns ≠ []) :
    (projectionTokens relation columns).length = 4 * columns.length + 5 := by
  have hpos := length_pos_of_ne_nil h
  simp only [projectionTokens, columnPieces, positionPieces, length_cons, length_append,
    length_intersperse, length_map, length_range]
  omega

/-- A byte of a valid part is a byte of a quoted name, and no quote. -/
theorem isNameByte_of_part {c : Char} (h : (c.isLower || c.isDigit || c = '_') = true) :
    isNameByte c = true ∧ c ≠ '"' := by
  rw [Bool.or_eq_true, Bool.or_eq_true, decide_eq_true_eq, isLower_eq, Char.isDigit,
    Bool.and_eq_true, Bool.and_eq_true, decide_eq_true_eq, decide_eq_true_eq, decide_eq_true_eq,
    decide_eq_true_eq] at h
  obtain (⟨hlow, hhigh⟩ | ⟨hlow, hhigh⟩) | rfl := h
  · have hlow : 97 ≤ c.toNat := hlow
    have hhigh : c.toNat ≤ 122 := hhigh
    exact of_range (P := fun c => isNameByte c = true ∧ c ≠ '"') 97 26 (by decide) hlow
      (by omega)
  · have hlow : 48 ≤ c.toNat := hlow
    have hhigh : c.toNat ≤ 57 := hhigh
    exact of_range (P := fun c => isNameByte c = true ∧ c ≠ '"') 48 10 (by decide) hlow
      (by omega)
  · decide

theorem isQuotable_of_validPart {part : Str} (h : validPart part = true) : IsQuotable part := by
  rw [validPart, Bool.and_eq_true, Bool.and_eq_true, Bool.and_eq_true, decide_eq_true_eq,
    decide_eq_true_eq, all_eq_true] at h
  obtain ⟨⟨⟨hne, hlen⟩, _⟩, hall⟩ := h
  exact ⟨hne, hlen, fun c hc => (isNameByte_of_part (hall c hc)).1,
    fun hmem => (isNameByte_of_part (hall _ hmem)).2 rfl⟩

/-- A keyword in capitals before a blank. -/
theorem lexes_word (c : Char) (rest : Str) {after : Str} {tokens : List Token}
    (hstart : isWordStart c = true) (hblank : isBlank c = false)
    (hrest : rest.all isWordByte = true)
    (hafter : Lexes after tokens) :
    Lexes (c :: (rest ++ ' ' :: after))
      (.word (toAsciiLowercase (c :: rest)) :: tokens) := by
  have hall := all_eq_true.mp hrest
  refine .token hblank (lexToken_word hstart hall fun d hd => ?_) (.blank rfl hafter)
  cases hd
  rfl

theorem projectionText_eq (relation : RelationName) (columns : List Str) :
    projectionText relation columns = 'S' :: ("ELECT".toList ++ ' ' ::
      (join ", ".toList ((columnPieces columns).map Prod.fst) ++ ' ' :: 'F' :: ("ROM".toList ++
        ' ' :: '"' :: (relation.schema ++ '"' :: '.' :: '"' :: (relation.relation ++ '"' :: ' ' ::
          'O' :: ("RDER".toList ++ ' ' :: 'B' :: ("Y".toList ++ ' ' ::
            (join ", ".toList ((positionPieces columns.length).map Prod.fst) ++ [])))))))) := by
  have hselect : "SELECT ".toList = 'S' :: ("ELECT".toList ++ [' ']) := by decide
  have hfrom : " FROM \"".toList = ' ' :: 'F' :: ("ROM".toList ++ [' ', '"']) := by decide
  have hdot : "\".\"".toList = ['"', '.', '"'] := by decide
  have horder : "\" ORDER BY ".toList =
      '"' :: ' ' :: 'O' :: ("RDER".toList ++ ' ' :: 'B' :: ("Y".toList ++ [' '])) := by decide
  have hcolumns : columns.map (fun column => '"' :: (column ++ ['"'])) =
      (columnPieces columns).map Prod.fst := by
    rw [columnPieces, map_map]
    rfl
  have hpositions : (List.range columns.length).map (fun index => decimal (index + 1)) =
      (positionPieces columns.length).map Prod.fst := by
    rw [positionPieces, map_map]
    rfl
  unfold projectionText
  simp only [hselect, hfrom, hdot, horder, hcolumns, hpositions, append_assoc,
    cons_append, nil_append, append_nil]

theorem lexes_projection (relation : RelationName) (h : ∀ column ∈ columns, validPart column = true) :
    Lexes (projectionText relation columns) (projectionTokens relation columns) := by
  have hpositions : ∀ piece ∈ positionPieces columns.length, ReadsAs piece.1 piece.2 := by
    intro piece hpiece
    obtain ⟨index, _, rfl⟩ := mem_map.mp hpiece
    exact readsAs_decimal (index + 1)
  have hcolumns : ∀ piece ∈ columnPieces columns, ReadsAs piece.1 piece.2 := by
    intro piece hpiece
    obtain ⟨column, hcolumn, rfl⟩ := mem_map.mp hpiece
    exact readsAs_quoted (isQuotable_of_validPart (h column hcolumn))
  rw [projectionText_eq]
  apply lexes_word 'S' "ELECT".toList (by decide) (by decide) (by decide)
  apply lexes_list _ hcolumns _ (fun d hd => by cases hd; rfl)
  apply Lexes.blank rfl
  apply lexes_word 'F' "ROM".toList (by decide) (by decide) (by decide)
  apply Lexes.token rfl (lexToken_quoted (isQuotable_of_validPart relation.valid.1) _)
  apply Lexes.token rfl rfl
  apply Lexes.token rfl (lexToken_quoted (isQuotable_of_validPart relation.valid.2) _)
  apply Lexes.blank rfl
  apply lexes_word 'O' "RDER".toList (by decide) (by decide) (by decide)
  apply lexes_word 'B' "Y".toList (by decide) (by decide) (by decide)
  have hend := lexes_list _ hpositions .done (fun d hd => by cases hd)
  simpa only [append_nil] using hend

/-! ## The checks on a projection -/

/-- A token that none of the checks looks at: no parenthesis, dot or unquoted word. -/
def Plain (token : Token) : Prop :=
  (∃ name, token = .quoted name) ∨ (∃ text, token = .literal text) ∨ token = .symbol [',']

theorem plain_intersperse {tokens : List Token} (h : ∀ token ∈ tokens, Plain token) :
    ∀ token ∈ tokens.intersperse (.symbol [',']), Plain token := by
  induction tokens with
  | nil => exact h
  | cons token rest ih =>
      cases rest with
      | nil => exact h
      | cons next rest =>
          rw [forall_mem_cons] at h
          rw [intersperse_cons_cons, forall_mem_cons, forall_mem_cons]
          exact ⟨h.1, .inr (.inr rfl), ih h.2⟩

theorem plain_columns (columns : List Str) :
    ∀ token ∈ ((columnPieces columns).map Prod.snd).intersperse (.symbol [',']), Plain token := by
  apply plain_intersperse
  intro token htoken
  obtain ⟨piece, hpiece, rfl⟩ := mem_map.mp htoken
  obtain ⟨column, _, rfl⟩ := mem_map.mp hpiece
  exact .inl ⟨column, rfl⟩

theorem plain_positions (count : ℕ) :
    ∀ token ∈ ((positionPieces count).map Prod.snd).intersperse (.symbol [',']), Plain token := by
  apply plain_intersperse
  intro token htoken
  obtain ⟨piece, hpiece, rfl⟩ := mem_map.mp htoken
  obtain ⟨index, _, rfl⟩ := mem_map.mp hpiece
  exact .inr (.inl ⟨_, rfl⟩)

/-- What a plain token is not. -/
theorem Plain.spec {token : Token} (h : Plain token) :
    token ≠ .symbol ['('] ∧ token ≠ .symbol [')'] ∧ token.isSymbol "." = false ∧
      ∀ word, token ≠ .word word := by
  obtain ⟨name, rfl⟩ | ⟨text, rfl⟩ | rfl := h
  · exact ⟨by simp, by simp, rfl, by simp⟩
  · exact ⟨by simp, by simp, rfl, by simp⟩
  · exact ⟨by decide, by decide, rfl, by simp⟩

/-- Without `(` and `IN` there is nothing to refuse. -/
theorem checkCalls_eq_ok {previous : Option Token} {tokens : List Token}
    (h : ∀ token ∈ tokens, token ≠ .symbol ['('] ∧ token.isWord "in" = false) :
    checkCalls previous tokens = .ok () := by
  induction tokens generalizing previous with
  | nil => rfl
  | cons first rest ih =>
      cases rest with
      | nil => rfl
      | cons second rest =>
          rw [forall_mem_cons] at h
          have hopen : second.isSymbol "(" = false :=
            isSymbol_eq_false (h.2 second mem_cons_self).1
          rw [checkCalls, hopen, h.1.2]
          exact ih h.2

/-- Outside the list the loop passes over a token. -/
theorem relationsFrom_skip {found : List RelationName} {token : Token} {rest : List Token}
    (fuel : ℕ) (hopen : token ≠ .symbol ['(']) (hclose : token ≠ .symbol [')'])
    (hfrom : token.isWord "from" = false) (hrest : ∀ next ∈ rest.head?, next.isSymbol "." = false) :
    relationsFrom allowed (fuel + 1) 0 false found (token :: rest) =
      relationsFrom allowed fuel 0 false found rest := by
  have hstarts : startsRelation 0 false token = false := by
    rw [startsRelation, hfrom]
    rfl
  rw [relationsFrom, nextDepth_other hopen hclose, ok_bind, Bool.false_and]
  dsimp only
  rw [hstarts]
  cases hname : token.name with
  | none =>
      rw [chain_of_name_eq_none hname]
      rfl
  | some name =>
      rw [chain_of_single hname hrest]
      rfl

/-- Outside the list the loop passes over plain tokens. -/
theorem relationsFrom_plain {found : List RelationName} {run rest : List Token} (fuel : ℕ)
    (hrun : ∀ token ∈ run, Plain token) (hrest : ∀ next ∈ rest.head?, next.isSymbol "." = false) :
    relationsFrom allowed (run.length + fuel) 0 false found (run ++ rest) =
      relationsFrom allowed fuel 0 false found rest := by
  induction run with
  | nil => rw [length_nil, Nat.zero_add, nil_append]
  | cons token run ih =>
      rw [forall_mem_cons] at hrun
      obtain ⟨hopen, hclose, _, hword⟩ := hrun.1.spec
      have hnext : ∀ next ∈ (run ++ rest).head?, next.isSymbol "." = false := by
        cases run with
        | nil => exact hrest
        | cons first run =>
            intro next hmem
            cases hmem
            exact (hrun.2 first mem_cons_self).spec.2.2.1
      have hlength : (token :: run).length + fuel = (run.length + fuel) + 1 := by
        rw [length_cons]
        omega
      rw [hlength, cons_append,
        relationsFrom_skip _ hopen hclose (isWord_eq_false (hword _)) hnext, ih hrun.2]

theorem relationOf_parts {name : RelationName} (h : name ∈ allowed) :
    relationOf allowed name.parts = .ok name := by
  have hparse : RelationName.parse (name.schema ++ '.' :: name.relation) = some name := by
    unfold RelationName.parse
    rw [splitOnce_append (not_mem_of_validPart name.valid.1)]
    exact dif_pos name.valid
  rw [RelationName.parts, relationOf, hparse, Option.filter_some, if_pos (decide_eq_true h)]

/-- The relation of a projection, at its place in the text. -/
theorem relationsFrom_from (h : relation ∈ allowed) (fuel : ℕ) (rest : List Token) :
    relationsFrom allowed (fuel + 2) 0 false [] (.word "from".toList :: .quoted relation.schema ::
      .symbol ['.'] :: .quoted relation.relation :: .word "order".toList :: rest) =
      relationsFrom allowed fuel 0 false [relation] rest := by
  have hchain : chain (.quoted relation.schema :: .symbol ['.'] :: .quoted relation.relation ::
      .word "order".toList :: rest) = (relation.parts, .word "order".toList :: rest) := rfl
  have hfrom : ∀ fuel tokens, relationsFrom allowed (fuel + 1) 0 false []
      (.word "from".toList :: tokens) = (do
        let name ← relationOf allowed (chain tokens).1
        let next ← skipAlias (chain tokens).2
        checkFollower next
        relationsFrom allowed fuel 0 true [name] next) := fun _ _ => rfl
  rw [hfrom, hchain, relationOf_parts h, ok_bind]
  rfl

theorem relations_projection (h : relation ∈ allowed) (columns : List Str) :
    relations (projectionTokens relation columns) allowed = .ok [relation] := by
  have hcolumns := plain_columns columns
  have hpositions := plain_positions columns.length
  unfold relations projectionTokens
  generalize ((columnPieces columns).map Prod.snd).intersperse (.symbol [',']) = names at *
  generalize ((positionPieces columns.length).map Prod.snd).intersperse (.symbol [',']) = positions
    at *
  -- one unit of fuel for each token and some to spare
  have hfuel : (Token.word "select".toList :: (names ++ Token.word "from".toList ::
      .quoted relation.schema :: .symbol ['.'] :: .quoted relation.relation ::
      .word "order".toList :: .word "by".toList :: positions)).length + 1 =
      (names.length + ((positions.length + 4) + 1 + 2)) + 1 := by
    simp only [length_cons, length_append]
    omega
  have hnames : ∀ next ∈ (names ++ Token.word "from".toList :: .quoted relation.schema ::
      .symbol ['.'] :: .quoted relation.relation :: .word "order".toList :: .word "by".toList ::
      positions).head?, next.isSymbol "." = false := by
    cases names with
    | nil =>
        intro next hnext
        cases hnext
        rfl
    | cons first names =>
        intro next hnext
        cases hnext
        exact (hcolumns first mem_cons_self).spec.2.2.1
  have hby : ∀ next ∈ positions.head?, next.isSymbol "." = false := fun next hnext =>
    (hpositions next (mem_of_mem_head? hnext)).spec.2.2.1
  have hend : relationsFrom allowed (positions.length + 4) 0 false [relation] (positions ++ []) =
      relationsFrom allowed 4 0 false [relation] [] :=
    relationsFrom_plain 4 hpositions fun next hnext => by cases hnext
  rw [append_nil] at hend
  rw [hfuel, relationsFrom_skip _ (by decide) (by decide) rfl hnames,
    relationsFrom_plain _ hcolumns (by simp [Token.isSymbol]), relationsFrom_from h,
    relationsFrom_skip _ (by decide) (by decide) rfl hby, hend]
  rfl

theorem hasOrderBy_append {run : List Token} (rest : List Token) :
    hasOrderBy (run ++ .word "order".toList :: .word "by".toList :: rest) = true := by
  induction run with
  | nil => rfl
  | cons first run ih =>
      cases run with
      | nil =>
          rw [singleton_append, hasOrderBy]
          rw [nil_append] at ih
          rw [ih, Bool.or_true]
      | cons second run =>
          rw [cons_append, cons_append, hasOrderBy]
          rw [cons_append] at ih
          rw [ih, Bool.or_true]

/-- The tokens around the columns and positions are words the gate knows, quoted names and a dot. -/
theorem mem_projectionTokens {token : Token} (h : token ∈ projectionTokens relation columns) :
    Plain token ∨ token = .symbol ['.'] ∨
      token ∈ ["select", "from", "order", "by"].map fun word => Token.word word.toList := by
  simp only [projectionTokens, mem_cons, mem_append] at h
  obtain rfl | h | rfl | rfl | rfl | rfl | rfl | rfl | h := h
  · exact .inr (.inr (by decide))
  · exact .inl (plain_columns columns token h)
  · exact .inr (.inr (by decide))
  · exact .inl (.inl ⟨_, rfl⟩)
  · exact .inr (.inl rfl)
  · exact .inl (.inl ⟨_, rfl⟩)
  · exact .inr (.inr (by decide))
  · exact .inr (.inr (by decide))
  · exact .inl (plain_positions columns.length token h)

/-- The words of a projection are its own four. -/
theorem filter_select_projection (relation : RelationName) (columns : List Str) :
    (projectionTokens relation columns).filter (Token.isWord "select") =
      [.word "select".toList] := by
  have hplain : ∀ run : List Token, (∀ token ∈ run, Plain token) →
      run.filter (Token.isWord "select") = [] := by
    intro run hrun
    apply filter_eq_nil_iff.mpr
    intro token htoken
    rw [isWord_eq_false ((hrun token htoken).spec.2.2.2 _)]
    decide
  rw [projectionTokens, filter_cons_of_pos (by decide), filter_append,
    hplain _ (plain_columns columns), nil_append, filter_cons_of_neg (by decide),
    filter_cons_of_neg (by simp [Token.isWord]), filter_cons_of_neg (by decide),
    filter_cons_of_neg (by simp [Token.isWord]), filter_cons_of_neg (by decide),
    filter_cons_of_neg (by decide), hplain _ (plain_positions columns.length)]

/-- The tokens of a projection pass every check on tokens. -/
theorem gateTokens_projection (h : relation ∈ allowed) (columns : List Str) :
    ∃ query, gateTokens (projectionTokens relation columns) allowed .projection = .ok query := by
  have hcalls : checkCalls none (projectionTokens relation columns) = .ok () := by
    apply checkCalls_eq_ok
    intro token htoken
    obtain hplain | rfl | hword := mem_projectionTokens htoken
    · exact ⟨hplain.spec.1, isWord_eq_false (hplain.spec.2.2.2 _)⟩
    · decide
    · simp only [map_cons, map_nil, mem_cons, not_mem_nil, or_false] at hword
      obtain rfl | rfl | rfl | rfl := hword <;> decide
  have horder : hasOrderBy (projectionTokens relation columns) = true := by
    have hsplit : projectionTokens relation columns = (.word "select".toList ::
        (((columnPieces columns).map Prod.snd).intersperse (.symbol [',']) ++
          [.word "from".toList, .quoted relation.schema, .symbol ['.'],
            .quoted relation.relation])) ++
        .word "order".toList :: .word "by".toList ::
          ((positionPieces columns.length).map Prod.snd).intersperse (.symbol [',']) := by
      rw [projectionTokens, cons_append, append_assoc]
      rfl
    rw [hsplit]
    exact hasOrderBy_append _
  refine ⟨⟨joinTexts (projectionTokens relation columns),
    digestText (bytes (joinTexts (projectionTokens relation columns))), [relation],
    .projection⟩, ?_⟩
  unfold gateTokens
  simp only [check_bind_eq_ok_iff, failIf_eq_ok_iff,
    refuse_eq_ok_iff, filter_select_projection]
  refine ⟨cons_ne_nil _ _, findSome?_eq_none_iff.mpr fun token htoken => ?_, by decide,
    by simp [projectionTokens, Token.isWord], hcalls, ?_⟩
  · obtain hplain | rfl | hword := mem_projectionTokens htoken
    · cases token with
      | word text => exact absurd rfl (hplain.spec.2.2.2 text)
      | _ => rfl
    · rfl
    · simp only [map_cons, map_nil, mem_cons, not_mem_nil, or_false] at hword
      obtain rfl | rfl | rfl | rfl := hword <;> decide
  · rw [relations_projection h, ok_bind, horder]
    rfl

theorem not_backslash_of_validPart {part : Str} (h : validPart part = true) : '\\' ∉ part := by
  intro hmem
  rw [validPart, Bool.and_eq_true, all_eq_true] at h
  exact absurd (h.2 _ hmem) (by decide)

theorem not_backslash_projectionText (relation : RelationName)
    (h : ∀ column ∈ columns, validPart column = true) :
    '\\' ∉ projectionText relation columns := by
  have hcolumns : '\\' ∉ join ", ".toList
      (columns.map fun column => '"' :: (column ++ ['"'])) := by
    apply not_mem_join (by decide)
    intro part hpart
    obtain ⟨column, hcolumn, rfl⟩ := mem_map.mp hpart
    simpa using not_backslash_of_validPart (h column hcolumn)
  have hpositions : '\\' ∉ join ", ".toList
      ((List.range columns.length).map fun index => decimal (index + 1)) := by
    apply not_mem_join (by decide)
    intro part hpart hmem
    obtain ⟨index, _, rfl⟩ := mem_map.mp hpart
    exact absurd (Nat.isDigit_of_mem_toDigits (by decide) (by decide) hmem) (by decide)
  unfold projectionText
  simp only [mem_append, not_or]
  exact ⟨⟨⟨⟨⟨⟨⟨by decide, hcolumns⟩, by decide⟩, not_backslash_of_validPart relation.valid.1⟩,
    by decide⟩, not_backslash_of_validPart relation.valid.2⟩, by decide⟩, hpositions⟩

/-! ## The normalized text -/

/-- A projection over valid distinct columns passes exactly within the limits on texts. -/
theorem project_eq_ok_iff (hne : columns ≠ []) (hnodup : columns.Nodup)
    (hvalid : ∀ column ∈ columns, validPart column = true) (hallowed : relation ∈ allowed) :
    (∃ query, project relation columns allowed = .ok query) ↔
      columns.length ≤ 254 ∧ byteLen (projectionText relation columns) ≤ maxSqlBytes := by
  have hlexes := lexes_projection relation hvalid
  have hlength := length_projectionTokens relation hne
  constructor
  · intro h
    obtain ⟨query, h⟩ := h
    rw [project, check_bind_eq_ok_iff] at h
    obtain ⟨hbytes, tokens, htokens, _⟩ := gate_eq_ok h.2
    obtain ⟨_, hread, hcount⟩ := tokenize_eq_ok_iff.mp htokens
    rw [hread.unique hlexes, hlength, maxSqlTokens] at hcount
    exact ⟨by omega, hbytes⟩
  · intro h
    obtain ⟨hcount, hbytes⟩ := h
    have hslash := not_backslash_projectionText relation hvalid
    have htokens : tokenize (projectionText relation columns) =
        .ok (projectionTokens relation columns) :=
      tokenize_eq_ok_iff.mpr ⟨hslash, hlexes, by rw [hlength, maxSqlTokens]; omega⟩
    obtain ⟨query, hquery⟩ := gateTokens_projection hallowed columns
    refine ⟨query, ?_⟩
    rw [project, check_bind_eq_ok_iff, failIf_eq_ok_iff, not_or, not_or,
      not_or, not_lt, not_not, Bool.not_eq_false]
    refine ⟨⟨hne, by omega, hnodup, all_eq_true.mpr hvalid⟩, ?_⟩
    rw [gateAs, check_bind_eq_ok_iff, failIf_eq_ok_iff, not_lt, htokens]
    exact ⟨hbytes, hquery⟩

/-- The text that is digested and run is the text that was checked. -/
theorem gated_text_faithful :
    (∀ sql allowed query, gate sql allowed = .ok query → ∃ tokens, tokenize sql = .ok tokens ∧
      Spells sql tokens ∧ tokenize query.sql = .ok tokens ∧
      (byteLen query.sql ≤ maxSqlBytes → gate query.sql allowed = .ok query)) ∧
    (∀ sql sql' allowed allowed' query query', gate sql allowed = .ok query →
      gate sql' allowed' = .ok query' → (query.sql = query'.sql ↔ tokenize sql = tokenize sql')) ∧
    ∀ relation columns allowed, columns ≠ [] → columns.Nodup →
      (∀ column ∈ columns, validPart column = true) → relation ∈ allowed →
      ((∃ query, project relation columns allowed = .ok query) ↔
        columns.length ≤ 254 ∧
          byteLen (projectionText relation columns) ≤ maxSqlBytes) := by
  have hread : ∀ sql allowed query, gate sql allowed = .ok query → ∃ tokens,
      tokenize sql = .ok tokens ∧ gateTokens tokens allowed .query = .ok query ∧
        query.sql = joinTexts tokens ∧ tokenize query.sql = .ok tokens := by
    intro sql allowed query h
    obtain ⟨_, tokens, htokens, hgate⟩ := gate_eq_ok h
    obtain ⟨_, _, _, _, _, _, hsql, _⟩ := gateTokens_eq_ok hgate
    exact ⟨tokens, htokens, hgate, hsql, by rw [hsql]; exact tokenize_join htokens⟩
  refine ⟨fun sql allowed query h => ?_, fun sql sql' allowed allowed' query query' h h' => ?_, ?_⟩
  · obtain ⟨tokens, htokens, hgate, _, hagain⟩ := hread sql allowed query h
    refine ⟨tokens, htokens, (tokenize_eq_ok_iff.mp htokens).2.1.spells, hagain, fun hbytes => ?_⟩
    rw [gate, gateAs, check_bind_eq_ok_iff, failIf_eq_ok_iff, not_lt, hagain]
    exact ⟨hbytes, hgate⟩
  · obtain ⟨tokens, htokens, _, hsql, hagain⟩ := hread sql allowed query h
    obtain ⟨tokens', htokens', _, hsql', hagain'⟩ := hread sql' allowed' query' h'
    rw [htokens, htokens']
    constructor
    · intro heq
      rw [← hagain, ← hagain', heq]
    · intro heq
      rw [hsql, hsql', Except.ok.inj heq]
  · intro relation columns allowed hne hnodup hvalid hallowed
    exact project_eq_ok_iff hne hnodup hvalid hallowed

theorem gated_text_faithful_plain :
    ∃ query tokens, gate plainText [ordersRelation] = .ok query ∧
      tokenize query.sql = .ok tokens := by
  have haccepted : (gate plainText [ordersRelation]).toOption.isSome = true := by decide +kernel
  cases hgate : gate plainText [ordersRelation] with
  | error rejection =>
      rw [hgate] at haccepted
      cases haccepted
  | ok query =>
      obtain ⟨tokens, _, _, hagain, _⟩ := gated_text_faithful.1 plainText [ordersRelation] query hgate
      exact ⟨query, tokens, rfl, hagain⟩

/-- The columns `c0` to `c254`. -/
def manyColumns : List Str := (List.range 255).map fun index => 'c' :: decimal index

theorem validPart_manyColumns : ∀ column ∈ manyColumns, validPart column = true := by decide +kernel

theorem not_gated_text_faithful :
    ¬ ∀ relation columns allowed, columns ≠ [] → columns.length ≤ 256 → columns.Nodup →
      (∀ column ∈ columns, validPart column = true) → relation ∈ allowed →
      ∃ query, project relation columns allowed = .ok query := by
  intro h
  have hne : manyColumns ≠ [] := cons_ne_nil _ _
  have hlength : manyColumns.length = 255 := by
    rw [manyColumns, length_map, length_range]
  have hnodup : manyColumns.Nodup := by
    refine List.Nodup.map (fun first second heq => ?_) nodup_range
    exact Encoding.decimal_injective (List.cons.inj heq).2
  have hpass := h ordersRelation manyColumns [ordersRelation] hne (by omega) hnodup
    validPart_manyColumns (mem_singleton.mpr rfl)
  have hlimits := (project_eq_ok_iff hne hnodup validPart_manyColumns
    (mem_singleton.mpr rfl)).mp hpass
  omega

end Bran.Database
