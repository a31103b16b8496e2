import Bran.Library.Text
import Bran.Library.Validation

/-!
# SQL tokens

`tokenize` of `database/sql.rs` and what it guarantees.  A text is read as a sequence of
tokens separated by blanks (`Lexes`); each token keeps its spelling, an unquoted word in
lowercase (`Spells`); and the texts of the tokens, put one blank apart, are read as the same
tokens again (`lexes_join`), whatever literals, decimals or symbols stand side by side.
-/

namespace Bran.Database

open List Text Validation

variable {c : Char} {after s : Str}

def maxSqlTokens : ℕ := 1024

inductive SqlRejection
  | empty
  | tooLarge
  | malformed
  | comment
  | multiStatement
  | unsupportedCharacter
  | unterminatedLiteral
  | notSelect
  | writeOrDdl
  | sessionMutation
  | procedureCall
  | externalReference
  | compound
  | unsafeFunction
  | unqualifiedRelation
  | relationNotAllowed
  | unordered
  | invalidProjection
  deriving DecidableEq, Repr

inductive Token
  /-- Unquoted word, lowercased. -/
  | word (text : Str)
  /-- Double-quoted identifier content. -/
  | quoted (name : Str)
  /-- String or number literal, verbatim. -/
  | literal (text : Str)
  | param (text : Str)
  | symbol (text : Str)
  deriving DecidableEq, Repr

def Token.text : Token → Str
  | .word text | .literal text | .param text => text
  | .quoted name => '"' :: (name ++ ['"'])
  | .symbol text => text

/-! ## The tokenizer -/

/-- The blanks between tokens. -/
def isBlank (c : Char) : Bool := c = ' ' || c = '\t' || c = '\n' || c = '\r'

def isWordStart (c : Char) : Bool := c.isAlpha || c = '_'

def isWordByte (c : Char) : Bool := c.isAlphanum || c = '_'

/-- A byte of a quoted name: graphic ASCII or a space. -/
def isNameByte (c : Char) : Bool := (0x21 ≤ c.toNat && c.toNat ≤ 0x7E) || c = ' '

/-- The symbols, in the order in which they are tried. -/
def symbols : List Str :=
  ["<=".toList, ">=".toList, "<>".toList, "!=".toList, "||".toList, ['('], [')'], [','], ['.'],
    ['*'], ['='], ['<'], ['>'], ['+'], ['-'], ['/'], ['%']]

/-- The rest of a string literal after its opening quote, through its closing one. -/
def lexString : Str → Except SqlRejection (Str × Str)
  | [] => .error .unterminatedLiteral
  | c :: rest =>
      if c = Char.ofNat 0 then .error .unsupportedCharacter
      else if c = '\'' then
        match rest with
        | [] => .ok (['\''], [])
        | d :: after =>
            -- a doubled quote stands for one and does not close the literal
            if d = '\'' then (lexString after).map fun halves => ('\'' :: '\'' :: halves.1, halves.2)
            else .ok (['\''], d :: after)
      else (lexString rest).map fun halves => (c :: halves.1, halves.2)

/-- A quoted name after its opening quote. -/
def lexQuoted (rest : Str) : Except SqlRejection (Token × Str) :=
  match splitOnce '"' rest with
  | none => .error .unterminatedLiteral
  | some (name, after) =>
      if name = [] ∨ 63 < byteLen name ∨ name.all isNameByte = false then
        .error .unsupportedCharacter
      else .ok (.quoted name, after)

/-- The digits of a number with its decimal places, and what follows them. -/
def splitNumber (s : Str) : Str × Str :=
  let whole := s.takeWhile Char.isDigit
  match s.dropWhile Char.isDigit with
  | dot :: digit :: rest =>
      if dot = '.' ∧ digit.isDigit then
        (whole ++ dot :: (digit :: rest).takeWhile Char.isDigit,
          (digit :: rest).dropWhile Char.isDigit)
      else (whole, dot :: digit :: rest)
  | after => (whole, after)

def lexNumber (s : Str) : Except SqlRejection (Token × Str) :=
  let (text, after) := splitNumber s
  if after.head?.any isWordStart then .error .malformed else .ok (.literal text, after)

/-- The first symbol that the text starts with. -/
def lexSymbol (s : Str) : Except SqlRejection (Token × Str) :=
  match symbols.findSome? fun symbol => (stripStart symbol s).map fun rest => (symbol, rest) with
  | some (symbol, rest) => .ok (.symbol symbol, rest)
  | none => .error .unsupportedCharacter

/-- One token that starts at `c`, and the text after it. -/
def lexToken (c : Char) (rest : Str) : Except SqlRejection (Token × Str) :=
  if c = '-' ∧ rest.head? = some '-' then .error .comment
  else if c = '/' ∧ rest.head? = some '*' then .error .comment
  else if c = ';' then .error .multiStatement
  else if c = '@' then .error .externalReference
  else if c = '\'' then (lexString rest).map fun halves => (.literal (c :: halves.1), halves.2)
  else if c = '"' then lexQuoted rest
  else if c = '?' then .ok (.param ['?'], rest)
  else if c = '$' then
    if rest.takeWhile Char.isDigit = [] then .error .unsupportedCharacter
    else .ok (.param (c :: rest.takeWhile Char.isDigit), rest.dropWhile Char.isDigit)
  else if c.isDigit then lexNumber (c :: rest)
  else if isWordStart c then
    .ok (.word (toAsciiLowercase (c :: rest.takeWhile isWordByte)), rest.dropWhile isWordByte)
  else lexSymbol (c :: rest)

/-- The loop of `tokenize` after a number of tokens pushed. -/
def tokenizeFrom : ℕ → ℕ → Str → Except SqlRejection (List Token)
  | 0, _, _ => .ok []
  | _ + 1, _, [] => .ok []
  | fuel + 1, pushed, c :: rest =>
      if isBlank c then tokenizeFrom fuel pushed rest
      else do
        let (token, after) ← lexToken c rest
        failIf (maxSqlTokens < pushed + 1) .tooLarge
        let tokens ← tokenizeFrom fuel (pushed + 1) after
        pure (token :: tokens)

def tokenize (sql : Str) : Except SqlRejection (List Token) := do
  failIf ('\\' ∈ sql) .unsupportedCharacter
  tokenizeFrom (sql.length + 1) 0 sql

/-! ## Spellings -/

/-- How a token is spelled in the text: verbatim, an unquoted word in any letter case. -/
def Token.SpelledAs : Token → Str → Prop
  | .word text, spelling => text = toAsciiLowercase spelling
  | token, spelling => token.text = spelling

/-- A text whose blanks separate the spellings of a token sequence. -/
inductive Spells : Str → List Token → Prop
  | done : Spells [] []
  | blank {c : Char} {rest : Str} {tokens : List Token} : isBlank c = true → Spells rest tokens →
      Spells (c :: rest) tokens
  | token {token : Token} {spelling after : Str} {tokens : List Token} :
      token.SpelledAs spelling → Spells after tokens → Spells (spelling ++ after) (token :: tokens)

/-- A text that is read as a token sequence, one token after the other. -/
inductive Lexes : Str → List Token → Prop
  | done : Lexes [] []
  | blank {c : Char} {rest : Str} {tokens : List Token} : isBlank c = true → Lexes rest tokens →
      Lexes (c :: rest) tokens
  | token {c : Char} {rest after : Str} {token : Token} {tokens : List Token} :
      isBlank c = false → lexToken c rest = .ok (token, after) → Lexes after tokens →
      Lexes (c :: rest) (token :: tokens)

/-- A token whose text, before a blank or the end, is read as the token again. -/
def Token.Rereads (token : Token) : Prop :=
  ∃ c rest, token.text = c :: rest ∧ isBlank c = false ∧
    ∀ after : Str, (∀ d ∈ after.head?, d = ' ') → lexToken c (rest ++ after) = .ok (token, after)

/-! ## Words -/

/-- `u8::to_ascii_lowercase`. -/
def lowerByte (c : Char) : Char := if 'A' ≤ c ∧ c ≤ 'Z' then Char.ofNat (c.toNat + 32) else c

theorem toAsciiLowercase_eq (s : Str) : toAsciiLowercase s = s.map lowerByte := rfl

/-- A statement about the characters of a range of code points, checked one by one. -/
theorem of_range {P : Char → Prop} (low count : ℕ)
    (h : ∀ n ∈ List.range' low count, P (Char.ofNat n)) (hlow : low ≤ c.toNat)
    (hhigh : c.toNat < low + count) : P c := by
  have hc := h c.toNat (mem_range'_1.mpr ⟨hlow, hhigh⟩)
  rwa [Char.ofNat_toNat] at hc

/-- The letters in uppercase are the code points 65 to 90. -/
theorem of_upper {P : Char → Prop} (h : ∀ n ∈ List.range' 65 26, P (Char.ofNat n))
    (hupper : 'A' ≤ c ∧ c ≤ 'Z') : P c := by
  have hlow : 65 ≤ c.toNat := Char.le_def.mp hupper.1
  have hhigh : c.toNat ≤ 90 := Char.le_def.mp hupper.2
  exact of_range 65 26 h hlow (by omega)

/-- A byte of a word in lowercase is a byte of a word that lowercasing leaves alone. -/
theorem lowerByte_spec (h : isWordByte c = true) :
    isWordByte (lowerByte c) = true ∧ lowerByte (lowerByte c) = lowerByte c ∧
      (isWordStart c = true → isWordStart (lowerByte c) = true) := by
  by_cases hupper : 'A' ≤ c ∧ c ≤ 'Z'
  · obtain ⟨hbyte, hagain, hstart⟩ := of_upper (P := fun c => isWordByte (lowerByte c) = true ∧
      lowerByte (lowerByte c) = lowerByte c ∧ isWordStart (lowerByte c) = true) (by decide) hupper
    exact ⟨hbyte, hagain, fun _ => hstart⟩
  · have heq : lowerByte c = c := if_neg hupper
    rw [heq, heq]
    exact ⟨h, rfl, id⟩

theorem not_isWordStart_of_isDigit (h : c.isDigit = true) : isWordStart c = false := by
  rw [Char.isDigit, Bool.and_eq_true, decide_eq_true_eq, decide_eq_true_eq] at h
  have hlow : 48 ≤ c.toNat := h.1
  have hhigh : c.toNat ≤ 57 := h.2
  exact of_range (P := fun c => isWordStart c = false) 48 10 (by decide) hlow (by omega)

theorem isWordByte_of_isWordStart (h : isWordStart c = true) : isWordByte c = true := by
  simp only [isWordStart, isWordByte, Char.isAlphanum, Bool.or_eq_true] at h ⊢
  tauto

/-- No byte of a word is one of the characters that mean something else to the tokenizer. -/
theorem not_isWordByte {d : Char} (h : isWordByte c = true) (hd : isWordByte d = false) :
    c ≠ d := by
  rintro rfl
  rw [h] at hd
  cases hd

theorem lexToken_word {rest : Str} (hstart : isWordStart c = true)
    (hrest : ∀ x ∈ rest, isWordByte x = true) (hafter : ∀ d ∈ after.head?, isWordByte d = false) :
    lexToken c (rest ++ after) = .ok (.word (toAsciiLowercase (c :: rest)), after) := by
  have hbyte := isWordByte_of_isWordStart hstart
  have hne : ∀ d, isWordByte d = false → c ≠ d := fun d => not_isWordByte hbyte
  have hdigit : ¬ c.isDigit = true := by
    intro hdigit
    rw [not_isWordStart_of_isDigit hdigit] at hstart
    cases hstart
  obtain ⟨htake, hdrop⟩ := span_append hrest hafter
  unfold lexToken
  rw [if_neg fun h => hne '-' (by decide) h.1, if_neg fun h => hne '/' (by decide) h.1,
    if_neg (hne ';' (by decide)), if_neg (hne '@' (by decide)), if_neg (hne '\'' (by decide)),
    if_neg (hne '"' (by decide)), if_neg (hne '?' (by decide)), if_neg (hne '$' (by decide)),
    if_neg hdigit, if_pos hstart, htake, hdrop]

/-- A word the tokenizer returned is already in lowercase and is read as itself. -/
theorem rereads_word {rest : Str} (hstart : isWordStart c = true)
    (hrest : ∀ x ∈ rest, isWordByte x = true) :
    (Token.word (toAsciiLowercase (c :: rest))).Rereads := by
  have hall : ∀ x ∈ c :: rest, isWordByte x = true :=
    forall_mem_cons.mpr ⟨isWordByte_of_isWordStart hstart, hrest⟩
  have hlower : toAsciiLowercase (toAsciiLowercase (c :: rest)) =
      toAsciiLowercase (c :: rest) := by
    rw [toAsciiLowercase_eq, toAsciiLowercase_eq, map_map]
    apply map_congr_left
    intro x hx
    exact (lowerByte_spec (hall x hx)).2.1
  have hstart' := (lowerByte_spec (hall c mem_cons_self)).2.2 hstart
  refine ⟨lowerByte c, rest.map lowerByte, rfl, ?_, fun after hafter => ?_⟩
  · have hbyte := isWordByte_of_isWordStart hstart'
    simp [isBlank, not_isWordByte hbyte (show isWordByte ' ' = false by decide),
      not_isWordByte hbyte (show isWordByte '\t' = false by decide),
      not_isWordByte hbyte (show isWordByte '\n' = false by decide),
      not_isWordByte hbyte (show isWordByte '\r' = false by decide)]
  · have hrest' : ∀ x ∈ rest.map lowerByte, isWordByte x = true := by
      intro x hx
      obtain ⟨y, hy, rfl⟩ := mem_map.mp hx
      exact (lowerByte_spec (hrest y hy)).1
    have hafter' : ∀ d ∈ after.head?, isWordByte d = false := by
      intro d hd
      obtain rfl := hafter d hd
      decide
    rw [lexToken_word hstart' hrest' hafter']
    exact congrArg (fun text => Except.ok (Token.word text, after)) hlower

/-! ## Quoted names and literals -/

/-- What a quoted name is made of. -/
def IsQuotable (name : Str) : Prop :=
  name ≠ [] ∧ byteLen name ≤ 63 ∧ (∀ c ∈ name, isNameByte c = true) ∧ '"' ∉ name

theorem lexToken_quoted {name : Str} (h : IsQuotable name) (after : Str) :
    lexToken '"' (name ++ '"' :: after) = .ok (.quoted name, after) := by
  obtain ⟨hne, hlen, hall, hquote⟩ := h
  have hbytes : name.all isNameByte = true := all_eq_true.mpr hall
  show lexQuoted (name ++ '"' :: after) = _
  unfold lexQuoted
  rw [splitOnce_append hquote]
  exact if_neg (by simp [hne, hbytes]; omega)

variable {token : Token} {tokens : List Token}

theorem lexQuoted_eq_ok {rest : Str} (h : lexQuoted rest = .ok (token, after)) :
    ∃ name, token = .quoted name ∧ rest = name ++ '"' :: after ∧ IsQuotable name := by
  unfold lexQuoted at h
  cases hsplit : splitOnce '"' rest with
  | none =>
      rw [hsplit] at h
      cases h
  | some halves =>
      obtain ⟨name, tail⟩ := halves
      obtain ⟨hrest, hquote⟩ := splitOnce_eq_some hsplit
      rw [hsplit] at h
      dsimp only at h
      split_ifs at h with hbad
      rw [not_or, not_or, not_lt, Bool.not_eq_false] at hbad
      cases h
      exact ⟨name, rfl, hrest, hbad.1, hbad.2.1, all_eq_true.mp hbad.2.2, hquote⟩

theorem lexString_eq_ok {text : Str} (h : lexString s = .ok (text, after)) :
    s = text ++ after ∧ ∀ later : Str, later.head? ≠ some '\'' →
      lexString (text ++ later) = .ok (text, later) := by
  fun_induction lexString s generalizing text with
  | case1 => cases h
  | case2 => cases h
  | case3 =>
      cases h
      refine ⟨rfl, fun later hlater => ?_⟩
      cases later with
      | nil => rfl
      | cons d rest =>
          rw [singleton_append, lexString, if_neg (by decide), if_pos rfl]
          exact if_neg fun hd => hlater (congrArg some hd)
  | case4 rest hnul ih =>
      obtain ⟨halves, hlex, heq⟩ := map_eq_ok_iff.mp h
      cases heq
      obtain ⟨hrest, hagain⟩ := ih hlex
      refine ⟨congrArg ('\'' :: '\'' :: ·) hrest, fun later hlater => ?_⟩
      rw [cons_append, cons_append, lexString, if_neg hnul, if_pos rfl, if_pos rfl,
        hagain later hlater]
      rfl
  | case5 d rest hd hnul =>
      cases h
      refine ⟨rfl, fun later hlater => ?_⟩
      cases later with
      | nil => rfl
      | cons x rest =>
          rw [singleton_append, lexString, if_neg hnul, if_pos rfl]
          exact if_neg fun hx => hlater (congrArg some hx)
  | case6 c rest hnul hquote ih =>
      obtain ⟨halves, hlex, heq⟩ := map_eq_ok_iff.mp h
      cases heq
      obtain ⟨hrest, hagain⟩ := ih hlex
      refine ⟨congrArg (c :: ·) hrest, fun later hlater => ?_⟩
      rw [cons_append, lexString.eq_def]
      dsimp only
      rw [if_neg hnul, if_neg hquote, hagain later hlater]
      rfl

/-! ## Numbers and symbols -/

/-- The text after a number literal. -/
def EndsNumber (after : Str) : Prop :=
  ∀ d ∈ after.head?, d.isDigit = false ∧ d ≠ '.' ∧ isWordStart d = false

theorem splitNumber_whole {whole : Str} (hwhole : ∀ c ∈ whole, c.isDigit = true)
    (hafter : ∀ d ∈ after.head?, d.isDigit = false)
    (hplaces : ∀ d rest, after = '.' :: d :: rest → d.isDigit = false) :
    splitNumber (whole ++ after) = (whole, after) := by
  obtain ⟨htake, hdrop⟩ := span_append hwhole hafter
  unfold splitNumber
  rw [htake, hdrop]
  split
  · rename_i dot digit rest
    rw [if_neg]
    intro hplace
    rw [hplace.1] at hplaces
    have hdigit := hplaces digit rest rfl
    rw [hplace.2] at hdigit
    cases hdigit
  · rfl

theorem splitNumber_places {whole places : Str} {digit : Char}
    (hwhole : ∀ c ∈ whole, c.isDigit = true) (hplaces : ∀ c ∈ digit :: places, c.isDigit = true)
    (hafter : ∀ d ∈ after.head?, d.isDigit = false) :
    splitNumber (whole ++ '.' :: digit :: (places ++ after)) =
      (whole ++ '.' :: digit :: places, after) := by
  have hdot : ∀ d ∈ ('.' :: digit :: (places ++ after)).head?, d.isDigit = false := by
    intro d hd
    cases hd
    decide
  obtain ⟨htake, hdrop⟩ := span_append hwhole hdot
  obtain ⟨htake', hdrop'⟩ := span_append hplaces hafter
  unfold splitNumber
  rw [htake, hdrop]
  dsimp only
  rw [if_pos ⟨rfl, hplaces digit mem_cons_self⟩, ← cons_append, htake', hdrop']

/-- The digits of a number, with decimal places or without. -/
inductive IsNumber : Str → Prop
  | whole {whole : Str} : (∀ c ∈ whole, c.isDigit = true) → IsNumber whole
  | places {whole places : Str} {digit : Char} : (∀ c ∈ whole, c.isDigit = true) →
      (∀ c ∈ digit :: places, c.isDigit = true) → IsNumber (whole ++ '.' :: digit :: places)

theorem splitNumber_eq {text : Str} (h : splitNumber s = (text, after)) :
    s = text ++ after ∧ IsNumber text ∧ s.takeWhile Char.isDigit <+: text := by
  have hwhole : ∀ c ∈ s.takeWhile Char.isDigit, c.isDigit = true := fun c hc =>
    mem_takeWhile_imp hc
  have hs : s.takeWhile Char.isDigit ++ s.dropWhile Char.isDigit = s :=
    takeWhile_append_dropWhile
  unfold splitNumber at h
  split at h
  · rename_i dot digit rest hdrop
    rw [hdrop] at hs
    split_ifs at h with hplace
    · obtain ⟨rfl, hdigit⟩ := hplace
      cases h
      rw [append_assoc, cons_append, takeWhile_append_dropWhile, hs]
      refine ⟨rfl, ?_, prefix_append _ _⟩
      rw [takeWhile_cons_of_pos hdigit]
      exact .places hwhole (forall_mem_cons.mpr ⟨hdigit, fun c hc => mem_takeWhile_imp hc⟩)
    · cases h
      exact ⟨hs.symm, .whole hwhole, prefix_rfl⟩
  · cases h
    exact ⟨hs.symm, .whole hwhole, prefix_rfl⟩

/-- A number is read up to anything that cannot continue it. -/
theorem splitNumber_append {text : Str} (h : IsNumber text) (hafter : EndsNumber after) :
    splitNumber (text ++ after) = (text, after) := by
  have hdigit : ∀ d ∈ after.head?, d.isDigit = false := fun d hd => (hafter d hd).1
  cases h with
  | whole hwhole =>
      apply splitNumber_whole hwhole hdigit
      intro d rest heq
      rw [heq] at hafter
      exact absurd rfl (hafter '.' rfl).2.1
  | places hwhole hplaces =>
      rw [append_assoc, cons_append, cons_append]
      exact splitNumber_places hwhole hplaces hdigit

theorem lexNumber_append {text : Str} (h : IsNumber text) (hafter : EndsNumber after) :
    lexNumber (text ++ after) = .ok (.literal text, after) := by
  unfold lexNumber
  rw [splitNumber_append h hafter]
  dsimp only
  rw [if_neg]
  cases after with
  | nil => simp
  | cons d rest => simp [(hafter d rfl).2.2]

theorem lexNumber_eq_ok (h : lexNumber s = .ok (token, after)) :
    ∃ text, token = .literal text ∧ s = text ++ after ∧ IsNumber text ∧
      s.takeWhile Char.isDigit <+: text := by
  unfold lexNumber at h
  cases hsplit : splitNumber s with
  | mk text tail =>
      rw [hsplit] at h
      dsimp only at h
      split_ifs at h
      cases h
      exact ⟨text, rfl, splitNumber_eq hsplit⟩

theorem isWordByte_of_isDigit (h : c.isDigit = true) : isWordByte c = true := by
  rw [isWordByte, Char.isAlphanum, h, Bool.or_true, Bool.true_or]

theorem lexToken_digit (h : c.isDigit = true) (rest : Str) :
    lexToken c rest = lexNumber (c :: rest) := by
  have hne : ∀ d, isWordByte d = false → c ≠ d := fun d => not_isWordByte (isWordByte_of_isDigit h)
  unfold lexToken
  rw [if_neg fun h => hne '-' (by decide) h.1, if_neg fun h => hne '/' (by decide) h.1,
    if_neg (hne ';' (by decide)), if_neg (hne '@' (by decide)), if_neg (hne '\'' (by decide)),
    if_neg (hne '"' (by decide)), if_neg (hne '?' (by decide)), if_neg (hne '$' (by decide)),
    if_pos h]

theorem lexSymbol_eq_ok (h : lexSymbol s = .ok (token, after)) :
    ∃ symbol ∈ symbols, token = .symbol symbol ∧ s = symbol ++ after := by
  unfold lexSymbol at h
  split at h
  · rename_i symbol rest hfind
    cases h
    obtain ⟨found, hfound, hstrip⟩ := exists_of_findSome?_eq_some hfind
    obtain ⟨tail, hstrip, heq⟩ := Option.map_eq_some_iff.mp hstrip
    cases heq
    exact ⟨symbol, hfound, rfl, stripStart_eq_some_iff.mp hstrip⟩
  · cases h

theorem rereads_symbol {symbol : Str} (h : symbol ∈ symbols) : (Token.symbol symbol).Rereads := by
  have hread : ∀ symbol ∈ symbols, ∃ c rest, symbol = c :: rest ∧ isBlank c = false ∧
      lexToken c rest = .ok (.symbol symbol, []) ∧
      ∀ tail, lexToken c (rest ++ ' ' :: tail) = .ok (.symbol symbol, ' ' :: tail) := by
    simp only [symbols, forall_mem_cons]
    refine ⟨?_, ?_, ?_, ?_, ?_, ?_, ?_, ?_, ?_, ?_, ?_, ?_, ?_, ?_, ?_, ?_, ?_, ?_⟩
    all_goals first
      | exact ⟨_, _, rfl, rfl, rfl, fun tail => rfl⟩
      | exact fun symbol h => absurd h not_mem_nil
  obtain ⟨c, rest, htext, hblank, hend, hspace⟩ := hread symbol h
  refine ⟨c, rest, htext, hblank, fun after hafter => ?_⟩
  cases after with
  | nil =>
      rw [append_nil]
      exact hend
  | cons d tail =>
      obtain rfl := hafter d rfl
      exact hspace tail

/-! ## One token -/

/-- What one step of the tokenizer gives: a nonempty spelling taken off the text, and a token
that reads back from its own text. -/
theorem lexToken_eq_ok {rest : Str} (hblank : isBlank c = false)
    (h : lexToken c rest = .ok (token, after)) :
    ∃ spelling, c :: rest = c :: spelling ++ after ∧ token.SpelledAs (c :: spelling) ∧
      token.Rereads := by
  unfold lexToken at h
  -- the four starts that are refused
  by_cases hcomment : c = '-' ∧ rest.head? = some '-'
  · rw [if_pos hcomment] at h
    cases h
  rw [if_neg hcomment] at h
  by_cases hblock : c = '/' ∧ rest.head? = some '*'
  · rw [if_pos hblock] at h
    cases h
  rw [if_neg hblock] at h
  by_cases hsemicolon : c = ';'
  · rw [if_pos hsemicolon] at h
    cases h
  rw [if_neg hsemicolon] at h
  by_cases hlink : c = '@'
  · rw [if_pos hlink] at h
    cases h
  rw [if_neg hlink] at h
  by_cases hstring : c = '\''
  · rw [if_pos hstring] at h
    obtain ⟨halves, hlex, heq⟩ := map_eq_ok_iff.mp h
    obtain ⟨body, tail⟩ := halves
    cases heq
    subst hstring
    obtain ⟨hrest, hagain⟩ := lexString_eq_ok hlex
    refine ⟨body, congrArg ('\'' :: ·) hrest, rfl, '\'', body, rfl, rfl, fun later hlater => ?_⟩
    have hhead : later.head? ≠ some '\'' := fun hhead => absurd (hlater _ hhead) (by decide)
    show (lexString (body ++ later)).map _ = _
    rw [hagain later hhead]
    rfl
  rw [if_neg hstring] at h
  by_cases hquoted : c = '"'
  · rw [if_pos hquoted] at h
    obtain ⟨name, rfl, hrest, hname⟩ := lexQuoted_eq_ok h
    subst hquoted
    refine ⟨name ++ ['"'], ?_, rfl, '"', name ++ ['"'], rfl, rfl, fun later _ => ?_⟩
    · rw [hrest, cons_append, append_assoc]
      rfl
    · rw [append_assoc]
      exact lexToken_quoted hname later
  rw [if_neg hquoted] at h
  by_cases hmark : c = '?'
  · rw [if_pos hmark] at h
    cases h
    subst hmark
    exact ⟨[], rfl, rfl, '?', [], rfl, rfl, fun later _ => rfl⟩
  rw [if_neg hmark] at h
  by_cases hdollar : c = '$'
  · rw [if_pos hdollar] at h
    by_cases hnone : rest.takeWhile Char.isDigit = []
    · rw [if_pos hnone] at h
      cases h
    rw [if_neg hnone] at h
    cases h
    subst hdollar
    have hdigits : ∀ c ∈ rest.takeWhile Char.isDigit, c.isDigit = true := fun c hc =>
      mem_takeWhile_imp hc
    refine ⟨rest.takeWhile Char.isDigit, ?_, rfl, '$', _, rfl, rfl, fun later hlater => ?_⟩
    · rw [cons_append, takeWhile_append_dropWhile]
    · have hend : ∀ d ∈ later.head?, d.isDigit = false := by
        intro d hd
        obtain rfl := hlater d hd
        decide
      obtain ⟨htake, hdrop⟩ := span_append hdigits hend
      show (if (rest.takeWhile Char.isDigit ++ later).takeWhile Char.isDigit = [] then _ else _) = _
      rw [htake, hdrop, if_neg hnone]
  rw [if_neg hdollar] at h
  by_cases hdigit : c.isDigit = true
  · rw [if_pos hdigit] at h
    obtain ⟨text, rfl, hrest, hnumber, hstart⟩ := lexNumber_eq_ok h
    rw [takeWhile_cons_of_pos hdigit] at hstart
    obtain ⟨tail, rfl⟩ := hstart
    rw [cons_append] at hrest hnumber
    refine ⟨_, hrest, rfl, c, _, rfl, hblank, fun later hlater => ?_⟩
    rw [lexToken_digit hdigit, ← cons_append]
    apply lexNumber_append hnumber
    intro d hd
    obtain rfl := hlater d hd
    decide
  rw [if_neg hdigit] at h
  by_cases hword : isWordStart c = true
  · rw [if_pos hword] at h
    cases h
    refine ⟨rest.takeWhile isWordByte, ?_, rfl, ?_⟩
    · rw [cons_append, takeWhile_append_dropWhile]
    · exact rereads_word hword fun x hx => mem_takeWhile_imp hx
  rw [if_neg hword] at h
  obtain ⟨symbol, hsymbol, rfl, hs⟩ := lexSymbol_eq_ok h
  obtain ⟨d, tail, htext, _⟩ := rereads_symbol hsymbol
  have htext : symbol = d :: tail := htext
  rw [htext, cons_append] at hs
  obtain ⟨rfl, rfl⟩ := List.cons.inj hs
  exact ⟨tail, rfl, htext, rereads_symbol hsymbol⟩

/-- A backslash of a token's text is one of its spelling. -/
theorem backslash_mem_spelling {spelling : Str} (h : token.SpelledAs spelling)
    (hmem : '\\' ∈ token.text) : '\\' ∈ spelling := by
  cases token with
  | word text =>
      have htext : text = spelling.map lowerByte := h
      rw [Token.text, htext] at hmem
      obtain ⟨c, hc, heq⟩ := mem_map.mp hmem
      by_cases hupper : 'A' ≤ c ∧ c ≤ 'Z'
      · have hne : lowerByte c ≠ '\\' :=
          of_upper (P := fun c => lowerByte c ≠ '\\') (by decide) hupper
        exact absurd heq hne
      · rw [lowerByte, if_neg hupper] at heq
        rwa [heq] at hc
  | quoted name | literal text | param text | symbol text => exact h ▸ hmem

/-! ## Token sequences -/

theorem Lexes.spells (h : Lexes s tokens) : Spells s tokens := by
  induction h with
  | done => exact .done
  | blank hblank _ ih => exact .blank hblank ih
  | token hblank hlex _ ih =>
      obtain ⟨spelling, heq, hspelled, _⟩ := lexToken_eq_ok hblank hlex
      rw [heq]
      exact .token hspelled ih

theorem Lexes.rereads (h : Lexes s tokens) :
    ∀ token ∈ tokens, token.Rereads := by
  induction h with
  | done => exact fun _ h => absurd h not_mem_nil
  | blank _ _ ih => exact ih
  | token hblank hlex _ ih =>
      obtain ⟨_, _, _, hrereads⟩ := lexToken_eq_ok hblank hlex
      exact forall_mem_cons.mpr ⟨hrereads, ih⟩

theorem Spells.backslash (h : Spells s tokens) (hs : '\\' ∉ s) :
    ∀ token ∈ tokens, '\\' ∉ token.text := by
  induction h with
  | done => exact fun _ h => absurd h not_mem_nil
  | blank _ _ ih => exact ih fun hmem => hs (mem_cons_of_mem _ hmem)
  | token hspelled _ ih =>
      rw [mem_append, not_or] at hs
      intro token htoken
      obtain rfl | htoken := mem_cons.mp htoken
      · exact fun hmem => hs.1 (backslash_mem_spelling hspelled hmem)
      · exact ih hs.2 token htoken

/-- A text is read in one way. -/
theorem Lexes.unique {first second : List Token} (hfirst : Lexes s first) (hsecond : Lexes s second) :
    first = second := by
  induction hfirst generalizing second with
  | done =>
      cases hsecond
      rfl
  | blank hblank _ ih =>
      cases hsecond with
      | blank _ h => exact ih h
      | token hnot _ _ => rw [hblank] at hnot; cases hnot
  | token hblank hlex _ ih =>
      cases hsecond with
      | blank hnot _ => rw [hblank] at hnot; cases hnot
      | token _ hlex' h =>
          rw [hlex] at hlex'
          cases hlex'
          rw [ih h]

/-- `tokens.iter().map(Token::text).collect::<Vec<_>>().join(" ")`. -/
def joinTexts (tokens : List Token) : Str := join [' '] (tokens.map Token.text)

/-- The texts of tokens, one blank apart, are read as the tokens. -/
theorem lexes_join (h : ∀ token ∈ tokens, token.Rereads) :
    Lexes (joinTexts tokens) tokens := by
  induction tokens with
  | nil => exact .done
  | cons token rest ih =>
      rw [forall_mem_cons] at h
      obtain ⟨c, text, htext, hblank, hlex⟩ := h.1
      cases rest with
      | nil =>
          have hjoin : joinTexts [token] = c :: (text ++ []) := by
            rw [joinTexts, map_singleton, htext, append_nil]
            exact intercalate_singleton
          rw [hjoin]
          exact .token hblank (hlex [] fun d hd => by cases hd) .done
      | cons next rest =>
          have hjoin : joinTexts (token :: next :: rest) =
              c :: (text ++ ' ' :: joinTexts (next :: rest)) := by
            rw [joinTexts, joinTexts, map_cons, htext, join, map_cons,
              intercalate_cons_cons, append_assoc]
            rfl
          rw [hjoin]
          refine .token hblank (hlex _ fun d hd => ?_) (.blank rfl (ih h.2))
          cases hd
          rfl

/-! ## The loop -/

theorem tokenizeFrom_eq_ok_iff {fuel pushed : ℕ} (hfuel : s.length < fuel)
    (hpushed : pushed ≤ maxSqlTokens) :
    tokenizeFrom fuel pushed s = .ok tokens ↔
      Lexes s tokens ∧ pushed + tokens.length ≤ maxSqlTokens := by
  induction fuel generalizing pushed s tokens with
  | zero => omega
  | succ fuel ih =>
      cases s with
      | nil =>
          rw [tokenizeFrom]
          constructor
          · intro h
            cases h
            exact ⟨.done, hpushed⟩
          · rintro ⟨h, -⟩
            cases h
            rfl
      | cons c rest =>
          rw [length_cons] at hfuel
          rw [tokenizeFrom]
          cases hblank : isBlank c with
          | true =>
              rw [if_pos rfl, ih (by omega) hpushed]
              refine and_congr_left' ⟨.blank hblank, fun h => ?_⟩
              cases h with
              | blank _ h => exact h
              | token hnot _ _ => rw [hblank] at hnot; cases hnot
          | false =>
              rw [if_neg Bool.false_ne_true, bind_eq_ok_iff]
              constructor
              · rintro ⟨⟨token, after⟩, hlex, h⟩
                obtain ⟨spelling, heq, _⟩ := lexToken_eq_ok hblank hlex
                have hlen := congrArg List.length heq
                simp only [length_cons, length_append] at hlen
                obtain ⟨hroom, h⟩ := check_bind_eq_ok_iff.mp h
                rw [failIf_eq_ok_iff, not_lt] at hroom
                obtain ⟨tail, htail, h⟩ := bind_eq_ok_iff.mp h
                cases h
                obtain ⟨hlexes, hcount⟩ := (ih (by omega) hroom).mp htail
                rw [length_cons]
                exact ⟨.token hblank hlex hlexes, by omega⟩
              · rintro ⟨h, hcount⟩
                cases h with
                | blank hnot _ => rw [hblank] at hnot; cases hnot
                | @token _ _ after token tail _ hlex hlexes =>
                    obtain ⟨spelling, heq, _⟩ := lexToken_eq_ok hblank hlex
                    have hlen := congrArg List.length heq
                    simp only [length_cons, length_append] at hlen hcount
                    refine ⟨(token, after), hlex, ?_⟩
                    rw [check_bind_eq_ok_iff, failIf_eq_ok_iff]
                    refine ⟨by omega, ?_⟩
                    rw [(ih (by omega) (by omega)).mpr ⟨hlexes, by omega⟩]
                    rfl

/-- `tokenize` accepts exactly the texts without a backslash that read as at most
`MAX_SQL_TOKENS` tokens. -/
theorem tokenize_eq_ok_iff {sql : Str} :
    tokenize sql = .ok tokens ↔
      '\\' ∉ sql ∧ Lexes sql tokens ∧ tokens.length ≤ maxSqlTokens := by
  rw [tokenize, check_bind_eq_ok_iff, failIf_eq_ok_iff,
    tokenizeFrom_eq_ok_iff (Nat.lt_succ_self _) (Nat.zero_le _), Nat.zero_add]

/-- The normalized text of a token sequence is read as that sequence. -/
theorem tokenize_join {sql : Str} (h : tokenize sql = .ok tokens) :
    tokenize (joinTexts tokens) = .ok tokens := by
  obtain ⟨hslash, hlexes, hcount⟩ := tokenize_eq_ok_iff.mp h
  refine tokenize_eq_ok_iff.mpr ⟨?_, lexes_join hlexes.rereads, hcount⟩
  apply not_mem_join
  · decide
  · intro text htext
    obtain ⟨token, htoken, rfl⟩ := mem_map.mp htext
    exact hlexes.spells.backslash hslash token htoken

end Bran.Database
