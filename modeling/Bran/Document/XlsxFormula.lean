import Bran.Library.Text
import Mathlib.Algebra.Ring.Parity

/-!
# Formulas that reach outside the workbook

`active_formula` of `xlsx.rs`: the text outside double quotes, and the marks looked for in it.
Against it stands the lexing of a formula into string literals, quoted sheet names and plain
text.  The source follows one kind of quote only, so that a double quote inside a sheet name
turns its view of the rest of the formula inside out.
-/

namespace Bran.Document.Xlsx

open Text List

/-! ## What the source computes -/

def activeFunctions : List Str :=
  ["WEBSERVICE(".toList, "FILTERXML(".toList, "IMAGE(".toList, "RTD(".toList, "CALL(".toList,
    "REGISTER(".toList, "REGISTER.ID(".toList, "EXEC(".toList]

/-- The loop of `active_formula`: the characters outside double quotes in upper case, with a
blank for each double quote. -/
def outsideFrom : Bool → Str → Str
  | _, [] => []
  | literal, c :: rest =>
      if c = '"' then ' ' :: outsideFrom (!literal) rest
      else if literal then outsideFrom literal rest
      else c.toUpper :: outsideFrom literal rest

def outside (formula : Str) : Str := outsideFrom false formula

/-- `str::match_indices`: the text before and after each match, from the left and not
overlapping.  `skip` counts the characters of the last match still to pass. -/
def matchIndicesFrom (pattern : Str) : ℕ → Str → Str → List (Str × Str)
  | _, _, [] => []
  | skip + 1, before, c :: rest => matchIndicesFrom pattern skip (before ++ [c]) rest
  | 0, before, c :: rest =>
      match stripStart pattern (c :: rest) with
      | some after =>
          (before, after) :: matchIndicesFrom pattern (pattern.length - 1) (before ++ [c]) rest
      | none => matchIndicesFrom pattern 0 (before ++ [c]) rest

/-- `str::match_indices` over a whole text. -/
def matchIndices (pattern s : Str) : List (Str × Str) := matchIndicesFrom pattern 0 [] s

/-- The characters a function name may not follow. -/
def isIdentifier (c : Char) : Bool := c.isAlphanum || c = '_'

/-- The characters that cannot stand in the sheet name of `]Sheet!`. -/
def operators : Str := "&+-*/^=<>(),;:{}[]".toList

/-- Whether an external workbook reference starts with the bracket before this text. -/
def externalAt (rest : Str) : Bool :=
  match splitOnce ']' rest with
  | none => false
  | some (inside, after) =>
      (!inside.isEmpty && inside.all Char.isDigit) ||
        containsStr inside ".XL".toList ||
        match splitOnce '!' after with
        | none => false
        | some (sheet, _) => !sheet.isEmpty && !sheet.any operators.contains

/-- `[1]Sheet!A1` and `'[Book.xlsx]Sheet'!A1` name another workbook. -/
def externalReference (s : Str) : Bool :=
  (matchIndices ['['] s).any fun found => externalAt found.2

/-- Whether a function is called in a text, and not as the end of a longer name. -/
def calls (s function : Str) : Bool :=
  (matchIndices function s).any fun found => !found.1.getLast?.any isIdentifier

def activeFormula (formula : Str) : Bool :=
  let s := outside formula
  (s.contains '|' || containsStr s [':', '\\'] || containsStr s ['\\', '\\']) ||
    externalReference s ||
    activeFunctions.any (calls s)

/-! ## Formulas as they are lexed -/

/-- Where a character of a formula stands. -/
inductive Mode where
  | plain
  | literal
  | quoted
  deriving DecidableEq

/-- The mode after a character.  A doubled quote closes and opens again, with nothing between
the two, so that it leaves a literal or a quoted name where it was. -/
def Mode.next : Mode → Char → Mode
  | .plain, c => if c = '"' then .literal else if c = '\'' then .quoted else .plain
  | .literal, c => if c = '"' then .plain else .literal
  | .quoted, c => if c = '\'' then .plain else .quoted

/-- The mode after a text. -/
def lexed (before : Str) : Mode := before.foldl Mode.next .plain

/-- A listed function is called outside string literals and quoted names. -/
def Called (formula : Str) : Prop :=
  ∃ before call after, formula = before ++ call ++ after ∧
    call.map Char.toUpper ∈ activeFunctions ∧ lexed before = .plain ∧
    ∀ c ∈ before.getLast?, isIdentifier c = false

/-- A `|` occurs outside string literals. -/
def Piped (formula : Str) : Prop :=
  ∃ before after, formula = before ++ '|' :: after ∧ lexed before ≠ .literal

/-- The formulas that must never pass as inert. -/
def Active (formula : Str) : Prop := Called formula ∨ Piped formula

/-! ## What `active_formula` sees -/

/-- Whether a text holds an even number of double quotes. -/
def EvenQuotes (before : Str) : Prop := Even (before.count '"')

/-- A mark of `active_formula` after an even number of double quotes, whatever these quote. -/
inductive Seen (formula : Str) : Prop
  | pipe {before after : Str} (hformula : formula = before ++ '|' :: after)
      (heven : EvenQuotes before)
  | path {before mark after : Str} (hformula : formula = before ++ mark ++ after)
      (hmark : mark ∈ [[':', '\\'], ['\\', '\\']]) (heven : EvenQuotes before)
  | external {before rest : Str} (hformula : formula = before ++ '[' :: rest)
      (h : externalAt (outside rest) = true) (heven : EvenQuotes before)
  | call {before call after : Str} (hformula : formula = before ++ call ++ after)
      (hcall : call.map Char.toUpper ∈ activeFunctions) (heven : EvenQuotes before)
      (hname : ∀ c ∈ before.getLast?, isIdentifier c = false)

/-! ## Matches -/

theorem mem_matchIndicesFrom {pattern s before b a : Str} {skip : ℕ}
    (h : (b, a) ∈ matchIndicesFrom pattern skip before s) : b ++ pattern ++ a = before ++ s := by
  induction s generalizing skip before with
  | nil => cases skip <;> exact absurd h not_mem_nil
  | cons c rest ih =>
      have hrest {k : ℕ} (hmem : (b, a) ∈ matchIndicesFrom pattern k (before ++ [c]) rest) :
          b ++ pattern ++ a = before ++ c :: rest := by
        rw [ih hmem, append_assoc, singleton_append]
      cases skip with
      | succ skip => exact hrest h
      | zero =>
          rw [matchIndicesFrom] at h
          split at h
          · next after hafter =>
            rcases mem_cons.mp h with heq | hmem
            · obtain ⟨rfl, rfl⟩ := Prod.mk.inj heq
              rw [append_assoc, stripStart_eq_some_iff.mp hafter]
            · exact hrest hmem
          · exact hrest h

variable {c : Char} {formula : Str}

/-- Two matches of a pattern whose last character stands nowhere else in it do not overlap. -/
theorem le_of_overlap {init : Str} {last : Char} (hlast : last ∉ init) {after b a : Str}
    (h : init ++ [last] ++ after = c :: b ++ (init ++ [last]) ++ a) : init.length ≤ b.length := by
  by_contra hlt
  have hsplit : init.length = (c :: b).length + (init.length - (b.length + 1)) := by
    rw [length_cons]
    omega
  have hfirst : (init ++ [last] ++ after)[init.length]? = some last := by simp
  have hsecond : (c :: b ++ (init ++ [last]) ++ a)[init.length]? =
      init[init.length - (b.length + 1)]? := by
    rw [append_assoc, append_assoc, getElem?_append_right (by simp; omega)]
    rw [length_cons, getElem?_append_left (by omega)]
  rw [h, hsecond] at hfirst
  exact hlast (mem_of_getElem? hfirst)

/-- No match of a pattern is passed over when its last character stands nowhere else in it: the
matches cannot overlap. -/
theorem exists_match {init s before : Str} {last : Char} {skip : ℕ} (hlast : last ∉ init)
    {b a : Str} (h : s = b ++ (init ++ [last]) ++ a) (hskip : skip ≤ b.length) :
    (before ++ b, a) ∈ matchIndicesFrom (init ++ [last]) skip before s := by
  induction s generalizing skip before b with
  | nil => simp at h
  | cons c rest ih =>
      cases b with
      | nil =>
          obtain rfl : skip = 0 := Nat.le_zero.mp hskip
          have hstrip : stripStart (init ++ [last]) (c :: rest) = some a :=
            stripStart_eq_some_iff.mpr h
          rw [matchIndicesFrom, hstrip, append_nil]
          exact mem_cons_self
      | cons d b =>
          rw [cons_append, cons_append, List.cons.injEq] at h
          obtain ⟨rfl, hrest⟩ := h
          have hgo {k : ℕ} (hk : k ≤ b.length) : (before ++ c :: b, a) ∈
              matchIndicesFrom (init ++ [last]) k (before ++ [c]) rest := by
            have hmem : (before ++ [c] ++ b, a) ∈
                matchIndicesFrom (init ++ [last]) k (before ++ [c]) rest := ih hrest hk
            rwa [append_assoc, singleton_append] at hmem
          cases skip with
          | succ skip => exact hgo (Nat.le_of_succ_le_succ hskip)
          | zero =>
              rw [matchIndicesFrom]
              split
              · next after hafter =>
                refine mem_cons_of_mem _ (hgo ?_)
                -- the match just found ends before the one looked for starts
                have heq : init ++ [last] ++ after = c :: b ++ (init ++ [last]) ++ a :=
                  (stripStart_eq_some_iff.mp hafter).symm.trans (congrArg (c :: ·) hrest)
                rw [length_append, length_singleton, Nat.add_sub_cancel]
                exact le_of_overlap hlast heq
              · exact hgo (Nat.zero_le _)

theorem mem_matchIndices_iff {init s b a : Str} {last : Char} (hlast : last ∉ init) :
    (b, a) ∈ matchIndices (init ++ [last]) s ↔ s = b ++ (init ++ [last]) ++ a :=
  ⟨fun h => (mem_matchIndicesFrom h).symm, fun h => exists_match hlast h (Nat.zero_le _)⟩

/-! ## The text outside double quotes -/

/-- Whether a text read from a state ends inside double quotes. -/
def literalAfter (literal : Bool) (before : Str) : Bool := literal ^^ (before.count '"' % 2 == 1)

theorem literalAfter_nil {literal : Bool} : literalAfter literal [] = literal := by
  cases literal <;> rfl

theorem literalAfter_quote {literal : Bool} {rest : Str} :
    literalAfter literal ('"' :: rest) = literalAfter (!literal) rest := by
  rw [literalAfter, literalAfter, count_cons_self]
  rcases Nat.mod_two_eq_zero_or_one (rest.count '"') with h | h
  · have hnext : (rest.count '"' + 1) % 2 = 1 := by omega
    cases literal <;> simp [h, hnext]
  · have hnext : (rest.count '"' + 1) % 2 = 0 := by omega
    cases literal <;> simp [h, hnext]

theorem literalAfter_cons {literal : Bool} {rest : Str} (hc : c ≠ '"') :
    literalAfter literal (c :: rest) = literalAfter literal rest := by
  rw [literalAfter, literalAfter, count_cons_of_ne hc]

theorem evenQuotes_iff {before : Str} : EvenQuotes before ↔ literalAfter false before = false := by
  rw [EvenQuotes, Nat.even_iff, literalAfter]
  rcases Nat.mod_two_eq_zero_or_one (before.count '"') with h | h <;> simp [h]

theorem outsideFrom_append (literal : Bool) (first second : Str) :
    outsideFrom literal (first ++ second) =
      outsideFrom literal first ++ outsideFrom (literalAfter literal first) second := by
  induction first generalizing literal with
  | nil => rw [literalAfter_nil]; rfl
  | cons c rest ih =>
      rw [cons_append, outsideFrom, outsideFrom]
      split
      · next hc =>
        subst hc
        rw [ih, literalAfter_quote]
        rfl
      · next hc =>
        rw [literalAfter_cons hc]
        split
        · rw [ih]
        · rw [ih]
          rfl

theorem outsideFrom_of_unquoted {s : Str} (h : '"' ∉ s) :
    outsideFrom false s = s.map Char.toUpper := by
  induction s with
  | nil => rfl
  | cons c rest ih =>
      rw [mem_cons, not_or] at h
      rw [outsideFrom, if_neg (Ne.symm h.1), if_neg Bool.false_ne_true, ih h.2, map_cons]

/-- The place in a formula that a character of the text outside comes from. -/
theorem outsideFrom_eq_append {literal : Bool} {b rest : Str} (hc : c ≠ ' ')
    (h : outsideFrom literal formula = b ++ c :: rest) :
    ∃ before after, formula = before ++ after ∧ literalAfter literal before = false ∧
      outsideFrom literal before = b ∧ outsideFrom false after = c :: rest := by
  induction formula generalizing literal b with
  | nil => simp [outsideFrom] at h
  | cons d formula ih =>
      by_cases hd : d = '"'
      · subst hd
        rw [outsideFrom, if_pos rfl] at h
        cases b with
        | nil => exact absurd (List.cons.inj h).1.symm hc
        | cons u b =>
            obtain ⟨rfl, hrest⟩ := List.cons.inj h
            obtain ⟨before, after, rfl, hliteral, hbefore, hafter⟩ := ih hrest
            refine ⟨'"' :: before, after, rfl, ?_, ?_, hafter⟩
            · rw [literalAfter_quote, hliteral]
            · rw [outsideFrom, if_pos rfl, hbefore]
      · cases literal with
        | true =>
            rw [outsideFrom, if_neg hd, if_pos rfl] at h
            obtain ⟨before, after, rfl, hliteral, hbefore, hafter⟩ := ih h
            refine ⟨d :: before, after, rfl, ?_, ?_, hafter⟩
            · rw [literalAfter_cons hd, hliteral]
            · rw [outsideFrom, if_neg hd, if_pos rfl, hbefore]
        | false =>
            cases b with
            | nil => exact ⟨[], d :: formula, rfl, rfl, rfl, h⟩
            | cons u b =>
                rw [outsideFrom, if_neg hd, if_neg Bool.false_ne_true] at h
                obtain ⟨hu, hrest⟩ := List.cons.inj h
                obtain ⟨before, after, rfl, hliteral, hbefore, hafter⟩ := ih hrest
                refine ⟨d :: before, after, rfl, ?_, ?_, hafter⟩
                · rw [literalAfter_cons hd, hliteral]
                · rw [outsideFrom, if_neg hd, if_neg Bool.false_ne_true, hbefore, hu]

/-- A word of the text outside is a word of the formula without double quotes. -/
theorem outsideFrom_eq_word {word rest : Str} (hword : ' ' ∉ word)
    (h : outsideFrom false formula = word ++ rest) :
    ∃ raw after, formula = raw ++ after ∧ raw.map Char.toUpper = word ∧ '"' ∉ raw := by
  induction word generalizing formula with
  | nil => exact ⟨[], formula, rfl, rfl, not_mem_nil⟩
  | cons c word ih =>
      rw [mem_cons, not_or] at hword
      cases formula with
      | nil => cases h
      | cons d formula =>
          rw [outsideFrom] at h
          split at h
          · exact absurd (List.cons.inj h).1 hword.1
          · next hd =>
            rw [if_neg Bool.false_ne_true] at h
            obtain ⟨hc, hrest⟩ := List.cons.inj h
            obtain ⟨raw, after, rfl, hraw, hquote⟩ := ih hword.2 hrest
            refine ⟨d :: raw, after, rfl, by rw [map_cons, hraw, hc], ?_⟩
            rw [mem_cons, not_or]
            exact ⟨Ne.symm hd, hquote⟩

/-- Where a word stands in the text outside, and where it stands in the formula. -/
theorem outside_eq_iff {word b : Str} (hne : word ≠ []) (hword : ' ' ∉ word) :
    (∃ a, outside formula = b ++ word ++ a) ↔
      ∃ before raw after, formula = before ++ raw ++ after ∧ raw.map Char.toUpper = word ∧
        '"' ∉ raw ∧ EvenQuotes before ∧ outside before = b := by
  constructor
  · rintro ⟨a, h⟩
    obtain ⟨c, tail, rfl⟩ := exists_cons_of_ne_nil hne
    rw [append_assoc, cons_append] at h
    obtain ⟨before, after, rfl, hliteral, hbefore, hafter⟩ :=
      outsideFrom_eq_append (ne_of_not_mem_cons hword).symm h
    rw [← cons_append] at hafter
    obtain ⟨raw, rest, rfl, hraw, hquote⟩ := outsideFrom_eq_word hword hafter
    exact ⟨before, raw, rest, (append_assoc _ _ _).symm, hraw, hquote,
      evenQuotes_iff.mpr hliteral, hbefore⟩
  · rintro ⟨before, raw, after, rfl, rfl, hquote, heven, rfl⟩
    refine ⟨outsideFrom (literalAfter false (before ++ raw)) after, ?_⟩
    rw [outside, outside, outsideFrom_append, outsideFrom_append, evenQuotes_iff.mp heven,
      outsideFrom_of_unquoted hquote]

theorem toUpper_eq_self (h : c.isLower = false) : c.toUpper = c := by
  refine dif_neg fun hrange => ?_
  rw [isLower_eq, Bool.and_eq_false_iff] at h
  rcases h with h | h
  · exact of_decide_eq_false h hrange.1
  · exact of_decide_eq_false h hrange.2

theorem isAlpha_toUpper (h : c.isLower = true) : c.toUpper.isAlpha = true := by
  have hall : ∀ n < 123, (Char.ofNat n).isLower = true → (Char.ofNat n).toUpper.isAlpha = true := by
    decide
  have hlt : c.toNat < 123 := by
    rw [isLower_eq, Bool.and_eq_true] at h
    exact Nat.lt_succ_of_le (UInt32.le_iff_toNat_le.mp (of_decide_eq_true h.2))
  have hchar := hall c.toNat hlt
  rw [Char.ofNat_toNat] at hchar
  exact hchar h

theorem isIdentifier_toUpper (c : Char) : isIdentifier c.toUpper = isIdentifier c := by
  cases hlower : c.isLower with
  | true =>
      have halpha : c.isAlpha = true := by rw [isAlpha_eq, hlower, Bool.or_true]
      simp [isIdentifier, Char.isAlphanum, halpha, isAlpha_toUpper hlower]
  | false => rw [toUpper_eq_self hlower]

/-- What stands before a word decides alike in the formula and in the text outside. -/
theorem getLast?_outside {before : Str} (heven : EvenQuotes before) :
    (outside before).getLast?.any isIdentifier = before.getLast?.any isIdentifier := by
  rcases eq_nil_or_concat before with rfl | ⟨init, c, rfl⟩
  · rfl
  rw [outside, concat_eq_append, outsideFrom_append, getLast?_concat]
  by_cases hc : c = '"'
  · subst hc
    rw [outsideFrom, if_pos rfl, outsideFrom, getLast?_concat]
    rfl
  · have hplain : literalAfter false init = false := by
      have heven' := evenQuotes_iff.mp heven
      rw [literalAfter, concat_eq_append, count_append, count_cons_of_ne hc,
        count_nil, Nat.add_zero] at heven'
      exact heven'
    rw [hplain, outsideFrom, if_neg hc, if_neg Bool.false_ne_true, outsideFrom,
      getLast?_concat, Option.any_some, Option.any_some, isIdentifier_toUpper]

/-! ## What the source looks for -/

theorem contains_outside_iff {word : Str} (hne : word ≠ []) (hword : ' ' ∉ word) :
    containsStr (outside formula) word = true ↔ ∃ before raw after,
      formula = before ++ raw ++ after ∧ raw.map Char.toUpper = word ∧ '"' ∉ raw ∧
        EvenQuotes before := by
  rw [containsStr, decide_eq_true_iff]
  constructor
  · rintro ⟨b, a, h⟩
    obtain ⟨before, raw, after, hformula, hraw, hquote, heven, -⟩ :=
      (outside_eq_iff hne hword).mp ⟨a, h.symm⟩
    exact ⟨before, raw, after, hformula, hraw, hquote, heven⟩
  · rintro ⟨before, raw, after, hformula, hraw, hquote, heven⟩
    obtain ⟨a, h⟩ := (outside_eq_iff hne hword).mpr
      ⟨before, raw, after, hformula, hraw, hquote, heven, rfl⟩
    exact ⟨outside before, a, h.symm⟩

theorem activeFunctions_shape {function : Str} (h : function ∈ activeFunctions) :
    ∃ name, function = name ++ ['('] ∧ '(' ∉ name ∧ ' ' ∉ function ∧ '"' ∉ function := by
  have hall : ∀ function ∈ activeFunctions, function = function.dropLast ++ ['('] ∧
      '(' ∉ function.dropLast ∧ ' ' ∉ function ∧ '"' ∉ function := by decide
  exact ⟨_, hall function h⟩

theorem calls_outside_iff {function : Str} (hfunction : function ∈ activeFunctions) :
    calls (outside formula) function = true ↔ ∃ before call after,
      formula = before ++ call ++ after ∧ call.map Char.toUpper = function ∧
        EvenQuotes before ∧ ∀ c ∈ before.getLast?, isIdentifier c = false := by
  obtain ⟨name, rfl, hname, hblank, -⟩ := activeFunctions_shape hfunction
  have hne : name ++ ['('] ≠ [] := by simp
  have hany {before : Str} : (!before.getLast?.any isIdentifier) = true ↔
      ∀ c ∈ before.getLast?, isIdentifier c = false := by
    cases before.getLast? <;> simp
  rw [calls, any_eq_true]
  constructor
  · rintro ⟨⟨b, a⟩, hmem, hlast⟩
    obtain ⟨before, call, after, hformula, hcall, -, heven, rfl⟩ :=
      (outside_eq_iff hne hblank).mp ⟨a, (mem_matchIndices_iff hname).mp hmem⟩
    rw [getLast?_outside heven] at hlast
    exact ⟨before, call, after, hformula, hcall, heven, hany.mp hlast⟩
  · rintro ⟨before, call, after, hformula, hcall, heven, hlast⟩
    have hquote : '"' ∉ call := by
      intro hmem
      have hup : '"' ∈ name ++ ['('] := hcall ▸ mem_map.mpr ⟨'"', hmem, rfl⟩
      obtain ⟨-, -, -, -, hno⟩ := activeFunctions_shape hfunction
      exact hno hup
    obtain ⟨a, ha⟩ := (outside_eq_iff hne hblank).mpr
      ⟨before, call, after, hformula, hcall, hquote, heven, rfl⟩
    refine ⟨(outside before, a), (mem_matchIndices_iff hname).mpr ha, ?_⟩
    rw [getLast?_outside heven]
    exact hany.mpr hlast

theorem toUpper_eq_mark {mark : Char} (hmark : mark.isAlpha = false) (h : c.toUpper = mark) :
    c = mark := by
  cases hlower : c.isLower with
  | true =>
      have halpha := isAlpha_toUpper hlower
      rw [h, hmark] at halpha
      exact absurd halpha Bool.false_ne_true
  | false => rwa [toUpper_eq_self hlower] at h

theorem map_toUpper_eq_marks {raw marks : Str} (hmarks : ∀ c ∈ marks, c.isAlpha = false)
    (h : raw.map Char.toUpper = marks) : raw = marks := by
  subst h
  refine (map_id raw).symm.trans (map_congr_left fun c hc => ?_)
  exact toUpper_eq_mark (hmarks _ (mem_map_of_mem hc)) rfl

theorem contains_marks_iff {marks : Str} (hne : marks ≠ [])
    (hmarks : ∀ c ∈ marks, c.isAlpha = false ∧ c ≠ ' ' ∧ c ≠ '"') :
    containsStr (outside formula) marks = true ↔
      ∃ before after, formula = before ++ marks ++ after ∧ EvenQuotes before := by
  have hblank : ' ' ∉ marks := fun h => (hmarks _ h).2.1 rfl
  rw [contains_outside_iff hne hblank]
  constructor
  · rintro ⟨before, raw, after, hformula, hraw, -, heven⟩
    rw [map_toUpper_eq_marks (fun c hc => (hmarks c hc).1) hraw] at hformula
    exact ⟨before, after, hformula, heven⟩
  · rintro ⟨before, after, hformula, heven⟩
    refine ⟨before, marks, after, hformula, ?_, fun h => (hmarks _ h).2.2 rfl, heven⟩
    refine (map_congr_left fun c hc => ?_).trans (map_id marks)
    have halpha := (hmarks c hc).1
    rw [isAlpha_eq, Bool.or_eq_false_iff] at halpha
    exact toUpper_eq_self halpha.2

theorem marks_plain {marks : Str} (h : marks ∈ [['|'], [':', '\\'], ['\\', '\\']]) :
    ∀ c ∈ marks, c.isAlpha = false ∧ c ≠ ' ' ∧ c ≠ '"' := by
  intro c hc
  simp only [mem_cons, not_mem_nil, or_false] at h
  have hmark : c = '|' ∨ c = ':' ∨ c = '\\' := by
    rcases h with rfl | rfl | rfl <;>
      simp only [mem_cons, not_mem_nil, or_false] at hc <;> tauto
  rcases hmark with rfl | rfl | rfl <;> exact ⟨rfl, by decide, by decide⟩

theorem externalReference_outside_iff :
    externalReference (outside formula) = true ↔ ∃ before rest,
      formula = before ++ '[' :: rest ∧ externalAt (outside rest) = true ∧ EvenQuotes before := by
  have hmatch {b a : Str} : (b, a) ∈ matchIndices ['['] (outside formula) ↔
      outside formula = b ++ '[' :: a := by
    have hiff : (b, a) ∈ matchIndices ([] ++ ['[']) (outside formula) ↔
        outside formula = b ++ ([] ++ ['[']) ++ a := mem_matchIndices_iff not_mem_nil
    rwa [nil_append, append_assoc] at hiff
  have hbracket : ('[' : Char).toUpper = '[' := rfl
  rw [externalReference, any_eq_true]
  constructor
  · rintro ⟨⟨b, a⟩, hmem, hexternal⟩
    obtain ⟨before, after, rfl, hliteral, -, hafter⟩ :=
      outsideFrom_eq_append (by decide) (hmatch.mp hmem)
    have hword : ' ' ∉ ['['] := by decide
    obtain ⟨raw, rest, rfl, hraw, -⟩ := outsideFrom_eq_word hword hafter
    obtain rfl : raw = ['['] := map_toUpper_eq_marks (by simp [isAlpha_eq]) hraw
    refine ⟨before, rest, rfl, ?_, evenQuotes_iff.mpr hliteral⟩
    rw [singleton_append, outsideFrom, if_neg (by decide), if_neg Bool.false_ne_true] at hafter
    rwa [outside, (List.cons.inj hafter).2]
  · rintro ⟨before, rest, rfl, hexternal, heven⟩
    refine ⟨(outside before, outside rest), hmatch.mpr ?_, hexternal⟩
    rw [outside, outsideFrom_append, evenQuotes_iff.mp heven, outsideFrom, if_neg (by decide),
      if_neg Bool.false_ne_true, hbracket]
    rfl

/-- `active_formula` holds exactly when a mark stands after an even number of double quotes. -/
theorem activeFormula_eq_true_iff :
    activeFormula formula = true ↔ Seen formula := by
  have hpipe : (outside formula).contains '|' = true ↔
      ∃ before after, formula = before ++ ['|'] ++ after ∧ EvenQuotes before := by
    rw [← contains_marks_iff (cons_ne_nil _ _) (marks_plain (by simp)), containsStr, decide_eq_true_iff,
      singleton_infix_iff, contains_iff_mem]
  rw [activeFormula]
  simp only [Bool.or_eq_true, any_eq_true, hpipe]
  constructor
  · rintro ((((⟨before, after, hformula, heven⟩ | hdrive) | hshare) | hexternal) | hcall)
    · rw [append_assoc] at hformula
      exact .pipe hformula heven
    · obtain ⟨before, after, hformula, heven⟩ :=
        (contains_marks_iff (cons_ne_nil _ _) (marks_plain (by simp))).mp hdrive
      exact .path hformula (by simp) heven
    · obtain ⟨before, after, hformula, heven⟩ :=
        (contains_marks_iff (cons_ne_nil _ _) (marks_plain (by simp))).mp hshare
      exact .path hformula (by simp) heven
    · obtain ⟨before, rest, hformula, hexternal, heven⟩ :=
        externalReference_outside_iff.mp hexternal
      exact .external hformula hexternal heven
    · obtain ⟨function, hfunction, hcalls⟩ := hcall
      obtain ⟨before, call, after, hformula, rfl, heven, hname⟩ :=
        (calls_outside_iff hfunction).mp hcalls
      exact .call hformula hfunction heven hname
  · intro hseen
    cases hseen with
    | @pipe before after hformula heven =>
        exact Or.inl (Or.inl (Or.inl (Or.inl ⟨before, after, by simpa using hformula, heven⟩)))
    | @path before mark after hformula hmark heven =>
        rcases mem_pair.mp hmark with rfl | rfl
        · exact Or.inl (Or.inl (Or.inl (Or.inr
            ((contains_marks_iff (cons_ne_nil _ _) (marks_plain (by simp))).mpr
              ⟨before, after, hformula, heven⟩))))
        · exact Or.inl (Or.inl (Or.inr
            ((contains_marks_iff (cons_ne_nil _ _) (marks_plain (by simp))).mpr
              ⟨before, after, hformula, heven⟩)))
    | @external before rest hformula hexternal heven =>
        exact Or.inl (Or.inr (externalReference_outside_iff.mpr
          ⟨before, rest, hformula, hexternal, heven⟩))
    | @call before call after hformula hcall heven hname =>
        exact Or.inr ⟨_, hcall, (calls_outside_iff hcall).mpr
          ⟨before, call, after, hformula, rfl, heven, hname⟩⟩

/-! ## Formulas whose sheet names hold no double quote -/

end Bran.Document.Xlsx
