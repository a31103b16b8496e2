import Bran.Export.Obsidian
import Bran.Library.Encoding

/-!
# Reparsing a bundle

What the reparse reads from an exported document.  Its two replacements undo two of the five escapes,
so a value comes back unless it holds a line feed, a carriage return or a tab; identities cannot hold
any of these, and so the edge records always come back.
-/

namespace Bran.Export

open Text Validation Graph Words List OrdMap
open Option (some.inj map_some)
open Bool (or_eq_true and_eq_true not_eq_false)

variable {c : Char} {node : ExportNode}

/-! ## Values -/

def escapeChar (c : Char) : Str :=
  if c = '\\' then ['\\', '\\'] else if c = '"' then ['\\', '"'] else if c = '\n' then ['\\', 'n']
  else if c = '\r' then ['\\', 'r'] else if c = '\t' then ['\\', 't'] else [c]

/-- What the reparse reads of an escaped character. -/
def recoverChar (c : Char) : Str :=
  if c = '\n' then ['\\', 'n'] else if c = '\r' then ['\\', 'r'] else if c = '\t' then ['\\', 't']
  else [c]

/-- An escaped character after the first replacement. -/
def unquoteChar (c : Char) : Str := if c = '\\' then ['\\', '\\'] else recoverChar c

/-- What the reparse reads of an escaped value. -/
def recover (value : Str) : Str := value.flatMap recoverChar

theorem replaceChar_append (c : Char) (text first second : Str) :
    replaceChar c text (first ++ second) = replaceChar c text first ++ replaceChar c text second :=
  flatMap_append

theorem escapeForYaml_append (first second : Str) :
    escapeForYaml (first ++ second) = escapeForYaml first ++ escapeForYaml second := by
  simp only [escapeForYaml, replaceChar_append]

theorem escapeForYaml_singleton (c : Char) : escapeForYaml [c] = escapeChar c := by
  unfold escapeChar
  split_ifs with hslash hquote hfeed hreturn htab
  · subst hslash; rfl
  · subst hquote; rfl
  · subst hfeed; rfl
  · subst hreturn; rfl
  · subst htab; rfl
  · simp [escapeForYaml, replaceChar, hslash, hquote, hfeed, hreturn, htab]

theorem escapeForYaml_eq (value : Str) : escapeForYaml value = value.flatMap escapeChar := by
  induction value with
  | nil => rfl
  | cons c rest ih =>
      rw [← singleton_append, escapeForYaml_append, escapeForYaml_singleton, ih,
        singleton_append, flatMap_cons]

theorem escapeChar_cases (c : Char) : (c = '\\' ∧ escapeChar c = ['\\', '\\']) ∨
    (c = '"' ∧ escapeChar c = ['\\', '"']) ∨
    (∃ letter, letter ≠ '\\' ∧ letter ≠ '"' ∧ c ≠ '\\' ∧ c ≠ '"' ∧
      escapeChar c = ['\\', letter] ∧ recoverChar c = ['\\', letter]) ∨
    (c ≠ '\\' ∧ c ≠ '"' ∧ escapeChar c = [c] ∧ recoverChar c = [c]) := by
  unfold escapeChar recoverChar
  by_cases hslash : c = '\\'
  · exact .inl ⟨hslash, if_pos hslash⟩
  by_cases hquote : c = '"'
  · subst hquote
    exact .inr (.inl ⟨rfl, rfl⟩)
  rw [if_neg hslash, if_neg hquote]
  by_cases hfeed : c = '\n'
  · subst hfeed
    exact .inr (.inr (.inl ⟨'n', by decide, by decide, hslash, hquote, rfl, rfl⟩))
  by_cases hreturn : c = '\r'
  · subst hreturn
    exact .inr (.inr (.inl ⟨'r', by decide, by decide, hslash, hquote, rfl, rfl⟩))
  by_cases htab : c = '\t'
  · subst htab
    exact .inr (.inr (.inl ⟨'t', by decide, by decide, hslash, hquote, rfl, rfl⟩))
  · simp [hslash, hquote, hfeed, hreturn, htab]

/-- No escape starts with a quote. -/
theorem head?_escape (value : Str) : (value.flatMap escapeChar).head? ≠ some '"' := by
  cases value with
  | nil => exact nofun
  | cons c rest =>
      rw [flatMap_cons]
      rcases escapeChar_cases c with ⟨_, h⟩ | ⟨_, h⟩ | ⟨letter, _, _, _, _, h, _⟩ | ⟨_, hquote, h, _⟩
      all_goals rw [h]
      · exact fun hhead => absurd (some.inj hhead) (by decide)
      · exact fun hhead => absurd (some.inj hhead) (by decide)
      · exact fun hhead => absurd (some.inj hhead) (by decide)
      · exact fun hhead => hquote (some.inj hhead)

theorem replaceFrom_other {pattern text rest : Str} {first : Char} (h : c ≠ first) :
    replaceFrom (first :: pattern) text 0 (c :: rest) =
      c :: replaceFrom (first :: pattern) text 0 rest := by
  rw [replaceFrom, if_neg]
  exact fun hmatch => h (cons_prefix_cons.mp hmatch).1.symm

theorem replaceFrom_pair {text rest : Str} {first second : Char} :
    replaceFrom [first, second] text 0 (first :: second :: rest) =
      text ++ replaceFrom [first, second] text 0 rest := by
  rw [replaceFrom, if_pos ⟨rest, rfl⟩]
  rfl

theorem replaceFrom_unpaired {text rest : Str} {first second : Char} (h : rest.head? ≠ some second) :
    replaceFrom [first, second] text 0 (first :: rest) =
      first :: replaceFrom [first, second] text 0 rest := by
  rw [replaceFrom, if_neg]
  rintro ⟨tail, htail⟩
  apply h
  rw [← (List.cons.inj htail).2]
  rfl

/-- The first replacement takes the quotes out of their escapes. -/
theorem replaceStr_quote (value : Str) :
    replaceStr ['\\', '"'] ['"'] (value.flatMap escapeChar) = value.flatMap unquoteChar := by
  unfold replaceStr
  induction value with
  | nil => rfl
  | cons c rest ih =>
      have hhead := head?_escape rest
      rw [flatMap_cons, flatMap_cons, unquoteChar]
      rcases escapeChar_cases c with ⟨rfl, h⟩ | ⟨rfl, h⟩ | ⟨letter, hslash, hquote, hc, _, h, hr⟩ |
        ⟨hslash, _, h, hr⟩
      · rw [h, if_pos rfl]
        calc replaceFrom ['\\', '"'] ['"'] 0 ('\\' :: '\\' :: rest.flatMap escapeChar)
            = '\\' :: replaceFrom ['\\', '"'] ['"'] 0 ('\\' :: rest.flatMap escapeChar) :=
              replaceFrom_unpaired (fun hsecond => absurd (some.inj hsecond) (by decide))
          _ = '\\' :: '\\' :: replaceFrom ['\\', '"'] ['"'] 0 (rest.flatMap escapeChar) := by
              rw [replaceFrom_unpaired hhead]
          _ = '\\' :: '\\' :: rest.flatMap unquoteChar := by rw [ih]
      · rw [h, if_neg (by decide)]
        calc replaceFrom ['\\', '"'] ['"'] 0 ('\\' :: '"' :: rest.flatMap escapeChar)
            = '"' :: replaceFrom ['\\', '"'] ['"'] 0 (rest.flatMap escapeChar) := replaceFrom_pair
          _ = '"' :: rest.flatMap unquoteChar := by rw [ih]
      · rw [h, if_neg hc, hr]
        calc replaceFrom ['\\', '"'] ['"'] 0 ('\\' :: letter :: rest.flatMap escapeChar)
            = '\\' :: replaceFrom ['\\', '"'] ['"'] 0 (letter :: rest.flatMap escapeChar) :=
              replaceFrom_unpaired (fun hsecond => hquote (some.inj hsecond))
          _ = '\\' :: letter :: replaceFrom ['\\', '"'] ['"'] 0 (rest.flatMap escapeChar) := by
              rw [replaceFrom_other hslash]
          _ = '\\' :: letter :: rest.flatMap unquoteChar := by rw [ih]
      · rw [h, if_neg hslash, hr]
        calc replaceFrom ['\\', '"'] ['"'] 0 (c :: rest.flatMap escapeChar)
            = c :: replaceFrom ['\\', '"'] ['"'] 0 (rest.flatMap escapeChar) :=
              replaceFrom_other hslash
          _ = c :: rest.flatMap unquoteChar := by rw [ih]

/-- The second replacement halves the backslashes. -/
theorem replaceStr_backslash (value : Str) :
    replaceStr ['\\', '\\'] ['\\'] (value.flatMap unquoteChar) = recover value := by
  unfold replaceStr recover
  induction value with
  | nil => rfl
  | cons c rest ih =>
      rw [flatMap_cons, flatMap_cons, unquoteChar]
      rcases escapeChar_cases c with ⟨rfl, _⟩ | ⟨rfl, _⟩ | ⟨letter, hslash, _, hc, _, _, hr⟩ |
        ⟨hslash, _, _, hr⟩
      · rw [if_pos rfl]
        calc replaceFrom ['\\', '\\'] ['\\'] 0 ('\\' :: '\\' :: rest.flatMap unquoteChar)
            = '\\' :: replaceFrom ['\\', '\\'] ['\\'] 0 (rest.flatMap unquoteChar) :=
              replaceFrom_pair
          _ = '\\' :: rest.flatMap recoverChar := by rw [ih]
      · rw [if_neg (by decide)]
        calc replaceFrom ['\\', '\\'] ['\\'] 0 ('"' :: rest.flatMap unquoteChar)
            = '"' :: replaceFrom ['\\', '\\'] ['\\'] 0 (rest.flatMap unquoteChar) :=
              replaceFrom_other (by decide)
          _ = '"' :: rest.flatMap recoverChar := by rw [ih]
      · rw [if_neg hc, hr]
        calc replaceFrom ['\\', '\\'] ['\\'] 0 ('\\' :: letter :: rest.flatMap unquoteChar)
            = '\\' :: replaceFrom ['\\', '\\'] ['\\'] 0 (letter :: rest.flatMap unquoteChar) :=
              replaceFrom_unpaired (fun hsecond => hslash (some.inj hsecond))
          _ = '\\' :: letter :: replaceFrom ['\\', '\\'] ['\\'] 0 (rest.flatMap unquoteChar) := by
              rw [replaceFrom_other hslash]
          _ = '\\' :: letter :: rest.flatMap recoverChar := by rw [ih]
      · rw [if_neg hslash, hr]
        calc replaceFrom ['\\', '\\'] ['\\'] 0 (c :: rest.flatMap unquoteChar)
            = c :: replaceFrom ['\\', '\\'] ['\\'] 0 (rest.flatMap unquoteChar) :=
              replaceFrom_other hslash
          _ = c :: rest.flatMap recoverChar := by rw [ih]

theorem unescape_escapeForYaml (value : Str) : unescape (escapeForYaml value) = recover value := by
  rw [unescape, escapeForYaml_eq, replaceStr_quote, replaceStr_backslash]

/-- A value without the characters whose escapes are not undone. -/
def Plain (value : Str) : Prop := '\n' ∉ value ∧ '\r' ∉ value ∧ '\t' ∉ value

instance (value : Str) : Decidable (Plain value) :=
  inferInstanceAs (Decidable (_ ∧ _ ∧ _))

theorem plain_recover (value : Str) : Plain (recover value) := by
  have hchar : ∀ x c : Char, c ∈ recoverChar x → c ≠ '\n' ∧ c ≠ '\r' ∧ c ≠ '\t' := by
    intro x c hc
    unfold recoverChar at hc
    split_ifs at hc with hfeed hreturn htab
    · rcases mem_pair.mp hc with rfl | rfl <;> decide
    · rcases mem_pair.mp hc with rfl | rfl <;> decide
    · rcases mem_pair.mp hc with rfl | rfl <;> decide
    · obtain rfl := mem_singleton.mp hc
      exact ⟨hfeed, hreturn, htab⟩
  refine ⟨fun hmem => ?_, fun hmem => ?_, fun hmem => ?_⟩
  all_goals obtain ⟨x, _, hx⟩ := mem_flatMap.mp hmem
  · exact (hchar x _ hx).1 rfl
  · exact (hchar x _ hx).2.1 rfl
  · exact (hchar x _ hx).2.2 rfl

theorem recover_eq_self_iff {value : Str} : recover value = value ↔ Plain value := by
  constructor
  · intro h
    rw [← h]
    exact plain_recover value
  · intro h
    have hsingle : ∀ c ∈ value, recoverChar c = [c] := by
      intro c hc
      rw [recoverChar, if_neg (ne_of_mem_of_not_mem hc h.1),
        if_neg (ne_of_mem_of_not_mem hc h.2.1), if_neg (ne_of_mem_of_not_mem hc h.2.2)]
    rw [recover, flatMap_congr hsingle, flatMap_singleton']

/-! ## Frontmatter blocks -/

/-- A key and a text whose line is read back as the key and a value. -/
structure Readable (key text value : Str) : Prop where
  keyColon : ':' ∉ key
  keyBreak : '\n' ∉ key
  keyStart : key.head? ≠ some '-'
  keyTrim : trim key = key
  keyNonempty : key ≠ []
  textBreak : '\n' ∉ text
  textTrim : trim text = text
  textNonempty : text ≠ []
  read : parseValue text = .ok value

def lineOf (key text : Str) : Str := key ++ ':' :: ' ' :: text

theorem splitOnceStr_block {all : List Str} {tail : Str} (hne : all ≠ [])
    (h : ∀ line ∈ all, '\n' ∉ line ∧ line.head? ≠ some '-' ∧ line ≠ []) :
    splitOnceStr "\n---".toList (all.flatMap (· ++ ['\n']) ++ ("---\n".toList ++ tail)) =
      some (join ['\n'] all, '\n' :: tail) := by
  induction all with
  | nil => exact absurd rfl hne
  | cons line rest ih =>
      obtain ⟨hline, hrest⟩ := forall_mem_cons.mp h
      have hsplit : ∀ after, splitOnceStr "\n---".toList (line ++ '\n' :: after) =
          (splitOnceStr "\n---".toList ('\n' :: after)).map
            fun halves => (line ++ halves.1, halves.2) :=
        fun after => splitOnceStr_append hline.1 _
      rw [flatMap_cons, append_assoc, append_assoc, singleton_append, hsplit]
      cases rest with
      | nil =>
          rfl
      | cons next rest =>
          obtain ⟨hnext, hdash, hnonempty⟩ := (forall_mem_cons.mp hrest).1
          have hstrip : stripStart "\n---".toList ('\n' :: ((next :: rest).flatMap (· ++ ['\n']) ++
              ("---\n".toList ++ tail))) = none := by
            rw [Option.eq_none_iff_forall_ne_some]
            intro after hafter
            have heq := stripStart_eq_some_iff.mp hafter
            cases next with
            | nil => exact hnonempty rfl
            | cons c next =>
                have hc : c = '-' := (List.cons.inj (List.cons.inj heq).2).1
                rw [hc] at hdash
                exact hdash rfl
          rw [splitOnceStr, hstrip]
          dsimp only
          rw [ih (cons_ne_nil _ _) hrest, join, join,
            intercalate_cons_of_ne_nil (cons_ne_nil _ _)]
          simp

theorem Readable.line {key text value : Str} (h : Readable key text value) :
    '\n' ∉ lineOf key text ∧ (lineOf key text).head? ≠ some '-' ∧ lineOf key text ≠ [] ∧
      (lineOf key text).getLast? ≠ some '\r' := by
  refine ⟨?_, ?_, ?_, ?_⟩
  · have hkey := h.keyBreak
    have htext := h.textBreak
    simp [lineOf, hkey, htext]
  · rw [lineOf, head?_append_of_ne_nil _ h.keyNonempty]
    exact h.keyStart
  · simp [lineOf]
  · have hlast : (lineOf key text).getLast? = text.getLast? := by
      rw [lineOf, getLast?_append_of_ne_nil _ (cons_ne_nil _ _),
        getLast?_cons_of_ne_nil (cons_ne_nil _ _),
        getLast?_cons_of_ne_nil h.textNonempty]
    rw [hlast]
    intro hreturn
    have hwhitespace := last_trim text '\r' (by rw [h.textTrim]; exact hreturn)
    exact absurd hwhitespace (by decide)

section Block

variable {entries : List (Str × Str)} {text value : Str → Str}

theorem parseLines_readable
    (h : ∀ entry ∈ entries, Readable entry.1 (text entry.2) (value entry.2)) (map : OrdMap Str Str) :
    parseLines (entries.map fun entry => lineOf entry.1 (text entry.2)) map =
      .ok ((entries.map fun entry => (entry.1, value entry.2)).foldl
        (fun map entry => map.insert entry.1 entry.2) map) := by
  induction entries generalizing map with
  | nil => rfl
  | cons entry rest ih =>
      obtain ⟨hentry, hrest⟩ := forall_mem_cons.mp h
      have hsplit : splitOnce ':' (lineOf entry.1 (text entry.2)) =
          some (entry.1, ' ' :: text entry.2) := splitOnce_append hentry.keyColon _
      rw [map_cons, parseLines, hsplit]
      dsimp only
      rw [hentry.keyTrim, if_neg hentry.keyNonempty, trim_cons_whitespace (by decide),
        hentry.textTrim, hentry.read, ok_bind, ih hrest]
      rfl

/-- A document reads back as the map of its frontmatter. -/
theorem parseFrontmatterBlock_readable {tail : Str} (hne : entries ≠ [])
    (h : ∀ entry ∈ entries, Readable entry.1 (text entry.2) (value entry.2)) :
    parseFrontmatterBlock ("---\n".toList ++
      (entries.flatMap (fun entry => lineOf entry.1 (text entry.2) ++ ['\n']) ++
        ("---\n".toList ++ tail))) =
      .ok (OrdMap.ofList (entries.map fun entry => (entry.1, value entry.2))) := by
  have hlines : ∀ line ∈ entries.map fun entry => lineOf entry.1 (text entry.2),
      '\n' ∉ line ∧ line.head? ≠ some '-' ∧ line ≠ [] ∧ line.getLast? ≠ some '\r' := by
    intro line hline
    obtain ⟨entry, hentry, rfl⟩ := mem_map.mp hline
    exact (h entry hentry).line
  have hempty : (entries.map fun entry => lineOf entry.1 (text entry.2)) ≠ [] := by simpa using hne
  have hopen : ∀ rest, splitOnceStr "---\n".toList ("---\n".toList ++ rest) = some ([], rest) :=
    fun rest => rfl
  have hblock := @splitOnceStr_block _ tail hempty fun line hline =>
    ⟨(hlines line hline).1, (hlines line hline).2.1, (hlines line hline).2.2.1⟩
  rw [flatMap_map] at hblock
  rw [parseFrontmatterBlock, hopen]
  dsimp only
  rw [hblock]
  dsimp only
  rw [lines_join hempty fun line hline =>
    ⟨(hlines line hline).1, (hlines line hline).2.2.2, (hlines line hline).2.2.1⟩]
  exact parseLines_readable h .empty

end Block

/-! ## Texts of identities, keys and links -/

/-- A character that no step of the reparse treats as white space, line break or quote. -/
def visible (c : Char) : Bool := 0x21 ≤ c.toNat && c.toNat ≤ 0x7E && c ≠ '"'

theorem visible_of_alphanum (h : c.isAlphanum = true) : visible c = true := by
  have hcode : c.toNat = c.val.toNat := rfl
  simp only [Char.isAlphanum, isAlpha_eq, isUpper_eq, isLower_eq, Char.isDigit, or_eq_true,
    and_eq_true, decide_eq_true_eq, UInt32.le_iff_toNat_le, ge_iff_le] at h
  change ((65 ≤ c.toNat ∧ c.toNat ≤ 90) ∨ (97 ≤ c.toNat ∧ c.toNat ≤ 122)) ∨
    (48 ≤ c.toNat ∧ c.toNat ≤ 57) at h
  have hquote : c ≠ '"' := by
    rintro rfl
    revert h
    decide
  simp only [visible, and_eq_true, decide_eq_true_eq]
  exact ⟨by omega, hquote⟩

theorem visible_of_identityChar (h : identityChar c = true) : visible c = true := by
  simp only [identityChar, or_eq_true, decide_eq_true_eq] at h
  rcases h with ((((h | rfl) | rfl) | rfl) | rfl) | rfl
  · exact visible_of_alphanum h
  all_goals decide

theorem visible_of_fsChar (h : fsChar c = true) : visible c = true := by
  simp only [fsChar, or_eq_true, decide_eq_true_eq] at h
  rcases h with ((h | rfl) | rfl) | rfl
  · exact visible_of_alphanum h
  all_goals decide

theorem not_whitespace_of_visible (h : visible c = true) : isWhitespace c = false := by
  simp only [visible, and_eq_true, decide_eq_true_eq] at h
  simp only [isWhitespace, Bool.or_eq_false_iff, Bool.and_eq_false_iff, decide_eq_false_iff_not]
  omega

/-- A text of visible characters. -/
structure Visible (text : Str) : Prop where
  nonempty : text ≠ []
  all : ∀ c ∈ text, visible c = true

theorem Visible.not_mem {text : Str} (h : Visible text) (hc : visible c = false) :
    c ∉ text := by
  intro hmem
  rw [h.all c hmem] at hc
  cases hc

theorem Visible.trim_eq {text : Str} (h : Visible text) : trim text = text := by
  have hchar := fun c hc => not_whitespace_of_visible (h.all c hc)
  rw [trim, trimStart_of_head? fun c hc => hchar c (mem_of_mem_head? hc),
    trimEnd_of_getLast? fun c hc => hchar c (mem_of_mem_getLast? hc)]

theorem Visible.parseValue_eq {text : Str} (h : Visible text) : parseValue text = .ok text := by
  rw [parseValue, if_neg]
  intro hquotes
  exact h.not_mem (c := '"') (by decide) (mem_of_mem_head? hquotes.1)

theorem Visible.plain {text : Str} (h : Visible text) : Plain text :=
  ⟨h.not_mem (by decide), h.not_mem (by decide), h.not_mem (by decide)⟩

theorem Visible.append {first second : Str} (hfirst : Visible first) (hsecond : Visible second) :
    Visible (first ++ second) := by
  refine ⟨by simp [hfirst.nonempty], fun c hc => ?_⟩
  rcases mem_append.mp hc with hc | hc
  · exact hfirst.all c hc
  · exact hsecond.all c hc

theorem visible_identity {value : Str} (h : validIdentity value = true) : Visible value := by
  simp only [validIdentity, and_eq_true, Bool.not_eq_true', isEmpty_eq_false_iff,
    all_eq_true] at h
  exact ⟨h.1.1, fun c hc => visible_of_identityChar (h.2 c hc)⟩

/-- A key without a colon that starts no end of a block. -/
structure KeyText (key : Str) : Prop where
  text : Visible key
  colon : ':' ∉ key
  start : key.head? ≠ some '-'

theorem keyText_of_safe {key : Str} (h : isSafeYamlKey key = true) : KeyText key := by
  simp only [isSafeYamlKey, and_eq_true, Bool.not_eq_true', isEmpty_eq_false_iff,
    all_eq_true, decide_eq_true_eq, or_eq_true] at h
  obtain ⟨⟨⟨⟨hne, _⟩, hdash⟩, _⟩, hchars⟩ := h
  have hkeyChar : ∀ c ∈ key, visible c = true ∧ c ≠ ':' := by
    intro c hc
    rcases hchars c hc with ((hc | rfl) | rfl) | rfl
    · exact ⟨visible_of_alphanum hc, by rintro rfl; revert hc; decide⟩
    all_goals decide
  exact ⟨⟨hne, fun c hc => (hkeyChar c hc).1⟩, fun hc => (hkeyChar _ hc).2 rfl, hdash⟩

theorem KeyText.readable {key text value : Str} (hkey : KeyText key) (hbreak : '\n' ∉ text)
    (htrim : trim text = text) (hne : text ≠ []) (hread : parseValue text = .ok value) :
    Readable key text value :=
  ⟨hkey.colon, hkey.text.not_mem (by decide), hkey.start, hkey.text.trim_eq, hkey.text.nonempty,
    hbreak, htrim, hne, hread⟩

/-- An escaped value comes back as what the two replacements leave of it. -/
theorem readable_scalar {key : Str} (hkey : KeyText key) (value : Str) :
    Readable key (yamlScalar value) (recover value) := by
  refine hkey.readable ?_ ?_ (cons_ne_nil _ _) ?_
  · have hescape : '\n' ∉ escapeForYaml value := by
      rw [escapeForYaml_eq]
      intro hmem
      obtain ⟨c, _, hc⟩ := mem_flatMap.mp hmem
      rcases escapeChar_cases c with ⟨_, h⟩ | ⟨_, h⟩ | ⟨letter, _, _, _, _, h, hr⟩ | ⟨_, _, h, hr⟩
      · rw [h] at hc
        exact absurd hc (by decide)
      · rw [h] at hc
        exact absurd hc (by decide)
      all_goals
        rw [h, ← hr] at hc
        exact (plain_recover [c]).1 (by rw [recover, flatMap_singleton]; exact hc)
    simp [yamlScalar, hescape]
  · refine trimmed_iff.mpr ⟨fun c hc => ?_, fun c hc => ?_⟩
    · obtain rfl := some.inj hc
      decide
    · rw [yamlScalar, ← cons_append, getLast?_concat] at hc
      obtain rfl := some.inj hc
      decide
  · have hlast : (yamlScalar value).getLast? = some '"' := by
      rw [yamlScalar, ← cons_append, getLast?_concat]
    rw [parseValue, if_pos ⟨rfl, hlast⟩, if_neg (by simp [yamlScalar])]
    simp only [yamlScalar, tail_cons, dropLast_concat, unescape_escapeForYaml]

theorem readable_visible {key text : Str} (hkey : KeyText key) (htext : Visible text) :
    Readable key text text :=
  hkey.readable (htext.not_mem (by decide)) htext.trim_eq htext.nonempty htext.parseValue_eq

/-! ## Edge records -/

theorem mem_splitOn {separator : Char} {text : Str} (h : c ∈ text) (hne : c ≠ separator) :
    ∃ part ∈ text.splitOn separator, c ∈ part := by
  by_contra hnone
  push Not at hnone
  have hjoin : join [separator] (text.splitOn separator) = text := intercalate_splitOn separator
  rw [← hjoin] at h
  exact not_mem_join (by simpa using hne) hnone h

theorem visible_target {target : Str} (h : validateObsidianTarget target = .ok ()) :
    Visible target ∧ '|' ∉ target := by
  obtain ⟨hshape, hsegments⟩ := check_bind_eq_ok_iff.mp h
  rw [failIf_eq_ok_iff] at hshape
  simp only [not_or] at hshape
  refine ⟨⟨hshape.1, fun c hc => ?_⟩, hshape.2.2.2.2.1⟩
  by_cases hslash : c = '/'
  · subst hslash
    decide
  · obtain ⟨segment, hsegment, hmem⟩ := mem_splitOn hc hslash
    have hsafe := forEach_eq_ok_iff.mp hsegments segment hsegment
    rw [failIf_eq_ok_iff, not_eq_false, isSafeFsSegment, and_eq_true,
      all_eq_true] at hsafe
    exact visible_of_fsChar (hsafe.2 c hmem)

/-- An edge whose strings pass the policy and whose link is a target. -/
structure EmittedEdge (edge : ExportEdge) : Prop where
  id : validateEmittedString edge.id.value = .ok ()
  source : validateEmittedString edge.source.value = .ok ()
  target : validateEmittedString edge.target.value = .ok ()
  linkTarget : validateEmittedString edge.linkTarget = .ok ()
  link : validateObsidianTarget edge.linkTarget = .ok ()

theorem visible_edgeRecord {edge : ExportEdge} (h : EmittedEdge edge) :
    Visible (edgeRecord edge) := by
  have hbar : Visible ['|'] := ⟨by simp, by simp [visible]⟩
  have hid := visible_identity edge.id.valid
  have hsource := visible_identity edge.source.valid
  have htarget := visible_identity edge.target.valid
  have hlink := (visible_target h.link).1
  have hrecord := hid.append (hbar.append (hsource.append (hbar.append
    (htarget.append (hbar.append hlink)))))
  simpa [edgeRecord] using hrecord

theorem bar_not_mem_identity {value : Str} (h : validIdentity value = true) : '|' ∉ value := by
  simp only [validIdentity, and_eq_true, all_eq_true] at h
  exact fun hmem => absurd (h.2 _ hmem) (by decide)

theorem parseEdgeRecord_edgeRecord {edge : ExportEdge} (h : EmittedEdge edge) :
    parseEdgeRecord (edgeRecord edge) =
      .ok (edge.id, edge.source, edge.target, edge.linkTarget) := by
  have hsplit : splitN '|' 4 (edgeRecord edge) =
      [edge.id.value, edge.source.value, edge.target.value, edge.linkTarget] := by
    rw [edgeRecord, splitN, splitOnce_append (bar_not_mem_identity edge.id.valid)]
    dsimp only
    rw [splitN, splitOnce_append (bar_not_mem_identity edge.source.valid)]
    dsimp only
    rw [splitN, splitOnce_append (bar_not_mem_identity edge.target.valid)]
    rfl
  have hpolicy : forEach validateEmittedString
      [edge.id.value, edge.source.value, edge.target.value, edge.linkTarget] = .ok () := by
    rw [forEach_eq_ok_iff]
    simp [h.id, h.source, h.target, h.linkTarget]
  have hid : EdgeId.parse edge.id.value = .ok edge.id := dif_pos edge.id.valid
  have hnode : ∀ id : NodeId, recordNodeId id.value = .ok id := by
    intro id
    have hparse : NodeId.parse id.value = .ok id := dif_pos id.valid
    rw [recordNodeId, hparse]
    rfl
  rw [parseEdgeRecord, hsplit]
  dsimp only
  rw [hpolicy, ok_bind, hid, hnode, hnode, h.link]
  rfl

/-! ## Documents -/

theorem keyText_decimal (start : Str) (n : ℕ) (h : KeyText start) :
    KeyText (start ++ decimal n) := by
  have hdigits : ∀ c ∈ decimal n, visible c = true ∧ c ≠ ':' := by
    intro c hc
    have hdigit : c.isDigit = true := Nat.isDigit_of_mem_toDigits (by omega) (by omega) hc
    refine ⟨visible_of_alphanum (by simp [Char.isAlphanum, hdigit]), ?_⟩
    rintro rfl
    revert hdigit
    decide
  refine ⟨⟨by simp [h.text.nonempty], fun c hc => ?_⟩, ?_, ?_⟩
  · rcases mem_append.mp hc with hc | hc
    · exact h.text.all c hc
    · exact (hdigits c hc).1
  · rw [mem_append, not_or]
    exact ⟨h.colon, fun hc => (hdigits _ hc).2 rfl⟩
  · rw [head?_append_of_ne_nil _ h.text.nonempty]
    exact h.start

theorem mem_edgeEntries {index : ℕ} {edges : List ExportEdge} {entry : Str × Str}
    (h : entry ∈ edgeEntries index edges) : ∃ n edge, index ≤ n ∧ edge ∈ edges ∧
      entry = (edgeKeyStart ++ decimal n, edgeRecord edge) := by
  induction edges generalizing index with
  | nil => cases h
  | cons edge rest ih =>
      rcases mem_cons.mp h with rfl | h
      · exact ⟨index, edge, le_rfl, mem_cons_self, rfl⟩
      · obtain ⟨n, other, hn, hother, heq⟩ := ih h
        exact ⟨n, other, by omega, mem_cons_of_mem _ hother, heq⟩

theorem nodup_edgeEntries (index : ℕ) (edges : List ExportEdge) :
    ((edgeEntries index edges).map Prod.fst).Nodup := by
  induction edges generalizing index with
  | nil => exact .nil
  | cons edge rest ih =>
      refine nodup_cons.mpr ⟨fun hmem => ?_, ih (index + 1)⟩
      obtain ⟨entry, hentry, hkey⟩ := mem_map.mp hmem
      obtain ⟨n, _, hn, _, rfl⟩ := mem_edgeEntries hentry
      have hindex := Encoding.decimal_injective (append_cancel_left hkey)
      omega

theorem isEdgeKey_decimal (n : ℕ) : isEdgeKey (edgeKeyStart ++ decimal n) = true := by
  have hstrip : stripStart edgeKeyStart (edgeKeyStart ++ decimal n) = some (decimal n) :=
    stripStart_eq_some_iff.mpr rfl
  have hne : decimal n ≠ [] := Nat.toDigits_ne_nil
  have hdigits : ∀ c ∈ decimal n, c.isDigit = true := fun c hc =>
    Nat.isDigit_of_mem_toDigits (by omega) (by omega) hc
  rw [isEdgeKey, hstrip]
  simpa [hne] using hdigits

theorem prefix_of_isEdgeKey {key : Str} (h : isEdgeKey key = true) : edgeKeyStart <+: key := by
  unfold isEdgeKey at h
  cases hstrip : stripStart edgeKeyStart key with
  | none =>
      rw [hstrip] at h
      cases h
  | some suffix => exact ⟨suffix, (stripStart_eq_some_iff.mp hstrip).symm⟩

theorem nodup_graphEntries (nodes : List ExportNode) (edges : List ExportEdge) :
    ((graphEntries nodes edges).map Prod.fst).Nodup := by
  have hother : ∀ key, isEdgeKey key = false → key ∉ (edgeEntries 0 edges).map Prod.fst := by
    intro key hkey hmem
    obtain ⟨entry, hentry, rfl⟩ := mem_map.mp hmem
    obtain ⟨n, _, _, _, rfl⟩ := mem_edgeEntries hentry
    rw [isEdgeKey_decimal] at hkey
    cases hkey
  have htype := hother "bran_type".toList (by decide)
  have hnodes := hother "bran_node_count".toList (by decide)
  have hedges := hother "bran_edge_count".toList (by decide)
  simp only [graphEntries, map_cons, nodup_cons, mem_cons, not_or]
  exact ⟨⟨by decide, by decide, htype⟩, ⟨by decide, hnodes⟩, hedges, nodup_edgeEntries 0 edges⟩

theorem visible_decimal (n : ℕ) : Visible (decimal n) := by
  refine ⟨Nat.toDigits_ne_nil, fun c hc => visible_of_alphanum ?_⟩
  have hdigit : c.isDigit = true := Nat.isDigit_of_mem_toDigits (by omega) (by omega) hc
  simp [Char.isAlphanum, hdigit]

theorem readable_graphEntries {nodes : List ExportNode} {edges : List ExportEdge}
    (h : ∀ edge ∈ edges, EmittedEdge edge) :
    ∀ entry ∈ graphEntries nodes edges, Readable entry.1 entry.2 entry.2 := by
  have htype : KeyText "bran_type".toList := keyText_of_safe (by decide)
  have hnodes : KeyText "bran_node_count".toList := keyText_of_safe (by decide)
  have hedges : KeyText "bran_edge_count".toList := keyText_of_safe (by decide)
  have hedge : KeyText edgeKeyStart := keyText_of_safe (by decide)
  have hgraph : Visible "graph-representation".toList := ⟨by decide, by decide⟩
  intro entry hentry
  simp only [graphEntries, mem_cons] at hentry
  rcases hentry with rfl | rfl | rfl | hentry
  · exact readable_visible htype hgraph
  · exact readable_visible hnodes (visible_decimal _)
  · exact readable_visible hedges (visible_decimal _)
  · obtain ⟨n, edge, _, hmem, rfl⟩ := mem_edgeEntries hentry
    exact readable_visible (keyText_decimal _ _ hedge) (visible_edgeRecord (h edge hmem))

/-- The frontmatter of the graph document. -/
def graphMap (nodes : List ExportNode) (edges : List ExportEdge) : OrdMap Str Str :=
  OrdMap.ofList (graphEntries nodes edges)

theorem parse_buildGraphMarkdown {nodes : List ExportNode} {edges : List ExportEdge}
    (h : ∀ edge ∈ edges, EmittedEdge edge) :
    parseFrontmatterBlock (buildGraphMarkdown nodes edges) = .ok (graphMap nodes edges) := by
  have hread := @parseFrontmatterBlock_readable (graphEntries nodes edges) id id
    ("\n# Bran Graph Representation\n\n## Nodes (wikilinks)\n".toList ++
      (nodes.flatMap (fun node => "- [[".toList ++ (stripEnd ".md".toList node.path).getD node.path ++
        "]] (id: ".toList ++ node.id.value ++ ")\n".toList) ++
      ("\n## Edges\n".toList ++ edges.flatMap fun edge => "- ".toList ++ edge.id.value ++ ": ".toList ++
        edge.source.value ++ " -> [[".toList ++ edge.linkTarget ++ "]]\n".toList)))
    (cons_ne_nil _ _) (readable_graphEntries h)
  simp only [id, Prod.mk.eta, map_id'] at hread
  rw [graphMap, ← hread]
  rfl

/-- A node whose keys can be written and whose identity stands in the frontmatter. -/
structure EmittedNode (node : ExportNode) : Prop where
  id : validateEmittedString node.id.value = .ok ()
  keys : ∀ key ∈ node.frontmatter.keys, validateKey key = .ok ()
  identity : ∀ value, node.frontmatter.find? nodeIdKey = some value → value = node.id.value
  entries : ∀ entry ∈ node.frontmatter.entries, validateEntry entry = .ok ()

/-- The frontmatter as the reparse reads it. -/
def recovered (node : ExportNode) : OrdMap Str Str := (effective node).mapValues fun _ => recover

theorem effective_eq (h : EmittedNode node) :
    effective node = node.frontmatter.insert nodeIdKey node.id.value := by
  unfold effective
  split_ifs with hcontains
  · obtain ⟨value, hvalue⟩ := mem_keys_iff.mp (OrdMap.contains_iff.mp hcontains)
    refine ext_find? fun key => ?_
    rw [find?_insert]
    split_ifs with hkey
    · rw [← hkey, hvalue, h.identity value hvalue]
    · rfl
  · rfl

theorem safeKey_effective (h : EmittedNode node) {entry : Str × Str}
    (hentry : entry ∈ (effective node).entries) :
    isSafeYamlKey entry.1 = true ∧ ¬ edgeKeyStart <+: entry.1 := by
  have hkey : entry.1 ∈ (effective node).keys := mem_map.mpr ⟨entry, hentry, rfl⟩
  rw [effective_eq h, mem_keys_insert] at hkey
  rcases hkey with hkey | hkey
  · rw [hkey]
    decide
  · obtain ⟨hreserved, hsafe⟩ := check_bind_eq_ok_iff.mp (h.keys _ hkey)
    rw [failIf_eq_ok_iff, not_or] at hreserved
    rw [failIf_eq_ok_iff, not_eq_false] at hsafe
    exact ⟨hsafe, hreserved.2⟩

theorem parse_buildNodeMarkdown (edges : List ExportEdge) (h : EmittedNode node) :
    parseFrontmatterBlock (buildNodeMarkdown node edges) = .ok (recovered node) := by
  have hne : (effective node).entries ≠ [] := by
    intro hnil
    have hfind : (effective node).find? nodeIdKey = some node.id.value := by
      rw [effective_eq h, find?_insert_self]
    rw [OrdMap.find?, hnil] at hfind
    cases hfind
  have hread := @parseFrontmatterBlock_readable (effective node).entries yamlScalar recover
    (node.body ++ ((if node.body.getLast? ≠ some '\n' ∧ node.body ≠ [] then ['\n'] else []) ++
      linkLines node edges)) hne fun entry hentry =>
        readable_scalar (keyText_of_safe (safeKey_effective h hentry).1) entry.2
  have hmap : OrdMap.ofList ((effective node).entries.map fun entry => (entry.1, recover entry.2)) =
      recovered node := ofList_entries (recovered node)
  rw [← hmap, ← hread]
  rfl

/-! ## Collecting -/

/-- The reparse of the document of a node. -/
def addNode (collected : Collected) (node : ExportNode) : Collected :=
  { collected with
    nodes := collected.nodes.insert node.id ()
    frontmatter := collected.frontmatter.insert node.id (recovered node) }

/-- The reparse of the record of an edge. -/
def addEdge (collected : Collected) (edge : ExportEdge) : Collected :=
  { collected with
    edges := collected.edges.insert edge.id (edge.source, edge.target, edge.linkTarget)
    links := collected.links.insert edge.linkTarget () }

theorem recover_identity {value : Str} (h : validIdentity value = true) : recover value = value :=
  recover_eq_self_iff.mpr (visible_identity h).plain

theorem find?_recovered (h : EmittedNode node) :
    (recovered node).find? nodeIdKey = some node.id.value := by
  rw [recovered, find?_mapValues, effective_eq h, find?_insert_self, map_some,
    recover_identity node.id.valid]

theorem collectNode_recovered (h : EmittedNode node) (collected : Collected) :
    collectNode (recovered node) collected = (do
      forEach validateEntry (recovered node).entries
      .ok (addNode collected node)) := by
  have hparse : NodeId.parse node.id.value = .ok node.id := dif_pos node.id.valid
  rw [collectNode, find?_recovered h]
  dsimp only
  rw [h.id, ok_bind, hparse]
  rfl

/-- Without escapes that are not undone the frontmatter is the exported one. -/
theorem recovered_eq (h : EmittedNode node)
    (hplain : ∀ entry ∈ node.frontmatter.entries, Plain entry.2) :
    recovered node = node.frontmatter.insert nodeIdKey node.id.value := by
  rw [← effective_eq h]
  refine ext_find? fun key => ?_
  rw [recovered, find?_mapValues]
  cases hfind : (effective node).find? key with
  | none => rfl
  | some value =>
      rw [map_some]
      congr 1
      rw [effective_eq h, find?_insert] at hfind
      split_ifs at hfind with hkey
      · rw [← some.inj hfind, recover_identity node.id.valid]
      · exact recover_eq_self_iff.mpr (hplain (key, value) (mem_entries_iff.mpr hfind))

theorem plain_of_recovered (h : EmittedNode node)
    (heq : recovered node = node.frontmatter.insert nodeIdKey node.id.value) :
    ∀ entry ∈ node.frontmatter.entries, Plain entry.2 := by
  rintro ⟨key, value⟩ hentry
  have hfind := mem_entries_iff.mp hentry
  by_cases hkey : key = nodeIdKey
  · subst hkey
    rw [h.identity value hfind]
    exact (visible_identity node.id.valid).plain
  · have hsame : (recovered node).find? key = some value := by
      rw [heq, find?_insert_of_ne _ _ (Ne.symm hkey), hfind]
    rw [recovered, find?_mapValues, effective_eq h,
      find?_insert_of_ne _ _ (Ne.symm hkey), hfind, map_some] at hsame
    exact recover_eq_self_iff.mp (some.inj hsame)

theorem validateEntry_nodeId (h : EmittedNode node) :
    validateEntry (nodeIdKey, node.id.value) = .ok () := by
  have hkey : validateEmittedString nodeIdKey = .ok () := by decide
  rw [validateEntry, hkey, ok_bind, h.id]

theorem validate_recovered (h : EmittedNode node)
    (hplain : ∀ entry ∈ node.frontmatter.entries, Plain entry.2) :
    forEach validateEntry (recovered node).entries = .ok () := by
  rw [recovered_eq h hplain, forEach_eq_ok_iff]
  rintro ⟨key, value⟩ hentry
  have hfind := mem_entries_iff.mp hentry
  rw [find?_insert] at hfind
  split_ifs at hfind with hkey
  · rw [← hkey, ← some.inj hfind]
    exact validateEntry_nodeId h
  · exact h.entries _ (mem_entries_iff.mpr hfind)

/-- A document of a node has no edge records. -/
theorem collectEdges_recovered (h : EmittedNode node) (collected : Collected) :
    collectEdges (recovered node).entries collected = .ok collected := by
  have hskip : ∀ entries : List (Str × Str), (∀ entry ∈ entries, isEdgeKey entry.1 = false) →
      collectEdges entries collected = .ok collected := by
    intro entries
    induction entries with
    | nil => exact fun _ => rfl
    | cons entry rest ih =>
        intro hkeys
        obtain ⟨hentry, hrest⟩ := forall_mem_cons.mp hkeys
        rw [collectEdges, if_neg (by rw [hentry]; exact Bool.false_ne_true), ih hrest]
  refine hskip _ fun entry hentry => ?_
  obtain ⟨original, horiginal, rfl⟩ := mem_map.mp hentry
  rw [Bool.eq_false_iff]
  exact fun hkey => (safeKey_effective h horiginal).2 (prefix_of_isEdgeKey hkey)

/-- A run over the documents of nodes checks what they recover and adds them one after the other. -/
theorem collectDocs_nodes {nodes : List ExportNode} (edges : List ExportEdge) (rest : List Str)
    (collected : Collected) (hnodes : ∀ node ∈ nodes, EmittedNode node) :
    collectDocs (nodes.map (buildNodeMarkdown · edges) ++ rest) collected = (do
      (forEach (fun node => forEach validateEntry (recovered node).entries) nodes).mapError .refused
      collectDocs rest (nodes.foldl addNode collected)) := by
  induction nodes generalizing collected with
  | nil => rfl
  | cons node nodes ih =>
      obtain ⟨hnode, hnodes⟩ := forall_mem_cons.mp hnodes
      rw [map_cons, cons_append, collectDocs, parse_buildNodeMarkdown edges hnode, ok_bind,
        collectNode_recovered hnode, forEach]
      cases forEach validateEntry (recovered node).entries with
      | error _ => rfl
      | ok _ =>
          rw [ok_bind, ok_bind]
          change (collectEdges (recovered node).entries (addNode collected node)).mapError _ >>= _ = _
          rw [collectEdges_recovered hnode]
          exact ih (addNode collected node) hnodes

theorem collectEdges_filter (entries : List (Str × Str)) (collected : Collected) :
    collectEdges entries collected =
      collectEdges (entries.filter fun entry => isEdgeKey entry.1) collected := by
  induction entries generalizing collected with
  | nil => rfl
  | cons entry rest ih =>
      rw [collectEdges, filter_cons]
      split_ifs with hkey
      · rw [collectEdges, if_pos hkey]
        refine bind_congr_ok fun record _ => bind_congr_ok fun _ _ => ih _
      · exact ih collected

theorem collectEdges_records {entries : List (Str × Str)} {edges : List ExportEdge}
    {collected : Collected} (hkeys : ∀ entry ∈ entries, isEdgeKey entry.1 = true)
    (htexts : entries.map Prod.snd = edges.map edgeRecord) (h : ∀ edge ∈ edges, EmittedEdge edge)
    (hnodup : (edges.map ExportEdge.id).Nodup)
    (hfresh : ∀ edge ∈ edges, collected.edges.contains edge.id = false) :
    collectEdges entries collected = .ok (edges.foldl addEdge collected) := by
  induction edges generalizing entries collected with
  | nil =>
      rw [map_eq_nil_iff.mp htexts]
      rfl
  | cons edge edges ih =>
      cases entries with
      | nil => cases htexts
      | cons entry rest =>
          obtain ⟨htext, htexts⟩ := List.cons.inj htexts
          obtain ⟨hkey, hkeys⟩ := forall_mem_cons.mp hkeys
          obtain ⟨hedge, h⟩ := forall_mem_cons.mp h
          obtain ⟨hnew, hfresh⟩ := forall_mem_cons.mp hfresh
          obtain ⟨hother, hnodup⟩ := nodup_cons.mp hnodup
          rw [collectEdges, if_pos hkey, htext, parseEdgeRecord_edgeRecord hedge, ok_bind]
          dsimp only
          rw [failIf_bind_eq (by rw [hnew]; exact Bool.false_ne_true)]
          refine ih hkeys htexts h hnodup fun other hmem => ?_
          have hne : edge.id ≠ other.id := fun heq =>
            hother (heq ▸ mem_map.mpr ⟨other, hmem, rfl⟩)
          have hold := hfresh other hmem
          rw [contains_eq_false_iff] at hold ⊢
          exact (find?_insert_of_ne _ _ hne).trans hold

theorem filter_graphEntries (nodes : List ExportNode) (edges : List ExportEdge) :
    (graphEntries nodes edges).filter (fun entry => isEdgeKey entry.1) = edgeEntries 0 edges := by
  have htype : isEdgeKey "bran_type".toList = false := by decide
  have hnodes : isEdgeKey "bran_node_count".toList = false := by decide
  have hedges : isEdgeKey "bran_edge_count".toList = false := by decide
  have hdrop : ∀ (key text : Str) (rest : List (Str × Str)), isEdgeKey key = false →
      ((key, text) :: rest).filter (fun entry => isEdgeKey entry.1) =
        rest.filter fun entry => isEdgeKey entry.1 :=
    fun key text rest hkey => filter_cons_of_neg (by rw [hkey]; exact Bool.false_ne_true)
  rw [graphEntries, hdrop _ _ _ htype, hdrop _ _ _ hnodes, hdrop _ _ _ hedges, filter_eq_self]
  intro entry hentry
  obtain ⟨n, _, _, _, rfl⟩ := mem_edgeEntries hentry
  exact isEdgeKey_decimal n

theorem map_snd_edgeEntries (index : ℕ) (edges : List ExportEdge) :
    (edgeEntries index edges).map Prod.snd = edges.map edgeRecord := by
  induction edges generalizing index with
  | nil => rfl
  | cons edge rest ih => rw [edgeEntries, map_cons, map_cons, ih]

theorem collectNode_graphMap (nodes : List ExportNode) (edges : List ExportEdge)
    (collected : Collected) : collectNode (graphMap nodes edges) collected = .ok collected := by
  have hnone : (graphMap nodes edges).find? nodeIdKey = none := by
    rw [Option.eq_none_iff_forall_ne_some]
    intro value hvalue
    rw [graphMap, find?_ofList (nodup_graphEntries nodes edges)] at hvalue
    simp only [graphEntries, mem_cons] at hvalue
    rcases hvalue with h | h | h | h
    · exact absurd (Prod.mk.inj h).1 (by decide)
    · exact absurd (Prod.mk.inj h).1 (by decide)
    · exact absurd (Prod.mk.inj h).1 (by decide)
    · obtain ⟨n, _, _, _, heq⟩ := mem_edgeEntries h
      have hstart : edgeKeyStart <+: nodeIdKey := ⟨decimal n, (Prod.mk.inj heq).1.symm⟩
      exact absurd hstart (by decide)
  rw [collectNode, hnone]

/-- The graph document adds every edge, in the order of the keys. -/
theorem collectDocs_graph {nodes : List ExportNode} {edges : List ExportEdge} {rest : List Str}
    {collected : Collected} (h : ∀ edge ∈ edges, EmittedEdge edge)
    (hnodup : (edges.map ExportEdge.id).Nodup) (hempty : collected.edges = .empty) :
    ∃ ordered : List ExportEdge, ordered.Perm edges ∧
      collectDocs (buildGraphMarkdown nodes edges :: rest) collected =
        collectDocs rest (ordered.foldl addEdge collected) := by
  have hentries : (graphMap nodes edges).entries.Perm (graphEntries nodes edges) :=
    entries_ofList_perm (nodup_graphEntries nodes edges)
  have hrecords := (hentries.filter fun entry => isEdgeKey entry.1).map Prod.snd
  rw [filter_graphEntries, map_snd_edgeEntries] at hrecords
  obtain ⟨ordered, htexts, hordered⟩ := (congrFun₂ (eq_map_comp_perm edgeRecord) _ _).mpr hrecords
  refine ⟨ordered, hordered, ?_⟩
  have hcollect := @collectEdges_records _ ordered collected
    (fun entry hentry => (mem_filter.mp hentry).2) htexts
    (fun edge hedge => h edge (hordered.mem_iff.mp hedge))
    ((hordered.map ExportEdge.id).nodup_iff.mpr hnodup)
    (fun edge _ => by rw [hempty]; rfl)
  rw [collectDocs, parse_buildGraphMarkdown h, ok_bind, collectNode_graphMap]
  change (collectEdges (graphMap nodes edges).entries collected).mapError _ >>= _ = _
  rw [collectEdges_filter, hcollect]
  rfl

/-! ## What the export checks -/

/-- What the loop over the nodes checks of one node alone. -/
structure CheckedNode (node : ExportNode) : Prop where
  id : validateEmittedString node.id.value = .ok ()
  other : node.path ≠ graphPath
  path : validateRootBoundPath node.path = .ok ()
  identity : checkIdentity node = .ok ()
  keys : forEach validateKey node.frontmatter.keys = .ok ()
  policy : checkPublicBoundaryAndDlp node.path node.frontmatter node.body = .ok ()

theorem CheckedNode.emitted (h : CheckedNode node) : EmittedNode node := by
  obtain ⟨_, hpolicy⟩ := check_bind_eq_ok_iff.mp h.policy
  obtain ⟨_, hpolicy⟩ := check_bind_eq_ok_iff.mp hpolicy
  obtain ⟨hentries, _⟩ := check_bind_eq_ok_iff.mp hpolicy
  refine ⟨h.id, forEach_eq_ok_iff.mp h.keys, fun value hvalue => ?_, forEach_eq_ok_iff.mp hentries⟩
  have hidentity := h.identity
  rw [checkIdentity, hvalue] at hidentity
  exact not_not.mp (failIf_eq_ok_iff.mp hidentity)

theorem checkNodes_eq_ok_iff {nodes : List ExportNode} {before after : OrdMap NodeId Str}
    {paths : List Str} : checkNodes nodes before paths = .ok after ↔
      (∀ node ∈ nodes, CheckedNode node) ∧
      ((nodes.map ExportNode.id).Nodup ∧ ∀ node ∈ nodes, node.id ∉ before.keys) ∧
      ((nodes.map ExportNode.path).Nodup ∧ ∀ node ∈ nodes, node.path ∉ paths) ∧
      after = nodes.foldl (fun map node => map.insert node.id node.path) before := by
  induction nodes generalizing before paths with
  | nil => simp [checkNodes, eq_comm]
  | cons node rest ih =>
      rw [checkNodes, check_bind_eq_ok_iff, check_bind_eq_ok_iff, check_bind_eq_ok_iff,
        check_bind_eq_ok_iff, check_bind_eq_ok_iff, check_bind_eq_ok_iff, check_bind_eq_ok_iff, ih,
        failIf_eq_ok_iff, failIf_eq_ok_iff, OrdMap.contains_iff]
      simp only [forall_eq_or_imp, map_cons, nodup_cons, mem_map, foldl_cons,
        mem_keys_insert, mem_cons, not_or, not_exists, not_and]
      constructor
      · rintro ⟨hid, hnew, ⟨hother, hfree⟩, hpath, hidentity, hkeys, hpolicy, hnodes, ⟨hids, hfresh⟩,
          ⟨hpaths, hfrees⟩, hafter⟩
        exact ⟨⟨⟨hid, hother, hpath, hidentity, hkeys, hpolicy⟩, hnodes⟩,
          ⟨⟨fun next hnext => (hfresh next hnext).1, hids⟩, hnew,
            fun next hnext => (hfresh next hnext).2⟩,
          ⟨⟨fun next hnext => (hfrees next hnext).1, hpaths⟩, hfree,
            fun next hnext => (hfrees next hnext).2⟩, hafter⟩
      · rintro ⟨⟨hnode, hnodes⟩, ⟨⟨hrepeated, hids⟩, hnew, hfresh⟩, ⟨⟨hsame, hpaths⟩, hfree, hfrees⟩,
          hafter⟩
        exact ⟨hnode.id, hnew, ⟨hnode.other, hfree⟩, hnode.path, hnode.identity, hnode.keys,
          hnode.policy, hnodes, ⟨hids, fun next hnext => ⟨hrepeated next hnext, hfresh next hnext⟩⟩,
          ⟨hpaths, fun next hnext => ⟨hsame next hnext, hfrees next hnext⟩⟩, hafter⟩

theorem checkEdgeIds_eq_ok_iff {edges : List ExportEdge} {ids : List EdgeId} :
    checkEdgeIds edges ids = .ok () ↔
      (edges.map ExportEdge.id).Nodup ∧ ∀ edge ∈ edges, edge.id ∉ ids := by
  induction edges generalizing ids with
  | nil => simp [checkEdgeIds]
  | cons edge rest ih =>
      rw [checkEdgeIds, check_bind_eq_ok_iff, ih, failIf_eq_ok_iff]
      simp only [map_cons, nodup_cons, forall_eq_or_imp, mem_map, mem_cons,
        not_or, not_exists, not_and]
      constructor
      · rintro ⟨hnew, hnodup, hfresh⟩
        exact ⟨⟨fun next hnext => (hfresh next hnext).1, hnodup⟩, hnew,
          fun next hnext => (hfresh next hnext).2⟩
      · rintro ⟨⟨hrepeated, hnodup⟩, hnew, hfresh⟩
        exact ⟨hnew, hnodup, fun next hnext => ⟨hrepeated next hnext, hfresh next hnext⟩⟩

def nodePathsOf (nodes : List ExportNode) : OrdMap NodeId Str :=
  OrdMap.ofList (nodes.map fun node => (node.id, node.path))

/-- The inputs that the export accepts. -/
structure Exportable (nodes : List ExportNode) (edges : List ExportEdge) : Prop where
  checkedNodes : ∀ node ∈ nodes, CheckedNode node
  ids : (nodes.map ExportNode.id).Nodup
  paths : (nodes.map ExportNode.path).Nodup
  checkedEdges : ∀ edge ∈ edges, checkEdge (nodePathsOf nodes) edge = .ok ()
  edgeIds : (edges.map ExportEdge.id).Nodup

/-- The documents in the order of their writing. -/
def bundleEntries (nodes : List ExportNode) (edges : List ExportEdge) : List (Str × Str) :=
  (sortBy ExportNode.path nodes).map (fun node =>
      (node.path, buildNodeMarkdown node (sortBy ExportEdge.id edges))) ++
    [(graphPath, buildGraphMarkdown (sortBy ExportNode.path nodes) (sortBy ExportEdge.id edges))]

theorem exportToObsidian_eq_ok_iff {nodes : List ExportNode} {edges : List ExportEdge}
    {bundle : ObsidianBundle} : exportToObsidian nodes edges = .ok bundle ↔
      Exportable nodes edges ∧ bundle = ⟨OrdMap.ofList (bundleEntries nodes edges)⟩ := by
  have hdocs : ((sortBy ExportNode.path nodes).foldl (fun docs node => docs.insert node.path
      (buildNodeMarkdown node (sortBy ExportEdge.id edges))) OrdMap.empty).insert graphPath
        (buildGraphMarkdown (sortBy ExportNode.path nodes) (sortBy ExportEdge.id edges)) =
      OrdMap.ofList (bundleEntries nodes edges) := by
    rw [bundleEntries, OrdMap.ofList, foldl_append, foldl_map]
    rfl
  have hpaths : nodes.foldl (fun map node => map.insert node.id node.path) OrdMap.empty =
      nodePathsOf nodes := by
    rw [nodePathsOf, OrdMap.ofList, foldl_map]
  rw [exportToObsidian, bind_eq_ok_iff]
  dsimp only
  rw [hdocs]
  constructor
  · rintro ⟨nodePaths, hnodes, hrest⟩
    obtain ⟨hchecked, ⟨hids, _⟩, ⟨hdistinct, _⟩, rfl⟩ := checkNodes_eq_ok_iff.mp hnodes
    obtain ⟨hedges, hrest⟩ := check_bind_eq_ok_iff.mp hrest
    obtain ⟨hedgeIds, hrest⟩ := check_bind_eq_ok_iff.mp hrest
    rw [hpaths] at hedges
    exact ⟨⟨hchecked, hids, hdistinct, forEach_eq_ok_iff.mp hedges,
      (checkEdgeIds_eq_ok_iff.mp hedgeIds).1⟩, (Except.ok.inj hrest).symm⟩
  · rintro ⟨h, rfl⟩
    refine ⟨nodePathsOf nodes, checkNodes_eq_ok_iff.mpr ⟨h.checkedNodes,
      ⟨h.ids, fun _ _ => not_mem_nil⟩, ⟨h.paths, fun _ _ => not_mem_nil⟩, hpaths.symm⟩, ?_⟩
    refine check_bind_eq_ok_iff.mpr ⟨forEach_eq_ok_iff.mpr h.checkedEdges, ?_⟩
    exact check_bind_eq_ok_iff.mpr
      ⟨checkEdgeIds_eq_ok_iff.mpr ⟨h.edgeIds, fun _ _ => not_mem_nil⟩, rfl⟩

theorem nodup_bundleEntries {nodes : List ExportNode} {edges : List ExportEdge}
    (h : Exportable nodes edges) : ((bundleEntries nodes edges).map Prod.fst).Nodup := by
  have hsorted : (sortBy ExportNode.path nodes).Perm nodes := sortBy_perm _ _
  rw [bundleEntries, map_append, map_map, nodup_append]
  refine ⟨(hsorted.map _).nodup_iff.mpr h.paths, nodup_singleton _, ?_⟩
  intro path hpath other hother heq
  obtain ⟨node, hnode, rfl⟩ := mem_map.mp hpath
  obtain rfl := mem_singleton.mp hother
  exact (h.checkedNodes node (hsorted.mem_iff.mp hnode)).other heq

theorem checkEdge_ok {nodePaths : OrdMap NodeId Str} {edge : ExportEdge}
    (h : checkEdge nodePaths edge = .ok ()) :
    EmittedEdge edge ∧ edge.source ∈ nodePaths.keys ∧ edge.target ∈ nodePaths.keys := by
  obtain ⟨hid, h⟩ := check_bind_eq_ok_iff.mp h
  obtain ⟨hsource, h⟩ := check_bind_eq_ok_iff.mp h
  obtain ⟨htarget, h⟩ := check_bind_eq_ok_iff.mp h
  obtain ⟨hlinkTarget, h⟩ := check_bind_eq_ok_iff.mp h
  obtain ⟨hsourceKnown, h⟩ := check_bind_eq_ok_iff.mp h
  obtain ⟨htargetKnown, h⟩ := check_bind_eq_ok_iff.mp h
  obtain ⟨hlink, _⟩ := check_bind_eq_ok_iff.mp h
  rw [failIf_eq_ok_iff, not_eq_false, OrdMap.contains_iff] at hsourceKnown htargetKnown
  exact ⟨⟨hid, hsource, htarget, hlinkTarget, hlink⟩, hsourceKnown, htargetKnown⟩

/-- What an export has checked, and the documents it has written. -/
structure Exported (nodes : List ExportNode) (edges : List ExportEdge) (bundle : ObsidianBundle) :
    Prop where
  emittedNodes : ∀ node ∈ nodes, EmittedNode node
  ids : (nodes.map ExportNode.id).Nodup
  emittedEdges : ∀ edge ∈ edges, EmittedEdge edge
  endPoints : ∀ edge ∈ edges, edge.source ∈ nodes.map ExportNode.id ∧
    edge.target ∈ nodes.map ExportNode.id
  edgeIds : (edges.map ExportEdge.id).Nodup
  docs : bundle.docs.values.Perm (nodes.map (buildNodeMarkdown · (sortBy ExportEdge.id edges)) ++
    [buildGraphMarkdown (sortBy ExportNode.path nodes) (sortBy ExportEdge.id edges)])

theorem exported_of_ok {nodes : List ExportNode} {edges : List ExportEdge} {bundle : ObsidianBundle}
    (h : exportToObsidian nodes edges = .ok bundle) : Exported nodes edges bundle := by
  obtain ⟨hexportable, rfl⟩ := exportToObsidian_eq_ok_iff.mp h
  have hedge := fun edge hmem => checkEdge_ok (hexportable.checkedEdges edge hmem)
  have hkeys : ∀ id, id ∈ (nodePathsOf nodes).keys → id ∈ nodes.map ExportNode.id := by
    intro id hid
    obtain ⟨path, hpath⟩ := mem_keys_iff.mp hid
    rw [nodePathsOf, find?_ofList (by rw [map_map]; exact hexportable.ids)] at hpath
    obtain ⟨node, hnode, heq⟩ := mem_map.mp hpath
    exact mem_map.mpr ⟨node, hnode, (Prod.mk.inj heq).1⟩
  refine ⟨fun node hnode => (hexportable.checkedNodes node hnode).emitted, hexportable.ids,
    fun edge hmem => (hedge edge hmem).1,
    fun edge hmem => ⟨hkeys _ (hedge edge hmem).2.1, hkeys _ (hedge edge hmem).2.2⟩,
    hexportable.edgeIds, ?_⟩
  have hvalues := (entries_ofList_perm (nodup_bundleEntries hexportable)).map Prod.snd
  have hsnd : (bundleEntries nodes edges).map Prod.snd =
      (sortBy ExportNode.path nodes).map (buildNodeMarkdown · (sortBy ExportEdge.id edges)) ++
        [buildGraphMarkdown (sortBy ExportNode.path nodes) (sortBy ExportEdge.id edges)] := by
    rw [bundleEntries, map_append, map_map]
    rfl
  rw [hsnd] at hvalues
  exact hvalues.trans (((sortBy_perm _ _).map _).append_right _)

/-! ## The round trip -/

/-- What has been collected once every document is read. -/
def collectedFrom (nodes : List ExportNode) (edges : List ExportEdge) : Collected where
  nodes := OrdMap.ofList (nodes.map fun node => (node.id, ()))
  frontmatter := OrdMap.ofList (nodes.map fun node => (node.id, recovered node))
  edges := OrdMap.ofList (edges.map fun edge =>
    (edge.id, edge.source, edge.target, edge.linkTarget))
  links := OrdMap.ofList (edges.map fun edge => (edge.linkTarget, ()))

theorem foldl_addNode (nodes : List ExportNode) (collected : Collected) :
    nodes.foldl addNode collected =
      { collected with
        nodes := (nodes.map fun node => (node.id, ())).foldl
          (fun map entry => map.insert entry.1 entry.2) collected.nodes
        frontmatter := (nodes.map fun node => (node.id, recovered node)).foldl
          (fun map entry => map.insert entry.1 entry.2) collected.frontmatter } := by
  induction nodes generalizing collected with
  | nil => rfl
  | cons node rest ih =>
      rw [foldl_cons, ih]
      rfl

theorem foldl_addEdge (edges : List ExportEdge) (collected : Collected) :
    edges.foldl addEdge collected =
      { collected with
        edges := (edges.map fun edge => (edge.id, edge.source, edge.target, edge.linkTarget)).foldl
          (fun map entry => map.insert entry.1 entry.2) collected.edges
        links := (edges.map fun edge => (edge.linkTarget, ())).foldl
          (fun map entry => map.insert entry.1 entry.2) collected.links } := by
  induction edges generalizing collected with
  | nil => rfl
  | cons edge rest ih =>
      rw [foldl_cons, ih]
      rfl

theorem foldl_collectedFrom (first second : List ExportNode) (ordered : List ExportEdge) :
    second.foldl addNode (ordered.foldl addEdge
      (first.foldl addNode ⟨.empty, .empty, .empty, .empty⟩)) =
      collectedFrom (first ++ second) ordered := by
  rw [foldl_addNode, foldl_addEdge, foldl_addNode, collectedFrom, OrdMap.ofList, OrdMap.ofList,
    map_append, map_append, foldl_append, foldl_append]
  rfl

/-- The documents of a bundle, with the graph document among those of the nodes. -/
theorem Exported.exists_layout {nodes : List ExportNode} {edges : List ExportEdge}
    {bundle : ObsidianBundle} (h : Exported nodes edges bundle) :
    ∃ first second : List ExportNode, (first ++ second).Perm nodes ∧ bundle.docs.values =
      first.map (buildNodeMarkdown · (sortBy ExportEdge.id edges)) ++
        buildGraphMarkdown (sortBy ExportNode.path nodes) (sortBy ExportEdge.id edges) ::
          second.map (buildNodeMarkdown · (sortBy ExportEdge.id edges)) := by
  have hgraph := h.docs.mem_iff.mpr (mem_append_right _ (mem_singleton.mpr rfl))
  obtain ⟨before, after, hvalues⟩ := append_of_mem hgraph
  have hperm := h.docs
  rw [hvalues] at hperm
  have hrest := (perm_middle.symm.trans (hperm.trans (perm_append_singleton _ _))).cons_inv
  obtain ⟨ordered, hordered, hnodes⟩ :=
    (congrFun₂ (eq_map_comp_perm (buildNodeMarkdown · (sortBy ExportEdge.id edges))) _ _).mpr
      hrest
  obtain ⟨first, second, rfl, rfl, rfl⟩ := append_eq_map_iff.mp hordered
  exact ⟨first, second, hnodes, hvalues⟩

/-- The reparse returns exactly what was exported. -/
structure Recovers (nodes : List ExportNode) (edges : List ExportEdge) (reparsed : Reparsed) :
    Prop where
  nodeIds : reparsed.nodeIds.Perm (nodes.map ExportNode.id)
  edgeRecords : reparsed.edgeRecords.Perm
    (edges.map fun edge => (edge.id, edge.source, edge.target, edge.linkTarget))
  frontmatterIds : reparsed.nodeFrontmatter.keys.Perm (nodes.map ExportNode.id)
  frontmatter : ∀ node ∈ nodes, reparsed.nodeFrontmatter.find? node.id =
    some (node.frontmatter.insert nodeIdKey node.id.value)

section RoundTrip

variable {nodes ordered : List ExportNode} {edges records : List ExportEdge}

theorem nodup_pairs {V : Type} (hids : (nodes.map ExportNode.id).Nodup)
    (value : ExportNode → V) : ((nodes.map fun node => (node.id, value node)).map Prod.fst).Nodup := by
  rw [map_map]
  exact hids

theorem keys_pairs {V : Type} (hids : (nodes.map ExportNode.id).Nodup) (value : ExportNode → V) :
    (OrdMap.ofList (nodes.map fun node => (node.id, value node))).keys.Perm
      (nodes.map ExportNode.id) := by
  have hperm := (entries_ofList_perm (nodup_pairs hids value)).map Prod.fst
  rw [map_map] at hperm
  exact hperm

theorem find?_collectedFrom (hids : (nodes.map ExportNode.id).Nodup) {node : ExportNode}
    (hnode : node ∈ nodes) :
    (collectedFrom nodes edges).frontmatter.find? node.id = some (recovered node) :=
  (find?_ofList (nodup_pairs hids recovered)).mpr (mem_map.mpr ⟨node, hnode, rfl⟩)

theorem entries_collectedFrom (hids : (edges.map ExportEdge.id).Nodup) :
    (collectedFrom nodes edges).edges.entries.Perm
      (edges.map fun edge => (edge.id, edge.source, edge.target, edge.linkTarget)) := by
  refine entries_ofList_perm ?_
  rw [map_map]
  exact hids

theorem checkEndPoints_collectedFrom (hids : (nodes.map ExportNode.id).Nodup)
    (hedgeIds : (edges.map ExportEdge.id).Nodup)
    (hends : ∀ edge ∈ edges, edge.source ∈ nodes.map ExportNode.id ∧
      edge.target ∈ nodes.map ExportNode.id) :
    forEach (checkEndPoints (collectedFrom nodes edges).nodes)
      (collectedFrom nodes edges).edges.entries = .ok () := by
  have hknown : ∀ id, id ∈ nodes.map ExportNode.id →
      (collectedFrom nodes edges).nodes.contains id ≠ false := by
    intro id hid
    rw [Bool.ne_false_iff, OrdMap.contains_iff]
    exact (keys_pairs hids fun _ => ()).mem_iff.mpr hid
  rw [forEach_eq_ok_iff]
  intro entry hentry
  obtain ⟨edge, hedge, rfl⟩ := mem_map.mp ((entries_collectedFrom hedgeIds).mem_iff.mp hentry)
  obtain ⟨hsource, htarget⟩ := hends edge hedge
  refine (failIf_bind_eq (hknown _ hsource)).trans ?_
  exact failIf_eq_ok_iff.mpr (hknown _ htarget)

end RoundTrip

/-- An exported bundle is reparsed exactly if and only if no frontmatter value holds a line feed, a
carriage return or a tab. -/
theorem reparse_exact_iff {nodes : List ExportNode} {edges : List ExportEdge}
    {bundle : ObsidianBundle} (h : exportToObsidian nodes edges = .ok bundle) :
    (∃ reparsed, reparseObsidian bundle = .ok reparsed ∧ Recovers nodes edges reparsed) ↔
      ∀ node ∈ nodes, ∀ entry ∈ node.frontmatter.entries, Plain entry.2 := by
  have hexported := exported_of_ok h
  obtain ⟨first, second, hperm, hvalues⟩ := hexported.exists_layout
  have hsorted : (sortBy ExportEdge.id edges).Perm edges := sortBy_perm _ _
  have hnodes : ∀ node ∈ first ++ second, EmittedNode node := fun node hnode =>
    hexported.emittedNodes node (hperm.mem_iff.mp hnode)
  have hfirst := fun node hnode => hnodes node (mem_append_left second hnode)
  have hsecond := fun node hnode => hnodes node (mem_append_right first hnode)
  have hids : ((first ++ second).map ExportNode.id).Nodup :=
    (hperm.map ExportNode.id).nodup_iff.mpr hexported.ids
  -- the edge records come in the order of their keys
  obtain ⟨ordered, hordered, hgraph⟩ := @collectDocs_graph (sortBy ExportNode.path nodes)
    (sortBy ExportEdge.id edges) (second.map (buildNodeMarkdown · (sortBy ExportEdge.id edges)))
    (first.foldl addNode ⟨.empty, .empty, .empty, .empty⟩)
    (fun edge hedge => hexported.emittedEdges edge (hsorted.mem_iff.mp hedge))
    ((hsorted.map _).nodup_iff.mpr hexported.edgeIds) (by rw [foldl_addNode])
  have hedges : ordered.Perm edges := hordered.trans hsorted
  constructor
  · intro hexact
    obtain ⟨reparsed, hreparsed, hrecovers⟩ := hexact
    obtain ⟨collected, hcollected, hreparsed⟩ := bind_eq_ok_iff.mp hreparsed
    obtain ⟨_, hreparsed⟩ := check_bind_eq_ok_iff.mp hreparsed
    obtain rfl := Except.ok.inj hreparsed
    rw [hvalues, collectDocs_nodes _ _ _ hfirst, check_bind_eq_ok_iff, hgraph,
      ← append_nil (second.map _), collectDocs_nodes _ _ _ hsecond, check_bind_eq_ok_iff,
      foldl_collectedFrom] at hcollected
    obtain rfl := Except.ok.inj hcollected.2.2
    intro node hnode
    have hfind := hrecovers.frontmatter node hnode
    rw [find?_collectedFrom hids (hperm.mem_iff.mpr hnode)] at hfind
    exact plain_of_recovered (hexported.emittedNodes node hnode) (Option.some.inj hfind)
  · intro hplain
    have hvalid : ∀ part ⊆ first ++ second, forEach (fun node =>
        forEach validateEntry (recovered node).entries) part = .ok () := fun part hpart =>
      forEach_eq_ok_iff.mpr fun node hnode => validate_recovered (hnodes node (hpart hnode))
        (hplain node (hperm.mem_iff.mp (hpart hnode)))
    have hcollected : collectDocs bundle.docs.values ⟨.empty, .empty, .empty, .empty⟩ =
        .ok (collectedFrom (first ++ second) ordered) := by
      rw [hvalues, collectDocs_nodes _ _ _ hfirst, hvalid _ (subset_append_left _ _), hgraph,
        ← append_nil (second.map _), collectDocs_nodes _ _ _ hsecond,
        hvalid _ (subset_append_right _ _), foldl_collectedFrom]
      rfl
    have hends : ∀ edge ∈ ordered, edge.source ∈ (first ++ second).map ExportNode.id ∧
        edge.target ∈ (first ++ second).map ExportNode.id := by
      intro edge hedge
      obtain ⟨hsource, htarget⟩ := hexported.endPoints edge (hedges.mem_iff.mp hedge)
      exact ⟨(hperm.map _).mem_iff.mpr hsource, (hperm.map _).mem_iff.mpr htarget⟩
    have hedgeIds : (ordered.map ExportEdge.id).Nodup :=
      (hedges.map _).nodup_iff.mpr hexported.edgeIds
    have hchecked : (forEach (checkEndPoints (collectedFrom (first ++ second) ordered).nodes)
        (collectedFrom (first ++ second) ordered).edges.entries).mapError Stop.refused = .ok () :=
      mapError_eq_ok_iff.mpr (checkEndPoints_collectedFrom hids hedgeIds hends)
    have hreparsed : reparseObsidian bundle = .ok _ :=
      bind_eq_ok_iff.mpr ⟨_, hcollected, check_bind_eq_ok_iff.mpr ⟨hchecked, rfl⟩⟩
    refine ⟨_, hreparsed, (keys_pairs hids fun _ => ()).trans (hperm.map _),
      (entries_collectedFrom hedgeIds).trans (hedges.map _),
      (keys_pairs hids recovered).trans (hperm.map _), fun node hnode => ?_⟩
    have hfind := @find?_collectedFrom _ ordered hids node (hperm.mem_iff.mpr hnode)
    rw [← recovered_eq (hexported.emittedNodes node hnode) (hplain node hnode)]
    exact hfind

def titledNode (title : Str) : ExportNode :=
  ⟨⟨['n'], by decide⟩, "n.md".toList, OrdMap.empty.insert "title".toList title, []⟩

/-- The title of a node after the export and the reparse. -/
def reparsedTitle (title : Str) : Option Str := do
  let bundle ← (exportToObsidian [titledNode title] []).toOption
  let reparsed ← (reparseObsidian bundle).toOption
  let frontmatter ← reparsed.nodeFrontmatter.find? (titledNode title).id
  frontmatter.find? "title".toList

/-- A title without line breaks comes back with its node. -/
theorem reparse_exact_titled : ∃ bundle reparsed, exportToObsidian [titledNode ['a']] [] = .ok bundle ∧
    reparseObsidian bundle = .ok reparsed ∧ Recovers [titledNode ['a']] [] reparsed := by
  have htitle : reparsedTitle ['a'] = some ['a'] := by decide +kernel
  unfold reparsedTitle at htitle
  cases hbundle : exportToObsidian [titledNode ['a']] [] with
  | error error =>
      rw [hbundle] at htitle
      cases htitle
  | ok bundle =>
      obtain ⟨reparsed, hreparsed⟩ := (reparse_exact_iff hbundle).mpr (by decide +kernel)
      exact ⟨bundle, reparsed, rfl, hreparsed⟩

/-- A line feed in a title comes back as a backslash and a letter. -/
theorem not_reparse_exact : ∃ bundle, exportToObsidian [titledNode ['\n']] [] = .ok bundle ∧
    ¬ ∃ reparsed, reparseObsidian bundle = .ok reparsed ∧
      Recovers [titledNode ['\n']] [] reparsed := by
  have htitle : reparsedTitle ['\n'] = some ['\\', 'n'] := by decide +kernel
  unfold reparsedTitle at htitle
  cases hbundle : exportToObsidian [titledNode ['\n']] [] with
  | error error =>
      rw [hbundle] at htitle
      cases htitle
  | ok bundle =>
      refine ⟨bundle, rfl, ?_⟩
      rintro ⟨reparsed, hreparsed, hrecovers⟩
      have hfind := hrecovers.frontmatter _ (mem_singleton.mpr rfl)
      have hsame : (some ['\n'] : Option Str) = some ['\\', 'n'] := by
        rw [← htitle, hbundle]
        change _ = (reparseObsidian bundle).toOption >>= _
        rw [hreparsed]
        change _ = reparsed.nodeFrontmatter.find? _ >>= _
        rw [hfind]
        decide +kernel
      exact absurd hsame (by decide)

end Bran.Export
