import Bran.Migration.ManifestFollows

/-!
# Manifests in JSON

A JSON value is balanced: whatever brackets are counted in it, as many are closed as are opened,
and none within a string.  So the parser finds its end.  A manifest of JSON pieces is a JSON text.
-/

namespace Bran.Migration

open Text CharCode Words Scanner Document.Json JsonSyntax List Utf8

variable {α σ : Type}

variable {body text value : Str} {raw : List UInt8}

/-! ## Strings -/

theorem radix_below : (manifestDialect HexNumber).Below (manifestDialect RadixNumber) where
  blank h := h
  strict h := h
  escape word c hword := by
    rcases hword with hsimple | hword
    · exact Or.inl hsimple
    cases hword with
    | single hlength hnumber hc => exact Or.inr (.single hlength hnumber.2 hc)
    | pair hhigh hlow hfirst hsecond hpair hc =>
        exact Or.inr (.pair hhigh hlow hfirst.2 hsecond.2 hpair hc)

theorem Denotes.decodes (h : Denotes body value) : Decodes body value :=
  radix_below.body_mono h

theorem mem_of_slashEscape {escaped c : Char} (h : slashEscape escaped = some c) :
    escaped ∈ ['"', '\\', '/', 'b', 'f', 'n', 'r', 't'] := by
  unfold slashEscape simpleEscape at h
  split_ifs at h <;> subst_vars <;> decide

theorem Denotes.chars (h : Denotes body value) : Chars body := by
  induction h with
  | nil => exact .nil
  | plain hc _ ih => exact .unescaped hc ih
  | escape hword _ ih =>
      rcases hword with ⟨escaped, rfl, hescaped⟩ | hword
      · exact .escape (mem_of_slashEscape hescaped) ih
      cases hword with
      | single hlength hnumber _ =>
          exact .unicode hlength (all_eq_true.mp hnumber.1) ih
      | pair hhigh hlow hfirst hsecond _ _ =>
          rw [cons_append, append_assoc, cons_append, cons_append]
          exact .unicode hhigh (all_eq_true.mp hfirst.1)
            (.unicode hlow (all_eq_true.mp hsecond.1) ih)

/-- What is decoded is denoted, when the scanner finds no bad escape. -/
theorem Decodes.denotes (h : Decodes body value) (hscan : scan .string body ≠ .failed) :
    Denotes body value := by
  induction h with
  | nil => exact .nil
  | plain hc _ ih =>
      rw [scan_cons, step, if_neg hc.1, if_neg hc.2.1] at hscan
      exact .plain hc (ih hscan)
  | @escape word body value c hword _ ih =>
      rcases hword with ⟨escaped, rfl, hescaped⟩ | hword
      · have hne : escaped ≠ 'u' := by
          rintro rfl
          exact absurd (mem_of_slashEscape hescaped) (by decide)
        have hstep : scan .string ('\\' :: ([escaped] ++ body)) =
            scan (if escaped = 'u' then .unicode 3 else .string) body := rfl
        rw [hstep, if_neg hne] at hscan
        exact .escape (Or.inl ⟨escaped, rfl, hescaped⟩) (ih hscan)
      -- four digits, and the state behind them
      have hfour {digits tail : Str} (hlength : digits.length = 4)
          (h : scan .string ('\\' :: 'u' :: (digits ++ tail)) ≠ .failed) :
          digits.all isHexDigit = true ∧ scan .string tail ≠ .failed := by
        have hstep : scan .string ('\\' :: 'u' :: (digits ++ tail)) =
            scan (scan (.unicode 3) digits) tail := by
          rw [← scan_append]
          rfl
        rw [hstep] at h
        have hdigits := hexDigits_of_scan hlength (scan_ne_failed h)
        rw [scan_hexDigits hlength hdigits] at h
        exact ⟨all_eq_true.mpr hdigits, h⟩
      cases hword with
      | single hlength hnumber hc =>
          obtain ⟨hdigits, htail⟩ := hfour hlength hscan
          exact .escape (Or.inr (.single hlength ⟨hdigits, hnumber⟩ hc)) (ih htail)
      | @pair high low _ _ _ hhigh hlow hfirst hsecond hpair hc =>
          rw [cons_append, append_assoc, cons_append, cons_append] at hscan
          obtain ⟨hdigits, htail⟩ := hfour hhigh hscan
          obtain ⟨hdigits', htail⟩ := hfour hlow htail
          exact .escape (Or.inr (.pair hhigh hlow ⟨hdigits, hfirst⟩ ⟨hdigits', hsecond⟩ hpair hc))
            (ih htail)

theorem Denotes.scan (h : Denotes body value) :
    scan .string body ≠ .failed := by
  rw [scan_chars h.chars]
  decide

theorem decodes_unique {value' : Str} (h : Decodes body value) (h' : Decodes body value') :
    value = value' := by
  have hpos : bytesPos (bytes body ++ ['"'.toUInt8]) 0 (bytes body ++ ['"'.toUInt8]) :=
    bytesPos_zero _
  exact (reaches_stringLoop h hpos).unique (reaches_stringLoop h' hpos)

theorem unquoted_ascii {s : Str} (h : ∀ c ∈ s, c.toNat < 128 ∧ c ≠ '"' ∧ c ≠ '\\') :
    Unquoted (bytes s) := by
  induction s with
  | nil => exact .nil
  | cons c s ih =>
      obtain ⟨hc, hs⟩ := forall_mem_cons.mp h
      rw [bytes_cons_ascii hc.1]
      exact .byte ⟨fun heq => hc.2.1 (ascii_toUInt8_inj hc.1 (by decide) heq),
        fun heq => hc.2.2 (ascii_toUInt8_inj hc.1 (by decide) heq)⟩ (ih hs)

theorem unquoted_char {c : Char} (hc : c ≠ '"' ∧ c ≠ '\\' ∧ 0x20 ≤ c.toNat) :
    Unquoted (String.utf8EncodeChar c) := by
  have hraw : Raw (manifestDialect RadixNumber) (bytes [c]) (bytes [c]) :=
    raw_of_body (.plain hc .nil)
  have hunquoted := unquoted_of_raw hraw
  rwa [bytes_cons, bytes_nil, append_nil] at hunquoted

theorem unquoted_of_chars (h : Chars body) : Unquoted (bytes body) := by
  induction h with
  | nil => exact .nil
  | unescaped hc _ ih =>
      rw [bytes_cons]
      exact (unquoted_char hc).append ih
  | @escape c rest hc _ ih =>
      have hascii : c.toNat < 128 := by
        have hall : ∀ c ∈ ['"', '\\', '/', 'b', 'f', 'n', 'r', 't'], c.toNat < 128 := by decide
        exact hall c hc
      rw [bytes_cons_ascii (by decide), bytes_cons_ascii hascii]
      exact .escaped ih
  | @unicode digits rest hlength hdigits _ ih =>
      rw [bytes_cons_ascii (by decide), bytes_cons_ascii (by decide),
        bytes_append]
      refine .escaped ((unquoted_ascii fun c hc => ?_).append ih)
      have hdigit := hdigits c hc
      refine ⟨toNat_lt_of_isHexDigit hdigit, ?_, ?_⟩
      · rintro rfl
        exact absurd hdigit (by decide)
      · rintro rfl
        exact absurd hdigit (by decide)

/-! ## Balanced texts -/

/-- A text in which no bracket of this kind stays open. -/
def Balanced (opening closing : Char) (text : Str) : Prop :=
  ∀ depth rest, Nest opening closing (depth + 1) rest →
    Nest opening closing (depth + 1) (bytes text ++ rest)

/-- The brackets that `skip_value` counts. -/
inductive Brackets : Char → Char → Prop
  | braces : Brackets '\x7b' '\x7d'
  | squares : Brackets '[' ']'

/-- A character that neither opens nor closes anything. -/
def Plain (c : Char) : Prop :=
  c.toNat < 128 ∧ c ≠ '"' ∧ c ≠ '\x7b' ∧ c ≠ '\x7d' ∧ c ≠ '[' ∧ c ≠ ']'

instance (c : Char) : Decidable (Plain c) := inferInstanceAs (Decidable (_ ∧ _))

theorem plain_of_isDigit {c : Char} (h : c.isDigit = true) : Plain c := by
  have hne {d : Char} (hd : d.isDigit = false) : c ≠ d := by
    rintro rfl
    exact Bool.false_ne_true (hd.symm.trans h)
  exact ⟨toNat_lt_of_isDigit h, hne rfl, hne rfl, hne rfl, hne rfl, hne rfl⟩

def NumberChar (c : Char) : Prop := c.isDigit = true ∨ c ∈ ['.', 'e', 'E', '+', '-']

theorem plain_of_number {c : Char} (h : NumberChar c) : Plain c := by
  rcases h with hdigit | h
  · exact plain_of_isDigit hdigit
  · have hall : ∀ c ∈ ['.', 'e', 'E', '+', '-'], Plain c := by decide
    exact hall c h

theorem number_chars (h : Number text) : ∀ c ∈ text, NumberChar c := by
  cases h with
  | mk hsign hwhole hfraction hexponent =>
      have hdigits {digits : Str} (h : Digits digits) : ∀ c ∈ digits, NumberChar c :=
        fun c hc => Or.inl (h c hc)
      refine forall_mem_append.mpr ⟨?_, forall_mem_append.mpr ⟨?_,
        forall_mem_append.mpr ⟨?_, ?_⟩⟩⟩
      · rcases hsign with rfl | rfl
        · exact fun c hc => absurd hc not_mem_nil
        · exact forall_mem_singleton.mpr (Or.inr (by decide))
      · exact hdigits (digits_of_whole hwhole)
      · cases hfraction with
        | none => exact fun c hc => absurd hc not_mem_nil
        | digits _ h => exact forall_mem_cons.mpr ⟨Or.inr (by decide), hdigits h⟩
      · cases hexponent with
        | none => exact fun c hc => absurd hc not_mem_nil
        | digits he hsign _ h =>
            refine forall_mem_cons.mpr ⟨?_, forall_mem_append.mpr ⟨?_, hdigits h⟩⟩
            · rcases he with rfl | rfl <;> exact Or.inr (by decide)
            · rcases hsign with rfl | rfl | rfl
              · exact fun c hc => absurd hc not_mem_nil
              · exact forall_mem_singleton.mpr (Or.inr (by decide))
              · exact forall_mem_singleton.mpr (Or.inr (by decide))

theorem number_head (h : Number text) :
    ∃ c rest, text = c :: rest ∧ (c = '-' ∨ c.isDigit = true) := by
  cases h with
  | mk hsign hwhole _ _ =>
      rcases hsign with rfl | rfl
      · cases hwhole with
        | zero => exact ⟨_, _, rfl, Or.inr rfl⟩
        | digits hd _ => exact ⟨_, _, rfl, Or.inr hd.1⟩
      · exact ⟨_, _, rfl, Or.inl rfl⟩

section Balanced

variable {opening closing : Char} (hbrackets : Brackets opening closing)

theorem balanced_nil : Balanced opening closing [] := fun _ _ h => h

theorem Balanced.append {text text' : Str} (h : Balanced opening closing text)
    (h' : Balanced opening closing text') : Balanced opening closing (text ++ text') := by
  intro depth rest hrest
  rw [bytes_append, append_assoc]
  exact h depth _ (h' depth rest hrest)

theorem balanced_quoted {body : Str} (hbody : Chars body) :
    Balanced opening closing ('"' :: (body ++ ['"'])) := by
  intro depth rest hrest
  rw [bytes_cons_ascii (by decide), bytes_append, bytes_cons_ascii (by decide),
    cons_append, append_assoc]
  exact .quoted (unquoted_of_chars hbody) hrest

include hbrackets

theorem Brackets.other {c : Char} (hc : Plain c) : c.toUInt8 ≠ '"'.toUInt8 ∧
    c.toUInt8 ≠ opening.toUInt8 ∧ c.toUInt8 ≠ closing.toUInt8 := by
  have hne {d : Char} (hd : d.toNat < 128) (h : c ≠ d) : c.toUInt8 ≠ d.toUInt8 :=
    fun heq => h (ascii_toUInt8_inj hc.1 hd heq)
  cases hbrackets with
  | braces =>
      exact ⟨hne (by decide) hc.2.1, hne (by decide) hc.2.2.1, hne (by decide) hc.2.2.2.1⟩
  | squares =>
      exact ⟨hne (by decide) hc.2.1, hne (by decide) hc.2.2.2.2.1, hne (by decide) hc.2.2.2.2.2⟩

theorem balanced_plain {text : Str} (h : ∀ c ∈ text, Plain c) : Balanced opening closing text := by
  induction text with
  | nil => exact balanced_nil
  | cons c text ih =>
      obtain ⟨hc, htext⟩ := forall_mem_cons.mp h
      intro depth rest hrest
      rw [bytes_cons_ascii hc.1]
      exact .other (hbrackets.other hc) (ih htext depth rest hrest)

theorem balanced_bracketed {first last : Char} {text : Str} (hpair : Brackets first last)
    (h : Balanced opening closing text) :
    Balanced opening closing (first :: (text ++ [last])) := by
  have hascii : first.toNat < 128 ∧ last.toNat < 128 := by cases hpair <;> decide
  intro depth rest hrest
  rw [bytes_cons_ascii hascii.1, bytes_append, bytes_cons_ascii hascii.2,
    cons_append, append_assoc]
  cases hbrackets with
  | braces =>
      cases hpair with
      | braces => exact .opens (h _ _ (.closes hrest))
      | squares => exact .other (by decide) (h _ _ (.other (by decide) hrest))
  | squares =>
      cases hpair with
      | braces => exact .other (by decide) (h _ _ (.other (by decide) hrest))
      | squares => exact .opens (h _ _ (.closes hrest))

theorem balanced_whitespace {w : Str} (hw : Whitespace w) : Balanced opening closing w := by
  refine balanced_plain hbrackets fun c hc => ?_
  rcases hw c hc with rfl | rfl | rfl | rfl <;> decide

theorem Balanced.cons {c : Char} {text : Str} (hc : Plain c) (h : Balanced opening closing text) :
    Balanced opening closing (c :: text) := by
  intro depth rest hrest
  rw [bytes_cons_ascii hc.1]
  exact .other (hbrackets.other hc) (h depth rest hrest)

/-- A key, its colon and what stands behind it. -/
theorem balanced_member {key w text : Str} (hkey : Chars key) (hw : Whitespace w)
    (h : Balanced opening closing text) :
    Balanced opening closing ('"' :: (key ++ '"' :: (w ++ ':' :: text))) := by
  have hcolon := (balanced_whitespace hbrackets hw).append (h.cons hbrackets (by decide : Plain ':'))
  have hwhole := (balanced_quoted hkey).append hcolon
  rwa [cons_append, append_assoc, singleton_append] at hwhole

theorem balanced_derives {kind : Kind} {text : Str} (h : Derives kind text) :
    Balanced opening closing text := by
  have hspace {w : Str} (hw : Whitespace w) := balanced_whitespace hbrackets hw
  induction h with
  | literal h =>
      refine balanced_plain hbrackets fun c hc => ?_
      have hall : ∀ word ∈ ["null".toList, "true".toList, "false".toList], ∀ c ∈ word, Plain c := by
        decide
      exact hall _ h c hc
  | number h => exact balanced_plain hbrackets fun c hc => plain_of_number (number_chars h c hc)
  | string h => exact balanced_quoted h
  | emptyArray hw => exact balanced_bracketed hbrackets .squares (hspace hw)
  | array _ ih => exact balanced_bracketed hbrackets .squares ih
  | emptyObject hw => exact balanced_bracketed hbrackets .braces (hspace hw)
  | object _ ih => exact balanced_bracketed hbrackets .braces ih
  | item hw _ hw' ih => exact (hspace hw).append (ih.append (hspace hw'))
  | items hw _ hw' _ ih ihrest =>
      exact (hspace hw).append (ih.append ((hspace hw').append
        (ihrest.cons hbrackets (by decide))))
  | member hw hkey hw₁ hw₂ _ hw₃ ih =>
      exact (hspace hw).append (balanced_member hbrackets hkey hw₁
        ((hspace hw₂).append (ih.append (hspace hw₃))))
  | members hw hkey hw₁ hw₂ _ hw₃ _ ih ihrest =>
      exact (hspace hw).append (balanced_member hbrackets hkey hw₁ ((hspace hw₂).append
        (ih.append ((hspace hw₃).append (ihrest.cons hbrackets (by decide))))))

end Balanced

/-! ## Values that are skipped -/

theorem isNumberByte_of_number {c : Char} (h : NumberChar c) : isNumberByte c.toUInt8 = true := by
  rcases h with hdigit | h
  · simp only [isNumberByte, isDigitByte_toUInt8 (toNat_lt_of_isDigit hdigit), hdigit, Bool.true_or]
  · have hall : ∀ c ∈ ['.', 'e', 'E', '+', '-'], isNumberByte c.toUInt8 = true := by decide
    exact hall c h

theorem nest_of_balanced {opening closing : Char} (hclosing : closing.toNat < 128)
    (h : Balanced opening closing text) : Nest opening closing 1 (bytes (text ++ [closing])) := by
  rw [bytes_append, bytes_cons_ascii hclosing]
  exact h 0 _ (.closes .nil)

theorem skips_braces (h : Balanced '\x7b' '\x7d' text) :
    Skips (bytes ('\x7b' :: (text ++ ['\x7d']))) := by
  rw [bytes_cons_ascii (by decide)]
  exact .object (nest_of_balanced (by decide) h)

theorem skips_squares (h : Balanced '[' ']' text) :
    Skips (bytes ('[' :: (text ++ [']']))) := by
  rw [bytes_cons_ascii (by decide)]
  exact .array (nest_of_balanced (by decide) h)

/-- The parser skips every value of JSON, if it is not a string. -/
theorem skips_of_derives (h : Derives .value text) :
    Skips (bytes text) ∨ ∃ body, text = '"' :: (body ++ ['"']) ∧ Chars body := by
  cases h with
  | literal h =>
      refine Or.inl (.keyword ?_)
      have hall : ∀ word ∈ ["null".toList, "true".toList, "false".toList], word ∈ keywords := by
        decide
      exact hall _ h
  | number h =>
      have hchars := number_chars h
      obtain ⟨c, rest, rfl, hc⟩ := number_head h
      obtain ⟨hfirst, hrest⟩ := forall_mem_cons.mp hchars
      have hascii := (plain_of_number hfirst).1
      have hplain : ∀ c ∈ rest, c.toNat < 128 := fun c h => (plain_of_number (hrest c h)).1
      rw [bytes_cons_ascii hascii]
      refine Or.inl (.number ?_ ?_)
      · rcases hc with rfl | hdigit
        · decide
        · rw [startsNumber, isDigitByte_toUInt8 hascii, hdigit, Bool.or_true]
      · rw [bytes_ascii hplain]
        intro byte hbyte
        obtain ⟨c, hc, rfl⟩ := mem_map.mp hbyte
        exact isNumberByte_of_number (hrest c hc)
  | string h => exact Or.inr ⟨_, rfl, h⟩
  | emptyArray hw => exact Or.inl (skips_squares (balanced_whitespace .squares hw))
  | array h => exact Or.inl (skips_squares (balanced_derives .squares h))
  | emptyObject hw => exact Or.inl (skips_braces (balanced_whitespace .braces hw))
  | object h => exact Or.inl (skips_braces (balanced_derives .braces h))

/-! ## Manifests are JSON texts -/

/-- A text between separators, as an item of an array or a member of an object. -/
structure ItemText (kind : Kind) (text : Str) : Prop where
  last : ∀ {w w'}, Whitespace w → Whitespace w' → Derives kind (w ++ (text ++ w'))
  more : ∀ {w w' rest}, Whitespace w → Whitespace w' → Derives kind rest →
    Derives kind (w ++ (text ++ (w' ++ ',' :: rest)))

theorem itemText_value (h : Derives .value text) : ItemText .items text where
  last hw hw' := .item hw h hw'
  more hw hw' hrest := .items hw h hw' hrest

theorem itemText_member {key w w' : Str} (hkey : Chars key) (hw : Whitespace w)
    (hw' : Whitespace w') (h : Derives .value text) :
    ItemText .members ('"' :: (key ++ '"' :: (w ++ ':' :: (w' ++ text)))) where
  last h₁ h₂ := by
    simp only [cons_append, append_assoc]
    exact .member h₁ hkey hw hw' h h₂
  more h₁ h₂ hrest := by
    simp only [cons_append, append_assoc]
    exact .members h₁ hkey hw hw' h h₂ hrest

section Items

variable {close : Char} {kind : Kind} {item : σ → List UInt8 → σ → Prop}
  (hclose : close.toNat < 128)
  (hitem : ∀ state raw state', item state raw state' → ∃ text, raw = bytes text ∧ ItemText kind text)
include hclose hitem

theorem derives_of_jsonItems {state state' : σ} {raw : List UInt8}
    (h : Items Piece.Json close item state raw state') :
    ∃ text, raw = bytes (text ++ [close]) ∧ Derives kind text := by
  have hsplit {w text w' more : Str} : bytes w ++ (bytes text ++ (bytes w' ++ bytes more)) =
      bytes (w ++ (text ++ (w' ++ more))) := by simp only [bytes_append]
  induction h with
  | last hw h hw' =>
      obtain ⟨w, rfl, hw⟩ := hw
      obtain ⟨w', rfl, hw'⟩ := hw'
      obtain ⟨text, rfl, htext⟩ := hitem _ _ _ h
      have hlast : [close.toUInt8] = bytes [close] := by
        rw [bytes_cons_ascii hclose]
        rfl
      refine ⟨w ++ (text ++ w'), ?_, htext.last hw hw'⟩
      rw [hlast, hsplit]
      simp
  | cons hw h hw' _ ih =>
      obtain ⟨w, rfl, hw⟩ := hw
      obtain ⟨w', rfl, hw'⟩ := hw'
      obtain ⟨text, rfl, htext⟩ := hitem _ _ _ h
      obtain ⟨rest, rfl, hrest⟩ := ih
      refine ⟨w ++ (text ++ (w' ++ ',' :: rest)), ?_, htext.more hw hw' hrest⟩
      rw [← bytes_cons_ascii (by decide), hsplit]
      simp

theorem derives_of_bracketed {state state' : σ} {raw : List UInt8}
    (h : Bracketed Piece.Json close item state raw state') :
    ∃ text, raw = bytes (text ++ [close]) ∧ (Whitespace text ∨ Derives kind text) := by
  cases h with
  | empty hw =>
      obtain ⟨w, rfl, hw⟩ := hw
      refine ⟨w, ?_, Or.inl hw⟩
      rw [bytes_append, bytes_cons_ascii hclose]
      rfl
  | items h =>
      obtain ⟨text, rfl, htext⟩ := derives_of_jsonItems hclose hitem h
      exact ⟨text, rfl, Or.inr htext⟩

end Items

/-- A JSON value behind blanks. -/
def ValueText (raw : List UInt8) : Prop :=
  ∃ w text, Whitespace w ∧ Derives .value text ∧ raw = bytes (w ++ text)

theorem itemText_of_member {names : List Str} {value : Str → α → List UInt8 → Prop}
    (hvalue : ∀ name v raw, value name v raw → ValueText raw) {found : List (Str × α)}
    {found' : List (Str × α)} (h : Member Piece.Json names value found raw found') :
    ∃ text, raw = bytes text ∧ ItemText .members text := by
  have hbytes {key w text : Str} : '"'.toUInt8 :: (bytes key ++ '"'.toUInt8 ::
      (bytes w ++ ':'.toUInt8 :: bytes text)) =
      bytes ('"' :: (key ++ '"' :: (w ++ ':' :: text))) := by
    rw [bytes_cons_ascii (by decide), bytes_append, bytes_cons_ascii (by decide),
      bytes_append, bytes_cons_ascii (by decide)]
  cases h with
  | known _ hkey _ hw h =>
      obtain ⟨key, rfl, hkey⟩ := hkey
      obtain ⟨w, rfl, hw⟩ := hw
      obtain ⟨w', text, hw', htext, rfl⟩ := hvalue _ _ _ h
      exact ⟨_, hbytes, itemText_member hkey.chars hw hw' htext⟩
  | foreign hkey hw hw' h =>
      obtain ⟨key, rfl, hkey, -⟩ := hkey
      obtain ⟨w, rfl, hw⟩ := hw
      obtain ⟨w', rfl, hw'⟩ := hw'
      obtain ⟨text, rfl, htext⟩ := h
      rw [← bytes_append, hbytes]
      exact ⟨_, rfl, itemText_member hkey hw hw' htext⟩

/-- An object with these members is a value. -/
theorem derives_of_object {names : List Str} {value : Str → α → List UInt8 → Prop}
    (hvalue : ∀ name v raw, value name v raw → ValueText raw) {found found' : List (Str × α)}
    (h : Bracketed Piece.Json '\x7d' (Member Piece.Json names value) found raw found') :
    ∃ text, '\x7b'.toUInt8 :: raw = bytes text ∧ Derives .value text := by
  obtain ⟨text, rfl, htext⟩ := derives_of_bracketed (by decide)
    (fun _ _ _ h => itemText_of_member hvalue h) h
  refine ⟨'\x7b' :: (text ++ ['\x7d']), (bytes_cons_ascii (by decide)).symm, ?_⟩
  rcases htext with hw | htext
  · exact .emptyObject hw
  · exact .object htext

theorem valueText_of_text {name : Str} (h : TextValue Piece.Json name value raw) :
    ValueText raw := by
  cases h with
  | mk hw hbody =>
      obtain ⟨w, rfl, hw⟩ := hw
      obtain ⟨body, rfl, hbody⟩ := hbody
      refine ⟨w, '"' :: (body ++ ['"']), hw, .string hbody.chars, ?_⟩
      rw [bytes_append, bytes_cons_ascii (by decide), bytes_append,
        bytes_cons_ascii (by decide)]
      rfl

theorem itemText_of_entry {entries entries' : List FileEntry}
    (h : Entry Piece.Json entries raw entries') :
    ∃ text, raw = bytes text ∧ ItemText .items text := by
  cases h with
  | mk h =>
      obtain ⟨text, heq, htext⟩ := derives_of_object (fun _ _ _ => valueText_of_text) h
      exact ⟨text, heq, itemText_value htext⟩

theorem valueText_of_field {name : Str} {field : Field} (h : FieldValue Piece.Json name field raw) :
    ValueText raw := by
  cases h with
  | schemaVersion hw hdigits hn =>
      obtain ⟨w, rfl, hw⟩ := hw
      have hnumber := Number.mk (Or.inl rfl) hdigits .none .none
      rw [nil_append, append_nil, append_nil] at hnumber
      exact ⟨w, _, hw, .number hnumber, (bytes_append _ _).symm⟩
  | files hw h =>
      obtain ⟨w, rfl, hw⟩ := hw
      obtain ⟨text, rfl, htext⟩ := derives_of_bracketed (by decide)
        (fun _ _ _ h => itemText_of_entry h) h
      refine ⟨w, '[' :: (text ++ [']']), hw, ?_, ?_⟩
      · rcases htext with hw | htext
        · exact .emptyArray hw
        · exact .array htext
      · rw [bytes_append w, bytes_cons_ascii (by decide)]

/-- A manifest of JSON pieces is a JSON text. -/
theorem isText_of_manifest {input : List UInt8} {fields : ParsedManifest}
    (h : Manifest Piece.Json input fields) : ∃ text, input = bytes text ∧ IsText text := by
  cases h with
  | mk hw h hw' _ =>
      obtain ⟨w, rfl, hw⟩ := hw
      obtain ⟨w', rfl, hw'⟩ := hw'
      obtain ⟨text, heq, htext⟩ := derives_of_object (fun _ _ _ => valueText_of_field) h
      refine ⟨w ++ (text ++ w'), ?_, w, text, w', hw, htext, hw', rfl⟩
      rw [bytes_append, bytes_append, ← heq]
      rfl

end Bran.Migration
