import Bran.Document.JsonTextLaws
import Bran.Library.JsonSyntax

/-!
# The readers of canonical JSON agree

The dialects of the four readers are ordered: what the writer writes, what the DOCX reader
accepts, the PPTX reader, the XLSX reader, `Json::parse`.  So each reads back what is written, and
no two of them read one input differently.  `Json::parse` is too generous to accept JSON only:
digits may stand behind a leading zero, and a plus sign may stand for the first digit of an
escape.
-/

namespace Bran.Document.Json

open Text CharCode Validation Words Scanner List

/-! ## The order of the dialects -/

theorem Dialect.Below.trans {D₁ D₂ D₃ : Dialect} (h : D₁.Below D₂) (h' : D₂.Below D₃) :
    D₁.Below D₃ where
  blank hblank := h'.blank (h.blank hblank)
  strict hstrict := h.strict (h'.strict hstrict)
  escape word c hword := h'.escape word c (h.escape word c hword)

theorem hexDigits_hexadecimal {c : Char} (hc : c.toNat < 0x20) :
    HexDigits (hexadecimal 4 c.toNat) c := by
  have hall : ∀ n < 0x20, hexadecimal 4 n ≠ [] ∧ (hexadecimal 4 n).all isHexDigit = true ∧
      hexNumber (hexadecimal 4 n) = n := by decide
  obtain ⟨hne, hdigits, hnumber⟩ := hall _ hc
  refine ⟨hdigits, ?_⟩
  rw [RadixDigits, fromStrRadix_of_digits hne hdigits, hnumber, Option.bind_some, fromU32_toNat]

/-- The DOCX reader knows the escapes of the writer. -/
theorem written_below_docx : written.Below docxDialect where
  blank h := h
  strict h := h
  escape word c hword := by
    change writeChar c = '\\' :: word at hword
    have hcode {n : ℕ} (h : c.toNat = n) : c = Char.ofNat n := by rw [← h, Char.ofNat_toNat]
    unfold writeChar at hword
    split_ifs at hword with hquote hback hnewline hreturn htab height htwelve hcontrol
    · exact Or.inl ⟨'"', (List.cons.inj hword).2.symm, by rw [hquote]; rfl⟩
    · exact Or.inl ⟨'\\', (List.cons.inj hword).2.symm, by rw [hback]; rfl⟩
    · exact Or.inl ⟨'n', (List.cons.inj hword).2.symm, by rw [hnewline]; rfl⟩
    · exact Or.inl ⟨'r', (List.cons.inj hword).2.symm, by rw [hreturn]; rfl⟩
    · exact Or.inl ⟨'t', (List.cons.inj hword).2.symm, by rw [htab]; rfl⟩
    · exact Or.inl ⟨'b', (List.cons.inj hword).2.symm, by rw [hcode height]; rfl⟩
    · exact Or.inl ⟨'f', (List.cons.inj hword).2.symm, by rw [hcode htwelve]; rfl⟩
    · exact Or.inr ⟨hexadecimal 4 c.toNat, (List.cons.inj hword).2.symm, rfl,
        hexDigits_hexadecimal hcontrol, hcontrol⟩
    · exact absurd (List.cons.inj hword).1 hback

theorem docx_below_pptx : docxDialect.Below pptxDialect where
  blank h := h
  strict h := h
  escape word c hword := by
    rcases hword with ⟨escaped, rfl, hescaped⟩ | ⟨digits, rfl, hlength, hdigits, -⟩
    · refine Or.inl ⟨escaped, rfl, ?_⟩
      have hslash : escaped ≠ '/' := by
        rintro rfl
        cases hescaped
      rw [slashEscape, if_neg hslash, hescaped]
    · exact Or.inr ⟨digits, rfl, hlength, hdigits⟩

theorem pptx_below_xlsx : pptxDialect.Below xlsxDialect where
  blank h := h
  strict h := h
  escape word c hword := by
    rcases hword with hsimple | ⟨digits, rfl, hlength, hdigits⟩
    · exact Or.inl hsimple
    · exact Or.inr ⟨digits, rfl, hlength, hdigits.2⟩

theorem xlsx_below_canonical : xlsxDialect.Below canonicalDialect where
  blank _ := rfl
  strict _ := rfl
  escape _ _ hword := hword

theorem docx_below_canonical : docxDialect.Below canonicalDialect :=
  (docx_below_pptx.trans pptx_below_xlsx).trans xlsx_below_canonical

/-! ## The four readers -/

/-- The functions that read canonical JSON. -/
inductive Entry where
  /-- `Json::parse` -/
  | canonical
  /-- `docx::parse_json` -/
  | docx
  /-- `pptx::parse_canonical` -/
  | pptx
  /-- `xlsx::parse_canonical` -/
  | xlsx

namespace Entry

/-- The reader returns this value. -/
def Accepts : Entry → List UInt8 → Json → Prop
  | canonical, input, value => Json.parse input = .ok value
  | docx, input, value => Docx.parseJson input = .ok value
  | pptx, input, value => Pptx.parseCanonical input = .ok value
  | xlsx, input, value => Xlsx.parseCanonical input = .ok value

/-- The reader slices within its input and on character boundaries only, and ends. -/
def NeverPanics : Entry → List UInt8 → Prop
  | canonical, input => Safe (Json.parse input)
  | docx, input => Safe (Docx.parseJson input)
  | pptx, input => Safe (Pptx.parseCanonical input)
  | xlsx, input => Safe (Xlsx.parseCanonical input)

/-- How many values may stand inside one another: 64 for `MAX_PARSE_DEPTH`, and one more than the
depth at which the adapters stop. -/
def budget : Entry → ℕ
  | canonical => Parser.maxParseDepth
  | docx => Docx.maxJsonDepth + 1
  | pptx => Pptx.maxJsonDepth + 1
  | xlsx => Xlsx.maxJsonDepth + 1

def dialect : Entry → Dialect
  | canonical => canonicalDialect
  | docx => docxDialect
  | pptx => pptxDialect
  | xlsx => xlsxDialect

theorem written_below (entry : Entry) : written.Below entry.dialect := by
  have hpptx := written_below_docx.trans docx_below_pptx
  cases entry with
  | canonical => exact (hpptx.trans pptx_below_xlsx).trans xlsx_below_canonical
  | docx => exact written_below_docx
  | pptx => exact hpptx
  | xlsx => exact hpptx.trans pptx_below_xlsx

theorem below_canonical (entry : Entry) : entry.dialect.Below canonicalDialect := by
  cases entry with
  | canonical => exact ⟨id, id, fun _ _ => id⟩
  | docx => exact docx_below_canonical
  | pptx => exact pptx_below_xlsx.trans xlsx_below_canonical
  | xlsx => exact xlsx_below_canonical

/-- What a reader reads from the start of its input. -/
theorem read_iff {ε : Type} {R : Reader ε} {D : Dialect} {pos : ℕ → List UInt8 → Prop}
    (hR : R.Obeys D pos) {input : List UInt8} (hpos : pos 0 input) {budget : ℕ} :
    Safe (R.read budget) ∧ ∀ v, R.read budget = .ok v ↔
      ∃ text w, D.Value budget text v ∧ D.Blank w ∧ input = bytes (text ++ w) := by
  have hyields : Safe (R.read budget) ∧ ∀ v, R.read budget = .ok v →
      ∃ text w, D.Value budget text v ∧ D.Blank w ∧ input = bytes (text ++ w) :=
    yields_read hR hpos
  obtain ⟨hsafe, hread⟩ := hyields
  refine ⟨hsafe, fun v => ⟨hread v, ?_⟩⟩
  rintro ⟨text, w, hvalue, hw, rfl⟩
  exact read_eq_ok hR hvalue hw hpos

/-- A reader that first checks that its input is a text. -/
theorem read_iff_of_utf8 {ε : Type} {bad : ε} {reader : Str → Reader ε} {D : Dialect}
    (hreader : ∀ text, (reader text).Obeys D (textPos text)) {input : List UInt8} {budget : ℕ}
    {read : Checked ε Json} (heq : read = match fromUtf8 input with
      | some text => (reader text).read budget
      | none => .error (.refused bad)) :
    Safe read ∧ ∀ v, read = .ok v ↔
      ∃ text w, D.Value budget text v ∧ D.Blank w ∧ input = bytes (text ++ w) := by
  cases hinput : fromUtf8 input with
  | some text =>
      rw [hinput] at heq
      obtain rfl := fromUtf8_eq_some_iff.mp hinput
      rw [heq]
      exact read_iff (hreader text) (textPos_zero text)
  | none =>
      rw [hinput] at heq
      rw [heq]
      refine ⟨safe_refused, fun v => ⟨fun h => (nomatch h), ?_⟩⟩
      rintro ⟨text, w, -, -, rfl⟩
      rw [fromUtf8_bytes] at hinput
      cases hinput

theorem spec (entry : Entry) (input : List UInt8) : entry.NeverPanics input ∧
    ∀ v, entry.Accepts input v ↔ ∃ text w, entry.dialect.Value entry.budget text v ∧
      entry.dialect.Blank w ∧ input = bytes (text ++ w) := by
  cases entry with
  | canonical => exact @read_iff_of_utf8 _ () _ _ obeys_canonical _ _ _ rfl
  | docx => exact read_iff (obeys_docx input) (bytesPos_zero input)
  | pptx => exact @read_iff_of_utf8 _ Pptx.JsonParser.bad _ _ obeys_pptx _ _ _ rfl
  | xlsx => exact read_iff (obeys_xlsx input) (bytesPos_zero input)

/-- A reader reads back what is written, when it is nested no deeper than the reader goes. -/
theorem accepts_toBytes {entry : Entry} {value : Json} (hvalue : WellFormed value)
    (hnesting : nesting value < entry.budget) : entry.Accepts (toBytes value) value := by
  refine ((spec entry _).2 value).mpr ⟨write value, [], ?_, blank_nil _, ?_⟩
  · exact entry.written_below.value_mono le_rfl (value_write hvalue hnesting)
  · rw [append_nil, toBytes]

theorem budget_le (entry : Entry) : entry.budget ≤ 257 := by cases entry <;> decide

/-- What a reader accepts `Json::parse` would read alike, if it went as deep. -/
theorem read_canonical {entry : Entry} {text : Str} {value : Json}
    (h : entry.Accepts (bytes text) value) : (Parser.reader text).read 257 = .ok value := by
  obtain ⟨value_text, w, hvalue, hw, hbytes⟩ := ((spec entry _).2 value).mp h
  obtain rfl := bytes_injective hbytes
  have hbelow := entry.below_canonical
  exact read_eq_ok (obeys_canonical _) (hbelow.value_mono entry.budget_le hvalue)
    (hbelow.blank_mono hw) (textPos_zero _)

theorem accepts_unique {entry entry' : Entry} {input : List UInt8} {value value' : Json}
    (h : entry.Accepts input value) (h' : entry'.Accepts input value') : value = value' := by
  obtain ⟨text, w, -, -, rfl⟩ := ((spec entry _).2 value).mp h
  exact Except.ok.inj ((read_canonical h).symm.trans (read_canonical h'))

end Entry

/-! ## `Json::parse` and JSON -/

section Strict

open JsonSyntax

theorem whitespace_of_blank {w : Str} (h : canonicalDialect.Blank w) : Whitespace w := by
  intro c hc
  have hblank := (h c hc).2
  simp only [isBlank, Bool.or_eq_true, decide_eq_true_eq] at hblank
  rcases hblank with ((h | h) | h) | h
  · exact Or.inl h
  · exact Or.inr (Or.inl h)
  · exact Or.inr (Or.inr (Or.inl h))
  · exact Or.inr (Or.inr (Or.inr h))

theorem chars_of_body {body s : Str} (h : canonicalDialect.Body body s)
    (hscan : scan .string body ≠ .failed) : Chars body := by
  induction h with
  | nil => exact .nil
  | plain hc _ ih =>
      rw [scan_cons, step, if_neg hc.1, if_neg hc.2.1] at hscan
      exact .unescaped hc (ih hscan)
  | @escape word body s c hword _ ih =>
      rcases hword with ⟨escaped, rfl, hescaped⟩ | ⟨digits, rfl, hlength, -⟩
      · have hmem : escaped ∈ ['"', '\\', '/', 'b', 'f', 'n', 'r', 't'] := by
          unfold slashEscape simpleEscape at hescaped
          split_ifs at hescaped <;> subst_vars <;> decide
        have hne : escaped ≠ 'u' := by
          rintro rfl
          exact absurd hmem (by decide)
        refine .escape hmem (ih ?_)
        have hstep : scan .string ('\\' :: ([escaped] ++ body)) =
            scan (if escaped = 'u' then .unicode 3 else .string) body := rfl
        rwa [hstep, if_neg hne] at hscan
      · have hstep : scan .string ('\\' :: ('u' :: digits ++ body)) =
            scan (scan (.unicode 3) digits) body := by
          rw [← scan_append]
          rfl
        rw [hstep] at hscan
        have hdigits := hexDigits_of_scan hlength (scan_ne_failed hscan)
        rw [scan_hexDigits hlength hdigits] at hscan
        exact .unicode hlength hdigits (ih hscan)

variable {text : Str}

theorem number_of_parseI64 {n : ℤ} (h : parseI64 text = some n)
    (hscan : scan .outside text ≠ .failed) : Number text := by
  obtain ⟨sign, digits, rfl, hsign, hne, hdigits⟩ := shape_of_parseI64 h
  have hstate : scan .outside sign = .outside ∨ scan .outside sign = .sign := by
    rcases hsign with rfl | rfl
    · exact Or.inl rfl
    · exact Or.inr rfl
  rw [scan_append] at hscan
  have hnumber : Number (sign ++ (digits ++ ([] ++ []))) :=
    .mk hsign (whole_of_scan hstate hne hdigits hscan) .none .none
  rwa [append_nil, append_nil] at hnumber

/-- Whitespace and then what is derived. -/
def Spaced (kind : Kind) (text : Str) : Prop :=
  ∃ w t, Whitespace w ∧ Derives kind t ∧ text = w ++ t

theorem Spaced.settled {kind : Kind} (h : Spaced kind text) :
    Settled (scan .outside text) := by
  obtain ⟨w, t, hw, ht, rfl⟩ := h
  rw [scan_append, scan_whitespace_outside hw]
  exact ht.settled

variable {V : Str → Json → Prop}
  (hV : ∀ {text value}, V text value → scan .outside text ≠ .failed → Spaced .value text)
include hV

theorem derives_of_items {items : List Json} (h : canonicalDialect.Items V text items)
    (hscan : scan .outside text ≠ .failed) :
    ∃ t, text = t ++ [']'] ∧ Derives .items t := by
  induction h with
  | @last text w item hitem hw =>
      rw [scan_append] at hscan
      obtain ⟨w₀, t, hw₀, ht, rfl⟩ := hV hitem (scan_ne_failed hscan)
      exact ⟨w₀ ++ (t ++ w), by simp, .item hw₀ ht (whitespace_of_blank hw)⟩
  | @cons text w rest item items hitem hw _ ih =>
      rw [scan_append] at hscan
      have hspaced := hV hitem (scan_ne_failed hscan)
      rw [scan_closes hspaced.settled (whitespace_of_blank hw) (by decide)] at hscan
      obtain ⟨t', rfl, ht'⟩ := ih hscan
      obtain ⟨w₀, t, hw₀, ht, rfl⟩ := hspaced
      exact ⟨w₀ ++ (t ++ (w ++ ',' :: t')), by simp, .items hw₀ ht (whitespace_of_blank hw) ht'⟩

theorem parts_of_member {entry : Str × Json} (h : canonicalDialect.Member V text entry)
    (hscan : scan .outside text ≠ .failed) :
    ∃ w key w₁ w₂ t, Whitespace w ∧ Chars key ∧ Whitespace w₁ ∧ Whitespace w₂ ∧
      Derives .value t ∧ text = w ++ '"' :: (key ++ '"' :: (w₁ ++ ':' :: (w₂ ++ t))) := by
  obtain @⟨w, body, key, w₁, text, item, hw, hkey, hw₁, hitem⟩ := h
  rw [scan_append, scan_whitespace_outside (whitespace_of_blank hw), scan_append] at hscan
  have hquoted : scan .outside (quoted body) = scan (scan .string body) ['"'] := by
    rw [← scan_append]
    rfl
  have hchars : Chars body := by
    refine chars_of_body hkey ?_
    rw [hquoted] at hscan
    exact scan_ne_failed (scan_ne_failed hscan)
  rw [hquoted, scan_chars hchars] at hscan
  change scan .outside (w₁ ++ ':' :: text) ≠ .failed at hscan
  rw [scan_closes (Or.inl rfl) (whitespace_of_blank hw₁) (by decide)] at hscan
  obtain ⟨w₂, t, hw₂, ht, rfl⟩ := hV hitem hscan
  exact ⟨w, body, w₁, w₂, t, whitespace_of_blank hw, hchars, whitespace_of_blank hw₁, hw₂, ht,
    by simp [quoted]⟩

theorem settled_of_member {entry : Str × Json} (h : canonicalDialect.Member V text entry)
    (hscan : scan .outside text ≠ .failed) :
    Settled (scan .outside text) := by
  obtain ⟨w, key, w₁, w₂, t, hw, hkey, hw₁, hw₂, ht, rfl⟩ := parts_of_member hV h hscan
  have hmember : Derives .members
      (w ++ '"' :: (key ++ '"' :: (w₁ ++ ':' :: (w₂ ++ (t ++ []))))) :=
    .member hw hkey hw₁ hw₂ ht fun _ h => absurd h not_mem_nil
  rw [append_nil] at hmember
  exact hmember.settled

theorem derives_of_members {entries : List (Str × Json)}
    (h : canonicalDialect.Members V text entries) (hscan : scan .outside text ≠ .failed) :
    ∃ t, text = t ++ ['}'] ∧ Derives .members t := by
  induction h with
  | @last text w entry hentry hw =>
      rw [scan_append] at hscan
      obtain ⟨w₀, key, w₁, w₂, t, hw₀, hkey, hw₁, hw₂, ht, rfl⟩ :=
        parts_of_member hV hentry (scan_ne_failed hscan)
      exact ⟨_, by simp, .member hw₀ hkey hw₁ hw₂ ht (whitespace_of_blank hw)⟩
  | @cons text w rest entry entries hentry hw _ ih =>
      rw [scan_append] at hscan
      have hmember := scan_ne_failed hscan
      rw [scan_closes (settled_of_member hV hentry hmember) (whitespace_of_blank hw) (by decide)]
        at hscan
      obtain ⟨t', rfl, ht'⟩ := ih hscan
      obtain ⟨w₀, key, w₁, w₂, t, hw₀, hkey, hw₁, hw₂, ht, rfl⟩ := parts_of_member hV hentry hmember
      exact ⟨_, by simp, .members hw₀ hkey hw₁ hw₂ ht (whitespace_of_blank hw) ht'⟩

theorem spaced_of_form {value : Json} (h : canonicalDialect.Form V text value)
    (hscan : scan .outside text ≠ .failed) : Spaced .value text := by
  cases h with
  | @word w text value hw hword =>
      refine ⟨w, text, whitespace_of_blank hw, .literal ?_, rfl⟩
      exact mem_map_of_mem (f := Prod.fst) hword
  | @int w text n hw hint =>
      rw [scan_append, scan_whitespace_outside (whitespace_of_blank hw)] at hscan
      exact ⟨w, text, whitespace_of_blank hw, .number (number_of_parseI64 hint hscan), rfl⟩
  | @str w body s hw hbody =>
      rw [scan_append, scan_whitespace_outside (whitespace_of_blank hw)] at hscan
      have hquoted : scan .outside (quoted body) = scan (scan .string body) ['"'] := by
        rw [← scan_append]
        rfl
      rw [hquoted] at hscan
      exact ⟨w, quoted body, whitespace_of_blank hw,
        .string (chars_of_body hbody (scan_ne_failed hscan)), rfl⟩
  | @emptyArr w w' hw hw' =>
      exact ⟨w, _, whitespace_of_blank hw, .emptyArray (whitespace_of_blank hw'), rfl⟩
  | @arr w text items hw hitems =>
      rw [scan_append, scan_whitespace_outside (whitespace_of_blank hw),
        scan_open (Or.inl rfl)] at hscan
      obtain ⟨t, rfl, ht⟩ := derives_of_items hV hitems hscan
      exact ⟨w, _, whitespace_of_blank hw, .array ht, rfl⟩
  | @emptyObj w w' hw hw' =>
      exact ⟨w, _, whitespace_of_blank hw, .emptyObject (whitespace_of_blank hw'), rfl⟩
  | @obj w text entries hw hentries _ =>
      rw [scan_append, scan_whitespace_outside (whitespace_of_blank hw),
        scan_open (Or.inr rfl)] at hscan
      obtain ⟨t, rfl, ht⟩ := derives_of_members hV hentries hscan
      exact ⟨w, _, whitespace_of_blank hw, .object ht, rfl⟩

end Strict

open JsonSyntax in
theorem spaced_of_value {budget : ℕ} {text : Str} {value : Json}
    (h : canonicalDialect.Value budget text value) (hscan : scan .outside text ≠ .failed) :
    Spaced .value text := by
  induction budget generalizing text value with
  | zero => exact h.elim
  | succ budget ih => exact spaced_of_form ih h hscan

open JsonSyntax in
/-- What `Json::parse` accepts is JSON exactly when it is free of the two slips. -/
theorem isText_iff_strict {input : List UInt8} {value : Json}
    (h : Json.parse input = .ok value) :
    ∃ text, input = bytes text ∧ (IsText text ↔ Strict text) := by
  obtain ⟨text, w, hvalue, hw, rfl⟩ := ((Entry.spec .canonical _).2 value).mp h
  refine ⟨text ++ w, rfl, fun htext => htext.strict, fun hstrict => ?_⟩
  rw [Strict, scan_append] at hstrict
  obtain ⟨w₀, t, hw₀, ht, rfl⟩ := spaced_of_value hvalue (scan_ne_failed hstrict)
  exact ⟨w₀, t, w, hw₀, ht, whitespace_of_blank hw, append_assoc _ _ _⟩

/-- The readers read back what is written, never panic and agree; and what `Json::parse` accepts
is JSON exactly when no digit stands behind a leading zero and four hexadecimal digits stand
behind every `\u`. -/
theorem readers_invert_agree_and_strict (input : List UInt8) (value : Json) :
    (∀ entry, WellFormed value → nesting value < Entry.budget entry →
      entry.Accepts (toBytes value) value) ∧
    (∀ entry : Entry, entry.NeverPanics input) ∧
    (∀ (entry entry' : Entry) value', entry.Accepts input value →
      entry'.Accepts input value' → value = value') ∧
    (Json.parse input = .ok value →
      ∃ text, input = bytes text ∧ (JsonSyntax.IsText text ↔ JsonSyntax.Strict text)) :=
  ⟨fun _ => Entry.accepts_toBytes, fun entry => (entry.spec input).1,
    fun _ _ _ => Entry.accepts_unique, isText_iff_strict⟩

/-- `01` and an escape with a plus sign are accepted, and neither is JSON. -/
theorem parse_accepts_non_json :
    Json.parse (bytes "01".toList) = .ok (.int 1) ∧ ¬ JsonSyntax.IsText "01".toList ∧
      Json.parse (bytes ('"' :: '\\' :: "u+041\"".toList)) = .ok (.str ['A']) ∧
      ¬ JsonSyntax.IsText ('"' :: '\\' :: "u+041\"".toList) := by
  have hone : canonicalDialect.Value 64 "01".toList (.int 1) := .int (blank_nil _) (by decide)
  have hletter : canonicalDialect.Value 64 ('"' :: '\\' :: "u+041\"".toList) (.str ['A']) := by
    have hword : canonicalDialect.escape "u+041".toList 'A' :=
      Or.inr ⟨"+041".toList, rfl, rfl, by unfold RadixDigits; decide⟩
    exact .str (blank_nil _) (.escape hword .nil)
  have hread {text : Str} {value : Json} (h : canonicalDialect.Value 64 text value) :
      Json.parse (bytes text) = .ok value :=
    ((Entry.spec .canonical _).2 value).mpr ⟨text, [], h, blank_nil _, by rw [append_nil]⟩
  refine ⟨hread hone, fun h => absurd h.strict (by decide), hread hletter, fun h => ?_⟩
  exact absurd h.strict (by decide)

end Bran.Document.Json
