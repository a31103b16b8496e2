import Bran.Document.JsonReaders

/-!
# The readers over bytes

The DOCX and the XLSX reader walk over bytes and check at the end of a string that its bytes are a
text.  Nothing is lost by that: the decoded escapes are whole characters, so that the bytes
between them are whole characters as well.
-/

namespace Bran.Document.Json

open Text CharCode Validation Words Scanner List Utf8

variable {ε : Type}

/-! ## Dialects -/

/-- An escape of four characters behind a `u`. -/
def UnicodeWord (accepts : Str → Char → Prop) (word : Str) (c : Char) : Prop :=
  ∃ digits, word = 'u' :: digits ∧ digits.length = 4 ∧ accepts digits c

/-- An escape of one character. -/
def SimpleWord (table : Char → Option Char) (word : Str) (c : Char) : Prop :=
  ∃ escaped, word = [escaped] ∧ table escaped = some c

/-- Digits, or a plus sign and digits, name a character. -/
def RadixDigits (digits : Str) (c : Char) : Prop := (fromStrRadix digits).bind fromU32 = some c

/-- Hexadecimal digits name a character. -/
def HexDigits (digits : Str) (c : Char) : Prop := digits.all isHexDigit = true ∧ RadixDigits digits c

/-- The dialect of `Json::parse`. -/
def canonicalDialect : Dialect where
  blank := true
  strict := false
  escape word c := SimpleWord slashEscape word c ∨ UnicodeWord RadixDigits word c

def xlsxDialect : Dialect where
  blank := false
  strict := true
  escape word c := SimpleWord slashEscape word c ∨ UnicodeWord RadixDigits word c

def pptxDialect : Dialect where
  blank := false
  strict := true
  escape word c := SimpleWord slashEscape word c ∨ UnicodeWord HexDigits word c

def docxDialect : Dialect where
  blank := false
  strict := true
  escape word c := SimpleWord simpleEscape word c ∨
    UnicodeWord (fun digits c => HexDigits digits c ∧ c.toNat < 0x20) word c

/-! ## Bytes of characters -/

theorem ascii_toUInt8_inj {c d : Char} (hc : c.toNat < 128) (hd : d.toNat < 128)
    (h : c.toUInt8 = d.toUInt8) : c = d := by
  have hbytes : bytes [c] = bytes [d] := by
    rw [bytes_cons, bytes_cons, encode_ascii hc, encode_ascii hd, h]
  exact (List.cons.inj (bytes_injective hbytes)).1

theorem toNat_lt_of_isDigit {c : Char} (h : c.isDigit = true) : c.toNat < 128 := by
  rw [Char.isDigit, Bool.and_eq_true] at h
  have hle : c.toNat ≤ 57 := UInt32.le_iff_toNat_le.mp (of_decide_eq_true h.2)
  omega

/-- The first byte of a text tells whether it starts with an ASCII character. -/
theorem head_bytes_eq {c : Char} (hc : c.toNat < 128) {d : Char} {rest : Str} :
    (bytes (d :: rest))[0]? = some c.toUInt8 ↔ d = c := by
  constructor
  · intro h
    obtain ⟨first, tail, hencode, -, -⟩ := encode_eq_cons d
    rw [bytes_cons, hencode] at h
    obtain rfl : first = c.toUInt8 := by simpa using h
    have hwhole : bytes (d :: rest) = c.toUInt8 :: (tail ++ bytes rest) := by
      rw [bytes_cons, hencode]
      rfl
    obtain ⟨rest', hcons, -⟩ := exists_of_bytes_eq_cons hc hwhole
    exact (List.cons.inj hcons).1
  · rintro rfl
    rw [bytes_cons, encode_ascii hc]
    rfl

/-- Positions of an input by its bytes. -/
structure Walks (input : List UInt8) (pos : ℕ → List UInt8 → Prop) : Prop where
  advances : Advances pos
  bytesPos : ∀ {at_ rest}, pos at_ rest → Scanner.bytesPos input at_ rest

theorem walks_bytes (input : List UInt8) : Walks input (bytesPos input) :=
  ⟨bytesPos_advances, id⟩

theorem walks_text (text : Str) : Walks (bytes text) (textPos text) :=
  ⟨textPos_advances, bytesPos_of_textPos⟩

section Walks

variable {input : List UInt8} {pos : ℕ → List UInt8 → Prop} (h : Walks input pos)
include h

variable {at_ : ℕ} {rest : List UInt8} {c : Char}

theorem Walks.getElem? (hpos : pos at_ rest) :
    input[at_]? = rest[0]? := bytesPos_head (h.bytesPos hpos)

/-- Behind an ASCII character that stands here there is a position. -/
theorem Walks.ascii (hc : c.toNat < 128) (hpos : pos at_ (c.toUInt8 :: rest)) :
    pos (at_ + 1) rest := by
  have hfront : bytes [c] ++ rest = c.toUInt8 :: rest := by
    rw [bytes_cons, encode_ascii hc]
    rfl
  have hsize : byteLen [c] = 1 := by
    rw [← length_bytes, bytes_cons, encode_ascii hc]
    rfl
  exact hsize ▸ h.advances (hfront.symm ▸ hpos)

theorem yields_eatByte (hc : c.toNat < 128) (hpos : pos at_ rest) :
    Yields pos (eatByte input c at_ : Checked ε (Bool × ℕ))
      fun found rest' => rest = bytes (if found then [c] else []) ++ rest' := by
  rw [eatByte, h.getElem? hpos]
  split
  · next hfirst =>
    cases rest with
    | nil => cases hfirst
    | cons byte rest =>
        obtain rfl : byte = c.toUInt8 := by simpa using hfirst
        refine Yields.ok (h.ascii hc hpos) ?_
        rw [if_pos rfl, bytes_cons, encode_ascii hc]
        rfl
  · exact Yields.ok hpos rfl

theorem reaches_eatByte_true (hc : c.toNat < 128) {rest : Str} (hpos : pos at_ (bytes (c :: rest))) :
    Reaches pos (eatByte input c at_ : Checked ε (Bool × ℕ)) true (bytes rest) := by
  rw [eatByte, h.getElem? hpos, if_pos ((head_bytes_eq hc).mpr rfl)]
  rw [bytes_cons, encode_ascii hc] at hpos
  exact Reaches.ok (h.ascii hc hpos)

theorem reaches_eatByte_false {d : Char} (hc : c.toNat < 128) (hd : d ≠ c) {rest : Str}
    (hpos : pos at_ (bytes (d :: rest))) :
    Reaches pos (eatByte input c at_ : Checked ε (Bool × ℕ)) false (bytes (d :: rest)) := by
  rw [eatByte, h.getElem? hpos, if_neg (mt (head_bytes_eq hc).mp hd)]
  exact Reaches.ok hpos

theorem yields_expectByte {bad : ε} (hc : c.toNat < 128) (hpos : pos at_ rest) :
    Yields pos (expectByte bad input c at_)
      fun _ rest' => rest = bytes [c] ++ rest' := by
  refine (yields_eatByte h hc hpos).bind ?_
  rintro found at₁ rest₁ hpos₁ hrest
  cases found with
  | true => exact Yields.ok hpos₁ hrest
  | false => exact Yields.refused

theorem reaches_expectByte {bad : ε} (hc : c.toNat < 128) {rest : Str}
    (hpos : pos at_ (bytes (c :: rest))) :
    Reaches pos (expectByte bad input c at_) () (bytes rest) :=
  (reaches_eatByte_true h hc hpos).bind fun _ hpos₁ => Reaches.ok hpos₁

/-! ## Where a value starts -/

/-- A literal of a reader: it reads its word or refuses. -/
structure ReadsWord (pos : ℕ → List UInt8 → Prop)
    (literal : Str → Json → ℕ → Checked ε (Token × ℕ)) : Prop where
  yields : ∀ {word value at_ rest}, pos at_ rest → Yields pos (literal word value at_)
    fun token rest' => token = .word value ∧ rest = bytes word ++ rest'
  reaches : ∀ {word value at_ rest}, pos at_ (bytes (word ++ rest)) →
    Reaches pos (literal word value at_) (.word value) (bytes rest)

variable {bad : ε} {literal : Str → Json → ℕ → Checked ε (Token × ℕ)} {startsNumber : UInt8 → Bool}
  (hliteral : ReadsWord pos literal) {D : Dialect}

include hliteral in
theorem yields_dispatch (hpos : pos at_ rest) :
    Yields pos (dispatch bad input literal startsNumber at_) (Started D rest) := by
  have hword {word : Str} {value : Json} (hmem : (word, value) ∈ words) :
      Yields pos (literal word value at_) (Started D rest) := by
    refine (hliteral.yields hpos).mono ?_
    rintro token rest' ⟨rfl, hrest⟩
    exact ⟨[], blank_nil D, word, hmem, hrest⟩
  have hopen {c : Char} (hc : c.toNat < 128) (hfirst : rest[0]? = some c.toUInt8) :
      ∃ rest', rest = bytes [c] ++ rest' ∧ pos (at_ + 1) rest' := by
    cases rest with
    | nil => cases hfirst
    | cons byte rest =>
        obtain rfl : byte = c.toUInt8 := by simpa using hfirst
        refine ⟨rest, ?_, h.ascii hc hpos⟩
        rw [bytes_cons, encode_ascii hc]
        rfl
  rw [dispatch, h.getElem? hpos]
  cases hfirst : rest[0]? with
  | none => exact Yields.refused
  | some byte =>
      dsimp only
      split
      · exact hword (.head _)
      split
      · exact hword (.tail _ (.head _))
      split
      · exact hword (.tail _ (.tail _ (.head _)))
      split
      · exact Yields.ok hpos ⟨[], blank_nil D, rfl⟩
      split
      · next heq =>
        obtain ⟨rest', hrest, hpos'⟩ := hopen (c := '[') (by decide) (heq ▸ hfirst)
        exact Yields.ok hpos' ⟨[], blank_nil D, hrest⟩
      split
      · next heq =>
        obtain ⟨rest', hrest, hpos'⟩ := hopen (c := '{') (by decide) (heq ▸ hfirst)
        exact Yields.ok hpos' ⟨[], blank_nil D, hrest⟩
      split
      · refine Yields.ok hpos ⟨[], blank_nil D, rfl, ?_⟩
        rintro rfl
        cases hfirst
      · exact Yields.refused

include hliteral in
theorem reaches_dispatch_word {word rest : Str} {value : Json} (hword : (word, value) ∈ words)
    (hpos : pos at_ (bytes (word ++ rest))) :
    Reaches pos (dispatch bad input literal startsNumber at_) (.word value) (bytes rest) := by
  have hreach : Reaches pos (literal word value at_) (.word value) (bytes rest) :=
    hliteral.reaches hpos
  have hfirst {c : Char} {tail : Str} (hc : c.toNat < 128) (heq : word = c :: tail) :
      input[at_]? = some c.toUInt8 := by
    rw [h.getElem? hpos, heq, cons_append]
    exact (head_bytes_eq hc).mpr rfl
  simp only [words, mem_cons, Prod.mk.injEq, not_mem_nil, or_false] at hword
  rcases hword with ⟨rfl, rfl⟩ | ⟨rfl, rfl⟩ | ⟨rfl, rfl⟩
  · rw [dispatch, hfirst (c := 'n') (by decide) rfl]
    exact hreach
  · rw [dispatch, hfirst (c := 't') (by decide) rfl]
    exact hreach
  · rw [dispatch, hfirst (c := 'f') (by decide) rfl]
    exact hreach

theorem reaches_dispatch_open {token : Token} {rest : Str} (hopens : opens c = some token)
    (hnumber : token = .number → startsNumber c.toUInt8 = true) (hpos : pos at_ (bytes (c :: rest))) :
    Reaches pos (dispatch bad input literal startsNumber at_) token
      (bytes (behind token c rest)) := by
  have hfirst (hc : c.toNat < 128) : input[at_]? = some c.toUInt8 := by
    rw [h.getElem? hpos]
    exact (head_bytes_eq hc).mpr rfl
  have hbracket (hc : c.toNat < 128) : pos (at_ + 1) (bytes rest) := by
    rw [bytes_cons, encode_ascii hc] at hpos
    exact h.ascii hc hpos
  unfold opens at hopens
  split at hopens
  · next hc =>
    subst hc
    obtain rfl := Option.some.inj hopens
    rw [dispatch, hfirst (by decide)]
    exact Reaches.ok hpos
  split at hopens
  · next hc =>
    subst hc
    obtain rfl := Option.some.inj hopens
    rw [dispatch, hfirst (by decide)]
    exact Reaches.ok (hbracket (by decide))
  split at hopens
  · next hc =>
    subst hc
    obtain rfl := Option.some.inj hopens
    rw [dispatch, hfirst (by decide)]
    exact Reaches.ok (hbracket (by decide))
  split at hopens
  · next hdigit =>
    obtain rfl := Option.some.inj hopens
    have hc : c.toNat < 128 := by
      rcases hdigit with rfl | hdigit
      · decide
      · exact toNat_lt_of_isDigit hdigit
    have hne {d : Char} (hd : d.toNat < 128 ∧ d ≠ '-' ∧ d.isDigit = false) :
        ¬ c.toUInt8 = d.toUInt8 := by
      intro heq
      obtain rfl := ascii_toUInt8_inj hc hd.1 heq
      rcases hdigit with hminus | hdigit
      · exact hd.2.1 hminus
      · exact Bool.false_ne_true (hd.2.2.symm.trans hdigit)
    rw [dispatch, hfirst hc]
    dsimp only
    rw [if_neg (hne (by decide)), if_neg (hne (by decide)), if_neg (hne (by decide)),
      if_neg (hne (by decide)), if_neg (hne (by decide)), if_neg (hne (by decide)),
      if_pos (hnumber rfl)]
    exact Reaches.ok hpos
  · cases hopens

end Walks

/-! ## Numbers -/

theorem isDigitByte_iff {byte : UInt8} :
    isDigitByte byte = true ↔ 48 ≤ byte.toNat ∧ byte.toNat ≤ 57 := by
  rw [isDigitByte, Bool.and_eq_true, decide_eq_true_iff, decide_eq_true_iff,
    UInt8.le_iff_toNat_le, UInt8.le_iff_toNat_le]
  exact Iff.rfl

theorem toNat_toUInt8 {c : Char} (hc : c.toNat < 128) : c.toUInt8.toNat = c.toNat := by
  have hcode : c.toUInt8.toNat = c.toNat % 256 := rfl
  omega

theorem isDigitByte_toUInt8 {c : Char} (hc : c.toNat < 128) :
    isDigitByte c.toUInt8 = c.isDigit := by
  rw [Bool.eq_iff_iff, isDigitByte_iff, toNat_toUInt8 hc, Char.isDigit, Bool.and_eq_true,
    decide_eq_true_iff, decide_eq_true_iff, ge_iff_le, UInt32.le_iff_toNat_le,
    UInt32.le_iff_toNat_le]
  exact Iff.rfl

/-- The first byte of a text that delimits a number is no digit. -/
theorem takeWhile_delimited {rest : Str} (h : Delimits rest) :
    (bytes rest).takeWhile isDigitByte = [] := by
  cases rest with
  | nil => rfl
  | cons c rest =>
      have hdigit := (h c rfl).2
      obtain ⟨first, tail, hencode, -, -⟩ := encode_eq_cons c
      have hfirst : isDigitByte first = false := by
        by_cases hc : c.toNat < 128
        · rw [encode_ascii hc] at hencode
          obtain rfl := (List.cons.inj hencode).1
          rw [isDigitByte_toUInt8 hc, hdigit]
        · have hle := le_of_mem_encode (Nat.le_of_not_lt hc)
            (hencode ▸ mem_cons_self : first ∈ String.utf8EncodeChar c)
          rw [Bool.eq_false_iff, ne_eq, isDigitByte_iff]
          omega
      rw [bytes_cons, hencode, cons_append, takeWhile_cons, hfirst]
      rfl

theorem bytes_digits {digits : Str} (h : ∀ c ∈ digits, c.isDigit = true) :
    bytes digits = digits.map Char.toUInt8 :=
  bytes_ascii fun c hc => toNat_lt_of_isDigit (h c hc)

theorem byteLen_ascii {s : Str} (h : ∀ c ∈ s, c.toNat < 128) : byteLen s = s.length := by
  rw [← length_bytes, bytes_ascii h, length_map]

theorem skipDigits_eq {input : List UInt8} {at_ : ℕ} {digits rest : Str}
    (hpos : bytesPos input at_ (bytes (digits ++ rest))) (hdigits : ∀ c ∈ digits, c.isDigit = true)
    (hrest : Delimits rest) : skipDigits input at_ = at_ + byteLen digits := by
  obtain ⟨before, rfl, rfl⟩ := hpos
  have hrun : (bytes (digits ++ rest)).takeWhile isDigitByte = bytes digits := by
    rw [bytes_append, takeWhile_append_of_pos, takeWhile_delimited hrest,
      append_nil]
    intro byte hbyte
    rw [bytes_digits hdigits] at hbyte
    obtain ⟨c, hc, rfl⟩ := mem_map.mp hbyte
    rw [isDigitByte_toUInt8 (toNat_lt_of_isDigit (hdigits c hc)), hdigits c hc]
  rw [skipDigits, drop_left, hrun, length_bytes]

theorem skipDigits_bounds {input : List UInt8} {at_ : ℕ} (h : at_ ≤ input.length) :
    at_ ≤ skipDigits input at_ ∧ skipDigits input at_ ≤ input.length := by
  have hle := (takeWhile_sublist (p := isDigitByte) (l := input.drop at_)).length_le
  rw [length_drop] at hle
  rw [skipDigits]
  omega

/-- A number is a sign and digits. -/
theorem shape_of_parseI64 {text : Str} {n : ℤ} (h : parseI64 text = some n) :
    ∃ sign digits, text = sign ++ digits ∧ (sign = [] ∨ sign = ['-']) ∧ digits ≠ [] ∧
      ∀ c ∈ digits, c.isDigit = true := by
  have hdigits {bound m : ℕ} {digits : Str} (hparse : parseUnsigned bound digits = some m) :
      digits ≠ [] ∧ ∀ c ∈ digits, c.isDigit = true := by
    rw [parseUnsigned] at hparse
    split at hparse
    · next hcond => exact ⟨hcond.1, all_eq_true.mp hcond.2.1⟩
    · cases hparse
  rw [parseI64] at h
  split at h
  · next digits hstrip =>
    obtain ⟨m, hparse, -⟩ := Option.map_eq_some_iff.mp h
    exact ⟨['-'], digits, stripStart_eq_some_iff.mp hstrip, Or.inr rfl, hdigits hparse⟩
  · obtain ⟨m, hparse, -⟩ := Option.map_eq_some_iff.mp h
    exact ⟨[], text, rfl, Or.inl rfl, hdigits hparse⟩

theorem yields_bytesNumber {bad : ε} {input rest : List UInt8} {at_ stop : ℕ}
    (hpos : bytesPos input at_ rest) (hstop : at_ ≤ stop ∧ stop ≤ input.length) :
    Yields (bytesPos input) (bytesNumber bad input at_ stop) fun n rest' =>
      ∃ text, parseI64 text = some n ∧ rest = bytes text ++ rest' := by
  obtain ⟨before, rfl, rfl⟩ := hpos
  rw [length_append] at hstop
  have hrange : rangeOf (before ++ rest) before.length stop =
      some (rest.take (stop - before.length)) := by
    rw [rangeOf, if_pos (by rw [length_append]; omega), drop_left]
  rw [bytesNumber, hrange]
  dsimp only
  cases hparse : (fromUtf8 (rest.take (stop - before.length))).bind parseI64 with
  | none => exact Yields.refused
  | some n =>
      obtain ⟨text, htext, hn⟩ := Option.bind_eq_some_iff.mp hparse
      have hfield := fromUtf8_eq_some_iff.mp htext
      refine Yields.ok ⟨before ++ rest.take (stop - before.length), ?_, ?_⟩
        ⟨text, hn, by rw [hfield, take_append_drop]⟩
      · rw [append_assoc, take_append_drop]
      · rw [length_append, length_take]
        omega

theorem reaches_bytesNumber {bad : ε} {input : List UInt8} {at_ : ℕ} {text rest : Str} {n : ℤ}
    (hn : parseI64 text = some n) (hpos : bytesPos input at_ (bytes (text ++ rest))) :
    Reaches (bytesPos input) (bytesNumber bad input at_ (at_ + byteLen text)) n (bytes rest) := by
  rw [bytes_append] at hpos
  have hnext := bytesPos_advances hpos
  obtain ⟨before, rfl, rfl⟩ := hpos
  have hrange : rangeOf (before ++ (bytes text ++ bytes rest)) before.length
      (before.length + byteLen text) = some (bytes text) :=
    (located_intro before (bytes text) (bytes rest)).rangeOf_eq (by rw [length_bytes])
  rw [bytesNumber, hrange]
  dsimp only
  rw [fromUtf8_bytes, Option.bind_some, hn]
  exact Reaches.ok hnext

/-! ## Literals -/

theorem readsWord_bytesLiteral {bad : ε} {input : List UInt8} :
    ReadsWord (bytesPos input) (bytesLiteral bad input) where
  yields hpos := by
    rw [bytesLiteral, sliceBytes_eq hpos, ok_bind]
    refine yields_failIf_bind fun hword => ?_
    obtain ⟨rest', rfl⟩ := not_not.mp hword
    exact Yields.ok (length_bytes _ ▸ bytesPos_advances hpos) ⟨rfl, rfl⟩
  reaches hpos := by
    rw [bytes_append] at hpos
    rw [bytesLiteral, sliceBytes_eq hpos, ok_bind,
      failIf_bind_eq (not_not.mpr (prefix_append _ _))]
    exact Reaches.ok (length_bytes _ ▸ bytesPos_advances hpos)

/-! ## Strings -/

/-- The bytes of a string before they are checked to be a text, and what they decode to. -/
inductive Raw (D : Dialect) : List UInt8 → List UInt8 → Prop
  | nil : Raw D [] []
  | byte {byte : UInt8} {raw decoded : List UInt8}
      (hbyte : byte ≠ '"'.toUInt8 ∧ byte ≠ '\\'.toUInt8 ∧ ¬ byte < 0x20)
      (hrest : Raw D raw decoded) : Raw D (byte :: raw) (byte :: decoded)
  | escape {word : Str} {c : Char} {raw decoded : List UInt8} (hword : D.escape word c)
      (hrest : Raw D raw decoded) :
      Raw D ('\\'.toUInt8 :: (bytes word ++ raw)) (String.utf8EncodeChar c ++ decoded)

variable {D : Dialect}

/-- Continuation bytes in what is decoded were in the string: an escape starts a character. -/
theorem Raw.continuation {conts raw decoded : List UInt8}
    (hconts : ∀ byte ∈ conts, isContinuation byte = true)
    (h : Raw D raw (conts ++ decoded)) : ∃ raw', raw = conts ++ raw' ∧ Raw D raw' decoded := by
  induction conts generalizing raw with
  | nil => exact ⟨raw, rfl, h⟩
  | cons cont conts ih =>
      rw [forall_mem_cons] at hconts
      generalize hwhole : cont :: conts ++ decoded = whole at h
      cases h with
      | nil => cases hwhole
      | byte hbyte hrest =>
          obtain ⟨rfl, rfl⟩ := List.cons.inj hwhole
          obtain ⟨raw', rfl, hraw'⟩ := ih hconts.2 hrest
          exact ⟨raw', rfl, hraw'⟩
      | @escape word c raw decoded' hword hrest =>
          obtain ⟨first, tail, hencode, hfirst, -⟩ := encode_eq_cons c
          rw [hencode] at hwhole
          obtain ⟨rfl, -⟩ := List.cons.inj hwhole
          exact absurd (hfirst.symm.trans hconts.1) Bool.false_ne_true

/-- When what is decoded is a text, the string was one, piece by piece. -/
theorem Raw.body {raw : List UInt8} {s : Str} (h : Raw D raw (bytes s)) :
    ∃ body, raw = bytes body ∧ D.Body body s := by
  induction s generalizing raw with
  | nil =>
      generalize hwhole : bytes [] = whole at h
      cases h with
      | nil => exact ⟨[], rfl, .nil⟩
      | byte _ _ => cases hwhole
      | @escape word c raw decoded hword hrest =>
          obtain ⟨first, tail, hencode, -, -⟩ := encode_eq_cons c
          rw [hencode] at hwhole
          cases hwhole
  | cons d s ih =>
      rw [bytes_cons] at h
      generalize hwhole : String.utf8EncodeChar d ++ bytes s = whole at h
      cases h with
      | nil =>
          obtain ⟨first, tail, hencode, -, -⟩ := encode_eq_cons d
          rw [hencode] at hwhole
          cases hwhole
      | @escape word c raw decoded hword hrest =>
          obtain ⟨rfl, rfl⟩ := encode_append_inj hwhole
          obtain ⟨body, rfl, hbody⟩ := ih hrest
          refine ⟨'\\' :: (word ++ body), ?_, .escape hword hbody⟩
          rw [bytes_cons, encode_ascii (by decide), bytes_append]
          rfl
      | @byte byte raw decoded hbyte hrest =>
          obtain ⟨first, conts, hencode, -, hconts⟩ := encode_eq_cons d
          rw [hencode] at hwhole
          obtain ⟨rfl, rfl⟩ := List.cons.inj hwhole
          obtain ⟨raw', rfl, hraw'⟩ := Raw.continuation hconts hrest
          obtain ⟨body, rfl, hbody⟩ := ih hraw'
          refine ⟨d :: body, by rw [bytes_cons, hencode]; rfl, .plain ?_ hbody⟩
          have hchar {c : Char} (hc : c.toNat < 128) (hne : first ≠ c.toUInt8) : d ≠ c := by
            rintro rfl
            rw [encode_ascii hc] at hencode
            exact hne (List.cons.inj hencode).1.symm
          refine ⟨hchar (by decide) hbyte.1, hchar (by decide) hbyte.2.1, ?_⟩
          by_contra hlow
          have hd : d.toNat < 128 := by omega
          rw [encode_ascii hd] at hencode
          obtain rfl := (List.cons.inj hencode).1
          have hlt : d.toUInt8.toNat < 32 := by rw [toNat_toUInt8 hd]; omega
          exact hbyte.2.2 (UInt8.lt_iff_toNat_lt.mpr hlt)

/-- The bytes of a string body decode to the bytes of its text. -/
theorem raw_of_body {body s : Str} (h : D.Body body s) : Raw D (bytes body) (bytes s) := by
  induction h with
  | nil => exact .nil
  | @plain c body s hc _ ih =>
      rw [bytes_cons, bytes_cons]
      have hplain : ∀ byte ∈ String.utf8EncodeChar c,
          byte ≠ '"'.toUInt8 ∧ byte ≠ '\\'.toUInt8 ∧ ¬ byte < 0x20 := by
        intro byte hbyte
        by_cases hascii : c.toNat < 128
        · rw [encode_ascii hascii] at hbyte
          obtain rfl := mem_singleton.mp hbyte
          refine ⟨fun heq => hc.1 (ascii_toUInt8_inj hascii (by decide) heq),
            fun heq => hc.2.1 (ascii_toUInt8_inj hascii (by decide) heq), fun hlt => ?_⟩
          have hlt' := UInt8.lt_iff_toNat_lt.mp hlt
          rw [toNat_toUInt8 hascii] at hlt'
          exact absurd hc.2.2 (Nat.not_le_of_lt hlt')
        · have hle := le_of_mem_encode (Nat.le_of_not_lt hascii) hbyte
          refine ⟨?_, ?_, fun hlt => ?_⟩
          · rintro rfl
            exact absurd hle (by decide)
          · rintro rfl
            exact absurd hle (by decide)
          · have hlt' : byte.toNat < 32 := UInt8.lt_iff_toNat_lt.mp hlt
            omega
      generalize String.utf8EncodeChar c = encoded at hplain
      induction encoded with
      | nil => exact ih
      | cons byte encoded ihe =>
          rw [forall_mem_cons] at hplain
          exact .byte hplain.1 (ihe hplain.2)
  | @escape word body s c hword _ ih =>
      rw [bytes_cons, bytes_cons, encode_ascii (by decide), bytes_append]
      exact .escape hword ih

/-- An escape reader follows the escapes of a dialect. -/
structure ReadsEscape (pos : ℕ → List UInt8 → Prop) (escape : ℕ → Checked ε (Char × ℕ))
    (D : Dialect) : Prop where
  yields : ∀ {at_ rest}, pos at_ rest → Yields pos (escape at_)
    fun c rest' => ∃ word, D.escape word c ∧ rest = bytes word ++ rest'
  reaches : ∀ {at_ word c rest}, D.escape word c → pos at_ (bytes word ++ rest) →
    Reaches pos (escape at_) c rest

section Strings

variable {bad : ε} {input : List UInt8} {escape : ℕ → Checked ε (Char × ℕ)}
  (hescape : ReadsEscape (bytesPos input) escape D)
include hescape

theorem yields_bytesLoop {rounds at_ : ℕ} {out rest : List UInt8} (hpos : bytesPos input at_ rest)
    (hrounds : rest.length < rounds) :
    Yields (bytesPos input) (bytesLoop bad input escape rounds out at_) fun s rest' =>
      ∃ raw decoded, Raw D raw decoded ∧ rest = raw ++ '"'.toUInt8 :: rest' ∧
        bytes s = out ++ decoded := by
  induction rounds generalizing at_ out rest with
  | zero => exact absurd hrounds (Nat.not_lt_zero _)
  | succ rounds ih =>
      rw [bytesLoop, bytesPos_head hpos]
      cases rest with
      | nil => exact Yields.refused
      | cons byte tail =>
          rw [getElem?_cons_zero]
          dsimp only
          split
          · next hquote =>
            split
            · next s hs =>
              refine Yields.ok (bytesPos_succ hpos) ⟨[], [], .nil, by rw [hquote]; rfl, ?_⟩
              rw [fromUtf8_eq_some_iff.mp hs, append_nil]
            · exact Yields.refused
          split
          · next hback =>
            refine (hescape.yields (bytesPos_succ hpos)).bind ?_
            rintro c at₁ rest₁ hpos₁ ⟨word, hword, rfl⟩
            have hlt : rest₁.length < rounds := by
              rw [length_cons, length_append] at hrounds
              omega
            refine (ih hpos₁ hlt).mono ?_
            rintro s rest₂ ⟨raw, decoded, hraw, rfl, hs⟩
            refine ⟨_, _, .escape hword hraw, by rw [hback]; simp, ?_⟩
            rw [hs, append_assoc]
          split
          · exact Yields.refused
          · next hquote hback hlow =>
            have hlt : tail.length < rounds := by
              rw [length_cons] at hrounds
              omega
            refine (ih (bytesPos_succ hpos) hlt).mono ?_
            rintro s rest₂ ⟨raw, decoded, hraw, rfl, hs⟩
            refine ⟨_, _, .byte ⟨hquote, hback, hlow⟩ hraw, rfl, ?_⟩
            rw [hs, append_assoc]
            rfl

theorem reaches_bytesLoop {rounds at_ : ℕ} {out raw decoded rest : List UInt8} {s : Str}
    (hraw : Raw D raw decoded) (hs : bytes s = out ++ decoded)
    (hpos : bytesPos input at_ (raw ++ '"'.toUInt8 :: rest))
    (hrounds : raw.length < rounds) :
    Reaches (bytesPos input) (bytesLoop bad input escape rounds out at_) s rest := by
  induction hraw generalizing rounds at_ out with
  | nil =>
      obtain ⟨rounds, rfl⟩ := exists_round hrounds
      rw [append_nil] at hs
      rw [bytesLoop, bytesPos_head hpos, nil_append, getElem?_cons_zero]
      dsimp only
      rw [if_pos rfl, ← hs, fromUtf8_bytes]
      exact Reaches.ok (bytesPos_succ hpos)
  | @byte byte raw decoded hbyte _ ih =>
      obtain ⟨rounds, rfl⟩ := exists_round hrounds
      rw [bytesLoop, bytesPos_head hpos, cons_append, getElem?_cons_zero]
      dsimp only
      rw [if_neg hbyte.1, if_neg hbyte.2.1, if_neg hbyte.2.2]
      rw [length_cons] at hrounds
      exact ih (by rw [hs, append_assoc]; rfl) (bytesPos_succ hpos) (by omega)
  | @escape word c raw decoded hword _ ih =>
      obtain ⟨rounds, rfl⟩ := exists_round hrounds
      rw [bytesLoop, bytesPos_head hpos, cons_append, getElem?_cons_zero]
      dsimp only
      rw [if_neg (by decide), if_pos rfl]
      rw [cons_append, append_assoc] at hpos
      refine (hescape.reaches hword (bytesPos_succ hpos)).bind fun at₁ hpos₁ => ?_
      rw [length_cons, length_append] at hrounds
      exact ih (by rw [hs, append_assoc]) hpos₁ (by omega)

theorem yields_bytesString {at_ : ℕ} {rest : List UInt8} (hpos : bytesPos input at_ rest) :
    Yields (bytesPos input) (bytesString bad input escape at_) fun s rest' =>
      ∃ body, D.Body body s ∧ rest = bytes (quoted body) ++ rest' := by
  refine (yields_expectByte (walks_bytes input) (by decide) hpos).bind ?_
  rintro ⟨⟩ at₁ rest₁ hpos₁ rfl
  have hlt : rest₁.length < input.length + 1 := by
    obtain ⟨before, rfl, -⟩ := hpos₁
    rw [length_append]
    omega
  refine (yields_bytesLoop hescape hpos₁ hlt).mono ?_
  rintro s rest₂ ⟨raw, decoded, hraw, rfl, hs⟩
  obtain ⟨body, rfl, hbody⟩ := Raw.body ((hs.trans (nil_append _)).symm ▸ hraw)
  refine ⟨body, hbody, ?_⟩
  simp [quoted, encode_ascii (c := '"') (by decide)]

theorem reaches_bytesString {at_ : ℕ} {body s rest : Str} (hbody : D.Body body s)
    (hpos : bytesPos input at_ (bytes (quoted body ++ rest))) :
    Reaches (bytesPos input) (bytesString bad input escape at_) s (bytes rest) := by
  rw [quoted, cons_append] at hpos
  refine (reaches_expectByte (walks_bytes input) (by decide) hpos).bind fun at₁ hpos₁ => ?_
  rw [append_assoc, bytes_append, singleton_append, bytes_cons,
    encode_ascii (by decide)] at hpos₁
  refine reaches_bytesLoop hescape (raw_of_body hbody) (nil_append _).symm hpos₁ ?_
  obtain ⟨before, rfl, -⟩ := hpos₁
  rw [length_append, length_append]
  omega

end Strings

/-! ## Escapes -/

/-- A table of escapes knows ASCII characters only, and not the `u`. -/
structure Tabled (table : Char → Option Char) : Prop where
  ascii : ∀ {escaped c}, table escaped = some c → escaped.toNat < 128
  unicode : table 'u' = none

theorem tabled_simpleEscape : Tabled simpleEscape where
  ascii := by
    intro escaped c h
    unfold simpleEscape at h
    split_ifs at h <;> subst_vars <;> decide
  unicode := rfl

theorem tabled_slashEscape : Tabled slashEscape where
  ascii := by
    intro escaped c h
    unfold slashEscape at h
    split_ifs at h with hslash
    · rw [hslash]
      decide
    · exact tabled_simpleEscape.ascii h
  unicode := rfl

/-- A reader of the digits of an escape. -/
structure ReadsUnicode (pos : ℕ → List UInt8 → Prop) (unicode : ℕ → Checked ε (Char × ℕ))
    (accepts : Str → Char → Prop) : Prop where
  yields : ∀ {at_ rest}, pos at_ rest → Yields pos (unicode at_) fun c rest' =>
    ∃ digits, digits.length = 4 ∧ accepts digits c ∧ rest = bytes digits ++ rest'
  reaches : ∀ {at_ digits c rest}, digits.length = 4 → accepts digits c →
    pos at_ (bytes digits ++ rest) → Reaches pos (unicode at_) c rest

theorem ofNat_toNat_toUInt8 {c : Char} (hc : c.toNat < 128) :
    Char.ofNat c.toUInt8.toNat = c := by
  rw [toNat_toUInt8 hc, Char.ofNat_toNat]

theorem toUInt8_ofNat {byte : UInt8} (h : (Char.ofNat byte.toNat).toNat < 128) :
    (Char.ofNat byte.toNat).toUInt8 = byte := by
  have hvalid : byte.toNat.isValidChar := Or.inl (lt_trans byte.toNat_lt (by decide))
  have hnat : (Char.ofNat byte.toNat).toNat = byte.toNat := by
    rw [Char.ofNat, dif_pos hvalid]
    rfl
  rw [← UInt8.toNat_inj, toNat_toUInt8 h, hnat]

theorem readsEscape_byteEscape {bad : ε} {input : List UInt8} {pos : ℕ → List UInt8 → Prop}
    (h : Walks input pos) {table : Char → Option Char} (htable : Tabled table)
    {unicode : ℕ → Checked ε (Char × ℕ)} {accepts : Str → Char → Prop}
    (hunicode : ReadsUnicode pos unicode accepts)
    (hD : ∀ word c, D.escape word c ↔ SimpleWord table word c ∨ UnicodeWord accepts word c) :
    ReadsEscape pos (byteEscape bad input table unicode) D where
  yields := by
    intro at_ rest hpos
    rw [byteEscape, h.getElem? hpos]
    cases rest with
    | nil => exact Yields.refused
    | cons byte rest =>
        rw [getElem?_cons_zero]
        dsimp only
        split
        · next hu =>
          subst hu
          refine (hunicode.yields (h.ascii (by decide) hpos)).mono ?_
          rintro c rest' ⟨digits, hlength, haccepts, rfl⟩
          refine ⟨'u' :: digits, (hD _ _).mpr (Or.inr ⟨digits, rfl, hlength, haccepts⟩), ?_⟩
          rw [bytes_cons, encode_ascii (by decide)]
          rfl
        · split
          · next c htab =>
            have hascii := htable.ascii htab
            have hbyte := toUInt8_ofNat hascii
            rw [← hbyte] at hpos
            refine Yields.ok (h.ascii hascii hpos)
              ⟨[_], (hD _ _).mpr (Or.inl ⟨_, rfl, htab⟩), ?_⟩
            rw [bytes_cons, encode_ascii hascii, hbyte]
            rfl
          · exact Yields.refused
  reaches := by
    intro at_ word c rest hword hpos
    rcases (hD _ _).mp hword with ⟨escaped, rfl, htab⟩ | ⟨digits, rfl, hlength, haccepts⟩
    · have hascii := htable.ascii htab
      rw [bytes_cons, encode_ascii hascii] at hpos
      have hne : escaped.toUInt8 ≠ 'u'.toUInt8 := by
        intro heq
        obtain rfl := ascii_toUInt8_inj hascii (by decide) heq
        exact (nomatch htable.unicode.symm.trans htab)
      rw [byteEscape, h.getElem? hpos, append_assoc, singleton_append,
        getElem?_cons_zero]
      dsimp only
      rw [if_neg hne, ofNat_toNat_toUInt8 hascii, htab]
      exact Reaches.ok (h.ascii hascii hpos)
    · rw [bytes_cons, encode_ascii (by decide)] at hpos
      rw [byteEscape, h.getElem? hpos, append_assoc, singleton_append,
        getElem?_cons_zero]
      exact hunicode.reaches hlength haccepts (h.ascii (by decide) hpos)

theorem isHexByte_toUInt8 {c : Char} (hc : c.toNat < 128) :
    isHexByte c.toUInt8 = isHexDigit c := by
  have hbyte : c.toUInt8.toNat = c.val.toNat := toNat_toUInt8 hc
  rw [isHexByte, isDigitByte, isHexDigit, Bool.eq_iff_iff]
  simp only [Bool.or_eq_true, Bool.and_eq_true, decide_eq_true_eq, UInt8.le_iff_toNat_le, hbyte,
    Char.le_def, UInt32.le_iff_toNat_le]
  exact Iff.rfl

end Bran.Document.Json
