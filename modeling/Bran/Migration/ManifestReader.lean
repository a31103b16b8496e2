import Bran.Document.JsonLaws
import Bran.Migration.ManifestGrammar

/-!
# What the manifest parser accepts

The parser never reads past its input, and what it accepts is a manifest of the pieces that it
reads.
-/

namespace Bran.Migration

open Text CharCode Validation Words Scanner Document.Json JsonSyntax List Utf8

variable {α σ : Type} {input rest : List UInt8} {at_ : ℕ}

variable {byte : UInt8} {w : List UInt8} {digits : Str}

/-! ## Blanks and single bytes -/

/-- A blank that the parser skips. -/
def Blank (w : List UInt8) : Prop := ∀ byte ∈ w, isAsciiWhitespace byte = true

/-- No blank stands here. -/
def Solid (rest : List UInt8) : Prop := ∀ byte, rest[0]? = some byte → isAsciiWhitespace byte = false

theorem solid_nil : Solid [] := fun _ h => (nomatch h)

theorem solid_cons (h : isAsciiWhitespace byte = false) : Solid (byte :: rest) := by
  intro first hfirst
  obtain rfl : byte = first := by simpa using hfirst
  exact h

theorem skipWs_spec (hpos : bytesPos input at_ rest) :
    ∃ w rest', rest = w ++ rest' ∧ Blank w ∧ Solid rest' ∧ bytesPos input (skipWs input at_) rest' := by
  obtain ⟨w, rest', hrest, hw, hsolid, -, hpos'⟩ := bytesPos_runOf isAsciiWhitespace hpos
  exact ⟨w, rest', hrest, hw, hsolid, hpos'⟩

theorem skipWs_eq (hw : Blank w) (hsolid : Solid rest) (hpos : bytesPos input at_ (w ++ rest)) :
    bytesPos input (skipWs input at_) rest := by
  rw [skipWs, runOf_eq hpos hw hsolid]
  exact bytesPos_append hpos

/-- Behind the blanks there are no more blanks. -/
theorem skipWs_skipWs (hpos : bytesPos input at_ rest) :
    skipWs input (skipWs input at_) = skipWs input at_ := by
  obtain ⟨w, rest', rfl, -, hsolid, hpos'⟩ := skipWs_spec hpos
  have hnone : bytesPos input (skipWs input at_) ([] ++ rest') := hpos'
  exact runOf_eq hnone (fun _ h => absurd h not_mem_nil) hsolid

theorem Blank.nil : Blank [] := fun _ h => absurd h not_mem_nil

theorem Blank.append {w' : List UInt8} (hw : Blank w) (hw' : Blank w') : Blank (w ++ w') := by
  intro byte hbyte
  rcases mem_append.mp hbyte with h | h
  · exact hw byte h
  · exact hw' byte h

/-- A blank that no blank follows is empty where no blank stands. -/
theorem Solid.blank (h : Solid (w ++ rest)) (hw : Blank w) : w = [] := by
  cases w with
  | nil => rfl
  | cons byte w =>
      exact absurd ((h byte rfl).symm.trans (hw byte mem_cons_self)) Bool.false_ne_true

theorem byteAt_spec (hpos : bytesPos input at_ rest) (hlength : ¬ input.length ≤ at_) :
    ∃ byte rest', rest = byte :: rest' ∧ byteAt input at_ = .ok byte := by
  cases rest with
  | nil =>
      obtain ⟨before, rfl, rfl⟩ := hpos
      rw [append_nil] at hlength
      exact absurd le_rfl hlength
  | cons byte rest =>
      refine ⟨byte, rest, rfl, ?_⟩
      rw [byteAt, bytesPos_head hpos, getElem?_cons_zero]

theorem byteAt_eq (hpos : bytesPos input at_ (byte :: rest)) :
    byteAt input at_ = .ok byte := by
  rw [byteAt, bytesPos_head hpos, getElem?_cons_zero]

theorem not_length_le (hpos : bytesPos input at_ (byte :: rest)) :
    ¬ input.length ≤ at_ := by
  obtain ⟨before, rfl, rfl⟩ := hpos
  rw [length_append, length_cons]
  omega

theorem yields_expect {c : Char} (hpos : bytesPos input at_ rest) :
    Yields (bytesPos input) (expect input c at_)
      fun _ rest' => ∃ w, Blank w ∧ rest = w ++ c.toUInt8 :: rest' := by
  obtain ⟨w, rest₁, rfl, hw, -, hpos₁⟩ := skipWs_spec hpos
  rw [expect, bytesPos_head hpos₁]
  refine yields_failIf_bind fun hfirst => ?_
  cases rest₁ with
  | nil => exact absurd nofun hfirst
  | cons byte rest₁ =>
      obtain rfl : byte = c.toUInt8 := by simpa using hfirst
      exact Yields.ok (bytesPos_succ hpos₁) ⟨w, hw, rfl⟩

theorem reaches_expect {c : Char} (hw : Blank w) (hc : isAsciiWhitespace c.toUInt8 = false)
    (hpos : bytesPos input at_ (w ++ c.toUInt8 :: rest)) :
    Reaches (bytesPos input) (expect input c at_) () rest := by
  have hpos₁ := skipWs_eq hw (solid_cons hc) hpos
  rw [expect, bytesPos_head hpos₁, failIf_bind_eq (not_not.mpr getElem?_cons_zero)]
  exact Reaches.ok (bytesPos_succ hpos₁)

/-! ## Strings -/

theorem length_of_fromStrRadix {code : ℕ} (h : fromStrRadix digits = some code) :
    (bytes digits).length = digits.length := by
  rw [length_bytes, byteLen_ascii (ascii_of_fromStrRadix h)]

theorem yields_parseHexU32 (hpos : bytesPos input at_ rest) :
    Yields (bytesPos input) (parseHexU32 input at_) fun code rest' =>
      ∃ digits, digits.length = 4 ∧ RadixNumber digits code ∧ rest = bytes digits ++ rest' := by
  rw [parseHexU32]
  refine yields_failIf_bind fun hlength => ?_
  cases hfour : fourBytes input at_ with
  | none =>
      rw [fourBytes, rangeOf, if_pos ⟨Nat.le_add_right _ _, Nat.le_of_not_lt hlength⟩] at hfour
      cases hfour
  | some field =>
      obtain ⟨rest', rfl, hfield, hpos'⟩ := fourBytes_eq_some hpos hfour
      dsimp only
      split
      · next code hcode =>
        obtain ⟨digits, htext, hradix⟩ := Option.bind_eq_some_iff.mp hcode
        obtain rfl := fromUtf8_eq_some_iff.mp htext
        rw [length_of_fromStrRadix hradix] at hfield
        exact Yields.ok hpos' ⟨digits, hfield, hradix, rfl⟩
      · exact Yields.refused

theorem reaches_parseHexU32 {code : ℕ} (hdigits : digits.length = 4)
    (hcode : RadixNumber digits code) (hpos : bytesPos input at_ (bytes digits ++ rest)) :
    Reaches (bytesPos input) (parseHexU32 input at_) code rest := by
  have hlength : (bytes digits).length = 4 := (length_of_fromStrRadix hcode).trans hdigits
  obtain ⟨hfour, hpos'⟩ := fourBytes_eq hlength hpos
  have hroom : ¬ input.length < at_ + 4 := by
    obtain ⟨before, rfl, rfl⟩ := hpos
    rw [length_append, length_append, hlength]
    omega
  rw [parseHexU32, failIf_bind_eq hroom, hfour]
  dsimp only
  rw [fromUtf8_bytes, Option.bind_some, hcode]
  exact Reaches.ok hpos'

theorem yields_codePoint {code : ℕ} (hpos : bytesPos input at_ rest) :
    Yields (bytesPos input) (codePoint code at_)
      fun c rest' => fromU32 code = some c ∧ rest = rest' := by
  rw [codePoint]
  split
  · next c hc => exact Yields.ok hpos ⟨hc, rfl⟩
  · exact Yields.refused

theorem reaches_codePoint {code : ℕ} {c : Char} (hc : fromU32 code = some c)
    (hpos : bytesPos input at_ rest) :
    Reaches (bytesPos input) (codePoint code at_) c rest := by
  rw [codePoint, hc]
  exact Reaches.ok hpos

theorem bytes_pair {high low : Str} : bytes (high ++ '\\' :: 'u' :: low) =
    bytes high ++ '\\'.toUInt8 :: 'u'.toUInt8 :: bytes low := by
  rw [bytes_append, bytes_cons_ascii (by decide), bytes_cons_ascii (by decide)]

theorem yields_decodeUEscape (hpos : bytesPos input at_ rest) :
    Yields (bytesPos input) (decodeUEscape input at_) fun c rest' =>
      ∃ word, UnicodeEscape RadixNumber word c ∧ 'u'.toUInt8 :: rest = bytes word ++ rest' := by
  refine (yields_parseHexU32 hpos).bind ?_
  rintro cp at₁ rest₁ hpos₁ ⟨high, hhigh, hcp, rfl⟩
  dsimp only
  split
  · next hfirst =>
    split
    · next hword =>
      rw [bytesPos_head hpos₁, bytesPos_getElem? hpos₁] at hword
      obtain ⟨rest₂, rfl⟩ : ∃ rest₂, rest₁ = '\\'.toUInt8 :: 'u'.toUInt8 :: rest₂ := by
        cases rest₁ with
        | nil => cases hword.1
        | cons byte rest₁ =>
            cases rest₁ with
            | nil => cases hword.2
            | cons byte' rest₁ =>
                simp only [getElem?_cons_zero, getElem?_cons_succ,
                  Option.some.injEq] at hword
                exact ⟨rest₁, by rw [hword.1, hword.2]⟩
      have hpos₂ := bytesPos_succ (bytesPos_succ hpos₁)
      refine (yields_parseHexU32 hpos₂).bind ?_
      rintro low at₃ rest₃ hpos₃ ⟨digits, hlow, hcode, rfl⟩
      refine yields_failIf_bind fun hsecond => ?_
      refine (yields_codePoint hpos₃).mono ?_
      rintro c rest' ⟨hc, rfl⟩
      refine ⟨_, .pair hhigh hlow hcp hcode ⟨hfirst, not_not.mp hsecond⟩ hc, ?_⟩
      rw [bytes_cons_ascii (by decide), bytes_pair]
      simp
    · exact Yields.refused
  split
  · exact Yields.refused
  · refine (yields_codePoint hpos₁).mono ?_
    rintro c rest' ⟨hc, rfl⟩
    exact ⟨_, .single hhigh hcp hc, by rw [bytes_cons_ascii (by decide)]; rfl⟩

/-- A code point that is a character is no surrogate. -/
theorem not_surrogate {code : ℕ} {c : Char} (h : fromU32 code = some c) :
    ¬ isHighSurrogate code ∧ ¬ isLowSurrogate code := by
  rw [fromU32] at h
  split at h
  · next hvalid =>
    rcases hvalid with hlt | hgt
    · exact ⟨fun hhigh => absurd hhigh.1 (Nat.not_le_of_lt hlt),
        fun hlow => absurd (le_trans (by decide) hlow.1) (Nat.not_le_of_lt hlt)⟩
    · have hle : 0xDFFF < code := hgt.1
      exact ⟨fun hhigh => absurd (lt_of_lt_of_le hle (le_trans hhigh.2 (by decide))) (lt_irrefl _),
        fun hlow => absurd (lt_of_lt_of_le hle hlow.2) (lt_irrefl _)⟩
  · cases h

theorem reaches_decodeUEscape {word : Str} {c : Char} (hword : UnicodeEscape RadixNumber ('u' :: word) c)
    (hpos : bytesPos input at_ (bytes word ++ rest)) :
    Reaches (bytesPos input) (decodeUEscape input at_) c rest := by
  generalize hwhole : 'u' :: word = whole at hword
  cases hword with
  | @single digits code c hlength hnumber hc =>
      obtain rfl := (List.cons.inj hwhole).2
      have hcode := not_surrogate hc
      refine (reaches_parseHexU32 hlength hnumber hpos).bind fun at₁ hpos₁ => ?_
      dsimp only
      rw [if_neg hcode.1, if_neg hcode.2]
      exact reaches_codePoint hc hpos₁
  | @pair high low first second c hhigh hlow hfirst hsecond hpair hc =>
      obtain rfl := (List.cons.inj hwhole).2
      have hbytes : bytes (high ++ '\\' :: 'u' :: low) ++ rest =
          bytes high ++ '\\'.toUInt8 :: 'u'.toUInt8 :: (bytes low ++ rest) := by
        rw [bytes_pair]
        simp
      rw [hbytes] at hpos
      refine (reaches_parseHexU32 hhigh hfirst hpos).bind fun at₁ hpos₁ => ?_
      dsimp only
      rw [if_pos hpair.1, bytesPos_head hpos₁, bytesPos_getElem? hpos₁, if_pos ⟨rfl, rfl⟩]
      have hpos₂ := bytesPos_succ (bytesPos_succ hpos₁)
      refine (reaches_parseHexU32 hlow hsecond hpos₂).bind fun at₃ hpos₃ => ?_
      dsimp only
      rw [failIf_bind_eq (not_not.mpr hpair.2)]
      exact reaches_codePoint hc hpos₃

theorem readsEscape_escape :
    ReadsEscape (bytesPos input) (escape input) (manifestDialect RadixNumber) where
  yields := by
    intro at_ rest hpos
    rw [escape]
    refine yields_failIf_bind fun hlength => ?_
    obtain ⟨byte, rest, rfl, hbyte⟩ := byteAt_spec hpos hlength
    rw [hbyte, ok_bind]
    split
    · next hu =>
      subst hu
      refine (yields_decodeUEscape (bytesPos_succ hpos)).mono ?_
      rintro c rest' ⟨word, hword, hrest⟩
      exact ⟨word, Or.inr hword, hrest⟩
    · split
      · next c htab =>
        have hascii := tabled_slashEscape.ascii htab
        refine Yields.ok (bytesPos_succ hpos) ⟨[_], Or.inl ⟨_, rfl, htab⟩, ?_⟩
        rw [bytes_cons_ascii hascii, toUInt8_ofNat hascii]
        rfl
      · exact Yields.refused
  reaches := by
    intro at_ word c rest hword hpos
    have hstart {first : Char} {tail : List UInt8} (hascii : first.toNat < 128)
        (hpos : bytesPos input at_ (first.toUInt8 :: tail)) : escape input at_ =
          if first.toUInt8 = 'u'.toUInt8 then decodeUEscape input (at_ + 1)
          else (slashEscape first).elim (.error (err "invalid escape")) fun c => .ok (c, at_ + 1) := by
      rw [escape, failIf_bind_eq (not_length_le hpos), byteAt_eq hpos, ok_bind,
        ofNat_toNat_toUInt8 hascii]
      cases slashEscape first <;> rfl
    rcases hword with ⟨escaped, rfl, htab⟩ | hword
    · have hascii := tabled_slashEscape.ascii htab
      rw [bytes_cons_ascii hascii] at hpos
      have hne : escaped.toUInt8 ≠ 'u'.toUInt8 := by
        intro heq
        obtain rfl := ascii_toUInt8_inj hascii (by decide) heq
        cases tabled_slashEscape.unicode.symm.trans htab
      rw [hstart hascii hpos, if_neg hne, htab]
      exact Reaches.ok (bytesPos_succ hpos)
    · obtain ⟨tail, rfl⟩ : ∃ tail, word = 'u' :: tail := by
        cases hword with
        | single | pair => exact ⟨_, rfl⟩
      rw [bytes_cons_ascii (by decide)] at hpos
      rw [hstart (by decide : 'u'.toNat < 128) hpos, if_pos rfl]
      exact reaches_decodeUEscape hword (bytesPos_succ hpos)

/-- The loop of `parse_string` is the one that the adapters have, but for the texts of its
errors. -/
theorem forget_stringLoop {rounds : ℕ} {buf : List UInt8} :
    forget (stringLoop input rounds buf at_) =
      bytesLoop () input (fun at_ => forget (escape input at_)) rounds buf at_ := by
  induction rounds generalizing buf at_ with
  | zero => rfl
  | succ rounds ih =>
      rw [stringLoop, bytesLoop]
      cases hbyte : input[at_]? with
      | none =>
          rw [failIf, if_pos (List.getElem?_eq_none_iff.mp hbyte)]
          rfl
      | some byte =>
          have hlength : ¬ input.length ≤ at_ :=
            Nat.not_le_of_lt (List.getElem?_eq_some_iff.mp hbyte).1
          rw [failIf_bind_eq hlength, byteAt, hbyte]
          dsimp only
          rw [ok_bind]
          by_cases hquote : byte = '"'.toUInt8
          · rw [if_pos hquote, if_pos hquote]
            cases fromUtf8 buf <;> rfl
          rw [if_neg hquote, if_neg hquote]
          by_cases hback : byte = '\\'.toUInt8
          · subst hback
            rw [if_neg (by decide), if_pos rfl, if_pos rfl, forget_bind]
            congr 1
            funext result
            exact ih
          rw [if_neg hback]
          by_cases hlow : byte < 0x20
          · rw [if_pos hlow, if_neg hback, if_pos hlow]
            rfl
          · rw [if_neg hlow, if_neg hback, if_neg hlow]
            exact ih

theorem readsEscape_forget :
    ReadsEscape (bytesPos input) (fun at_ => forget (escape input at_))
      (manifestDialect RadixNumber) where
  yields hpos := (readsEscape_escape.yields hpos).forget
  reaches hword hpos := (readsEscape_escape.reaches hword hpos).forget

theorem length_lt_of_bytesPos (hpos : bytesPos input at_ rest) : rest.length < input.length + 1 := by
  obtain ⟨before, rfl, -⟩ := hpos
  rw [length_append]
  omega

theorem yields_stringLoop (hpos : bytesPos input at_ rest) :
    Yields (bytesPos input) (stringLoop input (input.length + 1) [] at_) fun value rest' =>
      ∃ body, Decodes body value ∧ rest = bytes body ++ '"'.toUInt8 :: rest' := by
  have hloop := @yields_bytesLoop _ _ () _ _ readsEscape_forget _ _ [] _ hpos
    (length_lt_of_bytesPos hpos)
  rw [← forget_stringLoop] at hloop
  refine (yields_forget hloop).mono ?_
  rintro value rest' ⟨raw, decoded, hraw, rfl, hvalue⟩
  obtain ⟨body, rfl, hbody⟩ := Raw.body ((hvalue.trans (nil_append _)).symm ▸ hraw)
  exact ⟨body, hbody, rfl⟩

theorem reaches_stringLoop {body value : Str} (hbody : Decodes body value)
    (hpos : bytesPos input at_ (bytes body ++ '"'.toUInt8 :: rest)) :
    Reaches (bytesPos input) (stringLoop input (input.length + 1) [] at_) value rest := by
  have hrounds : (bytes body).length < input.length + 1 := by
    have hlength := length_lt_of_bytesPos hpos
    rw [length_append] at hlength
    omega
  have hloop := @reaches_bytesLoop _ _ () _ _ readsEscape_forget _ _ [] _ _ _ _ (raw_of_body hbody)
    (nil_append _).symm hpos hrounds
  rw [← forget_stringLoop] at hloop
  exact reaches_forget hloop

theorem yields_parseString (hpos : bytesPos input at_ rest) :
    Yields (bytesPos input) (parseString input at_) fun value rest' =>
      ∃ w body, Blank w ∧ Decodes body value ∧
        rest = w ++ '"'.toUInt8 :: (bytes body ++ '"'.toUInt8 :: rest') := by
  refine (yields_expect hpos).bind ?_
  rintro ⟨⟩ at₁ rest₁ hpos₁ ⟨w, hw, rfl⟩
  refine (yields_stringLoop hpos₁).mono ?_
  rintro value rest' ⟨body, hbody, rfl⟩
  exact ⟨w, body, hw, hbody, rfl⟩

theorem reaches_parseString {body value : Str} (hw : Blank w) (hbody : Decodes body value)
    (hpos : bytesPos input at_ (w ++ '"'.toUInt8 :: (bytes body ++ '"'.toUInt8 :: rest))) :
    Reaches (bytesPos input) (parseString input at_) value rest := by
  exact (reaches_expect hw rfl hpos).bind fun at₁ hpos₁ => reaches_stringLoop hbody hpos₁

/-! ## Numbers -/

theorem rangeOf_run {run : List UInt8} (hpos : bytesPos input at_ (run ++ rest)) :
    rangeOf input at_ (at_ + run.length) = some run := by
  obtain ⟨before, rfl, rfl⟩ := hpos
  exact (located_intro before run rest).rangeOf_eq rfl

/-- Digits that do not start with a zero, unless they are one. -/
theorem whole_of_digits (hne : digits ≠ []) (hdigits : ∀ c ∈ digits, c.isDigit = true)
    (hzero : ¬ (1 < byteLen digits ∧ digits.head? = some '0')) : Whole digits := by
  obtain ⟨d, digits, rfl⟩ := exists_cons_of_ne_nil hne
  obtain ⟨hd, hrest⟩ := forall_mem_cons.mp hdigits
  by_cases hd0 : d = '0'
  · subst hd0
    cases digits with
    | nil => exact .zero
    | cons e digits =>
        refine absurd ⟨?_, rfl⟩ hzero
        rw [byteLen_cons, byteLen_cons]
        have hfirst := ('0' : Char).utf8Size_pos
        have hnext := e.utf8Size_pos
        omega
  · exact .digits ⟨hd, hd0⟩ hrest

theorem yields_parseU64 (hpos : bytesPos input at_ rest) :
    Yields (bytesPos input) (parseU64 input at_) fun n rest' =>
      ∃ w digits, Blank w ∧ Whole digits ∧ parseUnsigned (2 ^ 64) digits = some n ∧
        rest = w ++ (bytes digits ++ rest') := by
  obtain ⟨w, rest₁, rfl, hw, -, hpos₁⟩ := skipWs_spec hpos
  obtain ⟨run, rest₂, rfl, hrun, -, hstop, hpos₂⟩ := bytesPos_runOf isDigitByte hpos₁
  rw [parseU64]
  refine yields_failIf_bind fun hne => ?_
  rw [hstop, rangeOf_run hpos₁]
  rw [hstop] at hne hpos₂
  dsimp only
  split
  · exact Yields.refused
  · next digits hdigits =>
    obtain rfl := fromUtf8_eq_some_iff.mp hdigits
    refine yields_failIf_bind fun hzero => ?_
    split
    · next n hn =>
      refine Yields.ok hpos₂ ⟨w, digits, hw, ?_, hn, rfl⟩
      have hparse := hn
      rw [parseUnsigned] at hparse
      split at hparse
      · next hcond =>
        exact whole_of_digits hcond.1 (all_eq_true.mp hcond.2.1) hzero
      · cases hparse
    · exact Yields.refused

theorem digits_of_whole (h : Whole digits) : ∀ c ∈ digits, c.isDigit = true := by
  cases h with
  | zero => decide
  | digits hd hdigits => exact forall_mem_cons.mpr ⟨hd.1, hdigits⟩

theorem no_zero_of_whole (h : Whole digits) :
    ¬ (1 < byteLen digits ∧ digits.head? = some '0') := by
  cases h with
  | zero => decide
  | digits hd hdigits => exact fun hzero => hd.2 (Option.some.inj hzero.2)

theorem reaches_parseU64 {n : ℕ} (hw : Blank w) (hdigits : Whole digits)
    (hn : parseUnsigned (2 ^ 64) digits = some n)
    (hrest : ∀ byte, rest[0]? = some byte → isDigitByte byte = false)
    (hpos : bytesPos input at_ (w ++ (bytes digits ++ rest))) :
    Reaches (bytesPos input) (parseU64 input at_) n rest := by
  have hrun : ∀ byte ∈ bytes digits, isDigitByte byte = true := by
    rw [bytes_digits (digits_of_whole hdigits)]
    intro byte hbyte
    obtain ⟨c, hc, rfl⟩ := mem_map.mp hbyte
    rw [isDigitByte_toUInt8 (toNat_lt_of_isDigit (digits_of_whole hdigits c hc)),
      digits_of_whole hdigits c hc]
  have hne : bytes digits ≠ [] := by
    cases hdigits with
    | zero => decide
    | digits hd hdigits =>
        rw [bytes_cons_ascii (toNat_lt_of_isDigit hd.1)]
        exact cons_ne_nil _ _
  have hsolid : Solid (bytes digits ++ rest) := by
    intro byte hbyte
    obtain ⟨first, tail, hcons⟩ := exists_cons_of_ne_nil hne
    rw [hcons, cons_append, getElem?_cons_zero] at hbyte
    obtain rfl := Option.some.inj hbyte
    have hdigit := isDigitByte_iff.mp (hrun first (hcons ▸ mem_cons_self))
    by_contra hblank
    rw [Bool.not_eq_false] at hblank
    simp only [isAsciiWhitespace, Bool.or_eq_true, decide_eq_true_eq] at hblank
    rcases hblank with (((rfl | rfl) | rfl) | rfl) | rfl <;> exact absurd hdigit.1 (by decide)
  have hpos₁ := skipWs_eq hw hsolid hpos
  have hpos₂ := bytesPos_append hpos₁
  rw [parseU64, runOf_eq hpos₁ hrun hrest, rangeOf_run hpos₁]
  have hlength : 0 < (bytes digits).length := length_pos_iff.mpr hne
  rw [failIf_bind_eq (by omega)]
  dsimp only
  rw [fromUtf8_bytes]
  dsimp only
  rw [failIf_bind_eq (no_zero_of_whole hdigits), hn]
  exact Reaches.ok hpos₂

/-! ## Skipped values -/

theorem closingQuote_spec {rounds : ℕ} (hpos : bytesPos input at_ rest)
    (hrounds : rest.length < rounds) :
    (∃ body rest' stop, Unquoted body ∧ rest = body ++ '"'.toUInt8 :: rest' ∧
      closingQuote input rounds at_ = .ok ((), stop) ∧ bytesPos input stop rest') ∨
    ∃ stop, closingQuote input rounds at_ = .ok ((), stop) ∧ input.length ≤ stop := by
  induction rounds using Nat.strong_induction_on generalizing at_ rest with
  | _ rounds ih =>
      obtain ⟨rounds, rfl⟩ := exists_round hrounds
      rw [Nat.zero_add] at hrounds ih ⊢
      rw [closingQuote, bytesPos_head hpos]
      cases rest with
      | nil =>
          refine Or.inr ⟨_, rfl, ?_⟩
          obtain ⟨before, rfl, rfl⟩ := hpos
          rw [append_nil]
          omega
      | cons byte rest =>
          rw [getElem?_cons_zero]
          dsimp only
          rw [length_cons] at hrounds
          by_cases hquote : byte = '"'.toUInt8
          · rw [if_pos hquote]
            exact Or.inl ⟨[], rest, _, .nil, by rw [hquote]; rfl, rfl, bytesPos_succ hpos⟩
          rw [if_neg hquote]
          by_cases hback : byte = '\\'.toUInt8
          · subst hback
            rw [if_pos rfl]
            cases rest with
            | nil =>
                -- the byte behind the backslash is past the end
                obtain ⟨rounds, rfl⟩ := Nat.exists_eq_add_of_lt (Nat.lt_of_succ_lt_succ hrounds)
                obtain ⟨before, rfl, rfl⟩ := hpos
                have hnone : (before ++ ['\\'.toUInt8])[before.length + 2]? = none :=
                  getElem?_eq_none (by rw [length_append, length_singleton]; omega)
                refine Or.inr ⟨before.length + 2 + 1, ?_, ?_⟩
                · rw [closingQuote, hnone]
                · rw [length_append, length_singleton]
                  omega
            | cons escaped rest =>
                rw [length_cons] at hrounds
                rcases ih rounds (Nat.lt_succ_self _) (bytesPos_succ (bytesPos_succ hpos)) (by omega)
                  with ⟨body, rest', stop, hbody, rfl, hok, hstop⟩ | hend
                · exact Or.inl ⟨_, rest', stop, .escaped hbody, rfl, hok, hstop⟩
                · exact Or.inr hend
          · rw [if_neg hback]
            rcases ih rounds (Nat.lt_succ_self _) (bytesPos_succ hpos) (by omega)
              with ⟨body, rest', stop, hbody, rfl, hok, hstop⟩ | hend
            · exact Or.inl ⟨_, rest', stop, .byte ⟨hquote, hback⟩ hbody, rfl, hok, hstop⟩
            · exact Or.inr hend

theorem reaches_closingQuote {rounds : ℕ} {body : List UInt8} (hbody : Unquoted body)
    (hpos : bytesPos input at_ (body ++ '"'.toUInt8 :: rest)) (hrounds : body.length < rounds) :
    Reaches (bytesPos input) (closingQuote input rounds at_) () rest := by
  induction hbody generalizing rounds at_ with
  | nil =>
      obtain ⟨rounds, rfl⟩ := exists_round hrounds
      rw [closingQuote, bytesPos_head hpos, nil_append, getElem?_cons_zero]
      exact Reaches.ok (bytesPos_succ hpos)
  | @byte byte body hbyte _ ih =>
      obtain ⟨rounds, rfl⟩ := exists_round hrounds
      rw [length_cons] at hrounds
      rw [closingQuote, bytesPos_head hpos, cons_append, getElem?_cons_zero]
      dsimp only
      rw [if_neg hbyte.1, if_neg hbyte.2]
      exact ih (bytesPos_succ hpos) (by omega)
  | @escaped byte body _ ih =>
      obtain ⟨rounds, rfl⟩ := exists_round hrounds
      rw [length_cons, length_cons] at hrounds
      rw [closingQuote, bytesPos_head hpos, cons_append, getElem?_cons_zero]
      exact ih (bytesPos_succ (bytesPos_succ hpos)) (by omega)

section Brackets

variable {opening closing : Char} {unterminated : String}

/-- Brackets are counted as long as no count leaves a word. -/
theorem yields_nestedLoop {rounds depth : ℕ} (hpos : bytesPos input at_ rest)
    (hrounds : rest.length < rounds) (hdepth : depth + rest.length < 2 ^ 32) :
    Yields (bytesPos input) (nestedLoop input opening closing unterminated rounds depth at_)
      fun _ rest' => ∃ raw, Nest opening closing depth raw ∧ rest = raw ++ rest' := by
  induction rounds generalizing depth at_ rest with
  | zero => exact absurd hrounds (Nat.not_lt_zero _)
  | succ rounds ih =>
      rw [nestedLoop]
      cases depth with
      | zero =>
          rw [if_pos rfl]
          exact Yields.ok hpos ⟨[], .nil, rfl⟩
      | succ depth =>
          rw [if_neg (Nat.succ_ne_zero depth), bytesPos_head hpos]
          cases rest with
          | nil => exact Yields.refused
          | cons byte rest =>
              rw [length_cons] at hrounds hdepth
              rw [getElem?_cons_zero]
              dsimp only
              have hpos₁ := bytesPos_succ hpos
              by_cases hquote : byte = '"'.toUInt8
              · subst hquote
                rw [if_pos rfl]
                rcases closingQuote_spec hpos₁ (length_lt_of_bytesPos hpos₁) with
                  ⟨body, rest', stop, hbody, rfl, hok, hstop⟩ | ⟨stop, hok, hstop⟩
                · rw [hok, ok_bind]
                  rw [length_append, length_cons] at hrounds hdepth
                  refine (ih hstop (by omega) (by omega)).mono ?_
                  rintro - rest₂ ⟨raw, hraw, rfl⟩
                  exact ⟨_, .quoted hbody hraw, by simp⟩
                · -- the string does not end
                  rw [hok, ok_bind]
                  obtain ⟨rounds, rfl⟩ := Nat.exists_eq_add_of_lt (Nat.zero_lt_of_lt
                    (Nat.lt_of_succ_lt_succ hrounds))
                  dsimp only
                  rw [nestedLoop, if_neg (Nat.succ_ne_zero depth), getElem?_eq_none hstop]
                  exact Yields.refused
              rw [if_neg hquote]
              by_cases hopening : byte = opening.toUInt8
              · subst hopening
                rw [if_pos rfl, failIf_bind_eq (by omega)]
                refine (ih hpos₁ (by omega) (by omega)).mono ?_
                rintro - rest₂ ⟨raw, hraw, rfl⟩
                exact ⟨_, .opens hraw, rfl⟩
              rw [if_neg hopening]
              by_cases hclosing : byte = closing.toUInt8
              · subst hclosing
                rw [if_pos rfl, Nat.add_sub_cancel]
                refine (ih hpos₁ (by omega) (by omega)).mono ?_
                rintro - rest₂ ⟨raw, hraw, rfl⟩
                exact ⟨_, .closes hraw, rfl⟩
              · rw [if_neg hclosing]
                refine (ih hpos₁ (by omega) (by omega)).mono ?_
                rintro - rest₂ ⟨raw, hraw, rfl⟩
                exact ⟨_, .other ⟨hquote, hopening, hclosing⟩ hraw, rfl⟩

theorem reaches_nestedLoop {rounds depth : ℕ} {raw : List UInt8}
    (hbrackets : opening.toUInt8 ≠ '"'.toUInt8 ∧ closing.toUInt8 ≠ '"'.toUInt8 ∧
      closing.toUInt8 ≠ opening.toUInt8) (hraw : Nest opening closing depth raw)
    (hpos : bytesPos input at_ (raw ++ rest)) (hrounds : raw.length < rounds)
    (hdepth : depth + raw.length < 2 ^ 32) :
    Reaches (bytesPos input) (nestedLoop input opening closing unterminated rounds depth at_) ()
      rest := by
  induction hraw generalizing rounds at_ with
  | nil =>
      obtain ⟨rounds, rfl⟩ := exists_round hrounds
      rw [nestedLoop, if_pos rfl]
      exact Reaches.ok hpos
  | @quoted depth body raw hbody _ ih =>
      obtain ⟨rounds, rfl⟩ := exists_round hrounds
      rw [length_cons, length_append, length_cons] at hrounds hdepth
      rw [nestedLoop, if_neg (Nat.succ_ne_zero _), bytesPos_head hpos, cons_append,
        getElem?_cons_zero]
      dsimp only
      rw [if_pos rfl]
      rw [cons_append, append_assoc, cons_append] at hpos
      have hpos₁ := bytesPos_succ hpos
      have hlength := length_lt_of_bytesPos hpos₁
      rw [length_append] at hlength
      refine (reaches_closingQuote hbody hpos₁ (by omega)).bind fun at₂ hpos₂ => ?_
      exact ih hpos₂ (by omega) (by omega)
  | opens _ ih =>
      obtain ⟨rounds, rfl⟩ := exists_round hrounds
      rw [length_cons] at hrounds hdepth
      rw [nestedLoop, if_neg (Nat.succ_ne_zero _), bytesPos_head hpos, cons_append,
        getElem?_cons_zero]
      dsimp only
      rw [if_neg hbrackets.1, if_pos rfl, failIf_bind_eq (by omega)]
      exact ih (bytesPos_succ hpos) (by omega) (by omega)
  | closes _ ih =>
      obtain ⟨rounds, rfl⟩ := exists_round hrounds
      rw [length_cons] at hrounds hdepth
      rw [nestedLoop, if_neg (Nat.succ_ne_zero _), bytesPos_head hpos, cons_append,
        getElem?_cons_zero]
      dsimp only
      rw [if_neg hbrackets.2.1, if_neg hbrackets.2.2, if_pos rfl, Nat.add_sub_cancel]
      exact ih (bytesPos_succ hpos) (by omega) (by omega)
  | other hbyte _ ih =>
      obtain ⟨rounds, rfl⟩ := exists_round hrounds
      rw [length_cons] at hrounds hdepth
      rw [nestedLoop, if_neg (Nat.succ_ne_zero _), bytesPos_head hpos, cons_append,
        getElem?_cons_zero]
      dsimp only
      rw [if_neg hbyte.1, if_neg hbyte.2.1, if_neg hbyte.2.2]
      exact ih (bytesPos_succ hpos) (by omega) (by omega)

end Brackets

/-- What may stand behind a value. -/
def Delimited (rest : List UInt8) : Prop :=
  ∀ byte, rest[0]? = some byte → isAsciiWhitespace byte = true ∨ byte = ','.toUInt8 ∨
    byte = ']'.toUInt8 ∨ byte = '\x7d'.toUInt8

/-- No run of letters, of digits or of the bytes of a number goes on there. -/
theorem Delimited.run {keep : UInt8 → Bool} (h : Delimited rest)
    (hkeep : keep 0x20 = false ∧ keep 0x09 = false ∧ keep 0x0A = false ∧ keep 0x0C = false ∧
      keep 0x0D = false ∧ keep ','.toUInt8 = false ∧ keep ']'.toUInt8 = false ∧
      keep '\x7d'.toUInt8 = false) :
    ∀ byte, rest[0]? = some byte → keep byte = false := by
  intro byte hbyte
  rcases h byte hbyte with hblank | rfl | rfl | rfl
  · simp only [isAsciiWhitespace, Bool.or_eq_true, decide_eq_true_eq] at hblank
    rcases hblank with (((rfl | rfl) | rfl) | rfl) | rfl
    · exact hkeep.1
    · exact hkeep.2.1
    · exact hkeep.2.2.1
    · exact hkeep.2.2.2.1
    · exact hkeep.2.2.2.2.1
  · exact hkeep.2.2.2.2.2.1
  · exact hkeep.2.2.2.2.2.2.1
  · exact hkeep.2.2.2.2.2.2.2

def keywords : List Str := ["true".toList, "false".toList, "null".toList]

theorem yields_skipKeyword (hpos : bytesPos input at_ rest) :
    Yields (bytesPos input) (skipKeyword input at_)
      fun _ rest' => ∃ raw, Skips raw ∧ rest = raw ++ rest' := by
  obtain ⟨run, rest', rfl, -, -, hstop, hpos'⟩ := bytesPos_runOf isAsciiAlphabetic hpos
  rw [skipKeyword, hstop, rangeOf_run hpos]
  rw [hstop] at hpos'
  dsimp only
  split
  · exact Yields.refused
  · next kw hkw =>
    obtain rfl := fromUtf8_eq_some_iff.mp hkw
    refine yields_failIf_bind fun hword => ?_
    refine Yields.ok hpos' ⟨_, .keyword ?_, rfl⟩
    simp only [mem_cons, not_mem_nil, or_false]
    tauto

theorem reaches_skipKeyword {word : Str} (hword : word ∈ keywords) (hrest : Delimited rest)
    (hpos : bytesPos input at_ (bytes word ++ rest)) :
    Reaches (bytesPos input) (skipKeyword input at_) () rest := by
  have hletters : ∀ word ∈ keywords, ∀ byte ∈ bytes word, isAsciiAlphabetic byte = true := by
    decide
  have hstop := runOf_eq hpos (hletters word hword) (hrest.run (by decide))
  rw [skipKeyword, hstop, rangeOf_run hpos]
  dsimp only
  rw [fromUtf8_bytes]
  dsimp only
  rw [failIf_bind_eq]
  · exact Reaches.ok (bytesPos_append hpos)
  · simp only [keywords, mem_cons, not_mem_nil, or_false] at hword
    tauto

theorem isNumberByte_of_starts (h : startsNumber byte = true) :
    isNumberByte byte = true := by
  rw [startsNumber, Bool.or_eq_true, decide_eq_true_iff] at h
  rcases h with rfl | hdigit
  · decide
  · simp only [isNumberByte, hdigit, Bool.true_or]

/-- A byte that starts a number starts nothing else. -/
theorem startsNumber_other (h : startsNumber byte = true) :
    isAsciiWhitespace byte = false ∧ byte ≠ '"'.toUInt8 ∧ byte ≠ '\x7b'.toUInt8 ∧
      byte ≠ '['.toUInt8 ∧ ¬ (byte = 't'.toUInt8 ∨ byte = 'f'.toUInt8 ∨ byte = 'n'.toUInt8) := by
  rw [startsNumber, Bool.or_eq_true, decide_eq_true_iff, isDigitByte_iff] at h
  have hother {other : UInt8} (hne : other ≠ '-'.toUInt8)
      (hdigit : ¬ (48 ≤ other.toNat ∧ other.toNat ≤ 57)) : byte ≠ other := by
    rintro rfl
    rcases h with h | h
    · exact hne h
    · exact hdigit h
  refine ⟨?_, hother (by decide) (by decide), hother (by decide) (by decide),
    hother (by decide) (by decide), ?_⟩
  · simp only [isAsciiWhitespace, Bool.or_eq_false_iff, decide_eq_false_iff_not]
    exact ⟨⟨⟨⟨hother (by decide) (by decide), hother (by decide) (by decide)⟩,
      hother (by decide) (by decide)⟩, hother (by decide) (by decide)⟩,
      hother (by decide) (by decide)⟩
  · rintro (heq | heq | heq)
    · exact hother (by decide) (by decide) heq
    · exact hother (by decide) (by decide) heq
    · exact hother (by decide) (by decide) heq

theorem yields_skipFrom (hbound : input.length ≤ maxManifestBytes) (hsolid : Solid (byte :: rest))
    (hpos : bytesPos input at_ (byte :: rest)) :
    Yields (bytesPos input) (skipFrom input byte at_)
      fun _ rest' => ∃ raw, Skips raw ∧ byte :: rest = raw ++ rest' := by
  have hpos₁ := bytesPos_succ hpos
  have hlength := length_lt_of_bytesPos hpos₁
  have hdepth : 1 + rest.length < 2 ^ 32 := by
    rw [maxManifestBytes] at hbound
    omega
  rw [skipFrom]
  split
  · refine (yields_parseString hpos).bind ?_
    rintro value at₂ rest₂ hpos₂ ⟨w, body, hw, hbody, hrest⟩
    rw [hrest] at hsolid ⊢
    obtain rfl := hsolid.blank hw
    exact Yields.ok hpos₂ ⟨_, .string hbody, by simp⟩
  split
  · next heq =>
    subst heq
    refine (yields_nestedLoop hpos₁ hlength hdepth).mono ?_
    rintro - rest₂ ⟨raw, hraw, rfl⟩
    exact ⟨_, .object hraw, rfl⟩
  split
  · next heq =>
    subst heq
    refine (yields_nestedLoop hpos₁ hlength hdepth).mono ?_
    rintro - rest₂ ⟨raw, hraw, rfl⟩
    exact ⟨_, .array hraw, rfl⟩
  split
  · exact yields_skipKeyword hpos
  split
  · next hstart =>
    obtain ⟨run, rest₂, hrest, hrun, hstop, -, hpos₂⟩ := bytesPos_runOf isNumberByte hpos
    refine Yields.ok hpos₂ ⟨run, ?_, hrest⟩
    cases run with
    | nil =>
        rw [nil_append] at hrest
        subst hrest
        exact absurd ((hstop byte rfl).symm.trans (isNumberByte_of_starts hstart)) Bool.false_ne_true
    | cons first run =>
        obtain rfl := (List.cons.inj hrest).1
        exact .number hstart fun byte hbyte => hrun byte (mem_cons_of_mem _ hbyte)
  · exact Yields.refused

theorem reaches_skipFrom_nested {opening closing : Char} {unterminated : String}
    {raw : List UInt8} (hbound : input.length ≤ maxManifestBytes)
    (hbrackets : opening.toUInt8 ≠ '"'.toUInt8 ∧ closing.toUInt8 ≠ '"'.toUInt8 ∧
      closing.toUInt8 ≠ opening.toUInt8) (hraw : Nest opening closing 1 raw)
    (hpos : bytesPos input at_ (opening.toUInt8 :: raw ++ rest)) :
    Reaches (bytesPos input)
      (nestedLoop input opening closing unterminated (input.length + 1) 1 (at_ + 1)) () rest := by
  have hpos₁ := bytesPos_succ hpos
  have hlength := length_lt_of_bytesPos hpos₁
  rw [append_eq, length_append] at hlength
  rw [maxManifestBytes] at hbound
  exact reaches_nestedLoop hbrackets hraw hpos₁ (by omega) (by omega)

/-- The first byte of a value over which the parser passes, and what it does there. -/
theorem reaches_skipFrom {raw : List UInt8} (hbound : input.length ≤ maxManifestBytes)
    (hraw : Skips raw) (hrest : Delimited rest) (hpos : bytesPos input at_ (raw ++ rest)) :
    ∃ byte tail, raw = byte :: tail ∧ isAsciiWhitespace byte = false ∧
      Reaches (bytesPos input) (skipFrom input byte at_) () rest := by
  cases hraw with
  | @string body value hbody =>
      refine ⟨_, _, rfl, by decide, ?_⟩
      rw [skipFrom, if_pos rfl]
      refine (reaches_parseString Blank.nil hbody ?_).bind fun at₁ hpos₁ => Reaches.ok hpos₁
      simpa using hpos
  | object h =>
      refine ⟨_, _, rfl, by decide, ?_⟩
      rw [skipFrom, if_neg (by decide), if_pos rfl]
      exact reaches_skipFrom_nested hbound (by decide) h hpos
  | array h =>
      refine ⟨_, _, rfl, by decide, ?_⟩
      rw [skipFrom, if_neg (by decide), if_neg (by decide), if_pos rfl]
      exact reaches_skipFrom_nested hbound (by decide) h hpos
  | @keyword word hword =>
      have hreach := reaches_skipKeyword hword hrest hpos
      simp only [mem_cons, not_mem_nil, or_false] at hword
      rcases hword with rfl | rfl | rfl
      · exact ⟨'t'.toUInt8, _, rfl, by decide, hreach⟩
      · exact ⟨'f'.toUInt8, _, rfl, by decide, hreach⟩
      · exact ⟨'n'.toUInt8, _, rfl, by decide, hreach⟩
  | @number byte run hbyte hrun =>
      have hblank := startsNumber_other hbyte
      refine ⟨byte, run, rfl, hblank.1, ?_⟩
      have hbytes : ∀ b ∈ byte :: run, isNumberByte b = true :=
        forall_mem_cons.mpr ⟨isNumberByte_of_starts hbyte, hrun⟩
      rw [skipFrom, if_neg hblank.2.1, if_neg hblank.2.2.1, if_neg hblank.2.2.2.1,
        if_neg hblank.2.2.2.2, if_pos hbyte, runOf_eq hpos hbytes (hrest.run (by decide))]
      exact Reaches.ok (bytesPos_append hpos)

theorem yields_skipValue (hbound : input.length ≤ maxManifestBytes)
    (hpos : bytesPos input at_ rest) :
    Yields (bytesPos input) (skipValue input at_)
      fun _ rest' => ∃ w raw, Blank w ∧ Skips raw ∧ rest = w ++ (raw ++ rest') := by
  obtain ⟨w, rest₁, rfl, hw, hsolid, hpos₁⟩ := skipWs_spec hpos
  rw [skipValue]
  refine yields_failIf_bind fun hlength => ?_
  obtain ⟨byte, tail, rfl, hbyte⟩ := byteAt_spec hpos₁ hlength
  rw [hbyte, ok_bind]
  refine (yields_skipFrom hbound hsolid hpos₁).mono ?_
  rintro - rest₂ ⟨raw, hraw, hrest⟩
  exact ⟨w, raw, hw, hraw, by rw [hrest]⟩

theorem reaches_skipValue {raw : List UInt8} (hbound : input.length ≤ maxManifestBytes)
    (hw : Blank w) (hraw : Skips raw) (hrest : Delimited rest)
    (hpos : bytesPos input at_ (w ++ (raw ++ rest))) :
    Reaches (bytesPos input) (skipValue input at_) () rest := by
  have hsolid : Solid (raw ++ rest) := by
    obtain ⟨byte, tail, rfl, hbyte, -⟩ := reaches_skipFrom hbound hraw hrest (bytesPos_append hpos)
    exact solid_cons hbyte
  have hpos₁ := skipWs_eq hw hsolid hpos
  obtain ⟨byte, tail, rfl, -, hreach⟩ := reaches_skipFrom hbound hraw hrest hpos₁
  rw [skipValue, failIf_bind_eq (not_length_le hpos₁), byteAt_eq hpos₁, ok_bind]
  exact hreach

end Bran.Migration
