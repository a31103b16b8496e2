import Bran.Document.JsonLaws

/-!
# The readers over texts

The readers of `canonical.rs` and of the PPTX adapter slice a text, which panics off a character
boundary.  They stop behind characters of JSON only, so that every slice is at a boundary.
-/

namespace Bran.Document.Json

open Text CharCode Validation Words Scanner List Utf8
open Option (some.inj)

variable {D : Dialect} {text : Str}

/-! ## The PPTX reader -/

section Pptx

theorem readsWord_pptx : ReadsWord (textPos text) (Pptx.JsonParser.literal text) where
  yields := by
    intro word value at_ rest hpos
    obtain ⟨after, rfl⟩ := exists_of_textPos hpos
    rw [Pptx.JsonParser.literal, sliceText_eq hpos, ok_bind]
    refine yields_failIf_bind fun hword => ?_
    rw [Bool.not_eq_false] at hword
    obtain ⟨tail, rfl⟩ := isPrefixOf_iff_prefix.mp hword
    rw [bytes_append] at hpos ⊢
    exact Yields.ok (textPos_advances hpos) ⟨rfl, rfl⟩
  reaches := by
    intro word value at_ rest hpos
    have hword : word.isPrefixOf (word ++ rest) = true :=
      isPrefixOf_iff_prefix.mpr (prefix_append _ _)
    have hfound : ¬ word.isPrefixOf (word ++ rest) = false := by
      rw [hword]
      exact nofun
    rw [Pptx.JsonParser.literal, sliceText_eq hpos, ok_bind, failIf_bind_eq hfound]
    rw [bytes_append] at hpos
    exact Reaches.ok (textPos_advances hpos)

theorem readsUnicode_pptx :
    ReadsUnicode (textPos text) (Pptx.JsonParser.unicode text) HexDigits where
  yields := by
    intro at_ rest hpos
    rw [Pptx.JsonParser.unicode]
    cases hget : getText text at_ (at_ + 4) with
    | none => exact Yields.refused
    | some digits =>
        obtain ⟨rest', rfl, hlength⟩ := getText_eq_some hpos hget
        dsimp only
        split
        · next hhex =>
          cases hchar : (fromStrRadix digits).bind fromU32 with
          | none => exact Yields.refused
          | some c =>
              have hnext := textPos_advances hpos
              rw [hlength] at hnext
              have hdigits : HexDigits digits c := ⟨all_isHexByte.mp hhex, hchar⟩
              rw [length_of_radix hdigits.2] at hlength
              exact Yields.ok hnext ⟨digits, hlength, hdigits, rfl⟩
        · exact Yields.refused
  reaches := by
    intro at_ digits c rest hlength hdigits hpos
    have hsize : byteLen digits = 4 := by rw [length_of_radix hdigits.2, hlength]
    have hget := getText_eq hpos
    have hnext := textPos_advances hpos
    rw [hsize] at hget hnext
    rw [Pptx.JsonParser.unicode, hget]
    dsimp only
    rw [if_pos (all_isHexByte.mpr hdigits.1), hdigits.2]
    exact Reaches.ok hnext

theorem readsEscape_pptx :
    ReadsEscape (textPos text) (Pptx.JsonParser.escape text) pptxDialect :=
  readsEscape_byteEscape (walks_text text) tabled_slashEscape readsUnicode_pptx
    fun _ _ => Iff.rfl

theorem readsNext_pptx : ReadsNext (textPos text) (Pptx.JsonParser.next text) where
  yields := by
    intro at_ rest close hclose hpos
    refine (yields_eatByte (walks_text text) (close_ascii hclose).1 hpos).bind ?_
    rintro closed at₁ rest₁ hpos₁ rfl
    cases closed with
    | true => exact Yields.ok hpos₁ rfl
    | false =>
        refine (yields_expectByte (walks_text text) (by decide) hpos₁).bind ?_
        rintro ⟨⟩ at₂ rest₂ hpos₂ rfl
        exact Yields.ok hpos₂ rfl
  closed := by
    intro at_ close rest hclose hpos
    exact (reaches_eatByte_true (walks_text text) (close_ascii hclose).1 hpos).bind
      fun at₁ hpos₁ => Reaches.ok hpos₁
  comma := by
    intro at_ close rest hclose hpos
    have hne := (close_ascii hclose).2.symm
    refine (reaches_eatByte_false (walks_text text) (close_ascii hclose).1 hne hpos).bind
      fun at₁ hpos₁ => ?_
    exact (reaches_expectByte (walks_text text) (by decide) hpos₁).bind
      fun at₂ hpos₂ => Reaches.ok hpos₂

/-- The digits of a text by its bytes. -/
theorem takeWhile_bytes (s : Str) :
    (bytes s).takeWhile isDigitByte = bytes (s.takeWhile Char.isDigit) := by
  induction s with
  | nil => rfl
  | cons c s ih =>
      cases hc : c.isDigit with
      | true =>
          have hascii := toNat_lt_of_isDigit hc
          rw [bytes_cons, encode_ascii hascii, singleton_append,
            takeWhile_cons_of_pos (by rw [isDigitByte_toUInt8 hascii, hc]),
            takeWhile_cons_of_pos hc, bytes_cons, encode_ascii hascii, ih]
          rfl
      | false =>
          have hrest : (c :: s).takeWhile Char.isDigit = [] :=
            takeWhile_cons_of_neg (by rw [hc]; exact Bool.false_ne_true)
          rw [hrest]
          by_cases hminus : c = '-'
          · subst hminus
            rw [bytes_cons, encode_ascii (by decide)]
            rfl
          · have hdelimits : Delimits (c :: s) := by
              intro d hd
              obtain rfl := some.inj hd
              exact ⟨hminus, hc⟩
            exact takeWhile_delimited hdelimits

theorem skipDigits_text {at_ : ℕ} {after : Str} (hpos : textPos text at_ (bytes after)) :
    skipDigits (bytes text) at_ = at_ + byteLen (after.takeWhile Char.isDigit) := by
  obtain ⟨before, hinput, rfl⟩ := bytesPos_of_textPos hpos
  rw [skipDigits, hinput, drop_left, takeWhile_bytes, length_bytes]

theorem readsNumber_pptx : ReadsNumber (textPos text) (Pptx.JsonParser.number text) where
  yields := by
    intro at_ rest hpos _
    -- whether there is a sign or not, the field ends behind whole characters
    have hsign : ∃ found at₁ sign after,
        eatByte (bytes text) '-' at_ = (.ok (found, at₁) : Checked Refusal _) ∧
          rest = bytes (sign ++ after) ∧ at₁ = at_ + byteLen sign ∧
        textPos text at₁ (bytes after) := by
      rcases yields_eatByte (ε := Refusal) (walks_text text) (c := '-') (by decide) hpos with
        ⟨error, herror⟩ | ⟨found, at₁, rest₁, hok, hpos₁, hrest⟩
      · rw [eatByte] at herror
        split at herror <;> cases herror
      · obtain ⟨after, rfl⟩ := exists_of_textPos hpos₁
        refine ⟨found, at₁, if found then ['-'] else [], after, hok, ?_, ?_, hpos₁⟩
        · rw [bytes_append, hrest]
        · rw [eatByte] at hok
          split at hok <;> obtain ⟨rfl, rfl⟩ := Prod.mk.inj (Except.ok.inj hok) <;> rfl
    obtain ⟨found, at₁, sign, after, hok, rfl, hat, hpos₁⟩ := hsign
    rw [Pptx.JsonParser.number, hok, ok_bind]
    dsimp only
    have hsplit : sign ++ after =
        (sign ++ after.takeWhile Char.isDigit) ++ after.dropWhile Char.isDigit := by
      rw [append_assoc, takeWhile_append_dropWhile]
    rw [hsplit, bytes_append] at hpos
    have hstop : skipDigits (bytes text) at₁ =
        at_ + byteLen (sign ++ after.takeWhile Char.isDigit) := by
      rw [skipDigits_text hpos₁, hat, byteLen_append, Nat.add_assoc]
    rw [hstop, sliceTextTo, getText_eq hpos, ok_bind]
    split
    · next n hn =>
      refine Yields.ok (textPos_advances hpos) ⟨_, hn, ?_⟩
      rw [hsplit, bytes_append]
    · exact Yields.refused
  reaches := by
    intro at_ field n rest hn hrest hpos
    obtain ⟨sign, digits, rfl, hsign, hne, hdigits⟩ := shape_of_parseI64 hn
    have hreach : ∃ found at₁, eatByte (bytes text) '-' at_ =
        (.ok (found, at₁) : Checked Refusal _) ∧ textPos text at₁ (bytes (digits ++ rest)) ∧
        at₁ = at_ + byteLen sign := by
      rcases hsign with rfl | rfl
      · obtain ⟨d, digits, rfl⟩ := exists_cons_of_ne_nil hne
        have hd : d ≠ '-' := by
          rintro rfl
          exact absurd (hdigits _ mem_cons_self) (by decide)
        refine ⟨false, at_, ?_, hpos, rfl⟩
        rw [eatByte, (walks_text text).getElem? hpos]
        exact if_neg (mt (head_bytes_eq (by decide)).mp hd)
      · refine ⟨true, at_ + 1, ?_, ?_, rfl⟩
        · rw [eatByte, (walks_text text).getElem? hpos]
          exact if_pos ((head_bytes_eq (by decide)).mpr rfl)
        · rw [append_assoc, singleton_append, bytes_cons,
            encode_ascii (by decide)] at hpos
          exact (walks_text text).ascii (by decide) hpos
    obtain ⟨found, at₁, hok, hpos₁, hat⟩ := hreach
    rw [Pptx.JsonParser.number, hok, ok_bind]
    dsimp only
    rw [skipDigits_eq (bytesPos_of_textPos hpos₁) hdigits hrest, hat, Nat.add_assoc,
      ← byteLen_append]
    rw [bytes_append] at hpos
    rw [sliceTextTo, getText_eq hpos, ok_bind, hn]
    exact Reaches.ok (textPos_advances hpos)

/-- A character that a string shows as itself. -/
def isPlain (c : Char) : Bool := !(c = '"' || c = '\\' || c < ' ')

theorem isPlain_iff {c : Char} : isPlain c = true ↔ c ≠ '"' ∧ c ≠ '\\' ∧ 0x20 ≤ c.toNat := by
  have hspace : c < ' ' ↔ c.toNat < 0x20 := UInt32.lt_iff_toNat_lt
  rw [isPlain, Bool.not_eq_true', Bool.or_eq_false_iff, Bool.or_eq_false_iff,
    decide_eq_false_iff_not, decide_eq_false_iff_not, decide_eq_false_iff_not, hspace, not_lt,
    and_assoc]

theorem body_run {run body s : Str} (hrun : ∀ c ∈ run, isPlain c = true) (h : D.Body body s) :
    D.Body (run ++ body) (run ++ s) := by
  induction run with
  | nil => exact h
  | cons c run ih =>
      rw [forall_mem_cons] at hrun
      exact .plain (isPlain_iff.mp hrun.1) (ih hrun.2)

/-- A string shows some characters as themselves, up to its end or to its first escape. -/
theorem Dialect.Body.exists_run {body s : Str} (h : D.Body body s) :
    ∃ run, (∀ c ∈ run, isPlain c = true) ∧ ((body = run ∧ s = run) ∨
      ∃ word c body' s', D.escape word c ∧ D.Body body' s' ∧
        body = run ++ '\\' :: (word ++ body') ∧ s = run ++ c :: s') := by
  induction h with
  | nil => exact ⟨[], fun _ h => absurd h not_mem_nil, Or.inl ⟨rfl, rfl⟩⟩
  | @plain c body s hc _ ih =>
      obtain ⟨run, hrun, hcases⟩ := ih
      refine ⟨c :: run, forall_mem_cons.mpr ⟨isPlain_iff.mpr hc, hrun⟩, ?_⟩
      rcases hcases with ⟨rfl, rfl⟩ | ⟨word, d, body', s', hword, hbody, rfl, rfl⟩
      · exact Or.inl ⟨rfl, rfl⟩
      · exact Or.inr ⟨word, d, body', s', hword, hbody, rfl, rfl⟩
  | @escape word body s c hword hbody _ =>
      exact ⟨[], fun _ h => absurd h not_mem_nil,
        Or.inr ⟨word, c, body, s, hword, hbody, rfl, rfl⟩⟩

/-- A text shows characters as themselves, all of it or up to one that does not. -/
theorem exists_run_of_text (s : Str) : (∀ c ∈ s, isPlain c = true) ∨
    ∃ run c rest, s = run ++ c :: rest ∧ (∀ d ∈ run, isPlain d = true) ∧ isPlain c = false := by
  induction s with
  | nil => exact Or.inl fun _ h => absurd h not_mem_nil
  | cons c s ih =>
      cases hc : isPlain c with
      | false => exact Or.inr ⟨[], c, s, rfl, fun _ h => absurd h not_mem_nil, hc⟩
      | true =>
          rcases ih with hall | ⟨run, d, rest, rfl, hrun, hd⟩
          · exact Or.inl (forall_mem_cons.mpr ⟨hc, hall⟩)
          · exact Or.inr ⟨c :: run, d, rest, rfl, forall_mem_cons.mpr ⟨hc, hrun⟩, hd⟩

theorem length_of_textPos {at_ : ℕ} {rest : List UInt8} (hpos : textPos text at_ rest) :
    rest.length < byteLen text + 1 := by
  obtain ⟨before, after, rfl, rfl, rfl⟩ := hpos
  rw [length_bytes, byteLen_append]
  omega

theorem takeWhile_run {run rest : Str} {c : Char} (hrun : ∀ d ∈ run, isPlain d = true)
    (hc : isPlain c = false) : (run ++ c :: rest).takeWhile isPlain = run := by
  rw [takeWhile_append_of_pos hrun,
    takeWhile_cons_of_neg (by rw [hc]; exact Bool.false_ne_true), append_nil]

/-- A string in which nothing stops the run has no closing quote. -/
theorem stringLoop_run {rounds at_ : ℕ} {out run : Str} (hrun : ∀ c ∈ run, isPlain c = true)
    (hpos : textPos text at_ (bytes run)) :
    Pptx.JsonParser.stringLoop text (rounds + 1) out at_ =
      .error (.refused Pptx.JsonParser.bad) := by
  have htake : (run.takeWhile fun c => !(c = '"' || c = '\\' || c < ' ')) = run :=
    takeWhile_eq_self_iff.mpr hrun
  rw [Pptx.JsonParser.stringLoop, sliceText_eq hpos, ok_bind]
  dsimp only
  rw [htake, failIf, if_pos rfl]
  rfl

/-- What the loop does at the character that stops the run. -/
theorem stringLoop_stop {rounds at_ : ℕ} {out run rest : Str} {c : Char}
    (hrun : ∀ d ∈ run, isPlain d = true) (hc : isPlain c = false)
    (hpos : textPos text at_ (bytes (run ++ c :: rest))) :
    Pptx.JsonParser.stringLoop text (rounds + 1) out at_ =
      if c = '"' then .ok (out ++ run, at_ + byteLen run + 1)
      else if c = '\\' then do
        let (d, at_) ← Pptx.JsonParser.escape text (at_ + byteLen run + 1)
        Pptx.JsonParser.stringLoop text rounds (out ++ run ++ [d]) at_
      else .error (.refused Pptx.JsonParser.bad) := by
  have htake : ((run ++ c :: rest).takeWhile fun c => !(c = '"' || c = '\\' || c < ' ')) = run :=
    takeWhile_run hrun hc
  have hstops : ¬ run = run ++ c :: rest := by simp
  rw [Pptx.JsonParser.stringLoop, sliceText_eq hpos, ok_bind]
  dsimp only
  rw [htake, failIf_bind_eq hstops]
  rw [bytes_append] at hpos
  have hstop := (walks_text text).getElem? (textPos_advances hpos)
  have hbyte {d : Char} (hd : d.toNat < 128) {byte : UInt8}
      (hfirst : (bytes (c :: rest))[0]? = some byte) : byte = d.toUInt8 ↔ c = d := by
    rw [← @head_bytes_eq d hd c rest, hfirst, Option.some.injEq]
  cases hfirst : (bytes (c :: rest))[0]? with
  | none =>
      obtain ⟨first, tail, hencode, -, -⟩ := encode_eq_cons c
      rw [bytes_cons, hencode] at hfirst
      cases hfirst
  | some byte =>
      rw [hstop, hfirst]
      dsimp only
      rw [if_congr (hbyte (by decide) hfirst) rfl rfl]
      rw [if_congr (hbyte (d := '\\') (by decide) hfirst) rfl rfl]
      rfl

theorem yields_stringLoop {rounds at_ : ℕ} {out : Str} {rest : List UInt8}
    (hpos : textPos text at_ rest) (hrounds : rest.length < rounds) :
    Yields (textPos text) (Pptx.JsonParser.stringLoop text rounds out at_) fun s rest' =>
      ∃ body decoded, pptxDialect.Body body decoded ∧ rest = bytes (body ++ ['"']) ++ rest' ∧
        s = out ++ decoded := by
  induction rounds generalizing at_ out rest with
  | zero => exact absurd hrounds (Nat.not_lt_zero _)
  | succ rounds ih =>
      obtain ⟨after, rfl⟩ := exists_of_textPos hpos
      rcases exists_run_of_text after with hrun | ⟨run, c, tail, rfl, hrun, hc⟩
      · rw [stringLoop_run hrun hpos]
        exact Yields.refused
      · rw [stringLoop_stop hrun hc hpos]
        rw [bytes_append] at hpos
        have hstop := textPos_advances hpos
        split
        · next hquote =>
          subst hquote
          rw [bytes_cons, encode_ascii (by decide)] at hstop
          have hbody : pptxDialect.Body (run ++ []) (run ++ []) := body_run hrun .nil
          rw [append_nil] at hbody
          exact Yields.ok ((walks_text text).ascii (by decide) hstop)
            ⟨run, run, hbody, by simp, rfl⟩
        split
        · next hback =>
          subst hback
          rw [bytes_cons, encode_ascii (by decide)] at hstop
          have hescape : textPos text (at_ + byteLen run + 1) (bytes tail) :=
            (walks_text text).ascii (by decide) hstop
          refine (readsEscape_pptx.yields hescape).bind ?_
          rintro d at₁ rest₁ hpos₁ ⟨word, hword, htail⟩
          have hlt : rest₁.length < rounds := by
            rw [bytes_append, bytes_cons, encode_ascii (by decide), htail]
              at hrounds
            simp only [length_append, length_singleton] at hrounds
            omega
          refine (ih hpos₁ hlt).mono ?_
          rintro s rest₂ ⟨body, decoded, hbody, rfl, rfl⟩
          exact ⟨_, _, body_run hrun (.escape hword hbody), by simp [htail], by simp⟩
        · exact Yields.refused

theorem reaches_stringLoop {rounds at_ : ℕ} {out body s rest : Str}
    (hbody : pptxDialect.Body body s) (hpos : textPos text at_ (bytes (body ++ '"' :: rest)))
    (hrounds : (bytes (body ++ '"' :: rest)).length < rounds) :
    Reaches (textPos text) (Pptx.JsonParser.stringLoop text rounds out at_) (out ++ s)
      (bytes rest) := by
  induction rounds generalizing at_ out body s with
  | zero => exact absurd hrounds (Nat.not_lt_zero _)
  | succ rounds ih =>
      obtain ⟨run, hrun, ⟨rfl, rfl⟩ | ⟨word, c, body', s', hword, hbody', rfl, rfl⟩⟩ :=
        hbody.exists_run
      · rw [stringLoop_stop hrun (by decide) hpos, if_pos rfl]
        rw [bytes_append] at hpos
        have hstop := textPos_advances hpos
        rw [bytes_cons, encode_ascii (by decide)] at hstop
        exact Reaches.ok ((walks_text text).ascii (by decide) hstop)
      · rw [append_assoc, cons_append, append_assoc] at hpos hrounds
        rw [stringLoop_stop hrun (by decide) hpos, if_neg (by decide), if_pos rfl]
        rw [bytes_append] at hpos
        have hstop := textPos_advances hpos
        rw [bytes_cons, encode_ascii (by decide)] at hstop
        have hescape := (walks_text text).ascii (by decide) hstop
        rw [bytes_append] at hescape
        refine (readsEscape_pptx.reaches hword hescape).bind fun at₁ hpos₁ => ?_
        have hlt : (bytes (body' ++ '"' :: rest)).length < rounds := by
          rw [bytes_append, bytes_cons, encode_ascii (by decide),
            bytes_append word] at hrounds
          simp only [length_append, length_singleton] at hrounds
          omega
        have hreach : Reaches (textPos text)
            (Pptx.JsonParser.stringLoop text rounds (out ++ run ++ [c]) at₁)
            (out ++ run ++ [c] ++ s') (bytes rest) := ih hbody' hpos₁ hlt
        simpa using hreach

theorem readsString_pptx :
    ReadsString pptxDialect (textPos text) (Pptx.JsonParser.string text) where
  yields := by
    intro at_ rest hpos
    refine (yields_expectByte (walks_text text) (by decide) hpos).bind ?_
    rintro ⟨⟩ at₁ rest₁ hpos₁ rfl
    refine (yields_stringLoop hpos₁ (length_of_textPos hpos₁)).mono ?_
    rintro s rest₂ ⟨body, decoded, hbody, rfl, rfl⟩
    exact ⟨body, hbody, by simp [quoted]⟩
  reaches := by
    intro at_ body s rest hbody hpos
    rw [quoted, cons_append] at hpos
    refine (reaches_expectByte (walks_text text) (by decide) hpos).bind fun at₁ hpos₁ => ?_
    rw [append_assoc, singleton_append] at hpos₁
    exact reaches_stringLoop hbody hpos₁ (length_of_textPos hpos₁)

theorem obeys_pptx (text : Str) :
    (Pptx.JsonParser.reader text).Obeys pptxDialect (textPos text) :=
  obeys_byteReader (walks_text text) rfl rfl readsWord_pptx (fun _ _ _ => rfl) readsString_pptx
    readsNumber_pptx readsNext_pptx (readsColon_expectByte (walks_text text))

end Pptx

/-! ## The reader of `canonical.rs` -/

section Canonical

open Json.Parser

variable {w : Str} {at_ : ℕ}

theorem blank_canonical : canonicalDialect.Blank w ↔ ∀ c ∈ w, isBlank c = true :=
  ⟨fun h c hc => (h c hc).2, fun h c hc => ⟨rfl, h c hc⟩⟩

theorem dropWhile_blank {rest : Str} (hw : canonicalDialect.Blank w)
    (hrest : ∀ c ∈ rest.head?, isBlank c = false) :
    (w ++ rest).dropWhile isBlank = rest := by
  rw [dropWhile_append_of_pos (blank_canonical.mp hw)]
  cases rest with
  | nil => rfl
  | cons c rest =>
      exact dropWhile_cons_of_neg (by rw [hrest c rfl]; exact Bool.false_ne_true)

/-- The position behind the blanks that stand here. -/
theorem exists_space {after : Str} (hpos : textPos text at_ (bytes after)) :
    ∃ at₁ w, space text at_ = .ok ((), at₁) ∧ canonicalDialect.Blank w ∧
      after = w ++ after.dropWhile isBlank ∧ textPos text at₁ (bytes (after.dropWhile isBlank)) := by
  have hsplit := takeWhile_append_dropWhile (p := isBlank) (l := after)
  have hlength := congrArg byteLen hsplit
  rw [byteLen_append] at hlength
  refine ⟨at_ + byteLen (after.takeWhile isBlank), after.takeWhile isBlank, ?_, ?_, hsplit.symm, ?_⟩
  · have hback : byteLen after - byteLen (after.dropWhile isBlank) =
        byteLen (after.takeWhile isBlank) := by omega
    rw [space, sliceText_eq hpos, ok_bind, hback]
    rfl
  · exact blank_canonical.mpr fun c hc => mem_takeWhile_imp hc
  · rw [← hsplit, bytes_append] at hpos
    exact textPos_advances hpos

theorem reaches_space {rest : Str} (hw : canonicalDialect.Blank w)
    (hrest : ∀ c ∈ rest.head?, isBlank c = false) (hpos : textPos text at_ (bytes (w ++ rest))) :
    Reaches (textPos text) (space text at_) () (bytes rest) := by
  obtain ⟨at₁, w', hspace, -, -, hpos₁⟩ := exists_space hpos
  rw [dropWhile_blank hw hrest] at hpos₁
  exact ⟨at₁, hspace, hpos₁⟩

theorem yields_space {rest : List UInt8} (hpos : textPos text at_ rest) :
    Yields (textPos text) (space text at_) fun _ rest' =>
      ∃ w, canonicalDialect.Blank w ∧ rest = bytes w ++ rest' := by
  obtain ⟨after, rfl⟩ := exists_of_textPos hpos
  obtain ⟨at₁, w, hspace, hw, hafter, hpos₁⟩ := exists_space hpos
  rw [hspace]
  refine Yields.ok hpos₁ ⟨w, hw, ?_⟩
  rw [← bytes_append, ← hafter]

theorem yields_eat {token : Str} {rest : List UInt8} (hpos : textPos text at_ rest) :
    Yields (textPos text) (eat text token at_) fun found rest' => ∃ w,
      canonicalDialect.Blank w ∧ rest = bytes (if found then w ++ token else w) ++ rest' := by
  refine (yields_space hpos).bind ?_
  rintro ⟨⟩ at₁ rest₁ hpos₁ ⟨w, hw, rfl⟩
  obtain ⟨after, rfl⟩ := exists_of_textPos hpos₁
  dsimp only
  rw [sliceText_eq hpos₁, ok_bind]
  split
  · next hfound =>
    obtain ⟨tail, rfl⟩ := isPrefixOf_iff_prefix.mp hfound
    rw [bytes_append] at hpos₁ ⊢
    exact Yields.ok (textPos_advances hpos₁) ⟨w, hw, by simp⟩
  · exact Yields.ok hpos₁ ⟨w, hw, rfl⟩

theorem reaches_eat_true {c : Char} (hc : isBlank c = false) {rest : Str}
    (hw : canonicalDialect.Blank w) (hpos : textPos text at_ (bytes (w ++ c :: rest))) :
    Reaches (textPos text) (eat text [c] at_) true (bytes rest) := by
  have hhead : ∀ d ∈ (c :: rest).head?, isBlank d = false := by
    intro d hd
    obtain rfl := some.inj hd
    exact hc
  refine (reaches_space hw hhead hpos).bind fun at₁ hpos₁ => ?_
  have hfound : [c].isPrefixOf (c :: rest) = true :=
    isPrefixOf_iff_prefix.mpr (prefix_append [c] rest)
  dsimp only
  rw [sliceText_eq hpos₁, ok_bind, if_pos hfound]
  rw [← singleton_append, bytes_append] at hpos₁
  exact Reaches.ok (textPos_advances hpos₁)

theorem reaches_eat_false {c d : Char} (hc : isBlank c = false) (hne : c ≠ d) {rest : Str}
    (hw : canonicalDialect.Blank w) (hpos : textPos text at_ (bytes (w ++ c :: rest))) :
    Reaches (textPos text) (eat text [d] at_) false (bytes (c :: rest)) := by
  have hhead : ∀ d ∈ (c :: rest).head?, isBlank d = false := by
    intro d hd
    obtain rfl := some.inj hd
    exact hc
  refine (reaches_space hw hhead hpos).bind fun at₁ hpos₁ => ?_
  have hfound : ¬ [d].isPrefixOf (c :: rest) = true := by
    intro h
    obtain ⟨tail, htail⟩ := isPrefixOf_iff_prefix.mp h
    exact hne (List.cons.inj htail).1.symm
  dsimp only
  rw [sliceText_eq hpos₁, ok_bind, if_neg hfound]
  exact Reaches.ok hpos₁

theorem yields_start {rest : List UInt8} (hpos : textPos text at_ rest) :
    Yields (textPos text) (start text at_) (Started canonicalDialect rest) := by
  refine (yields_space hpos).bind ?_
  rintro ⟨⟩ at₁ rest₁ hpos₁ ⟨w, hw, rfl⟩
  obtain ⟨after, rfl⟩ := exists_of_textPos hpos₁
  dsimp only
  rw [sliceText_eq hpos₁, ok_bind]
  split
  · next word value hfind =>
    have hmem := mem_of_find?_eq_some hfind
    have hfound := find?_some hfind
    obtain ⟨tail, rfl⟩ := isPrefixOf_iff_prefix.mp hfound
    rw [bytes_append] at hpos₁ ⊢
    exact Yields.ok (textPos_advances hpos₁) ⟨w, hw, word, hmem, by simp⟩
  · split
    · exact Yields.refused
    · next c tail _ =>
      have hbracket {d : Char} (hd : d.toNat < 128) (heq : c = d) :
          textPos text (at₁ + 1) (bytes tail) := by
        subst heq
        rw [bytes_cons, encode_ascii hd] at hpos₁
        exact (walks_text text).ascii hd hpos₁
      split
      · exact Yields.ok hpos₁ ⟨w, hw, rfl⟩
      split
      · next hc => exact Yields.ok (hbracket (by decide) hc) ⟨w, hw, by simp [hc]⟩
      split
      · next hc => exact Yields.ok (hbracket (by decide) hc) ⟨w, hw, by simp [hc]⟩
      · exact Yields.ok hpos₁ ⟨w, hw, rfl, by simp⟩

/-- The first of the three words that stands here, told by its first character. -/
theorem find_words {word rest : Str} {value : Json} (h : (word, value) ∈ words) :
    (words.find? fun word' => word'.1.isPrefixOf (word ++ rest)) = some (word, value) := by
  simp only [words, mem_cons, Prod.mk.injEq, not_mem_nil, or_false] at h
  rcases h with ⟨rfl, rfl⟩ | ⟨rfl, rfl⟩ | ⟨rfl, rfl⟩ <;> rfl

theorem find_words_none {c : Char} {rest : Str} (hc : c ≠ 'n' ∧ c ≠ 't' ∧ c ≠ 'f') :
    (words.find? fun word => word.1.isPrefixOf (c :: rest)) = none := by
  rw [find?_eq_none]
  intro word hword hfound
  obtain ⟨tail, htail⟩ := isPrefixOf_iff_prefix.mp hfound
  simp only [words, mem_cons, not_mem_nil, or_false] at hword
  rcases hword with rfl | rfl | rfl
  · exact hc.1 (List.cons.inj htail).1.symm
  · exact hc.2.1 (List.cons.inj htail).1.symm
  · exact hc.2.2 (List.cons.inj htail).1.symm

theorem reaches_start_word {word rest : Str} {value : Json} (hw : canonicalDialect.Blank w)
    (hword : (word, value) ∈ words) (hpos : textPos text at_ (bytes (w ++ (word ++ rest)))) :
    Reaches (textPos text) (start text at_) (.word value) (bytes rest) := by
  have hhead : ∀ c ∈ (word ++ rest).head?, isBlank c = false := by
    have hfirst : ∃ c tail, word = c :: tail ∧ isBlank c = false := by
      simp only [words, mem_cons, Prod.mk.injEq, not_mem_nil, or_false] at hword
      rcases hword with ⟨rfl, -⟩ | ⟨rfl, -⟩ | ⟨rfl, -⟩ <;> exact ⟨_, _, rfl, rfl⟩
    obtain ⟨c, tail, rfl, hc⟩ := hfirst
    intro d hd
    obtain rfl := some.inj hd
    exact hc
  refine (reaches_space hw hhead hpos).bind fun at₁ hpos₁ => ?_
  dsimp only
  rw [sliceText_eq hpos₁, ok_bind, find_words hword]
  rw [bytes_append] at hpos₁
  exact Reaches.ok (textPos_advances hpos₁)

theorem not_blank_of_opens {c : Char} {token : Token} (h : opens c = some token) :
    isBlank c = false ∧ c ≠ 'n' ∧ c ≠ 't' ∧ c ≠ 'f' := by
  have hne {d : Char} (hd : opens d = none) : c ≠ d := by
    rintro rfl
    exact (nomatch hd.symm.trans h)
  refine ⟨?_, hne rfl, hne rfl, hne rfl⟩
  simp only [isBlank, Bool.or_eq_false_iff, decide_eq_false_iff_not]
  exact ⟨⟨⟨hne rfl, hne rfl⟩, hne rfl⟩, hne rfl⟩

theorem reaches_start_open {rest : Str} {c : Char} {token : Token} (hw : canonicalDialect.Blank w)
    (hopens : opens c = some token) (hpos : textPos text at_ (bytes (w ++ c :: rest))) :
    Reaches (textPos text) (start text at_) token (bytes (behind token c rest)) := by
  obtain ⟨hblank, hwords⟩ := not_blank_of_opens hopens
  have hhead : ∀ d ∈ (c :: rest).head?, isBlank d = false := by
    intro d hd
    obtain rfl := some.inj hd
    exact hblank
  refine (reaches_space hw hhead hpos).bind fun at₁ hpos₁ => ?_
  dsimp only
  rw [sliceText_eq hpos₁, ok_bind, find_words_none hwords]
  dsimp only
  have hbracket (hc : c.toNat < 128) : textPos text (at₁ + 1) (bytes rest) := by
    rw [bytes_cons, encode_ascii hc] at hpos₁
    exact (walks_text text).ascii hc hpos₁
  unfold opens at hopens
  split at hopens
  · next hc =>
    obtain rfl := some.inj hopens
    rw [if_pos hc]
    exact Reaches.ok hpos₁
  · next hquote =>
    rw [if_neg hquote]
    split at hopens
    · next hc =>
      obtain rfl := some.inj hopens
      rw [if_pos hc]
      exact Reaches.ok (hbracket (by rw [hc]; decide))
    · next harray =>
      rw [if_neg harray]
      split at hopens
      · next hc =>
        obtain rfl := some.inj hopens
        rw [if_pos hc]
        exact Reaches.ok (hbracket (by rw [hc]; decide))
      · next hobject =>
        rw [if_neg hobject]
        split at hopens
        · obtain rfl := some.inj hopens
          exact Reaches.ok hpos₁
        · cases hopens

theorem yields_number {rest : List UInt8} (hpos : textPos text at_ rest) :
    Yields (textPos text) (number text at_) fun n rest' =>
      ∃ field, parseI64 field = some n ∧ rest = bytes field ++ rest' := by
  obtain ⟨after, rfl⟩ := exists_of_textPos hpos
  rw [number, sliceText_eq hpos, ok_bind]
  dsimp only
  have hsplit := takeWhile_append_dropWhile (p := fun c => c = '-' || c.isDigit) (l := after)
  split
  · next n hn =>
    rw [← hsplit, bytes_append] at hpos
    refine Yields.ok (textPos_advances hpos) ⟨_, hn, ?_⟩
    rw [← bytes_append, hsplit]
  · exact Yields.refused

theorem reaches_number {field rest : Str} {n : ℤ} (hn : parseI64 field = some n)
    (hrest : Delimits rest) (hpos : textPos text at_ (bytes (field ++ rest))) :
    Reaches (textPos text) (number text at_) n (bytes rest) := by
  obtain ⟨sign, digits, rfl, hsign, -, hdigits⟩ := shape_of_parseI64 hn
  have hfield : ∀ c ∈ sign ++ digits, (c = '-' || c.isDigit) = true := by
    intro c hc
    rw [Bool.or_eq_true, decide_eq_true_iff]
    rcases mem_append.mp hc with hmem | hmem
    · rcases hsign with rfl | rfl
      · exact absurd hmem not_mem_nil
      · exact Or.inl (mem_singleton.mp hmem)
    · exact Or.inr (hdigits c hmem)
  have hrun : ((sign ++ digits ++ rest).takeWhile fun c => c = '-' || c.isDigit) =
      sign ++ digits := by
    rw [takeWhile_append_of_pos hfield]
    cases rest with
    | nil => exact append_nil _
    | cons c rest =>
        obtain ⟨hminus, hdigit⟩ := hrest c rfl
        rw [takeWhile_cons_of_neg, append_nil]
        rw [hdigit, Bool.or_false, decide_eq_true_iff]
        exact hminus
  rw [number, sliceText_eq hpos, ok_bind]
  dsimp only
  rw [hrun, hn]
  rw [bytes_append] at hpos
  exact Reaches.ok (textPos_advances hpos)

theorem exists_four {digits : Str} (h : digits.length = 4) :
    ∃ a b d e, digits = [a, b, d, e] := by
  match digits, h with
  | [a, b, d, e], _ => exact ⟨a, b, d, e, rfl⟩

/-- An escape of four digits in the dialect of `Json::parse`. -/
theorem escape_digits {a b d e c : Char} (h : (fromStrRadix [a, b, d, e]).bind fromU32 = some c) :
    canonicalDialect.escape ['u', a, b, d, e] c := Or.inr ⟨[a, b, d, e], rfl, rfl, h⟩

theorem byteLen_escape_digits {a b d e : Char} {body : Str} :
    byteLen ('\\' :: (['u', a, b, d, e] ++ body)) = 2 + byteLen [a, b, d, e] + byteLen body := by
  have hback : ('\\' : Char).utf8Size = 1 := rfl
  have hu : ('u' : Char).utf8Size = 1 := rfl
  rw [byteLen_cons, byteLen_append, byteLen_cons 'u', hback, hu]
  omega

/-- What the loop over a string returns is decoded, and the index is behind its quote. -/
theorem stringLoop_eq_some {rest out s : Str} {index stop : ℕ}
    (h : stringLoop rest index out = some (s, stop)) :
    ∃ body decoded tail, rest = body ++ '"' :: tail ∧ canonicalDialect.Body body decoded ∧
      s = out ++ decoded ∧ stop = index + byteLen body + 1 := by
  fun_induction stringLoop rest index out with
  | case2 rest index out =>
      obtain ⟨rfl, rfl⟩ := Prod.mk.inj (some.inj h)
      exact ⟨[], [], rest, rfl, .nil, (append_nil _).symm, rfl⟩
  | case4 index out a b d e rest decoded hdigits _ ih =>
      obtain ⟨body, decoded', tail, rfl, hbody, rfl, rfl⟩ := ih h
      refine ⟨'\\' :: (['u', a, b, d, e] ++ body), decoded :: decoded', tail, by simp,
        .escape (escape_digits hdigits) hbody, by simp, ?_⟩
      rw [byteLen_escape_digits]
      omega
  | case6 index out escaped rest _ decoded hescaped _ ih =>
      obtain ⟨body, decoded', tail, rfl, hbody, rfl, rfl⟩ := ih h
      refine ⟨'\\' :: ([escaped] ++ body), decoded :: decoded', tail, by simp,
        .escape (Or.inl ⟨escaped, rfl, hescaped⟩) hbody, by simp, ?_⟩
      have hback : ('\\' : Char).utf8Size = 1 := rfl
      rw [byteLen_cons, singleton_append, byteLen_cons, hback]
      omega
  | case9 c rest index out hquote hback hcontrol ih =>
      obtain ⟨body, decoded, tail, rfl, hbody, rfl, rfl⟩ := ih h
      refine ⟨c :: body, c :: decoded, tail, rfl,
        .plain ⟨hquote, hback, Nat.le_of_not_lt hcontrol⟩ hbody, by simp, ?_⟩
      rw [byteLen_cons]
      omega
  | case1 | case3 | case5 | case7 | case8 => cases h

section Steps

variable {rest out : Str} {index : ℕ} {c : Char}

theorem stringLoop_quote : stringLoop ('"' :: rest) index out = some (out, index + 1) := by
  rw [stringLoop.eq_def]
  dsimp only
  rw [if_pos rfl]

theorem stringLoop_plain (hc : c ≠ '"' ∧ c ≠ '\\' ∧ 0x20 ≤ c.toNat) :
    stringLoop (c :: rest) index out = stringLoop rest (index + c.utf8Size) (out ++ [c]) := by
  rw [stringLoop.eq_def]
  dsimp only
  rw [if_neg hc.1, if_neg hc.2.1, if_neg (Nat.not_lt_of_le hc.2.2)]

theorem stringLoop_simple {escaped : Char} (hescaped : slashEscape escaped = some c) :
    stringLoop ('\\' :: escaped :: rest) index out =
      stringLoop rest (index + 1 + escaped.utf8Size) (out ++ [c]) := by
  have hne : escaped ≠ 'u' := by
    rintro rfl
    exact (nomatch tabled_slashEscape.unicode.symm.trans hescaped)
  rw [stringLoop.eq_def]
  dsimp only
  rw [if_neg (by decide), if_pos rfl]
  split
  · next heq => cases heq
  · next heq => exact absurd (List.cons.inj heq).1 hne
  · next heq =>
    obtain ⟨rfl, rfl⟩ := List.cons.inj heq
    rw [hescaped]

theorem stringLoop_digits {a b d e : Char}
    (hdigits : (fromStrRadix [a, b, d, e]).bind fromU32 = some c) :
    stringLoop ('\\' :: 'u' :: a :: b :: d :: e :: rest) index out =
      stringLoop rest (index + 2 + byteLen [a, b, d, e]) (out ++ [c]) := by
  rw [stringLoop.eq_def]
  dsimp only
  rw [if_neg (by decide), if_pos rfl]
  simp only [hdigits]

end Steps

theorem stringLoop_body {body s tail out : Str} {index : ℕ} (h : canonicalDialect.Body body s) :
    stringLoop (body ++ '"' :: tail) index out =
      some (out ++ s, index + byteLen body + 1) := by
  have hback : ('\\' : Char).utf8Size = 1 := rfl
  induction h generalizing index out with
  | nil =>
      rw [nil_append, stringLoop_quote, append_nil]
      rfl
  | @plain c body s hc _ ih =>
      rw [cons_append, stringLoop_plain hc, ih, append_assoc, singleton_append,
        byteLen_cons, Nat.add_assoc index]
  | @escape word body s c hword _ ih =>
      rcases hword with ⟨escaped, rfl, hescaped⟩ | ⟨digits, rfl, hlength, hdigits⟩
      · have hsize : index + 1 + escaped.utf8Size + byteLen body =
            index + byteLen ('\\' :: ([escaped] ++ body)) := by
          rw [byteLen_cons, singleton_append, byteLen_cons, hback]
          omega
        rw [cons_append, append_assoc, singleton_append,
          stringLoop_simple hescaped, ih, hsize, append_assoc, singleton_append]
      · obtain ⟨a, b, d, e, rfl⟩ := exists_four hlength
        have hsize : index + 2 + byteLen [a, b, d, e] + byteLen body =
            index + byteLen ('\\' :: (['u', a, b, d, e] ++ body)) := by
          rw [byteLen_escape_digits]
          omega
        have hstep : stringLoop ('\\' :: (['u', a, b, d, e] ++ body) ++ '"' :: tail) index out =
            stringLoop (body ++ '"' :: tail) (index + 2 + byteLen [a, b, d, e]) (out ++ [c]) :=
          stringLoop_digits hdigits
        rw [hstep, ih, hsize, append_assoc, singleton_append]

theorem yields_string {rest : List UInt8} (hpos : textPos text at_ rest) :
    Yields (textPos text) (string text at_) fun s rest' =>
      ∃ body, canonicalDialect.Body body s ∧ rest = bytes (quoted body) ++ rest' := by
  obtain ⟨after, rfl⟩ := exists_of_textPos hpos
  rw [string, sliceText_eq hpos, ok_bind]
  cases after with
  | nil => exact Yields.refused
  | cons c after =>
      refine yields_failIf_bind fun hc => ?_
      obtain rfl := not_not.mp hc
      cases hloop : stringLoop after 1 [] with
      | none => exact Yields.refused
      | some found =>
          obtain ⟨s, stop⟩ := found
          obtain ⟨body, decoded, tail, rfl, hbody, rfl, rfl⟩ := stringLoop_eq_some hloop
          have hsplit : bytes ('"' :: (body ++ '"' :: tail)) =
              bytes (quoted body) ++ bytes tail := by
            simp [quoted]
          have hsize : byteLen (quoted body) = 1 + byteLen body + 1 := by
            have hquote : ('"' : Char).utf8Size = 1 := rfl
            rw [quoted, byteLen_cons, byteLen_append, hquote, byteLen_cons, hquote]
            rfl
          rw [hsplit] at hpos
          refine Yields.ok (hsize ▸ textPos_advances hpos) ⟨body, hbody, hsplit⟩

theorem reaches_string {body s rest : Str} (hbody : canonicalDialect.Body body s)
    (hpos : textPos text at_ (bytes (quoted body ++ rest))) :
    Reaches (textPos text) (string text at_) s (bytes rest) := by
  have hloop : stringLoop (body ++ '"' :: rest) 1 [] = some (s, 1 + byteLen body + 1) :=
    stringLoop_body hbody
  have hsize : byteLen (quoted body) = 1 + byteLen body + 1 := by
    have hquote : ('"' : Char).utf8Size = 1 := rfl
    rw [quoted, byteLen_cons, byteLen_append, hquote, byteLen_cons, hquote]
    rfl
  have hsplit : quoted body ++ rest = '"' :: (body ++ '"' :: rest) := by simp [quoted]
  rw [string, sliceText_eq hpos, ok_bind, hsplit]
  dsimp only
  rw [failIf_bind_eq (not_not.mpr rfl), hloop]
  rw [bytes_append] at hpos
  exact Reaches.ok (hsize ▸ textPos_advances hpos)

theorem not_blank_of_close {close : Char} (h : close = ']' ∨ close = '}') :
    isBlank close = false := by
  rcases h with rfl | rfl <;> rfl

/-- The reader of `canonical.rs` follows its dialect. -/
theorem obeys_canonical (text : Str) : (reader text).Obeys canonicalDialect (textPos text) where
  rounds := length_of_textPos
  strict := rfl
  start := yields_start
  start_word := reaches_start_word
  start_open := reaches_start_open
  string := yields_string
  string_body := reaches_string
  number hpos _ := yields_number hpos
  number_text := reaches_number
  empty _ hpos := yields_eat hpos
  empty_closed hw hclose hpos := reaches_eat_true (not_blank_of_close hclose) hw hpos
  empty_open {_ w c close rest} hw hc hclose hpos :=
    ⟨[], blank_nil _, reaches_eat_false hc.1 (hc.ne_close hclose) hw hpos⟩
  next := by
    intro at_ rest close hclose hpos
    refine (yields_eat hpos).bind ?_
    rintro closed at₁ rest₁ hpos₁ ⟨w, hw, rfl⟩
    cases closed with
    | true => exact Yields.ok hpos₁ ⟨w, hw, rfl⟩
    | false =>
        refine (yields_eat hpos₁).bind ?_
        rintro comma at₂ rest₂ hpos₂ ⟨w', hw', rfl⟩
        refine yields_failIf_bind fun hcomma => ?_
        obtain rfl := Bool.eq_true_of_not_eq_false hcomma
        exact Yields.ok hpos₂ ⟨w ++ w', blank_append hw hw', by simp⟩
  next_closed hw hclose hpos :=
    (reaches_eat_true (not_blank_of_close hclose) hw hpos).bind fun _ hpos₁ => Reaches.ok hpos₁
  next_comma := by
    intro at_ w close rest hw hclose hpos
    have hne := (close_ascii hclose).2.symm
    refine (reaches_eat_false rfl hne hw hpos).bind fun at₁ hpos₁ => ?_
    refine (reaches_eat_true rfl (blank_nil _) hpos₁).bind fun at₂ hpos₂ => ?_
    exact Reaches.ok hpos₂
  key := by
    intro at_ rest hpos
    refine (yields_space hpos).bind ?_
    rintro ⟨⟩ at₁ rest₁ hpos₁ ⟨w, hw, rfl⟩
    refine (yields_string hpos₁).mono ?_
    rintro s rest₂ ⟨body, hbody, rfl⟩
    exact ⟨w, body, hw, hbody, by simp⟩
  key_body := by
    intro at_ w body s rest hw hbody hpos
    have hhead : ∀ c ∈ (quoted body ++ rest).head?, isBlank c = false := by
      intro c hc
      obtain rfl := some.inj hc
      rfl
    exact (reaches_space hw hhead hpos).bind fun at₁ hpos₁ => reaches_string hbody hpos₁
  colon := by
    intro at_ rest hpos
    refine (yields_eat hpos).bind ?_
    rintro found at₁ rest₁ hpos₁ ⟨w, hw, rfl⟩
    refine yields_failIf_bind fun hfound => ?_
    obtain rfl := Bool.eq_true_of_not_eq_false hfound
    exact Yields.ok hpos₁ ⟨w, hw, rfl⟩
  colon_read hw hpos :=
    (reaches_eat_true rfl hw hpos).bind fun _ hpos₁ => Reaches.ok hpos₁
  finish := by
    intro at_ rest hpos
    refine (yields_space hpos).bind ?_
    rintro ⟨⟩ at₁ rest₁ hpos₁ ⟨w, hw, rfl⟩
    refine yields_failIf_bind fun hend => ?_
    obtain ⟨before, after, rfl, rfl, rfl⟩ := hpos₁
    rw [byteLen_append, not_not] at hend
    have hafter : bytes after = [] := by
      apply eq_nil_of_length_eq_zero
      rw [length_bytes]
      omega
    exact Yields.ok ⟨before, after, rfl, rfl, rfl⟩ ⟨w, hw, by simp [hafter], hafter⟩
  finish_blank := by
    intro at_ w hw hpos
    rw [← append_nil w] at hpos
    have hhead : ∀ c ∈ ([] : Str).head?, isBlank c = false := fun c hc => (nomatch hc)
    refine (reaches_space hw hhead hpos).bind fun at₁ hpos₁ => ?_
    obtain ⟨before, after, rfl, rfl, hafter⟩ := hpos₁
    obtain rfl : after = [] := bytes_injective hafter.symm
    have hend : ¬ byteLen before ≠ byteLen (before ++ []) := by
      rw [append_nil]
      exact not_not.mpr rfl
    refine ⟨byteLen before, ?_, before, [], rfl, rfl, rfl⟩
    exact failIf_bind_eq hend

end Canonical

end Bran.Document.Json
