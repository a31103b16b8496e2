import Bran.Document.JsonBytes

/-!
# The readers follow their dialects

Every step of the four readers of canonical JSON does what its dialect says.
-/

namespace Bran.Document.Json

open Text CharCode Validation Words Scanner List Option Utf8

/-! ## Blanks of the strict dialects -/

variable {D : Dialect}

/-- A dialect without blanks. -/
theorem blank_eq_nil (h : D.blank = false) {w : Str} (hw : D.Blank w) : w = [] := by
  cases w with
  | nil => rfl
  | cons c w => exact absurd (h.symm.trans (hw c mem_cons_self).1) Bool.false_ne_true

theorem Inner.ne_close {c close : Char} (hc : Inner c) (hclose : close = ']' ∨ close = '}') :
    c ≠ close := by
  rcases hclose with rfl | rfl
  · exact hc.2.1
  · exact hc.2.2

theorem close_ascii {close : Char} (hclose : close = ']' ∨ close = '}') :
    close.toNat < 128 ∧ close ≠ ',' := by
  rcases hclose with rfl | rfl <;> decide

theorem number_of_opens {c : Char} (h : opens c = some .number) :
    c = '-' ∨ c.isDigit = true := by
  unfold opens at h
  split at h
  · cases h
  split at h
  · cases h
  split at h
  · cases h
  split at h
  · assumption
  · cases h

/-! ## The readers of the adapters -/

section ByteReader

variable {ε : Type} {bad : ε} {input : List UInt8} {pos : ℕ → List UInt8 → Prop}
  {literal : Str → Json → ℕ → Checked ε (Token × ℕ)} {starts : UInt8 → Bool}
  {string : ℕ → Checked ε (Str × ℕ)} {number : ℕ → Checked ε (ℤ × ℕ)}
  {next : Char → ℕ → Checked ε (Bool × ℕ)} {colon : ℕ → Checked ε (Unit × ℕ)}

structure ReadsString (D : Dialect) (pos : ℕ → List UInt8 → Prop)
    (string : ℕ → Checked ε (Str × ℕ)) : Prop where
  yields : ∀ {at_ rest}, pos at_ rest → Yields pos (string at_) fun s rest' =>
    ∃ body, D.Body body s ∧ rest = bytes (quoted body) ++ rest'
  reaches : ∀ {at_ body s rest}, D.Body body s → pos at_ (bytes (quoted body ++ rest)) →
    Reaches pos (string at_) s (bytes rest)

structure ReadsNumber (pos : ℕ → List UInt8 → Prop) (number : ℕ → Checked ε (ℤ × ℕ)) : Prop where
  yields : ∀ {at_ rest}, pos at_ rest → rest ≠ [] → Yields pos (number at_) fun n rest' =>
    ∃ text, parseI64 text = some n ∧ rest = bytes text ++ rest'
  reaches : ∀ {at_ text n rest}, parseI64 text = some n → Delimits rest →
    pos at_ (bytes (text ++ rest)) → Reaches pos (number at_) n (bytes rest)

/-- A reader of what stands behind an item. -/
structure ReadsNext (pos : ℕ → List UInt8 → Prop) (next : Char → ℕ → Checked ε (Bool × ℕ)) :
    Prop where
  yields : ∀ {at_ rest close}, close = ']' ∨ close = '}' → pos at_ rest →
    Yields pos (next close at_) fun closed rest' =>
      rest = bytes [if closed then close else ','] ++ rest'
  closed : ∀ {at_ close rest}, close = ']' ∨ close = '}' → pos at_ (bytes (close :: rest)) →
    Reaches pos (next close at_) true (bytes rest)
  comma : ∀ {at_ close rest}, close = ']' ∨ close = '}' → pos at_ (bytes (',' :: rest)) →
    Reaches pos (next close at_) false (bytes rest)

structure ReadsColon (pos : ℕ → List UInt8 → Prop) (colon : ℕ → Checked ε (Unit × ℕ)) : Prop where
  yields : ∀ {at_ rest}, pos at_ rest → Yields pos (colon at_) fun _ rest' =>
    rest = bytes [':'] ++ rest'
  reaches : ∀ {at_ rest}, pos at_ (bytes (':' :: rest)) → Reaches pos (colon at_) () (bytes rest)

/-- A reader of an adapter follows a dialect without blanks when its own steps do. -/
theorem obeys_byteReader (h : Walks input pos) (hblank : D.blank = false)
    (hstrict : D.strict = true) (hliteral : ReadsWord pos literal)
    (hstarts : ∀ c : Char, c.toNat < 128 → c = '-' ∨ c.isDigit = true → starts c.toUInt8 = true)
    (hstring : ReadsString D pos string) (hnumber : ReadsNumber pos number)
    (hnext : ReadsNext pos next) (hcolon : ReadsColon pos colon) :
    (byteReader bad input literal starts string number next colon).Obeys D pos where
  rounds hpos := by
    obtain ⟨before, hinput, -⟩ := h.bytesPos hpos
    have hlength := congrArg List.length hinput
    rw [length_append] at hlength
    exact Nat.lt_succ_of_le (by omega)
  strict := hstrict.symm
  start hpos := yields_dispatch h hliteral hpos
  start_word := by
    intro at_ w text value rest hw hword hpos
    obtain rfl := blank_eq_nil hblank hw
    exact reaches_dispatch_word h hliteral hword hpos
  start_open := by
    intro at_ w c token rest hw hopens hpos
    obtain rfl := blank_eq_nil hblank hw
    refine reaches_dispatch_open h hopens (fun htoken => ?_) hpos
    subst htoken
    have hnumber := number_of_opens hopens
    have hc : c.toNat < 128 := by
      rcases hnumber with rfl | hdigit
      · decide
      · exact toNat_lt_of_isDigit hdigit
    exact hstarts c hc hnumber
  string := hstring.yields
  string_body := hstring.reaches
  number := hnumber.yields
  number_text := hnumber.reaches
  empty := by
    intro at_ rest close hclose hpos
    refine (yields_eatByte h (close_ascii hclose).1 hpos).mono ?_
    rintro closed rest' hrest
    exact ⟨[], blank_nil D, hrest⟩
  empty_closed := by
    intro at_ w close rest hw hclose hpos
    obtain rfl := blank_eq_nil hblank hw
    exact reaches_eatByte_true h (close_ascii hclose).1 hpos
  empty_open := by
    intro at_ w c close rest hw hc hclose hpos
    obtain rfl := blank_eq_nil hblank hw
    exact ⟨[], blank_nil D, reaches_eatByte_false h (close_ascii hclose).1 (hc.ne_close hclose) hpos⟩
  next := by
    intro at_ rest close hclose hpos
    refine (hnext.yields hclose hpos).mono ?_
    rintro closed rest' hrest
    exact ⟨[], blank_nil D, hrest⟩
  next_closed := by
    intro at_ w close rest hw hclose hpos
    obtain rfl := blank_eq_nil hblank hw
    exact hnext.closed hclose hpos
  next_comma := by
    intro at_ w close rest hw hclose hpos
    obtain rfl := blank_eq_nil hblank hw
    exact hnext.comma hclose hpos
  key := by
    intro at_ rest hpos
    refine (hstring.yields hpos).mono ?_
    rintro s rest' ⟨body, hbody, hrest⟩
    exact ⟨[], body, blank_nil D, hbody, hrest⟩
  key_body := by
    intro at_ w body s rest hw hbody hpos
    obtain rfl := blank_eq_nil hblank hw
    exact hstring.reaches hbody hpos
  colon := by
    intro at_ rest hpos
    refine (hcolon.yields hpos).mono ?_
    rintro ⟨⟩ rest' hrest
    exact ⟨[], blank_nil D, hrest⟩
  colon_read := by
    intro at_ w rest hw hpos
    obtain rfl := blank_eq_nil hblank hw
    exact hcolon.reaches hpos
  finish := by
    intro at_ rest hpos
    refine yields_failIf_bind fun hend => ?_
    obtain ⟨before, hinput, rfl⟩ := h.bytesPos hpos
    have hlength := congrArg List.length hinput
    rw [length_append, ← not_not.mp hend] at hlength
    obtain rfl : rest = [] := eq_nil_of_length_eq_zero (by omega)
    exact Yields.ok hpos ⟨[], blank_nil D, rfl, rfl⟩
  finish_blank := by
    intro at_ w hw hpos
    obtain rfl := blank_eq_nil hblank hw
    obtain ⟨before, hinput, hat⟩ := h.bytesPos hpos
    have hend : at_ = input.length := by rw [hinput, hat, bytes_nil, append_nil]
    refine ⟨at_, ?_, hpos⟩
    exact failIf_bind_eq (not_not.mpr hend)

theorem readsColon_expectByte (h : Walks input pos) :
    ReadsColon pos (expectByte bad input ':') where
  yields hpos := yields_expectByte h (by decide) hpos
  reaches hpos := reaches_expectByte h (by decide) hpos

theorem readsString_bytes {escape : ℕ → Checked ε (Char × ℕ)}
    (hescape : ReadsEscape (bytesPos input) escape D) :
    ReadsString D (bytesPos input) (bytesString bad input escape) where
  yields hpos := yields_bytesString hescape hpos
  reaches hbody hpos := reaches_bytesString hescape hbody hpos

theorem startsNumber_of {c : Char} (hc : c.toNat < 128) (h : c = '-' ∨ c.isDigit = true) :
    startsNumber c.toUInt8 = true := by
  rw [startsNumber, isDigitByte_toUInt8 hc]
  rcases h with rfl | hdigit
  · rfl
  · rw [hdigit, Bool.or_true]

end ByteReader

/-! ## Four bytes -/

section Four

variable {input : List UInt8} {at_ : ℕ} {rest : List UInt8}

theorem fourBytes_eq_some (hpos : bytesPos input at_ rest) {digits : List UInt8}
    (h : fourBytes input at_ = some digits) :
    ∃ rest', rest = digits ++ rest' ∧ digits.length = 4 ∧ bytesPos input (at_ + 4) rest' := by
  obtain ⟨-, hlength, before, rest', rfl, rfl⟩ := rangeOf_eq_some_iff.mp h
  obtain ⟨before', hinput, hat⟩ := hpos
  obtain ⟨rfl, rfl⟩ := List.append_inj hinput hat
  have hfour : digits.length = 4 := by omega
  refine ⟨rest', rfl, hfour, before ++ digits, (append_assoc _ _ _).symm, ?_⟩
  rw [length_append, hfour]

theorem fourBytes_eq {digits rest' : List UInt8} (hlength : digits.length = 4)
    (hpos : bytesPos input at_ (digits ++ rest')) :
    fourBytes input at_ = some digits ∧ bytesPos input (at_ + 4) rest' := by
  obtain ⟨before, rfl, rfl⟩ := hpos
  refine ⟨(located_intro before digits rest').rangeOf_eq (by rw [hlength]),
    before ++ digits, (append_assoc _ _ _).symm, ?_⟩
  rw [length_append, hlength]

end Four

theorem length_of_radix {digits : Str} {c : Char} (h : RadixDigits digits c) :
    byteLen digits = digits.length := by
  obtain ⟨code, hcode, -⟩ := bind_eq_some_iff.mp h
  exact byteLen_ascii (ascii_of_fromStrRadix hcode)

/-! ## The XLSX reader -/

section Xlsx

open Xlsx.JsonReader

variable {input : List UInt8}

theorem readsUnicode_xlsx :
    ReadsUnicode (bytesPos input) (Xlsx.JsonReader.unicode input) RadixDigits where
  yields := by
    intro at_ rest hpos
    rw [Xlsx.JsonReader.unicode]
    cases hfour : fourBytes input at_ with
    | none => exact Yields.refused
    | some field =>
        obtain ⟨rest', rfl, hlength, hpos'⟩ := fourBytes_eq_some hpos hfour
        rw [bind_some]
        cases htext : fromUtf8 field with
        | none => exact Yields.refused
        | some digits =>
            obtain rfl := fromUtf8_eq_some_iff.mp htext
            rw [bind_some]
            cases hcode : fromStrRadix digits with
            | none => exact Yields.refused
            | some code =>
                dsimp only
                split
                · next c hc =>
                  have hdigits : RadixDigits digits c := by
                    rw [RadixDigits, hcode, bind_some, hc]
                  rw [length_bytes, length_of_radix hdigits] at hlength
                  exact Yields.ok hpos' ⟨digits, hlength, hdigits, rfl⟩
                · exact Yields.refused
  reaches := by
    intro at_ digits c rest hlength hdigits hpos
    have hbytes : (bytes digits).length = 4 := by
      rw [length_bytes, length_of_radix hdigits, hlength]
    obtain ⟨hfour, hpos'⟩ := fourBytes_eq hbytes hpos
    obtain ⟨code, hcode, hc⟩ := bind_eq_some_iff.mp hdigits
    rw [Xlsx.JsonReader.unicode, hfour, bind_some, fromUtf8_bytes, bind_some, hcode]
    dsimp only
    rw [hc]
    exact Reaches.ok hpos'

theorem readsEscape_xlsx :
    ReadsEscape (bytesPos input) (Xlsx.JsonReader.escape input) xlsxDialect :=
  readsEscape_byteEscape (walks_bytes input) tabled_slashEscape readsUnicode_xlsx
    fun _ _ => Iff.rfl

theorem readsNumber_xlsx : ReadsNumber (bytesPos input) (Xlsx.JsonReader.number input) where
  yields := by
    intro at_ rest hpos _
    rw [Xlsx.JsonReader.number]
    have hle : at_ ≤ input.length := by
      obtain ⟨before, rfl, rfl⟩ := hpos
      rw [length_append]
      omega
    rcases yields_eatByte (ε := Refusal) (walks_bytes input) (c := '-') (by decide) hpos with
      ⟨error, herror⟩ | ⟨found, at₁, rest₁, hok, hpos₁, hrest⟩
    · rw [herror]
      exact Yields.refused
    · rw [hok, ok_bind]
      have hle₁ : at₁ ≤ input.length := by
        obtain ⟨before, rfl, rfl⟩ := hpos₁
        rw [length_append]
        omega
      have hfrom : at_ ≤ at₁ := by
        rw [eatByte] at hok
        split at hok <;> obtain ⟨-, rfl⟩ := Prod.mk.inj (Except.ok.inj hok) <;> omega
      have hbounds := skipDigits_bounds hle₁
      exact yields_bytesNumber hpos ⟨le_trans hfrom hbounds.1, hbounds.2⟩
  reaches := by
    intro at_ text n rest hn hrest hpos
    obtain ⟨sign, digits, rfl, hsign, hne, hdigits⟩ := shape_of_parseI64 hn
    have hreach : ∃ found, Reaches (bytesPos input) (eatByte input '-' at_ : Checked Refusal _)
        found (bytes (digits ++ rest)) ∧ byteLen sign = if found then 1 else 0 := by
      rcases hsign with rfl | rfl
      · obtain ⟨d, digits, rfl⟩ := exists_cons_of_ne_nil hne
        have hd : d ≠ '-' := by
          rintro rfl
          exact absurd (hdigits _ mem_cons_self) (by decide)
        exact ⟨false, reaches_eatByte_false (walks_bytes input) (by decide) hd hpos, rfl⟩
      · exact ⟨true, reaches_eatByte_true (walks_bytes input) (by decide) hpos, rfl⟩
    obtain ⟨found, ⟨at₁, hok, hpos₁⟩, hsize⟩ := hreach
    have hat : at₁ = at_ + byteLen sign := by
      rw [eatByte] at hok
      split at hok <;> obtain ⟨rfl, rfl⟩ := Prod.mk.inj (Except.ok.inj hok) <;> rw [hsize] <;> rfl
    rw [Xlsx.JsonReader.number, hok, ok_bind]
    dsimp only
    rw [skipDigits_eq hpos₁ hdigits hrest, hat, Nat.add_assoc, ← byteLen_append]
    exact reaches_bytesNumber hn hpos

theorem readsNext_xlsx : ReadsNext (bytesPos input) (Xlsx.JsonReader.next input) where
  yields := by
    intro at_ rest close hclose hpos
    refine (yields_eatByte (walks_bytes input) (by decide) hpos).bind ?_
    rintro comma at₁ rest₁ hpos₁ rfl
    cases comma with
    | true => exact Yields.ok hpos₁ rfl
    | false =>
        refine (yields_expectByte (walks_bytes input) (close_ascii hclose).1 hpos₁).bind ?_
        rintro ⟨⟩ at₂ rest₂ hpos₂ rfl
        exact Yields.ok hpos₂ rfl
  closed := by
    intro at_ close rest hclose hpos
    have hne := (close_ascii hclose).2
    refine (reaches_eatByte_false (walks_bytes input) (by decide) hne hpos).bind
      fun at₁ hpos₁ => ?_
    exact (reaches_expectByte (walks_bytes input) (close_ascii hclose).1 hpos₁).bind
      fun at₂ hpos₂ => Reaches.ok hpos₂
  comma := by
    intro at_ close rest hclose hpos
    exact (reaches_eatByte_true (walks_bytes input) (by decide) hpos).bind
      fun at₁ hpos₁ => Reaches.ok hpos₁

theorem obeys_xlsx (input : List UInt8) :
    (Xlsx.JsonReader.reader input).Obeys xlsxDialect (bytesPos input) :=
  obeys_byteReader (walks_bytes input) rfl rfl readsWord_bytesLiteral (fun _ => startsNumber_of)
    (readsString_bytes readsEscape_xlsx) readsNumber_xlsx readsNext_xlsx
    (readsColon_expectByte (walks_bytes input))

end Xlsx

/-! ## The DOCX reader -/

section Docx

variable {input : List UInt8}

theorem ascii_of_bytes {digits : Str} (h : (bytes digits).all isHexByte = true) :
    ∀ c ∈ digits, c.toNat < 128 := by
  intro c hc
  by_contra hlarge
  obtain ⟨first, tail, hencode, -, -⟩ := encode_eq_cons c
  have hmem : first ∈ String.utf8EncodeChar c := hencode ▸ mem_cons_self
  have hle := le_of_mem_encode (Nat.le_of_not_lt hlarge) hmem
  have hhex := List.all_eq_true.mp h first (mem_flatMap.mpr ⟨c, hc, hmem⟩)
  simp only [isHexByte, isDigitByte, Bool.or_eq_true, Bool.and_eq_true, decide_eq_true_eq,
    UInt8.le_iff_toNat_le] at hhex
  have hnine : ('9' : Char).toUInt8.toNat = 57 := rfl
  have hf : ('f' : Char).toUInt8.toNat = 102 := rfl
  have hF : ('F' : Char).toUInt8.toNat = 70 := rfl
  omega

/-- The bytes of digits are hexadecimal exactly when the digits are. -/
theorem all_isHexByte {digits : Str} :
    (bytes digits).all isHexByte = true ↔ digits.all isHexDigit = true := by
  constructor
  · intro h
    have hascii := ascii_of_bytes h
    rw [bytes_ascii hascii, List.all_map, List.all_eq_true] at h
    rw [List.all_eq_true]
    exact fun c hc => (isHexByte_toUInt8 (hascii c hc)).symm.trans (h c hc)
  · intro h
    rw [List.all_eq_true] at h
    have hascii : ∀ c ∈ digits, c.toNat < 128 := fun c hc => toNat_lt_of_isHexDigit (h c hc)
    rw [bytes_ascii hascii, List.all_map, List.all_eq_true]
    exact fun c hc => (isHexByte_toUInt8 (hascii c hc)).trans (h c hc)

theorem readsUnicode_docx : ReadsUnicode (bytesPos input) (Docx.JsonReader.unicode input)
    (fun digits c => HexDigits digits c ∧ c.toNat < 0x20) where
  yields := by
    intro at_ rest hpos
    rw [Docx.JsonReader.unicode]
    cases hfilter : (fourBytes input at_).filter fun digits => digits.all isHexByte with
    | none => exact Yields.refused
    | some field =>
        obtain ⟨hfour, hhex⟩ := filter_eq_some_iff.mp hfilter
        obtain ⟨rest', rfl, hlength, hpos'⟩ := fourBytes_eq_some hpos hfour
        dsimp only
        cases hcode : ((fromUtf8 field).bind fromStrRadix).bind fromU32 with
        | none => exact Yields.refused
        | some c =>
            obtain ⟨code, hdigits, hc⟩ := bind_eq_some_iff.mp hcode
            obtain ⟨digits, htext, hradix⟩ := bind_eq_some_iff.mp hdigits
            obtain rfl := fromUtf8_eq_some_iff.mp htext
            have haccepts : HexDigits digits c :=
              ⟨all_isHexByte.mp hhex, bind_eq_some_iff.mpr ⟨code, hradix, hc⟩⟩
            rw [length_bytes, length_of_radix haccepts.2] at hlength
            dsimp only
            split
            · next hlow => exact Yields.ok hpos' ⟨digits, hlength, ⟨haccepts, hlow⟩, rfl⟩
            · exact Yields.refused
  reaches := by
    intro at_ digits c rest hlength haccepts hpos
    obtain ⟨⟨hhex, hradix⟩, hlow⟩ := haccepts
    have hbytes : (bytes digits).length = 4 := by
      rw [length_bytes, length_of_radix hradix, hlength]
    obtain ⟨hfour, hpos'⟩ := fourBytes_eq hbytes hpos
    have hfilter : (fourBytes input at_).filter (fun digits => digits.all isHexByte) =
        some (bytes digits) := filter_eq_some_iff.mpr ⟨hfour, all_isHexByte.mpr hhex⟩
    have hchar : ((fromUtf8 (bytes digits)).bind fromStrRadix).bind fromU32 = some c := by
      rw [fromUtf8_bytes, bind_some]
      exact hradix
    rw [Docx.JsonReader.unicode, hfilter]
    dsimp only
    rw [hchar]
    dsimp only
    rw [if_pos hlow]
    exact Reaches.ok hpos'

theorem readsEscape_docx :
    ReadsEscape (bytesPos input) (Docx.JsonReader.escape input) docxDialect :=
  readsEscape_byteEscape (walks_bytes input) tabled_simpleEscape readsUnicode_docx
    fun _ _ => Iff.rfl

theorem readsNumber_docx : ReadsNumber (bytesPos input) (Docx.JsonReader.number input) where
  yields := by
    intro at_ rest hpos hne
    have hle : at_ + 1 ≤ input.length := by
      obtain ⟨before, rfl, rfl⟩ := hpos
      have hpositive := length_pos_iff.mpr hne
      rw [length_append]
      omega
    have hbounds := skipDigits_bounds hle
    exact yields_bytesNumber hpos ⟨by omega, hbounds.2⟩
  reaches := by
    intro at_ text n rest hn hrest hpos
    -- the first byte is passed over, whether it is the sign or a digit
    have hfirst : ∃ c tail, text = c :: tail ∧ c.toNat < 128 ∧
        ∀ d ∈ tail, d.isDigit = true := by
      obtain ⟨sign, digits, rfl, hsign, hne, hdigits⟩ := shape_of_parseI64 hn
      rcases hsign with rfl | rfl
      · obtain ⟨d, digits, rfl⟩ := exists_cons_of_ne_nil hne
        rw [forall_mem_cons] at hdigits
        exact ⟨d, digits, rfl, toNat_lt_of_isDigit hdigits.1, hdigits.2⟩
      · exact ⟨'-', digits, rfl, by decide, hdigits⟩
    obtain ⟨c, tail, rfl, hc, htail⟩ := hfirst
    have hpos₁ : bytesPos input (at_ + 1) (bytes (tail ++ rest)) := by
      rw [cons_append, bytes_cons, encode_ascii hc] at hpos
      exact bytesPos_succ hpos
    have hsize : byteLen (c :: tail) = 1 + byteLen tail := by
      have hone : byteLen [c] = 1 := by
        rw [← length_bytes, bytes_cons, encode_ascii hc]
        rfl
      rw [← hone]
      exact byteLen_append [c] tail
    rw [Docx.JsonReader.number, skipDigits_eq hpos₁ htail hrest, Nat.add_assoc, ← hsize]
    exact reaches_bytesNumber hn hpos

theorem readsNext_docx : ReadsNext (bytesPos input) (Docx.JsonReader.next input) where
  yields := by
    intro at_ rest close hclose hpos
    rw [Docx.JsonReader.next, bytesPos_head hpos]
    cases rest with
    | nil => exact Yields.refused
    | cons byte rest =>
        rw [getElem?_cons_zero]
        dsimp only
        split
        · next hcomma =>
          refine Yields.ok (bytesPos_succ hpos) ?_
          rw [hcomma]
          rfl
        split
        · next hbyte =>
          refine Yields.ok (bytesPos_succ hpos) ?_
          rw [hbyte, if_pos rfl, bytes_cons, encode_ascii (close_ascii hclose).1]
          rfl
        · exact Yields.refused
  closed := by
    intro at_ close rest hclose hpos
    obtain ⟨hascii, hne⟩ := close_ascii hclose
    have hbyte : close.toUInt8 ≠ ','.toUInt8 := fun heq =>
      hne (ascii_toUInt8_inj hascii (by decide) heq)
    rw [bytes_cons, encode_ascii hascii] at hpos
    rw [Docx.JsonReader.next, bytesPos_head hpos, singleton_append, getElem?_cons_zero]
    dsimp only
    rw [if_neg hbyte, if_pos rfl]
    exact Reaches.ok (bytesPos_succ hpos)
  comma := by
    intro at_ close rest hclose hpos
    rw [bytes_cons, encode_ascii (by decide)] at hpos
    rw [Docx.JsonReader.next, bytesPos_head hpos, singleton_append, getElem?_cons_zero]
    dsimp only
    rw [if_pos rfl]
    exact Reaches.ok (bytesPos_succ hpos)

theorem readsColon_docx : ReadsColon (bytesPos input) (Docx.JsonReader.colon input) where
  yields := by
    intro at_ rest hpos
    rw [Docx.JsonReader.colon, sliceBytes_eq hpos, ok_bind]
    refine yields_failIf_bind fun hcolon => ?_
    obtain ⟨rest', rfl⟩ := not_not.mp hcolon
    exact Yields.ok (bytesPos_succ hpos) rfl
  reaches := by
    intro at_ rest hpos
    rw [Docx.JsonReader.colon, sliceBytes_eq hpos, ok_bind,
      failIf_bind_eq (not_not.mpr ⟨bytes rest, (bytes_append [':'] rest).symm⟩)]
    rw [bytes_cons, encode_ascii (by decide)] at hpos
    exact Reaches.ok (bytesPos_succ hpos)

theorem obeys_docx (input : List UInt8) :
    (Docx.JsonReader.reader input).Obeys docxDialect (bytesPos input) :=
  obeys_byteReader (walks_bytes input) rfl rfl readsWord_bytesLiteral (fun _ => startsNumber_of)
    (readsString_bytes readsEscape_docx) readsNumber_docx readsNext_docx readsColon_docx

end Docx

end Bran.Document.Json
