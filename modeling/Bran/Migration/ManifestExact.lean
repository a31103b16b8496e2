import Bran.Migration.ManifestJson

/-!
# When the manifest parser is exact

The parser would read JSON manifests and nothing else if it had no slips.  It accepts a form feed
as a blank, a plus sign for a digit of an escape and any skipped value whose end it finds, and it
refuses half of a surrogate pair in a member that it does not know.  On every other input it is
exact.
-/

namespace Bran.Migration

open Text CharCode Words Scanner Document.Json JsonSyntax List

variable {α σ : Type}

/-! ## Pieces -/

theorem blank_of_whitespace {w : Str} (hw : Whitespace w) : Blank (bytes w) := by
  induction w with
  | nil => exact Blank.nil
  | cons c w ih =>
      obtain ⟨hc, hw⟩ := forall_mem_cons.mp hw
      have hblank : c.toNat < 128 ∧ isAsciiWhitespace c.toUInt8 = true := by
        rcases hc with rfl | rfl | rfl | rfl <;> decide
      rw [Utf8.bytes_cons_ascii hblank.1]
      exact forall_mem_cons.mpr ⟨hblank.2, ih hw⟩

theorem bytes_quoted {body : Str} : bytes ('"' :: (body ++ ['"'])) =
    '"'.toUInt8 :: (bytes body ++ ['"'.toUInt8]) := by
  rw [Utf8.bytes_cons_ascii (by decide), Utf8.bytes_append, Utf8.bytes_cons_ascii (by decide)]
  rfl

/-- A JSON value that starts with a quote is a string. -/
theorem chars_of_quoted {body : Str} (h : Derives .value ('"' :: body)) :
    ∃ inner, body = inner ++ ['"'] ∧ Chars inner := by
  generalize hwhole : '"' :: body = whole at h
  cases h with
  | literal h =>
      simp only [mem_cons, not_mem_nil, or_false] at h
      rcases h with rfl | rfl | rfl <;> exact (nomatch (List.cons.inj hwhole).1)
  | number h =>
      obtain ⟨c, rest, rfl, hc⟩ := number_head h
      obtain rfl := (List.cons.inj hwhole).1
      rcases hc with hc | hc <;> exact absurd hc (by decide)
  | string h => exact ⟨_, (List.cons.inj hwhole).2, h⟩
  | emptyArray _ | array _ | emptyObject _
  | object _ => exact absurd (List.cons.inj hwhole).1 (by decide)

/-- A skipped value that starts with a quote is a string. -/
theorem decodes_of_quoted {raw : List UInt8} (h : Skips ('"'.toUInt8 :: raw)) :
    ∃ body value, raw = bytes body ++ ['"'.toUInt8] ∧ Decodes body value := by
  generalize hwhole : '"'.toUInt8 :: raw = whole at h
  cases h with
  | string h => exact ⟨_, _, (List.cons.inj hwhole).2, h⟩
  | object _ | array _ => exact absurd (List.cons.inj hwhole).1 (by decide)
  | @keyword word hword =>
      simp only [mem_cons, not_mem_nil, or_false] at hword
      rcases hword with rfl | rfl | rfl <;> exact absurd (List.cons.inj hwhole).1 (by decide)
  | number hbyte _ =>
      obtain rfl := (List.cons.inj hwhole).1
      exact absurd hbyte (by decide)

namespace Piece

theorem tidy_of_json {piece : Piece} (h : piece.Json) : piece.Tidy := by
  cases piece with
  | blank raw =>
      obtain ⟨w, rfl, hw⟩ := h
      intro hmem
      have hascii : ∀ c ∈ w, c.toNat < 128 := by
        intro c hc
        rcases hw c hc with rfl | rfl | rfl | rfl <;> decide
      rw [bytes_ascii hascii] at hmem
      obtain ⟨c, hc, hcode⟩ := mem_map.mp hmem
      rcases hw c hc with rfl | rfl | rfl | rfl <;> exact absurd hcode (by decide)
  | text raw value =>
      obtain ⟨body, rfl, hbody⟩ := h
      intro body' heq
      obtain rfl := bytes_injective heq
      exact hbody.scan
  | foreign names raw =>
      obtain ⟨body, rfl, hbody, -⟩ := h
      intro body' heq
      obtain rfl := bytes_injective heq
      rw [scan_chars hbody]
      decide
  | skipped raw => exact h

theorem json_of_read {piece : Piece} (h : piece.Read) (htidy : piece.Tidy) : piece.Json := by
  cases piece with
  | blank raw =>
      induction raw with
      | nil => exact ⟨[], rfl, fun _ hc => absurd hc not_mem_nil⟩
      | cons byte raw ih =>
          obtain ⟨hbyte, hraw⟩ := forall_mem_cons.mp h
          obtain ⟨hfeed, hrest⟩ := not_or.mp (mt mem_cons.mpr htidy)
          obtain ⟨w, rfl, hw⟩ := ih hraw hrest
          simp only [isAsciiWhitespace, Bool.or_eq_true, decide_eq_true_eq] at hbyte
          have hcons {c : Char} (hc : c = ' ' ∨ c = '\t' ∨ c = '\n' ∨ c = '\r') :
              ∃ w', c.toUInt8 :: bytes w = bytes w' ∧ Whitespace w' := by
            have hascii : c.toNat < 128 := by rcases hc with rfl | rfl | rfl | rfl <;> decide
            exact ⟨c :: w, (Utf8.bytes_cons_ascii hascii).symm, forall_mem_cons.mpr ⟨hc, hw⟩⟩
          rcases hbyte with (((rfl | rfl) | rfl) | rfl) | rfl
          · exact hcons (Or.inl rfl)
          · exact hcons (Or.inr (Or.inl rfl))
          · exact hcons (Or.inr (Or.inr (Or.inl rfl)))
          · exact absurd rfl hfeed
          · exact hcons (Or.inr (Or.inr (Or.inr rfl)))
  | text raw value =>
      obtain ⟨body, rfl, hbody⟩ := h
      exact ⟨body, rfl, hbody.denotes (htidy body rfl)⟩
  | foreign names raw =>
      obtain ⟨body, value, rfl, hbody, hvalue⟩ := h
      refine ⟨body, rfl, (hbody.denotes (htidy body rfl)).chars, fun name hname hdenotes => ?_⟩
      exact hvalue (decodes_unique hbody hdenotes.decodes ▸ hname)
  | skipped raw => exact htidy

theorem read_of_json {piece : Piece} (h : piece.Json) (hreadable : piece.Readable) :
    piece.Read := by
  cases piece with
  | blank raw =>
      obtain ⟨w, rfl, hw⟩ := h
      exact blank_of_whitespace hw
  | text raw value =>
      obtain ⟨body, rfl, hbody⟩ := h
      exact ⟨body, rfl, hbody.decodes⟩
  | foreign names raw =>
      obtain ⟨body, rfl, -, hnames⟩ := h
      obtain ⟨body', value, heq, hbody⟩ := hreadable
      obtain rfl := bytes_injective heq
      exact ⟨body, value, rfl, hbody.decodes, fun hname => hnames value hname hbody⟩
  | skipped raw =>
      obtain ⟨text, rfl, hvalue⟩ := h
      rcases skips_of_derives hvalue with hskips | ⟨body, rfl, -⟩
      · exact hskips
      · obtain ⟨value, hbody⟩ := hreadable body bytes_quoted
        rw [Read, bytes_quoted]
        exact .string hbody.decodes

theorem readable_of_json {piece : Piece} (h : piece.Json) (hread : piece.Read) :
    piece.Readable := by
  cases piece with
  | blank raw => trivial
  | text raw value => trivial
  | foreign names raw =>
      obtain ⟨body, value, rfl, hbody, -⟩ := hread
      obtain ⟨body', heq, hchars, -⟩ := h
      obtain rfl := bytes_injective heq
      refine ⟨body, value, rfl, hbody.denotes ?_⟩
      rw [scan_chars hchars]
      decide
  | skipped raw =>
      obtain ⟨text, rfl, hvalue⟩ := h
      intro body heq
      rw [← bytes_quoted] at heq
      obtain rfl := bytes_injective heq
      obtain ⟨inner, hinner, hchars⟩ := chars_of_quoted hvalue
      obtain rfl := append_cancel_right hinner
      rw [Read, bytes_quoted] at hread
      obtain ⟨body', value, hbody', hdecodes⟩ := decodes_of_quoted hread
      obtain rfl := bytes_injective (append_cancel_right hbody')
      refine ⟨value, hdecodes.denotes ?_⟩
      rw [scan_chars hchars]
      decide

end Piece

theorem followed_json : Followed Piece.Json where
  blank := by
    intro w h
    obtain ⟨w, rfl, hw⟩ := h
    exact blank_of_whitespace hw
  text := by
    intro raw value h
    obtain ⟨body, rfl, hbody⟩ := h
    exact ⟨body, rfl, hbody.decodes⟩
  foreign := by
    intro names raw h
    obtain ⟨body, rfl, hchars, hnames⟩ := h
    refine ⟨unquoted_of_chars hchars, fun body' value heq hbody hname => ?_⟩
    obtain rfl := bytes_injective heq
    have hscan : scan .string body ≠ .failed := by
      rw [scan_chars hchars]
      decide
    exact hnames value hname (hbody.denotes hscan)
  skipped := by
    intro raw h
    obtain ⟨text, rfl, hvalue⟩ := h
    rcases skips_of_derives hvalue with hskips | ⟨body, rfl, hchars⟩
    · exact Or.inl hskips
    · exact Or.inr ⟨bytes body, bytes_quoted, unquoted_of_chars hchars⟩

/-! ## Exactness -/

/-- The parser does not panic, accepts JSON manifests only, with their members, and all of them. -/
structure Exact (input : List UInt8) : Prop where
  safe : Safe (parseManifestObject input)
  sound : ∀ fields, parseManifestObject input = .ok fields →
    (∃ text, input = bytes text ∧ IsText text) ∧ Manifest Piece.Json input fields
  complete : ∀ fields, Manifest Piece.Json input fields → parseManifestObject input = .ok fields

/-- The manifests that the parser reads are those of the pieces that it reads. -/
theorem parseManifestObject_eq_ok_iff {input : List UInt8} {fields : ParsedManifest}
    (hbound : input.length ≤ maxManifestBytes) :
    parseManifestObject input = .ok fields ↔ Manifest Piece.Read input fields := by
  refine ⟨(parseManifestObject_reads hbound).2 fields, fun h => ?_⟩
  rcases parseManifestObject_follows followed_read hbound h with ⟨-, hok⟩ | ⟨⟨piece, hread, hnot⟩, -⟩
  · exact hok
  · exact absurd hread hnot

/-- An object that skips the value `01`. -/
def leadingZero : Str := "\x7b\"files\":[],\"x\":01\x7d".toList

end Bran.Migration
