import Bran.Migration.ManifestAccepts

/-!
# Manifests of other pieces

The parser reads every manifest of the pieces that it reads.  A manifest of other pieces it
follows up to the first piece that it does not read, and there it refuses.
-/

namespace Bran.Migration

open Text CharCode Validation Words Scanner Document.Json JsonSyntax List

variable {α σ : Type} {input rest : List UInt8} {at_ : ℕ}

/-! ## The end of a string -/

/-- A string ends at its first quote without a backslash before it. -/
theorem Unquoted.append_inj {raw raw' rest' : List UInt8} (h : Unquoted raw) (h' : Unquoted raw')
    (heq : raw ++ '"'.toUInt8 :: rest = raw' ++ '"'.toUInt8 :: rest') : raw = raw' := by
  induction h generalizing raw' with
  | nil =>
      cases h' with
      | nil => rfl
      | byte hbyte _ => exact absurd (List.cons.inj heq).1.symm hbyte.1
      | escaped _ => exact absurd (List.cons.inj heq).1 (by decide)
  | @byte byte raw hbyte _ ih =>
      cases h' with
      | nil => exact absurd (List.cons.inj heq).1 hbyte.1
      | byte _ hrest =>
          obtain ⟨rfl, htail⟩ := List.cons.inj heq
          rw [ih hrest htail]
      | escaped _ => exact absurd (List.cons.inj heq).1 hbyte.2
  | @escaped byte raw _ ih =>
      cases h' with
      | nil => exact absurd (List.cons.inj heq).1 (by decide)
      | byte hbyte _ => exact absurd (List.cons.inj heq).1.symm hbyte.2
      | escaped hrest =>
          obtain ⟨hbyte, htail⟩ := List.cons.inj (List.cons.inj heq).2
          rw [hbyte, ih hrest htail]

theorem Unquoted.append {raw raw' : List UInt8} (h : Unquoted raw) (h' : Unquoted raw') :
    Unquoted (raw ++ raw') := by
  induction h with
  | nil => exact h'
  | byte hbyte _ ih => exact .byte hbyte ih
  | escaped _ ih => exact .escaped ih

/-- No digit of an escape is a quote or a backslash. -/
theorem unquoted_of_radix {digits : Str} {code : ℕ} (h : RadixNumber digits code) :
    Unquoted (bytes digits) := by
  obtain ⟨sign, rest, rfl, hsign, -, hrest, -⟩ := fromStrRadix_eq_some h
  have hdigit : ∀ c, isHexDigit c = true → c ≠ '"' ∧ c ≠ '\\' := by
    intro c hc
    constructor
    · rintro rfl
      exact absurd hc (by decide)
    · rintro rfl
      exact absurd hc (by decide)
  have hdigits : Unquoted (bytes rest) := by
    clear hsign h
    induction rest with
    | nil => exact .nil
    | cons c rest ih =>
        rw [all_cons, Bool.and_eq_true] at hrest
        have hascii := toNat_lt_of_isHexDigit hrest.1
        have hne := hdigit c hrest.1
        rw [Utf8.bytes_cons_ascii hascii]
        exact .byte ⟨fun heq => hne.1 (ascii_toUInt8_inj hascii (by decide) heq),
          fun heq => hne.2 (ascii_toUInt8_inj hascii (by decide) heq)⟩ (ih hrest.2)
  rcases hsign with rfl | rfl
  · exact hdigits
  · rw [singleton_append, Utf8.bytes_cons_ascii (by decide)]
    exact .byte (by decide) hdigits

theorem unquoted_of_escape {word : Str} {c : Char} {raw : List UInt8}
    (h : (manifestDialect RadixNumber).escape word c) (hraw : Unquoted raw) :
    Unquoted ('\\'.toUInt8 :: (bytes word ++ raw)) := by
  rcases h with ⟨escaped, rfl, htab⟩ | h
  · rw [Utf8.bytes_cons_ascii (tabled_slashEscape.ascii htab)]
    exact .escaped hraw
  cases h with
  | single _ hnumber _ =>
      rw [Utf8.bytes_cons_ascii (by decide)]
      exact .escaped ((unquoted_of_radix hnumber).append hraw)
  | pair _ _ hfirst hsecond _ _ =>
      rw [Utf8.bytes_cons_ascii (by decide), bytes_pair, cons_append, append_assoc]
      exact .escaped ((unquoted_of_radix hfirst).append
        (.escaped ((unquoted_of_radix hsecond).append hraw)))

theorem unquoted_of_raw {raw decoded : List UInt8}
    (h : Raw (manifestDialect RadixNumber) raw decoded) : Unquoted raw := by
  induction h with
  | nil => exact .nil
  | byte hbyte _ ih => exact .byte ⟨hbyte.1, hbyte.2.1⟩ ih
  | escape hword _ ih => exact unquoted_of_escape hword ih

theorem unquoted_of_decodes {body value : Str} (h : Decodes body value) :
    Unquoted (bytes body) := unquoted_of_raw (raw_of_body h)

/-- A string without a value is refused. -/
theorem parseString_refused {raw : List UInt8} (hraw : Unquoted raw)
    (hvalue : ∀ body value, raw = bytes body → ¬ Decodes body value)
    (hpos : bytesPos input at_ ('"'.toUInt8 :: (raw ++ '"'.toUInt8 :: rest))) :
    ∃ error, parseString input at_ = .error (.refused error) := by
  rcases yields_parseString hpos with hrefused | ⟨value, stop, rest', -, -, w, body, hw, hbody, heq⟩
  · exact hrefused
  have hsolid : Solid ('"'.toUInt8 :: (raw ++ '"'.toUInt8 :: rest)) := solid_cons rfl
  rw [heq] at hsolid
  obtain rfl := hsolid.blank hw
  have htail := (List.cons.inj heq).2
  exact absurd hbody (hvalue _ _ (hraw.append_inj (unquoted_of_decodes hbody) htail))

/-! ## Other pieces -/

/-- Pieces that the parser follows: a key that is not known is not taken for one that is, and a
value that it does not skip is a string. -/
structure Followed (ok : Piece → Prop) : Prop where
  blank : ∀ {w}, ok (.blank w) → Blank w
  text : ∀ {raw value}, ok (.text raw value) → ∃ body, raw = bytes body ∧ Decodes body value
  foreign : ∀ {names raw}, ok (.foreign names raw) →
    Unquoted raw ∧ ∀ body value, raw = bytes body → Decodes body value → value ∉ names
  skipped : ∀ {raw}, ok (.skipped raw) →
    Skips raw ∨ ∃ body, raw = '"'.toUInt8 :: (body ++ ['"'.toUInt8]) ∧ Unquoted body

theorem followed_read : Followed Piece.Read where
  blank h := h
  text h := h
  foreign := by
    intro names raw h
    obtain ⟨body, value, rfl, hbody, hvalue⟩ := h
    refine ⟨unquoted_of_decodes hbody, fun body' value' heq hbody' => ?_⟩
    obtain rfl := bytes_injective heq
    have hpos : bytesPos (bytes body ++ ['"'.toUInt8]) 0 (bytes body ++ ['"'.toUInt8]) :=
      bytesPos_zero _
    have hsame := (reaches_stringLoop hbody hpos).unique (reaches_stringLoop hbody' hpos)
    exact hsame ▸ hvalue
  skipped h := Or.inl h

/-- Some piece is not read. -/
def Halts (ok : Piece → Prop) : Prop := ∃ piece, ok piece ∧ ¬ piece.Read

/-- The pieces that are read. -/
def Kept (ok : Piece → Prop) (piece : Piece) : Prop := ok piece ∧ piece.Read

section Follows

variable {ok : Piece → Prop} (hok : Followed ok)
include hok

theorem Followed.kept_blank {w : List UInt8} (h : ok (.blank w)) : Kept ok (.blank w) :=
  ⟨h, hok.blank h⟩

theorem Followed.kept_text {raw : List UInt8} {value : Str} (h : ok (.text raw value)) :
    Kept ok (.text raw value) := ⟨h, hok.text h⟩

theorem follows_string {w raw : List UInt8} {value : Str} (hw : ok (.blank w))
    (hraw : ok (.text raw value))
    (hpos : bytesPos input at_ (w ++ '"'.toUInt8 :: (raw ++ '"'.toUInt8 :: rest))) :
    Reaches (bytesPos input) (parseString input at_) value rest := by
  obtain ⟨body, rfl, hbody⟩ := hok.text hraw
  exact reaches_parseString (hok.blank hw) hbody hpos

theorem follows_skipValue {w raw : List UInt8} (hbound : input.length ≤ maxManifestBytes)
    (hw : ok (.blank w)) (hraw : ok (.skipped raw)) (hrest : Delimited rest)
    (hpos : bytesPos input at_ (w ++ (raw ++ rest))) :
    Follows (bytesPos input) (skipValue input at_) () rest (Kept ok (.skipped raw)) (Halts ok) := by
  by_cases hskips : Skips raw
  · exact Or.inl ⟨⟨hraw, hskips⟩, reaches_skipValue hbound (hok.blank hw) hskips hrest hpos⟩
  obtain ⟨body, rfl, hbody⟩ := (hok.skipped hraw).resolve_left hskips
  refine Or.inr ⟨⟨_, hraw, hskips⟩, ?_⟩
  rw [cons_append, append_assoc, singleton_append] at hpos
  have hpos₁ := skipWs_eq (hok.blank hw) (solid_cons rfl) hpos
  have hvalue : ∀ text value, body = bytes text → ¬ Decodes text value := by
    rintro text value rfl htext
    exact hskips (.string htext)
  obtain ⟨error, hrefused⟩ := parseString_refused hbody hvalue hpos₁
  refine ⟨error, ?_⟩
  rw [skipValue, failIf_bind_eq (not_length_le hpos₁), byteAt_eq hpos₁, ok_bind, skipFrom,
    if_pos rfl, hrefused]
  rfl

end Follows

/-! ## Items -/

section Loop

variable {ok : Piece → Prop} (hok : Followed ok) {close : Char}

/-- What follows an item. -/
theorem delimited_blank {w : List UInt8} {byte : UInt8} (hw : Blank w)
    (hbyte : byte = ','.toUInt8 ∨ byte = ']'.toUInt8 ∨ byte = '\x7d'.toUInt8) :
    Delimited (w ++ byte :: rest) := by
  intro first hfirst
  cases w with
  | nil =>
      obtain rfl : byte = first := by simpa using hfirst
      exact Or.inr hbyte
  | cons b w =>
      obtain rfl : b = first := by simpa using hfirst
      exact Or.inl (hw b mem_cons_self)

theorem reaches_expectCommaOrClose_close {w : List UInt8} (hw : Blank w)
    (hclose : isAsciiWhitespace close.toUInt8 = false) (hcomma : close.toUInt8 ≠ ','.toUInt8)
    (hpos : bytesPos input at_ (w ++ close.toUInt8 :: rest)) :
    Reaches (bytesPos input) (expectCommaOrClose input close at_) () (close.toUInt8 :: rest) := by
  have hpos₁ := skipWs_eq hw (solid_cons hclose) hpos
  rw [expectCommaOrClose, failIf_bind_eq (not_length_le hpos₁), byteAt_eq hpos₁, ok_bind,
    if_neg hcomma, if_pos rfl]
  exact Reaches.ok hpos₁

/-- Behind a comma the blanks are skipped as well. -/
theorem expectCommaOrClose_comma {w w' : List UInt8} {byte : UInt8} (hw : Blank w) (hw' : Blank w')
    (hbyte : isAsciiWhitespace byte = false) (hclose : byte ≠ close.toUInt8)
    (hpos : bytesPos input at_ (w ++ ','.toUInt8 :: (w' ++ byte :: rest))) :
    ∃ next, expectCommaOrClose input close at_ = .ok ((), skipWs input next) ∧
      bytesPos input next (w' ++ byte :: rest) := by
  have hpos₁ := skipWs_eq hw (solid_cons rfl) hpos
  have hpos₂ := bytesPos_succ hpos₁
  have hpos₃ := skipWs_eq hw' (solid_cons hbyte) hpos₂
  refine ⟨skipWs input at_ + 1, ?_, hpos₂⟩
  rw [expectCommaOrClose, failIf_bind_eq (not_length_le hpos₁), byteAt_eq hpos₁, ok_bind,
    if_pos rfl, bytesPos_head hpos₃, failIf_bind_eq]
  · rfl
  · intro hfirst
    exact hclose (by simpa using hfirst)

variable {item : σ → ℕ → Checked MigrationError (σ × ℕ)} {Item Item' : σ → List UInt8 → σ → Prop}

/-- The items start with something that is no blank and no bracket. -/
def Starts (close : Char) (Item : σ → List UInt8 → σ → Prop) : Prop :=
  ∀ state raw state', Item state raw state' → ∃ byte tail, raw = byte :: tail ∧
    isAsciiWhitespace byte = false ∧ byte ≠ close.toUInt8

def FollowsItem (input : List UInt8) (item : σ → ℕ → Checked MigrationError (σ × ℕ))
    (Item Item' : σ → List UInt8 → σ → Prop) (stopped : Prop) : Prop :=
  ∀ state raw state' at_ rest, Item state raw state' → Delimited rest →
    bytesPos input at_ (raw ++ rest) →
      Follows (bytesPos input) (item state at_) state' rest (Item' state raw state') stopped

theorem itemsLoop_skipWs {rounds : ℕ} {state : σ} (hpos : bytesPos input at_ rest) :
    itemsLoop input close item rounds state (skipWs input at_) =
      itemsLoop input close item rounds state at_ := by
  cases rounds with
  | zero => rfl
  | succ rounds => rw [itemsLoop, itemsLoop, skipWs_skipWs hpos]

theorem Items.starts (hblank : ∀ w, ok (.blank w) → Blank w) (hstarts : Starts close Item)
    {state state' : σ} {raw : List UInt8} (h : Items ok close Item state raw state') :
    ∃ w byte tail, raw = w ++ byte :: tail ∧ Blank w ∧ isAsciiWhitespace byte = false ∧
      byte ≠ close.toUInt8 := by
  cases h with
  | last hw h _ | cons hw h _ _ =>
      obtain ⟨byte, tail, rfl, hbyte⟩ := hstarts _ _ _ h
      exact ⟨_, byte, _, rfl, hblank _ hw, hbyte⟩

/-- The bracket that closes the items. -/
structure Closing (close : Char) : Prop where
  blank : isAsciiWhitespace close.toUInt8 = false
  delimits : close.toUInt8 = ']'.toUInt8 ∨ close.toUInt8 = '\x7d'.toUInt8

theorem Closing.ne_comma (h : Closing close) : close.toUInt8 ≠ ','.toUInt8 := by
  rcases h.delimits with heq | heq <;> rw [heq] <;> decide

variable {stopped : Prop} (hclose : Closing close) (hstarts : Starts close Item)
  (hitem : FollowsItem input item Item Item' stopped)
include hok hclose hstarts hitem

theorem follows_items {rounds : ℕ} {state state' : σ} {raw : List UInt8}
    (h : Items ok close Item state raw state') (hpos : bytesPos input at_ (raw ++ rest))
    (hrounds : raw.length < rounds) :
    Follows (bytesPos input) (itemsLoop input close item rounds state at_) state' rest
      (Items (Kept ok) close Item' state raw state') stopped := by
  -- the first item, and then what stands behind it
  have hfirst {rounds : ℕ} {state state₁ state' : σ} {w raw raw₁ tail : List UInt8} {at_ : ℕ}
      {kept : Prop} (hw : ok (.blank w)) (h : Item state raw state₁) (htail : Delimited tail)
      (hpos : bytesPos input at_ (w ++ (raw ++ tail)))
      (hnext : Item' state raw state₁ → ∀ at₂, bytesPos input at₂ tail →
        Follows (bytesPos input) (do
          let next ← expectCommaOrClose input close at₂
          itemsLoop input close item rounds state₁ next.2) state' raw₁ kept stopped) :
      Follows (bytesPos input) (itemsLoop input close item (rounds + 1) state at_) state' raw₁ kept
        stopped := by
    obtain ⟨byte, end_, rfl, hbyte, hne⟩ := hstarts _ _ _ h
    have hpos₁ : bytesPos input (skipWs input at_) (byte :: (end_ ++ tail)) :=
      skipWs_eq (hok.blank hw) (solid_cons hbyte) hpos
    have hopen : ¬ (byte :: (end_ ++ tail))[0]? = some close.toUInt8 := by
      intro hfirst
      exact hne (by simpa using hfirst)
    rw [itemsLoop, bytesPos_head hpos₁, if_neg hopen]
    exact (hitem _ _ _ _ _ h htail hpos₁).bind fun hstep at₂ hpos₂ => hnext hstep at₂ hpos₂
  induction h generalizing rounds at_ with
  | @last state state' w raw w' hw h hw' =>
      rw [append_assoc, append_assoc, append_assoc, singleton_append] at hpos
      rw [length_append, length_append, length_append, length_singleton]
        at hrounds
      obtain ⟨rounds, rfl⟩ := exists_round hrounds
      rw [Nat.zero_add] at hrounds ⊢
      have htail : Delimited (w' ++ close.toUInt8 :: rest) :=
        delimited_blank (hok.blank hw') (Or.inr hclose.delimits)
      refine hfirst hw h htail hpos fun hstep at₂ hpos₂ => ?_
      refine (reaches_expectCommaOrClose_close (hok.blank hw') hclose.blank hclose.ne_comma
        hpos₂).follows fun at₃ hpos₃ => ?_
      obtain ⟨byte, tail, rfl, -⟩ := hstarts _ _ _ h
      rw [length_cons] at hrounds
      obtain ⟨rounds, rfl⟩ := Nat.exists_eq_add_of_lt (by omega : 0 < rounds)
      dsimp only
      rw [itemsLoop_close hclose.blank hpos₃]
      exact Or.inl ⟨.last (hok.kept_blank hw) hstep (hok.kept_blank hw'),
        Reaches.ok (bytesPos_succ hpos₃)⟩
  | @cons state state₁ state' w raw w' more hw h hw' hmore ih =>
      rw [append_assoc, append_assoc, append_assoc, cons_append] at hpos
      rw [length_append, length_append, length_append, length_cons] at hrounds
      obtain ⟨rounds, rfl⟩ := exists_round hrounds
      rw [Nat.zero_add] at hrounds ⊢
      have htail : Delimited (w' ++ ','.toUInt8 :: (more ++ rest)) :=
        delimited_blank (hok.blank hw') (Or.inl rfl)
      refine hfirst hw h htail hpos fun hstep at₂ hpos₂ => ?_
      obtain ⟨w'', byte, tail, rfl, hw'', hbyte, hne⟩ :=
        hmore.starts (fun _ => hok.blank) hstarts
      rw [append_assoc, cons_append] at hpos₂
      obtain ⟨next, hexpect, hpos₃⟩ :=
        expectCommaOrClose_comma (hok.blank hw') hw'' hbyte hne hpos₂
      rw [hexpect, ok_bind]
      dsimp only
      rw [itemsLoop_skipWs hpos₃]
      rw [← cons_append, ← append_assoc] at hpos₃
      exact (ih hpos₃ (by omega)).mono fun hitems =>
        .cons (hok.kept_blank hw) hstep (hok.kept_blank hw') hitems

theorem follows_itemsLoop {state state' : σ} {raw : List UInt8}
    (h : Bracketed ok close Item state raw state') (hpos : bytesPos input at_ (raw ++ rest)) :
    Follows (bytesPos input) (itemsLoop input close item (input.length + 1) state at_) state' rest
      (Bracketed (Kept ok) close Item' state raw state') stopped := by
  cases h with
  | @empty w hw =>
      rw [append_assoc, singleton_append] at hpos
      have hpos₁ := skipWs_eq (hok.blank hw) (solid_cons hclose.blank) hpos
      rw [← itemsLoop_skipWs hpos, itemsLoop_close hclose.blank hpos₁]
      exact Or.inl ⟨.empty (hok.kept_blank hw), Reaches.ok (bytesPos_succ hpos₁)⟩
  | items h =>
      have hlength := length_lt_of_bytesPos hpos
      rw [length_append] at hlength
      exact (follows_items hok hclose hstarts hitem h hpos (by omega)).mono .items

end Loop

/-! ## Objects -/

theorem exists_lookup {β : Type} {known : List (Str × β)} {key : Str}
    (h : key ∈ known.map Prod.fst) : ∃ read, known.lookup key = some read := by
  cases hlookup : known.lookup key with
  | none => exact absurd h (not_mem_of_lookup hlookup)
  | some read => exact ⟨read, rfl⟩

section Member

variable {ok : Piece → Prop} (hok : Followed ok) {known : Keys α}
  {value value' : Str → α → List UInt8 → Prop} (hbound : input.length ≤ maxManifestBytes)

/-- The readers of a table follow the values of its keys. -/
def FollowsKeys (input : List UInt8) (known : Keys α) (value value' : Str → α → List UInt8 → Prop)
    (stopped : Prop) : Prop :=
  ∀ key read v raw at_ rest, known.lookup key = some read → value key v raw → Delimited rest →
    bytesPos input at_ (raw ++ rest) →
      Follows (bytesPos input) (read at_) v rest (value' key v raw) stopped

theorem starts_member {names : List Str} :
    Starts '\x7d' (Member ok names value) := by
  intro found raw found' h
  cases h with
  | known | foreign => exact ⟨_, _, rfl, rfl, by decide⟩

variable (hknown : FollowsKeys input known value value' (Halts ok))
include hok hbound hknown

theorem followsItem_member : FollowsItem input (member input known)
    (Member ok (known.map Prod.fst) value) (Member (Kept ok) (known.map Prod.fst) value')
    (Halts ok) := by
  intro found raw found' at_ rest h hrest hpos
  cases h with
  | @known name v body w raw hname hkey hnew hw hvalue =>
      obtain ⟨read, hlookup⟩ := exists_lookup hname
      obtain ⟨text, rfl, htext⟩ := hok.text hkey
      simp only [cons_append, append_assoc] at hpos
      have hpos₀ : bytesPos input at_ ([] ++ '"'.toUInt8 :: (bytes text ++ '"'.toUInt8 ::
          (w ++ ':'.toUInt8 :: (raw ++ rest)))) := hpos
      refine (reaches_parseString Blank.nil htext hpos₀).follows fun at₁ hpos₁ => ?_
      refine (reaches_expect (hok.blank hw) rfl hpos₁).follows fun at₂ hpos₂ => ?_
      dsimp only
      rw [hlookup]
      dsimp only
      rw [failIf_bind_eq hnew]
      refine (hknown _ _ _ _ _ _ hlookup hvalue hrest hpos₂).bind fun hkept at₃ hpos₃ => ?_
      exact Or.inl ⟨.known hname (hok.kept_text hkey) hnew (hok.kept_blank hw) hkept,
        Reaches.ok hpos₃⟩
  | @foreign body w w' raw hkey hw hw' hvalue =>
      simp only [cons_append, append_assoc] at hpos
      by_cases hread : ∃ text value, body = bytes text ∧ Decodes text value
      · obtain ⟨text, key, rfl, htext⟩ := hread
        have hnew := (hok.foreign hkey).2 _ _ rfl htext
        have hpos₀ : bytesPos input at_ ([] ++ '"'.toUInt8 :: (bytes text ++ '"'.toUInt8 ::
            (w ++ ':'.toUInt8 :: (w' ++ (raw ++ rest))))) := hpos
        have hlookup : known.lookup key = none := by
          cases hlookup : known.lookup key with
          | none => rfl
          | some read => exact absurd (lookup_mem hlookup) hnew
        refine (reaches_parseString Blank.nil htext hpos₀).follows fun at₁ hpos₁ => ?_
        refine (reaches_expect (hok.blank hw) rfl hpos₁).follows fun at₂ hpos₂ => ?_
        dsimp only
        rw [hlookup]
        dsimp only
        refine (follows_skipValue hok hbound hw' hvalue hrest hpos₂).bind
          fun hkept at₃ hpos₃ => ?_
        exact Or.inl ⟨.foreign ⟨hkey, text, key, rfl, htext, hnew⟩ (hok.kept_blank hw)
          (hok.kept_blank hw') hkept, Reaches.ok hpos₃⟩
      · -- the key has no value
        obtain ⟨error, hrefused⟩ := parseString_refused (hok.foreign hkey).1
          (fun text value heq htext => hread ⟨text, value, heq, htext⟩) hpos
        refine Or.inr ⟨⟨_, hkey, ?_⟩, error, ?_⟩
        · intro h
          obtain ⟨text, value, heq, htext, -⟩ := h
          exact hread ⟨text, value, heq, htext⟩
        · rw [member, hrefused]
          rfl

theorem follows_parseObject {w raw : List UInt8} {found : List (Str × α)} (hw : Blank w)
    (h : Bracketed ok '\x7d' (Member ok (known.map Prod.fst) value) [] raw found)
    (hpos : bytesPos input at_ (w ++ '\x7b'.toUInt8 :: (raw ++ rest))) :
    Follows (bytesPos input) (parseObject input known at_) found rest
      (Bracketed (Kept ok) '\x7d' (Member (Kept ok) (known.map Prod.fst) value') [] raw found)
      (Halts ok) := by
  refine (reaches_expect hw rfl hpos).follows fun at₁ hpos₁ => ?_
  have hclosing : Closing '\x7d' := ⟨rfl, Or.inr rfl⟩
  exact follows_itemsLoop hok hclosing starts_member (followsItem_member hok hbound hknown) h
    hpos₁

end Member

/-! ## The manifest -/

section Manifest

variable {ok : Piece → Prop} (hok : Followed ok) (hbound : input.length ≤ maxManifestBytes)

theorem follows_fileKeys (hok : Followed ok) : FollowsKeys input (fileKeys input) (TextValue ok)
    (TextValue (Kept ok)) (Halts ok) := by
  intro key read v raw at_ rest hlookup hvalue _ hpos
  rw [read_of_fileKeys hlookup]
  cases hvalue with
  | @mk w body hw hbody =>
      simp only [append_assoc, cons_append] at hpos
      exact Or.inl ⟨.mk (hok.kept_blank hw) (hok.kept_text hbody), follows_string hok hw hbody hpos⟩

theorem starts_entry : Starts ']' (Entry ok) := by
  intro entries raw entries' h
  cases h with
  | mk => exact ⟨_, _, rfl, rfl, by decide⟩

include hok hbound

theorem followsItem_pushEntry : FollowsItem input (pushEntry input) (Entry ok) (Entry (Kept ok))
    (Halts ok) := by
  intro entries raw entries' at_ rest h _ hpos
  cases h with
  | @mk raw found h =>
      have hpos₀ : bytesPos input at_ ([] ++ '\x7b'.toUInt8 :: (raw ++ rest)) := hpos
      rw [pushEntry, parseFileEntry, bind_assoc]
      refine (follows_parseObject hok hbound (follows_fileKeys hok) Blank.nil h hpos₀).bind
        fun hkept at₁ hpos₁ => ?_
      exact Or.inl ⟨.mk hkept, Reaches.ok hpos₁⟩

theorem follows_manifestKeys : FollowsKeys input (manifestKeys input) (FieldValue ok)
    (FieldValue (Kept ok)) (Halts ok) := by
  intro key read field raw at_ rest hlookup hvalue hrest hpos
  cases hvalue with
  | @schemaVersion w digits n hw hdigits hn =>
      obtain rfl := Option.some.inj hlookup
      rw [append_assoc] at hpos
      refine (reaches_parseU64 (hok.blank hw) hdigits hn (hrest.run (by decide)) hpos).follows
        fun at₁ hpos₁ => ?_
      exact Or.inl ⟨.schemaVersion (hok.kept_blank hw) hdigits hn, Reaches.ok hpos₁⟩
  | @files w raw entries hw h =>
      obtain rfl := Option.some.inj hlookup
      rw [append_assoc, cons_append] at hpos
      rw [readFiles, parseFilesArray, bind_assoc]
      refine (reaches_expect (hok.blank hw) rfl hpos).follows fun at₁ hpos₁ => ?_
      have hclosing : Closing ']' := ⟨rfl, Or.inl rfl⟩
      refine (follows_itemsLoop hok hclosing starts_entry (followsItem_pushEntry hok hbound) h
        hpos₁).bind fun hkept at₂ hpos₂ => ?_
      exact Or.inl ⟨.files (hok.kept_blank hw) hkept, Reaches.ok hpos₂⟩

/-- A manifest is read, and all of its pieces are; or the parser refuses, and some piece is not
read. -/
theorem parseManifestObject_follows {fields : ParsedManifest} (h : Manifest ok input fields) :
    (Manifest (Kept ok) input fields ∧ parseManifestObject input = .ok fields) ∨
      (Halts ok ∧ ∃ error, parseManifestObject input = .error (.refused error)) := by
  cases h with
  | @mk w raw w' found files hw h hw' hfiles =>
      have hobject := follows_parseObject hok hbound (follows_manifestKeys hok hbound)
        (hok.blank hw) h (bytesPos_zero _)
      rw [parseManifestObject]
      rcases hobject with ⟨hkept, at₁, hread, hpos₁⟩ | ⟨hstopped, error, hrefused⟩
      · rw [hread, ok_bind]
        dsimp only
        have hnone : bytesPos (w ++ '\x7b'.toUInt8 :: (raw ++ w')) at₁ (w' ++ []) := by
          rwa [append_nil]
        have hend := skipWs_eq (hok.blank hw') solid_nil hnone
        rw [failIf_bind_eq, hfiles]
        · exact Or.inl ⟨.mk (hok.kept_blank hw) hkept (hok.kept_blank hw') hfiles, rfl⟩
        · obtain ⟨before, hbefore, hlength⟩ := hend
          rw [hlength, hbefore, append_nil]
          exact lt_irrefl _
      · rw [hrefused]
        exact Or.inr ⟨hstopped, error, rfl⟩

end Manifest

end Bran.Migration
