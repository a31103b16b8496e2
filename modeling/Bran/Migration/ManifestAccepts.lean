import Bran.Migration.ManifestReader

/-!
# The objects of a manifest

What the parser accepts is a manifest of the pieces that it reads.  The other way round, it
follows a manifest of other pieces to its end, or up to a piece that it does not read.
-/

namespace Bran.Migration

open Text CharCode Validation Words Scanner Document.Json JsonSyntax List

variable {α σ : Type} {input rest : List UInt8} {at_ : ℕ}

/-! ## What is accepted -/

section Loop

variable {close : Char}

theorem yields_expectCommaOrClose (hpos : bytesPos input at_ rest) :
    Yields (bytesPos input) (expectCommaOrClose input close at_) fun _ rest' =>
      ∃ w, Blank w ∧ ((∃ w', Blank w' ∧ rest = w ++ ','.toUInt8 :: (w' ++ rest') ∧ Solid rest' ∧
        rest'[0]? ≠ some close.toUInt8) ∨ (rest = w ++ rest' ∧ rest'[0]? = some close.toUInt8)) := by
  obtain ⟨w, rest₁, rfl, hw, -, hpos₁⟩ := skipWs_spec hpos
  rw [expectCommaOrClose]
  refine yields_failIf_bind fun hlength => ?_
  obtain ⟨byte, tail, rfl, hbyte⟩ := byteAt_spec hpos₁ hlength
  rw [hbyte, ok_bind]
  split
  · next hcomma =>
    subst hcomma
    obtain ⟨w', rest₂, rfl, hw', hsolid, hpos₂⟩ := skipWs_spec (bytesPos_succ hpos₁)
    rw [bytesPos_head hpos₂]
    refine yields_failIf_bind fun hclose => ?_
    exact Yields.ok hpos₂ ⟨w, hw, Or.inl ⟨w', hw', rfl, hsolid, hclose⟩⟩
  split
  · next hclose => exact Yields.ok hpos₁ ⟨w, hw, Or.inr ⟨rfl, by rw [hclose]; rfl⟩⟩
  · exact Yields.refused

variable {item : σ → ℕ → Checked MigrationError (σ × ℕ)} {Item : σ → List UInt8 → σ → Prop}

theorem itemsLoop_close {rounds : ℕ} {state : σ} (hclose : isAsciiWhitespace close.toUInt8 = false)
    (hpos : bytesPos input at_ (close.toUInt8 :: rest)) :
    itemsLoop input close item (rounds + 1) state at_ = .ok (state, at_ + 1) := by
  have hskip : skipWs input at_ = at_ := by
    have hnone : bytesPos input at_ ([] ++ close.toUInt8 :: rest) := hpos
    exact runOf_eq hnone (fun _ h => absurd h not_mem_nil) (solid_cons hclose)
  rw [itemsLoop, hskip, bytesPos_head hpos, if_pos getElem?_cons_zero]

theorem Items.blank {state state' : σ} {w raw : List UInt8} (hw : Blank w)
    (h : Items Piece.Read close Item state raw state') :
    Items Piece.Read close Item state (w ++ raw) state' := by
  cases h with
  | @last _ _ w₁ raw w₂ hw₁ h hw₂ =>
      rw [← append_assoc]
      exact .last (hw.append hw₁) h hw₂
  | @cons _ _ _ w₁ raw w₂ rest hw₁ h hw₂ hrest =>
      rw [← append_assoc]
      exact .cons (hw.append hw₁) h hw₂ hrest

/-- A reader of items, which no blanks precede. -/
def ReadsItem (input : List UInt8) (item : σ → ℕ → Checked MigrationError (σ × ℕ))
    (Item : σ → List UInt8 → σ → Prop) : Prop :=
  ∀ state at_ rest, Solid rest → bytesPos input at_ rest →
    Yields (bytesPos input) (item state at_) fun state' rest' =>
      ∃ raw, raw ≠ [] ∧ Item state raw state' ∧ rest = raw ++ rest'

theorem yields_itemsLoop (hitem : ReadsItem input item Item)
    (hclose : isAsciiWhitespace close.toUInt8 = false) {rounds : ℕ} {state : σ}
    (hpos : bytesPos input at_ rest) (hrounds : rest.length < rounds) :
    Yields (bytesPos input) (itemsLoop input close item rounds state at_) fun state' rest' =>
      ∃ raw, Bracketed Piece.Read close Item state raw state' ∧ rest = raw ++ rest' := by
  induction rounds generalizing state at_ rest with
  | zero => exact absurd hrounds (Nat.not_lt_zero _)
  | succ rounds ih =>
      obtain ⟨w, rest₁, rfl, hw, hsolid, hpos₁⟩ := skipWs_spec hpos
      rw [itemsLoop, bytesPos_head hpos₁]
      split
      · next hfirst =>
        cases rest₁ with
        | nil => cases hfirst
        | cons byte rest₁ =>
            obtain rfl : byte = close.toUInt8 := by simpa using hfirst
            exact Yields.ok (bytesPos_succ hpos₁) ⟨w ++ [close.toUInt8], .empty hw, by simp⟩
      · refine (hitem _ _ _ hsolid hpos₁).bind fun state₁ at₂ rest₂ hpos₂ hread => ?_
        obtain ⟨raw, hraw, hstep, rfl⟩ := hread
        refine (yields_expectCommaOrClose hpos₂).bind fun _ at₃ rest₃ hpos₃ hread => ?_
        have hlength : 0 < raw.length := length_pos_iff.mpr hraw
        rw [length_append, length_append] at hrounds
        obtain ⟨w₁, hw₁, ⟨w₂, hw₂, rfl, hsolid₃, hfirst⟩ | ⟨rfl, hfirst⟩⟩ := hread
        · rw [length_append, length_cons, length_append] at hrounds
          refine (ih hpos₃ (by omega)).mono ?_
          intro state' rest' hread
          obtain ⟨raw', hraw', rfl⟩ := hread
          refine ⟨w ++ (raw ++ (w₁ ++ ','.toUInt8 :: (w₂ ++ raw'))), ?_, by simp⟩
          cases hraw' with
          | @empty w₃ hw₃ =>
              -- the comma is followed by an item
              rw [append_assoc] at hsolid₃ hfirst
              obtain rfl := hsolid₃.blank hw₃
              exact absurd rfl hfirst
          | items hitems => exact .items (.cons hw hstep hw₁ (hitems.blank hw₂))
        · cases rest₃ with
          | nil => cases hfirst
          | cons byte rest₃ =>
              obtain rfl : byte = close.toUInt8 := by simpa using hfirst
              rw [length_append, length_cons] at hrounds
              obtain ⟨rounds, rfl⟩ := Nat.exists_eq_add_of_lt (by omega : 0 < rounds)
              dsimp only
              rw [itemsLoop_close hclose hpos₃]
              exact Yields.ok (bytesPos_succ hpos₃)
                ⟨w ++ (raw ++ (w₁ ++ [close.toUInt8])), .items (.last hw hstep hw₁), by simp⟩

end Loop

theorem lookup_mem {β : Type} {known : List (Str × β)} {key : Str} {read : β}
    (h : known.lookup key = some read) : key ∈ known.map Prod.fst := by
  by_contra hmem
  have hnone : known.lookup key = none := by
    rw [lookup_eq_none_iff]
    intro entry hentry
    rw [bne_iff_ne]
    intro heq
    exact hmem (heq ▸ mem_map_of_mem hentry)
  exact (nomatch hnone.symm.trans h)

theorem not_mem_of_lookup {β : Type} {known : List (Str × β)} {key : Str}
    (h : known.lookup key = none) : key ∉ known.map Prod.fst := by
  intro hmem
  obtain ⟨entry, hentry, rfl⟩ := mem_map.mp hmem
  exact absurd (lookup_eq_none_iff.mp h entry hentry) (by simp)

section Member

variable {known : Keys α} {value : Str → α → List UInt8 → Prop}
  (hbound : input.length ≤ maxManifestBytes)
  (hknown : ∀ {key read at_ rest}, known.lookup key = some read → bytesPos input at_ rest →
    Yields (bytesPos input) (read at_) fun v rest' => ∃ raw, value key v raw ∧ rest = raw ++ rest')
include hbound hknown

theorem readsItem_member :
    ReadsItem input (member input known) (Member Piece.Read (known.map Prod.fst) value) := by
  intro found at_ rest hsolid hpos
  refine (yields_parseString hpos).bind fun key at₁ rest₁ hpos₁ hread => ?_
  obtain ⟨w, body, hw, hbody, rfl⟩ := hread
  obtain rfl := hsolid.blank hw
  refine (yields_expect hpos₁).bind fun _ at₂ rest₂ hpos₂ hread => ?_
  obtain ⟨w₁, hw₁, rfl⟩ := hread
  dsimp only
  split
  · next read hlookup =>
    refine yields_failIf_bind fun hnew => ?_
    refine (hknown hlookup hpos₂).bind fun v at₃ rest₃ hpos₃ hread => ?_
    obtain ⟨raw, hvalue, rfl⟩ := hread
    exact Yields.ok hpos₃ ⟨_, cons_ne_nil _ _,
      .known (lookup_mem hlookup) ⟨body, rfl, hbody⟩ hnew hw₁ hvalue, by simp⟩
  · next hlookup =>
    refine (yields_skipValue hbound hpos₂).bind fun _ at₃ rest₃ hpos₃ hread => ?_
    obtain ⟨w₂, raw, hw₂, hraw, rfl⟩ := hread
    exact Yields.ok hpos₃ ⟨_, cons_ne_nil _ _,
      .foreign ⟨body, key, rfl, hbody, not_mem_of_lookup hlookup⟩ hw₁ hw₂ hraw, by simp⟩

theorem yields_parseObject (hpos : bytesPos input at_ rest) :
    Yields (bytesPos input) (parseObject input known at_) fun found rest' =>
      ∃ w raw, Blank w ∧
        Bracketed Piece.Read '\x7d' (Member Piece.Read (known.map Prod.fst) value) [] raw found ∧
        rest = w ++ '\x7b'.toUInt8 :: (raw ++ rest') := by
  refine (yields_expect hpos).bind fun _ at₁ rest₁ hpos₁ hread => ?_
  obtain ⟨w, hw, rfl⟩ := hread
  have hclose : isAsciiWhitespace '\x7d'.toUInt8 = false := rfl
  refine (yields_itemsLoop (readsItem_member hbound hknown) hclose hpos₁
    (length_lt_of_bytesPos hpos₁)).mono ?_
  intro found rest' hread
  obtain ⟨raw, hraw, rfl⟩ := hread
  exact ⟨w, raw, hw, hraw, rfl⟩

end Member

/-- A key of a table is one of its keys. -/
theorem lookup_cons {β : Type} {known : List (Str × β)} {name key : Str} {read read' : β}
    (h : ((name, read) :: known).lookup key = some read') :
    (key = name ∧ read' = read) ∨ known.lookup key = some read' := by
  by_cases hkey : key = name
  · subst hkey
    rw [lookup_cons_self] at h
    exact Or.inl ⟨rfl, (Option.some.inj h).symm⟩
  · rw [List.lookup_cons, beq_eq_false_iff_ne.mpr hkey] at h
    exact Or.inr h

theorem read_of_fileKeys {key : Str} {read : ℕ → Checked MigrationError (Str × ℕ)}
    (hlookup : (fileKeys input).lookup key = some read) : read = parseString input := by
  rw [fileKeys] at hlookup
  rcases lookup_cons hlookup with ⟨-, rfl⟩ | hlookup
  · rfl
  rcases lookup_cons hlookup with ⟨-, rfl⟩ | hlookup
  · rfl
  rcases lookup_cons hlookup with ⟨-, rfl⟩ | hlookup
  · rfl
  · cases hlookup

theorem yields_fileKeys {key : Str} {read : ℕ → Checked MigrationError (Str × ℕ)}
    (hlookup : (fileKeys input).lookup key = some read) (hpos : bytesPos input at_ rest) :
    Yields (bytesPos input) (read at_)
      fun v rest' => ∃ raw, TextValue Piece.Read key v raw ∧ rest = raw ++ rest' := by
  rw [read_of_fileKeys hlookup]
  refine (yields_parseString hpos).mono ?_
  intro v rest' hread
  obtain ⟨w, body, hw, hbody, rfl⟩ := hread
  exact ⟨_, .mk hw ⟨body, rfl, hbody⟩, by simp⟩

section Fields

variable (hbound : input.length ≤ maxManifestBytes)
include hbound

theorem readsItem_pushEntry : ReadsItem input (pushEntry input) (Entry Piece.Read) := by
  intro entries at_ rest hsolid hpos
  rw [pushEntry, parseFileEntry, bind_assoc]
  refine (yields_parseObject hbound yields_fileKeys hpos).bind
    fun found at₁ rest₁ hpos₁ hread => ?_
  obtain ⟨w, raw, hw, hraw, rfl⟩ := hread
  obtain rfl := hsolid.blank hw
  exact Yields.ok hpos₁ ⟨_, cons_ne_nil _ _, .mk hraw, rfl⟩

theorem yields_manifestKeys {key : Str} {read : ℕ → Checked MigrationError (Field × ℕ)}
    (hlookup : (manifestKeys input).lookup key = some read) (hpos : bytesPos input at_ rest) :
    Yields (bytesPos input) (read at_)
      fun field rest' => ∃ raw, FieldValue Piece.Read key field raw ∧ rest = raw ++ rest' := by
  rw [manifestKeys] at hlookup
  rcases lookup_cons hlookup with ⟨rfl, rfl⟩ | hlookup
  · refine (yields_parseU64 hpos).bind fun n at₁ rest₁ hpos₁ hread => ?_
    obtain ⟨w, digits, hw, hdigits, hn, rfl⟩ := hread
    exact Yields.ok hpos₁ ⟨_, .schemaVersion hw hdigits hn, by simp⟩
  rcases lookup_cons hlookup with ⟨rfl, rfl⟩ | hlookup
  · rw [readFiles, parseFilesArray, bind_assoc]
    refine (yields_expect hpos).bind fun _ at₁ rest₁ hpos₁ hread => ?_
    obtain ⟨w, hw, rfl⟩ := hread
    have hclose : isAsciiWhitespace ']'.toUInt8 = false := rfl
    refine (yields_itemsLoop (readsItem_pushEntry hbound) hclose hpos₁
      (length_lt_of_bytesPos hpos₁)).bind fun entries at₂ rest₂ hpos₂ hread => ?_
    obtain ⟨raw, hraw, rfl⟩ := hread
    exact Yields.ok hpos₂ ⟨_, .files hw hraw, by simp⟩
  · cases hlookup

/-- The parser does not panic, and what it accepts is a manifest of the pieces that it reads. -/
theorem parseManifestObject_reads : Safe (parseManifestObject input) ∧
    ∀ fields, parseManifestObject input = .ok fields → Manifest Piece.Read input fields := by
  have hobject := yields_parseObject hbound (yields_manifestKeys hbound) (bytesPos_zero input)
  rw [parseManifestObject]
  rcases hobject with ⟨error, hrefused⟩ | ⟨found, at₁, rest₁, hok, hpos₁, w, raw, hw, hraw, hinput⟩
  · rw [hrefused]
    exact ⟨safe_refused, fun _ h => by cases h⟩
  rw [hok, ok_bind]
  dsimp only
  obtain ⟨w', rest₂, rfl, hw', -, hpos₂⟩ := skipWs_spec hpos₁
  by_cases hend : skipWs input at₁ < input.length
  · rw [failIf, if_pos hend]
    exact ⟨safe_refused, fun _ h => by cases h⟩
  rw [failIf_bind_eq hend]
  split
  · next files hfiles =>
    refine ⟨safe_ok, fun fields h => ?_⟩
    obtain rfl := Except.ok.inj h
    have hnil : rest₂ = [] := by
      obtain ⟨before, hbefore, hlength⟩ := hpos₂
      rw [hlength, hbefore, length_append] at hend
      exact length_eq_zero_iff.mp (by omega)
    subst hnil
    rw [append_nil] at hinput
    rw [hinput]
    exact .mk hw hraw hw' hfiles
  · exact ⟨safe_refused, fun _ h => by cases h⟩

end Fields

end Bran.Migration
