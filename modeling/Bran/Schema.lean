import Bran.Library.Encoding
import Bran.Library.OrdMap

/-!
# Canonical strings

`write_escaped_string_for_bundle` of `schema.rs`, which every canonical record of
the program is written with, and the fact that its output can be read back: no
string is the beginning of another one, whatever scalars it holds.
-/

namespace Bran.Schema

open Text

/-! ## YAML values -/

/-- `YamlValue`; the entries of a mapping stand in key order, as a `BTreeMap` holds them. -/
inductive YamlValue
  | null
  | bool (value : Bool)
  | number (text : Str)
  | string (text : Str)
  | sequence (items : List YamlValue)
  | mapping (entries : List (Str × YamlValue))

namespace YamlValue

/-- The mapping of a `BTreeMap`. -/
def ofMap (map : OrdMap Str YamlValue) : YamlValue := .mapping map.entries

end YamlValue

/-! ## Escaped strings -/

def escapeChar (c : Char) : Str :=
  if c = '"' then ['\\', '"']
  else if c = '\\' then ['\\', '\\']
  else if c = Char.ofNat 0x08 then ['\\', 'b']
  else if c = Char.ofNat 0x0C then ['\\', 'f']
  else if c = '\n' then ['\\', 'n']
  else if c = '\r' then ['\\', 'r']
  else if c = '\t' then ['\\', 't']
  else if c.toNat < 0x20 ∨ c.toNat = 0x7F then '\\' :: 'u' :: hexadecimal 4 c.toNat
  else [c]

/-- `write_escaped_string_for_bundle`. -/
def writeEscapedString (s : Str) : Str := '"' :: (s.flatMap escapeChar ++ ['"'])

/-- The scalar that a letter after a backslash stands for. -/
def unescapeLetter (c : Char) : Char :=
  if c = 'b' then Char.ofNat 0x08
  else if c = 'f' then Char.ofNat 0x0C
  else if c = 'n' then '\n'
  else if c = 'r' then '\r'
  else if c = 't' then '\t'
  else c

/-- Reads one escaped scalar. -/
def unescape : Str → Option (Char × Str)
  | [] => none
  | c :: rest =>
      if c = '\\' then
        match rest with
        | 'u' :: d3 :: d2 :: d1 :: d0 :: rest =>
            some (Char.ofNat (((hexValue d3 * 16 + hexValue d2) * 16 +
              hexValue d1) * 16 + hexValue d0), rest)
        | letter :: rest => some (unescapeLetter letter, rest)
        | [] => none
      else some (c, rest)

theorem unescape_escapeChar (c : Char) (rest : Str) :
    unescape (escapeChar c ++ rest) = some (c, rest) := by
  unfold escapeChar
  split_ifs with hquote hslash hb hf hn hr ht hcontrol
  · subst hquote; rfl
  · subst hslash; rfl
  · subst hb; rfl
  · subst hf; rfl
  · subst hn; rfl
  · subst hr; rfl
  · subst ht; rfl
  · have hlt : c.toNat < 0x80 := by omega
    have hdigit : ∀ width, hexValue (hexDigit (c.toNat / 16 ^ width % 16)) =
        c.toNat / 16 ^ width % 16 := fun width =>
      hexValue_hexDigit (Nat.mod_lt _ (by decide))
    simp only [hexadecimal, List.cons_append, List.nil_append, unescape, ↓reduceIte, hdigit]
    have hvalue : ((c.toNat / 16 ^ 3 % 16 * 16 + c.toNat / 16 ^ 2 % 16) * 16 +
        c.toNat / 16 ^ 1 % 16) * 16 + c.toNat / 16 ^ 0 % 16 = c.toNat := by omega
    rw [hvalue, Char.ofNat_toNat]
  · simp [unescape, hslash]

theorem parsable_escapeChar : Encoding.Parsable escapeChar :=
  Encoding.parsable_of_decode unescape unescape_escapeChar

/-- No escape starts with the quote that ends a string. -/
theorem escapeChar_start (c : Char) :
    ∃ head tail, escapeChar c = head :: tail ∧ head ≠ '"' := by
  unfold escapeChar
  split_ifs with hquote
  all_goals first
    | exact ⟨_, _, rfl, by decide⟩
    | exact ⟨_, _, rfl, hquote⟩

theorem parsable_writeEscapedString : Encoding.Parsable writeEscapedString :=
  (Encoding.parsable_flatMap parsable_escapeChar escapeChar_start).after ['"']

end Bran.Schema
