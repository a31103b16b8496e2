import Bran.Schema
import Bran.Library.JsonSyntax

/-!
# Canonical YAML values

`write_canonical_yaml_value` wraps every value in an object that names its variant.  A value and what
follows it can be read off the output, so that the output of one value is that of no other one and
the beginning of none, and the output is JSON.
-/

namespace Bran.Schema

open Encoding Text CharCode JsonSyntax List

/-- The variants that are written differently. -/
inductive YamlTag
  | null
  | true_
  | false_
  | number
  | string
  | sequence
  | mapping
  deriving DecidableEq

/-- What stands before the data of a value. -/
def YamlTag.lead : YamlTag → Str
  | null => "\x7b\"__yaml_type__\":\"null\",\"__yaml_value__\":null".toList
  | true_ => "\x7b\"__yaml_type__\":\"bool\",\"__yaml_value__\":true".toList
  | false_ => "\x7b\"__yaml_type__\":\"bool\",\"__yaml_value__\":false".toList
  | number => "\x7b\"__yaml_type__\":\"number\",\"__yaml_value__\":".toList
  | string => "\x7b\"__yaml_type__\":\"string\",\"__yaml_value__\":".toList
  | sequence => "\x7b\"__yaml_type__\":\"sequence\",\"__yaml_value__\":[".toList
  | mapping => "\x7b\"__yaml_type__\":\"mapping\",\"__yaml_value__\":\x7b".toList

mutual

def writeCanonicalYamlValue : YamlValue → Str
  | .null => YamlTag.null.lead ++ ['}']
  | .bool true => YamlTag.true_.lead ++ ['}']
  | .bool false => YamlTag.false_.lead ++ ['}']
  | .number text => YamlTag.number.lead ++ (writeEscapedString text ++ ['}'])
  | .string text => YamlTag.string.lead ++ (writeEscapedString text ++ ['}'])
  | .sequence items => YamlTag.sequence.lead ++ (writeItems items ++ [']', '}'])
  | .mapping entries => YamlTag.mapping.lead ++ (writeEntries entries ++ ['}', '}'])

def writeItems : List YamlValue → Str
  | [] => []
  | item :: rest => writeCanonicalYamlValue item ++ writeMoreItems rest

/-- The items behind the first one, each with its comma. -/
def writeMoreItems : List YamlValue → Str
  | [] => []
  | item :: rest => ',' :: (writeCanonicalYamlValue item ++ writeMoreItems rest)

def writeEntries : List (Str × YamlValue) → Str
  | [] => []
  | entry :: rest => writeEntry entry ++ writeMoreEntries rest

/-- The entries behind the first one, each with its comma. -/
def writeMoreEntries : List (Str × YamlValue) → Str
  | [] => []
  | entry :: rest => ',' :: (writeEntry entry ++ writeMoreEntries rest)

/-- A key with its value. -/
def writeEntry : Str × YamlValue → Str
  | (key, value) => writeEscapedString key ++ ':' :: writeCanonicalYamlValue value

end

/-! ## Reading a value off -/

/-- The variant of a value. -/
def YamlValue.tag : YamlValue → YamlTag
  | .null => .null
  | .bool true => .true_
  | .bool false => .false_
  | .number _ => .number
  | .string _ => .string
  | .sequence _ => .sequence
  | .mapping _ => .mapping

/-- What stands behind the lead of a value. -/
def YamlValue.data : YamlValue → Str
  | .null | .bool _ => ['}']
  | .number text | .string text => writeEscapedString text ++ ['}']
  | .sequence items => writeItems items ++ [']', '}']
  | .mapping entries => writeEntries entries ++ ['}', '}']

theorem writeCanonicalYamlValue_eq (value : YamlValue) :
    writeCanonicalYamlValue value = value.tag.lead ++ value.data := by
  rw [writeCanonicalYamlValue.eq_def]
  cases value with
  | bool flag => cases flag <;> rfl
  | _ => rfl

def YamlTag.all : List YamlTag := [null, true_, false_, number, string, sequence, mapping]

theorem YamlTag.mem_all (tag : YamlTag) : tag ∈ all := by
  cases tag <;> decide

/-- No lead is the beginning of another one. -/
theorem YamlTag.eq_of_startsWith {tag other : YamlTag} (h : tag.lead <+: other.lead) :
    tag = other := by
  have hall : ∀ tag ∈ all, ∀ other ∈ all, tag.lead <+: other.lead → tag = other := by
    decide +kernel
  exact hall tag tag.mem_all other other.mem_all h

theorem YamlTag.lead_readOff {tag other : YamlTag} {rest rest' : Str}
    (h : tag.lead ++ rest = other.lead ++ rest') : tag = other ∧ rest = rest' := by
  have htag : tag = other := by
    have hfirst : tag.lead <+: other.lead ++ rest' := ⟨rest, h⟩
    rcases prefix_or_prefix_of_prefix hfirst (prefix_append _ rest') with hle | hge
    · exact eq_of_startsWith hle
    · exact (eq_of_startsWith hge).symm
  subst htag
  exact ⟨rfl, append_cancel_left h⟩

theorem writeCanonicalYamlValue_start (value : YamlValue) :
    ∃ tail, writeCanonicalYamlValue value = '{' :: tail := by
  rw [writeCanonicalYamlValue_eq]
  cases value.tag <;> exact ⟨_, rfl⟩

theorem writeEntry_start (entry : Str × YamlValue) : ∃ tail, writeEntry entry = '"' :: tail := by
  rw [writeEntry.eq_def]
  exact ⟨_, rfl⟩

theorem writeItems_eq (items : List YamlValue) :
    writeItems items = separated ',' writeCanonicalYamlValue items := by
  have hmore : ∀ items, writeMoreItems items =
      items.flatMap fun item => ',' :: writeCanonicalYamlValue item := by
    intro items
    induction items with
    | nil => rfl
    | cons item items ih => rw [writeMoreItems, ih, flatMap_cons, cons_append]
  cases items with
  | nil => rfl
  | cons item items => rw [writeItems, hmore, separated]

theorem writeEntries_eq (entries : List (Str × YamlValue)) :
    writeEntries entries = separated ',' writeEntry entries := by
  have hmore : ∀ entries, writeMoreEntries entries =
      entries.flatMap fun entry => ',' :: writeEntry entry := by
    intro entries
    induction entries with
    | nil => rfl
    | cons entry entries ih => rw [writeMoreEntries, ih, flatMap_cons, cons_append]
  cases entries with
  | nil => rfl
  | cons entry entries => rw [writeEntries, hmore, separated]

mutual

theorem value_readOff (value : YamlValue) : ReadOff writeCanonicalYamlValue value := by
  intro other rest rest' h
  rw [writeCanonicalYamlValue_eq, writeCanonicalYamlValue_eq other, append_assoc,
    append_assoc] at h
  obtain ⟨htag, hdata⟩ := YamlTag.lead_readOff h
  cases value with
  | null =>
      cases other with
      | null => exact ⟨rfl, (List.cons.inj hdata).2⟩
      | bool flag => cases flag <;> cases htag
      | _ => cases htag
  | bool flag =>
      cases other with
      | bool flag' =>
          have hflag : flag = flag' := by
            cases flag <;> cases flag' <;> first | rfl | cases htag
          exact ⟨congrArg _ hflag, (List.cons.inj hdata).2⟩
      | _ => cases flag <;> cases htag
  | number text =>
      cases other with
      | number text' =>
          obtain ⟨rfl, hrest⟩ := (parsable_writeEscapedString.before ['}']) hdata
          exact ⟨rfl, hrest⟩
      | bool flag => cases flag <;> cases htag
      | _ => cases htag
  | string text =>
      cases other with
      | string text' =>
          obtain ⟨rfl, hrest⟩ := (parsable_writeEscapedString.before ['}']) hdata
          exact ⟨rfl, hrest⟩
      | bool flag => cases flag <;> cases htag
      | _ => cases htag
  | sequence items =>
      cases other with
      | sequence others =>
          have hitems : writeItems items ++ [']'] ++ '}' :: rest =
              writeItems others ++ [']'] ++ '}' :: rest' := by
            simpa [YamlValue.data, append_assoc] using hdata
          rw [writeItems_eq, writeItems_eq] at hitems
          obtain ⟨rfl, hrest⟩ := readOff_separated (items_readOff items) (by decide)
            (fun value => ⟨_, _, (writeCanonicalYamlValue_start value).choose_spec, by decide⟩) hitems
          exact ⟨rfl, (List.cons.inj hrest).2⟩
      | bool flag => cases flag <;> cases htag
      | _ => cases htag
  | mapping entries =>
      cases other with
      | mapping others =>
          have hentries : writeEntries entries ++ ['}'] ++ '}' :: rest =
              writeEntries others ++ ['}'] ++ '}' :: rest' := by
            simpa [YamlValue.data, append_assoc] using hdata
          rw [writeEntries_eq, writeEntries_eq] at hentries
          obtain ⟨rfl, hrest⟩ := readOff_separated (entries_readOff entries) (by decide)
            (fun entry => ⟨_, _, (writeEntry_start entry).choose_spec, by decide⟩) hentries
          exact ⟨rfl, (List.cons.inj hrest).2⟩
      | bool flag => cases flag <;> cases htag
      | _ => cases htag
termination_by structural value

theorem items_readOff (items : List YamlValue) :
    ∀ item ∈ items, ReadOff writeCanonicalYamlValue item := by
  cases items with
  | nil => exact fun _ hmem => absurd hmem not_mem_nil
  | cons item items => exact forall_mem_cons.mpr ⟨value_readOff item, items_readOff items⟩
termination_by structural items

theorem entries_readOff (entries : List (Str × YamlValue)) :
    ∀ entry ∈ entries, ReadOff writeEntry entry := by
  cases entries with
  | nil => exact fun _ hmem => absurd hmem not_mem_nil
  | cons entry entries =>
      exact forall_mem_cons.mpr ⟨entry_readOff entry, entries_readOff entries⟩
termination_by structural entries

theorem entry_readOff (entry : Str × YamlValue) : ReadOff writeEntry entry := by
  intro other rest rest' h
  obtain ⟨key, value⟩ := entry
  obtain ⟨key', value'⟩ := other
  rw [writeEntry, writeEntry, append_assoc, append_assoc] at h
  obtain ⟨rfl, hvalue⟩ := parsable_writeEscapedString h
  obtain ⟨rfl, hrest⟩ := value_readOff value (List.cons.inj hvalue).2
  exact ⟨rfl, hrest⟩
termination_by structural entry

end

/-- A value and what follows it can be read off its canonical text. -/
theorem parsable_writeCanonicalYamlValue : Parsable writeCanonicalYamlValue :=
  fun value => value_readOff value

/-! ## The output is JSON -/

theorem hexadecimal_digits (width n : ℕ) : (hexadecimal width n).length = width ∧
    ∀ c ∈ hexadecimal width n, isHexDigit c = true := by
  induction width with
  | zero => exact ⟨rfl, fun c hc => absurd hc not_mem_nil⟩
  | succ width ih =>
      obtain ⟨hlength, hdigits⟩ := ih
      have hdigit := (digitValue_hexDigit (Nat.mod_lt (n / 16 ^ width) (show 0 < 16 by omega))).1
      exact ⟨congrArg Nat.succ hlength, forall_mem_cons.mpr ⟨hdigit, hdigits⟩⟩

/-- Escaped scalars may stand between the quotes of a JSON string. -/
theorem chars_escapeChar (c : Char) {rest : Str} (hrest : Chars rest) :
    Chars (escapeChar c ++ rest) := by
  unfold escapeChar
  split_ifs with hquote hslash hb hf hn hr ht hcontrol
  all_goals first
    | exact .escape (by decide) hrest
    | skip
  · obtain ⟨hlength, hdigits⟩ := hexadecimal_digits 4 c.toNat
    exact .unicode hlength hdigits hrest
  · exact .unescaped ⟨hquote, hslash, by omega⟩ hrest

theorem chars_flatMap_escapeChar (s : Str) : Chars (s.flatMap escapeChar) := by
  induction s with
  | nil => exact .nil
  | cons c s ih =>
      rw [flatMap_cons]
      exact chars_escapeChar c ih

theorem derives_writeEscapedString (s : Str) : Derives .value (writeEscapedString s) :=
  .string (chars_flatMap_escapeChar s)

theorem whitespace_nil : Whitespace [] := fun _ hc => absurd hc not_mem_nil

/-- An entry without blanks around its parts. -/
theorem derives_member {key text : Str} (hkey : Chars key) (htext : Derives .value text) :
    Derives .members ('"' :: (key ++ '"' :: ':' :: text)) := by
  have h := Derives.member whitespace_nil hkey whitespace_nil whitespace_nil htext whitespace_nil
  simpa using h

theorem derives_members {key text rest : Str} (hkey : Chars key) (htext : Derives .value text)
    (hrest : Derives .members rest) :
    Derives .members ('"' :: (key ++ '"' :: ':' :: (text ++ ',' :: rest))) := by
  have h := Derives.members whitespace_nil hkey whitespace_nil whitespace_nil htext whitespace_nil
    hrest
  simpa using h

theorem derives_item {text : Str} (htext : Derives .value text) : Derives .items text := by
  simpa using Derives.item whitespace_nil htext whitespace_nil

theorem derives_items {text rest : Str} (htext : Derives .value text)
    (hrest : Derives .items rest) : Derives .items (text ++ ',' :: rest) := by
  simpa using Derives.items whitespace_nil htext whitespace_nil hrest

/-- The name that the type of a value is written with. -/
def YamlTag.name : YamlTag → Str
  | null => "null".toList
  | true_ | false_ => "bool".toList
  | number => "number".toList
  | string => "string".toList
  | sequence => "sequence".toList
  | mapping => "mapping".toList

theorem chars_of_plain {s : Str} (h : ∀ c ∈ s, c ≠ '"' ∧ c ≠ '\\' ∧ 0x20 ≤ c.toNat) : Chars s := by
  induction s with
  | nil => exact .nil
  | cons c s ih =>
      obtain ⟨hc, hs⟩ := forall_mem_cons.mp h
      exact .unescaped hc (ih hs)

/-- The beginning of the data that the lead of a value ends with. -/
def YamlTag.opening : YamlTag → Str
  | null => "null".toList
  | true_ => "true".toList
  | false_ => "false".toList
  | number | string => []
  | sequence => ['[']
  | mapping => ['{']

theorem YamlTag.lead_eq (tag : YamlTag) : tag.lead =
    '{' :: '"' :: ("__yaml_type__".toList ++ '"' :: ':' :: '"' :: (tag.name ++ '"' :: ',' ::
      '"' :: ("__yaml_value__".toList ++ '"' :: ':' :: tag.opening))) := by
  cases tag <;> decide +kernel

/-- The object around the data of a value. -/
theorem derives_wrapped (tag : YamlTag) {text : Str} (h : Derives .value (tag.opening ++ text)) :
    Derives .value (tag.lead ++ (text ++ ['}'])) := by
  have hname : Chars tag.name := by
    apply chars_of_plain
    cases tag <;> decide +kernel
  have htype : Chars "__yaml_type__".toList := chars_of_plain (by decide +kernel)
  have hvalue : Chars "__yaml_value__".toList := chars_of_plain (by decide +kernel)
  have hobject := Derives.object
    (derives_members htype (.string hname) (derives_member hvalue h))
  rw [tag.lead_eq]
  simpa only [cons_append, append_assoc, nil_append] using hobject

mutual

/-- The canonical text of a value is JSON. -/
theorem derives_writeCanonicalYamlValue (value : YamlValue) :
    Derives .value (writeCanonicalYamlValue value) := by
  have hliteral {word : Str} (h : word ∈ ["null".toList, "true".toList, "false".toList]) :
      Derives .value (word ++ []) := by
    rw [append_nil]
    exact .literal h
  cases value with
  | null => exact derives_wrapped .null (hliteral (by decide))
  | bool flag =>
      cases flag with
      | false => exact derives_wrapped .false_ (hliteral (by decide))
      | true => exact derives_wrapped .true_ (hliteral (by decide))
  | number text => exact derives_wrapped .number (derives_writeEscapedString text)
  | string text => exact derives_wrapped .string (derives_writeEscapedString text)
  | sequence items =>
      have h := @derives_wrapped .sequence (writeItems items ++ [']']) (derives_writeItems items)
      rwa [append_assoc] at h
  | mapping entries =>
      have h := @derives_wrapped .mapping (writeEntries entries ++ ['}'])
        (derives_writeEntries entries)
      rwa [append_assoc] at h
termination_by structural value

theorem derives_writeItems (items : List YamlValue) :
    Derives .value ('[' :: (writeItems items ++ [']'])) := by
  cases items with
  | nil => exact .emptyArray whitespace_nil
  | cons item items =>
      exact .array (derives_writeMoreItems items _ (derives_writeCanonicalYamlValue item))
termination_by structural items

theorem derives_writeMoreItems (items : List YamlValue) :
    ∀ text, Derives .value text → Derives .items (text ++ writeMoreItems items) := by
  intro text htext
  cases items with
  | nil =>
      rw [writeMoreItems, append_nil]
      exact derives_item htext
  | cons item items =>
      exact derives_items htext
        (derives_writeMoreItems items _ (derives_writeCanonicalYamlValue item))
termination_by structural items

theorem derives_writeEntries (entries : List (Str × YamlValue)) :
    Derives .value ('{' :: (writeEntries entries ++ ['}'])) := by
  cases entries with
  | nil => exact .emptyObject whitespace_nil
  | cons entry entries =>
      rw [writeEntries]
      obtain ⟨key, value, heq, hvalue⟩ := derives_entry entry
      rw [heq]
      exact .object (derives_writeMoreEntries entries key value hvalue)
termination_by structural entries

theorem derives_writeMoreEntries (entries : List (Str × YamlValue)) :
    ∀ key value, Derives .value value →
      Derives .members (writeEscapedString key ++ ':' :: value ++ writeMoreEntries entries) := by
  intro key value hvalue
  have hkey := chars_flatMap_escapeChar key
  cases entries with
  | nil =>
      rw [writeMoreEntries, append_nil]
      simpa [writeEscapedString] using derives_member hkey hvalue
  | cons entry entries =>
      rw [writeMoreEntries]
      obtain ⟨key', value', heq, hvalue'⟩ := derives_entry entry
      rw [heq]
      have hrest := derives_writeMoreEntries entries key' value' hvalue'
      simpa [writeEscapedString] using derives_members hkey hvalue hrest
termination_by structural entries

theorem derives_entry (entry : Str × YamlValue) :
    ∃ key value, writeEntry entry = writeEscapedString key ++ ':' :: value ∧
      Derives .value value := by
  obtain ⟨key, value⟩ := entry
  exact ⟨key, _, writeEntry.eq_def _, derives_writeCanonicalYamlValue value⟩
termination_by structural entry

end

/-- The canonical text of a value is one of this value only, is the beginning of the text of no other
value, and is JSON. -/
theorem writeCanonicalYamlValue_unambiguous :
    (∀ a b, writeCanonicalYamlValue a = writeCanonicalYamlValue b ↔ a = b) ∧
    (∀ a b, writeCanonicalYamlValue a <+: writeCanonicalYamlValue b →
      writeCanonicalYamlValue a = writeCanonicalYamlValue b) ∧
    ∀ value, IsText (writeCanonicalYamlValue value) := by
  refine ⟨fun a b => ⟨fun h => ?_, congrArg _⟩, fun a b h => ?_, fun value => ?_⟩
  · have hread : writeCanonicalYamlValue a ++ [] = writeCanonicalYamlValue b ++ [] :=
      congrArg (· ++ []) h
    exact (parsable_writeCanonicalYamlValue hread).1
  · obtain ⟨rest, hrest⟩ := h
    have hread : writeCanonicalYamlValue a ++ rest = writeCanonicalYamlValue b ++ [] := by
      rw [hrest, append_nil]
    exact congrArg _ (parsable_writeCanonicalYamlValue hread).1
  · have hvalue := derives_writeCanonicalYamlValue value
    exact ⟨[], _, [], whitespace_nil, hvalue, whitespace_nil, (append_nil _).symm⟩

end Bran.Schema
