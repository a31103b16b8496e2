import Bran.Agent.ResultId
import Bran.Library.Encoding
import Bran.Library.OrdMap

/-!
# Canonical JSON

The value type of `canonical.rs` and the bytes it writes: `json.dumps` with sorted keys, the
shortest separators and only the quote, the backslash and the C0 controls escaped.
-/

namespace Bran.Document

open Text

/-- `Json`.  The entries of an object are those of a `BTreeMap`, in the order of its keys. -/
inductive Json where
  | null
  | bool (value : Bool)
  | int (value : ℤ)
  | str (value : Str)
  | arr (items : List Json)
  | obj (entries : List (Str × Json))

namespace Json

/-- A value the source can hold: integers are `i64` and the keys of a map strictly increase. -/
inductive WellFormed : Json → Prop
  | null : WellFormed .null
  | bool (value : Bool) : WellFormed (.bool value)
  | int {value : ℤ} (h : -2 ^ 63 ≤ value ∧ value < 2 ^ 63) : WellFormed (.int value)
  | str (value : Str) : WellFormed (.str value)
  | arr {items : List Json} (h : ∀ item ∈ items, WellFormed item) : WellFormed (.arr items)
  | obj {entries : List (Str × Json)} (hsorted : (entries.map Prod.fst).Pairwise (· < ·))
      (h : ∀ entry ∈ entries, WellFormed entry.2) : WellFormed (.obj entries)

def ofMap (map : OrdMap Str Json) : Json := .obj map.entries

def get (key : Str) : Json → Option Json
  | .obj entries => OrdMap.findEntry key entries
  | _ => none

/-- The text `write_string` writes for one character. -/
def writeChar (c : Char) : Str :=
  if c = '"' then ['\\', '"']
  else if c = '\\' then ['\\', '\\']
  else if c = '\n' then ['\\', 'n']
  else if c = '\r' then ['\\', 'r']
  else if c = '\t' then ['\\', 't']
  else if c.toNat = 0x8 then ['\\', 'b']
  else if c.toNat = 0xC then ['\\', 'f']
  else if c.toNat < 0x20 then '\\' :: 'u' :: hexadecimal 4 c.toNat
  else [c]

def writeString (value : Str) : Str := '"' :: (value.flatMap writeChar ++ ['"'])

/-- The decimal text of an `i64`. -/
def writeInt : ℤ → Str
  | .ofNat n => decimal n
  | .negSucc n => '-' :: decimal (n + 1)

mutual

def write : Json → Str
  | .null => "null".toList
  | .bool value => if value then "true".toList else "false".toList
  | .int value => writeInt value
  | .str value => writeString value
  | .arr items => '[' :: (writeItems items ++ [']'])
  | .obj entries => '{' :: (writeEntries entries ++ ['}'])

/-- The items of an array with a comma before each but the first. -/
def writeItems : List Json → Str
  | [] => []
  | [item] => write item
  | item :: next :: rest => write item ++ ',' :: writeItems (next :: rest)

/-- The entries of an object with a comma before each but the first. -/
def writeEntries : List (Str × Json) → Str
  | [] => []
  | [(key, item)] => writeString key ++ ':' :: write item
  | (key, item) :: next :: rest =>
      writeString key ++ ':' :: (write item ++ ',' :: writeEntries (next :: rest))

end

def toBytes (value : Json) : List UInt8 := bytes (write value)

mutual

/-- How many arrays and objects stand around the deepest value. -/
def nesting : Json → ℕ
  | .arr items => nestingItems items
  | .obj entries => nestingEntries entries
  | _ => 0

/-- The nesting of the items, counting the array around them. -/
def nestingItems : List Json → ℕ
  | [] => 0
  | item :: rest => max (nesting item + 1) (nestingItems rest)

/-- The nesting of the entries, counting the object around them. -/
def nestingEntries : List (Str × Json) → ℕ
  | [] => 0
  | (_, item) :: rest => max (nesting item + 1) (nestingEntries rest)

end

theorem nesting_lt_of_mem {items : List Json} {item : Json} (h : item ∈ items) :
    nesting item < nestingItems items := by
  induction items with
  | nil => exact absurd h List.not_mem_nil
  | cons first rest ih =>
      rw [nestingItems]
      rcases List.mem_cons.mp h with rfl | hrest
      · omega
      · have := ih hrest
        omega

theorem nesting_lt_of_mem_entries {entries : List (Str × Json)} {entry : Str × Json}
    (h : entry ∈ entries) : nesting entry.2 < nestingEntries entries := by
  induction entries with
  | nil => exact absurd h List.not_mem_nil
  | cons first rest ih =>
      rw [nestingEntries]
      rcases List.mem_cons.mp h with rfl | hrest
      · omega
      · have := ih hrest
        omega

end Json

def sha256Hex (content : List UInt8) : Str := Agent.sha256Value content

end Bran.Document
