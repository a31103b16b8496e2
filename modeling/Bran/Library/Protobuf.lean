import Bran.Library.Text

/-!
# The protobuf wire format

Which bytes encode a number, a field or a message.  The relations leave to an encoder what the format
leaves to it: numbers in more bytes than they need, the order of the fields, fields that the reader
does not know, and scalar fields that are written more than once, of which the last one counts.
-/

namespace Protobuf

open List

/-- What a field holds; the bytes of a fixed-width number are not kept. -/
inductive Value
  | varint (value : ℕ)
  | bytes (bytes : List UInt8)
  | fixed
  deriving DecidableEq

/-- A field number with its value. -/
abbrev Field := ℕ × Value

def maxFieldNumber : ℕ := 2 ^ 29 - 1

/-! ## Numbers -/

/-- A number in at most so many bytes, of seven bits each. -/
inductive VarintFrom : ℕ → ℕ → List UInt8 → Prop
  | last {left : ℕ} {byte : UInt8} (h : byte.toNat < 128) : VarintFrom (left + 1) byte.toNat [byte]
  | more {left value : ℕ} {byte : UInt8} {rest : List UInt8} (h : 128 ≤ byte.toNat)
      (hrest : VarintFrom left value rest) :
      VarintFrom (left + 1) (byte.toNat - 128 + 128 * value) (byte :: rest)

/-- A 64-bit number in at most ten bytes. -/
def IsVarint (value : ℕ) (bytes : List UInt8) : Prop := VarintFrom 10 value bytes ∧ value < 2 ^ 64

/-- Numbers one after the other. -/
inductive EncodesVarints : List ℕ → List UInt8 → Prop
  | nil : EncodesVarints [] []
  | cons {value : ℕ} {values : List ℕ} {bytes rest : List UInt8} (h : IsVarint value bytes)
      (hrest : EncodesVarints values rest) : EncodesVarints (value :: values) (bytes ++ rest)

/-- A number has a byte. -/
theorem VarintFrom.ne_nil {left value : ℕ} {bytes : List UInt8} (h : VarintFrom left value bytes) :
    bytes ≠ [] := by
  cases h with
  | last _ | more _ _ => exact cons_ne_nil _ _

/-! ## Fields -/

/-- The wire type and the bytes of a value. -/
inductive EncodesValue : Value → ℕ → List UInt8 → Prop
  | varint {value : ℕ} {bytes : List UInt8} (h : IsVarint value bytes) :
      EncodesValue (.varint value) 0 bytes
  | fixed64 {bytes : List UInt8} (h : bytes.length = 8) : EncodesValue .fixed 1 bytes
  | bytes {payload length : List UInt8} (h : IsVarint payload.length length) :
      EncodesValue (.bytes payload) 2 (length ++ payload)
  | fixed32 {bytes : List UInt8} (h : bytes.length = 4) : EncodesValue .fixed 5 bytes

inductive EncodesField : Field → List UInt8 → Prop
  | field {number wire : ℕ} {value : Value} {key payload : List UInt8} (hpositive : 0 < number)
      (hnumber : number ≤ maxFieldNumber) (hkey : IsVarint (number * 8 + wire) key)
      (hvalue : EncodesValue value wire payload) : EncodesField (number, value) (key ++ payload)

/-- The bytes of a message. -/
inductive EncodesFields : List Field → List UInt8 → Prop
  | nil : EncodesFields [] []
  | cons {field : Field} {fields : List Field} {bytes rest : List UInt8}
      (h : EncodesField field bytes) (hrest : EncodesFields fields rest) :
      EncodesFields (field :: fields) (bytes ++ rest)

theorem EncodesField.ne_nil {field : Field} {bytes : List UInt8} (h : EncodesField field bytes) :
    bytes ≠ [] := by
  obtain ⟨_, _, hkey, _⟩ := h
  exact append_ne_nil_of_left_ne_nil hkey.1.ne_nil _

/-! ## Messages -/

/-- The values of a field in the order in which they are written. -/
def valuesOf (number : ℕ) (fields : List Field) : List Value :=
  fields.filterMap fun field => if field.1 = number then some field.2 else none

@[simp] theorem valuesOf_nil (number : ℕ) : valuesOf number [] = [] := rfl

theorem valuesOf_cons_self (number : ℕ) (value : Value) (fields : List Field) :
    valuesOf number ((number, value) :: fields) = value :: valuesOf number fields := by
  simp [valuesOf]

theorem valuesOf_cons_of_ne {number other : ℕ} (h : other ≠ number) (value : Value)
    (fields : List Field) : valuesOf number ((other, value) :: fields) = valuesOf number fields := by
  simp [valuesOf, h]

/-- The first of the values that are written. -/
theorem valuesOf_cons_eq_map {α : Type} {make : α → Value} {number : ℕ} {value : Value}
    {fields : List Field} {items : List α}
    (h : valuesOf number ((number, value) :: fields) = items.map make) :
    ∃ item more, items = item :: more ∧ value = make item ∧
      valuesOf number fields = more.map make := by
  rw [valuesOf_cons_self] at h
  obtain ⟨item, more, hitems, hvalue, hmore⟩ := map_eq_cons_iff.mp h.symm
  exact ⟨item, more, hitems, hvalue.symm, hmore.symm⟩

theorem mem_valuesOf {number : ℕ} {value : Value} {fields : List Field} :
    value ∈ valuesOf number fields ↔ (number, value) ∈ fields := by
  rw [valuesOf, mem_filterMap]
  constructor
  · intro h
    obtain ⟨⟨other, found⟩, hmem, hvalue⟩ := h
    split_ifs at hvalue with hnumber
    obtain rfl : other = number := hnumber
    obtain rfl : found = value := Option.some.inj hvalue
    exact hmem
  · exact fun h => ⟨_, h, if_pos rfl⟩

/-- A text field: the last one counts, and an absent one is empty. -/
def HasText (number : ℕ) (text : Str) (fields : List Field) : Prop :=
  ∃ texts : List Str, valuesOf number fields = texts.map (fun text => .bytes (Text.bytes text)) ∧
    texts.getLastD [] = text

/-- A number field: the last one counts, and an absent one is zero. -/
def HasNumber (number value : ℕ) (fields : List Field) : Prop :=
  ∃ values : List ℕ, valuesOf number fields = values.map .varint ∧ values.getLastD 0 = value

/-- A repeated field of messages. -/
def HasMessages {α : Type} (number : ℕ) (encodes : α → List UInt8 → Prop) (items : List α)
    (fields : List Field) : Prop :=
  ∃ payloads : List (List UInt8), valuesOf number fields = payloads.map .bytes ∧
    List.Forall₂ encodes items payloads

section Repeated

variable {α : Type} {number : ℕ} {encodes : α → List UInt8 → Prop} {items : List α}
  {fields : List Field}

/-- A repeated field holds encodings of the items. -/
theorem HasMessages.exists_item (h : HasMessages number encodes items fields) {value : Value}
    (hvalue : value ∈ valuesOf number fields) :
    ∃ bytes, value = .bytes bytes ∧ ∃ item ∈ items, encodes item bytes := by
  obtain ⟨payloads, hpayloads, hencodes⟩ := h
  rw [hpayloads] at hvalue
  obtain ⟨bytes, hbytes, rfl⟩ := mem_map.mp hvalue
  refine ⟨bytes, rfl, ?_⟩
  obtain ⟨index, hindex, rfl⟩ := getElem_of_mem hbytes
  have hitems : index < items.length := hencodes.length_eq ▸ hindex
  exact ⟨items[index], getElem_mem hitems, hencodes.get hitems hindex⟩

/-- Every item is encoded in a field. -/
theorem HasMessages.exists_field (h : HasMessages number encodes items fields) {item : α}
    (hitem : item ∈ items) : ∃ bytes, (number, .bytes bytes) ∈ fields ∧ encodes item bytes := by
  obtain ⟨payloads, hpayloads, hencodes⟩ := h
  obtain ⟨index, hindex, rfl⟩ := getElem_of_mem hitem
  have hbytes : index < payloads.length := hencodes.length_eq ▸ hindex
  refine ⟨payloads[index], ?_, hencodes.get hindex hbytes⟩
  rw [← mem_valuesOf, hpayloads]
  exact mem_map_of_mem (getElem_mem hbytes)

/-- What holds of the encodings of some items, if it holds of a field exactly when it holds of the
item. -/
theorem HasMessages.forall_iff (h : HasMessages number encodes items fields)
    {P : Field → Prop} {Q : α → Prop}
    (hiff : ∀ item bytes, encodes item bytes → (P (number, .bytes bytes) ↔ Q item)) :
    (∀ field ∈ fields, field.1 = number → P field) ↔ ∀ item ∈ items, Q item := by
  constructor
  · intro hfields item hitem
    obtain ⟨bytes, hmem, hencodes⟩ := h.exists_field hitem
    exact (hiff item bytes hencodes).mp (hfields _ hmem rfl)
  · intro hitems field hfield hnumber
    obtain ⟨other, value⟩ := field
    obtain rfl : other = number := hnumber
    obtain ⟨bytes, rfl, item, hitem, hencodes⟩ := h.exists_item (mem_valuesOf.mpr hfield)
    exact (hiff item bytes hencodes).mpr (hitems item hitem)

end Repeated

/-- What one field of packed or single numbers adds. -/
inductive EncodesNumbers : Value → List ℕ → Prop
  | single (value : ℕ) : EncodesNumbers (.varint value) [value]
  | packed {values : List ℕ} {bytes : List UInt8} (h : EncodesVarints values bytes) :
      EncodesNumbers (.bytes bytes) values

/-- A repeated field of numbers, packed or not. -/
def HasNumbers (number : ℕ) (values : List ℕ) (fields : List Field) : Prop :=
  ∃ parts : List (List ℕ), List.Forall₂ EncodesNumbers (valuesOf number fields) parts ∧
    parts.flatten = values

end Protobuf
