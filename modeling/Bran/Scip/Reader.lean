import Bran.Library.Protobuf
import Bran.Library.Validation
import Mathlib.Tactic.Ring

/-!
# The reader of an index

`Reader` of `scip.rs` over the bytes of a message, field after field.  An access outside of the
bytes and a loop that does not end are outcomes of their own, which are shown not to occur.
-/

namespace Bran.Scip

open Protobuf (Value Field)
open Except (ok.inj error.inj)
open Validation List

/-- How a read ends without a value: `DecodeError`, or what Rust does not let happen. -/
inductive Fault
  | decode
  | outOfBounds
  | endless
  deriving DecidableEq

namespace Reading

/-- `Value::varint`. -/
def varintOf : Value → Except Fault ℕ
  | .varint value => .ok value
  | _ => .error .decode

/-- `Value::bytes`. -/
def bytesOf : Value → Except Fault (List UInt8)
  | .bytes bytes => .ok bytes
  | _ => .error .decode

/-- `Value::str`. -/
def strOf (value : Value) : Except Fault Str := do
  let bytes ← bytesOf value
  match Text.fromUtf8 bytes with
  | some text => return text
  | none => .error .decode

end Reading

/-- `&bytes[start..stop]`. -/
def slice (bytes : List UInt8) (start stop : ℕ) : Except Fault (List UInt8) :=
  if start ≤ stop ∧ stop ≤ bytes.length then .ok ((bytes.drop start).take (stop - start))
  else .error .outOfBounds

structure Reader where
  bytes : List UInt8
  at_ : ℕ

/-- `(0..64).step_by(7)`. -/
def shifts : List ℕ := [0, 7, 14, 21, 28, 35, 42, 49, 56, 63]

namespace Reader

/-- The loop of `varint` over the shifts. -/
def varintFrom (reader : Reader) (value : ℕ) : List ℕ → Except Fault (ℕ × Reader)
  | [] => .error .decode
  | shift :: rest =>
      match reader.bytes[reader.at_]? with
      | none => .error .decode
      | some byte =>
          let next := { reader with at_ := reader.at_ + 1 }
          if shift = 63 ∧ byte.toNat > 1 then .error .decode
          else
            let value := value ||| ((byte.toNat &&& 0x7f) <<< shift) % 2 ^ 64
            if byte.toNat < 0x80 then .ok (value, next) else varintFrom next value rest

def varint (reader : Reader) : Except Fault (ℕ × Reader) := reader.varintFrom 0 shifts

/-- `Reader::take`: a sum that `checked_add` refuses is above every length. -/
def take (reader : Reader) (length : ℕ) : Except Fault (List UInt8 × Reader) :=
  let stop := reader.at_ + length
  if stop ≤ reader.bytes.length then do
    let bytes ← slice reader.bytes reader.at_ stop
    return (bytes, { reader with at_ := stop })
  else .error .decode

def field (reader : Reader) : Except Fault (Field × Reader) := do
  let (key, reader) ← reader.varint
  let number := key >>> 3
  if number = 0 ∨ number > Protobuf.maxFieldNumber then .error .decode
  else
    match key &&& 7 with
    | 0 => do
        let (value, reader) ← reader.varint
        return ((number, .varint value), reader)
    | 1 => do
        let (_, reader) ← reader.take 8
        return ((number, .fixed), reader)
    | 2 => do
        let (length, reader) ← reader.varint
        let (bytes, reader) ← reader.take length
        return ((number, .bytes bytes), reader)
    | 5 => do
        let (_, reader) ← reader.take 4
        return ((number, .fixed), reader)
    | _ => .error .decode

/-- The fields from a reader on, in so many steps. -/
def fieldsFrom : ℕ → Reader → List (Except Fault Field)
  | 0, reader => if reader.at_ = reader.bytes.length then [] else [.error .endless]
  | fuel + 1, reader =>
      if reader.at_ = reader.bytes.length then []
      else
        match reader.field with
        | .error fault => [.error fault]
        | .ok (field, next) => .ok field :: fieldsFrom fuel next

end Reader

def fields (bytes : List UInt8) : List (Except Fault Field) :=
  Reader.fieldsFrom bytes.length ⟨bytes, 0⟩

def messages (bytes : List UInt8) (wanted : ℕ) : List (List UInt8) :=
  ((fields bytes).map Except.toOption).takeWhile Option.isSome |>.filterMap fun found =>
    found.bind fun field =>
      if field.1 = wanted then (Reading.bytesOf field.2).toOption else none

/-! ## What a read does -/

namespace Reader

section Bounds

variable {reader next : Reader}

/-- A read that goes on within the same bytes. -/
structure Advances (reader next : Reader) : Prop where
  bytes : next.bytes = reader.bytes
  forward : reader.at_ < next.at_
  within : next.at_ ≤ reader.bytes.length

theorem Advances.trans {third : Reader} (h : reader.Advances next) (h' : next.Advances third) :
    reader.Advances third :=
  ⟨h'.bytes.trans h.bytes, h.forward.trans h'.forward, h.bytes ▸ h'.within⟩

theorem varintFrom_advances (shifts : List ℕ) {value found : ℕ}
    (h : reader.varintFrom value shifts = .ok (found, next)) : reader.Advances next := by
  induction shifts generalizing reader value with
  | nil => cases h
  | cons shift rest ih =>
      rw [varintFrom] at h
      cases hbyte : reader.bytes[reader.at_]? with
      | none =>
          rw [hbyte] at h
          cases h
      | some byte =>
          have hwithin : reader.at_ < reader.bytes.length :=
            (List.getElem?_eq_some_iff.mp hbyte).1
          have hstep : reader.Advances { reader with at_ := reader.at_ + 1 } :=
            ⟨rfl, Nat.lt_succ_self _, hwithin⟩
          rw [hbyte] at h
          dsimp only at h
          split_ifs at h
          · obtain ⟨_, rfl⟩ := Prod.mk.inj (ok.inj h)
            exact hstep
          · exact hstep.trans (ih h)

theorem varintFrom_error (shifts : List ℕ) {value : ℕ} {fault : Fault}
    (h : reader.varintFrom value shifts = .error fault) : fault = .decode := by
  induction shifts generalizing reader value with
  | nil => exact (error.inj h).symm
  | cons shift rest ih =>
      rw [varintFrom] at h
      cases hbyte : reader.bytes[reader.at_]? with
      | none =>
          rw [hbyte] at h
          exact (error.inj h).symm
      | some byte =>
          rw [hbyte] at h
          dsimp only at h
          split_ifs at h
          · exact (error.inj h).symm
          · exact ih h

theorem varint_advances {value : ℕ} (h : reader.varint = .ok (value, next)) :
    reader.Advances next :=
  varintFrom_advances _ h

theorem varint_error {fault : Fault} (h : reader.varint = .error fault) : fault = .decode :=
  varintFrom_error _ h

/-- What is taken lies in the bytes. -/
theorem take_eq (reader : Reader) (length : ℕ) :
    reader.take length =
      if reader.at_ + length ≤ reader.bytes.length then
        .ok ((reader.bytes.drop reader.at_).take length,
          { reader with at_ := reader.at_ + length })
      else .error .decode := by
  rw [take]
  split_ifs with hroom
  · rw [slice, if_pos ⟨Nat.le_add_right _ _, hroom⟩, Nat.add_sub_cancel_left]
    rfl
  · rfl

theorem take_advances {length : ℕ} {bytes : List UInt8}
    (h : reader.take length = .ok (bytes, next)) :
    next.bytes = reader.bytes ∧ reader.at_ ≤ next.at_ ∧ next.at_ ≤ reader.bytes.length := by
  rw [take_eq] at h
  split_ifs at h with hroom
  obtain ⟨_, rfl⟩ := Prod.mk.inj (ok.inj h)
  exact ⟨rfl, Nat.le_add_right _ _, hroom⟩

theorem take_error {length : ℕ} {fault : Fault} (h : reader.take length = .error fault) :
    fault = .decode := by
  rw [take_eq] at h
  split_ifs at h
  exact (error.inj h).symm

/-- A field takes at least a byte and stays within them. -/
theorem field_advances {found : Field} (h : reader.field = .ok (found, next)) :
    reader.Advances next := by
  rw [field] at h
  obtain ⟨⟨key, middle⟩, hkey, hrest⟩ := bind_eq_ok_iff.mp h
  have hfirst := varint_advances hkey
  -- the value may be empty, the key is not
  have hvalue : ∀ {last : Reader}, last.bytes = middle.bytes → middle.at_ ≤ last.at_ →
      last.at_ ≤ middle.bytes.length → reader.Advances last := by
    intro last hbytes hforward hwithin
    exact ⟨hbytes.trans hfirst.bytes, lt_of_lt_of_le hfirst.forward hforward,
      hfirst.bytes ▸ hwithin⟩
  dsimp only at hrest
  split_ifs at hrest
  split at hrest
  · obtain ⟨⟨value, last⟩, hvarint, hlast⟩ := bind_eq_ok_iff.mp hrest
    obtain ⟨_, rfl⟩ := Prod.mk.inj (ok.inj hlast)
    exact hfirst.trans (varint_advances hvarint)
  · obtain ⟨⟨bytes, last⟩, htake, hlast⟩ := bind_eq_ok_iff.mp hrest
    obtain ⟨_, rfl⟩ := Prod.mk.inj (ok.inj hlast)
    obtain ⟨hbytes, hforward, hwithin⟩ := take_advances htake
    exact hvalue hbytes hforward hwithin
  · obtain ⟨⟨length, last⟩, hvarint, htaken⟩ := bind_eq_ok_iff.mp hrest
    obtain ⟨⟨bytes, final⟩, htake, hlast⟩ := bind_eq_ok_iff.mp htaken
    obtain ⟨_, rfl⟩ := Prod.mk.inj (ok.inj hlast)
    obtain ⟨hbytes, hforward, hwithin⟩ := take_advances htake
    have hlength := varint_advances hvarint
    exact hvalue (hbytes.trans hlength.bytes) (hlength.forward.le.trans hforward)
      (hlength.bytes ▸ hwithin)
  · obtain ⟨⟨bytes, last⟩, htake, hlast⟩ := bind_eq_ok_iff.mp hrest
    obtain ⟨_, rfl⟩ := Prod.mk.inj (ok.inj hlast)
    obtain ⟨hbytes, hforward, hwithin⟩ := take_advances htake
    exact hvalue hbytes hforward hwithin
  · cases hrest

theorem field_error {fault : Fault} (h : reader.field = .error fault) : fault = .decode := by
  have hvarint : ∀ {reader : Reader} {fault : Fault}, reader.varint = .error fault →
      fault = .decode := varint_error
  rw [field] at h
  rcases bind_eq_error_iff.mp h with hkey | ⟨⟨key, middle⟩, hkey, hrest⟩
  · exact hvarint hkey
  · dsimp only at hrest
    split_ifs at hrest
    · exact (error.inj hrest).symm
    · split at hrest
      · rcases bind_eq_error_iff.mp hrest with hvalue | ⟨_, _, hlast⟩
        · exact hvarint hvalue
        · cases hlast
      · rcases bind_eq_error_iff.mp hrest with hvalue | ⟨_, _, hlast⟩
        · exact take_error hvalue
        · cases hlast
      · rcases bind_eq_error_iff.mp hrest with hlength | ⟨_, _, htaken⟩
        · exact hvarint hlength
        · rcases bind_eq_error_iff.mp htaken with hvalue | ⟨_, _, hlast⟩
          · exact take_error hvalue
          · cases hlast
      · rcases bind_eq_error_iff.mp hrest with hvalue | ⟨_, _, hlast⟩
        · exact take_error hvalue
        · cases hlast
      · exact (error.inj hrest).symm

/-- The iteration over the fields ends within the bytes. -/
theorem fieldsFrom_error (fuel : ℕ) (hwithin : reader.at_ ≤ reader.bytes.length)
    (hfuel : reader.bytes.length - reader.at_ ≤ fuel) {fault : Fault}
    (h : .error fault ∈ reader.fieldsFrom fuel) : fault = .decode := by
  induction fuel generalizing reader with
  | zero =>
      have hend : reader.at_ = reader.bytes.length := by omega
      rw [fieldsFrom, if_pos hend] at h
      cases h
  | succ fuel ih =>
      rw [fieldsFrom] at h
      split_ifs at h
      · cases h
      · cases hfield : reader.field with
        | error found =>
            rw [hfield] at h
            obtain rfl := error.inj (mem_singleton.mp h)
            exact field_error hfield
        | ok found =>
            obtain ⟨field, next⟩ := found
            rw [hfield] at h
            have hnext := field_advances hfield
            rcases mem_cons.mp h with hhead | htail
            · cases hhead
            · refine ih (hnext.bytes ▸ hnext.within) ?_ htail
              rw [hnext.bytes]
              have hforward := hnext.forward
              omega

end Bounds

/-! ## Reading what was written -/

section Written

open Protobuf

variable {reader : Reader}

def shiftsFrom (shift : ℕ) : ℕ → List ℕ
  | 0 => []
  | left + 1 => shift :: shiftsFrom (shift + 7) left

variable {enc rest : List UInt8}

theorem getElem?_of_drop {byte : UInt8} (h : reader.bytes.drop reader.at_ = byte :: rest) :
    reader.bytes[reader.at_]? = some byte ∧ reader.bytes.drop (reader.at_ + 1) = rest := by
  constructor
  · rw [← Nat.add_zero reader.at_, ← getElem?_drop, h]
    rfl
  · rw [← drop_drop, h]
    rfl

/-- Seven more bits above those that were read. -/
theorem or_shiftLeft {value digit shift : ℕ} (hvalue : value < 2 ^ shift)
    (hfits : digit * 2 ^ shift < 2 ^ 64) :
    value ||| (digit <<< shift) % 2 ^ 64 = value + digit * 2 ^ shift := by
  rw [Nat.shiftLeft_eq, Nat.mod_eq_of_lt hfits, Nat.or_comm, Nat.mul_comm,
    ← Nat.two_pow_add_eq_or_of_lt hvalue]
  omega

theorem varintFrom_complete {left value : ℕ} {enc : List UInt8} (h : VarintFrom left value enc)
    {read shift : ℕ} {rest : List UInt8} (hshift : shift + 7 * left = 70)
    (hread : read < 2 ^ shift) (hfits : read + value * 2 ^ shift < 2 ^ 64)
    (hdrop : reader.bytes.drop reader.at_ = enc ++ rest) :
    reader.varintFrom read (shiftsFrom shift left) =
      .ok (read + value * 2 ^ shift, { reader with at_ := reader.at_ + enc.length }) := by
  induction h generalizing reader read shift with
  | @last left byte hbyte =>
      obtain ⟨hhere, _⟩ := getElem?_of_drop hdrop
      have hmask : byte.toNat &&& 0x7f = byte.toNat :=
        (Nat.and_two_pow_sub_one_eq_mod byte.toNat 7).trans (Nat.mod_eq_of_lt hbyte)
      have htop : ¬ (shift = 63 ∧ byte.toNat > 1) := by
        intro htop
        obtain ⟨rfl, hlarge⟩ := htop
        omega
      rw [shiftsFrom, varintFrom, hhere]
      dsimp only
      rw [if_neg htop, hmask, or_shiftLeft hread (by omega), if_pos hbyte]
      rfl
  | @more left value byte tail hbyte htail ih =>
      obtain ⟨hhere, hnext⟩ := getElem?_of_drop hdrop
      have hmask : byte.toNat &&& 0x7f = byte.toNat - 128 := by
        have hsmall : byte.toNat < 256 := byte.toNat_lt
        have hmod : byte.toNat &&& 0x7f = byte.toNat % 128 :=
          Nat.and_two_pow_sub_one_eq_mod byte.toNat 7
        omega
      have hsplit : (byte.toNat - 128 + 128 * value) * 2 ^ shift =
          (byte.toNat - 128) * 2 ^ shift + value * 2 ^ (shift + 7) := by
        rw [Nat.pow_add]
        ring
      rw [hsplit] at hfits ⊢
      -- a byte that goes on is not the tenth
      have htop : ¬ (shift = 63 ∧ byte.toNat > 1) := by
        intro htop
        obtain ⟨rfl, _⟩ := htop
        obtain rfl : left = 0 := by omega
        cases htail
      have hdigit : (byte.toNat - 128) * 2 ^ shift < 2 ^ 64 := by omega
      have hlow : read + (byte.toNat - 128) * 2 ^ shift < 2 ^ (shift + 7) := by
        have hsmall : byte.toNat < 256 := byte.toNat_lt
        calc read + (byte.toNat - 128) * 2 ^ shift
            < 2 ^ shift + (byte.toNat - 128) * 2 ^ shift := Nat.add_lt_add_right hread _
          _ = (byte.toNat - 128 + 1) * 2 ^ shift := by ring
          _ ≤ 128 * 2 ^ shift := Nat.mul_le_mul_right _ (by omega)
          _ = 2 ^ (shift + 7) := by rw [Nat.pow_add, Nat.mul_comm]
      rw [shiftsFrom, varintFrom, hhere]
      dsimp only
      rw [if_neg htop, hmask, or_shiftLeft hread hdigit, if_neg (not_lt.mpr hbyte),
        @ih { reader with at_ := reader.at_ + 1 } _ (shift + 7) (by omega) hlow (by omega) hnext,
        Nat.add_assoc]
      congr 3
      rw [length_cons]
      dsimp only
      omega

theorem varint_complete {value : ℕ} (h : IsVarint value enc)
    (hdrop : reader.bytes.drop reader.at_ = enc ++ rest) :
    reader.varint = .ok (value, { reader with at_ := reader.at_ + enc.length }) := by
  have hread := @varintFrom_complete reader 10 value enc h.1 0 0 rest rfl (by decide)
    (by rw [Nat.pow_zero, Nat.mul_one, Nat.zero_add]; exact h.2) hdrop
  rwa [Nat.pow_zero, Nat.mul_one, Nat.zero_add] at hread

theorem drop_of_append (hdrop : reader.bytes.drop reader.at_ = enc ++ rest) :
    reader.bytes.drop (reader.at_ + enc.length) = rest := by
  rw [← drop_drop, hdrop, drop_left]

theorem take_complete {enc rest : List UInt8} (hwithin : reader.at_ ≤ reader.bytes.length)
    (hdrop : reader.bytes.drop reader.at_ = enc ++ rest) :
    reader.take enc.length = .ok (enc, { reader with at_ := reader.at_ + enc.length }) := by
  have hlength : reader.bytes.length - reader.at_ = enc.length + rest.length := by
    rw [← length_drop, hdrop, length_append]
  rw [take_eq, if_pos (by omega), hdrop, take_left]

theorem field_complete {found : Field} (h : EncodesField found enc)
    (hdrop : reader.bytes.drop reader.at_ = enc ++ rest) :
    reader.field = .ok (found, { reader with at_ := reader.at_ + enc.length }) := by
  obtain @⟨number, wire, value, key, payload, hpositive, hnumber, hkey, hvalue⟩ := h
  have hwire : wire < 8 := by cases hvalue <;> decide
  rw [append_assoc] at hdrop
  have hread := varint_complete hkey hdrop
  have hwithin : reader.at_ + key.length ≤ reader.bytes.length := (varint_advances hread).within
  have hpayload := drop_of_append hdrop
  have hshifted : (number * 8 + wire) >>> 3 = number := by
    rw [Nat.shiftRight_eq_div_pow]
    omega
  have hmasked : (number * 8 + wire) &&& 7 = wire := by
    have hmod : (number * 8 + wire) &&& 7 = (number * 8 + wire) % 8 :=
      Nat.and_two_pow_sub_one_eq_mod (number * 8 + wire) 3
    omega
  rw [field, hread, ok_bind]
  dsimp only
  rw [hshifted, hmasked, if_neg (by omega)]
  -- the reader behind the key
  have hbehind : (Reader.mk reader.bytes (reader.at_ + key.length)).bytes.drop
      (Reader.mk reader.bytes (reader.at_ + key.length)).at_ = payload ++ rest := hpayload
  have hlast : ∀ more : ℕ, Reader.mk reader.bytes (reader.at_ + key.length + more) =
      { reader with at_ := reader.at_ + (key.length + more) } := fun more => by rw [Nat.add_assoc]
  cases hvalue with
  | varint hnumber =>
      rw [varint_complete hnumber hbehind, ok_bind, length_append, ← hlast]
      rfl
  | fixed64 hlength =>
      rw [← hlength, take_complete hwithin hbehind, ok_bind, length_append, ← hlast]
      rfl
  | @bytes payload length hlength =>
      rw [append_assoc] at hbehind
      have hstart := varint_complete hlength hbehind
      simp only [hstart, ok_bind]
      have hcontent := drop_of_append hbehind
      have hroom := (varint_advances hstart).within
      rw [@take_complete ⟨reader.bytes, reader.at_ + key.length + length.length⟩ payload rest
        hroom hcontent, ok_bind, length_append, length_append, ← hlast, ← Nat.add_assoc]
      rfl
  | fixed32 hlength =>
      rw [← hlength, take_complete hwithin hbehind, ok_bind, length_append, ← hlast]
      rfl

/-- The fields of a message are read from its bytes, one after the other. -/
theorem fieldsFrom_complete {all : List Field} (h : EncodesFields all enc) {fuel : ℕ}
    (hfuel : enc.length ≤ fuel) (hwithin : reader.at_ ≤ reader.bytes.length)
    (hdrop : reader.bytes.drop reader.at_ = enc) :
    reader.fieldsFrom fuel = all.map .ok := by
  induction h generalizing reader fuel with
  | nil =>
      have hend : reader.at_ = reader.bytes.length := by
        have hlength := congrArg List.length hdrop
        rw [length_drop, length_nil] at hlength
        omega
      cases fuel with
      | zero | succ fuel => rw [fieldsFrom, if_pos hend, map_nil]
  | @cons field more bytes rest hfield hrest ih =>
      have hpositive : 0 < bytes.length := length_pos_iff.mpr hfield.ne_nil
      rw [length_append] at hfuel
      obtain ⟨fuel, rfl⟩ : ∃ less, fuel = less + 1 := ⟨fuel - 1, by omega⟩
      have hgoing : ¬ reader.at_ = reader.bytes.length := by
        intro hend
        have hlength := congrArg List.length hdrop
        rw [length_drop, length_append] at hlength
        omega
      have hread := field_complete hfield hdrop
      rw [fieldsFrom, if_neg hgoing, hread]
      dsimp only
      rw [@ih { reader with at_ := reader.at_ + bytes.length } fuel (by omega)
        (field_advances hread).within (drop_of_append hdrop), map_cons]

end Written

end Reader

/-- A message of the wire format is read into its fields. -/
theorem fields_of_encodesFields {all : List Field} {enc : List UInt8}
    (h : Protobuf.EncodesFields all enc) : fields enc = all.map .ok :=
  Reader.fieldsFrom_complete h (Nat.le_refl _) (Nat.zero_le _) rfl

/-- The fields of any bytes are read within them. -/
theorem fields_error {bytes : List UInt8} {fault : Fault} (h : .error fault ∈ fields bytes) :
    fault = .decode :=
  Reader.fieldsFrom_error bytes.length (Nat.zero_le _) (Nat.sub_le _ _) h

end Bran.Scip
