import Bran.Document.PartName
import Bran.Document.ZipIntake

/-!
# Reading what was written

The bounded writer lays entries out one after the other, first their local headers with the data,
then their records, then the end record.  The reader finds the last one first, and from there every
field where the writer has put it.
-/

namespace Bran.Document.Zip

open Words Validation Text List

variable {codec : Codec} {bytes : List UInt8} {limits : Limits} {maxRatio : ℕ}

/-! ## Decompression -/

/-- A decoder in some state turns all of an input into data.  Every step before the end of the stream
makes progress. -/
inductive Inflates (codec : Codec) : codec.S → List UInt8 → List UInt8 → Prop
  | done {state : codec.S} {raw data : List UInt8} (next : codec.S)
      (h : codec.decompress state raw = some ⟨true, raw.length, data, next⟩) :
      Inflates codec state raw data
  | more {state : codec.S} {raw rest : List UInt8} (step : Decompressed codec.S)
      (h : codec.decompress state raw = some step) (hmore : step.streamEnd = false)
      (hprogress : step.consumed ≠ 0 ∨ step.produced ≠ [])
      (hrest : Inflates codec step.next (raw.drop step.consumed) rest) :
      Inflates codec state raw (step.produced ++ rest)

theorem inflateFrom_of_inflates {state : codec.S} {raw data : List UInt8}
    (h : Inflates codec state raw data) (before : List UInt8) {size : ℕ}
    (hsize : before.length + data.length = size) :
    inflateFrom codec size state raw before = .ok (before ++ data) := by
  induction h generalizing before with
  | @done state raw data next h =>
      rw [inflateFrom]
      split
      · next hnone => rw [h] at hnone; cases hnone
      · next step hstep =>
          rw [h] at hstep
          obtain rfl := Option.some.inj hstep
          rw [if_pos rfl, if_pos ⟨drop_length, by rw [length_append, hsize]⟩]
  | @more state raw rest step h hmore hprogress _ ih =>
      rw [length_append] at hsize
      rw [inflateFrom]
      split
      · next hnone => rw [h] at hnone; cases hnone
      · next other hstep =>
          rw [h] at hstep
          obtain rfl := Option.some.inj hstep
          have hwithin : ¬ size < (before ++ step.produced).length := by
            rw [length_append]
            omega
          rw [if_neg (by rw [hmore]; decide), dif_neg hwithin,
            dif_neg (by rw [not_and_or]; exact hprogress),
            ih (before ++ step.produced) (by rw [length_append]; omega), append_assoc]

/-- Decompression inverts compression. -/
def Inverts (codec : Codec) : Prop := ∀ data, Inflates codec codec.start (codec.compress data) data

theorem inflate_compress (hcodec : Inverts codec) (data : List UInt8) :
    inflate codec (codec.compress data) data.length = .ok data :=
  inflateFrom_of_inflates (hcodec data) [] (Nat.zero_add _)

/-! ## The layout -/

/-- The local header of an entry with its data, as written. -/
def localOf (codec : Codec) (maxRatio : ℕ) (entry : WriteEntry) : List UInt8 :=
  localRecord codec entry (packed codec maxRatio entry)

/-- The record of an entry, as written. -/
def centralOf (codec : Codec) (maxRatio : ℕ) (entry : WriteEntry) (offset : ℕ) : List UInt8 :=
  centralRecord codec entry (packed codec maxRatio entry) offset

/-- Entries stand in the bytes: their local headers from one offset to another, and their records
from one offset to another. -/
inductive Laid (codec : Codec) (maxRatio : ℕ) (bytes : List UInt8) :
    List WriteEntry → ℕ → ℕ → ℕ → ℕ → Prop
  | nil (offset place : ℕ) : Laid codec maxRatio bytes [] offset offset place place
  | cons {entry : WriteEntry} {rest : List WriteEntry} {offset stop place last : ℕ}
      (hlocal : Located bytes offset (localOf codec maxRatio entry))
      (hcentral : Located bytes place (centralOf codec maxRatio entry offset))
      (hrest : Laid codec maxRatio bytes rest (offset + (localOf codec maxRatio entry).length) stop
        (place + (centralOf codec maxRatio entry offset).length) last) :
      Laid codec maxRatio bytes (entry :: rest) offset stop place last

theorem length_fields (entry : WriteEntry) (stored : List UInt8 × ℕ) :
    (fields codec entry stored).length = 24 := by
  simp [fields]

theorem length_localOf (entry : WriteEntry) : (localOf codec maxRatio entry).length =
    30 + byteLen entry.name + (packed codec maxRatio entry).1.length := by
  simp only [localOf, localRecord, length_append, length_toLittleEndian, length_fields,
    length_bytes]
  omega

theorem length_centralOf (entry : WriteEntry) (offset : ℕ) :
    (centralOf codec maxRatio entry offset).length = 46 + byteLen entry.name := by
  simp only [centralOf, centralRecord, length_append, length_toLittleEndian, length_fields,
    length_bytes]
  omega

theorem laid_of_writeEntries {bounds : Option Limits} {entries : List WriteEntry}
    {out central out' central' : List UInt8}
    (h : writeEntries codec bounds maxRatio entries out central = .ok (out', central')) :
    out <+: out' ∧ central <+: central' ∧ ∀ tail,
      Laid codec maxRatio (out' ++ (central' ++ tail)) entries out.length out'.length
        (out'.length + central.length) (out'.length + central'.length) := by
  induction entries generalizing out central with
  | nil =>
      obtain ⟨rfl, rfl⟩ := Prod.mk.inj (Except.ok.inj h)
      exact ⟨prefix_rfl, prefix_rfl, fun tail => .nil _ _⟩
  | cons entry rest ih =>
      obtain ⟨_, h⟩ := check_bind_eq_ok_iff.mp h
      obtain ⟨⟨locals, hlocals⟩, ⟨centrals, hcentrals⟩, hlaid⟩ := ih h
      rw [append_assoc] at hlocals hcentrals
      refine ⟨⟨_, hlocals⟩, ⟨_, hcentrals⟩, fun tail => .cons ?_ ?_ ?_⟩
      · exact ⟨out, locals ++ (central' ++ tail), by rw [← hlocals]; simp [localOf], rfl⟩
      · refine ⟨out' ++ central, centrals ++ tail, ?_, length_append⟩
        rw [← hcentrals]
        simp [centralOf]
      · have hrest := hlaid tail
        rw [length_append, length_append, ← Nat.add_assoc] at hrest
        exact hrest

theorem length_of_writeEntries {entries : List WriteEntry} {out central out' central' : List UInt8}
    (h : writeEntries codec (some limits) maxRatio entries out central = .ok (out', central'))
    (hsize : entries ≠ [] ∨ out.length + central.length + 22 ≤ limits.maxPackageBytes ∧
      out.length + central.length + 22 < 2 ^ 32 - 1) :
    out'.length + central'.length + 22 ≤ limits.maxPackageBytes ∧
      out'.length + central'.length + 22 < 2 ^ 32 - 1 := by
  induction entries generalizing out central with
  | nil =>
      obtain ⟨rfl, rfl⟩ := Prod.mk.inj (Except.ok.inj h)
      exact hsize.resolve_left (· rfl)
  | cons entry rest ih =>
      obtain ⟨hfits, h⟩ := check_bind_eq_ok_iff.mp h
      refine ih h (.inr ?_)
      rw [failIf_eq_ok_iff, exceeds, Option.any_some, decide_eq_true_eq, not_or, not_lt,
        not_le] at hfits
      have hlocal := @length_localOf codec maxRatio entry
      have hcentral := @length_centralOf codec maxRatio entry out.length
      rw [localOf] at hlocal
      rw [centralOf] at hcentral
      rw [length_append, length_append, hlocal, hcentral]
      simp only [packageSize, saturatingAdd] at hfits
      omega

/-! ## Fields -/

section Fields

variable {entry : WriteEntry} {offset place : ℕ}

theorem u16At_located {value : ℕ} (hlength : bytes.length < 2 ^ 63)
    (h : Located bytes offset (toLittleEndian 2 value)) (hvalue : value < 2 ^ 16) :
    u16At bytes offset = .ok value :=
  (fieldAt_eq_ok_iff hlength).mpr
    ⟨_, h, length_toLittleEndian 2 value, fromLittleEndian_toLittleEndian hvalue⟩

theorem u32At_located {value : ℕ} (hlength : bytes.length < 2 ^ 63)
    (h : Located bytes offset (toLittleEndian 4 value)) (hvalue : value < 2 ^ 32) :
    u32At bytes offset = .ok value :=
  (fieldAt_eq_ok_iff hlength).mpr
    ⟨_, h, length_toLittleEndian 4 value, fromLittleEndian_toLittleEndian hvalue⟩

/-- An entry whose numbers fit into their fields. -/
structure Fits (codec : Codec) (maxRatio : ℕ) (entry : WriteEntry) : Prop where
  name : byteLen entry.name < 2 ^ 16
  stored : (packed codec maxRatio entry).1.length < 2 ^ 32 - 1
  size : entry.data.length < 2 ^ 32 - 1

/-- An entry is stored as it is, or compressed within the ratio. -/
theorem packed_cases (entry : WriteEntry) : packed codec maxRatio entry = (entry.data, 0) ∨
    packed codec maxRatio entry = (codec.compress entry.data, 8) ∧
      entry.data.length ≤ saturatingMul maxRatio (max (codec.compress entry.data).length 1) := by
  unfold packed
  split_ifs with hdeflate hratio
  · exact .inl rfl
  · exact .inr ⟨rfl, not_lt.mp hratio⟩
  · exact .inl rfl

theorem packed_method (entry : WriteEntry) :
    (packed codec maxRatio entry).2 = 0 ∨ (packed codec maxRatio entry).2 = 8 := by
  rcases @packed_cases codec maxRatio entry with h | ⟨h, _⟩
  · exact .inl (by rw [h])
  · exact .inr (by rw [h])

/-- The shared fields of a header, from an offset on. -/
structure FieldsAt (codec : Codec) (maxRatio : ℕ) (bytes : List UInt8) (entry : WriteEntry)
    (offset : ℕ) : Prop where
  flags : u16At bytes offset = .ok 0x0800
  method : u16At bytes (offset + 2) = .ok (packed codec maxRatio entry).2
  crc : u32At bytes (offset + 8) = .ok (codec.crc32 entry.data).toNat
  compressed : u32At bytes (offset + 12) = .ok (packed codec maxRatio entry).1.length
  size : u32At bytes (offset + 16) = .ok entry.data.length
  nameLen : u16At bytes (offset + 20) = .ok (byteLen entry.name)
  extraLen : u16At bytes (offset + 22) = .ok 0

theorem fieldsAt_of_located (hlength : bytes.length < 2 ^ 63) (hfits : Fits codec maxRatio entry)
    (h : Located bytes offset (fields codec entry (packed codec maxRatio entry))) :
    FieldsAt codec maxRatio bytes entry offset := by
  obtain ⟨hname, hstored, hsize⟩ := hfits
  have hmethod := @packed_method codec maxRatio entry
  have hcrc := (codec.crc32 entry.data).toNat_lt
  have h2 := h.right
  have h8 := h2.right.right.right
  have h12 := h8.right
  have h16 := h12.right
  have h20 := h16.right
  refine ⟨u16At_located hlength h.left (by omega), u16At_located hlength h2.left (by omega),
    u32At_located hlength h8.left hcrc, u32At_located hlength h12.left (by omega),
    u32At_located hlength h16.left (by omega), u16At_located hlength h20.left hname,
    u16At_located hlength h20.right (by omega)⟩

theorem localFields (hlength : bytes.length < 2 ^ 63) (hfits : Fits codec maxRatio entry)
    (h : Located bytes offset (localOf codec maxRatio entry)) :
    FieldsAt codec maxRatio bytes entry (offset + 6) :=
  fieldsAt_of_located hlength hfits h.right.right.left

theorem centralFields (hlength : bytes.length < 2 ^ 63) (hfits : Fits codec maxRatio entry)
    (h : Located bytes place (centralOf codec maxRatio entry offset)) :
    FieldsAt codec maxRatio bytes entry (place + 8) :=
  fieldsAt_of_located hlength hfits h.right.right.right.left

theorem localName (h : Located bytes offset (localOf codec maxRatio entry)) :
    Located bytes (offset + 30) (Text.bytes entry.name) := by
  have hname := h.right.right.right.left
  rw [length_fields] at hname
  exact hname

theorem localData (h : Located bytes offset (localOf codec maxRatio entry)) :
    Located bytes (offset + 30 + byteLen entry.name) (packed codec maxRatio entry).1 := by
  have hdata := h.right.right.right.right
  rw [length_fields, length_bytes] at hdata
  exact hdata

/-- The part of a record behind the shared fields. -/
theorem centralRest (h : Located bytes place (centralOf codec maxRatio entry offset)) :
    Located bytes (place + 32) (toLittleEndian 6 0 ++ (toLittleEndian 4 0 ++
      (toLittleEndian 4 offset ++ Text.bytes entry.name))) := by
  have hrest := h.right.right.right.right
  rw [length_fields] at hrest
  exact hrest

/-! ## Records -/

/-- The record that the reader makes of a written entry. -/
def recordOf (codec : Codec) (maxRatio : ℕ) (entry : WriteEntry) (offset : ℕ) : Central :=
  ⟨entry.name, 0x0800, (packed codec maxRatio entry).2, (codec.crc32 entry.data).toNat,
    (packed codec maxRatio entry).1.length, entry.data.length, offset⟩

theorem readCentral_located (hlength : bytes.length < 2 ^ 63) (hfits : Fits codec maxRatio entry)
    (hoffset : offset < 2 ^ 32 - 1)
    (h : Located bytes place (centralOf codec maxRatio entry offset)) :
    readCentral bytes place = .ok (recordOf codec maxRatio entry offset,
      place + (centralOf codec maxRatio entry offset).length) := by
  have hle := h.le_length
  have hsize := @length_centralOf codec maxRatio entry offset
  have hfields := centralFields hlength hfits h
  have hrest := centralRest h
  -- the comment length and the disk number are the first of six zeros
  have hzeros : Located bytes (place + 32) (toLittleEndian 2 0 ++ (toLittleEndian 2 0 ++
    toLittleEndian 2 0)) := hrest.left
  have hname : Located bytes (place + 46) (Text.bytes entry.name) := hrest.right.right.right
  have hsignature : u32At bytes place = .ok centralSignature :=
    u32At_located hlength h.left (by decide)
  have hnameLen : u16From bytes place 28 = .ok (byteLen entry.name) :=
    u16From_eq_ok_iff.mpr ⟨by omega, hfields.nameLen⟩
  have hextraLen : u16From bytes place 30 = .ok 0 :=
    u16From_eq_ok_iff.mpr ⟨by omega, hfields.extraLen⟩
  have hcommentLen : u16From bytes place 32 = .ok 0 :=
    u16From_eq_ok_iff.mpr ⟨by omega, u16At_located hlength hzeros.left (by omega)⟩
  have hdisk : u16From bytes place 34 = .ok 0 :=
    u16From_eq_ok_iff.mpr ⟨by omega, u16At_located hlength hzeros.right.left (by omega)⟩
  have hcompressed : u32From bytes place 20 = .ok (packed codec maxRatio entry).1.length :=
    u32From_eq_ok_iff.mpr ⟨by omega, hfields.compressed⟩
  have hdata : u32From bytes place 24 = .ok entry.data.length :=
    u32From_eq_ok_iff.mpr ⟨by omega, hfields.size⟩
  have hlocal : u32From bytes place 42 = .ok offset :=
    u32From_eq_ok_iff.mpr ⟨by omega, u32At_located hlength hrest.right.right.left (by omega)⟩
  have hflags : u16From bytes place 8 = .ok 0x0800 :=
    u16From_eq_ok_iff.mpr ⟨by omega, hfields.flags⟩
  have hmethod : u16From bytes place 10 = .ok (packed codec maxRatio entry).2 :=
    u16From_eq_ok_iff.mpr ⟨by omega, hfields.method⟩
  have hcrc : u32From bytes place 16 = .ok (codec.crc32 entry.data).toNat :=
    u32From_eq_ok_iff.mpr ⟨by omega, hfields.crc⟩
  have hslice : slice bytes (place + 46) (byteLen entry.name) = .ok (Text.bytes entry.name) :=
    (slice_eq_ok_iff hlength).mpr ⟨hname, length_bytes _⟩
  have hutf8 : nameOf (Text.bytes entry.name) = .ok entry.name := by
    rw [nameOf, fromUtf8_bytes]
  have hshort := hfits.stored
  have hsmall := hfits.size
  unfold readCentral
  simp only [hsignature, hnameLen, hextraLen, hcommentLen, hdisk, hcompressed, hdata, hlocal,
    hflags, hmethod, hcrc, ok_bind]
  rw [failIf_bind_eq (not_not.mpr rfl), addWord_eq_ok (by omega), ok_bind, hslice, ok_bind, hutf8,
    ok_bind, failIf_bind_eq (by omega), failIf_bind_eq (not_not.mpr rfl),
    addWord_eq_ok (by omega), ok_bind, addWord_eq_ok (by omega), ok_bind,
    addWord_eq_ok (by omega), ok_bind, addWord_eq_ok (by omega), ok_bind, hsize]
  rfl

theorem checkDescriptor_located (hlength : bytes.length < 2 ^ 63) (hoffset : offset < 2 ^ 63)
    (hfields : FieldsAt codec maxRatio bytes entry (offset + 6)) :
    checkDescriptor bytes (recordOf codec maxRatio entry offset) = .ok () := by
  have hcrc : u32From bytes offset 14 = .ok (codec.crc32 entry.data).toNat :=
    u32From_eq_ok_iff.mpr ⟨by omega, hfields.crc⟩
  have hcompressed : u32From bytes offset 18 = .ok (packed codec maxRatio entry).1.length :=
    u32From_eq_ok_iff.mpr ⟨by omega, hfields.compressed⟩
  have hsize : u32From bytes offset 22 = .ok entry.data.length :=
    u32From_eq_ok_iff.mpr ⟨by omega, hfields.size⟩
  have hdescriptor : 0x0800 &&& 0x0008 = 0 := by decide
  refine (if_pos hdescriptor).trans (bind_eq_ok_iff.mpr ⟨_, hcrc, ?_⟩)
  refine (failIf_bind_eq (not_not.mpr rfl)).trans (bind_eq_ok_iff.mpr ⟨_, hcompressed, ?_⟩)
  refine (failIf_bind_eq (not_not.mpr rfl)).trans (bind_eq_ok_iff.mpr ⟨_, hsize, ?_⟩)
  exact failIf_eq_ok_iff.mpr (not_not.mpr rfl)

theorem dataOffset_located (record : Central) {nameLen : ℕ}
    (h : record.localOffset + 30 + nameLen < 2 ^ 64) :
    dataOffset record nameLen 0 = .ok (record.localOffset + 30 + nameLen) := by
  unfold dataOffset
  rw [addWord_eq_ok (by omega), ok_bind, addWord_eq_ok (by omega), ok_bind,
    addWord_eq_ok (by omega)]
  rfl

theorem checkRecord_located {cdOffset : ℕ} (hlength : bytes.length < 2 ^ 63)
    (hfits : Fits codec maxRatio entry) (h : Located bytes offset (localOf codec maxRatio entry))
    (hbefore : offset + (localOf codec maxRatio entry).length ≤ cdOffset) :
    checkRecord bytes cdOffset (recordOf codec maxRatio entry offset) =
      .ok (offset, offset + (localOf codec maxRatio entry).length) := by
  have hle := h.le_length
  have hsize := @length_localOf codec maxRatio entry
  have hfields := localFields hlength hfits h
  have hsignature : u32At bytes offset = .ok localSignature :=
    u32At_located hlength h.left (by decide)
  have hflags : u16From bytes offset 6 = .ok 0x0800 :=
    u16From_eq_ok_iff.mpr ⟨by omega, hfields.flags⟩
  have hmethod : u16From bytes offset 8 = .ok (packed codec maxRatio entry).2 :=
    u16From_eq_ok_iff.mpr ⟨by omega, hfields.method⟩
  have hnameLen : u16From bytes offset 26 = .ok (byteLen entry.name) :=
    u16From_eq_ok_iff.mpr ⟨by omega, hfields.nameLen⟩
  have hextraLen : u16From bytes offset 28 = .ok 0 :=
    u16From_eq_ok_iff.mpr ⟨by omega, hfields.extraLen⟩
  have hslice : slice bytes (offset + 30) (byteLen entry.name) = .ok (Text.bytes entry.name) :=
    (slice_eq_ok_iff hlength).mpr ⟨localName h, length_bytes _⟩
  have hdata : dataOffset (recordOf codec maxRatio entry offset) (byteLen entry.name) 0 =
      .ok (offset + 30 + byteLen entry.name) :=
    dataOffset_located _ (show offset + 30 + byteLen entry.name < 2 ^ 64 by omega)
  have hend : checkedAdd (offset + 30 + byteLen entry.name)
      (packed codec maxRatio entry).1.length (Words.Stop.refused Refusal.malformedContainer) =
      .ok (offset + (localOf codec maxRatio entry).length) := by
    rw [checkedAdd_eq_ok (by omega), hsize]
    congr 1
    omega
  have hmethods := @packed_method codec maxRatio entry
  have hmethodAllowed : ¬ ((packed codec maxRatio entry).2 ≠ 0 ∧
    (packed codec maxRatio entry).2 ≠ 8) := by omega
  have hagree : ¬ ((packed codec maxRatio entry).2 ≠ (packed codec maxRatio entry).2 ∨
    (0x0800 ^^^ 0x0800) &&& 0x0008 ≠ 0) := by simp
  refine (failIf_bind_eq (show ¬ encryptedFlags 0x0800 by decide)).trans ?_
  refine (failIf_bind_eq hmethodAllowed).trans (bind_eq_ok_iff.mpr ⟨_, hsignature, ?_⟩)
  refine (failIf_bind_eq (not_not.mpr rfl)).trans (bind_eq_ok_iff.mpr ⟨_, hflags, ?_⟩)
  refine (failIf_bind_eq (by decide)).trans (bind_eq_ok_iff.mpr ⟨_, hmethod, ?_⟩)
  refine (failIf_bind_eq hagree).trans ?_
  refine check_bind_eq_ok_iff.mpr ⟨checkDescriptor_located hlength (by omega) hfields, ?_⟩
  refine bind_eq_ok_iff.mpr ⟨_, hnameLen, bind_eq_ok_iff.mpr ⟨_, hextraLen, ?_⟩⟩
  refine bind_eq_ok_iff.mpr ⟨_, addWord_eq_ok (show offset + 30 < 2 ^ 64 by omega), ?_⟩
  refine bind_eq_ok_iff.mpr ⟨_, hslice, (failIf_bind_eq (not_not.mpr rfl)).trans ?_⟩
  refine bind_eq_ok_iff.mpr ⟨_, hdata, bind_eq_ok_iff.mpr ⟨_, hend, ?_⟩⟩
  exact failIf_bind_eq (not_lt.mpr hbefore)

/-! ## Data -/

/-- The entry that the reader makes of a written one. -/
def entryOf (entry : WriteEntry) : Entry := ⟨entry.name, entry.data⟩

theorem entryData_packed {budget : ℕ} (hcodec : Inverts codec)
    (hbudget : entry.data.length ≤ budget) :
    entryData codec limits (recordOf codec limits.maxRatio entry offset) budget
      (packed codec limits.maxRatio entry).1 = .ok entry.data := by
  unfold recordOf
  rcases @packed_cases codec limits.maxRatio entry with h | ⟨h, hratio⟩
  · rw [h]
    refine (if_pos rfl).trans ((failIf_bind_eq (not_not.mpr rfl)).trans ?_)
    exact failIf_bind_eq (not_lt.mpr hbudget)
  · rw [h]
    have hwithin := not_or.mpr ⟨not_lt.mpr hbudget, not_lt.mpr hratio⟩
    refine (if_neg (by simp)).trans ((failIf_bind_eq hwithin).trans ?_)
    rw [inflate_compress hcodec]
    rfl

theorem readEntry_located {remaining : ℕ} (hcodec : Inverts codec) (hlength : bytes.length < 2 ^ 63)
    (hfits : Fits codec limits.maxRatio entry)
    (h : Located bytes offset (localOf codec limits.maxRatio entry))
    (hpart : entry.data.length ≤ limits.maxPartBytes) (hremaining : entry.data.length ≤ remaining) :
    readEntry codec bytes limits (recordOf codec limits.maxRatio entry offset) remaining =
      .ok (entryOf entry, remaining - entry.data.length) := by
  have hle := h.le_length
  have hsize := @length_localOf codec limits.maxRatio entry
  have hfields := localFields hlength hfits h
  have hnameLen : u16From bytes offset 26 = .ok (byteLen entry.name) :=
    u16From_eq_ok_iff.mpr ⟨by omega, hfields.nameLen⟩
  have hextraLen : u16From bytes offset 28 = .ok 0 :=
    u16From_eq_ok_iff.mpr ⟨by omega, hfields.extraLen⟩
  have hoffset : dataOffset (recordOf codec limits.maxRatio entry offset) (byteLen entry.name) 0 =
      .ok (offset + 30 + byteLen entry.name) :=
    dataOffset_located _ (show offset + 30 + byteLen entry.name < 2 ^ 64 by omega)
  have hslice : slice bytes (offset + 30 + byteLen entry.name)
      (packed codec limits.maxRatio entry).1.length = .ok (packed codec limits.maxRatio entry).1 :=
    (slice_eq_ok_iff hlength).mpr ⟨localData h, rfl⟩
  have hdata := @entryData_packed codec limits entry offset _ hcodec (le_min hpart hremaining)
  refine bind_eq_ok_iff.mpr ⟨_, hnameLen, bind_eq_ok_iff.mpr ⟨_, hextraLen, ?_⟩⟩
  refine bind_eq_ok_iff.mpr ⟨_, hoffset, bind_eq_ok_iff.mpr ⟨_, hslice, ?_⟩⟩
  refine bind_eq_ok_iff.mpr ⟨_, hdata, (failIf_bind_eq (not_not.mpr rfl)).trans ?_⟩
  exact bind_eq_ok_iff.mpr ⟨_, subWord_eq_ok hremaining, rfl⟩

end Fields

/-! ## Runs over the entries -/

/-- The records of laid out entries, from an offset on. -/
def recordsOf (codec : Codec) (maxRatio : ℕ) : List WriteEntry → ℕ → List Central
  | [], _ => []
  | entry :: rest, offset => recordOf codec maxRatio entry offset ::
      recordsOf codec maxRatio rest (offset + (localOf codec maxRatio entry).length)

/-- The ranges of laid out entries, from an offset on. -/
def spansOf (codec : Codec) (maxRatio : ℕ) : List WriteEntry → ℕ → List (ℕ × ℕ)
  | [], _ => []
  | entry :: rest, offset => (offset, offset + (localOf codec maxRatio entry).length) ::
      spansOf codec maxRatio rest (offset + (localOf codec maxRatio entry).length)

section Laid

variable {entries : List WriteEntry} {offset stop place last : ℕ}

theorem Laid.offset_le (h : Laid codec maxRatio bytes entries offset stop place last) :
    offset ≤ stop := by
  induction h with
  | nil => exact le_rfl
  | cons _ _ _ ih => omega

theorem readCentrals_laid (hsmall : bytes.length < 2 ^ 32 - 1)
    (hfits : ∀ entry ∈ entries, Fits codec maxRatio entry)
    (h : Laid codec maxRatio bytes entries offset stop place last) :
    readCentrals bytes entries.length place = .ok (recordsOf codec maxRatio entries offset, last) := by
  induction h with
  | nil => rfl
  | cons hlocal hcentral _ ih =>
      obtain ⟨hhead, hrest⟩ := forall_mem_cons.mp hfits
      have hle := hlocal.le_length
      have hrecord := readCentral_located (by omega) hhead (by omega) hcentral
      exact bind_eq_ok_iff.mpr ⟨_, hrecord, bind_eq_ok_iff.mpr ⟨_, ih hrest, rfl⟩⟩

theorem checkRecords_laid {cdOffset : ℕ} {names : List Str} (hlength : bytes.length < 2 ^ 63)
    (hfits : ∀ entry ∈ entries, Fits codec maxRatio entry)
    (h : Laid codec maxRatio bytes entries offset stop place last) (hbefore : stop ≤ cdOffset)
    (hdistinct : (entries.map WriteEntry.name).Nodup)
    (hnew : ∀ entry ∈ entries, entry.name ∉ names) :
    checkRecords bytes cdOffset (recordsOf codec maxRatio entries offset) names =
      .ok (spansOf codec maxRatio entries offset) := by
  induction h generalizing names with
  | nil => rfl
  | @cons entry rest offset stop place last hlocal _ hlaid ih =>
      obtain ⟨hhead, hrest⟩ := forall_mem_cons.mp hfits
      obtain ⟨hnewHead, hnewRest⟩ := forall_mem_cons.mp hnew
      obtain ⟨hfresh, hdistinct⟩ := nodup_cons.mp hdistinct
      have hle := hlaid.offset_le
      have hrecord := checkRecord_located hlength hhead hlocal (hle.trans hbefore)
      have hnewNames : ∀ other ∈ rest, other.name ∉ entry.name :: names := by
        intro other hother hmem
        rcases mem_cons.mp hmem with hname | hmem
        · exact hfresh (mem_map.mpr ⟨other, hother, hname⟩)
        · exact hnewRest other hother hmem
      refine (failIf_bind_eq hnewHead).trans (bind_eq_ok_iff.mpr ⟨_, hrecord, ?_⟩)
      exact bind_eq_ok_iff.mpr ⟨_, ih hrest hbefore hdistinct hnewNames, rfl⟩

/-- Laid out ranges lie one after the other. -/
theorem pairwise_spansOf : (spansOf codec maxRatio entries offset).Pairwise
    fun first second => first.1 < second.1 ∧ first.2 ≤ second.1 := by
  have hbound : ∀ (entries : List WriteEntry) (offset : ℕ),
      ∀ span ∈ spansOf codec maxRatio entries offset, offset ≤ span.1 := by
    intro entries
    induction entries with
    | nil => simp [spansOf]
    | cons entry rest ih =>
        intro offset span hspan
        rcases mem_cons.mp hspan with rfl | hspan
        · exact le_rfl
        · have hle := ih _ span hspan
          omega
  induction entries generalizing offset with
  | nil => exact .nil
  | cons entry rest ih =>
      refine pairwise_cons.mpr ⟨fun span hspan => ?_, ih⟩
      have hle := hbound rest _ span hspan
      have hlength := @length_localOf codec maxRatio entry
      dsimp only
      omega

theorem sortSpans_spansOf : sortSpans (spansOf codec maxRatio entries offset) =
    spansOf codec maxRatio entries offset := by
  refine List.Pairwise.insertionSort_eq (pairwise_spansOf.imp fun h => ?_)
  exact (Prod.Lex.toLex_lt_toLex.mpr (.inl h.1)).le

theorem overlapping_of_pairwise {spans : List (ℕ × ℕ)}
    (h : spans.Pairwise fun first second => first.1 < second.1 ∧ first.2 ≤ second.1) :
    overlapping spans = false := by
  induction spans with
  | nil => rfl
  | cons first rest ih =>
      obtain ⟨hfirst, hrest⟩ := pairwise_cons.mp h
      cases rest with
      | nil => rfl
      | cons second rest =>
          have hle := (hfirst second mem_cons_self).2
          rw [overlapping, ih hrest, Bool.or_false, decide_eq_false_iff_not]
          exact not_lt.mpr hle

theorem readEntries_laid {remaining check : ℕ} (hcodec : Inverts codec)
    (hlength : bytes.length < 2 ^ 63) (hfits : ∀ entry ∈ entries, Fits codec limits.maxRatio entry)
    (h : Laid codec limits.maxRatio bytes entries offset stop place last)
    (hparts : ∀ entry ∈ entries, entry.data.length ≤ limits.maxPartBytes)
    (htotal : (entries.map fun entry => entry.data.length).sum ≤ remaining) :
    readEntries codec bytes limits (fun _ => false) (recordsOf codec limits.maxRatio entries offset)
      remaining check = .ok (entries.map entryOf) := by
  induction h generalizing remaining check with
  | nil => rfl
  | cons hlocal _ _ ih =>
      obtain ⟨hhead, hrest⟩ := forall_mem_cons.mp hfits
      obtain ⟨hpart, hparts⟩ := forall_mem_cons.mp hparts
      rw [map_cons, sum_cons] at htotal
      have hremaining := (Nat.le_add_right _ _).trans htotal
      have hentry := readEntry_located hcodec hlength hhead hlocal hpart hremaining
      refine (failIf_bind_eq (by simp)).trans (bind_eq_ok_iff.mpr ⟨_, hentry, ?_⟩)
      exact bind_eq_ok_iff.mpr ⟨_, ih hrest hparts (by omega), rfl⟩

theorem Laid.fits (h : Laid codec maxRatio bytes entries offset stop place last)
    (hsmall : bytes.length < 2 ^ 32 - 1)
    (hbudgets : ∀ entry ∈ entries, byteLen entry.name < 2 ^ 16 ∧ entry.data.length < 2 ^ 32 - 1) :
    ∀ entry ∈ entries, Fits codec maxRatio entry := by
  induction h with
  | nil => simp
  | @cons entry rest offset stop place last hlocal _ _ ih =>
      obtain ⟨⟨hname, hsize⟩, hrest⟩ := forall_mem_cons.mp hbudgets
      have hle := hlocal.le_length
      have hlength := @length_localOf codec maxRatio entry
      exact forall_mem_cons.mpr ⟨⟨hname, by omega, hsize⟩, ih hrest⟩

/-- The last record ends where the records end. -/
theorem Laid.exists_last (h : Laid codec maxRatio bytes entries offset stop place last)
    (hne : entries ≠ []) : ∃ entry ∈ entries, ∃ first start,
      Located bytes start (centralOf codec maxRatio entry first) ∧ first ≤ bytes.length ∧
        start + (centralOf codec maxRatio entry first).length = last := by
  induction h with
  | nil => exact absurd rfl hne
  | @cons entry rest offset stop place last hlocal hcentral hrest ih =>
      by_cases hempty : rest = []
      · rw [hempty] at hrest
        have hle := hlocal.le_length
        cases hrest
        exact ⟨entry, mem_cons_self, _, _, hcentral, by omega, rfl⟩
      · obtain ⟨other, hother, hlast⟩ := ih hempty
        exact ⟨other, mem_cons_of_mem _ hother, hlast⟩

theorem Laid.exists_first (h : Laid codec maxRatio bytes entries offset stop place last)
    (hne : entries ≠ []) : ∃ entry, Located bytes offset (localOf codec maxRatio entry) := by
  cases h with
  | nil => exact absurd rfl hne
  | cons hlocal _ _ => exact ⟨_, hlocal⟩

end Laid

/-! ## The end record -/

section EndRecord

variable {entry : WriteEntry} {offset place : ℕ}

theorem getElem?_zero {width index : ℕ} (h : Located bytes offset (toLittleEndian width 0))
    (hindex : index < width) : bytes[offset + index]? = some 0 :=
  h.getElem?_eq (getElem?_toLittleEndian_zero hindex)

/-- No record of a safe name ends like a ZIP64 locator.  Behind the sizes a record has twelve zeros,
an offset and a name; the locator would need a byte 7 in the name, a byte 80 or 7 among the zeros, or
an offset of its own value. -/
theorem no_locator (hlength : bytes.length < 2 ^ 63)
    (h : Located bytes place (centralOf codec maxRatio entry offset))
    (hname : Opc.validatePartName entry.name = .ok ()) (hoffset : offset ≤ 64 * 1024 * 1024) :
    u32At bytes (place + (centralOf codec maxRatio entry offset).length - 20) ≠
      .ok zip64Locator := by
  intro hlocator
  have hstart : place + (centralOf codec maxRatio entry offset).length - 20 =
      place + 26 + byteLen entry.name := by
    rw [length_centralOf]
    omega
  rw [hstart] at hlocator
  obtain ⟨field, hfield, hwidth, hvalue⟩ := (fieldAt_eq_ok_iff hlength).mp hlocator
  have hbytes : field = [0x50, 0x4b, 0x06, 0x07] := by
    rw [← toLittleEndian_fromLittleEndian field, hvalue, hwidth]
    decide
  subst hbytes
  have hfirst : bytes[place + 26 + byteLen entry.name]? = some 0x50 :=
    @Located.getElem?_eq _ _ _ hfield 0 0x50 rfl
  have hlast : bytes[place + 26 + byteLen entry.name + 3]? = some 0x07 :=
    @Located.getElem?_eq _ _ _ hfield 3 0x07 rfl
  have hrest := centralRest h
  have hextra : Located bytes (place + 30) (toLittleEndian 2 0) :=
    h.right.right.right.left.right.right.right.right.right.right.right.right
  have hsix : Located bytes (place + 32) (toLittleEndian 6 0) := hrest.left
  have hfour : Located bytes (place + 38) (toLittleEndian 4 0) := hrest.right.left
  have hnumber : Located bytes (place + 42) (toLittleEndian 4 offset) := hrest.right.right.left
  have hnameAt : Located bytes (place + 46) (Text.bytes entry.name) := hrest.right.right.right
  have hpos : 0 < byteLen entry.name := Nat.pos_of_ne_zero fun hzero =>
    (Opc.validatePartName_eq_ok_iff.mp hname).1 (byteLen_eq_zero hzero)
  -- an index among the zeros holds a zero
  have hzeros : ∀ index, 30 ≤ index → index < 42 → bytes[place + index]? = some 0 := by
    intro index hlow hhigh
    rcases Nat.lt_or_ge index 32 with hindex | hindex
    · have hzero := @getElem?_zero bytes (place + 30) 2 (index - 30) hextra (by omega)
      rwa [show place + 30 + (index - 30) = place + index by omega] at hzero
    rcases Nat.lt_or_ge index 38 with hindex' | hindex'
    · have hzero := @getElem?_zero bytes (place + 32) 6 (index - 32) hsix (by omega)
      rwa [show place + 32 + (index - 32) = place + index by omega] at hzero
    · have hzero := @getElem?_zero bytes (place + 38) 4 (index - 38) hfour (by omega)
      rwa [show place + 38 + (index - 38) = place + index by omega] at hzero
  rw [Nat.add_assoc] at hfirst
  rw [Nat.add_assoc, Nat.add_assoc] at hlast
  rcases Nat.lt_or_ge (byteLen entry.name) 13 with hshort | hshort
  · rw [hzeros _ (by omega) (by omega)] at hlast
    cases hlast
  rcases Nat.lt_or_ge (byteLen entry.name) 16 with hmiddle | hmiddle
  · rw [hzeros _ (by omega) (by omega)] at hfirst
    cases hfirst
  rcases Nat.eq_or_lt_of_le hmiddle with hsixteen | hlong
  · -- the locator would be the offset
    rw [← hsixteen] at hfield
    have hsame := hnumber.eq_of_length hfield (length_toLittleEndian 4 offset)
    have hoffsetValue := fromLittleEndian_toLittleEndian (show offset < 256 ^ 4 by omega)
    rw [hsame] at hoffsetValue
    have : offset = 0x07064b50 := hoffsetValue.symm
    omega
  · -- the last byte would stand in the name
    have hindex : byteLen entry.name - 17 < (Text.bytes entry.name).length := by
      rw [length_bytes]
      omega
    have hbyte := hnameAt.getElem?_eq (getElem?_eq_getElem hindex)
    rw [show place + 46 + (byteLen entry.name - 17) = place + (26 + (byteLen entry.name + 3)) by
      omega, hlast] at hbyte
    have hcode := Opc.le_of_mem_bytes hname (getElem_mem hindex)
    rw [← Option.some.inj hbyte] at hcode
    exact absurd hcode (by decide)

/-- The end record as written. -/
structure EndsAt (bytes : List UInt8) (count centralLength cdOffset found : ℕ) : Prop where
  located : Located bytes found (endRecord count centralLength cdOffset)
  finish : found + 22 = bytes.length
  count : count < 0xFFFF
  numbers : centralLength < 2 ^ 32 - 1 ∧ cdOffset < 2 ^ 32 - 1
  directory : cdOffset + centralLength = found

variable {count centralLength cdOffset found : ℕ}

theorem findEndRecord_written (hlength : bytes.length < 2 ^ 63)
    (h : EndsAt bytes count centralLength cdOffset found) :
    findEndRecord bytes (endCandidates bytes) = .ok found := by
  have hfinish := h.finish
  -- the first candidate is the last place for an end record
  have hcandidates : endCandidates bytes =
      found :: (List.range found).reverse.take (21 + 0xFFFF) := by
    rw [endCandidates, show bytes.length - 21 = found + 1 by omega, range_succ,
      reverse_append, reverse_singleton, singleton_append]
    rfl
  have hsignature : u32At bytes found = .ok endSignature :=
    u32At_located hlength h.located.left (by decide)
  have hcomment : u16At bytes (found + 20) = .ok 0 :=
    u16At_located hlength h.located.right.right.right.right.right.right (by omega)
  have hfound : isEndRecord bytes found = .ok true := by
    refine (if_pos hsignature).trans ?_
    rw [addWord_eq_ok (by omega), ok_bind, hcomment]
    dsimp only
    rw [addWord_eq_ok (by omega), ok_bind, addWord_eq_ok (by omega), ok_bind, Nat.add_zero, hfinish,
      beq_self_eq_true]
  rw [hcandidates, findEndRecord, hfound, ok_bind, if_pos rfl]

theorem readEndRecord_written (hlength : bytes.length < 2 ^ 63)
    (h : EndsAt bytes count centralLength cdOffset found) (hparts : count ≤ limits.maxParts)
    (hlocator : u32At bytes (found - 20) ≠ .ok zip64Locator) :
    readEndRecord bytes limits found = .ok ⟨count, cdOffset, found⟩ := by
  have hfinish := h.finish
  have hcount := h.count
  have hnumbers := h.numbers
  have hdisks : Located bytes (found + 4) (toLittleEndian 2 0 ++ toLittleEndian 2 0) :=
    h.located.right.left
  have hcounts := h.located.right.right
  have hdisk : u16From bytes found 4 = .ok 0 :=
    u16From_eq_ok_iff.mpr ⟨by omega, u16At_located hlength hdisks.left (by omega)⟩
  have hcdDisk : u16From bytes found 6 = .ok 0 :=
    u16From_eq_ok_iff.mpr ⟨by omega, u16At_located hlength hdisks.right (by omega)⟩
  have hhere : u16From bytes found 8 = .ok count :=
    u16From_eq_ok_iff.mpr ⟨by omega, u16At_located hlength hcounts.left (by omega)⟩
  have htotal : u16From bytes found 10 = .ok count :=
    u16From_eq_ok_iff.mpr ⟨by omega, u16At_located hlength hcounts.right.left (by omega)⟩
  have hcdSize : u32From bytes found 12 = .ok centralLength :=
    u32From_eq_ok_iff.mpr ⟨by omega, u32At_located hlength hcounts.right.right.left (by omega)⟩
  have hcdOffset : u32From bytes found 16 = .ok cdOffset :=
    u32From_eq_ok_iff.mpr
      ⟨by omega, u32At_located hlength hcounts.right.right.right.left (by omega)⟩
  unfold readEndRecord
  rw [failIf_bind_eq fun hzip64 => hlocator hzip64.2, hdisk, ok_bind, hcdDisk, ok_bind, hhere,
    ok_bind, htotal, ok_bind, hcdSize, ok_bind, hcdOffset, ok_bind, failIf_bind_eq (by omega),
    failIf_bind_eq (by simp), failIf_bind_eq (by omega), addWord_eq_ok (by omega), ok_bind,
    h.directory, failIf_bind_eq (not_not.mpr rfl)]

end EndRecord

/-! ## The round trip -/

theorem budgets_of_checkBudgets {entries : List WriteEntry} {remaining : ℕ}
    (h : checkBudgets limits entries remaining = .ok ()) :
    (∀ entry ∈ entries, byteLen entry.name < 2 ^ 16 ∧ entry.data.length < 2 ^ 32 - 1) ∧
      (∀ entry ∈ entries, entry.data.length ≤ limits.maxPartBytes) ∧
      (entries.map fun entry => entry.data.length).sum ≤ remaining := by
  induction entries generalizing remaining with
  | nil => simp
  | cons entry rest ih =>
      obtain ⟨hentry, h⟩ := check_bind_eq_ok_iff.mp h
      obtain ⟨htotal, h⟩ := check_bind_eq_ok_iff.mp h
      obtain ⟨hbudgets, hparts, hsum⟩ := ih h
      rw [failIf_eq_ok_iff] at hentry htotal
      refine ⟨forall_mem_cons.mpr ⟨by omega, hbudgets⟩,
        forall_mem_cons.mpr ⟨by omega, hparts⟩, ?_⟩
      rw [map_cons, sum_cons]
      omega

theorem not_compoundFile {entry : WriteEntry} (h : Located bytes 0 (localOf codec maxRatio entry)) :
    ¬ compoundFile <+: bytes := by
  rintro ⟨rest, hbytes⟩
  have hstart : Located bytes 0 ([0xD0, 0xCF, 0x11, 0xE0] ++ [0xA1, 0xB1, 0x1A, 0xE1]) :=
    ⟨[], rest, hbytes.symm, rfl⟩
  have hsame := hstart.left.eq_of_length h.left (length_toLittleEndian 4 _).symm
  exact absurd hsame (by decide)

/-- What the bounded writer has written, the reader returns in the same order. -/
theorem read_writeBounded {entries : List WriteEntry} (hcodec : Inverts codec)
    (hne : entries ≠ []) (hdistinct : (entries.map WriteEntry.name).Nodup)
    (hnames : ∀ entry ∈ entries, Opc.validatePartName entry.name = .ok ())
    (hlimits : limits.maxPackageBytes ≤ 64 * 1024 * 1024)
    (h : writeBounded codec entries limits = .ok bytes) :
    read codec bytes limits (fun _ => false) =
      .ok (entries.map fun entry => ⟨entry.name, entry.data⟩) := by
  obtain ⟨hcount, h⟩ := check_bind_eq_ok_iff.mp h
  obtain ⟨hbudgets, h⟩ := check_bind_eq_ok_iff.mp h
  obtain ⟨⟨out, central⟩, hwrite, h⟩ := bind_eq_ok_iff.mp h
  have hbytes : out ++ (central ++ endRecord entries.length central.length out.length) = bytes :=
    Except.ok.inj h
  rw [failIf_eq_ok_iff] at hcount
  obtain ⟨hbudgets, hparts, htotal⟩ := budgets_of_checkBudgets hbudgets
  obtain ⟨hpackage, hsmall⟩ := length_of_writeEntries hwrite (.inl hne)
  have hlaid := (laid_of_writeEntries hwrite).2.2 (endRecord entries.length central.length out.length)
  rw [hbytes, length_nil, Nat.add_zero] at hlaid
  have hlength : out.length + central.length + 22 = bytes.length := by
    rw [← hbytes]
    simp [endRecord, Nat.add_assoc]
  have hend : EndsAt bytes entries.length central.length out.length
      (out.length + central.length) := by
    refine ⟨⟨out ++ central, [], ?_, length_append⟩, hlength, by omega, by omega, rfl⟩
    rw [← hbytes, append_nil, append_assoc]
  have hfits := hlaid.fits (by omega) hbudgets
  have hlocator : u32At bytes (out.length + central.length - 20) ≠ .ok zip64Locator := by
    obtain ⟨entry, hentry, first, start, hrecord, hfirst, hlast⟩ := hlaid.exists_last hne
    rw [← hlast]
    exact no_locator (by omega) hrecord (hnames entry hentry) (by omega)
  have hcompound : ¬ compoundFile <+: bytes := by
    obtain ⟨entry, hlocal⟩ := hlaid.exists_first hne
    exact not_compoundFile hlocal
  have hrecords := readCentrals_laid (by omega) hfits hlaid
  have hspans := checkRecords_laid (by omega) hfits hlaid le_rfl hdistinct
    (fun entry _ => not_mem_nil)
  have hoverlap : overlapping (sortSpans (spansOf codec limits.maxRatio entries 0)) ≠ true := by
    rw [sortSpans_spansOf, overlapping_of_pairwise pairwise_spansOf]
    exact Bool.false_ne_true
  refine (failIf_bind_eq (by simp)).trans ((failIf_bind_eq (by omega)).trans ?_)
  refine (failIf_bind_eq hcompound).trans ?_
  refine bind_eq_ok_iff.mpr ⟨_, findEndRecord_written (by omega) hend, ?_⟩
  refine bind_eq_ok_iff.mpr ⟨_, readEndRecord_written (by omega) hend (by omega) hlocator, ?_⟩
  refine bind_eq_ok_iff.mpr ⟨_, hrecords, (failIf_bind_eq (not_not.mpr rfl)).trans ?_⟩
  refine bind_eq_ok_iff.mpr ⟨_, hspans, (failIf_bind_eq hoverlap).trans ?_⟩
  exact readEntries_laid hcodec (by omega) hfits hlaid hparts htotal

/-- A codec whose compressed form is the data, with the checksum of no bytes. -/
def identityCodec : Codec where
  S := Unit
  start := ()
  decompress _ input := some ⟨true, input.length, input, ()⟩
  compress data := data
  crc32 _ := 0
  consumed_le _ _ _ h := by rw [← Option.some.inj h]

/-- An empty stored entry comes back from its package. -/
theorem read_writeBounded_empty : read identityCodec emptyEntryArchive .default (fun _ => false) =
    .ok [⟨['a'], []⟩] := by
  have hinverts : Inverts identityCodec := fun data => .done () rfl
  have hname : ∀ entry ∈ [(⟨['a'], [], false, 0, 33⟩ : WriteEntry)],
      Opc.validatePartName entry.name = .ok () := by
    decide +kernel
  have hwrite : writeBounded identityCodec [⟨['a'], [], false, 0, 33⟩] .default =
      .ok emptyEntryArchive := by
    decide +kernel
  have hlimits : Limits.default.maxPackageBytes ≤ 64 * 1024 * 1024 := by decide
  exact read_writeBounded hinverts (cons_ne_nil _ _) (by simp) hname hlimits hwrite

end Bran.Document.Zip
