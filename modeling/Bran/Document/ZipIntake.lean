import Bran.Document.Zip

/-!
# ZIP intake is safe

On any bytes the reader neither panics nor runs on: every offset that it computes was bounded by a
read that succeeded before.  What it accepts is laid out as one archive: entries with distinct names
within the budgets, in disjoint ranges before a central directory that ends at the end record.
-/

namespace Bran.Document.Zip

open Words Validation Text List
open Except (ok.inj)

variable {codec : Codec} {bytes : List UInt8} {limits : Limits} {cancel : Cancel}

variable {offset value : ℕ} {record : Central} {records : List Central} {spans : List (ℕ × ℕ)}

/-! ## Fields -/

theorem safe_fieldAt {width : ℕ} : Safe (fieldAt width bytes offset) := by
  refine safe_bind safe_checkedAdd fun stop _ => ?_
  cases rangeOf bytes offset stop with
  | none => exact safe_refused
  | some field => exact safe_ok

theorem slice_eq_ok_iff {length : ℕ} {field : List UInt8} (hlength : bytes.length < 2 ^ 63) :
    slice bytes offset length = .ok field ↔
      Located bytes offset field ∧ field.length = length := by
  unfold slice
  rw [bind_eq_ok_iff]
  constructor
  · intro h
    obtain ⟨stop, hstop, h⟩ := h
    obtain ⟨_, rfl⟩ := checkedAdd_eq_ok_iff.mp hstop
    cases hrange : rangeOf bytes offset (offset + length) with
    | none =>
        rw [hrange] at h
        cases h
    | some found =>
        rw [hrange] at h
        obtain rfl := ok.inj h
        obtain ⟨_, hfield, hlocated⟩ := rangeOf_eq_some_iff.mp hrange
        exact ⟨hlocated, by omega⟩
  · intro h
    obtain ⟨hlocated, rfl⟩ := h
    have hle := hlocated.le_length
    refine ⟨offset + field.length, checkedAdd_eq_ok (by omega), ?_⟩
    rw [hlocated.rangeOf_eq rfl]

theorem fieldAt_eq_slice (width : ℕ) (bytes : List UInt8) (offset : ℕ) :
    fieldAt width bytes offset = (slice bytes offset width).map fromLittleEndian := by
  rw [fieldAt, slice]
  cases checkedAdd offset width (Stop.refused Refusal.malformedContainer) with
  | error refusal => rfl
  | ok stop =>
      rw [ok_bind, ok_bind]
      cases rangeOf bytes offset stop <;> rfl

theorem fieldAt_eq_ok_iff {width : ℕ} (hlength : bytes.length < 2 ^ 63) :
    fieldAt width bytes offset = .ok value ↔
      ∃ field, Located bytes offset field ∧ field.length = width ∧
        fromLittleEndian field = value := by
  simp only [fieldAt_eq_slice, map_eq_ok_iff, slice_eq_ok_iff hlength, and_assoc]

/-- A field that was read is within the bytes, and its value within its width. -/
theorem fieldAt_bounds {width : ℕ} (hlength : bytes.length < 2 ^ 63)
    (h : fieldAt width bytes offset = .ok value) :
    offset + width ≤ bytes.length ∧ value < 256 ^ width := by
  obtain ⟨field, hlocated, rfl, rfl⟩ := (fieldAt_eq_ok_iff hlength).mp h
  exact ⟨hlocated.le_length, fromLittleEndian_lt field⟩

theorem u16At_bounds (hlength : bytes.length < 2 ^ 63) (h : u16At bytes offset = .ok value) :
    offset + 2 ≤ bytes.length ∧ value < 2 ^ 16 :=
  fieldAt_bounds hlength h

theorem u32At_bounds (hlength : bytes.length < 2 ^ 63) (h : u32At bytes offset = .ok value) :
    offset + 4 ≤ bytes.length ∧ value < 2 ^ 32 :=
  fieldAt_bounds hlength h

theorem safe_u16From {base index : ℕ} (h : base + index < 2 ^ 64) :
    Safe (u16From bytes base index) :=
  safe_addWord_bind h safe_fieldAt

theorem safe_u32From {base index : ℕ} (h : base + index < 2 ^ 64) :
    Safe (u32From bytes base index) :=
  safe_addWord_bind h safe_fieldAt

theorem u16From_eq_ok_iff {base index : ℕ} : u16From bytes base index = .ok value ↔
    base + index < 2 ^ 64 ∧ u16At bytes (base + index) = .ok value := by
  unfold u16From
  rw [bind_eq_ok_iff]
  constructor
  · intro h
    obtain ⟨offset, hoffset, h⟩ := h
    obtain ⟨hsum, rfl⟩ := addWord_eq_ok_iff.mp hoffset
    exact ⟨hsum, h⟩
  · intro h
    exact ⟨_, addWord_eq_ok h.1, h.2⟩

theorem u32From_eq_ok_iff {base index : ℕ} : u32From bytes base index = .ok value ↔
    base + index < 2 ^ 64 ∧ u32At bytes (base + index) = .ok value := by
  unfold u32From
  rw [bind_eq_ok_iff]
  constructor
  · intro h
    obtain ⟨offset, hoffset, h⟩ := h
    obtain ⟨hsum, rfl⟩ := addWord_eq_ok_iff.mp hoffset
    exact ⟨hsum, h⟩
  · intro h
    exact ⟨_, addWord_eq_ok h.1, h.2⟩

theorem safe_slice {length : ℕ} : Safe (slice bytes offset length) := by
  refine safe_bind safe_checkedAdd fun stop _ => ?_
  cases rangeOf bytes offset stop with
  | none => exact safe_refused
  | some field => exact safe_ok

/-! ## No panic -/

section Safe

variable (hlength : bytes.length < 2 ^ 63)

include hlength

theorem safe_isEndRecord {offset : ℕ} : Safe (isEndRecord bytes offset) := by
  unfold isEndRecord
  split_ifs with hsignature
  · have hoffset := (u32At_bounds hlength hsignature).1
    refine safe_addWord_bind (by omega) ?_
    cases hcomment : u16At bytes (offset + 20) with
    | error _ => exact safe_ok
    | ok comment =>
        have hbound := (u16At_bounds hlength hcomment).2
        exact safe_addWord_bind (by omega) (safe_addWord_bind (by omega) safe_ok)
  · exact safe_ok

theorem safe_findEndRecord {candidates : List ℕ} : Safe (findEndRecord bytes candidates) := by
  induction candidates with
  | nil => exact safe_refused
  | cons offset rest ih =>
      refine safe_bind (safe_isEndRecord hlength) fun found _ => ?_
      split_ifs
      · exact safe_ok
      · exact ih

theorem safe_readEndRecord {found : ℕ} (hfound : found < bytes.length) :
    Safe (readEndRecord bytes limits found) := by
  refine safe_failIf_bind fun _ => ?_
  refine safe_bind (safe_u16From (by omega)) fun disk _ => ?_
  refine safe_bind (safe_u16From (by omega)) fun cdDisk _ => ?_
  refine safe_bind (safe_u16From (by omega)) fun here _ => ?_
  refine safe_bind (safe_u16From (by omega)) fun total _ => ?_
  refine safe_bind (safe_u32From (by omega)) fun cdSize hsize => ?_
  refine safe_bind (safe_u32From (by omega)) fun cdOffset hoffset => ?_
  have hsize := (u32At_bounds hlength (u32From_eq_ok_iff.mp hsize).2).2
  have hoffset := (u32At_bounds hlength (u32From_eq_ok_iff.mp hoffset).2).2
  refine safe_failIf_bind fun _ => safe_failIf_bind fun _ => safe_failIf_bind fun _ => ?_
  refine safe_addWord_bind (by omega) ?_
  exact safe_failIf_bind fun _ => safe_ok

theorem safe_readCentral {offset : ℕ} : Safe (readCentral bytes offset) := by
  refine safe_bind safe_fieldAt fun signature hsignature => ?_
  have hoffset := (u32At_bounds hlength hsignature).1
  refine safe_failIf_bind fun _ => ?_
  refine safe_bind (safe_u16From (by omega)) fun nameLen hname => ?_
  refine safe_bind (safe_u16From (by omega)) fun extraLen hextra => ?_
  refine safe_bind (safe_u16From (by omega)) fun commentLen hcomment => ?_
  have hname := (u16At_bounds hlength (u16From_eq_ok_iff.mp hname).2).2
  have hextra := (u16At_bounds hlength (u16From_eq_ok_iff.mp hextra).2).2
  have hcomment := (u16At_bounds hlength (u16From_eq_ok_iff.mp hcomment).2).2
  refine safe_addWord_bind (by omega) (safe_bind safe_slice fun field _ => ?_)
  refine safe_bind ?_ fun name _ => ?_
  · unfold nameOf
    cases fromUtf8 field with
    | none => exact safe_refused
    | some name => exact safe_ok
  refine safe_bind (safe_u32From (by omega)) fun compressed _ => ?_
  refine safe_bind (safe_u32From (by omega)) fun size _ => ?_
  refine safe_bind (safe_u32From (by omega)) fun localOffset _ => ?_
  refine safe_failIf_bind fun _ => safe_bind (safe_u16From (by omega)) fun disk _ => ?_
  refine safe_failIf_bind fun _ => safe_bind (safe_u16From (by omega)) fun flags _ => ?_
  refine safe_bind (safe_u16From (by omega)) fun method _ => ?_
  refine safe_bind (safe_u32From (by omega)) fun crc _ => ?_
  refine safe_addWord_bind (by omega) (safe_addWord_bind (by omega) ?_)
  exact safe_addWord_bind (by omega) (safe_addWord_bind (by omega) safe_ok)

theorem safe_readCentrals {count offset : ℕ} : Safe (readCentrals bytes count offset) := by
  induction count generalizing offset with
  | zero => exact safe_ok
  | succ count ih =>
      refine safe_bind (safe_readCentral hlength) fun record _ => ?_
      exact safe_bind ih fun records _ => safe_ok

theorem safe_checkDescriptor {record : Central} (hoffset : record.localOffset < bytes.length) :
    Safe (checkDescriptor bytes record) := by
  unfold checkDescriptor
  split_ifs
  · refine safe_bind (safe_u32From (by omega)) fun crc _ => safe_failIf_bind fun _ => ?_
    refine safe_bind (safe_u32From (by omega)) fun compressed _ => safe_failIf_bind fun _ => ?_
    refine safe_bind (safe_u32From (by omega)) fun size _ => ?_
    exact safe_failIf
  · exact safe_ok

theorem safe_checkRecord {cdOffset : ℕ} {record : Central} :
    Safe (checkRecord bytes cdOffset record) := by
  refine safe_failIf_bind fun _ => safe_failIf_bind fun _ => ?_
  refine safe_bind safe_fieldAt fun signature hsignature => ?_
  have hoffset := (u32At_bounds hlength hsignature).1
  refine safe_failIf_bind fun _ => safe_bind (safe_u16From (by omega)) fun localFlags _ => ?_
  refine safe_failIf_bind fun _ => safe_bind (safe_u16From (by omega)) fun method _ => ?_
  refine safe_failIf_bind fun _ => ?_
  refine safe_bind (safe_checkDescriptor hlength (by omega)) fun _ _ => ?_
  refine safe_bind (safe_u16From (by omega)) fun nameLen hname => ?_
  refine safe_bind (safe_u16From (by omega)) fun extraLen hextra => ?_
  have hname := (u16At_bounds hlength (u16From_eq_ok_iff.mp hname).2).2
  have hextra := (u16At_bounds hlength (u16From_eq_ok_iff.mp hextra).2).2
  refine safe_addWord_bind (by omega) (safe_bind safe_slice fun name _ => ?_)
  refine safe_failIf_bind fun _ => safe_bind ?_ fun data _ => ?_
  · exact safe_addWord_bind (by omega) (safe_addWord_bind (by omega) (safe_addWord (by omega)))
  refine safe_bind safe_checkedAdd fun dataEnd _ => ?_
  exact safe_failIf_bind fun _ => safe_ok

theorem safe_checkRecords {cdOffset : ℕ} {records : List Central} {names : List Str} :
    Safe (checkRecords bytes cdOffset records names) := by
  induction records generalizing names with
  | nil => exact safe_ok
  | cons record rest ih =>
      refine safe_failIf_bind fun _ => safe_bind (safe_checkRecord hlength) fun span _ => ?_
      exact safe_bind ih fun spans _ => safe_ok

end Safe

/-! ## Data -/

/-- What inflates has the declared size. -/
theorem inflateFrom_length {size : ℕ} {state : codec.S} {rest data result : List UInt8}
    (h : inflateFrom codec size state rest data = .ok result) : result.length = size := by
  fun_induction inflateFrom codec size state rest data with
  | case1 => cases h
  | case2 state rest data step _ _ hexact =>
      obtain rfl := ok.inj h
      exact hexact.2
  | case3 | case4 | case5 => cases h
  | case6 state rest data step _ _ _ _ ih => exact ih h

theorem entryData_ok {budget : ℕ} {raw data : List UInt8}
    (h : entryData codec limits record budget raw = .ok data) :
    data.length = record.size ∧ record.size ≤ budget := by
  unfold entryData at h
  split_ifs at h
  · rw [check_bind_eq_ok_iff, check_bind_eq_ok_iff, failIf_eq_ok_iff, failIf_eq_ok_iff] at h
    obtain ⟨hsize, hbudget, hdata⟩ := h
    obtain rfl := ok.inj hdata
    exact ⟨(not_not.mp hsize).symm, not_lt.mp hbudget⟩
  · rw [check_bind_eq_ok_iff, failIf_eq_ok_iff, not_or] at h
    exact ⟨inflateFrom_length (mapError_eq_ok_iff.mp h.2), not_lt.mp h.1.1⟩

theorem safe_entryData {budget : ℕ} {raw : List UInt8} :
    Safe (entryData codec limits record budget raw) := by
  unfold entryData
  split_ifs
  · exact safe_failIf_bind fun _ => safe_failIf_bind fun _ => safe_ok
  · refine safe_failIf_bind fun _ hpanic => ?_
    obtain ⟨refusal, _, hstop⟩ := mapError_eq_error_iff.mp hpanic
    cases hstop

/-- An entry matches its record. -/
structure Matches (codec : Codec) (record : Central) (entry : Entry) : Prop where
  name : entry.name = record.name
  crc : (codec.crc32 entry.data).toNat = record.crc
  size : entry.data.length = record.size

theorem readEntry_ok {remaining after : ℕ} {entry : Entry}
    (h : readEntry codec bytes limits record remaining = .ok (entry, after)) :
    Matches codec record entry ∧ entry.data.length ≤ limits.maxPartBytes ∧
      entry.data.length + after = remaining := by
  obtain ⟨nameLen, _, h⟩ := bind_eq_ok_iff.mp h
  obtain ⟨extraLen, _, h⟩ := bind_eq_ok_iff.mp h
  obtain ⟨offset, _, h⟩ := bind_eq_ok_iff.mp h
  obtain ⟨raw, _, h⟩ := bind_eq_ok_iff.mp h
  obtain ⟨data, hdata, h⟩ := bind_eq_ok_iff.mp h
  obtain ⟨hcrc, h⟩ := check_bind_eq_ok_iff.mp h
  obtain ⟨rest, hrest, h⟩ := bind_eq_ok_iff.mp h
  obtain ⟨rfl, rfl⟩ := Prod.mk.inj (ok.inj h)
  obtain ⟨hsize, hbudget⟩ := entryData_ok hdata
  obtain ⟨hle, hrest⟩ := subWord_eq_ok_iff.mp hrest
  have hpart := le_min_iff.mp (hsize ▸ hbudget)
  refine ⟨⟨rfl, not_not.mp (failIf_eq_ok_iff.mp hcrc), hsize⟩, hpart.1, ?_⟩
  dsimp only
  omega

theorem safe_readEntry {remaining : ℕ} (hlength : bytes.length < 2 ^ 63)
    (hoffset : record.localOffset < 2 ^ 32) :
    Safe (readEntry codec bytes limits record remaining) := by
  refine safe_bind (safe_u16From (by omega)) fun nameLen hname => ?_
  refine safe_bind (safe_u16From (by omega)) fun extraLen hextra => ?_
  have hname := (u16At_bounds hlength (u16From_eq_ok_iff.mp hname).2).2
  have hextra := (u16At_bounds hlength (u16From_eq_ok_iff.mp hextra).2).2
  refine safe_bind ?_ fun offset _ => safe_bind safe_slice fun raw _ => ?_
  · exact safe_addWord_bind (by omega) (safe_addWord_bind (by omega) (safe_addWord (by omega)))
  refine safe_bind safe_entryData fun data hdata => safe_failIf_bind fun _ => ?_
  -- the data is within what remains
  obtain ⟨hsize, hbudget⟩ := entryData_ok hdata
  have hremaining := (le_min_iff.mp (hsize ▸ hbudget)).2
  exact safe_subWord_bind hremaining safe_ok

theorem readEntries_ok {remaining check : ℕ} {entries : List Entry}
    (h : readEntries codec bytes limits cancel records remaining check = .ok entries) :
    List.Forall₂ (Matches codec) records entries ∧
      (∀ entry ∈ entries, entry.data.length ≤ limits.maxPartBytes) ∧
      (entries.map fun entry => entry.data.length).sum ≤ remaining := by
  induction records generalizing remaining check entries with
  | nil =>
      obtain rfl := ok.inj h
      exact ⟨.nil, by simp, by simp⟩
  | cons record rest ih =>
      obtain ⟨_, h⟩ := check_bind_eq_ok_iff.mp h
      obtain ⟨⟨entry, after⟩, hentry, h⟩ := bind_eq_ok_iff.mp h
      obtain ⟨tail, htail, h⟩ := bind_eq_ok_iff.mp h
      obtain rfl := ok.inj h
      obtain ⟨hmatches, hpart, hremaining⟩ := readEntry_ok hentry
      obtain ⟨hrest, hparts, hsum⟩ := ih htail
      refine ⟨.cons hmatches hrest, forall_mem_cons.mpr ⟨hpart, hparts⟩, ?_⟩
      rw [map_cons, sum_cons]
      omega

theorem safe_readEntries {remaining check : ℕ} (hlength : bytes.length < 2 ^ 63)
    (hoffsets : ∀ record ∈ records, record.localOffset < 2 ^ 32) :
    Safe (readEntries codec bytes limits cancel records remaining check) := by
  induction records generalizing remaining check with
  | nil => exact safe_ok
  | cons record rest ih =>
      obtain ⟨hoffset, hrest⟩ := forall_mem_cons.mp hoffsets
      refine safe_failIf_bind fun _ => safe_bind (safe_readEntry hlength hoffset) fun pair _ => ?_
      exact safe_bind (ih hrest) fun entries _ => safe_ok

/-! ## Records -/

theorem localOffset_of_readCentral {next : ℕ} (hlength : bytes.length < 2 ^ 63)
    (h : readCentral bytes offset = .ok (record, next)) :
    record.localOffset < 2 ^ 32 := by
  obtain ⟨signature, _, h⟩ := bind_eq_ok_iff.mp h
  obtain ⟨_, h⟩ := check_bind_eq_ok_iff.mp h
  obtain ⟨nameLen, _, h⟩ := bind_eq_ok_iff.mp h
  obtain ⟨extraLen, _, h⟩ := bind_eq_ok_iff.mp h
  obtain ⟨commentLen, _, h⟩ := bind_eq_ok_iff.mp h
  obtain ⟨nameOffset, _, h⟩ := bind_eq_ok_iff.mp h
  obtain ⟨field, _, h⟩ := bind_eq_ok_iff.mp h
  obtain ⟨name, _, h⟩ := bind_eq_ok_iff.mp h
  obtain ⟨compressed, _, h⟩ := bind_eq_ok_iff.mp h
  obtain ⟨size, _, h⟩ := bind_eq_ok_iff.mp h
  obtain ⟨localOffset, hoffset, h⟩ := bind_eq_ok_iff.mp h
  obtain ⟨_, h⟩ := check_bind_eq_ok_iff.mp h
  obtain ⟨disk, _, h⟩ := bind_eq_ok_iff.mp h
  obtain ⟨_, h⟩ := check_bind_eq_ok_iff.mp h
  obtain ⟨flags, _, h⟩ := bind_eq_ok_iff.mp h
  obtain ⟨method, _, h⟩ := bind_eq_ok_iff.mp h
  obtain ⟨crc, _, h⟩ := bind_eq_ok_iff.mp h
  obtain ⟨first, _, h⟩ := bind_eq_ok_iff.mp h
  obtain ⟨second, _, h⟩ := bind_eq_ok_iff.mp h
  obtain ⟨third, _, h⟩ := bind_eq_ok_iff.mp h
  obtain ⟨stop, _, h⟩ := bind_eq_ok_iff.mp h
  obtain ⟨rfl, _⟩ := Prod.mk.inj (ok.inj h)
  exact (u32At_bounds hlength (u32From_eq_ok_iff.mp hoffset).2).2

theorem readCentrals_ok {count stop : ℕ} (hlength : bytes.length < 2 ^ 63)
    (h : readCentrals bytes count offset = .ok (records, stop)) :
    records.length = count ∧ ∀ record ∈ records, record.localOffset < 2 ^ 32 := by
  induction count generalizing offset stop records with
  | zero =>
      obtain ⟨rfl, _⟩ := Prod.mk.inj (ok.inj h)
      exact ⟨rfl, by simp⟩
  | succ count ih =>
      obtain ⟨⟨record, next⟩, hrecord, h⟩ := bind_eq_ok_iff.mp h
      obtain ⟨⟨rest, last⟩, hrest, h⟩ := bind_eq_ok_iff.mp h
      obtain ⟨rfl, _⟩ := Prod.mk.inj (ok.inj h)
      obtain ⟨hcount, hoffsets⟩ := ih hrest
      exact ⟨by rw [length_cons, hcount],
        forall_mem_cons.mpr ⟨localOffset_of_readCentral hlength hrecord, hoffsets⟩⟩

/-- The range of an entry: from its local header to the end of its data. -/
structure SpanOf (bytes : List UInt8) (record : Central) (span : ℕ × ℕ) : Prop where
  start : span.1 = record.localOffset
  header : u32At bytes record.localOffset = .ok localSignature
  stop : ∃ nameLen extraLen, u16At bytes (record.localOffset + 26) = .ok nameLen ∧
    u16At bytes (record.localOffset + 28) = .ok extraLen ∧
    span.2 = record.localOffset + 30 + nameLen + extraLen + record.compressed

theorem SpanOf.ordered {span : ℕ × ℕ} (h : SpanOf bytes record span) :
    span.1 ≤ span.2 := by
  have hstart := h.start
  obtain ⟨nameLen, extraLen, _, _, hstop⟩ := h.stop
  omega

theorem ordered_of_spans (h : List.Forall₂ (SpanOf bytes) records spans) :
    ∀ span ∈ spans, span.1 ≤ span.2 := by
  induction h with
  | nil => simp
  | cons hspan _ ih => exact forall_mem_cons.mpr ⟨hspan.ordered, ih⟩

theorem checkRecord_ok {cdOffset : ℕ} {span : ℕ × ℕ}
    (h : checkRecord bytes cdOffset record = .ok span) :
    SpanOf bytes record span ∧ span.2 ≤ cdOffset := by
  obtain ⟨_, h⟩ := check_bind_eq_ok_iff.mp h
  obtain ⟨_, h⟩ := check_bind_eq_ok_iff.mp h
  obtain ⟨signature, hsignature, h⟩ := bind_eq_ok_iff.mp h
  obtain ⟨hlocal, h⟩ := check_bind_eq_ok_iff.mp h
  obtain ⟨localFlags, _, h⟩ := bind_eq_ok_iff.mp h
  obtain ⟨_, h⟩ := check_bind_eq_ok_iff.mp h
  obtain ⟨method, _, h⟩ := bind_eq_ok_iff.mp h
  obtain ⟨_, h⟩ := check_bind_eq_ok_iff.mp h
  obtain ⟨_, h⟩ := check_bind_eq_ok_iff.mp h
  obtain ⟨nameLen, hname, h⟩ := bind_eq_ok_iff.mp h
  obtain ⟨extraLen, hextra, h⟩ := bind_eq_ok_iff.mp h
  obtain ⟨nameOffset, _, h⟩ := bind_eq_ok_iff.mp h
  obtain ⟨name, _, h⟩ := bind_eq_ok_iff.mp h
  obtain ⟨_, h⟩ := check_bind_eq_ok_iff.mp h
  obtain ⟨data, hdata, h⟩ := bind_eq_ok_iff.mp h
  obtain ⟨dataEnd, hend, h⟩ := bind_eq_ok_iff.mp h
  obtain ⟨hbefore, h⟩ := check_bind_eq_ok_iff.mp h
  obtain rfl := ok.inj h
  -- the sums did not leave the word
  obtain ⟨first, hfirst, hdata⟩ := bind_eq_ok_iff.mp hdata
  obtain ⟨second, hsecond, hdata⟩ := bind_eq_ok_iff.mp hdata
  obtain ⟨_, rfl⟩ := addWord_eq_ok_iff.mp hfirst
  obtain ⟨_, rfl⟩ := addWord_eq_ok_iff.mp hsecond
  obtain ⟨_, rfl⟩ := addWord_eq_ok_iff.mp hdata
  obtain ⟨_, rfl⟩ := checkedAdd_eq_ok_iff.mp hend
  rw [failIf_eq_ok_iff, not_not] at hlocal
  rw [hlocal] at hsignature
  exact ⟨⟨rfl, hsignature, nameLen, extraLen, (u16From_eq_ok_iff.mp hname).2,
    (u16From_eq_ok_iff.mp hextra).2, rfl⟩, not_lt.mp (failIf_eq_ok_iff.mp hbefore)⟩

theorem checkRecords_ok {cdOffset : ℕ} {names : List Str}
    (h : checkRecords bytes cdOffset records names = .ok spans) :
    List.Forall₂ (SpanOf bytes) records spans ∧ (∀ span ∈ spans, span.2 ≤ cdOffset) ∧
      (records.map Central.name).Nodup ∧ ∀ record ∈ records, record.name ∉ names := by
  induction records generalizing names spans with
  | nil =>
      obtain rfl := ok.inj h
      exact ⟨.nil, by simp, by simp, by simp⟩
  | cons record rest ih =>
      obtain ⟨hnew, h⟩ := check_bind_eq_ok_iff.mp h
      obtain ⟨span, hspan, h⟩ := bind_eq_ok_iff.mp h
      obtain ⟨tail, htail, h⟩ := bind_eq_ok_iff.mp h
      obtain rfl := ok.inj h
      obtain ⟨hspanOf, hbefore⟩ := checkRecord_ok hspan
      obtain ⟨hspans, hbefores, hnodup, hfresh⟩ := ih htail
      refine ⟨.cons hspanOf hspans, forall_mem_cons.mpr ⟨hbefore, hbefores⟩, ?_,
        forall_mem_cons.mpr ⟨failIf_eq_ok_iff.mp hnew, fun other hother hname =>
          hfresh other hother (mem_cons_of_mem _ hname)⟩⟩
      rw [map_cons, nodup_cons]
      refine ⟨fun hmem => ?_, hnodup⟩
      obtain ⟨other, hother, hname⟩ := mem_map.mp hmem
      exact hfresh other hother (hname ▸ mem_cons_self)

/-! ## Ranges -/

/-- Two ranges without a common byte. -/
def Apart (first second : ℕ × ℕ) : Prop := first.2 ≤ second.1 ∨ second.2 ≤ first.1

theorem Apart.symm {first second : ℕ × ℕ} (h : Apart first second) : Apart second first :=
  Or.symm h

/-- Ranges of which none overlaps the next lie one after the other. -/
theorem pairwise_of_overlapping (hordered : ∀ span ∈ spans, span.1 ≤ span.2)
    (h : overlapping spans = false) : spans.Pairwise fun first second => first.2 ≤ second.1 := by
  induction spans with
  | nil => exact .nil
  | cons first rest ih =>
      cases rest with
      | nil => exact pairwise_singleton _ _
      | cons second rest =>
          rw [overlapping, Bool.or_eq_false_iff, decide_eq_false_iff_not, not_lt] at h
          have hrest := ih (forall_mem_cons.mp hordered).2 h.2
          have hsecond : second.1 ≤ second.2 := hordered second (by simp)
          rw [pairwise_cons]
          refine ⟨fun span hspan => ?_, hrest⟩
          rcases mem_cons.mp hspan with rfl | hspan
          · exact h.1
          · have hnext := (pairwise_cons.mp hrest).1 span hspan
            omega

theorem pairwise_apart (hordered : ∀ span ∈ spans, span.1 ≤ span.2)
    (h : overlapping (sortSpans spans) = false) : spans.Pairwise Apart := by
  have hperm : (sortSpans spans).Perm spans := sortBy_perm toLex spans
  have hsorted : (sortSpans spans).Pairwise Apart :=
    (pairwise_of_overlapping (fun span hspan => hordered span (hperm.mem_iff.mp hspan)) h).imp
      fun h => .inl h
  exact (hperm.pairwise_iff fun h => h.symm).mp hsorted

/-! ## What is accepted -/

/-- An archive that the reader accepts: its entries with the records of the central directory that
describe them and the ranges that they take up. -/
structure Accepted (codec : Codec) (bytes : List UInt8) (limits : Limits) (entries : List Entry)
    (found cdOffset : ℕ) (records : List Central) (spans : List (ℕ × ℕ)) : Prop where
  endRecord : u32At bytes found = .ok endSignature ∧
    ∃ comment, u16At bytes (found + 20) = .ok comment ∧ found + 22 + comment = bytes.length
  directory : u32At bytes (found + 16) = .ok cdOffset ∧
    ∃ cdSize, u32At bytes (found + 12) = .ok cdSize ∧ cdOffset + cdSize = found ∧
      readCentrals bytes records.length cdOffset = .ok (records, found)
  distinct : (entries.map Entry.name).Nodup
  count : entries.length ≤ limits.maxParts
  parts : ∀ entry ∈ entries, entry.data.length ≤ limits.maxPartBytes
  total : (entries.map fun entry => entry.data.length).sum ≤ limits.maxTotalBytes
  matching : List.Forall₂ (Matches codec) records entries
  ranges : List.Forall₂ (SpanOf bytes) records spans
  apart : spans.Pairwise Apart
  before : ∀ span ∈ spans, span.2 ≤ cdOffset

theorem isEndRecord_eq_true (h : isEndRecord bytes offset = .ok true) :
    u32At bytes offset = .ok endSignature ∧
      ∃ comment, u16At bytes (offset + 20) = .ok comment ∧ offset + 22 + comment = bytes.length := by
  unfold isEndRecord at h
  split_ifs at h with hsignature
  · obtain ⟨field, hfield, h⟩ := bind_eq_ok_iff.mp h
    obtain ⟨_, rfl⟩ := addWord_eq_ok_iff.mp hfield
    cases hcomment : u16At bytes (offset + 20) with
    | error _ =>
        rw [hcomment] at h
        cases h
    | ok comment =>
        rw [hcomment] at h
        obtain ⟨header, hheader, h⟩ := bind_eq_ok_iff.mp h
        obtain ⟨_, rfl⟩ := addWord_eq_ok_iff.mp hheader
        obtain ⟨stop, hstop, h⟩ := bind_eq_ok_iff.mp h
        obtain ⟨_, rfl⟩ := addWord_eq_ok_iff.mp hstop
        exact ⟨hsignature, comment, rfl, beq_iff_eq.mp (ok.inj h)⟩
  · cases h

theorem findEndRecord_ok {candidates : List ℕ} {found : ℕ}
    (h : findEndRecord bytes candidates = .ok found) : isEndRecord bytes found = .ok true := by
  induction candidates with
  | nil => cases h
  | cons offset rest ih =>
      obtain ⟨answer, hanswer, h⟩ := bind_eq_ok_iff.mp h
      split_ifs at h with htrue
      · obtain rfl := ok.inj h
        rw [hanswer, htrue]
      · exact ih h

theorem readEndRecord_ok {found : ℕ} {record : EndRecord}
    (h : readEndRecord bytes limits found = .ok record) :
    record.cdEnd = found ∧ record.total ≤ limits.maxParts ∧
      u32At bytes (found + 16) = .ok record.cdOffset ∧
      ∃ cdSize, u32At bytes (found + 12) = .ok cdSize ∧ record.cdOffset + cdSize = found := by
  obtain ⟨_, h⟩ := check_bind_eq_ok_iff.mp h
  obtain ⟨disk, _, h⟩ := bind_eq_ok_iff.mp h
  obtain ⟨cdDisk, _, h⟩ := bind_eq_ok_iff.mp h
  obtain ⟨here, _, h⟩ := bind_eq_ok_iff.mp h
  obtain ⟨total, _, h⟩ := bind_eq_ok_iff.mp h
  obtain ⟨cdSize, hsize, h⟩ := bind_eq_ok_iff.mp h
  obtain ⟨cdOffset, hoffset, h⟩ := bind_eq_ok_iff.mp h
  obtain ⟨_, h⟩ := check_bind_eq_ok_iff.mp h
  obtain ⟨_, h⟩ := check_bind_eq_ok_iff.mp h
  obtain ⟨hparts, h⟩ := check_bind_eq_ok_iff.mp h
  obtain ⟨cdEnd, hend, h⟩ := bind_eq_ok_iff.mp h
  obtain ⟨hfound, h⟩ := check_bind_eq_ok_iff.mp h
  obtain rfl := ok.inj h
  have hfound := not_not.mp (failIf_eq_ok_iff.mp hfound)
  obtain ⟨_, hsum⟩ := addWord_eq_ok_iff.mp hend
  exact ⟨hfound, not_lt.mp (failIf_eq_ok_iff.mp hparts), (u32From_eq_ok_iff.mp hoffset).2, cdSize,
    (u32From_eq_ok_iff.mp hsize).2, hsum.trans hfound⟩

theorem map_name_of_matches {entries : List Entry}
    (h : List.Forall₂ (Matches codec) records entries) :
    entries.map Entry.name = records.map Central.name := by
  induction h with
  | nil => rfl
  | cons hmatches _ ih => rw [map_cons, map_cons, hmatches.name, ih]

/-- The reader accepts laid out archives only. -/
theorem accepted_of_read {entries : List Entry} (hlength : bytes.length < 2 ^ 63)
    (h : read codec bytes limits cancel = .ok entries) :
    ∃ found cdOffset records spans,
      Accepted codec bytes limits entries found cdOffset records spans := by
  obtain ⟨_, h⟩ := check_bind_eq_ok_iff.mp h
  obtain ⟨_, h⟩ := check_bind_eq_ok_iff.mp h
  obtain ⟨_, h⟩ := check_bind_eq_ok_iff.mp h
  obtain ⟨found, hfound, h⟩ := bind_eq_ok_iff.mp h
  obtain ⟨record, hrecord, h⟩ := bind_eq_ok_iff.mp h
  obtain ⟨⟨records, stop⟩, hrecords, h⟩ := bind_eq_ok_iff.mp h
  obtain ⟨hstop, h⟩ := check_bind_eq_ok_iff.mp h
  obtain ⟨spans, hspans, h⟩ := bind_eq_ok_iff.mp h
  obtain ⟨hoverlap, h⟩ := check_bind_eq_ok_iff.mp h
  obtain ⟨hend, hparts, hoffset, cdSize, hsize, hsum⟩ := readEndRecord_ok hrecord
  obtain ⟨hcount, hoffsets⟩ := readCentrals_ok hlength hrecords
  obtain ⟨hranges, hbefore, hnodup, _⟩ := checkRecords_ok hspans
  obtain ⟨hmatching, hpart, htotal⟩ := readEntries_ok h
  have hstop : stop = found := (not_not.mp (failIf_eq_ok_iff.mp hstop)).trans hend
  rw [failIf_eq_ok_iff, Bool.not_eq_true] at hoverlap
  rw [hstop, ← hcount] at hrecords
  refine ⟨found, record.cdOffset, records, spans,
    ⟨isEndRecord_eq_true (findEndRecord_ok hfound), ⟨hoffset, cdSize, hsize, hsum, hrecords⟩, ?_, ?_,
      hpart, htotal, hmatching, hranges, pairwise_apart (ordered_of_spans hranges) hoverlap,
      hbefore⟩⟩
  · rw [map_name_of_matches hmatching]
    exact hnodup
  · rw [← hmatching.length_eq, hcount]
    exact hparts

/-- Every offset and every sum of the reader stays within its word. -/
theorem safe_read (hlength : bytes.length < 2 ^ 63) : Safe (read codec bytes limits cancel) := by
  refine safe_failIf_bind fun _ => safe_failIf_bind fun _ => safe_failIf_bind fun _ => ?_
  refine safe_bind (safe_findEndRecord hlength) fun found hfound => ?_
  have hbound := (u32At_bounds hlength (isEndRecord_eq_true (findEndRecord_ok hfound)).1).1
  refine safe_bind (safe_readEndRecord hlength (by omega)) fun record _ => ?_
  refine safe_bind (safe_readCentrals hlength) fun pair hrecords => ?_
  refine safe_failIf_bind fun _ => safe_bind (safe_checkRecords hlength) fun spans _ => ?_
  refine safe_failIf_bind fun _ => ?_
  exact safe_readEntries hlength (readCentrals_ok hlength hrecords).2

/-- On any bytes that fit in memory the reader does not panic, and it accepts laid out archives
only. -/
theorem read_intake (hlength : bytes.length < 2 ^ 63) :
    Safe (read codec bytes limits cancel) ∧
      ∀ entries, read codec bytes limits cancel = .ok entries →
        ∃ found cdOffset records spans,
          Accepted codec bytes limits entries found cdOffset records spans :=
  ⟨safe_read hlength, fun _ h => accepted_of_read hlength h⟩

/-- Stored entries without data: a decoder that never succeeds and the checksum of no bytes. -/
def storedOnly : Codec where
  S := Unit
  start := ()
  decompress _ _ := none
  compress data := data
  crc32 _ := 0
  consumed_le _ _ _ h := nomatch h

def emptyEntryArchive : List UInt8 :=
  localRecord storedOnly ⟨['a'], [], false, 0, 33⟩ ([], 0) ++
    (centralRecord storedOnly ⟨['a'], [], false, 0, 33⟩ ([], 0) 0 ++ endRecord 1 47 31)

theorem length_emptyEntryArchive : emptyEntryArchive.length = 100 := by decide +kernel

theorem read_emptyEntryArchive :
    read storedOnly emptyEntryArchive .default (fun _ => false) = .ok [⟨['a'], []⟩] := by
  decide +kernel

/-- The archive is accepted, so it is laid out as one. -/
theorem read_intake_empty : Safe (read storedOnly emptyEntryArchive .default (fun _ => false)) ∧
    ∃ found cdOffset records spans,
      Accepted storedOnly emptyEntryArchive .default [⟨['a'], []⟩] found cdOffset records spans := by
  have hlength : emptyEntryArchive.length < 2 ^ 63 := by
    rw [length_emptyEntryArchive]
    omega
  have h := @read_intake storedOnly emptyEntryArchive .default (fun _ => false) hlength
  exact ⟨h.1, h.2 _ read_emptyEntryArchive⟩

end Bran.Document.Zip
