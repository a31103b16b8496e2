import Bran.Library.Encoding
import Bran.Library.OrdMap
import Bran.Library.Reader
import Bran.Library.Validation

/-!
# Frames of an external host

The wire format of the external-host provider.  A frame is the decimal length of its payload, a
newline, the payload and a newline; a payload is a header line followed by fields, each a key line,
a length line and that many bytes.  Slices are checked: an index out of range is a panic, which is
an outcome of its own here.
-/

namespace Bran.Adapters.Provider

open Validation Text Reader List Exchange
open Except (ok.inj error.inj ok.injEq)

/-- `usize::MAX`. -/
def usizeMax : ℕ := 2 ^ 64 - 1

def maxFrame : ℕ := 4 * 1024 * 1024

def maxStdout : ℕ := 2 * maxFrame

def maxLengthLine : ℕ := 8

/-- The errors of `ProviderError` that the wire format reports. -/
inductive ProviderError where
  | failed
  | invalidOutput
  deriving DecidableEq

/-- How a function of this module ends without a value. -/
inductive Fault where
  | provider (error : ProviderError)
  | panicked
  deriving DecidableEq

/-- `ProviderError::InvalidOutput`. -/
abbrev invalidOutput : Fault := .provider .invalidOutput

/-- `b'\n'`. -/
def newline : UInt8 := 10

/-- A string slice; its length is a `usize`. -/
structure StrSlice where
  text : Str
  fits : byteLen text ≤ usizeMax

/-! ## Checked operations -/

/-- `&bytes[..count]`. -/
def upTo (bytes : List UInt8) (count : ℕ) : Except Fault (List UInt8) :=
  if count ≤ bytes.length then .ok (bytes.take count) else .error .panicked

/-- `&bytes[start..]`. -/
def startingAt (bytes : List UInt8) (start : ℕ) : Except Fault (List UInt8) :=
  if start ≤ bytes.length then .ok (bytes.drop start) else .error .panicked

/-- A subtraction of `usize` values. -/
def minus (left right : ℕ) : Except Fault ℕ :=
  if right ≤ left then .ok (left - right) else .error .panicked

/-- `ok_or(ProviderError::InvalidOutput)`. -/
def okOr {α : Type} : Option α → Except Fault α
  | none => .error invalidOutput
  | some value => .ok value

def number (value : Str) : Except Fault ℕ :=
  if value.isEmpty || (decide (1 < byteLen value) && value.head? == some '0') ||
      !value.all Char.isDigit then
    .error invalidOutput
  else if Nat.ofDigitChars 10 value 0 ≤ usizeMax then
    .ok (Nat.ofDigitChars 10 value 0)
  else
    .error invalidOutput

def validKey (value : Str) : Bool :=
  decide (byteLen value ≤ 64) && !value.isEmpty && value.all fun c => c.isLower || c == '_'

/-! ## Frames -/

section Frames

variable {R W : Type}

/-- `write_frame`, for a writer with `write_all` and `flush`. -/
def writeFrame (writeAll : List UInt8 → Exchange W ErrorKind Unit) (flush : Exchange W ErrorKind Unit)
    (payload : List UInt8) : Exchange W Fault Unit := do
  ofExcept (failIf (maxFrame < payload.length) invalidOutput)
  mapError (fun _ => .provider .failed) do
    writeAll (bytes (decimal payload.length))
    writeAll [newline]
    writeAll payload
    writeAll [newline]
    flush

variable (read : Exchange R ErrorKind (Option UInt8))

/-- `read_bounded_line` from `index` on, with `remaining` bytes of the line left; the answer is the
line with the number of bytes read. -/
def readBoundedLine : (remaining index : ℕ) → (line : List UInt8) →
    Exchange R Fault (Option (List UInt8 × ℕ))
  | 0, _, _ => fail invalidOutput
  | remaining + 1, index, line =>
      mapError (fun _ => .provider .failed) read >>= fun
        | none => if index = 0 then pure none else fail invalidOutput
        | some byte =>
            if byte = newline then pure (some (line.set index byte, index + 1))
            else readBoundedLine remaining (index + 1) (line.set index byte)

def readProtocolExact (count : ℕ) : Exchange R Fault (List UInt8) :=
  mapError (fun
    | .unexpectedEof => invalidOutput
    | .other => .provider .failed) (readExact read count)

/-- `read_frame` after its length line. -/
def readPayload (line : List UInt8) (n : ℕ) : Exchange R Fault (List UInt8) := do
  let stop ← ofExcept (minus n 1)
  let digits ← ofExcept (upTo line stop)
  let text ← ofExcept (okOr (fromUtf8 digits))
  let len ← ofExcept (number text)
  ofExcept (failIf (maxFrame < len) invalidOutput)
  let payload ← readProtocolExact read len
  let term ← readProtocolExact read 1
  ofExcept (failIf (term ≠ [newline]) invalidOutput)
  pure payload

def readFrame : Exchange R Fault (Option (List UInt8)) :=
  readBoundedLine read maxLengthLine 0 (List.replicate maxLengthLine 0) >>= fun
    | none => pure none
    | some (line, n) => readPayload read line n >>= fun payload => pure (some payload)

/-- `drain_frames` with the messages sent so far; the answer is what it sends. -/
def drainFrames (total count : ℕ) (reader : R) : List (Except Fault (List UInt8)) :=
  match readFrame read reader with
  | (.ok (some frame), reader) =>
      if count + 1 > 2 then [.error invalidOutput]
      else
        match checkedAdd total frame.length Fault.panicked with
        | .error fault => [.error fault]
        | .ok total =>
            if total > maxStdout then [.error invalidOutput]
            else .ok frame :: drainFrames total (count + 1) reader
  | (.ok none, _) => if count = 2 then [] else [.error invalidOutput]
  | (.error fault, _) => [.error fault]
termination_by 3 - count

end Frames

/-! ## Fields -/

/-- One field of `fields`. -/
def field (item : StrSlice × StrSlice) : List UInt8 :=
  bytes item.1.text ++ [newline] ++ bytes (decimal (byteLen item.2.text)) ++ [newline] ++
    bytes item.2.text

/-- `b"v1\n"`. -/
def header : List UInt8 := [118, 49, newline]

def fields (items : List (StrSlice × StrSlice)) : List UInt8 := header ++ items.flatMap field

/-- `iter().position(|b| *b == b'\n')`. -/
def position (rest : List UInt8) : Option ℕ := rest.findIdx? (· == newline)

/-- One round of the loop of `parse`: a field and what follows it. -/
def parseField (rest : List UInt8) : Except Fault (Str × Str × List UInt8) := do
  let keyEnd ← okOr (position rest)
  let keyBytes ← upTo rest keyEnd
  let key ← okOr (fromUtf8 keyBytes)
  failIf (validKey key = false) invalidOutput
  let rest ← startingAt rest (keyEnd + 1)
  let nEnd ← okOr (position rest)
  let digits ← upTo rest nEnd
  let text ← okOr (fromUtf8 digits)
  let len ← number text
  let rest ← startingAt rest (nEnd + 1)
  failIf (rest.length < len) invalidOutput
  let valueBytes ← upTo rest len
  let value ← okOr (fromUtf8 valueBytes)
  let rest ← startingAt rest len
  pure (key, value, rest)

/-- `values.entry(key).or_insert_with(Vec::new).push(value)`. -/
def push (values : OrdMap Str (List Str)) (key value : Str) : OrdMap Str (List Str) :=
  values.insert key ((values.find? key).getD [] ++ [value])

/-! ## Lines and numbers -/

theorem number_eq_ok {value : Str} {n : ℕ} :
    number value = .ok n ↔ value = decimal n ∧ n ≤ usizeMax := by
  have hlength := length_le_byteLen value
  constructor
  · intro h
    rw [number] at h
    split_ifs at h with hform hmax
    simp only [Bool.or_eq_true, Bool.and_eq_true, Bool.not_eq_true', decide_eq_true_eq,
      List.isEmpty_iff, beq_iff_eq, not_or, not_and, Bool.not_eq_false] at hform
    obtain ⟨⟨hne, hzero⟩, hdigits⟩ := hform
    obtain rfl := ok.inj h
    refine ⟨(Encoding.decimal_ofDigitChars hne (all_eq_true.mp hdigits) ?_).symm, hmax⟩
    intro hhead
    have hshort : ¬ 1 < byteLen value := fun hlong => hzero hlong hhead
    have hpos := length_pos_iff.mpr hne
    omega
  · intro h
    obtain ⟨rfl, hmax⟩ := h
    have hvalue : Nat.ofDigitChars 10 (decimal n) 0 = n := Nat.ofDigitChars_ten_toDigits
    have hdigits : (decimal n).all Char.isDigit = true := all_eq_true.mpr fun c hc =>
      Nat.isDigit_of_mem_toDigits (by decide) (by decide) hc
    have hlead : (decide (1 < byteLen (decimal n)) && (decimal n).head? == some '0') = false := by
      by_cases hhead : (decimal n).head? = some '0'
      · rw [Encoding.decimal_leading hhead]
        rfl
      · rw [beq_eq_false_iff_ne.mpr hhead, Bool.and_false]
    have hne : (decimal n).isEmpty = false := isEmpty_eq_false_iff.mpr Nat.toDigits_ne_nil
    rw [number, hne, hlead, hdigits, hvalue, if_neg (by decide), if_pos hmax]

theorem number_error {value : Str} {fault : Fault} (h : number value = .error fault) :
    fault = invalidOutput := by
  rw [number] at h
  split_ifs at h
  · exact (error.inj h).symm
  · exact (error.inj h).symm

theorem okOr_eq_ok {α : Type} {answer : Option α} {value : α} :
    okOr answer = .ok value ↔ answer = some value := by
  cases answer with
  | none => simp [okOr]
  | some other => simp [okOr]

theorem upTo_append (first second : List UInt8) : upTo (first ++ second) first.length = .ok first := by
  rw [upTo, if_pos (by simp), take_left']
  rfl

theorem startingAt_append (first second : List UInt8) :
    startingAt (first ++ second) first.length = .ok second := by
  rw [startingAt, if_pos (by simp), drop_left']
  rfl

variable {line rest : List UInt8} {values : OrdMap Str (List Str)}

theorem upTo_eq_ok {result : List UInt8} {count : ℕ} (h : count ≤ line.length) :
    upTo line count = .ok result ↔ line.take count = result := by
  rw [upTo, if_pos h, ok.injEq]

theorem startingAt_eq_ok {result : List UInt8} {start : ℕ} (h : start ≤ line.length) :
    startingAt line start = .ok result ↔ line.drop start = result := by
  rw [startingAt, if_pos h, ok.injEq]

/-- The first newline ends the first line. -/
theorem position_eq_some {stop : ℕ} :
    position rest = some stop ↔ ∃ line after, newline ∉ line ∧ rest = line ++ newline :: after ∧
      stop = line.length := by
  induction rest generalizing stop with
  | nil => simp [position]
  | cons byte rest ih =>
      rw [position, findIdx?_cons, ← position]
      by_cases hbyte : byte = newline
      · rw [if_pos (by rw [hbyte]; rfl), Option.some.injEq]
        constructor
        · intro h
          exact ⟨[], rest, not_mem_nil, by rw [hbyte]; rfl, h.symm⟩
        · intro h
          obtain ⟨line, after, hfree, hrest, rfl⟩ := h
          cases line with
          | nil => rfl
          | cons other line =>
              rw [mem_cons, not_or] at hfree
              exact absurd ((List.cons.inj hrest).1.symm.trans hbyte) (Ne.symm hfree.1)
      · rw [if_neg (by simpa using hbyte), Option.map_eq_some_iff]
        constructor
        · intro h
          obtain ⟨stop, hstop, rfl⟩ := h
          obtain ⟨line, after, hfree, rfl, rfl⟩ := ih.mp hstop
          refine ⟨byte :: line, after, ?_, rfl, rfl⟩
          rw [mem_cons, not_or]
          exact ⟨Ne.symm hbyte, hfree⟩
        · intro h
          obtain ⟨line, after, hfree, hrest, rfl⟩ := h
          cases line with
          | nil => exact absurd (List.cons.inj hrest).1 hbyte
          | cons other line =>
              obtain ⟨rfl, htail⟩ := List.cons.inj hrest
              rw [mem_cons, not_or] at hfree
              exact ⟨line.length, ih.mpr ⟨line, after, hfree.2, htail, rfl⟩, rfl⟩

theorem position_append (h : newline ∉ line) (after : List UInt8) :
    position (line ++ newline :: after) = some line.length :=
  position_eq_some.mpr ⟨line, after, h, rfl, rfl⟩

theorem startingAt_line (line after : List UInt8) :
    startingAt (line ++ newline :: after) (line.length + 1) = .ok after := by
  have hsplit : line ++ newline :: after = (line ++ [newline]) ++ after := by simp
  rw [hsplit, ← startingAt_append (line ++ [newline]), length_append, length_singleton]

theorem newline_not_mem_bytes {text : Str} (h : ∀ c ∈ text, 48 ≤ c.toNat ∧ c.toNat ≤ 122) :
    newline ∉ bytes text := by
  rw [bytes_ascii fun c hc => Nat.lt_of_le_of_lt (h c hc).2 (by decide), mem_map]
  intro hmem
  obtain ⟨c, hc, hbyte⟩ := hmem
  have hcode : c.toNat % 256 = 10 := congrArg UInt8.toNat hbyte
  have hbounds := h c hc
  omega

theorem newline_not_mem_decimal (n : ℕ) : newline ∉ bytes (decimal n) := by
  refine newline_not_mem_bytes fun c hc => ?_
  have hdigit :=
    Char.isDigit_iff_toNat.mp (Nat.isDigit_of_mem_toDigits (by decide) (by decide) hc)
  exact ⟨hdigit.1, hdigit.2.trans (by decide)⟩

theorem newline_not_mem_key {key : Str} (h : validKey key = true) : newline ∉ bytes key := by
  refine newline_not_mem_bytes fun c hc => ?_
  rw [validKey, Bool.and_eq_true, all_eq_true] at h
  have hletter := h.2 c hc
  rw [Bool.or_eq_true, beq_iff_eq] at hletter
  obtain hlower | rfl := hletter
  · have hbounds : 97 ≤ c.toNat ∧ c.toNat ≤ 122 := by
      simpa [isLower_eq, UInt32.le_iff_toNat_le] using hlower
    omega
  · decide

/-! ## What a field reader reads -/

/-- A field is read exactly from its encoding. -/
theorem parseField_eq_ok {after : List UInt8} {key value : Str} :
    parseField rest = .ok (key, value, after) ↔ validKey key = true ∧ byteLen value ≤ usizeMax ∧
      rest = bytes key ++ newline :: (bytes (decimal (byteLen value)) ++ newline ::
        (bytes value ++ after)) := by
  simp only [parseField, bind_eq_ok_iff]
  constructor
  · intro h
    obtain ⟨keyEnd, hkeyEnd, keyBytes, hkeyBytes, key', hkey, ⟨⟩, hvalid, rest₁, hrest₁, nEnd, hnEnd,
      digits, hdigits, text, htext, len, hlen, rest₂, hrest₂, ⟨⟩, hfits, valueBytes, hvalueBytes,
      value', hvalue, rest₃, hrest₃, hpure⟩ := h
    cases hpure
    rw [okOr_eq_ok, position_eq_some] at hkeyEnd hnEnd
    obtain ⟨line, tail, _, rfl, rfl⟩ := hkeyEnd
    rw [upTo_append, ok.injEq] at hkeyBytes
    rw [startingAt_line, ok.injEq] at hrest₁
    subst hkeyBytes hrest₁
    obtain ⟨line', tail', _, rfl, rfl⟩ := hnEnd
    rw [upTo_append, ok.injEq] at hdigits
    rw [startingAt_line, ok.injEq] at hrest₂
    subst hdigits hrest₂
    rw [failIf_eq_ok_iff, Nat.not_lt] at hfits
    rw [upTo_eq_ok hfits] at hvalueBytes
    rw [startingAt_eq_ok hfits] at hrest₃
    rw [okOr_eq_ok, fromUtf8_eq_some_iff] at hkey htext hvalue
    rw [number_eq_ok] at hlen
    obtain ⟨rfl, hmax⟩ := hlen
    have hlength : byteLen value = len := by
      rw [← length_bytes, hvalue, ← hvalueBytes, length_take, Nat.min_eq_left hfits]
    rw [failIf_eq_ok_iff, Bool.not_eq_false] at hvalid
    refine ⟨hvalid, hlength ▸ hmax, ?_⟩
    rw [hlength, hkey, htext, hvalue, ← hvalueBytes, ← hrest₃, take_append_drop]
  · intro h
    obtain ⟨hvalid, hmax, rfl⟩ := h
    have hkey := position_append (newline_not_mem_key hvalid)
    have hn := position_append (newline_not_mem_decimal (byteLen value))
    refine ⟨_, okOr_eq_ok.mpr (hkey _), _, upTo_append _ _, key, okOr_eq_ok.mpr (fromUtf8_bytes key), (),
      failIf_eq_ok_iff.mpr (by rw [hvalid]; decide), _, startingAt_line _ _, _,
      okOr_eq_ok.mpr (hn _), _,
      upTo_append _ _, _, okOr_eq_ok.mpr (fromUtf8_bytes _), byteLen value,
      number_eq_ok.mpr ⟨rfl, hmax⟩, _, startingAt_line _ _, (),
      failIf_eq_ok_iff.mpr ?_, bytes value, ?_, value, okOr_eq_ok.mpr (fromUtf8_bytes value), after, ?_, rfl⟩
    · rw [← length_bytes, length_append]
      omega
    · rw [← length_bytes, upTo_append]
    · rw [← length_bytes, startingAt_append]

theorem parseField_shorter {after : List UInt8} {key value : Str}
    (h : parseField rest = .ok (key, value, after)) : after.length < rest.length := by
  obtain ⟨_, _, rfl⟩ := parseField_eq_ok.mp h
  simp only [length_append, length_cons]
  omega

/-- The loop of `parse`. -/
def parseFields (values : OrdMap Str (List Str)) (rest : List UInt8) :
    Except Fault (OrdMap Str (List Str)) :=
  if rest.isEmpty then .ok values
  else
    match h : parseField rest with
    | .error fault => .error fault
    | .ok (key, value, after) => parseFields (push values key value) after
termination_by rest.length
decreasing_by exact parseField_shorter h

def parse (payload : List UInt8) : Except Fault (OrdMap Str (List Str)) := do
  let rest ← okOr (header.isPrefixOf? payload)
  parseFields OrdMap.empty rest

/-! ## What a frame reader reads -/

def encoded (payload : List UInt8) : List UInt8 :=
  bytes (decimal payload.length) ++ [newline] ++ payload ++ [newline]

theorem length_decimal_lt {n : ℕ} (h : n ≤ maxFrame) :
    (bytes (decimal n)).length < maxLengthLine := by
  have hascii : ∀ c ∈ decimal n, c.toNat < 128 := fun c hc =>
    Nat.lt_of_le_of_lt (Char.isDigit_iff_toNat.mp
      (Nat.isDigit_of_mem_toDigits (by decide) (by decide) hc)).2 (by decide)
  rw [bytes_ascii hascii, length_map, decimal]
  refine Nat.lt_succ_of_le ((Nat.length_toDigits_le_iff (by decide) (by decide)).mpr ?_)
  exact Nat.lt_of_le_of_lt h (by decide)

/-- The line buffer with `text` stored from `index` on. -/
def filled (line : List UInt8) (index : ℕ) (text : List UInt8) : List UInt8 :=
  line.take index ++ text ++ line.drop (index + text.length)

theorem filled_set {text : List UInt8} {index : ℕ} {byte : UInt8} (h : index < line.length) :
    filled (line.set index byte) (index + 1) text = filled line index (byte :: text) := by
  have htake : (line.set index byte).take (index + 1) = line.take index ++ [byte] := by
    rw [set_eq_take_append_cons_drop, if_pos h, take_append, length_take,
      Nat.min_eq_left h.le, take_take]
    simp
  rw [filled, filled, htake, drop_set_of_lt (by omega), length_cons,
    append_assoc (line.take index), singleton_append]
  congr 2
  omega

theorem length_filled {text : List UInt8} {index : ℕ} (h : index + text.length ≤ line.length) :
    (filled line index text).length = line.length := by
  rw [filled, length_append, length_append, length_take, length_drop]
  omega

section Frames

variable {R : Type} {read : Exchange R ErrorKind (Option UInt8)} {reader last : R}

/-- The line read is the buffer up to the first newline. -/
theorem readBoundedLine_eq_some {remaining index n : ℕ} {line out : List UInt8}
    (hline : index + remaining = line.length) :
    readBoundedLine read remaining index line reader = (.ok (some (out, n)), last) ↔
      ∃ text, newline ∉ text ∧ text.length < remaining ∧
        Supplies read reader (text ++ [newline]) last ∧ n = index + text.length + 1 ∧
        out = filled line index (text ++ [newline]) := by
  induction remaining generalizing reader index line with
  | zero =>
      constructor
      · intro h
        cases h
      · intro h
        obtain ⟨text, _, hlength, _⟩ := h
        omega
  | succ remaining ih =>
      have hindex : index < line.length := by omega
      have hset : ∀ byte, index + 1 + remaining = (line.set index byte).length := by
        intro byte
        rw [length_set]
        omega
      rw [readBoundedLine, bind_eq_ok]
      constructor
      · intro h
        obtain ⟨answer, next, hread, h⟩ := h
        rw [mapError_eq_ok] at hread
        cases answer with
        | none =>
            dsimp only at h
            split_ifs at h
            · cases h
            · cases h
        | some byte =>
            dsimp only at h
            by_cases hnewline : byte = newline
            · rw [if_pos hnewline] at h
              cases h
              subst hnewline
              refine ⟨[], not_mem_nil, Nat.succ_pos _, .cons hread (.nil _), rfl, ?_⟩
              rw [nil_append, ← filled_set hindex, filled, append_nil, length_nil,
                Nat.add_zero, take_append_drop]
            · rw [if_neg hnewline] at h
              obtain ⟨text, hfree, hlength, hsupplies, hn, hout⟩ := (ih (hset byte)).mp h
              refine ⟨byte :: text, ?_, Nat.succ_lt_succ hlength, .cons hread hsupplies, ?_, ?_⟩
              · rw [mem_cons, not_or]
                exact ⟨Ne.symm hnewline, hfree⟩
              · rw [hn, length_cons]
                omega
              · rw [hout, filled_set hindex]
                rfl
      · intro h
        obtain ⟨text, hfree, hlength, hsupplies, hn, hout⟩ := h
        cases text with
        | nil =>
            obtain ⟨next, hread, hrest⟩ := supplies_cons_iff.mp hsupplies
            obtain rfl := supplies_nil_iff.mp hrest
            refine ⟨some newline, next, mapError_eq_ok.mpr hread, ?_⟩
            have hline : line.set index newline = out := by
              rw [hout, nil_append, ← filled_set hindex, filled, append_nil,
                length_nil, Nat.add_zero, take_append_drop]
            dsimp only
            rw [if_pos rfl, hline, hn]
            rfl
        | cons byte text =>
            rw [mem_cons, not_or] at hfree
            obtain ⟨next, hread, hrest⟩ := supplies_cons_iff.mp hsupplies
            refine ⟨some byte, next, mapError_eq_ok.mpr hread, ?_⟩
            dsimp only
            rw [if_neg (Ne.symm hfree.1)]
            refine (ih (hset byte)).mpr ⟨text, hfree.2, Nat.lt_of_succ_lt_succ hlength, hrest, ?_, ?_⟩
            · rw [hn, length_cons]
              omega
            · rw [hout, filled_set hindex]
              rfl

theorem readBoundedLine_eq_none {remaining index : ℕ} {line : List UInt8} :
    readBoundedLine read remaining index line reader = (.ok none, last) ↔
      0 < remaining ∧ index = 0 ∧ read reader = (.ok none, last) := by
  induction remaining generalizing reader index line with
  | zero =>
      constructor
      · intro h
        cases h
      · intro h
        exact absurd h.1 (Nat.lt_irrefl 0)
  | succ remaining ih =>
      rw [readBoundedLine, bind_eq_ok]
      constructor
      · intro h
        obtain ⟨answer, next, hread, h⟩ := h
        rw [mapError_eq_ok] at hread
        cases answer with
        | none =>
            dsimp only at h
            by_cases hindex : index = 0
            · rw [if_pos hindex] at h
              cases h
              exact ⟨Nat.succ_pos _, hindex, hread⟩
            · rw [if_neg hindex] at h
              cases h
        | some byte =>
            dsimp only at h
            split_ifs at h
            · cases h
            · have hindex := (ih.mp h).2.1
              omega
      · intro h
        obtain ⟨_, hindex, hread⟩ := h
        refine ⟨none, last, mapError_eq_ok.mpr hread, ?_⟩
        dsimp only
        rw [if_pos hindex]
        rfl

theorem readPayload_eq_ok {line payload : List UInt8} {n : ℕ} (hpos : 0 < n)
    (hn : n ≤ line.length) :
    readPayload read line n reader = (.ok payload, last) ↔
      payload.length ≤ maxFrame ∧ line.take (n - 1) = bytes (decimal payload.length) ∧
        Supplies read reader (payload ++ [newline]) last := by
  have hminus : minus n 1 = .ok (n - 1) := if_pos hpos
  simp only [readPayload, bind_eq_ok, ofExcept_eq_ok, hminus, ok.injEq]
  constructor
  · intro h
    obtain ⟨stop, _, ⟨rfl, rfl⟩, digits, _, ⟨hdigits, rfl⟩, text, _, ⟨htext, rfl⟩, len, _,
      ⟨hlen, rfl⟩, ⟨⟩, _, ⟨hmax, rfl⟩, body, middle, hbody, term, _, hterm, ⟨⟩, _, ⟨hnewline, rfl⟩,
      hpure⟩ := h
    cases hpure
    rw [upTo_eq_ok (by omega)] at hdigits
    rw [okOr_eq_ok, fromUtf8_eq_some_iff] at htext
    rw [failIf_eq_ok_iff] at hmax hnewline
    rw [readProtocolExact, mapError_eq_ok, readExact_eq_ok] at hbody hterm
    obtain ⟨htext', _⟩ := number_eq_ok.mp hlen
    obtain ⟨rfl, hsupplies⟩ := hbody
    rw [not_not] at hnewline
    subst hnewline
    refine ⟨Nat.not_lt.mp hmax, ?_, supplies_append_iff.mpr ⟨middle, hsupplies, hterm.2⟩⟩
    rw [hdigits, ← htext, htext']
  · intro h
    obtain ⟨hmax, hdigits, hsupplies⟩ := h
    obtain ⟨middle, hbody, hterm⟩ := supplies_append_iff.mp hsupplies
    refine ⟨_, _, ⟨rfl, rfl⟩, _, _, ⟨(upTo_eq_ok (by omega)).mpr hdigits, rfl⟩, decimal payload.length,
      _, ⟨okOr_eq_ok.mpr (fromUtf8_bytes _), rfl⟩, payload.length, _, ⟨number_eq_ok.mpr ⟨rfl, ?_⟩, rfl⟩,
      (), _, ⟨failIf_eq_ok_iff.mpr (Nat.not_lt.mpr hmax), rfl⟩, payload, middle, ?_, [newline], last,
      ?_, (), last, ⟨failIf_eq_ok_iff.mpr (not_not.mpr rfl), rfl⟩, rfl⟩
    · exact hmax.trans (by decide)
    · rw [readProtocolExact, mapError_eq_ok, readExact_eq_ok]
      exact ⟨rfl, hbody⟩
    · rw [readProtocolExact, mapError_eq_ok, readExact_eq_ok]
      exact ⟨rfl, hterm⟩

/-- A frame is read exactly from its encoding. -/
theorem readFrame_eq_some {payload : List UInt8} :
    readFrame read reader = (.ok (some payload), last) ↔
      payload.length ≤ maxFrame ∧ Supplies read reader (encoded payload) last := by
  have hline : 0 + maxLengthLine = (List.replicate maxLengthLine (0 : UInt8)).length := rfl
  rw [readFrame, bind_eq_ok]
  constructor
  · intro h
    obtain ⟨answer, middle, hanswer, h⟩ := h
    cases answer with
    | none => cases h
    | some answer =>
        obtain ⟨line, n⟩ := answer
        obtain ⟨payload', _, hpayload, hpure⟩ := bind_eq_ok.mp h
        cases hpure
        obtain ⟨text, hfree, hlength, hsupplies, rfl, rfl⟩ := (readBoundedLine_eq_some hline).mp hanswer
        rw [readPayload_eq_ok (Nat.succ_pos _) ?_] at hpayload
        · obtain ⟨hmax, hdigits, hrest⟩ := hpayload
          have htext : text = bytes (decimal payload.length) := by
            rw [← hdigits]
            simp [filled]
          refine ⟨hmax, ?_⟩
          rw [encoded, ← htext, append_assoc _ payload, supplies_append_iff]
          exact ⟨middle, hsupplies, hrest⟩
        · rw [length_filled (by simp; omega)]
          simp
          omega
  · intro h
    obtain ⟨hmax, hsupplies⟩ := h
    rw [encoded, append_assoc _ payload, supplies_append_iff] at hsupplies
    obtain ⟨middle, hdigits, hrest⟩ := hsupplies
    have hlength := length_decimal_lt hmax
    refine ⟨_, middle, (readBoundedLine_eq_some hline).mpr
      ⟨_, newline_not_mem_decimal payload.length, hlength, hdigits, rfl, rfl⟩, ?_⟩
    refine bind_eq_ok.mpr ⟨payload, last, ?_, rfl⟩
    rw [readPayload_eq_ok (Nat.succ_pos _) ?_]
    · refine ⟨hmax, ?_, hrest⟩
      simp [filled]
    · rw [length_filled (by simp; omega)]
      simp
      omega

theorem readFrame_eq_none :
    readFrame read reader = (.ok none, last) ↔ read reader = (.ok none, last) := by
  rw [readFrame, bind_eq_ok]
  constructor
  · intro h
    obtain ⟨answer, middle, hanswer, h⟩ := h
    cases answer with
    | none =>
        cases h
        exact (readBoundedLine_eq_none.mp hanswer).2.2
    | some answer =>
        obtain ⟨_, _, _, hpure⟩ := bind_eq_ok.mp h
        cases hpure
  · intro h
    exact ⟨none, last, readBoundedLine_eq_none.mpr ⟨by decide, rfl, h⟩, rfl⟩

/-! ## No index out of range -/

theorem readBoundedLine_fails (remaining index : ℕ) (line : List UInt8) :
    FailsWith (readBoundedLine read remaining index line) (· ≠ .panicked) := by
  induction remaining generalizing index line with
  | zero => exact failsWith_fail (by decide)
  | succ remaining ih =>
      refine (failsWith_mapError (fun _ => (by decide)) read).bind fun answer => ?_
      cases answer with
      | none =>
          dsimp only
          split_ifs
          · exact failsWith_pure none
          · exact failsWith_fail (by decide)
      | some byte =>
          dsimp only
          split_ifs
          · exact failsWith_pure _
          · exact ih (index + 1) (line.set index byte)

theorem okOr_error {α : Type} {answer : Option α} {fault : Fault} (h : okOr answer = .error fault) :
    fault = invalidOutput := by
  cases answer with
  | none => exact (error.inj h).symm
  | some value => cases h

theorem failIf_error {condition : Prop} [Decidable condition] {fault : Fault}
    (h : failIf condition invalidOutput = .error fault) : fault = invalidOutput := by
  rw [failIf] at h
  split_ifs at h
  exact (error.inj h).symm

theorem readProtocolExact_fails (count : ℕ) :
    FailsWith (readProtocolExact read count) (· ≠ .panicked) := by
  refine failsWith_mapError (fun kind => ?_) _
  cases kind with
  | unexpectedEof => decide
  | other => decide

/-- The length line is not empty and lies in the buffer, so that its slice exists. -/
theorem readPayload_fails {line : List UInt8} {n : ℕ} (hpos : 0 < n) (hn : n ≤ line.length) :
    FailsWith (readPayload read line n) (· ≠ .panicked) := by
  have hminus : minus n 1 = .ok (n - 1) := if_pos hpos
  have hslice : upTo line (n - 1) = .ok (line.take (n - 1)) := if_pos (by omega)
  have hrejects : ∀ fault, fault = invalidOutput → fault ≠ Fault.panicked := by
    intro fault h
    rw [h]
    decide
  refine (failsWith_ofExcept fun fault h => ?_).bind_of fun _ stop _ hstop => ?_
  · rw [hminus] at h
    cases h
  obtain ⟨hstop, _⟩ := ofExcept_eq_ok.mp hstop
  obtain rfl : n - 1 = stop := ok.inj (hminus.symm.trans hstop)
  refine (failsWith_ofExcept fun fault h => ?_).bind fun digits => ?_
  · rw [hslice] at h
    cases h
  refine (failsWith_ofExcept fun fault h => hrejects fault (okOr_error h)).bind
    fun text => ?_
  refine (failsWith_ofExcept fun fault h => hrejects fault (number_error h)).bind
    fun len => ?_
  refine (failsWith_ofExcept fun fault h => hrejects fault (failIf_error h)).bind
    fun _ => ?_
  refine (readProtocolExact_fails len).bind fun payload => ?_
  refine (readProtocolExact_fails 1).bind fun term => ?_
  refine (failsWith_ofExcept fun fault h => hrejects fault (failIf_error h)).bind
    fun _ => ?_
  exact failsWith_pure payload

theorem readFrame_fails : FailsWith (readFrame read) (· ≠ .panicked) := by
  refine (readBoundedLine_fails _ _ _).bind_of fun before answer after hanswer => ?_
  cases answer with
  | none => exact failsWith_pure none
  | some answer =>
      obtain ⟨line, n⟩ := answer
      obtain ⟨text, _, hlength, _, rfl, rfl⟩ := (readBoundedLine_eq_some rfl).mp hanswer
      refine (readPayload_fails (Nat.succ_pos _) ?_).bind fun payload => failsWith_pure _
      rw [length_filled (by simp; omega)]
      simp
      omega

/-! ## The frames of a stream -/

theorem checkedAdd_frame {total count : ℕ} {frame : List UInt8} (htotal : total ≤ count * maxFrame)
    (hcount : count < 2) (hframe : frame.length ≤ maxFrame) :
    checkedAdd total frame.length Fault.panicked = .ok (total + frame.length) ∧
      ¬ total + frame.length > maxStdout := by
  have hmax : count * maxFrame ≤ maxFrame := by
    rw [← Nat.one_mul maxFrame, ← Nat.mul_assoc, Nat.mul_one]
    exact Nat.mul_le_mul_right _ (by omega)
  have hbound : total + frame.length ≤ maxStdout := by
    rw [maxStdout]
    omega
  refine ⟨checkedAdd_eq_ok (Nat.lt_of_le_of_lt hbound (by decide)), Nat.not_lt.mpr hbound⟩

/-- A frame of the first two is passed on. -/
theorem drainFrames_frame {total count : ℕ} {frame : List UInt8}
    (hread : readFrame read reader = (.ok (some frame), last)) (htotal : total ≤ count * maxFrame)
    (hcount : count < 2) :
    drainFrames read total count reader =
      .ok frame :: drainFrames read (total + frame.length) (count + 1) last := by
  obtain ⟨hsum, hmax⟩ := checkedAdd_frame htotal hcount (readFrame_eq_some.mp hread).1
  rw [drainFrames, hread]
  dsimp only
  rw [if_neg (by omega), hsum]
  dsimp only
  rw [if_neg hmax]

theorem total_step {total count : ℕ} {frame : List UInt8} (htotal : total ≤ count * maxFrame)
    (hframe : frame.length ≤ maxFrame) : total + frame.length ≤ (count + 1) * maxFrame := by
  rw [Nat.succ_mul]
  exact Nat.add_le_add htotal hframe

/-- A stream of the missing frames is passed on frame by frame. -/
theorem drainFrames_of_carries {frames : List (List UInt8)} {total count : ℕ}
    (hcount : count + frames.length = 2) (htotal : total ≤ count * maxFrame)
    (hframes : ∀ frame ∈ frames, frame.length ≤ maxFrame)
    (hcarries : Carries read reader (frames.flatMap encoded)) :
    drainFrames read total count reader = frames.map .ok := by
  obtain ⟨last, after, hsupplies, hend⟩ := hcarries
  induction frames generalizing reader total count with
  | nil =>
      obtain rfl := supplies_nil_iff.mp hsupplies
      rw [drainFrames, readFrame_eq_none.mpr hend]
      exact if_pos hcount
  | cons frame rest ih =>
      rw [forall_mem_cons] at hframes
      rw [flatMap_cons, supplies_append_iff] at hsupplies
      obtain ⟨middle, hframe, hrest⟩ := hsupplies
      rw [length_cons] at hcount
      have hread := readFrame_eq_some.mpr ⟨hframes.1, hframe⟩
      rw [drainFrames_frame hread htotal (by omega), map_cons,
        ih (by omega) (total_step htotal hframes.1) hframes.2 hrest]

/-- What a reader sends: the missing frames of a stream that ends after them, or at most as many
frames and then an error. -/
theorem drainFrames_cases {total count : ℕ} (hcount : count ≤ 2) (htotal : total ≤ count * maxFrame) :
    (∃ frames : List (List UInt8), count + frames.length = 2 ∧
      (∀ frame ∈ frames, frame.length ≤ maxFrame) ∧
      Carries read reader (frames.flatMap encoded) ∧
      drainFrames read total count reader = frames.map .ok) ∨
    ∃ (delivered : List (List UInt8)) (error : ProviderError), count + delivered.length ≤ 2 ∧
      drainFrames read total count reader = delivered.map .ok ++ [.error (.provider error)] := by
  obtain ⟨missing, hmissing⟩ : ∃ missing, count + missing = 2 := ⟨2 - count, by omega⟩
  induction missing generalizing reader total count with
  | zero =>
      obtain rfl : count = 2 := hmissing
      rcases hread : readFrame read reader with ⟨fault | _ | frame, last⟩
      · cases fault with
        | panicked => exact absurd rfl (readFrame_fails _ _ _ hread)
        | provider error =>
            right
            refine ⟨[], error, le_rfl, ?_⟩
            rw [drainFrames, hread]
            rfl
      · left
        refine ⟨[], rfl, forall_mem_nil _, ⟨reader, last, .nil reader, ?_⟩, ?_⟩
        · exact readFrame_eq_none.mp hread
        · rw [drainFrames, hread]
          rfl
      · right
        refine ⟨[], .invalidOutput, le_rfl, ?_⟩
        rw [drainFrames, hread]
        rfl
  | succ missing ih =>
      rcases hread : readFrame read reader with ⟨fault | _ | frame, last⟩
      · cases fault with
        | panicked => exact absurd rfl (readFrame_fails _ _ _ hread)
        | provider error =>
            right
            refine ⟨[], error, hcount, ?_⟩
            rw [drainFrames, hread]
            rfl
      · right
        refine ⟨[], .invalidOutput, hcount, ?_⟩
        rw [drainFrames, hread]
        exact if_neg (by omega)
      · obtain ⟨hframe, hsupplies⟩ := readFrame_eq_some.mp hread
        rw [drainFrames_frame hread htotal (by omega)]
        rcases @ih last (total + frame.length) (count + 1) (by omega) (total_step htotal hframe)
          (by omega) with h | h
        · obtain ⟨frames, hlength, hframes, ⟨final, after, hrest, hend⟩, hdrain⟩ := h
          left
          refine ⟨frame :: frames, ?_, forall_mem_cons.mpr ⟨hframe, hframes⟩,
            ⟨final, after, ?_, hend⟩, ?_⟩
          · rw [length_cons]
            omega
          · rw [flatMap_cons, supplies_append_iff]
            exact ⟨last, hsupplies, hrest⟩
          · rw [hdrain, map_cons]
        · obtain ⟨delivered, error, hlength, hdrain⟩ := h
          right
          refine ⟨frame :: delivered, error, ?_, ?_⟩
          · rw [length_cons]
            omega
          · rw [hdrain, map_cons, cons_append]

def IsTwoFrames (read : Exchange R ErrorKind (Option UInt8)) (reader : R)
    (first second : List UInt8) : Prop :=
  first.length ≤ maxFrame ∧ second.length ≤ maxFrame ∧
    Carries read reader (encoded first ++ encoded second)

theorem drainFrames_eq_two {first second : List UInt8} :
    drainFrames read 0 0 reader = [.ok first, .ok second] ↔ IsTwoFrames read reader first second := by
  constructor
  · intro h
    rcases @drainFrames_cases R read reader 0 0 (by decide) (Nat.zero_le _) with hcase | hcase
    · obtain ⟨frames, _, hframes, hcarries, hdrain⟩ := hcase
      have hmap : frames.map (Except.ok : List UInt8 → Except Fault (List UInt8)) =
          [first, second].map .ok := hdrain.symm.trans h
      obtain rfl := (map_injective_iff.mpr fun _ _ => ok.inj) hmap
      refine ⟨hframes first (by simp), hframes second (by simp), ?_⟩
      simpa using hcarries
    · obtain ⟨delivered, error, _, hdrain⟩ := hcase
      have hlast : [Except.ok first, .ok second].getLast? = some (.error (Fault.provider error)) := by
        rw [← h, hdrain, getLast?_append]
        rfl
      cases hlast
  · intro h
    obtain ⟨hfirst, hsecond, hcarries⟩ := h
    apply @drainFrames_of_carries R read reader [first, second] 0 0 rfl (Nat.zero_le _)
    · intro frame hframe
      rw [mem_cons, mem_singleton] at hframe
      obtain rfl | rfl := hframe
      · exact hfirst
      · exact hsecond
    · simpa using hcarries

theorem drainFrames_otherwise (h : ¬ ∃ first second, IsTwoFrames read reader first second) :
    ∃ (delivered : List (List UInt8)) (error : ProviderError), delivered.length ≤ 2 ∧
      drainFrames read 0 0 reader = delivered.map .ok ++ [.error (.provider error)] := by
  rcases @drainFrames_cases R read reader 0 0 (by decide) (Nat.zero_le _) with hcase | hcase
  · obtain ⟨frames, hlength, hframes, hcarries, _⟩ := hcase
    rw [Nat.zero_add, length_eq_two] at hlength
    obtain ⟨first, second, rfl⟩ := hlength
    refine absurd ⟨first, second, hframes first (by simp), hframes second (by simp), ?_⟩ h
    simpa using hcarries
  · obtain ⟨delivered, error, hlength, hdrain⟩ := hcase
    exact ⟨delivered, error, by omega, hdrain⟩

end Frames

/-! ## The fields of a payload -/

theorem field_append (item : StrSlice × StrSlice) (rest : List UInt8) :
    field item ++ rest = bytes item.1.text ++ newline ::
      (bytes (decimal (byteLen item.2.text)) ++ newline :: (bytes item.2.text ++ rest)) := by
  simp only [field, append_assoc, cons_append, nil_append]

/-- The values of a key, in order. -/
def valuesOf (key : Str) (items : List (StrSlice × StrSlice)) : List Str :=
  (items.filter fun item => item.1.text = key).map fun item => item.2.text

/-- The map holds the fields grouped by key, each group in order. -/
def Groups (items : List (StrSlice × StrSlice)) (values : OrdMap Str (List Str)) : Prop :=
  ∀ key, values.find? key = if valuesOf key items = [] then none else some (valuesOf key items)

/-- The map after the fields have been pushed one by one. -/
def pushAll (values : OrdMap Str (List Str)) (items : List (StrSlice × StrSlice)) :
    OrdMap Str (List Str) :=
  items.foldl (fun values item => push values item.1.text item.2.text) values

theorem find?_pushAll (items : List (StrSlice × StrSlice)) (values : OrdMap Str (List Str))
    (key : Str) : (pushAll values items).find? key = if valuesOf key items = [] then values.find? key
      else some ((values.find? key).getD [] ++ valuesOf key items) := by
  induction items generalizing values with
  | nil => rfl
  | cons item rest ih =>
      have hstep : pushAll values (item :: rest) =
          pushAll (push values item.1.text item.2.text) rest := rfl
      rw [hstep, ih, push, OrdMap.find?_insert]
      by_cases hkey : item.1.text = key
      · have hvalues : valuesOf key (item :: rest) = item.2.text :: valuesOf key rest := by
          rw [valuesOf, filter_cons_of_pos (by simpa using hkey), map_cons, ← valuesOf]
        subst hkey
        rw [hvalues, if_neg (cons_ne_nil _ _), if_pos rfl]
        by_cases hrest : valuesOf item.1.text rest = []
        · rw [if_pos hrest, hrest]
        · rw [if_neg hrest, Option.getD_some, append_assoc, singleton_append]
      · have hvalues : valuesOf key (item :: rest) = valuesOf key rest := by
          rw [valuesOf, filter_cons_of_neg (by simpa using hkey), ← valuesOf]
        simp only [hvalues, if_neg hkey]

theorem groups_pushAll (items : List (StrSlice × StrSlice)) :
    Groups items (pushAll OrdMap.empty items) := by
  intro key
  rw [find?_pushAll, OrdMap.find?_empty]
  rfl

/-- The loop reads any list of fields with valid keys, and nothing else. -/
theorem parseFields_eq_ok {result : OrdMap Str (List Str)} :
    parseFields values rest = .ok result ↔ ∃ items : List (StrSlice × StrSlice),
      (∀ item ∈ items, validKey item.1.text = true) ∧ rest = items.flatMap field ∧
        result = pushAll values items := by
  induction hlength : rest.length using Nat.strongRecOn generalizing rest values with
  | ind length ih =>
      rw [parseFields]
      by_cases hempty : rest = []
      · rw [if_pos (List.isEmpty_iff.mpr hempty), ok.injEq]
        constructor
        · intro h
          exact ⟨[], forall_mem_nil _, hempty, h.symm⟩
        · intro h
          obtain ⟨items, _, hrest, hresult⟩ := h
          cases items with
          | nil => exact hresult.symm
          | cons item items =>
              rw [hempty, flatMap_cons, field] at hrest
              simp at hrest
      · rw [if_neg (by simpa using hempty)]
        constructor
        · intro h
          split at h
          · cases h
          · rename_i key value after hfield
            obtain ⟨hvalid, hfits, hbytes⟩ := parseField_eq_ok.mp hfield
            have hkey : byteLen key ≤ 64 := by
              rw [validKey, Bool.and_eq_true, Bool.and_eq_true, decide_eq_true_eq] at hvalid
              exact hvalid.1.1
            obtain ⟨items, hitems, hafter, hresult⟩ :=
              (ih after.length (hlength ▸ parseField_shorter hfield) rfl).mp h
            refine ⟨(⟨key, hkey.trans (by decide)⟩, ⟨value, hfits⟩) :: items,
              forall_mem_cons.mpr ⟨hvalid, hitems⟩, ?_, hresult⟩
            rw [hbytes, hafter, flatMap_cons, field_append]
        · intro h
          obtain ⟨items, hitems, hrest, hresult⟩ := h
          cases items with
          | nil => exact absurd hrest hempty
          | cons item items =>
              rw [forall_mem_cons] at hitems
              have hfield : parseField rest =
                  .ok (item.1.text, item.2.text, items.flatMap field) := by
                refine parseField_eq_ok.mpr ⟨hitems.1, item.2.fits, ?_⟩
                rw [hrest, flatMap_cons, field_append]
              split
              · rename_i fault hfault
                rw [hfield] at hfault
                cases hfault
              · rename_i key value after hread
                rw [hfield] at hread
                cases hread
                exact (ih _ (hlength ▸ parseField_shorter hfield) rfl).mpr
                  ⟨items, hitems.2, rfl, hresult⟩

theorem parse_eq_ok {payload : List UInt8} :
    parse payload = .ok values ↔ ∃ items : List (StrSlice × StrSlice),
      (∀ item ∈ items, validKey item.1.text = true) ∧ payload = fields items ∧
        values = pushAll OrdMap.empty items := by
  have hheader : ∀ rest, okOr (header.isPrefixOf? payload) = .ok rest ↔ payload = header ++ rest := by
    intro rest
    rw [okOr_eq_ok, isPrefixOf?_eq_some_iff_append_eq]
    exact eq_comm
  simp only [parse, bind_eq_ok_iff, hheader, parseFields_eq_ok]
  constructor
  · intro h
    obtain ⟨rest, hpayload, items, hitems, hrest, hvalues⟩ := h
    exact ⟨items, hitems, by rw [hpayload, hrest, fields], hvalues⟩
  · intro h
    obtain ⟨items, hitems, hpayload, hvalues⟩ := h
    exact ⟨_, hpayload, items, hitems, rfl, hvalues⟩

/-- Every index of the loop lies in the payload. -/
theorem parseField_error {fault : Fault} (h : parseField rest = .error fault) :
    fault = invalidOutput := by
  rw [parseField] at h
  obtain h | ⟨keyEnd, hkeyEnd, h⟩ := bind_eq_error_iff.mp h
  · exact okOr_error h
  obtain ⟨line, tail, _, rfl, rfl⟩ := position_eq_some.mp (okOr_eq_ok.mp hkeyEnd)
  rw [upTo_append, ok_bind] at h
  obtain h | ⟨key, _, h⟩ := bind_eq_error_iff.mp h
  · exact okOr_error h
  obtain h | ⟨_, _, h⟩ := bind_eq_error_iff.mp h
  · exact failIf_error h
  rw [startingAt_line, ok_bind] at h
  obtain h | ⟨nEnd, hnEnd, h⟩ := bind_eq_error_iff.mp h
  · exact okOr_error h
  obtain ⟨line', tail', _, rfl, rfl⟩ := position_eq_some.mp (okOr_eq_ok.mp hnEnd)
  rw [upTo_append, ok_bind] at h
  obtain h | ⟨text, _, h⟩ := bind_eq_error_iff.mp h
  · exact okOr_error h
  obtain h | ⟨len, _, h⟩ := bind_eq_error_iff.mp h
  · exact number_error h
  rw [startingAt_line, ok_bind] at h
  obtain h | ⟨_, hlen, h⟩ := bind_eq_error_iff.mp h
  · exact failIf_error h
  rw [failIf_eq_ok_iff, Nat.not_lt] at hlen
  rw [(upTo_eq_ok hlen).mpr rfl, ok_bind] at h
  obtain h | ⟨value, _, h⟩ := bind_eq_error_iff.mp h
  · exact okOr_error h
  rw [(startingAt_eq_ok hlen).mpr rfl, ok_bind] at h
  cases h

theorem parseFields_error {fault : Fault} (h : parseFields values rest = .error fault) :
    fault = invalidOutput := by
  fun_induction parseFields values rest with
  | case1 => cases h
  | case2 values rest _ fault' hfield =>
      obtain rfl := error.inj h
      exact parseField_error hfield
  | case3 values rest _ key value after hfield ih => exact ih h

theorem parse_error {payload : List UInt8} {fault : Fault} (h : parse payload = .error fault) :
    fault = invalidOutput := by
  obtain h | ⟨rest, _, h⟩ := bind_eq_error_iff.mp h
  · exact okOr_error h
  · exact parseFields_error h

/-! ## The wire format -/

/-- `write_all` of a byte vector. -/
def appendAll (bytes : List UInt8) : Exchange (List UInt8) ErrorKind Unit := fun written =>
  (.ok (), written ++ bytes)

/-- `flush` of a byte vector. -/
def flushed : Exchange (List UInt8) ErrorKind Unit := fun written => (.ok (), written)

theorem writeFrame_append {payload : List UInt8} (h : payload.length ≤ maxFrame)
    (written : List UInt8) :
    writeFrame appendAll flushed payload written = (.ok (), written ++ encoded payload) := by
  have hlimit : failIf (maxFrame < payload.length) invalidOutput = .ok () :=
    failIf_eq_ok_iff.mpr (Nat.not_lt.mpr h)
  rw [writeFrame, bind_eq_ok]
  refine ⟨(), written, ofExcept_eq_ok.mpr ⟨hlimit, rfl⟩, mapError_eq_ok.mpr ?_⟩
  change (Except.ok (), _) = (Except.ok (), _)
  simp only [encoded, append_assoc]

/-- What one end of the wire writes is what the other end reads, for frames and for fields, and
nothing else is accepted. -/
theorem wire_contract :
    (∀ (R : Type) (read : Exchange R ErrorKind (Option UInt8)) (reader : R),
      (∀ first second, drainFrames read 0 0 reader = [.ok first, .ok second] ↔
        IsTwoFrames read reader first second) ∧
      ((¬ ∃ first second, IsTwoFrames read reader first second) →
        ∃ (delivered : List (List UInt8)) (error : ProviderError), delivered.length ≤ 2 ∧
          drainFrames read 0 0 reader = delivered.map .ok ++ [.error (.provider error)]) ∧
      (∀ payload written stream last, payload.length ≤ maxFrame →
        writeFrame appendAll flushed payload written = (.ok (), written ++ stream) →
        Supplies read reader stream last →
        readFrame read reader = (.ok (some payload), last)) ∧
      (readFrame read reader).1 ≠ .error .panicked) ∧
    (∀ payload : List UInt8, payload.length ≤ maxFrame → ∀ written, ∃ stream,
      writeFrame appendAll flushed payload written = (.ok (), written ++ stream)) ∧
    (∀ items : List (StrSlice × StrSlice), (∀ item ∈ items, validKey item.1.text = true) →
      ∃ values, parse (fields items) = .ok values ∧ Groups items values) ∧
    (∀ payload values, parse payload = .ok values → ∃ items : List (StrSlice × StrSlice),
      (∀ item ∈ items, validKey item.1.text = true) ∧ payload = fields items ∧
        Groups items values) ∧
    ∀ payload, parse payload ≠ .error .panicked := by
  refine ⟨fun R read reader => ⟨fun first second => drainFrames_eq_two, drainFrames_otherwise, ?_, ?_⟩,
    ?_, ?_, ?_, ?_⟩
  · intro payload written stream last hlength hwritten hsupplies
    rw [writeFrame_append hlength, Prod.mk.injEq] at hwritten
    obtain rfl := append_cancel_left hwritten.2
    exact readFrame_eq_some.mpr ⟨hlength, hsupplies⟩
  · intro h
    exact readFrame_fails reader _ (readFrame read reader).2 (Prod.ext h rfl) rfl
  · intro payload hlength written
    exact ⟨encoded payload, writeFrame_append hlength written⟩
  · intro items hitems
    exact ⟨_, parse_eq_ok.mpr ⟨items, hitems, rfl, rfl⟩, groups_pushAll items⟩
  · intro payload values hparse
    obtain ⟨items, hitems, hpayload, rfl⟩ := parse_eq_ok.mp hparse
    exact ⟨items, hitems, hpayload, groups_pushAll items⟩
  · intro payload h
    exact absurd (parse_error h) (by decide)

end Bran.Adapters.Provider
