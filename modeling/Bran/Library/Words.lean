import Bran.Library.Validation

/-!
# Bytes at offsets

Reading and writing fixed-size numbers at offsets of a byte string, with machine arithmetic that
stops the program where it would leave a 64-bit word.  A writer puts pieces one after the other;
`Located` says where a piece then stands, and every reader finds it there.
-/

namespace Words

open Validation List

/-! ## Arithmetic that can stop the program -/

/-- Why a computation has stopped: it refuses its input, or it has panicked. -/
inductive Stop (ε : Type) where
  | refused (error : ε)
  | panicked
  deriving DecidableEq

/-- A computation that can refuse and can panic. -/
abbrev Checked (ε α : Type) := Except (Stop ε) α

variable {ε α β : Type}

/-- `+` on words. -/
def addWord (left right : ℕ) : Checked ε ℕ :=
  if left + right < 2 ^ 64 then .ok (left + right) else .error .panicked

/-- `-` on words. -/
def subWord (left right : ℕ) : Checked ε ℕ :=
  if right ≤ left then .ok (left - right) else .error .panicked

theorem addWord_eq_ok {left right : ℕ} (h : left + right < 2 ^ 64) :
    (addWord left right : Checked ε ℕ) = .ok (left + right) := if_pos h

theorem subWord_eq_ok {left right : ℕ} (h : right ≤ left) :
    (subWord left right : Checked ε ℕ) = .ok (left - right) := if_pos h

theorem addWord_eq_ok_iff {left right sum : ℕ} :
    (addWord left right : Checked ε ℕ) = .ok sum ↔ left + right < 2 ^ 64 ∧ left + right = sum := by
  unfold addWord
  split_ifs with h
  · rw [Except.ok.injEq]
    exact ⟨fun heq => ⟨h, heq⟩, fun heq => heq.2⟩
  · exact ⟨fun heq => (nomatch heq), fun heq => absurd heq.1 h⟩

theorem subWord_eq_ok_iff {left right difference : ℕ} :
    (subWord left right : Checked ε ℕ) = .ok difference ↔
      right ≤ left ∧ left - right = difference := by
  unfold subWord
  split_ifs with h
  · rw [Except.ok.injEq]
    exact ⟨fun heq => ⟨h, heq⟩, fun heq => heq.2⟩
  · exact ⟨fun heq => (nomatch heq), fun heq => absurd heq.1 h⟩

/-- The computation does not panic. -/
def Safe (computation : Checked ε α) : Prop := computation ≠ .error .panicked

theorem safe_ok {value : α} : Safe (.ok value : Checked ε α) := nofun

theorem safe_refused {error : ε} : Safe (.error (.refused error) : Checked ε α) := nofun

theorem safe_bind {first : Checked ε α} {next : α → Checked ε β} (hfirst : Safe first)
    (hnext : ∀ value, first = .ok value → Safe (next value)) : Safe (first >>= next) := by
  intro h
  rcases bind_eq_error_iff.mp h with h | ⟨value, hvalue, h⟩
  · exact hfirst h
  · exact hnext value hvalue h

theorem safe_failIf {condition : Prop} [Decidable condition] {error : ε} :
    Safe (failIf condition (.refused error) : Checked ε Unit) := by
  unfold failIf
  split_ifs
  · exact safe_refused
  · exact safe_ok

theorem safe_failIf_bind {condition : Prop} [Decidable condition] {error : ε}
    {next : Unit → Checked ε β} (hnext : ¬ condition → Safe (next ())) :
    Safe (failIf condition (.refused error) >>= next) :=
  safe_bind safe_failIf fun _ h => hnext (failIf_eq_ok_iff.mp h)

theorem safe_addWord {left right : ℕ} (h : left + right < 2 ^ 64) :
    Safe (addWord left right : Checked ε ℕ) := by
  rw [addWord_eq_ok h]
  exact safe_ok

theorem safe_addWord_bind {left right : ℕ} {next : ℕ → Checked ε β} (h : left + right < 2 ^ 64)
    (hnext : Safe (next (left + right))) : Safe (addWord left right >>= next) := by
  rw [addWord_eq_ok h]
  exact hnext

theorem safe_subWord_bind {left right : ℕ} {next : ℕ → Checked ε β} (h : right ≤ left)
    (hnext : Safe (next (left - right))) : Safe (subWord left right >>= next) := by
  rw [subWord_eq_ok h]
  exact hnext

/-- A sum that refuses where the source calls `checked_add`. -/
theorem safe_checkedAdd {left right : ℕ} {error : ε} :
    Safe (checkedAdd left right (.refused error) : Checked ε ℕ) := by
  unfold checkedAdd
  split_ifs
  · exact safe_ok
  · exact safe_refused

/-! ## Numbers in bytes -/

/-- The bytes of a number, the lowest first. -/
def toLittleEndian : ℕ → ℕ → List UInt8
  | 0, _ => []
  | count + 1, value => UInt8.ofNat value :: toLittleEndian count (value / 256)

/-- The number that bytes stand for, the lowest first. -/
def fromLittleEndian : List UInt8 → ℕ
  | [] => 0
  | byte :: rest => byte.toNat + 256 * fromLittleEndian rest

@[simp] theorem length_toLittleEndian (count value : ℕ) :
    (toLittleEndian count value).length = count := by
  induction count generalizing value with
  | zero => rfl
  | succ count ih => rw [toLittleEndian, length_cons, ih]

theorem fromLittleEndian_lt (field : List UInt8) : fromLittleEndian field < 256 ^ field.length := by
  induction field with
  | nil => exact Nat.one_pos
  | cons byte rest ih =>
      have hbyte := byte.toNat_lt
      rw [fromLittleEndian, length_cons, Nat.pow_succ]
      omega

theorem fromLittleEndian_toLittleEndian {count value : ℕ} (h : value < 256 ^ count) :
    fromLittleEndian (toLittleEndian count value) = value := by
  induction count generalizing value with
  | zero =>
      rw [Nat.pow_zero, Nat.lt_one_iff] at h
      rw [h]
      rfl
  | succ count ih =>
      have hrest : value / 256 < 256 ^ count := by
        rw [Nat.pow_succ] at h
        exact Nat.div_lt_of_lt_mul (by omega)
      rw [toLittleEndian, fromLittleEndian, ih hrest, UInt8.toNat_ofNat']
      omega

theorem toLittleEndian_fromLittleEndian (field : List UInt8) :
    toLittleEndian field.length (fromLittleEndian field) = field := by
  induction field with
  | nil => rfl
  | cons byte rest ih =>
      have hbyte := byte.toNat_lt
      have hdiv : (byte.toNat + 256 * fromLittleEndian rest) / 256 = fromLittleEndian rest := by
        omega
      have hlow : UInt8.ofNat (byte.toNat + 256 * fromLittleEndian rest) = byte := by
        rw [← UInt8.toNat_inj, UInt8.toNat_ofNat']
        omega
      rw [length_cons, fromLittleEndian, toLittleEndian, hdiv, hlow, ih]

theorem getElem?_toLittleEndian_zero {count index : ℕ} (h : index < count) :
    (toLittleEndian count 0)[index]? = some 0 := by
  induction count generalizing index with
  | zero => omega
  | succ count ih =>
      cases index with
      | zero => rfl
      | succ index =>
          rw [toLittleEndian, getElem?_cons_succ]
          exact ih (by omega)

/-! ## Ranges -/

/-- `bytes.get(start..stop)`. -/
def rangeOf (bytes : List UInt8) (start stop : ℕ) : Option (List UInt8) :=
  if start ≤ stop ∧ stop ≤ bytes.length then some ((bytes.drop start).take (stop - start)) else none

/-- A piece stands at an offset. -/
def Located (bytes : List UInt8) (offset : ℕ) (piece : List UInt8) : Prop :=
  ∃ before after, bytes = before ++ (piece ++ after) ∧ before.length = offset

section Located

variable {bytes piece first second : List UInt8} {offset : ℕ}

theorem located_intro (before piece after : List UInt8) :
    Located (before ++ (piece ++ after)) before.length piece := ⟨before, after, rfl, rfl⟩

theorem Located.le_length (h : Located bytes offset piece) :
    offset + piece.length ≤ bytes.length := by
  obtain ⟨before, after, rfl, rfl⟩ := h
  rw [length_append, length_append]
  omega

theorem Located.left (h : Located bytes offset (first ++ second)) :
    Located bytes offset first := by
  obtain ⟨before, after, rfl, hoffset⟩ := h
  exact ⟨before, second ++ after, by rw [append_assoc], hoffset⟩

theorem Located.right (h : Located bytes offset (first ++ second)) :
    Located bytes (offset + first.length) second := by
  obtain ⟨before, after, rfl, hoffset⟩ := h
  exact ⟨before ++ first, after, by simp only [append_assoc],
    by rw [length_append, hoffset]⟩

theorem Located.rangeOf_eq (h : Located bytes offset piece) {stop : ℕ}
    (hstop : stop = offset + piece.length) : rangeOf bytes offset stop = some piece := by
  have hle := h.le_length
  obtain ⟨before, after, rfl, rfl⟩ := h
  rw [rangeOf, if_pos (by omega), hstop, Nat.add_sub_cancel_left, drop_left, take_left]

theorem rangeOf_eq_some_iff {start stop : ℕ} {field : List UInt8} :
    rangeOf bytes start stop = some field ↔
      start ≤ stop ∧ field.length = stop - start ∧ Located bytes start field := by
  unfold rangeOf
  constructor
  · intro h
    split_ifs at h with hrange
    obtain rfl := Option.some.inj h
    refine ⟨hrange.1, by rw [length_take, length_drop]; omega, ?_⟩
    refine ⟨bytes.take start, (bytes.drop start).drop (stop - start), ?_, ?_⟩
    · rw [take_append_drop, take_append_drop]
    · rw [length_take]
      omega
  · intro h
    obtain ⟨hle, hlength, hlocated⟩ := h
    exact hlocated.rangeOf_eq (by omega)

theorem Located.getElem?_eq (h : Located bytes offset piece) {index : ℕ} {byte : UInt8}
    (hbyte : piece[index]? = some byte) : bytes[offset + index]? = some byte := by
  obtain ⟨before, after, rfl, rfl⟩ := h
  have hindex := (List.getElem?_eq_some_iff.mp hbyte).1
  rw [getElem?_append_right (by omega), Nat.add_sub_cancel_left,
    getElem?_append_left hindex, hbyte]

theorem Located.eq_of_length (hfirst : Located bytes offset first)
    (hsecond : Located bytes offset second) (hlength : first.length = second.length) :
    first = second := by
  have h := hfirst.rangeOf_eq rfl
  rw [hsecond.rangeOf_eq (by rw [hlength])] at h
  exact (Option.some.inj h).symm

end Located

end Words
