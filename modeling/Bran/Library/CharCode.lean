import Bran.Library.Text

/-!
# Characters by number

Hexadecimal digits of either case, the numbers written with them and the characters those
numbers name.
-/

namespace CharCode

open Text List Option

/-- `char::is_ascii_hexdigit`. -/
def isHexDigit (c : Char) : Bool :=
  ('0' ≤ c && c ≤ '9') || ('a' ≤ c && c ≤ 'f') || ('A' ≤ c && c ≤ 'F')

/-- The value of a hexadecimal digit of either case. -/
def digitValue (c : Char) : ℕ :=
  if c.toNat < 58 then c.toNat - 48 else if c.toNat < 71 then c.toNat - 55 else c.toNat - 87

def hexNumber (digits : Str) : ℕ := digits.foldl (fun value c => 16 * value + digitValue c) 0

/-- `u32::from_str_radix(_, 16)` on at most eight digits: one plus sign may stand before them. -/
def fromStrRadix (text : Str) : Option ℕ :=
  let digits := (stripStart ['+'] text).getD text
  if digits ≠ [] ∧ digits.all isHexDigit then some (hexNumber digits) else none

/-- `char::from_u32`. -/
def fromU32 (code : ℕ) : Option Char := if code.isValidChar then some (Char.ofNat code) else none

/-- `str::parse` of an unsigned integer below a bound, refusing a sign. -/
def parseUnsigned (bound : ℕ) (text : Str) : Option ℕ :=
  if text ≠ [] ∧ text.all Char.isDigit ∧ Nat.ofDigitChars 10 text 0 < bound then
    some (Nat.ofDigitChars 10 text 0)
  else none

theorem parseUnsigned_decimal {bound n : ℕ} (h : n < bound) :
    parseUnsigned bound (decimal n) = some n := by
  have hvalue : Nat.ofDigitChars 10 (decimal n) 0 = n := Nat.ofDigitChars_ten_toDigits
  have hdigits : (decimal n).all Char.isDigit = true := by
    rw [List.all_eq_true]
    exact fun c hc => Nat.isDigit_of_mem_toDigits (by decide) (by decide) hc
  have hne : decimal n ≠ [] := Nat.toDigits_ne_nil
  rw [parseUnsigned, hvalue, if_pos ⟨hne, hdigits, h⟩]

/-- `str::parse` of an unsigned type with `bound` values: one plus sign is passed over. -/
def parseInteger (bound : ℕ) (text : Str) : Option ℕ :=
  parseUnsigned bound ((stripStart ['+'] text).getD text)

theorem parseInteger_decimal {bound n : ℕ} (h : n < bound) :
    parseInteger bound (decimal n) = some n := by
  have hnone : stripStart ['+'] (decimal n) = none := by
    rw [eq_none_iff_forall_ne_some]
    intro rest hrest
    have hplus : '+' ∈ decimal n := by
      rw [stripStart, isPrefixOf?_eq_some_iff_append_eq] at hrest
      rw [← hrest]
      exact mem_cons_self
    have hdigit := Nat.isDigit_of_mem_toDigits (by decide) (by decide) hplus
    exact absurd hdigit (by decide)
  rw [parseInteger, hnone, getD_none, parseUnsigned_decimal h]

theorem fromU32_toNat (c : Char) : fromU32 c.toNat = some c := by
  have hvalid : c.toNat.isValidChar := c.valid
  rw [fromU32, if_pos hvalid, Char.ofNat_toNat]

theorem toNat_lt_of_isHexDigit {c : Char} (h : isHexDigit c = true) : c.toNat < 128 := by
  simp only [isHexDigit, Bool.or_eq_true, Bool.and_eq_true, decide_eq_true_eq,
    Char.le_def, UInt32.le_iff_toNat_le] at h
  have hnine : ('9' : Char).val.toNat = 57 := rfl
  have hf : ('f' : Char).val.toNat = 102 := rfl
  have hF : ('F' : Char).val.toNat = 70 := rfl
  have hc : c.val.toNat = c.toNat := rfl
  omega

/-- What writes a number is digits behind at most one plus sign. -/
theorem fromStrRadix_eq_some {text : Str} {code : ℕ} (h : fromStrRadix text = some code) :
    ∃ sign digits, text = sign ++ digits ∧ (sign = [] ∨ sign = ['+']) ∧ digits ≠ [] ∧
      digits.all isHexDigit = true ∧ code = hexNumber digits := by
  rw [fromStrRadix] at h
  split at h
  · next hdigits =>
    cases hstrip : stripStart ['+'] text with
    | none =>
        rw [hstrip, getD_none] at h hdigits
        exact ⟨[], text, rfl, Or.inl rfl, hdigits.1, hdigits.2, (Option.some.inj h).symm⟩
    | some digits =>
        rw [hstrip, getD_some] at h hdigits
        exact ⟨['+'], digits, stripStart_eq_some_iff.mp hstrip, Or.inr rfl, hdigits.1, hdigits.2,
          (Option.some.inj h).symm⟩
  · cases h

theorem ascii_of_fromStrRadix {text : Str} {code : ℕ} (h : fromStrRadix text = some code) :
    ∀ c ∈ text, c.toNat < 128 := by
  obtain ⟨sign, digits, rfl, hsign, -, hdigits, -⟩ := fromStrRadix_eq_some h
  intro c hc
  rcases mem_append.mp hc with hmem | hmem
  · rcases hsign with rfl | rfl
    · exact absurd hmem not_mem_nil
    · obtain rfl := mem_singleton.mp hmem
      decide
  · exact toNat_lt_of_isHexDigit (List.all_eq_true.mp hdigits c hmem)

/-- Hexadecimal digits write their number. -/
theorem fromStrRadix_of_digits {digits : Str} (hne : digits ≠ [])
    (hdigits : digits.all isHexDigit = true) : fromStrRadix digits = some (hexNumber digits) := by
  have hstrip : stripStart ['+'] digits = none := by
    rw [eq_none_iff_forall_ne_some]
    intro rest hrest
    have hmem : '+' ∈ digits := by
      rw [stripStart_eq_some_iff.mp hrest]
      exact mem_cons_self
    exact absurd (List.all_eq_true.mp hdigits _ hmem) (by decide)
  rw [fromStrRadix, hstrip]
  exact if_pos ⟨hne, hdigits⟩

theorem digitValue_hexDigit {n : ℕ} (hn : n < 16) :
    isHexDigit (hexDigit n) = true ∧ digitValue (hexDigit n) = n := by
  have hall : ∀ n < 16, isHexDigit (hexDigit n) = true ∧ digitValue (hexDigit n) = n := by decide
  exact hall n hn

end CharCode
