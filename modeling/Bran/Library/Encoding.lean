import Bran.Library.Text
import Std.Data.String.ToNat

/-!
# Uniquely parsable encodings

An encoding is `Parsable` when no encoding of a value can be mistaken for the
beginning of another one: whatever follows, both the value and what follows can be
read off.  This is what a writer that appends piece after piece to one output
needs, since the pieces of a record, a list or a string are then read off one
after the other.

The pieces of a list are delimited, `parsable_flatMap`: no piece starts with the
letter that closes the list.
-/

namespace Encoding

open List Text

variable {α β χ : Type*}

/-- A value and what follows it can be read off an encoding. -/
def Parsable (encode : α → List χ) : Prop :=
  ∀ ⦃first second : α⦄ ⦃rest rest' : List χ⦄,
    encode first ++ rest = encode second ++ rest' → first = second ∧ rest = rest'

/-- One value and what follows it can be read off an encoding. -/
def ReadOff (encode : α → List χ) (value : α) : Prop :=
  ∀ ⦃other : α⦄ ⦃rest rest' : List χ⦄,
    encode value ++ rest = encode other ++ rest' → value = other ∧ rest = rest'

/-- A decoder that returns what it did not read. -/
theorem parsable_of_decode {encode : α → List χ} (decode : List χ → Option (α × List χ))
    (h : ∀ value rest, decode (encode value ++ rest) = some (value, rest)) : Parsable encode := by
  intro first second rest rest' heq
  have hdecoded : some (first, rest) = some (second, rest') := by
    rw [← h first rest, heq, h second rest']
  exact ⟨congrArg Prod.fst (Option.some.inj hdecoded), congrArg Prod.snd (Option.some.inj hdecoded)⟩

/-- An encoding that starts with a fixed text. -/
theorem ReadOff.after {encode : α → List χ} {value : α} (h : ReadOff encode value)
    (text : List χ) : ReadOff (fun value => text ++ encode value) value := by
  intro second rest rest' heq
  rw [append_assoc, append_assoc] at heq
  exact h (append_cancel_left heq)

theorem Parsable.after {encode : α → List χ} (h : Parsable encode) (text : List χ) :
    Parsable fun value => text ++ encode value :=
  fun value => ReadOff.after (@h value) text

/-- An encoding that ends with a fixed text. -/
theorem Parsable.before {encode : α → List χ} (h : Parsable encode) (text : List χ) :
    Parsable fun value => encode value ++ text := by
  intro first second rest rest' heq
  rw [append_assoc, append_assoc] at heq
  obtain ⟨hvalue, hrest⟩ := h heq
  exact ⟨hvalue, append_cancel_left hrest⟩

/-- What stands before the first delimiter can be read off. -/
theorem append_cons_readOff {delimiter : χ} {left right rest rest' : List χ}
    (hleft : delimiter ∉ left) (hright : delimiter ∉ right)
    (h : left ++ delimiter :: rest = right ++ delimiter :: rest') : left = right ∧ rest = rest' := by
  induction left generalizing right with
  | nil =>
      cases right with
      | nil => exact ⟨rfl, (List.cons.inj h).2⟩
      | cons x right =>
          obtain ⟨rfl, _⟩ := List.cons.inj h
          exact absurd mem_cons_self hright
  | cons y left ih =>
      cases right with
      | nil =>
          obtain ⟨rfl, _⟩ := List.cons.inj h
          exact absurd mem_cons_self hleft
      | cons x right =>
          obtain ⟨rfl, htail⟩ := List.cons.inj h
          obtain ⟨rfl, hrest⟩ := ih (fun hmem => hleft (mem_cons_of_mem _ hmem))
            (fun hmem => hright (mem_cons_of_mem _ hmem)) htail
          exact ⟨rfl, hrest⟩

/-- A delimiter that does not occur in any encoding ends each of them. -/
theorem parsable_delimited {encode : α → List χ} (hinjective : Function.Injective encode)
    {delimiter : χ} (hfree : ∀ value, delimiter ∉ encode value) :
    Parsable fun value => encode value ++ [delimiter] := by
  intro first second rest rest' heq
  rw [append_assoc, append_assoc, singleton_append, singleton_append] at heq
  obtain ⟨hencode, hrest⟩ := append_cons_readOff (hfree first) (hfree second) heq
  exact ⟨hinjective hencode, hrest⟩

/-- Of the values that can be read off, the pieces of a list can be, when nothing follows them. -/
theorem flatMap_readOff {encode : α → List χ} {Clean : α → Prop}
    (hpiece : ∀ first second rest rest', Clean first → Clean second →
      encode first ++ rest = encode second ++ rest' → first = second ∧ rest = rest')
    (hne : ∀ value, encode value ≠ []) {first second : List α} (hfirst : ∀ a ∈ first, Clean a)
    (hsecond : ∀ a ∈ second, Clean a) (h : first.flatMap encode = second.flatMap encode) :
    first = second := by
  induction first generalizing second with
  | nil =>
      cases second with
      | nil => rfl
      | cons value second =>
          rw [flatMap_nil, flatMap_cons] at h
          exact absurd (append_eq_nil_iff.mp h.symm).1 (hne value)
  | cons value first ih =>
      cases second with
      | nil =>
          rw [flatMap_nil, flatMap_cons] at h
          exact absurd (append_eq_nil_iff.mp h).1 (hne value)
      | cons value' second =>
          rw [flatMap_cons, flatMap_cons] at h
          obtain ⟨hvalue, hothers⟩ := forall_mem_cons.mp hfirst
          obtain ⟨hvalue', hothers'⟩ := forall_mem_cons.mp hsecond
          obtain ⟨hsame, hrest⟩ := hpiece _ _ _ _ hvalue hvalue' h
          rw [hsame, ih hothers hothers' hrest]

/-- A list of pieces, none of which starts with the closing letter. -/
theorem readOff_flatMap {encode : α → List χ} {values : List α} {close : χ}
    (h : ∀ value ∈ values, ReadOff encode value)
    (hstart : ∀ value, ∃ head tail, encode value = head :: tail ∧ head ≠ close) :
    ReadOff (fun values => values.flatMap encode ++ [close]) values := by
  induction values with
  | nil =>
      intro second rest rest' heq
      cases second with
      | nil => exact ⟨rfl, by simpa using heq⟩
      | cons value second =>
          obtain ⟨head, tail, hencode, hne⟩ := hstart value
          simp only [flatMap_nil, nil_append, flatMap_cons, hencode,
            cons_append] at heq
          exact absurd (List.cons.inj heq).1.symm hne
  | cons value first ih =>
      intro second rest rest' heq
      cases second with
      | nil =>
          obtain ⟨head, tail, hencode, hne⟩ := hstart value
          simp only [flatMap_nil, nil_append, flatMap_cons, hencode,
            cons_append] at heq
          exact absurd (List.cons.inj heq).1 hne
      | cons value' second =>
          obtain ⟨hvalue, hothers⟩ := forall_mem_cons.mp h
          simp only [flatMap_cons, append_assoc] at heq
          obtain ⟨rfl, htail⟩ := hvalue heq
          obtain ⟨rfl, hrest⟩ := @ih hothers second rest rest' (by simpa using htail)
          exact ⟨rfl, hrest⟩

theorem parsable_flatMap {encode : α → List χ} (h : Parsable encode) {close : χ}
    (hstart : ∀ value, ∃ head tail, encode value = head :: tail ∧ head ≠ close) :
    Parsable fun values : List α => values.flatMap encode ++ [close] :=
  fun _ => readOff_flatMap (fun value _ => @h value) hstart

/-- A list with separators between its pieces. -/
def separated (separator : χ) (encode : α → List χ) : List α → List χ
  | [] => []
  | value :: rest => encode value ++ rest.flatMap fun value => separator :: encode value

/-- A separated list that a letter closes: it is the empty list, or its first piece
followed by pieces that start with the separator. -/
theorem readOff_separated {encode : α → List χ} {values : List α} {separator close : χ}
    (h : ∀ value ∈ values, ReadOff encode value) (hseparator : separator ≠ close)
    (hstart : ∀ value, ∃ head tail, encode value = head :: tail ∧ head ≠ close) :
    ReadOff (fun values => separated separator encode values ++ [close]) values := by
  intro second rest rest' heq
  cases values with
  | nil =>
      cases second with
      | nil => exact ⟨rfl, by simpa [separated] using heq⟩
      | cons value second =>
          obtain ⟨head, tail, hencode, hne⟩ := hstart value
          simp only [separated, nil_append, hencode, cons_append] at heq
          exact absurd (List.cons.inj heq).1.symm hne
  | cons value first =>
      cases second with
      | nil =>
          obtain ⟨head, tail, hencode, hne⟩ := hstart value
          simp only [separated, nil_append, hencode, cons_append] at heq
          exact absurd (List.cons.inj heq).1 hne
      | cons value' second =>
          obtain ⟨hvalue, hothers⟩ := forall_mem_cons.mp h
          simp only [separated, append_assoc] at heq
          obtain ⟨rfl, htail⟩ := hvalue heq
          have hpieces := readOff_flatMap (fun value hvalue => (hothers value hvalue).after
            [separator]) fun value => ⟨separator, encode value, rfl, hseparator⟩
          obtain ⟨rfl, hrest⟩ := @hpieces second rest rest' (by simpa using htail)
          exact ⟨rfl, hrest⟩

theorem parsable_separated {encode : α → List χ} (h : Parsable encode) {separator close : χ}
    (hseparator : separator ≠ close)
    (hstart : ∀ value, ∃ head tail, encode value = head :: tail ∧ head ≠ close) :
    Parsable fun values : List α => separated separator encode values ++ [close] :=
  fun _ => readOff_separated (fun value _ => @h value) hseparator hstart

theorem separated_map (separator : χ) (encode : β → List χ) (f : α → β) (values : List α) :
    separated separator encode (values.map f) =
      separated separator (fun value => encode (f value)) values := by
  cases values with
  | nil => rfl
  | cons value rest => rw [map_cons, separated, separated, flatMap_map]

/-! ## Fields of a record -/

/-- An encoding that can be read off in front of a fixed text. -/
def ReadBefore (encode : α → List χ) (text : List χ) : Prop :=
  ∀ ⦃first second : α⦄ ⦃rest rest' : List χ⦄,
    encode first ++ (text ++ rest) = encode second ++ (text ++ rest') →
      first = second ∧ rest = rest'

theorem Parsable.field {encode : α → List χ} (h : Parsable encode) (text : List χ) :
    ReadBefore encode text := by
  intro first second rest rest' heq
  obtain ⟨hvalue, hrest⟩ := h heq
  exact ⟨hvalue, append_cancel_left hrest⟩

/-- A text that starts with the letter that ends an encoding. -/
theorem Parsable.closedField {encode : α → List χ} {close : χ}
    (h : Parsable fun value => encode value ++ [close]) {text : List χ}
    (htext : text.head? = some close) : ReadBefore encode text := by
  cases text with
  | nil => simp at htext
  | cons head tail =>
      obtain rfl : head = close := by simpa using htext
      intro first second rest rest' heq
      obtain ⟨hvalue, hrest⟩ := @h first second (tail ++ rest) (tail ++ rest') (by simpa using heq)
      exact ⟨hvalue, append_cancel_left hrest⟩

/-! ## Numbers -/

theorem decimal_injective : Function.Injective decimal := by
  intro first second h
  refine Nat.repr_injective ?_
  rw [Nat.repr_eq_ofList_toDigits, Nat.repr_eq_ofList_toDigits]
  exact congrArg String.ofList h

theorem digitChar_of_isDigit {c : Char} (h : c.isDigit = true) :
    c.toNat - 48 < 10 ∧ (c.toNat - 48).digitChar = c := by
  have hbounds : 48 ≤ c.toNat ∧ c.toNat ≤ 57 := Char.isDigit_iff_toNat.mp h
  have hall : ∀ n < 10, (n : ℕ).digitChar.toNat = n + 48 := by decide
  refine ⟨by omega, Char.toNat_inj.mp ?_⟩
  rw [hall _ (by omega)]
  omega

/-- Digits without a leading zero are the decimal form of their value. -/
theorem decimal_ofDigitChars {s : Str} (hne : s ≠ []) (hdigits : ∀ c ∈ s, c.isDigit = true)
    (hzero : s.head? = some '0' → s.length = 1) : decimal (Nat.ofDigitChars 10 s 0) = s := by
  induction s using List.reverseRecOn with
  | nil => exact absurd rfl hne
  | append_singleton front c ih =>
      obtain ⟨hlt, hchar⟩ := digitChar_of_isDigit (hdigits c (by simp))
      have hlast : decimal (c.toNat - 48) = [c] := by
        rw [decimal, Nat.toDigits_of_lt_base hlt, hchar]
      rw [Nat.ofDigitChars_append, Nat.ofDigitChars_cons, Nat.ofDigitChars_nil]
      change decimal (10 * _ + (c.toNat - 48)) = _
      by_cases hfront : front = []
      · rw [hfront, Nat.ofDigitChars_nil, Nat.mul_zero, Nat.zero_add, hlast, nil_append]
      · have hlong : 0 < front.length := length_pos_iff.mpr hfront
        have hhead : front.head? ≠ some '0' := by
          intro hhead
          have hlen := hzero (by rw [head?_append, hhead]; rfl)
          rw [length_append, length_singleton] at hlen
          omega
        have hvalue := ih hfront (fun other hother => hdigits other (by simp [hother]))
          fun hzero => absurd hzero hhead
        have hpos : 0 < Nat.ofDigitChars 10 front 0 := by
          refine Nat.pos_of_ne_zero fun hnone => hhead ?_
          rw [← hvalue, hnone]
          rfl
        rw [decimal, ← Nat.toDigits_append_toDigits (by decide) hpos hlt, ← decimal,
          ← decimal, hvalue, hlast]

/-- Only zero has a leading zero. -/
theorem decimal_leading {n : ℕ} (h : (decimal n).head? = some '0') : n = 0 := by
  induction n using Nat.strongRecOn with
  | ind n ih =>
      rw [decimal] at h
      by_cases hlt : n < 10
      · rw [Nat.toDigits_of_lt_base hlt] at h
        have hall : ∀ m < 10, (m : ℕ).digitChar = '0' → m = 0 := by decide
        exact hall n hlt (Option.some.inj h)
      · rw [Nat.toDigits_of_base_le (by decide) (by omega), head?_append_of_ne_nil _
          Nat.toDigits_ne_nil] at h
        have hquotient := ih (n / 10) (by omega) h
        omega

/-- A decimal number ends at the first letter that is not a digit. -/
theorem parsable_decimal (delimiter : Char) (hdelimiter : delimiter.isDigit = false) :
    Parsable fun n => decimal n ++ [delimiter] :=
  parsable_delimited decimal_injective fun n hmem => by
    have hdigit := Nat.isDigit_of_mem_toDigits (by decide) (by decide) hmem
    rw [hdelimiter] at hdigit
    exact absurd hdigit (by decide)

end Encoding
