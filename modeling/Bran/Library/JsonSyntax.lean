import Bran.Library.CharCode

/-!
# JSON texts

The grammar of RFC 8259 over characters, and a scanner that looks at a text for the two ways in
which readers of JSON are often too generous: a digit behind a leading zero, and an escape `\u`
without four hexadecimal digits.  A JSON text is scanned to its end.
-/

namespace JsonSyntax

open Text CharCode List

/-! ## The grammar -/

/-- `ws` -/
def Whitespace (w : Str) : Prop := ∀ c ∈ w, c = ' ' ∨ c = '\t' ∨ c = '\n' ∨ c = '\r'

def Digits (digits : Str) : Prop := ∀ c ∈ digits, c.isDigit = true

/-- `int`: no digit stands behind a leading zero. -/
inductive Whole : Str → Prop
  | zero : Whole ['0']
  | digits {d : Char} {digits : Str} (hd : d.isDigit = true ∧ d ≠ '0') (hdigits : Digits digits) :
      Whole (d :: digits)

/-- `frac`, which may be missing. -/
inductive Fraction : Str → Prop
  | none : Fraction []
  | digits {digits : Str} (hne : digits ≠ []) (hdigits : Digits digits) : Fraction ('.' :: digits)

/-- `exp`, which may be missing. -/
inductive Exponent : Str → Prop
  | none : Exponent []
  | digits {e : Char} {sign digits : Str} (he : e = 'e' ∨ e = 'E')
      (hsign : sign = [] ∨ sign = ['+'] ∨ sign = ['-']) (hne : digits ≠ [])
      (hdigits : Digits digits) : Exponent (e :: (sign ++ digits))

/-- `number` -/
inductive Number : Str → Prop
  | mk {sign whole fraction exponent : Str} (hsign : sign = [] ∨ sign = ['-'])
      (hwhole : Whole whole) (hfraction : Fraction fraction) (hexponent : Exponent exponent) :
      Number (sign ++ (whole ++ (fraction ++ exponent)))

/-- What stands between the quotes of a `string`. -/
inductive Chars : Str → Prop
  | nil : Chars []
  | unescaped {c : Char} {rest : Str} (hc : c ≠ '"' ∧ c ≠ '\\' ∧ 0x20 ≤ c.toNat)
      (hrest : Chars rest) : Chars (c :: rest)
  | escape {c : Char} {rest : Str} (hc : c ∈ ['"', '\\', '/', 'b', 'f', 'n', 'r', 't'])
      (hrest : Chars rest) : Chars ('\\' :: c :: rest)
  | unicode {digits rest : Str} (hlength : digits.length = 4)
      (hdigits : ∀ c ∈ digits, isHexDigit c = true) (hrest : Chars rest) :
      Chars ('\\' :: 'u' :: (digits ++ rest))

inductive Kind where
  | value
  | items
  | members

/-- `value`, and what stands between the brackets of an `array` or an `object` with items. -/
inductive Derives : Kind → Str → Prop
  | literal {word : Str} (h : word ∈ ["null".toList, "true".toList, "false".toList]) :
      Derives .value word
  | number {text : Str} (h : Number text) : Derives .value text
  | string {body : Str} (h : Chars body) : Derives .value ('"' :: (body ++ ['"']))
  | emptyArray {w : Str} (hw : Whitespace w) : Derives .value ('[' :: (w ++ [']']))
  | array {text : Str} (h : Derives .items text) : Derives .value ('[' :: (text ++ [']']))
  | emptyObject {w : Str} (hw : Whitespace w) : Derives .value ('{' :: (w ++ ['}']))
  | object {text : Str} (h : Derives .members text) : Derives .value ('{' :: (text ++ ['}']))
  | item {w text w' : Str} (hw : Whitespace w) (h : Derives .value text) (hw' : Whitespace w') :
      Derives .items (w ++ (text ++ w'))
  | items {w text w' rest : Str} (hw : Whitespace w) (h : Derives .value text)
      (hw' : Whitespace w') (hrest : Derives .items rest) :
      Derives .items (w ++ (text ++ (w' ++ ',' :: rest)))
  | member {w key w₁ w₂ text w₃ : Str} (hw : Whitespace w) (hkey : Chars key)
      (hw₁ : Whitespace w₁) (hw₂ : Whitespace w₂) (h : Derives .value text)
      (hw₃ : Whitespace w₃) :
      Derives .members (w ++ '"' :: (key ++ '"' :: (w₁ ++ ':' :: (w₂ ++ (text ++ w₃)))))
  | members {w key w₁ w₂ text w₃ rest : Str} (hw : Whitespace w) (hkey : Chars key)
      (hw₁ : Whitespace w₁) (hw₂ : Whitespace w₂) (h : Derives .value text)
      (hw₃ : Whitespace w₃) (hrest : Derives .members rest) :
      Derives .members
        (w ++ '"' :: (key ++ '"' :: (w₁ ++ ':' :: (w₂ ++ (text ++ (w₃ ++ ',' :: rest))))))

/-- `JSON-text` -/
def IsText (s : Str) : Prop :=
  ∃ w text w', Whitespace w ∧ Derives .value text ∧ Whitespace w' ∧ s = w ++ (text ++ w')

/-! ## The scanner -/

/-- Where the scanner is. -/
inductive State where
  | outside
  /-- Behind the sign of a number. -/
  | sign
  /-- Behind a zero that starts a number. -/
  | zero
  | number
  | string
  | escape
  /-- Behind `\u`, with one more hexadecimal digit to come than the number says. -/
  | unicode (more : ℕ)
  | failed
  deriving DecidableEq

/-- What a character starts. -/
def begin (c : Char) : State :=
  if c = '"' then .string
  else if c = '-' then .sign
  else if c = '0' then .zero
  else if c.isDigit then .number
  else .outside

def step : State → Char → State
  | .outside, c => begin c
  | .sign, c => begin c
  | .zero, c =>
      if c.isDigit then .failed
      else if c = '.' ∨ c = 'e' ∨ c = 'E' then .number
      else begin c
  | .number, c =>
      if c.isDigit ∨ c = '.' ∨ c = 'e' ∨ c = 'E' ∨ c = '+' ∨ c = '-' then .number else begin c
  | .string, c => if c = '"' then .outside else if c = '\\' then .escape else .string
  | .escape, c => if c = 'u' then .unicode 3 else .string
  | .unicode more, c =>
      if isHexDigit c then (match more with | 0 => .string | more + 1 => .unicode more)
      else .failed
  | .failed, _ => .failed

def scan (state : State) (text : Str) : State := text.foldl step state

/-- No digit stands behind a leading zero, and behind every `\u` stand four hexadecimal digits. -/
def Strict (text : Str) : Prop := scan .outside text ≠ .failed

instance (text : Str) : Decidable (Strict text) := inferInstanceAs (Decidable (_ ≠ _))

@[simp] theorem scan_nil (state : State) : scan state [] = state := rfl

@[simp] theorem scan_cons (state : State) (c : Char) (rest : Str) :
    scan state (c :: rest) = scan (step state c) rest := rfl

@[simp] theorem scan_append (state : State) (first rest : Str) :
    scan state (first ++ rest) = scan (scan state first) rest := foldl_append

/-- A scanner that failed does not recover. -/
theorem scan_failed (text : Str) : scan .failed text = .failed := by
  induction text with
  | nil => rfl
  | cons c rest ih => exact ih

variable {state : State}

theorem scan_ne_failed {first rest : Str} (h : scan (scan state first) rest ≠ .failed) :
    scan state first ≠ .failed := by
  intro hfirst
  rw [hfirst, scan_failed] at h
  exact h rfl

/-- The states behind a value. -/
def Settled (state : State) : Prop := state = .outside ∨ state = .zero ∨ state = .number

/-- A character that ends what stands before it. -/
def Closes (c : Char) : Prop :=
  c = ' ' ∨ c = '\t' ∨ c = '\n' ∨ c = '\r' ∨ c = ',' ∨ c = ':' ∨ c = ']' ∨ c = '}'

instance (c : Char) : Decidable (Closes c) := inferInstanceAs (Decidable (_ ∨ _))

theorem step_closes {c : Char} (hstate : Settled state) (hc : Closes c) :
    step state c = .outside := by
  rcases hstate with rfl | rfl | rfl <;>
    rcases hc with rfl | rfl | rfl | rfl | rfl | rfl | rfl | rfl <;> rfl

theorem closes_of_whitespace {c : Char} (h : c = ' ' ∨ c = '\t' ∨ c = '\n' ∨ c = '\r') :
    Closes c := by
  rcases h with h | h | h | h
  · exact Or.inl h
  · exact Or.inr (Or.inl h)
  · exact Or.inr (Or.inr (Or.inl h))
  · exact Or.inr (Or.inr (Or.inr (Or.inl h)))

theorem scan_whitespace_outside {w : Str} (hw : Whitespace w) : scan .outside w = .outside := by
  induction w with
  | nil => rfl
  | cons c w ih =>
      obtain ⟨hc, hw⟩ := forall_mem_cons.mp hw
      rw [scan_cons, step_closes (Or.inl rfl) (closes_of_whitespace hc)]
      exact ih hw

theorem scan_open {c : Char} {rest : Str} (hc : c = '[' ∨ c = '{') :
    scan .outside (c :: rest) = scan .outside rest := by
  rcases hc with rfl | rfl <;> rfl

/-- Behind a value and blanks, a closing character leads outside. -/
theorem scan_closes {w rest : Str} {c : Char} (hstate : Settled state) (hw : Whitespace w)
    (hc : Closes c) :
    scan state (w ++ c :: rest) = scan .outside rest := by
  cases w with
  | nil => rw [nil_append, scan_cons, step_closes hstate hc]
  | cons d w =>
      obtain ⟨hd, hw⟩ := forall_mem_cons.mp hw
      rw [cons_append, scan_cons, step_closes hstate (closes_of_whitespace hd), scan_append,
        scan_whitespace_outside hw, scan_cons, step_closes (Or.inl rfl) hc]

theorem settled_whitespace {w : Str} (hstate : Settled state) (hw : Whitespace w) :
    Settled (scan state w) := by
  cases w with
  | nil => exact hstate
  | cons c w =>
      obtain ⟨hc, hw⟩ := forall_mem_cons.mp hw
      rw [scan_cons, step_closes hstate (closes_of_whitespace hc), scan_whitespace_outside hw]
      exact Or.inl rfl

/-! ## JSON texts are scanned to their end -/

theorem scan_digits {digits : Str} (h : Digits digits) : scan .number digits = .number := by
  induction digits with
  | nil => rfl
  | cons d digits ih =>
      obtain ⟨hd, hdigits⟩ := forall_mem_cons.mp h
      rw [scan_cons, step, if_pos (Or.inl hd)]
      exact ih hdigits

theorem begin_digit {d : Char} (hd : d.isDigit = true) :
    begin d = if d = '0' then .zero else .number := by
  have hne {c : Char} (hc : c.isDigit = false) : d ≠ c := by
    rintro rfl
    exact Bool.false_ne_true (hc.symm.trans hd)
  rw [begin, if_neg (hne rfl), if_neg (hne rfl), if_pos hd]

/-- The states behind the digits of a number. -/
def Counted (state : State) : Prop := state = .zero ∨ state = .number

theorem scan_whole {whole : Str} (hstate : state = .outside ∨ state = .sign) (h : Whole whole) :
    Counted (scan state whole) := by
  cases h with
  | zero => rcases hstate with rfl | rfl <;> exact Or.inl rfl
  | @digits d digits hd hdigits =>
      have hstep : step state d = .number := by
        have hbegin : begin d = .number := by rw [begin_digit hd.1, if_neg hd.2]
        rcases hstate with rfl | rfl <;> exact hbegin
      rw [scan_cons, hstep, scan_digits hdigits]
      exact Or.inr rfl

theorem step_counted {c : Char} (hstate : Counted state) (hc : c = '.' ∨ c = 'e' ∨ c = 'E') :
    step state c = .number := by
  rcases hstate with rfl | rfl <;> rcases hc with rfl | rfl | rfl <;> rfl

theorem scan_fraction {fraction : Str} (hstate : Counted state) (h : Fraction fraction) :
    Counted (scan state fraction) := by
  cases h with
  | none => exact hstate
  | digits hne hdigits =>
      rw [scan_cons, step_counted hstate (Or.inl rfl), scan_digits hdigits]
      exact Or.inr rfl

theorem scan_exponent {exponent : Str} (hstate : Counted state) (h : Exponent exponent) :
    Counted (scan state exponent) := by
  cases h with
  | none => exact hstate
  | digits he hsign hne hdigits =>
      rw [scan_cons, step_counted hstate (Or.inr he), scan_append]
      have hscan {sign : Str} (h : sign = [] ∨ sign = ['+'] ∨ sign = ['-']) :
          scan .number sign = .number := by
        rcases h with rfl | rfl | rfl <;> rfl
      rw [hscan hsign, scan_digits hdigits]
      exact Or.inr rfl

theorem scan_number {text : Str} (h : Number text) : Settled (scan .outside text) := by
  obtain ⟨hsign, hwhole, hfraction, hexponent⟩ := h
  have hstate {sign : Str} (h : sign = [] ∨ sign = ['-']) :
      scan .outside sign = .outside ∨ scan .outside sign = .sign := by
    rcases h with rfl | rfl
    · exact Or.inl rfl
    · exact Or.inr rfl
  rw [scan_append, scan_append, scan_append]
  exact Or.inr (scan_exponent (scan_fraction (scan_whole (hstate hsign) hwhole) hfraction)
    hexponent)

theorem scan_hexDigits {more : ℕ} {digits : Str} (hlength : digits.length = more + 1)
    (h : ∀ c ∈ digits, isHexDigit c = true) : scan (.unicode more) digits = .string := by
  induction more generalizing digits with
  | zero =>
      obtain ⟨c, rfl⟩ := length_eq_one_iff.mp hlength
      rw [scan_cons, step, if_pos (h c mem_cons_self)]
      rfl
  | succ more ih =>
      obtain ⟨c, digits, rfl⟩ := exists_cons_of_length_eq_add_one hlength
      obtain ⟨hc, hdigits⟩ := forall_mem_cons.mp h
      rw [scan_cons, step, if_pos hc]
      exact ih (Nat.succ.inj hlength) hdigits

theorem scan_chars {body : Str} (h : Chars body) : scan .string body = .string := by
  induction h with
  | nil => rfl
  | unescaped hc _ ih =>
      rw [scan_cons, step, if_neg hc.1, if_neg hc.2.1]
      exact ih
  | @escape c rest hc _ ih =>
      have hne : c ≠ 'u' := by
        rintro rfl
        exact absurd hc (by decide)
      rw [scan_cons, scan_cons]
      change scan (if c = 'u' then _ else .string) rest = .string
      rw [if_neg hne]
      exact ih
  | unicode hlength hdigits _ ih =>
      rw [scan_cons, scan_cons, scan_append]
      change scan (scan (.unicode 3) _) _ = .string
      rw [scan_hexDigits hlength hdigits]
      exact ih

/-- What is derived is scanned, and what stands behind a value may follow it. -/
theorem Derives.settled {kind : Kind} {text : Str} (h : Derives kind text) :
    Settled (scan .outside text) := by
  have hkey {key rest : Str} (hkey : Chars key) :
      scan .outside ('"' :: (key ++ '"' :: rest)) = scan .outside rest := by
    rw [scan_cons, scan_append]
    change scan (scan .string key) _ = _
    rw [scan_chars hkey]
    rfl
  induction h with
  | @literal word h =>
      simp only [mem_cons, not_mem_nil, or_false] at h
      rcases h with rfl | rfl | rfl <;> exact Or.inl rfl
  | number h => exact scan_number h
  | string h =>
      rw [hkey h]
      exact Or.inl rfl
  | emptyArray hw =>
      rw [scan_open (Or.inl rfl), scan_closes (Or.inl rfl) hw (by decide)]
      exact Or.inl rfl
  | array _ ih =>
      rw [scan_open (Or.inl rfl), scan_append, scan_cons, step_closes ih (by decide)]
      exact Or.inl rfl
  | emptyObject hw =>
      rw [scan_open (Or.inr rfl), scan_closes (Or.inl rfl) hw (by decide)]
      exact Or.inl rfl
  | object _ ih =>
      rw [scan_open (Or.inr rfl), scan_append, scan_cons, step_closes ih (by decide)]
      exact Or.inl rfl
  | item hw _ hw' ih =>
      rw [scan_append, scan_whitespace_outside hw, scan_append]
      exact settled_whitespace ih hw'
  | items hw _ hw' _ ih ihrest =>
      rw [scan_append, scan_whitespace_outside hw, scan_append, scan_closes ih hw' (by decide)]
      exact ihrest
  | member hw hchars hw₁ hw₂ _ hw₃ ih =>
      rw [scan_append, scan_whitespace_outside hw, hkey hchars,
        scan_closes (Or.inl rfl) hw₁ (by decide), scan_append, scan_whitespace_outside hw₂,
        scan_append]
      exact settled_whitespace ih hw₃
  | members hw hchars hw₁ hw₂ _ hw₃ _ ih ihrest =>
      rw [scan_append, scan_whitespace_outside hw, hkey hchars,
        scan_closes (Or.inl rfl) hw₁ (by decide), scan_append, scan_whitespace_outside hw₂,
        scan_append, scan_closes ih hw₃ (by decide)]
      exact ihrest

theorem Settled.ne_failed (h : Settled state) : state ≠ .failed := by
  rcases h with rfl | rfl | rfl <;> decide

/-- A JSON text has no digit behind a leading zero and no bad escape. -/
theorem IsText.strict {s : Str} (h : IsText s) : Strict s := by
  obtain ⟨w, text, w', hw, hvalue, hw', rfl⟩ := h
  rw [Strict, scan_append, scan_whitespace_outside hw, scan_append]
  exact (settled_whitespace hvalue.settled hw').ne_failed

/-! ## Generous texts that are scanned to their end -/

/-- Digits behind which the scanner did not fail have no leading zero. -/
theorem whole_of_scan {digits : Str} (hstate : state = .outside ∨ state = .sign) (hne : digits ≠ [])
    (hdigits : Digits digits) (h : scan state digits ≠ .failed) :
    Whole digits := by
  obtain ⟨d, digits, rfl⟩ := exists_cons_of_ne_nil hne
  obtain ⟨hd, htail⟩ := forall_mem_cons.mp hdigits
  by_cases hzero : d = '0'
  · subst hzero
    cases digits with
    | nil => exact .zero
    | cons e digits =>
        have he := (forall_mem_cons.mp htail).1
        have hstep : scan state ('0' :: e :: digits) = scan (step .zero e) digits := by
          rcases hstate with rfl | rfl <;> rfl
        rw [hstep, step, if_pos he, scan_failed] at h
        exact absurd rfl h
  · exact .digits ⟨hd, hzero⟩ htail

/-- Four characters behind `\u` at which the scanner did not fail are hexadecimal digits. -/
theorem hexDigits_of_scan {more : ℕ} {digits : Str} (hlength : digits.length = more + 1)
    (h : scan (.unicode more) digits ≠ .failed) : ∀ c ∈ digits, isHexDigit c = true := by
  induction more generalizing digits with
  | zero =>
      obtain ⟨c, rfl⟩ := length_eq_one_iff.mp hlength
      rw [forall_mem_singleton]
      by_contra hc
      rw [scan_cons, step, if_neg hc] at h
      exact h rfl
  | succ more ih =>
      obtain ⟨c, digits, rfl⟩ := exists_cons_of_length_eq_add_one hlength
      rw [forall_mem_cons]
      by_cases hc : isHexDigit c = true
      · rw [scan_cons, step, if_pos hc] at h
        exact ⟨hc, ih (Nat.succ.inj hlength) h⟩
      · rw [scan_cons, step, if_neg hc, scan_failed] at h
        exact absurd rfl h

end JsonSyntax
