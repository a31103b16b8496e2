import Bran.Document.JsonGrammar
import Bran.Library.Scanner

/-!
# Reading canonical JSON

The four readers of canonical JSON are recursive descents of one shape that differ in how they
look at their input.  Here is that shape over the steps of a reader, what the steps have to
satisfy, and what follows for the whole: it accepts exactly the texts of its dialect and never
panics.
-/

namespace Bran.Document.Json

open Text CharCode Validation Words Scanner List

variable {ε : Type}

/-! ## The shape -/

/-- What starts at a position. -/
inductive Token where
  | word (value : Json)
  | string
  | number
  | array
  | object

/-- The steps of a reader over its input, from a position to the next. -/
structure Reader (ε : Type) where
  /-- What the reader refuses with. -/
  bad : ε
  /-- More rounds than a loop over the items of an array can take. -/
  rounds : ℕ
  /-- Whether a repeated key is refused. -/
  strict : Bool
  start : ℕ → Checked ε (Token × ℕ)
  string : ℕ → Checked ε (Str × ℕ)
  number : ℕ → Checked ε (ℤ × ℕ)
  /-- Whether an array or an object closes at once. -/
  empty : Char → ℕ → Checked ε (Bool × ℕ)
  /-- After an item: whether the array or the object closes; otherwise a comma was read. -/
  next : Char → ℕ → Checked ε (Bool × ℕ)
  key : ℕ → Checked ε (Str × ℕ)
  colon : ℕ → Checked ε (Unit × ℕ)
  /-- What may follow the value; the rest of the input must be read. -/
  finish : ℕ → Checked ε (Unit × ℕ)

namespace Reader

variable (R : Reader ε)

/-- The loop over the items of an array.  Running out of rounds stands for a program that never
ends, so it is a panic here. -/
def items (value : ℕ → Checked ε (Json × ℕ)) : ℕ → List Json → ℕ → Checked ε (List Json × ℕ)
  | 0, _, _ => .error .panicked
  | rounds + 1, found, at_ => do
      let (item, at_) ← value at_
      let (closed, at_) ← R.next ']' at_
      if closed then return (found ++ [item], at_)
      else items value rounds (found ++ [item]) at_

/-- The loop over the members of an object. -/
def members (value : ℕ → Checked ε (Json × ℕ)) :
    ℕ → OrdMap Str Json → ℕ → Checked ε (OrdMap Str Json × ℕ)
  | 0, _, _ => .error .panicked
  | rounds + 1, map, at_ => do
      let (key, at_) ← R.key at_
      let ((), at_) ← R.colon at_
      let (item, at_) ← value at_
      failIf (R.strict = true ∧ map.contains key = true) (.refused R.bad)
      let (closed, at_) ← R.next '}' at_
      if closed then return (map.insert key item, at_)
      else members value rounds (map.insert key item) at_

/-- What stands behind an opening bracket. -/
def array (value : ℕ → Checked ε (Json × ℕ)) (at_ : ℕ) : Checked ε (Json × ℕ) := do
  let (closed, at_) ← R.empty ']' at_
  if closed then return (.arr [], at_)
  else
    let (items, at_) ← R.items value R.rounds [] at_
    return (.arr items, at_)

/-- What stands behind an opening brace. -/
def object (value : ℕ → Checked ε (Json × ℕ)) (at_ : ℕ) : Checked ε (Json × ℕ) := do
  let (closed, at_) ← R.empty '}' at_
  if closed then return (.obj [], at_)
  else
    let (map, at_) ← R.members value R.rounds OrdMap.empty at_
    return (Json.ofMap map, at_)

/-- `value` at a depth that leaves a budget. -/
def value : ℕ → ℕ → Checked ε (Json × ℕ)
  | 0, _ => .error (.refused R.bad)
  | budget + 1, at_ => do
      let (token, at_) ← R.start at_
      match token with
      | .word value => return (value, at_)
      | .string =>
          let (s, at_) ← R.string at_
          return (.str s, at_)
      | .number =>
          let (n, at_) ← R.number at_
          return (.int n, at_)
      | .array => R.array (value budget) at_
      | .object => R.object (value budget) at_

/-- The whole input: one value and nothing behind it. -/
def read (budget : ℕ) : Checked ε Json := do
  let (value, at_) ← R.value budget 0
  let ((), _) ← R.finish at_
  return value

end Reader

/-! ## What the steps have to satisfy -/

/-- The token a character starts. -/
def opens (c : Char) : Option Token :=
  if c = '"' then some .string
  else if c = '[' then some .array
  else if c = '{' then some .object
  else if c = '-' ∨ c.isDigit = true then some .number
  else none

/-- What remains behind the first character of a token: a bracket and a brace are read. -/
def behind : Token → Char → Str → Str
  | .string, c, rest => c :: rest
  | .number, c, rest => c :: rest
  | _, _, rest => rest

/-- What was read when a token starts. -/
def Started (D : Dialect) (rest : List UInt8) (token : Token) (rest' : List UInt8) : Prop :=
  ∃ w, D.Blank w ∧ match token with
    | .word value => ∃ text, (text, value) ∈ words ∧ rest = bytes (w ++ text) ++ rest'
    | .string => rest = bytes w ++ rest'
    | .number => rest = bytes w ++ rest' ∧ rest' ≠ []
    | .array => rest = bytes (w ++ ['[']) ++ rest'
    | .object => rest = bytes (w ++ ['{']) ++ rest'

/-- What may follow a number: nothing that could belong to it. -/
def Delimits (rest : Str) : Prop := ∀ c ∈ rest.head?, c ≠ '-' ∧ c.isDigit = false

/-- A character that is neither blank nor one of the closing ones. -/
def Inner (c : Char) : Prop := isBlank c = false ∧ c ≠ ']' ∧ c ≠ '}'

instance (c : Char) : Decidable (Inner c) := inferInstanceAs (Decidable (_ ∧ _))

/-- The steps of a reader follow a dialect: what each reads, and what each must read. -/
structure Reader.Obeys (R : Reader ε) (D : Dialect) (pos : ℕ → List UInt8 → Prop) : Prop where
  rounds : ∀ {at_ rest}, pos at_ rest → rest.length < R.rounds
  strict : R.strict = D.strict
  start : ∀ {at_ rest}, pos at_ rest → Yields pos (R.start at_) (Started D rest)
  start_word : ∀ {at_ w text value rest}, D.Blank w → (text, value) ∈ words →
    pos at_ (bytes (w ++ (text ++ rest))) → Reaches pos (R.start at_) (.word value) (bytes rest)
  start_open : ∀ {at_ w c token rest}, D.Blank w → opens c = some token →
    pos at_ (bytes (w ++ c :: rest)) → Reaches pos (R.start at_) token (bytes (behind token c rest))
  string : ∀ {at_ rest}, pos at_ rest → Yields pos (R.string at_) fun s rest' =>
    ∃ body, D.Body body s ∧ rest = bytes (quoted body) ++ rest'
  string_body : ∀ {at_ body s rest}, D.Body body s → pos at_ (bytes (quoted body ++ rest)) →
    Reaches pos (R.string at_) s (bytes rest)
  number : ∀ {at_ rest}, pos at_ rest → rest ≠ [] → Yields pos (R.number at_) fun n rest' =>
    ∃ text, parseI64 text = some n ∧ rest = bytes text ++ rest'
  number_text : ∀ {at_ text n rest}, parseI64 text = some n → Delimits rest →
    pos at_ (bytes (text ++ rest)) → Reaches pos (R.number at_) n (bytes rest)
  empty : ∀ {at_ rest close}, close = ']' ∨ close = '}' → pos at_ rest →
    Yields pos (R.empty close at_) fun closed rest' => ∃ w, D.Blank w ∧
      rest = bytes (if closed then w ++ [close] else w) ++ rest'
  empty_closed : ∀ {at_ w close rest}, D.Blank w → close = ']' ∨ close = '}' →
    pos at_ (bytes (w ++ close :: rest)) → Reaches pos (R.empty close at_) true (bytes rest)
  empty_open : ∀ {at_ w c close rest}, D.Blank w → Inner c → close = ']' ∨ close = '}' →
    pos at_ (bytes (w ++ c :: rest)) → ∃ w', D.Blank w' ∧
      Reaches pos (R.empty close at_) false (bytes (w' ++ c :: rest))
  next : ∀ {at_ rest close}, close = ']' ∨ close = '}' → pos at_ rest →
    Yields pos (R.next close at_) fun closed rest' => ∃ w, D.Blank w ∧
      rest = bytes (w ++ [if closed then close else ',']) ++ rest'
  next_closed : ∀ {at_ w close rest}, D.Blank w → close = ']' ∨ close = '}' →
    pos at_ (bytes (w ++ close :: rest)) → Reaches pos (R.next close at_) true (bytes rest)
  next_comma : ∀ {at_ w close rest}, D.Blank w → close = ']' ∨ close = '}' →
    pos at_ (bytes (w ++ ',' :: rest)) → Reaches pos (R.next close at_) false (bytes rest)
  key : ∀ {at_ rest}, pos at_ rest → Yields pos (R.key at_) fun s rest' =>
    ∃ w body, D.Blank w ∧ D.Body body s ∧ rest = bytes (w ++ quoted body) ++ rest'
  key_body : ∀ {at_ w body s rest}, D.Blank w → D.Body body s →
    pos at_ (bytes (w ++ (quoted body ++ rest))) → Reaches pos (R.key at_) s (bytes rest)
  colon : ∀ {at_ rest}, pos at_ rest → Yields pos (R.colon at_) fun _ rest' =>
    ∃ w, D.Blank w ∧ rest = bytes (w ++ [':']) ++ rest'
  colon_read : ∀ {at_ w rest}, D.Blank w → pos at_ (bytes (w ++ ':' :: rest)) →
    Reaches pos (R.colon at_) () (bytes rest)
  finish : ∀ {at_ rest}, pos at_ rest → Yields pos (R.finish at_) fun _ rest' =>
    ∃ w, D.Blank w ∧ rest = bytes w ∧ rest' = []
  finish_blank : ∀ {at_ w}, D.Blank w → pos at_ (bytes w) → Reaches pos (R.finish at_) () []

/-! ## What a reader accepts -/

/-- Reading a comma and what stands before it leaves fewer rounds to take. -/
theorem length_lt_of_comma {front rest rest' : List UInt8} {w : Str} {rounds : ℕ}
    (hrest : rest = front ++ (bytes (w ++ [',']) ++ rest')) (hrounds : rest.length < rounds + 1) :
    rest'.length < rounds := by
  have hcomma : (bytes (w ++ [','])).length = byteLen w + 1 :=
    (length_bytes _).trans (byteLen_append w [','])
  rw [hrest, length_append, length_append, hcomma] at hrounds
  omega

/-- The members read on top of a map: what the map becomes, and that a strict reader has seen no
key twice. -/
structure Added (strict : Bool) (map result : OrdMap Str Json) (new : List (Str × Json)) :
    Prop where
  result : result = new.foldl (fun m entry => m.insert entry.1 entry.2) map
  distinct : strict = true → (new.map Prod.fst).Nodup ∧ ∀ key ∈ new.map Prod.fst, key ∉ map.keys

theorem Added.cons {strict : Bool} {map result : OrdMap Str Json} {new : List (Str × Json)}
    {key : Str} {item : Json} (h : Added strict (map.insert key item) result new)
    (hkey : ¬ (strict = true ∧ map.contains key = true)) :
    Added strict map result ((key, item) :: new) where
  result := h.result
  distinct hstrict := by
    obtain ⟨hnodup, hfresh⟩ := h.distinct hstrict
    rw [map_cons, nodup_cons]
    refine ⟨⟨fun hmem => hfresh key hmem (OrdMap.mem_keys_insert.mpr (Or.inl rfl)), hnodup⟩, ?_⟩
    rw [forall_mem_cons]
    refine ⟨fun hmem => hkey ⟨hstrict, OrdMap.contains_iff.mpr hmem⟩, fun other hother hmem => ?_⟩
    exact hfresh other hother (OrdMap.mem_keys_insert.mpr (Or.inr hmem))

section Sound

variable {R : Reader ε} {D : Dialect} {pos : ℕ → List UInt8 → Prop} (hR : R.Obeys D pos)
  {value : ℕ → Checked ε (Json × ℕ)} {V : Str → Json → Prop}
include hR

/-- A reader of values that reads texts of `V`. -/
def ReadsOnly (pos : ℕ → List UInt8 → Prop) (value : ℕ → Checked ε (Json × ℕ))
    (V : Str → Json → Prop) : Prop :=
  ∀ {at_ rest}, pos at_ rest → Yields pos (value at_) fun v rest' =>
    ∃ text, V text v ∧ rest = bytes text ++ rest'

theorem yields_items (hvalue : ReadsOnly pos value V) {rounds at_ : ℕ} {found : List Json}
    {rest : List UInt8} (hpos : pos at_ rest) (hrounds : rest.length < rounds) :
    Yields pos (R.items value rounds found at_) fun items rest' =>
      ∃ text new, D.Items V text new ∧ items = found ++ new ∧ rest = bytes text ++ rest' := by
  induction rounds generalizing at_ found rest with
  | zero => exact absurd hrounds (Nat.not_lt_zero _)
  | succ rounds ih =>
      refine (hvalue hpos).bind ?_
      rintro item at₁ rest₁ hpos₁ ⟨text, htext, hrest⟩
      refine (hR.next (Or.inl rfl) hpos₁).bind ?_
      rintro closed at₂ rest₂ hpos₂ ⟨w, hw, rfl⟩
      cases closed with
      | true => exact Yields.ok hpos₂ ⟨_, [item], .last htext hw, rfl, by simp [hrest]⟩
      | false =>
          refine (ih hpos₂ (length_lt_of_comma hrest hrounds)).mono ?_
          rintro items rest₃ ⟨text', new, hnew, rfl, rfl⟩
          exact ⟨_, item :: new, .cons htext hw hnew, by simp, by simp [hrest]⟩

theorem yields_members (hvalue : ReadsOnly pos value V) {rounds at_ : ℕ} {map : OrdMap Str Json}
    {rest : List UInt8} (hpos : pos at_ rest) (hrounds : rest.length < rounds) :
    Yields pos (R.members value rounds map at_) fun result rest' =>
      ∃ text new, D.Members V text new ∧ Added R.strict map result new ∧
        rest = bytes text ++ rest' := by
  induction rounds generalizing at_ map rest with
  | zero => exact absurd hrounds (Nat.not_lt_zero _)
  | succ rounds ih =>
      refine (hR.key hpos).bind ?_
      rintro key at₁ rest₁ hpos₁ ⟨w, body, hw, hbody, hrest⟩
      refine (hR.colon hpos₁).bind ?_
      rintro ⟨⟩ at₂ rest₂ hpos₂ ⟨w', hw', rfl⟩
      refine (hvalue hpos₂).bind ?_
      rintro item at₃ rest₃ hpos₃ ⟨text, htext, rfl⟩
      refine yields_failIf_bind fun hkey => ?_
      refine (hR.next (Or.inr rfl) hpos₃).bind ?_
      rintro closed at₄ rest₄ hpos₄ ⟨w'', hw'', rfl⟩
      have hmember : D.Member V (w ++ (quoted body ++ (w' ++ ':' :: text))) (key, item) :=
        .mk hw hbody hw' htext
      cases closed with
      | true =>
          have hadded : Added R.strict map (map.insert key item) [(key, item)] :=
            Added.cons ⟨rfl, fun _ => ⟨nodup_nil, by simp⟩⟩ hkey
          exact Yields.ok hpos₄ ⟨_, _, .last hmember hw'', hadded, by simp [hrest]⟩
      | false =>
          have hlt : rest₄.length < rounds := by
            have hfront : rest = (bytes (w ++ quoted body) ++ (bytes (w' ++ [':']) ++ bytes text)) ++
                (bytes (w'' ++ [',']) ++ rest₄) := by simp [hrest]
            exact length_lt_of_comma hfront hrounds
          refine (ih hpos₄ hlt).mono ?_
          rintro result rest₅ ⟨text', new, hnew, hadded, rfl⟩
          exact ⟨_, _, .cons hmember hw'' hnew, hadded.cons hkey, by simp [hrest]⟩

theorem yields_array (hvalue : ReadsOnly pos value V) (hV : Padded D V) {at_ : ℕ} {w : Str}
    {rest rest' : List UInt8} (hw : D.Blank w) (hpos : pos at_ rest')
    (hrest : rest = bytes (w ++ ['[']) ++ rest') :
    Yields pos (R.array value at_) fun v rest'' =>
      ∃ text, D.Form V text v ∧ rest = bytes text ++ rest'' := by
  refine (hR.empty (Or.inl rfl) hpos).bind ?_
  rintro closed at₁ rest₁ hpos₁ ⟨w', hw', rfl⟩
  cases closed with
  | true => exact Yields.ok hpos₁ ⟨_, .emptyArr hw hw', by simp [hrest]⟩
  | false =>
      refine (yields_items hR hvalue hpos₁ (hR.rounds hpos₁)).bind ?_
      rintro items at₂ rest₂ hpos₂ ⟨text, new, hnew, rfl, rfl⟩
      exact Yields.ok hpos₂ ⟨_, .arr hw (padded_items hV hw' hnew), by simp [hrest]⟩

theorem yields_object (hvalue : ReadsOnly pos value V) {at_ : ℕ} {w : Str}
    {rest rest' : List UInt8} (hw : D.Blank w) (hpos : pos at_ rest')
    (hrest : rest = bytes (w ++ ['{']) ++ rest') :
    Yields pos (R.object value at_) fun v rest'' =>
      ∃ text, D.Form V text v ∧ rest = bytes text ++ rest'' := by
  refine (hR.empty (Or.inr rfl) hpos).bind ?_
  rintro closed at₁ rest₁ hpos₁ ⟨w', hw', rfl⟩
  cases closed with
  | true => exact Yields.ok hpos₁ ⟨_, .emptyObj hw hw', by simp [hrest]⟩
  | false =>
      refine (yields_members hR hvalue hpos₁ (hR.rounds hpos₁)).bind ?_
      rintro map at₂ rest₂ hpos₂ ⟨text, new, hnew, hadded, rfl⟩
      have hkeys : D.strict = true → (new.map Prod.fst).Nodup := fun hstrict =>
        (hadded.distinct (hR.strict.trans hstrict)).1
      have hmap : map = OrdMap.ofList new := hadded.result
      rw [hmap]
      exact Yields.ok hpos₂ ⟨_, .obj hw (padded_members hw' hnew) hkeys, by simp [hrest]⟩

/-- From a good position a reader refuses or reads a text of the value it gives. -/
theorem yields_value {budget : ℕ} : ReadsOnly pos (R.value budget) (D.Value budget) := by
  induction budget with
  | zero => exact fun _ => Yields.refused
  | succ budget ih =>
      intro at_ rest hpos
      refine (hR.start hpos).bind ?_
      rintro token at₁ rest₁ hpos₁ ⟨w, hw, hstarted⟩
      cases token with
      | word v =>
          obtain ⟨text, hword, hrest⟩ := hstarted
          exact Yields.ok hpos₁ ⟨_, .word hw hword, hrest⟩
      | string =>
          refine (hR.string hpos₁).bind ?_
          rintro s at₂ rest₂ hpos₂ ⟨body, hbody, rfl⟩
          exact Yields.ok hpos₂ ⟨_, .str hw hbody, by simp [hstarted]⟩
      | number =>
          obtain ⟨hrest, hne⟩ := hstarted
          refine (hR.number hpos₁ hne).bind ?_
          rintro n at₂ rest₂ hpos₂ ⟨text, hint, rfl⟩
          exact Yields.ok hpos₂ ⟨_, .int hw hint, by simp [hrest]⟩
      | array =>
          exact yields_array hR ih padded_value hw hpos₁ hstarted
      | object =>
          exact yields_object hR ih hw hpos₁ hstarted

/-- What a reader accepts is one value of its dialect and nothing else, and it never panics. -/
theorem yields_read {budget : ℕ} {input : List UInt8} (hpos : pos 0 input) :
    Safe (R.read budget) ∧ ∀ v, R.read budget = .ok v →
      ∃ text w, D.Value budget text v ∧ D.Blank w ∧ input = bytes (text ++ w) := by
  rw [Reader.read]
  rcases yields_value hR hpos with ⟨error, hvalue⟩ |
    ⟨v, at₁, rest₁, hvalue, hpos₁, text, htext, rfl⟩
  · rw [hvalue, error_bind]
    exact ⟨safe_refused, fun _ h => (nomatch h)⟩
  · rw [hvalue, ok_bind]
    dsimp only
    rcases hR.finish hpos₁ with ⟨error, hfinish⟩ | ⟨⟨⟩, at₂, rest₂, hfinish, -, w, hw, rfl, -⟩
    · rw [hfinish, error_bind]
      exact ⟨safe_refused, fun _ h => (nomatch h)⟩
    · rw [hfinish, ok_bind]
      refine ⟨safe_ok, fun v' h => ?_⟩
      obtain rfl := Except.ok.inj h
      exact ⟨text, w, htext, hw, (Utf8.bytes_append _ _).symm⟩

end Sound

/-! ## What a reader must accept -/

section Complete

/-- A reader of values that reads every text of `V` before what delimits it. -/
def Reads (pos : ℕ → List UInt8 → Prop) (value : ℕ → Checked ε (Json × ℕ))
    (V : Str → Json → Prop) : Prop :=
  ∀ {at_ text v rest}, V text v → Delimits rest → pos at_ (bytes (text ++ rest)) →
    Reaches pos (value at_) v (bytes rest)

theorem delimits_nil : Delimits [] := fun _ h => (nomatch h)

theorem delimits_cons {c : Char} (h : c ≠ '-' ∧ c.isDigit = false) (rest : Str) :
    Delimits (c :: rest) := by
  intro d hd
  obtain rfl := Option.some.inj hd
  exact h

theorem blank_cases {c : Char} (h : isBlank c = true) :
    c = ' ' ∨ c = '\t' ∨ c = '\n' ∨ c = '\r' := by
  simpa [isBlank, or_assoc] using h

variable {D : Dialect}

theorem delimits_blank {w rest : Str} (hw : D.Blank w) (hrest : Delimits rest) :
    Delimits (w ++ rest) := by
  cases w with
  | nil => exact hrest
  | cons c w =>
      refine delimits_cons ?_ _
      rcases blank_cases (hw c mem_cons_self).2 with rfl | rfl | rfl | rfl <;> decide

variable {V : Str → Json → Prop}

theorem opens_digit {c : Char} (h : c.isDigit = true) : opens c = some .number ∧ Inner c := by
  have hne {d : Char} (hd : d.isDigit = false) : c ≠ d := by
    rintro rfl
    exact Bool.false_ne_true (hd.symm.trans h)
  have hblank : isBlank c = false := by
    simp [isBlank, hne (show (' ' : Char).isDigit = false from rfl),
      hne (show ('\t' : Char).isDigit = false from rfl),
      hne (show ('\n' : Char).isDigit = false from rfl),
      hne (show ('\r' : Char).isDigit = false from rfl)]
  refine ⟨?_, hblank, hne rfl, hne rfl⟩
  rw [opens, if_neg (hne rfl), if_neg (hne rfl), if_neg (hne rfl), if_pos (Or.inr h)]

theorem exists_of_parseI64 {text : Str} {n : ℤ} (h : parseI64 text = some n) :
    ∃ c rest, text = c :: rest ∧ opens c = some .number ∧ Inner c := by
  rw [parseI64] at h
  split at h
  · next digits hstrip =>
    exact ⟨'-', digits, stripStart_eq_some_iff.mp hstrip, rfl, by decide, by decide, by decide⟩
  · obtain ⟨n, hparse, -⟩ := Option.map_eq_some_iff.mp h
    rw [parseUnsigned] at hparse
    split at hparse
    · next hdigits =>
      obtain ⟨c, rest, rfl⟩ := exists_cons_of_ne_nil hdigits.1
      have hdigit := all_eq_true.mp hdigits.2.1 c mem_cons_self
      exact ⟨c, rest, rfl, opens_digit hdigit⟩
    · cases hparse

/-- A value starts with a character of its own behind the blanks, and any blanks will do. -/
theorem exists_of_form {text : Str} {v : Json} (h : D.Form V text v) :
    ∃ w c rest, text = w ++ c :: rest ∧ D.Blank w ∧ Inner c ∧
      ∀ {w'}, D.Blank w' → D.Form V (w' ++ c :: rest) v := by
  cases h with
  | @word w text v hw hword =>
      have hfirst : ∃ c rest, text = c :: rest ∧ Inner c := by
        simp only [words, mem_cons, Prod.mk.injEq, not_mem_nil, or_false] at hword
        rcases hword with ⟨rfl, -⟩ | ⟨rfl, -⟩ | ⟨rfl, -⟩
        · exact ⟨'n', "ull".toList, rfl, by decide, by decide, by decide⟩
        · exact ⟨'t', "rue".toList, rfl, by decide, by decide, by decide⟩
        · exact ⟨'f', "alse".toList, rfl, by decide, by decide, by decide⟩
      obtain ⟨c, rest, rfl, hc⟩ := hfirst
      exact ⟨w, c, rest, rfl, hw, hc, fun hw' => .word hw' hword⟩
  | @int w text n hw hint =>
      obtain ⟨c, rest, rfl, -, hc⟩ := exists_of_parseI64 hint
      exact ⟨w, c, rest, rfl, hw, hc, fun hw' => .int hw' hint⟩
  | @str w body s hw hbody =>
      exact ⟨w, '"', _, rfl, hw, ⟨by decide, by decide, by decide⟩, fun hw' => .str hw' hbody⟩
  | @emptyArr w w₁ hw hw₁ =>
      exact ⟨w, '[', _, rfl, hw, ⟨by decide, by decide, by decide⟩, fun hw' => .emptyArr hw' hw₁⟩
  | @arr w text items hw hitems =>
      exact ⟨w, '[', _, rfl, hw, ⟨by decide, by decide, by decide⟩, fun hw' => .arr hw' hitems⟩
  | @emptyObj w w₁ hw hw₁ =>
      exact ⟨w, '{', _, rfl, hw, ⟨by decide, by decide, by decide⟩, fun hw' => .emptyObj hw' hw₁⟩
  | @obj w text entries hw hentries hkeys =>
      exact ⟨w, '{', _, rfl, hw, ⟨by decide, by decide, by decide⟩,
        fun hw' => .obj hw' hentries hkeys⟩

/-- A relation whose texts start behind their blanks with a character of their own. -/
def Starts (D : Dialect) (V : Str → Json → Prop) : Prop :=
  ∀ {text v}, V text v → ∃ w c rest, text = w ++ c :: rest ∧ D.Blank w ∧ Inner c ∧
    ∀ {w'}, D.Blank w' → V (w' ++ c :: rest) v

theorem starts_value {budget : ℕ} : Starts D (D.Value budget) := by
  cases budget with
  | zero => exact fun h => h.elim
  | succ budget => exact exists_of_form

theorem exists_of_items (hV : Starts D V) {text : Str} {items : List Json}
    (h : D.Items V text items) : ∃ w c rest, text = w ++ c :: rest ∧ D.Blank w ∧ Inner c ∧
      ∀ {w'}, D.Blank w' → D.Items V (w' ++ c :: rest) items := by
  cases h with
  | @last text w item hitem hw =>
      obtain ⟨w₀, c, rest, rfl, hw₀, hc, hany⟩ := hV hitem
      refine ⟨w₀, c, rest ++ (w ++ [']']), by simp, hw₀, hc, fun {w'} hw' => ?_⟩
      have hlast : D.Items V ((w' ++ c :: rest) ++ (w ++ [']'])) [item] := .last (hany hw') hw
      simpa using hlast
  | @cons text w tail item items hitem hw hrest =>
      obtain ⟨w₀, c, rest, rfl, hw₀, hc, hany⟩ := hV hitem
      refine ⟨w₀, c, rest ++ (w ++ ',' :: tail), by simp, hw₀, hc, fun {w'} hw' => ?_⟩
      have hcons : D.Items V ((w' ++ c :: rest) ++ (w ++ ',' :: tail)) (item :: items) :=
        .cons (hany hw') hw hrest
      simpa using hcons

theorem exists_of_member {text : Str} {entry : Str × Json} (h : D.Member V text entry) :
    ∃ w rest, text = w ++ '"' :: rest ∧ D.Blank w ∧
      ∀ {w'}, D.Blank w' → D.Member V (w' ++ '"' :: rest) entry := by
  obtain @⟨w, body, key, w₁, text, item, hw, hkey, hw₁, hitem⟩ := h
  exact ⟨w, _, rfl, hw, fun hw' => .mk hw' hkey hw₁ hitem⟩

theorem exists_of_members {text : Str} {entries : List (Str × Json)}
    (h : D.Members V text entries) : ∃ w rest, text = w ++ '"' :: rest ∧ D.Blank w ∧
      ∀ {w'}, D.Blank w' → D.Members V (w' ++ '"' :: rest) entries := by
  cases h with
  | @last text w entry hentry hw =>
      obtain ⟨w₀, rest, rfl, hw₀, hany⟩ := exists_of_member hentry
      refine ⟨w₀, rest ++ (w ++ ['}']), by simp, hw₀, fun {w'} hw' => ?_⟩
      have hlast : D.Members V ((w' ++ '"' :: rest) ++ (w ++ ['}'])) [entry] := .last (hany hw') hw
      simpa using hlast
  | @cons text w tail entry entries hentry hw hrest =>
      obtain ⟨w₀, rest, rfl, hw₀, hany⟩ := exists_of_member hentry
      refine ⟨w₀, rest ++ (w ++ ',' :: tail), by simp, hw₀, fun {w'} hw' => ?_⟩
      have hcons : D.Members V ((w' ++ '"' :: rest) ++ (w ++ ',' :: tail)) (entry :: entries) :=
        .cons (hany hw') hw hrest
      simpa using hcons

variable {R : Reader ε} {pos : ℕ → List UInt8 → Prop} (hR : R.Obeys D pos)
  {value : ℕ → Checked ε (Json × ℕ)}
include hR

theorem reaches_items (hvalue : Reads pos value V) {rounds at_ : ℕ} {found new : List Json}
    {text rest : Str} (hnew : D.Items V text new) (hpos : pos at_ (bytes (text ++ rest)))
    (hrounds : (bytes (text ++ rest)).length < rounds) :
    Reaches pos (R.items value rounds found at_) (found ++ new) (bytes rest) := by
  induction hnew generalizing rounds at_ found with
  | @last text w item hitem hw =>
      obtain ⟨rounds, rfl⟩ := exists_round hrounds
      have hdelimits : Delimits (w ++ ([']'] ++ rest)) :=
        delimits_blank hw (delimits_cons (by decide) _)
      simp only [append_assoc] at hpos
      refine (hvalue hitem hdelimits hpos).bind fun at₁ hpos₁ => ?_
      refine (hR.next_closed hw (Or.inl rfl) hpos₁).bind fun at₂ hpos₂ => ?_
      exact Reaches.ok hpos₂
  | @cons text w tail item items hitem hw hrest ih =>
      obtain ⟨rounds, rfl⟩ := exists_round hrounds
      have hdelimits : Delimits (w ++ (',' :: (tail ++ rest))) :=
        delimits_blank hw (delimits_cons (by decide) _)
      simp only [append_assoc, cons_append] at hpos
      refine (hvalue hitem hdelimits hpos).bind fun at₁ hpos₁ => ?_
      refine (hR.next_comma hw (Or.inl rfl) hpos₁).bind fun at₂ hpos₂ => ?_
      have hsplit : bytes (text ++ (w ++ ',' :: tail) ++ rest) =
          bytes text ++ (bytes (w ++ [',']) ++ bytes (tail ++ rest)) := by simp
      have hreach : Reaches pos (R.items value (0 + rounds) (found ++ [item]) at₂)
          (found ++ [item] ++ items) (bytes rest) := ih hpos₂ (length_lt_of_comma hsplit hrounds)
      rwa [append_assoc, singleton_append] at hreach

theorem reaches_member (hvalue : Reads pos value V) {rounds at_ : ℕ} {map : OrdMap Str Json}
    {entry : Str × Json} {text rest : Str} (hentry : D.Member V text entry)
    (hkey : ¬ (R.strict = true ∧ map.contains entry.1 = true)) (hrest : Delimits rest)
    (hpos : pos at_ (bytes (text ++ rest))) {result : OrdMap Str Json} {rest' : List UInt8}
    (hnext : ∀ at₁, pos at₁ (bytes rest) → Reaches pos (do
      let (closed, at_) ← R.next '}' at₁
      if closed then return (map.insert entry.1 entry.2, at_)
      else R.members value rounds (map.insert entry.1 entry.2) at_) result rest') :
    Reaches pos (R.members value (rounds + 1) map at_) result rest' := by
  obtain @⟨w, body, key, w₁, text, item, hw, hbody, hw₁, hitem⟩ := hentry
  simp only [append_assoc, cons_append] at hpos
  refine (hR.key_body hw hbody hpos).bind fun at₁ hpos₁ => ?_
  refine (hR.colon_read hw₁ hpos₁).bind fun at₂ hpos₂ => ?_
  refine (hvalue hitem hrest hpos₂).bind fun at₃ hpos₃ => ?_
  dsimp only
  rw [failIf_bind_eq hkey]
  exact hnext at₃ hpos₃

theorem reaches_members (hvalue : Reads pos value V) {rounds at_ : ℕ} {map : OrdMap Str Json}
    {new : List (Str × Json)} {text rest : Str} (hnew : D.Members V text new)
    (hdistinct : R.strict = true →
      (new.map Prod.fst).Nodup ∧ ∀ key ∈ new.map Prod.fst, key ∉ map.keys)
    (hpos : pos at_ (bytes (text ++ rest))) (hrounds : (bytes (text ++ rest)).length < rounds) :
    Reaches pos (R.members value rounds map at_)
      (new.foldl (fun m entry => m.insert entry.1 entry.2) map) (bytes rest) := by
  have hfresh {entry : Str × Json} {entries : List (Str × Json)} {map : OrdMap Str Json}
      (hdistinct : R.strict = true → ((entry :: entries).map Prod.fst).Nodup ∧
        ∀ key ∈ (entry :: entries).map Prod.fst, key ∉ map.keys) :
      ¬ (R.strict = true ∧ map.contains entry.1 = true) := fun h =>
    (hdistinct h.1).2 _ mem_cons_self (OrdMap.contains_iff.mp h.2)
  induction hnew generalizing rounds at_ map with
  | @last text w entry hentry hw =>
      obtain ⟨rounds, rfl⟩ := exists_round hrounds
      have hdelimits : Delimits (w ++ (['}'] ++ rest)) :=
        delimits_blank hw (delimits_cons (by decide) _)
      simp only [append_assoc] at hpos
      refine reaches_member hR hvalue hentry (hfresh hdistinct) hdelimits hpos fun at₁ hpos₁ => ?_
      refine (hR.next_closed hw (Or.inr rfl) hpos₁).bind fun at₂ hpos₂ => ?_
      exact Reaches.ok hpos₂
  | @cons text w tail entry entries hentry hw hrest ih =>
      obtain ⟨rounds, rfl⟩ := exists_round hrounds
      have hdelimits : Delimits (w ++ (',' :: (tail ++ rest))) :=
        delimits_blank hw (delimits_cons (by decide) _)
      have hsplit : bytes (text ++ (w ++ ',' :: tail) ++ rest) =
          bytes text ++ (bytes (w ++ [',']) ++ bytes (tail ++ rest)) := by simp
      simp only [append_assoc, cons_append] at hpos
      refine reaches_member hR hvalue hentry (hfresh hdistinct) hdelimits hpos fun at₁ hpos₁ => ?_
      refine (hR.next_comma hw (Or.inr rfl) hpos₁).bind fun at₂ hpos₂ => ?_
      refine ih (fun hstrict => ?_) hpos₂ (length_lt_of_comma hsplit hrounds)
      obtain ⟨hnodup, hnew⟩ := hdistinct hstrict
      rw [map_cons, nodup_cons] at hnodup
      refine ⟨hnodup.2, fun key hkey hmem => ?_⟩
      rcases OrdMap.mem_keys_insert.mp hmem with rfl | hmem
      · exact hnodup.1 hkey
      · exact hnew key (mem_cons_of_mem _ hkey) hmem

theorem reaches_array (hvalue : Reads pos value V) (hV : Starts D V) {at_ : ℕ}
    {items : List Json} {text rest : Str} (hitems : D.Items V text items)
    (hpos : pos at_ (bytes (text ++ rest))) :
    Reaches pos (R.array value at_) (.arr items) (bytes rest) := by
  obtain ⟨w, c, tail, rfl, hw, hc, hany⟩ := @exists_of_items D V hV _ _ hitems
  rw [append_assoc, cons_append] at hpos
  obtain ⟨w', hw', hopen⟩ := hR.empty_open hw hc (Or.inl rfl) hpos
  refine hopen.bind fun at₁ hpos₁ => ?_
  rw [← cons_append, ← append_assoc] at hpos₁
  refine (reaches_items hR hvalue (hany hw') hpos₁ (hR.rounds hpos₁)).bind fun at₂ hpos₂ => ?_
  exact Reaches.ok hpos₂

theorem reaches_object (hvalue : Reads pos value V) {at_ : ℕ} {entries : List (Str × Json)}
    {text rest : Str} (hentries : D.Members V text entries)
    (hkeys : D.strict = true → (entries.map Prod.fst).Nodup)
    (hpos : pos at_ (bytes (text ++ rest))) : Reaches pos (R.object value at_)
      (Json.ofMap (OrdMap.ofList entries)) (bytes rest) := by
  obtain ⟨w, tail, rfl, hw, hany⟩ := exists_of_members hentries
  rw [append_assoc, cons_append] at hpos
  have hquote : Inner '"' := by decide
  obtain ⟨w', hw', hopen⟩ := hR.empty_open hw hquote (Or.inr rfl) hpos
  refine hopen.bind fun at₁ hpos₁ => ?_
  rw [← cons_append, ← append_assoc] at hpos₁
  have hdistinct : R.strict = true → (entries.map Prod.fst).Nodup ∧
      ∀ key ∈ entries.map Prod.fst, key ∉ (OrdMap.empty : OrdMap Str Json).keys := fun hstrict =>
    ⟨hkeys (hR.strict.symm.trans hstrict), fun _ _ => not_mem_nil⟩
  refine (reaches_members hR hvalue (hany hw') hdistinct hpos₁ (hR.rounds hpos₁)).bind
    fun at₂ hpos₂ => ?_
  exact Reaches.ok hpos₂

/-- A reader reads every text of its dialect as its value. -/
theorem reaches_value {budget : ℕ} : Reads pos (R.value budget) (D.Value budget) := by
  induction budget with
  | zero => exact fun h => h.elim
  | succ budget ih =>
      intro at_ text v rest hvalue hrest hpos
      cases hvalue with
      | @word w text v hw hword =>
          rw [append_assoc] at hpos
          exact (hR.start_word hw hword hpos).bind fun at₁ hpos₁ => Reaches.ok hpos₁
      | @int w text n hw hint =>
          obtain ⟨c, tail, rfl, hopens, -⟩ := exists_of_parseI64 hint
          rw [append_assoc, cons_append] at hpos
          refine (hR.start_open hw hopens hpos).bind fun at₁ hpos₁ => ?_
          refine (hR.number_text hint hrest hpos₁).bind fun at₂ hpos₂ => ?_
          exact Reaches.ok hpos₂
      | @str w body s hw hbody =>
          rw [append_assoc, quoted, cons_append] at hpos
          refine (hR.start_open hw rfl hpos).bind fun at₁ hpos₁ => ?_
          refine (hR.string_body hbody hpos₁).bind fun at₂ hpos₂ => ?_
          exact Reaches.ok hpos₂
      | @emptyArr w w' hw hw' =>
          simp only [append_assoc, cons_append] at hpos
          refine (hR.start_open hw rfl hpos).bind fun at₁ hpos₁ => ?_
          refine (hR.empty_closed hw' (Or.inl rfl) hpos₁).bind fun at₂ hpos₂ => ?_
          exact Reaches.ok hpos₂
      | @arr w text items hw hitems =>
          simp only [append_assoc, cons_append] at hpos
          refine (hR.start_open hw rfl hpos).bind fun at₁ hpos₁ => ?_
          exact reaches_array hR ih starts_value hitems hpos₁
      | @emptyObj w w' hw hw' =>
          simp only [append_assoc, cons_append] at hpos
          refine (hR.start_open hw rfl hpos).bind fun at₁ hpos₁ => ?_
          refine (hR.empty_closed hw' (Or.inr rfl) hpos₁).bind fun at₂ hpos₂ => ?_
          exact Reaches.ok hpos₂
      | @obj w text entries hw hentries hkeys =>
          simp only [append_assoc, cons_append] at hpos
          refine (hR.start_open hw rfl hpos).bind fun at₁ hpos₁ => ?_
          exact reaches_object hR ih hentries hkeys hpos₁

/-- A reader accepts every value of its dialect with blanks behind it. -/
theorem read_eq_ok {budget : ℕ} {text w : Str} {v : Json} (hvalue : D.Value budget text v)
    (hw : D.Blank w) (hpos : pos 0 (bytes (text ++ w))) : R.read budget = .ok v := by
  have hdelimits : Delimits w := append_nil w ▸ delimits_blank hw delimits_nil
  obtain ⟨at₁, hread, hpos₁⟩ := reaches_value hR hvalue hdelimits hpos
  obtain ⟨at₂, hfinish, -⟩ := hR.finish_blank hw hpos₁
  rw [Reader.read, hread, ok_bind]
  dsimp only
  rw [hfinish, ok_bind]
  rfl

end Complete

end Bran.Document.Json
