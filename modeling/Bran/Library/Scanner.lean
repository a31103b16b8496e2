import Bran.Library.Utf8
import Bran.Library.Words

/-!
# Readers that walk over an input

A reader keeps a byte offset into its input and slices the input there, which stops the program
off a character boundary or past the end.  `pos at rest` says that an offset is a good one and
what remains behind it; `Yields` collects what a reader can do from there without a panic, and
`Reaches` names the one thing it does.
-/

namespace Scanner

open Text Words Validation List

variable {ε α β : Type}

/-! ## Slices -/

/-- The text behind a byte offset, if the offset stands between two characters. -/
def dropBytes : Str → ℕ → Option Str
  | s, 0 => some s
  | [], _ + 1 => none
  | c :: rest, offset + 1 =>
      if c.utf8Size ≤ offset + 1 then dropBytes rest (offset + 1 - c.utf8Size) else none

/-- `&text[offset..]`. -/
def sliceText (text : Str) (offset : ℕ) : Checked ε Str :=
  match dropBytes text offset with
  | some rest => .ok rest
  | none => .error .panicked

/-- The front of a text up to a byte length, if the length ends between two characters. -/
def takeBytes : Str → ℕ → Option Str
  | _, 0 => some []
  | [], _ + 1 => none
  | c :: rest, length + 1 =>
      if c.utf8Size ≤ length + 1 then
        (takeBytes rest (length + 1 - c.utf8Size)).map (c :: ·)
      else none

/-- `text.get(start..stop)`. -/
def getText (text : Str) (start stop : ℕ) : Option Str :=
  if start ≤ stop then (dropBytes text start).bind (takeBytes · (stop - start)) else none

/-- `&text[start..stop]`. -/
def sliceTextTo (text : Str) (start stop : ℕ) : Checked ε Str :=
  match getText text start stop with
  | some field => .ok field
  | none => .error .panicked

/-- `&bytes[offset..]`. -/
def sliceBytes (input : List UInt8) (offset : ℕ) : Checked ε (List UInt8) :=
  if offset ≤ input.length then .ok (input.drop offset) else .error .panicked

/-- The offset behind the bytes of a kind that stand at an offset. -/
def runOf (input : List UInt8) (keep : UInt8 → Bool) (offset : ℕ) : ℕ :=
  offset + ((input.drop offset).takeWhile keep).length

/-! ## Positions -/

/-- The offsets between two characters of a text. -/
def textPos (text : Str) (offset : ℕ) (rest : List UInt8) : Prop :=
  ∃ before after, text = before ++ after ∧ offset = byteLen before ∧ rest = bytes after

/-- The offsets between two bytes. -/
def bytesPos (input : List UInt8) (offset : ℕ) (rest : List UInt8) : Prop :=
  ∃ before, input = before ++ rest ∧ offset = before.length

/-- Behind a text that stands at a good offset there is a good offset. -/
def Advances (pos : ℕ → List UInt8 → Prop) : Prop :=
  ∀ {offset : ℕ} {front : Str} {rest : List UInt8}, pos offset (bytes front ++ rest) →
    pos (offset + byteLen front) rest

/-- A loop with fuel for more than nothing takes a round. -/
theorem exists_round {length rounds : ℕ} (h : length < rounds) :
    ∃ rest, rounds = 0 + rest + 1 :=
  Nat.exists_eq_add_of_lt (Nat.zero_lt_of_lt h)

theorem textPos_advances {text : Str} : Advances (textPos text) := by
  rintro offset front rest ⟨before, after, rfl, rfl, hrest⟩
  obtain ⟨tail, rfl, rfl⟩ := Utf8.exists_of_bytes_eq_append hrest.symm
  exact ⟨before ++ front, tail, (append_assoc _ _ _).symm, (byteLen_append _ _).symm, rfl⟩

theorem bytesPos_advances {input : List UInt8} : Advances (bytesPos input) := by
  rintro offset front rest ⟨before, rfl, rfl⟩
  refine ⟨before ++ bytes front, (append_assoc _ _ _).symm, ?_⟩
  rw [length_append, length_bytes]

theorem textPos_zero (text : Str) : textPos text 0 (bytes text) := ⟨[], text, rfl, rfl, rfl⟩

theorem bytesPos_zero (input : List UInt8) : bytesPos input 0 input := ⟨[], rfl, rfl⟩

theorem byteLen_cons (c : Char) (rest : Str) : byteLen (c :: rest) = c.utf8Size + byteLen rest := by
  rw [byteLen, map_cons, sum_cons, ← byteLen]

theorem dropBytes_append (before after : Str) :
    dropBytes (before ++ after) (byteLen before) = some after := by
  induction before with
  | nil => cases after <;> rfl
  | cons c before ih =>
      obtain ⟨size, hpos⟩ := Nat.exists_eq_succ_of_ne_zero (Nat.ne_of_gt c.utf8Size_pos)
      have hnext : c.utf8Size + byteLen before = size + byteLen before + 1 := by omega
      rw [cons_append, byteLen_cons, hnext, dropBytes, if_pos (by omega)]
      have hback : size + byteLen before + 1 - c.utf8Size = byteLen before := by omega
      rw [hback, ih]

theorem sliceText_eq {text : Str} {offset : ℕ} {after : Str}
    (h : textPos text offset (bytes after)) : (sliceText text offset : Checked ε Str) = .ok after := by
  obtain ⟨before, tail, rfl, rfl, hafter⟩ := h
  obtain rfl := bytes_injective hafter
  rw [sliceText, dropBytes_append]

theorem exists_of_textPos {text : Str} {offset : ℕ} {rest : List UInt8}
    (h : textPos text offset rest) : ∃ after, rest = bytes after := by
  obtain ⟨-, after, -, -, rfl⟩ := h
  exact ⟨after, rfl⟩

theorem takeBytes_append (field after : Str) :
    takeBytes (field ++ after) (byteLen field) = some field := by
  induction field with
  | nil => cases after <;> rfl
  | cons c field ih =>
      obtain ⟨size, hpos⟩ := Nat.exists_eq_succ_of_ne_zero (Nat.ne_of_gt c.utf8Size_pos)
      have hnext : c.utf8Size + byteLen field = size + byteLen field + 1 := by omega
      rw [cons_append, byteLen_cons, hnext, takeBytes, if_pos (by omega)]
      have hback : size + byteLen field + 1 - c.utf8Size = byteLen field := by omega
      rw [hback, ih, Option.map_some]

theorem takeBytes_eq_some {s field : Str} {length : ℕ} (h : takeBytes s length = some field) :
    ∃ after, s = field ++ after ∧ byteLen field = length := by
  induction s generalizing length field with
  | nil =>
      cases length with
      | zero =>
          obtain rfl := Option.some.inj h
          exact ⟨[], rfl, rfl⟩
      | succ length => cases h
  | cons c s ih =>
      cases length with
      | zero =>
          obtain rfl := Option.some.inj h
          exact ⟨c :: s, rfl, rfl⟩
      | succ length =>
          rw [takeBytes] at h
          split at h
          · next hsize =>
            obtain ⟨tail, htail, rfl⟩ := Option.map_eq_some_iff.mp h
            obtain ⟨after, rfl, hlength⟩ := ih htail
            refine ⟨after, rfl, ?_⟩
            rw [byteLen_cons, hlength]
            omega
          · cases h

theorem getText_eq {text : Str} {offset : ℕ} {field : Str} {rest : List UInt8}
    (h : textPos text offset (bytes field ++ rest)) :
    getText text offset (offset + byteLen field) = some field := by
  obtain ⟨before, after, rfl, rfl, hafter⟩ := h
  obtain ⟨tail, rfl, rfl⟩ := Utf8.exists_of_bytes_eq_append hafter.symm
  rw [getText, if_pos (Nat.le_add_right _ _), dropBytes_append, Option.bind_some,
    Nat.add_sub_cancel_left, takeBytes_append]

theorem getText_eq_some {text : Str} {offset length : ℕ} {field : Str} {rest : List UInt8}
    (h : textPos text offset rest) (hfield : getText text offset (offset + length) = some field) :
    ∃ rest', rest = bytes field ++ rest' ∧ byteLen field = length := by
  obtain ⟨before, after, rfl, rfl, rfl⟩ := h
  rw [getText, if_pos (Nat.le_add_right _ _), dropBytes_append, Option.bind_some,
    Nat.add_sub_cancel_left] at hfield
  obtain ⟨tail, rfl, hlength⟩ := takeBytes_eq_some hfield
  exact ⟨bytes tail, Utf8.bytes_append _ _, hlength⟩

theorem sliceBytes_eq {input rest : List UInt8} {offset : ℕ} (h : bytesPos input offset rest) :
    (sliceBytes input offset : Checked ε (List UInt8)) = .ok rest := by
  obtain ⟨before, rfl, rfl⟩ := h
  rw [sliceBytes, if_pos (by simp), drop_left]

theorem bytesPos_getElem? {input rest : List UInt8} {offset : ℕ} (h : bytesPos input offset rest)
    (index : ℕ) : input[offset + index]? = rest[index]? := by
  obtain ⟨before, rfl, rfl⟩ := h
  rw [getElem?_append_right (Nat.le_add_right _ _), Nat.add_sub_cancel_left]

theorem bytesPos_head {input rest : List UInt8} {offset : ℕ} (h : bytesPos input offset rest) :
    input[offset]? = rest[0]? := bytesPos_getElem? h 0

theorem bytesPos_succ {input rest : List UInt8} {offset : ℕ} {byte : UInt8}
    (h : bytesPos input offset (byte :: rest)) : bytesPos input (offset + 1) rest := by
  obtain ⟨before, rfl, rfl⟩ := h
  exact ⟨before ++ [byte], by simp, by simp⟩

theorem bytesPos_of_textPos {text : Str} {offset : ℕ} {rest : List UInt8}
    (h : textPos text offset rest) : bytesPos (bytes text) offset rest := by
  obtain ⟨before, after, rfl, rfl, rfl⟩ := h
  exact ⟨bytes before, Utf8.bytes_append _ _, (length_bytes before).symm⟩

/-! ## Runs of bytes -/

section Runs

variable {input rest : List UInt8} {offset : ℕ}

theorem bytesPos_drop (h : bytesPos input offset rest) : input.drop offset = rest := by
  obtain ⟨before, rfl, rfl⟩ := h
  exact drop_left

theorem bytesPos_append {front : List UInt8} (h : bytesPos input offset (front ++ rest)) :
    bytesPos input (offset + front.length) rest := by
  obtain ⟨before, rfl, rfl⟩ := h
  exact ⟨before ++ front, (append_assoc _ _ _).symm, length_append.symm⟩

/-- A run ends at a byte of another kind, or at the end. -/
theorem bytesPos_runOf (keep : UInt8 → Bool) (h : bytesPos input offset rest) :
    ∃ run rest', rest = run ++ rest' ∧ (∀ byte ∈ run, keep byte = true) ∧
      (∀ byte, rest'[0]? = some byte → keep byte = false) ∧
      runOf input keep offset = offset + run.length ∧
      bytesPos input (runOf input keep offset) rest' := by
  have hrest : rest.takeWhile keep ++ rest.dropWhile keep = rest := takeWhile_append_dropWhile
  have hrun : runOf input keep offset = offset + (rest.takeWhile keep).length := by
    rw [runOf, bytesPos_drop h]
  refine ⟨rest.takeWhile keep, rest.dropWhile keep, hrest.symm, ?_, ?_, hrun, ?_⟩
  · exact fun byte hbyte => mem_takeWhile_imp hbyte
  · intro byte hbyte
    have hhead := head?_dropWhile_not keep rest
    rw [head?_eq_getElem?, hbyte] at hhead
    simpa using hhead
  · rw [hrun]
    exact bytesPos_append (hrest.symm ▸ h)

theorem runOf_eq {keep : UInt8 → Bool} {run : List UInt8} (h : bytesPos input offset (run ++ rest))
    (hrun : ∀ byte ∈ run, keep byte = true)
    (hrest : ∀ byte, rest[0]? = some byte → keep byte = false) :
    runOf input keep offset = offset + run.length := by
  have htake : rest.takeWhile keep = [] := by
    cases rest with
    | nil => rfl
    | cons byte rest => rw [takeWhile_cons, hrest byte rfl, if_neg Bool.false_ne_true]
  rw [runOf, bytesPos_drop h, takeWhile_append_of_pos hrun, htake, append_nil]

end Runs

/-! ## What a reader does -/

/-- From here the reader refuses, or gives a value with what then remains: it does not panic. -/
def Yields (pos : ℕ → List UInt8 → Prop) (computation : Checked ε (α × ℕ))
    (post : α → List UInt8 → Prop) : Prop :=
  (∃ error, computation = .error (.refused error)) ∨
    ∃ value offset rest, computation = .ok (value, offset) ∧ pos offset rest ∧ post value rest

/-- From here the reader gives this value and leaves this rest. -/
def Reaches (pos : ℕ → List UInt8 → Prop) (computation : Checked ε (α × ℕ)) (value : α)
    (rest : List UInt8) : Prop :=
  ∃ offset, computation = .ok (value, offset) ∧ pos offset rest

/-- The reader gives this value and leaves this rest, or it refuses. -/
def Follows (pos : ℕ → List UInt8 → Prop) (computation : Checked ε (α × ℕ)) (value : α)
    (rest : List UInt8) (kept stopped : Prop) : Prop :=
  (kept ∧ Reaches pos computation value rest) ∨
    (stopped ∧ ∃ error, computation = .error (.refused error))

/-- What a computation does, without the reason of a refusal. -/
def forget : Checked ε α → Checked Unit α
  | .ok value => .ok value
  | .error (.refused _) => .error (.refused ())
  | .error .panicked => .error .panicked

section Rules

variable {pos : ℕ → List UInt8 → Prop} {computation : Checked ε (α × ℕ)}
  {next : α × ℕ → Checked ε (β × ℕ)} {post : α → List UInt8 → Prop}
  {post' : β → List UInt8 → Prop}

variable {value : α} {rest' : List UInt8}

theorem Yields.ok {offset : ℕ} {rest : List UInt8} (hpos : pos offset rest)
    (hpost : post value rest) : Yields pos (.ok (value, offset) : Checked ε (α × ℕ)) post :=
  Or.inr ⟨value, offset, rest, rfl, hpos, hpost⟩

theorem Yields.refused {error : ε} :
    Yields pos (.error (.refused error) : Checked ε (α × ℕ)) post := Or.inl ⟨error, rfl⟩

theorem Yields.bind (h : Yields pos computation post)
    (hnext : ∀ value offset rest, pos offset rest → post value rest →
      Yields pos (next (value, offset)) post') : Yields pos (computation >>= next) post' := by
  rcases h with ⟨error, rfl⟩ | ⟨value, offset, rest, rfl, hpos, hpost⟩
  · exact Or.inl ⟨error, rfl⟩
  · exact hnext value offset rest hpos hpost

theorem Yields.mono {weaker : α → List UInt8 → Prop} (h : Yields pos computation post)
    (hweaker : ∀ value rest, post value rest → weaker value rest) :
    Yields pos computation weaker := by
  rcases h with herror | ⟨value, offset, rest, hok, hpos, hpost⟩
  · exact Or.inl herror
  · exact Or.inr ⟨value, offset, rest, hok, hpos, hweaker value rest hpost⟩

theorem yields_failIf_bind {condition : Prop} [Decidable condition] {error : ε}
    {next : Unit → Checked ε (β × ℕ)} (hnext : ¬ condition → Yields pos (next ()) post') :
    Yields pos (failIf condition (.refused error) >>= next) post' := by
  by_cases h : condition
  · rw [failIf, if_pos h]
    exact Yields.refused
  · rw [failIf_bind_eq h]
    exact hnext h

theorem Reaches.ok {offset : ℕ} {rest : List UInt8} (hpos : pos offset rest) :
    Reaches pos (.ok (value, offset) : Checked ε (α × ℕ)) value rest := ⟨offset, rfl, hpos⟩

theorem Reaches.bind {value' : β} {rest : List UInt8} (h : Reaches pos computation value rest)
    (hnext : ∀ offset, pos offset rest → Reaches pos (next (value, offset)) value' rest') :
    Reaches pos (computation >>= next) value' rest' := by
  obtain ⟨offset, rfl, hpos⟩ := h
  exact hnext offset hpos

theorem Reaches.unique {value' : α} {rest : List UInt8} (h : Reaches pos computation value rest)
    (h' : Reaches pos computation value' rest') :
    value = value' := by
  obtain ⟨offset, rfl, -⟩ := h
  obtain ⟨offset', hok, -⟩ := h'
  exact (Prod.mk.inj (Except.ok.inj hok)).1

theorem forget_bind {first : Checked ε α} {then_ : α → Checked ε β} :
    forget (first >>= then_) = forget first >>= fun value => forget (then_ value) := by
  rcases first with (error | _) | value <;> rfl

theorem yields_forget (h : Yields pos (forget computation) post) :
    Yields pos computation post := by
  rcases computation with (error | _) | ⟨value, offset⟩
  · exact Yields.refused
  · rcases h with ⟨error, h⟩ | ⟨value, offset, rest, h, -⟩
    · cases h
    · cases h
  · rcases h with ⟨error, h⟩ | ⟨value', offset', rest, h, hpos, hpost⟩
    · cases h
    · obtain ⟨rfl, rfl⟩ := Prod.mk.inj (Except.ok.inj h)
      exact Yields.ok hpos hpost

theorem reaches_forget {rest : List UInt8} (h : Reaches pos (forget computation) value rest) :
    Reaches pos computation value rest := by
  obtain ⟨offset, h, hpos⟩ := h
  rcases computation with (error | _) | result
  · cases h
  · cases h
  · obtain rfl := Except.ok.inj h
    exact Reaches.ok hpos

theorem Yields.forget (h : Yields pos computation post) : Yields pos (forget computation) post := by
  rcases h with ⟨error, rfl⟩ | ⟨value, offset, rest, rfl, hpos, hpost⟩
  · exact Yields.refused
  · exact Yields.ok hpos hpost

theorem Reaches.forget {rest : List UInt8} (h : Reaches pos computation value rest) :
    Reaches pos (forget computation) value rest := by
  obtain ⟨offset, rfl, hpos⟩ := h
  exact Reaches.ok hpos

theorem Follows.bind {value' : β} {rest : List UInt8} {kept kept' stopped : Prop}
    (h : Follows pos computation value rest kept stopped) (hnext : kept → ∀ offset, pos offset rest
    → Follows pos (next (value, offset)) value' rest' kept' stopped) :
    Follows pos (computation >>= next) value' rest' kept' stopped := by
  rcases h with ⟨hkept, offset, rfl, hpos⟩ | ⟨hstopped, error, rfl⟩
  · exact hnext hkept offset hpos
  · exact Or.inr ⟨hstopped, error, rfl⟩

theorem Reaches.follows {value' : β} {rest : List UInt8} {kept stopped : Prop}
    (h : Reaches pos computation value rest) (hnext : ∀ offset, pos offset rest → Follows pos (next
    (value, offset)) value' rest' kept stopped) :
    Follows pos (computation >>= next) value' rest' kept stopped := by
  obtain ⟨offset, rfl, hpos⟩ := h
  exact hnext offset hpos

theorem Follows.mono {rest : List UInt8} {kept kept' stopped : Prop}
    (h : Follows pos computation value rest kept stopped) (hkept : kept → kept') :
    Follows pos computation value rest kept' stopped := by
  rcases h with ⟨h, hreaches⟩ | hstopped
  · exact Or.inl ⟨hkept h, hreaches⟩
  · exact Or.inr hstopped

end Rules

end Scanner
