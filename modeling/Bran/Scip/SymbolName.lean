import Bran.Library.Text

/-!
# Names of SCIP symbols

`symbol_name` of `scip.rs` and the grammar of the symbols that it reads.  Names of namespaces,
types, terms, macros, metas and methods are parsed; parameters and type parameters are skipped by a
search for the bracket that closes them, which a name in backticks may itself hold.
-/

namespace Bran.Scip.Symbol

open Text List
open Option (some.inj)
open Prod (mk.inj)

/-! ## What the source computes -/

variable (isAlphanumeric : Char → Bool)

/-- `char::is_control`. -/
def isControl (c : Char) : Bool := c.toNat < 0x20 || (0x7F ≤ c.toNat && c.toNat ≤ 0x9F)

/-- A character of a name without backticks. -/
def isIdentifier (c : Char) : Bool := isAlphanumeric c || c ∈ "_+-$".toList

structure SymbolName where
  name : Str
  qualifiedName : Str
  navigable : Bool
  deriving DecidableEq

/-- One turn of the loop over the fields in front of the descriptors: a double space is an escaped
space. -/
def skipField : Str → Option Str
  | [] => none
  | ' ' :: ' ' :: rest => skipField rest
  | ' ' :: rest => some rest
  | _ :: rest => skipField rest

/-- The loop over the fields. -/
def skipFields : ℕ → Str → Option Str
  | 0, rest => some rest
  | count + 1, rest => skipField rest >>= skipFields count

/-- The loop of `descriptor_name` behind a backtick: a double backtick is an escaped backtick. -/
def unescape : Str → Option (Str × Str)
  | [] => none
  | '`' :: '`' :: rest => (unescape rest).map fun read => ('`' :: read.1, read.2)
  | '`' :: rest => some ([], rest)
  | c :: rest => (unescape rest).map fun read => (c :: read.1, read.2)

def descriptorName (text : Str) : Option (Str × Str) :=
  match text with
  | '`' :: rest => do
      let (name, after) ← unescape rest
      if name.any isControl then none else some (name, after)
  | text =>
      let name := text.takeWhile (isIdentifier isAlphanumeric)
      if name = [] then none else some (name, text.dropWhile (isIdentifier isAlphanumeric))

/-- One turn of the loop over the descriptors: the name that it adds, whether it is navigable and
what is left. -/
def turn (rest : Str) : Option (Option Str × Bool × Str) :=
  match rest with
  | '[' :: rest => (splitOnce ']' rest).map fun halves => (none, false, halves.2)
  | '(' :: rest => (splitOnce ')' rest).map fun halves => (none, false, halves.2)
  | rest => do
      let (name, after) ← descriptorName isAlphanumeric rest
      match after with
      | [] => none
      | suffix :: after =>
          if suffix ∈ ['/', '#', '.', '!'] then some (some name, true, after)
          else if suffix = '(' then
            (splitOnceStr [')', '.'] after).map fun halves => (some name, true, halves.2)
          else if suffix = ':' then some (none, false, after)
          else none

theorem length_unescape {text name after : Str} (h : unescape text = some (name, after)) :
    after.length < text.length := by
  induction text using unescape.induct generalizing name with
  | case1 => cases h
  | case2 rest ih =>
      rw [unescape] at h
      obtain ⟨⟨name', after'⟩, hread, heq⟩ := Option.map_eq_some_iff.mp h
      obtain ⟨-, rfl⟩ := mk.inj heq
      have hlength := ih hread
      rw [length_cons, length_cons]
      omega
  | case3 rest hnot =>
      rw [unescape] at h
      · obtain ⟨-, rfl⟩ := mk.inj (some.inj h)
        exact Nat.lt_succ_self _
      · exact hnot
  | case4 c rest hdouble hsingle ih =>
      rw [unescape] at h
      · obtain ⟨⟨name', after'⟩, hread, heq⟩ := Option.map_eq_some_iff.mp h
        obtain ⟨-, rfl⟩ := mk.inj heq
        exact (ih hread).trans (Nat.lt_succ_self _)
      · exact hdouble
      · exact hsingle

variable {isAlphanumeric} in
theorem length_descriptorName {text name after : Str}
    (h : descriptorName isAlphanumeric text = some (name, after)) :
    after.length ≤ text.length := by
  unfold descriptorName at h
  split at h
  · obtain ⟨⟨name', after'⟩, hread, hname⟩ := Option.bind_eq_some_iff.mp h
    dsimp only at hname
    split_ifs at hname with hcontrol
    obtain ⟨-, rfl⟩ := mk.inj (some.inj hname)
    exact (length_unescape hread).le.trans (Nat.le_succ _)
  · dsimp only at h
    split_ifs at h with hempty
    obtain ⟨-, rfl⟩ := mk.inj (some.inj h)
    exact (dropWhile_suffix _).length_le

theorem length_splitOnce {c : Char} {text head tail : Str}
    (h : splitOnce c text = some (head, tail)) : tail.length < text.length := by
  rw [(splitOnce_eq_some h).1, length_append, length_cons]
  omega

theorem length_splitOnceStr {pattern text head tail : Str}
    (h : splitOnceStr pattern text = some (head, tail)) : tail.length ≤ text.length := by
  induction text generalizing head with
  | nil =>
      rw [splitOnceStr] at h
      split_ifs at h
      obtain ⟨-, rfl⟩ := mk.inj (some.inj h)
      exact le_rfl
  | cons c text ih =>
      rw [splitOnceStr] at h
      split at h
      · next after hstrip =>
        obtain ⟨-, rfl⟩ := mk.inj (some.inj h)
        rw [stripStart_eq_some_iff.mp hstrip, length_append]
        exact Nat.le_add_left _ _
      · obtain ⟨⟨head', tail'⟩, hsplit, heq⟩ := Option.map_eq_some_iff.mp h
        obtain ⟨-, rfl⟩ := mk.inj heq
        exact (ih hsplit).trans (Nat.le_succ _)

variable {isAlphanumeric} in
theorem length_turn {rest after : Str} {name : Option Str} {navigable : Bool}
    (h : turn isAlphanumeric rest = some (name, navigable, after)) :
    after.length < rest.length := by
  unfold turn at h
  split at h
  · obtain ⟨⟨head, tail⟩, hsplit, heq⟩ := Option.map_eq_some_iff.mp h
    obtain rfl : tail = after := (mk.inj (mk.inj heq).2).2
    exact (length_splitOnce hsplit).trans (Nat.lt_succ_self _)
  · obtain ⟨⟨head, tail⟩, hsplit, heq⟩ := Option.map_eq_some_iff.mp h
    obtain rfl : tail = after := (mk.inj (mk.inj heq).2).2
    exact (length_splitOnce hsplit).trans (Nat.lt_succ_self _)
  · obtain ⟨⟨name', behind⟩, hname, h⟩ := Option.bind_eq_some_iff.mp h
    have hlength := length_descriptorName hname
    dsimp only at h
    split at h
    · cases h
    · next suffix tail =>
      rw [length_cons] at hlength
      split_ifs at h with hnavigable hmethod hmeta
      · obtain rfl : tail = after := (mk.inj (mk.inj (some.inj h)).2).2
        omega
      · obtain ⟨⟨head, tail'⟩, hsplit, heq⟩ := Option.map_eq_some_iff.mp h
        obtain rfl : tail' = after := (mk.inj (mk.inj heq).2).2
        have htail := length_splitOnceStr hsplit
        omega
      · obtain rfl : tail = after := (mk.inj (mk.inj (some.inj h)).2).2
        omega

/-- The loop over the descriptors. -/
def readDescriptors (names : List Str) (navigable : Bool) (rest : Str) :
    Option (List Str × Bool) :=
  if rest = [] then some (names, navigable)
  else
    match _h : turn isAlphanumeric rest with
    | none => none
    | some (name, navigable, after) => readDescriptors (names ++ name.toList) navigable after
termination_by rest.length
decreasing_by exact length_turn _h

def symbolName (symbol : Str) : Option SymbolName :=
  if "local ".toList.isPrefixOf symbol then none
  else do
    let rest ← skipFields 4 symbol
    let (names, navigable) ← readDescriptors isAlphanumeric [] false rest
    let name ← names.getLast?
    some { name, qualifiedName := join [':', ':'] names, navigable }

/-! ## The grammar -/

/-- What stands for a field in front of the descriptors: spaces are doubled. -/
def escapeSpaces (text : Str) : Str := text.flatMap fun c => if c = ' ' then [' ', ' '] else [c]

/-- What stands between the backticks of a name: backticks are doubled. -/
def escapeTicks (name : Str) : Str := name.flatMap fun c => if c = '`' then ['`', '`'] else [c]

/-- The scheme, the manager, the name or the version of a package. -/
structure Field where
  text : Str
  nonempty : text ≠ []
  unspaced : text.head? ≠ some ' '

/-- A name, with backticks or without. -/
inductive Identifier where
  | simple (name : Str) (nonempty : name ≠ []) (plain : name.all (isIdentifier isAlphanumeric))
  | escaped (name : Str) (printable : name.any isControl = false)

/-- What follows a name that is no method's. -/
inductive Suffix where
  | scope
  | type
  | term
  | macros
  | metas
  deriving DecidableEq

inductive Descriptor where
  | suffixed (id : Identifier isAlphanumeric) (suffix : Suffix)
  /-- A method, with an empty disambiguator for none. -/
  | method (id : Identifier isAlphanumeric) (disambiguator : Str)
      (plain : disambiguator.all (isIdentifier isAlphanumeric))
  | parameter (id : Identifier isAlphanumeric)
  | typeParameter (id : Identifier isAlphanumeric)

structure GlobalSymbol where
  scheme : Field
  manager : Field
  packageName : Field
  version : Field
  descriptors : List (Descriptor isAlphanumeric)
  notLocal : ¬ "local".toList <+: scheme.text
  nonempty : descriptors ≠ []

variable {isAlphanumeric}

def Identifier.name : Identifier isAlphanumeric → Str
  | .simple name _ _ => name
  | .escaped name _ => name

def Identifier.written : Identifier isAlphanumeric → Str
  | .simple name _ _ => name
  | .escaped name _ => '`' :: (escapeTicks name ++ ['`'])

def Suffix.char : Suffix → Char
  | .scope => '/'
  | .type => '#'
  | .term => '.'
  | .macros => '!'
  | .metas => ':'

namespace Descriptor

def written : Descriptor isAlphanumeric → Str
  | .suffixed id suffix => id.written ++ [suffix.char]
  | .method id disambiguator _ => id.written ++ ('(' :: (disambiguator ++ [')', '.']))
  | .parameter id => '(' :: (id.written ++ [')'])
  | .typeParameter id => '[' :: (id.written ++ [']'])

/-- The name of a namespace, type, term, macro or method. -/
def navigableName : Descriptor isAlphanumeric → Option Str
  | .suffixed id suffix => if suffix = .metas then none else some id.name
  | .method id _ _ => some id.name
  | .parameter _ => none
  | .typeParameter _ => none

def navigable (descriptor : Descriptor isAlphanumeric) : Bool := descriptor.navigableName.isSome

/-- A parameter does not hold the bracket that closes it. -/
def Unclosed : Descriptor isAlphanumeric → Prop
  | .parameter id => ')' ∉ id.name
  | .typeParameter id => ']' ∉ id.name
  | .suffixed _ _ => True
  | .method _ _ _ => True

end Descriptor

def GlobalSymbol.written (symbol : GlobalSymbol isAlphanumeric) : Str :=
  escapeSpaces symbol.scheme.text ++ ' ' :: (escapeSpaces symbol.manager.text ++
    ' ' :: (escapeSpaces symbol.packageName.text ++ ' ' :: (escapeSpaces symbol.version.text ++
      ' ' :: symbol.descriptors.flatMap Descriptor.written)))

/-- The names of the navigable descriptors. -/
def GlobalSymbol.names (symbol : GlobalSymbol isAlphanumeric) : List Str :=
  symbol.descriptors.filterMap Descriptor.navigableName

variable (isAlphanumeric) in
/-- On ASCII `char::is_alphanumeric` is the letters and the digits. -/
def AgreesOnAscii : Prop := ∀ c : Char, c.toNat < 128 → isAlphanumeric c = c.isAlphanum

/-! ## Fields -/

theorem skipField_escapeSpaces {rest : Str} (hrest : rest.head? ≠ some ' ') (text : Str) :
    skipField (escapeSpaces text ++ ' ' :: rest) = some rest := by
  induction text with
  | nil =>
      cases rest with
      | nil => rfl
      | cons c rest =>
          have hc : c ≠ ' ' := fun hc => hrest (congrArg some hc)
          show skipField (' ' :: c :: rest) = _
          rw [skipField]
          intro tail heq
          exact hc (List.cons.inj heq).1
  | cons c text ih =>
      rw [escapeSpaces, flatMap_cons, append_assoc]
      by_cases hc : c = ' '
      · rw [if_pos hc]
        exact ih
      · rw [if_neg hc]
        show skipField (c :: _) = _
        rw [skipField]
        · exact ih
        · intro tail heq
          exact absurd heq hc
        · intro heq
          exact absurd heq hc

theorem head?_escapeSpaces (field : Field) (rest : Str) :
    (escapeSpaces field.text ++ rest).head? ≠ some ' ' := by
  obtain ⟨text, nonempty, unspaced⟩ := field
  obtain ⟨c, text, rfl⟩ := exists_cons_of_ne_nil nonempty
  have hc : c ≠ ' ' := fun hc => unspaced (congrArg some hc)
  rw [escapeSpaces, flatMap_cons, if_neg hc]
  exact fun h => hc (some.inj h)

/-- A word without spaces in front of what is written was in front of the field. -/
theorem prefix_of_escapeSpaces {word text rest : Str} (hword : ' ' ∉ word)
    (h : word <+: escapeSpaces text ++ ' ' :: rest) : word <+: text := by
  induction word generalizing text with
  | nil => exact nil_prefix
  | cons w word ih =>
      rw [mem_cons, not_or] at hword
      cases text with
      | nil => exact absurd (cons_prefix_cons.mp h).1.symm hword.1
      | cons c text =>
          rw [escapeSpaces, flatMap_cons, append_assoc] at h
          by_cases hc : c = ' '
          · rw [if_pos hc] at h
            exact absurd (cons_prefix_cons.mp h).1.symm hword.1
          · rw [if_neg hc] at h
            obtain ⟨hw, hbehind⟩ := cons_prefix_cons.mp h
            exact cons_prefix_cons.mpr ⟨hw, ih hword.2 hbehind⟩

/-! ## Names -/

theorem not_isIdentifier (hascii : AgreesOnAscii isAlphanumeric) {c : Char}
    (hc : c ∈ [' ', '`', '[', ']', '(', ')', '/', '#', '.', '!', ':']) :
    isIdentifier isAlphanumeric c = false := by
  have hall : ∀ c ∈ [' ', '`', '[', ']', '(', ')', '/', '#', '.', '!', ':'],
      c.toNat < 128 ∧ c.isAlphanum = false ∧ c ∉ "_+-$".toList := by decide
  obtain ⟨hlt, halphanum, hother⟩ := hall c hc
  rw [isIdentifier, hascii c hlt, halphanum, Bool.false_or]
  exact decide_eq_false hother

theorem unescape_escapeTicks {rest : Str} (hrest : rest.head? ≠ some '`') (name : Str) :
    unescape (escapeTicks name ++ '`' :: rest) = some (name, rest) := by
  induction name with
  | nil =>
      cases rest with
      | nil => rfl
      | cons c rest =>
          have hc : c ≠ '`' := fun hc => hrest (congrArg some hc)
          show unescape ('`' :: c :: rest) = _
          rw [unescape]
          intro tail heq
          exact hc (List.cons.inj heq).1
  | cons c name ih =>
      rw [escapeTicks, flatMap_cons, append_assoc]
      by_cases hc : c = '`'
      · rw [if_pos hc]
        show unescape ('`' :: '`' :: (escapeTicks name ++ '`' :: rest)) = _
        rw [unescape, ih, hc]
        rfl
      · rw [if_neg hc]
        show unescape (c :: (escapeTicks name ++ '`' :: rest)) = _
        rw [unescape, ih]
        · rfl
        · intro tail heq
          exact absurd heq hc
        · intro heq
          exact absurd heq hc

/-- A name starts with a character of its own or with a backtick. -/
theorem Identifier.written_eq_cons (id : Identifier isAlphanumeric) : ∃ c rest,
    id.written = c :: rest ∧ (c = '`' ∨ isIdentifier isAlphanumeric c = true) := by
  cases id with
  | simple name nonempty plain =>
      obtain ⟨c, rest, rfl⟩ := exists_cons_of_ne_nil nonempty
      rw [all_cons, Bool.and_eq_true] at plain
      exact ⟨c, rest, rfl, Or.inr plain.1⟩
  | escaped name printable => exact ⟨'`', _, rfl, Or.inl rfl⟩

theorem Identifier.mem_written {id : Identifier isAlphanumeric} {c : Char}
    (hc : c ∈ id.written) : c = '`' ∨ c ∈ id.name := by
  cases id with
  | simple name nonempty plain => exact Or.inr hc
  | escaped name printable =>
      rcases mem_cons.mp hc with rfl | hc
      · exact Or.inl rfl
      rcases mem_append.mp hc with hc | hc
      · obtain ⟨d, hd, hcd⟩ := mem_flatMap.mp hc
        split_ifs at hcd with htick
        · simp only [mem_cons, not_mem_nil, or_false, or_self] at hcd
          exact Or.inl hcd
        · rw [mem_singleton] at hcd
          exact Or.inr (hcd ▸ hd)
      · exact Or.inl (mem_singleton.mp hc)

/-- A name is read up to the character behind it. -/
theorem descriptorName_written (hascii : AgreesOnAscii isAlphanumeric)
    (id : Identifier isAlphanumeric) {suffix : Char} (rest : Str)
    (hsuffix : suffix ≠ '`' ∧ isIdentifier isAlphanumeric suffix = false) :
    descriptorName isAlphanumeric (id.written ++ suffix :: rest) =
      some (id.name, suffix :: rest) := by
  cases id with
  | simple name nonempty plain =>
      have hall : ∀ c ∈ name, isIdentifier isAlphanumeric c = true := all_eq_true.mp plain
      have htake : (name ++ suffix :: rest).takeWhile (isIdentifier isAlphanumeric) = name := by
        rw [takeWhile_append_of_pos hall,
          takeWhile_cons_of_neg (by rw [hsuffix.2]; decide), append_nil]
      have hdrop : (name ++ suffix :: rest).dropWhile (isIdentifier isAlphanumeric) =
          suffix :: rest := by
        rw [dropWhile_append_of_pos hall,
          dropWhile_cons_of_neg (by rw [hsuffix.2]; decide)]
      show descriptorName isAlphanumeric (name ++ suffix :: rest) = some (name, suffix :: rest)
      unfold descriptorName
      split
      · next tail heq =>
        obtain ⟨c, name, rfl⟩ := exists_cons_of_ne_nil nonempty
        obtain rfl : c = '`' := (List.cons.inj heq).1
        have htick := hall '`' mem_cons_self
        rw [not_isIdentifier hascii (by decide)] at htick
        exact absurd htick Bool.false_ne_true
      · dsimp only
        rw [htake, hdrop, if_neg nonempty]
  | escaped name printable =>
      have hhead : (suffix :: rest).head? ≠ some '`' := fun h => hsuffix.1 (some.inj h)
      have hread := unescape_escapeTicks hhead name
      show descriptorName isAlphanumeric
        ('`' :: (escapeTicks name ++ ['`']) ++ suffix :: rest) = some (name, suffix :: rest)
      rw [cons_append, append_assoc]
      show (unescape (escapeTicks name ++ '`' :: suffix :: rest) >>= _) = _
      rw [hread]
      show (if name.any isControl = true then none else some (name, suffix :: rest)) = _
      rw [printable]
      rfl

/-! ## Descriptors -/

theorem turn_of_name {rest name after : Str} {suffix : Char} (hbracket : rest.head? ≠ some '[')
    (hparen : rest.head? ≠ some '(')
    (hname : descriptorName isAlphanumeric rest = some (name, suffix :: after)) :
    turn isAlphanumeric rest =
      if suffix ∈ ['/', '#', '.', '!'] then some (some name, true, after)
      else if suffix = '(' then
        (splitOnceStr [')', '.'] after).map fun halves => (some name, true, halves.2)
      else if suffix = ':' then some (none, false, after)
      else none := by
  unfold turn
  split
  · exact absurd rfl hbracket
  · exact absurd rfl hparen
  · rw [hname]
    rfl

/-- One turn reads one descriptor. -/
theorem turn_written (hascii : AgreesOnAscii isAlphanumeric)
    {descriptor : Descriptor isAlphanumeric} (h : descriptor.Unclosed) (rest : Str) :
    turn isAlphanumeric (descriptor.written ++ rest) =
      some (descriptor.navigableName, descriptor.navigable, rest) := by
  have hstart : ∀ (id : Identifier isAlphanumeric) (tail : Str) (c : Char),
      c ∈ ['[', '('] → (id.written ++ tail).head? ≠ some c := by
    intro id tail c hc
    obtain ⟨first, behind, hwritten, hfirst⟩ := id.written_eq_cons
    rw [hwritten]
    intro heq
    obtain rfl := some.inj heq
    rcases hfirst with rfl | hfirst
    · exact absurd hc (by decide)
    · have hnot : isIdentifier isAlphanumeric first = false := by
        apply not_isIdentifier hascii
        simp only [mem_cons, not_mem_nil, or_false] at hc ⊢
        tauto
      exact absurd (hfirst.symm.trans hnot) (by decide)
  cases descriptor with
  | suffixed id suffix =>
      have hsuffix : suffix.char ≠ '`' ∧ isIdentifier isAlphanumeric suffix.char = false := by
        cases suffix <;> exact ⟨by decide, not_isIdentifier hascii (by decide)⟩
      have hsplit : (Descriptor.suffixed id suffix).written ++ rest =
          id.written ++ suffix.char :: rest := append_assoc _ _ _
      rw [hsplit, turn_of_name (hstart _ _ _ (by decide)) (hstart _ _ _ (by decide))
        (descriptorName_written hascii id rest hsuffix)]
      cases suffix <;> rfl
  | method id disambiguator plain =>
      have hparen : ')' ∉ disambiguator := by
        intro hmem
        have hread := all_eq_true.mp plain _ hmem
        rw [not_isIdentifier hascii (by decide)] at hread
        exact absurd hread Bool.false_ne_true
      have hsplit : (Descriptor.method id disambiguator plain).written ++ rest =
          id.written ++ '(' :: (disambiguator ++ ([')', '.'] ++ rest)) := by
        simp [Descriptor.written]
      have hclose : splitOnceStr [')', '.'] ([')', '.'] ++ rest) = some ([], rest) := by
        show splitOnceStr [')', '.'] (')' :: ('.' :: rest)) = _
        have hstrip : stripStart [')', '.'] (')' :: '.' :: rest) = some rest :=
          stripStart_eq_some_iff.mpr rfl
        rw [splitOnceStr, hstrip]
      rw [hsplit, turn_of_name (hstart _ _ _ (by decide)) (hstart _ _ _ (by decide))
        (descriptorName_written hascii id _ ⟨by decide, not_isIdentifier hascii (by decide)⟩),
        splitOnceStr_append hparen, hclose]
      rfl
  | parameter id =>
      have hparen : ')' ∉ id.written :=
        fun hmem => (Identifier.mem_written hmem).elim (by decide) h
      have hsplit : (Descriptor.parameter id).written ++ rest =
          '(' :: (id.written ++ ')' :: rest) := by
        simp [Descriptor.written]
      rw [hsplit, turn, splitOnce_append hparen]
      rfl
  | typeParameter id =>
      have hbracket : ']' ∉ id.written :=
        fun hmem => (Identifier.mem_written hmem).elim (by decide) h
      have hsplit : (Descriptor.typeParameter id).written ++ rest =
          '[' :: (id.written ++ ']' :: rest) := by
        simp [Descriptor.written]
      rw [hsplit, turn, splitOnce_append hbracket]
      rfl

theorem readDescriptors_turn {names : List Str} {navigable navigable' : Bool} {rest after : Str}
    {name : Option Str} (hne : rest ≠ [])
    (hturn : turn isAlphanumeric rest = some (name, navigable', after)) :
    readDescriptors isAlphanumeric names navigable rest =
      readDescriptors isAlphanumeric (names ++ name.toList) navigable' after := by
  rw [readDescriptors, if_neg hne]
  split
  · next hnone => exact (nomatch hnone.symm.trans hturn)
  · next hsome =>
    obtain ⟨rfl, heq⟩ := mk.inj (some.inj (hsome.symm.trans hturn))
    obtain ⟨rfl, rfl⟩ := mk.inj heq
    rfl

theorem readDescriptors_nil (names : List Str) (navigable : Bool) :
    readDescriptors isAlphanumeric names navigable [] = some (names, navigable) := by
  rw [readDescriptors, if_pos rfl]

theorem written_ne_nil (descriptor : Descriptor isAlphanumeric) : descriptor.written ≠ [] := by
  cases descriptor with
  | suffixed id suffix => exact append_ne_nil_of_right_ne_nil _ (cons_ne_nil _ _)
  | method id disambiguator plain =>
      exact append_ne_nil_of_right_ne_nil _ (cons_ne_nil _ _)
  | parameter id | typeParameter id => exact cons_ne_nil _ _

theorem readDescriptors_written (hascii : AgreesOnAscii isAlphanumeric)
    {descriptors : List (Descriptor isAlphanumeric)} (h : ∀ d ∈ descriptors, d.Unclosed)
    (names : List Str) (navigable : Bool) :
    readDescriptors isAlphanumeric names navigable (descriptors.flatMap Descriptor.written) =
      some (names ++ descriptors.filterMap Descriptor.navigableName,
        (descriptors.getLast?.map Descriptor.navigable).getD navigable) := by
  induction descriptors generalizing names navigable with
  | nil =>
      rw [flatMap_nil, readDescriptors_nil, filterMap_nil, append_nil]
      rfl
  | cons descriptor descriptors ih =>
      obtain ⟨hhead, hrest⟩ := forall_mem_cons.mp h
      have hne : descriptor.written ++ descriptors.flatMap Descriptor.written ≠ [] :=
        append_ne_nil_of_left_ne_nil (written_ne_nil descriptor) _
      have hturn := turn_written hascii hhead (descriptors.flatMap Descriptor.written)
      rw [flatMap_cons, readDescriptors_turn hne hturn, ih hrest, append_assoc]
      congr 2
      · cases hname : descriptor.navigableName <;> simp [hname]
      · cases descriptors with
        | nil => rfl
        | cons next descriptors =>
            rw [getLast?_cons_cons, getLast?_eq_some_getLast (cons_ne_nil _ _)]
            rfl

/-! ## Symbols -/

theorem head?_descriptors (hascii : AgreesOnAscii isAlphanumeric)
    (descriptors : List (Descriptor isAlphanumeric)) :
    (descriptors.flatMap Descriptor.written).head? ≠ some ' ' := by
  have hname : ∀ (id : Identifier isAlphanumeric) (tail : Str),
      (id.written ++ tail).head? ≠ some ' ' := by
    intro id tail
    obtain ⟨first, behind, hwritten, hfirst⟩ := id.written_eq_cons
    rw [hwritten]
    intro heq
    obtain rfl := some.inj heq
    rcases hfirst with hfirst | hfirst
    · exact absurd hfirst (by decide)
    · rw [not_isIdentifier hascii (by decide)] at hfirst
      exact absurd hfirst Bool.false_ne_true
  cases descriptors with
  | nil => exact nofun
  | cons descriptor descriptors =>
      rw [flatMap_cons]
      cases descriptor with
      | suffixed id suffix | method id disambiguator plain =>
          rw [Descriptor.written, append_assoc]
          exact hname _ _
      | parameter id | typeParameter id => exact fun h => absurd (some.inj h) (by decide)

theorem skipFields_written (hascii : AgreesOnAscii isAlphanumeric)
    (symbol : GlobalSymbol isAlphanumeric) :
    skipFields 4 symbol.written = some (symbol.descriptors.flatMap Descriptor.written) := by
  have hdescriptors := head?_descriptors hascii symbol.descriptors
  simp only [skipFields, GlobalSymbol.written]
  rw [skipField_escapeSpaces (head?_escapeSpaces symbol.manager _)]
  show skipField _ >>= _ = _
  rw [skipField_escapeSpaces (head?_escapeSpaces symbol.packageName _)]
  show skipField _ >>= _ = _
  rw [skipField_escapeSpaces (head?_escapeSpaces symbol.version _)]
  show skipField _ >>= _ = _
  rw [skipField_escapeSpaces hdescriptors]
  rfl

/-- The name of a symbol is read off its grammar as long as no parameter holds the bracket that
closes it, and a local symbol has none. -/
theorem symbolName_written (hascii : AgreesOnAscii isAlphanumeric) :
    (∀ symbol : GlobalSymbol isAlphanumeric, (∀ d ∈ symbol.descriptors, d.Unclosed) →
      (∃ d ∈ symbol.descriptors, d.navigable = true) →
      ∃ name, symbol.names.getLast? = some name ∧
        symbolName isAlphanumeric symbol.written =
          some ⟨name, join [':', ':'] symbol.names,
            (symbol.descriptors.getLast symbol.nonempty).navigable⟩) ∧
      ∀ id, symbolName isAlphanumeric ("local ".toList ++ id) = none := by
  refine ⟨fun symbol hunclosed hnavigable => ?_, fun id => ?_⟩
  · have hnames : symbol.names ≠ [] := by
      obtain ⟨descriptor, hmem, hname⟩ := hnavigable
      obtain ⟨name, hname⟩ := Option.isSome_iff_exists.mp hname
      exact ne_nil_of_mem (mem_filterMap.mpr ⟨descriptor, hmem, hname⟩)
    have hglobal : ¬ "local ".toList.isPrefixOf symbol.written = true := by
      intro hlocal
      have hword : "local".toList <+: symbol.written :=
        (prefix_append "local".toList [' ']).trans (List.isPrefixOf_iff_prefix.mp hlocal)
      exact symbol.notLocal (prefix_of_escapeSpaces (by decide) hword)
    have hlast : symbol.descriptors.getLast? =
        some (symbol.descriptors.getLast symbol.nonempty) := getLast?_eq_some_getLast _
    refine ⟨symbol.names.getLast hnames, getLast?_eq_some_getLast _, ?_⟩
    rw [symbolName, if_neg hglobal, skipFields_written hascii]
    show readDescriptors isAlphanumeric [] false _ >>= _ = _
    rw [readDescriptors_written hascii hunclosed, hlast]
    show symbol.names.getLast? >>= _ = _
    rw [getLast?_eq_some_getLast hnames]
    rfl
  · have hlocal : "local ".toList.isPrefixOf ("local ".toList ++ id) = true :=
      isPrefixOf_iff_prefix.mpr (prefix_append _ _)
    rw [symbolName, if_pos hlocal]

/-! ## A bracket in a name -/

theorem agreesOnAscii_isAlphanum : AgreesOnAscii Char.isAlphanum := fun _ _ => rfl

def letter (c : Char) (h : c ≠ ' ') : Field :=
  ⟨[c], cons_ne_nil _ _, fun heq => h (Option.some.inj heq)⟩

/-- A symbol in a package of one letter names. -/
def inPackage (descriptors : List (Descriptor Char.isAlphanum)) (h : descriptors ≠ []) :
    GlobalSymbol Char.isAlphanum where
  scheme := letter 's' (by decide)
  manager := letter 'm' (by decide)
  packageName := letter 'p' (by decide)
  version := letter 'v' (by decide)
  descriptors
  notLocal := by decide
  nonempty := h

def typeAndMethod : GlobalSymbol Char.isAlphanum :=
  inPackage [.suffixed (.escaped ['a', '`', ']'] rfl) .type,
    .method (.simple ['f'] (cons_ne_nil _ _) rfl) ['+', '1'] rfl] (cons_ne_nil _ _)

theorem symbolName_typeAndMethod : symbolName Char.isAlphanum typeAndMethod.written =
    some ⟨['f'], "a`]::f".toList, true⟩ := by
  have hunclosed : ∀ d ∈ typeAndMethod.descriptors, d.Unclosed := by
    intro d hd
    rcases mem_cons.mp hd with rfl | hd
    · exact trivial
    · obtain rfl := mem_singleton.mp hd
      exact trivial
  obtain ⟨name, hname, hsymbol⟩ := (symbolName_written agreesOnAscii_isAlphanum).1 typeAndMethod
    hunclosed ⟨_, mem_cons_self, rfl⟩
  obtain rfl := Option.some.inj hname
  exact hsymbol

/-- A type with a type parameter whose name holds the bracket that closes it. -/
def bracketInName : GlobalSymbol Char.isAlphanum :=
  inPackage [.suffixed (.simple ['T'] (cons_ne_nil _ _) rfl) .type,
    .typeParameter (.escaped "]x#[".toList rfl)] (cons_ne_nil _ _)

/-- What stands behind the bracket is read as a type. -/
theorem symbolName_bracketInName :
    symbolName Char.isAlphanum bracketInName.written =
        some ⟨['x'], "T::x".toList, false⟩ ∧
      bracketInName.names = [['T']] := by
  refine ⟨?_, rfl⟩
  have hskip : skipFields 4 bracketInName.written = some "T#[`]x#[`]".toList := by decide
  have hglobal : ¬ "local ".toList.isPrefixOf bracketInName.written = true := by decide
  have htype : turn Char.isAlphanum "T#[`]x#[`]".toList =
      some (some ['T'], true, "[`]x#[`]".toList) := by decide
  have hbracket : turn Char.isAlphanum "[`]x#[`]".toList = some (none, false, "x#[`]".toList) := by
    decide
  have hname : turn Char.isAlphanum "x#[`]".toList = some (some ['x'], true, "[`]".toList) := by
    decide
  have hlast : turn Char.isAlphanum "[`]".toList = some (none, false, []) := by decide
  rw [symbolName, if_neg hglobal, hskip]
  show readDescriptors Char.isAlphanum [] false _ >>= _ = _
  rw [readDescriptors_turn (by decide) htype, readDescriptors_turn (by decide) hbracket,
    readDescriptors_turn (by decide) hname, readDescriptors_turn (by decide) hlast,
    readDescriptors_nil]
  rfl

end Bran.Scip.Symbol
