import Bran.Frontmatter.Outline

/-!
# Rendering frontmatter

The mappings of the supported subset as trees of blocks, every nested block with the indentation
it is written at, and the text of such a tree.  Parsing the text gives the mapping back.
-/

namespace Bran.Frontmatter

open Schema Validation List Text

variable {key : Str} {count : ℕ} {lines : List Str} {tokens : List Token}

/-! ## The supported subset -/

/-- A scalar that needs no quotes. -/
structure PlainScalar (text : Str) : Prop where
  nonempty : text ≠ []
  trimmed : trim text = text
  one_line : '\n' ∉ text
  no_comment : ¬ " #".toList <:+: text
  no_colon : ¬ ": ".toList <:+: text
  no_final_colon : text.getLast? ≠ some ':'
  first : ∀ c ∈ ['{', '|', '>', '[', '"', '\'', '#'], text.head? ≠ some c

mutual

/-- The value of a key; a nested block stands `step + 1` columns deeper than its key. -/
inductive Block
  | scalar (text : Str)
  | flow (items : List Str)
  | mapping (step : ℕ) (fields : Fields)
  | sequence (step : ℕ) (items : Items)

/-- The fields of a mapping, one after the other. -/
inductive Fields
  | nil
  | cons (key : Str) (value : Block) (rest : Fields)

/-- The items of a sequence; a mapping item begins with an inline scalar, and its other fields
stand `step + 1` columns deeper than its dash. -/
inductive Items
  | nil
  | scalar (text : Str) (rest : Items)
  | mapping (key value : Str) (step : ℕ) (fields : Fields) (rest : Items)

end

def Fields.keys : Fields → List Str
  | .nil => []
  | .cons key _ rest => key :: rest.keys

mutual

def Block.Valid : Block → Prop
  | .scalar text => PlainScalar text
  | .flow items => items ≠ [] ∧ ∀ item ∈ items, PlainScalar item ∧ ',' ∉ item
  | .mapping _ fields => fields ≠ .nil ∧ fields.Valid
  | .sequence _ items => items ≠ .nil ∧ items.Valid

def Fields.Valid : Fields → Prop
  | .nil => True
  | .cons key value rest => validKey key = true ∧ key ∉ rest.keys ∧ value.Valid ∧ rest.Valid

def Items.Valid : Items → Prop
  | .nil => True
  | .scalar text rest => PlainScalar text ∧ rest.Valid
  | .mapping key value _ fields rest =>
      validKey key = true ∧ PlainScalar value ∧ key ∉ fields.keys ∧ fields.Valid ∧ rest.Valid

end

mutual

def Block.value : Block → YamlValue
  | .scalar text => .string text
  | .flow items => .sequence (items.map .string)
  | .mapping _ fields => .ofMap (OrdMap.ofList fields.entries)
  | .sequence _ items => .sequence items.values

def Fields.entries : Fields → List (Str × YamlValue)
  | .nil => []
  | .cons key value rest => (key, value.value) :: rest.entries

def Items.values : Items → List YamlValue
  | .nil => []
  | .scalar text rest => .string text :: rest.values
  | .mapping key value _ fields rest =>
      .ofMap (OrdMap.ofList ((key, .string value) :: fields.entries)) :: rest.values

end

/-! ## The text -/

def spaces (count : ℕ) : Str := List.replicate count ' '

/-- What follows the colon of a key on its line. -/
def Block.inlineText : Block → Str
  | .scalar text => ' ' :: text
  | .flow items => ' ' :: '[' :: (join ", ".toList items ++ [']'])
  | .mapping _ _ => []
  | .sequence _ _ => []

mutual

def Block.lines (indent : ℕ) : Block → List Str
  | .scalar _ => []
  | .flow _ => []
  | .mapping step fields => fields.lines (indent + step + 1)
  | .sequence step items => items.lines (indent + step + 1)

def Fields.lines (indent : ℕ) : Fields → List Str
  | .nil => []
  | .cons key value rest =>
      (spaces indent ++ (key ++ ':' :: value.inlineText)) :: (value.lines indent ++ rest.lines indent)

def Items.lines (indent : ℕ) : Items → List Str
  | .nil => []
  | .scalar text rest => (spaces indent ++ ("- ".toList ++ text)) :: rest.lines indent
  | .mapping key value step fields rest =>
      (spaces indent ++ ("- ".toList ++ (key ++ ':' :: ' ' :: value))) ::
        (fields.lines (indent + step + 1) ++ rest.lines indent)

end

/-- A mapping of the supported subset. -/
structure Document where
  fields : Fields
  valid : fields.Valid

def Document.map (document : Document) : OrdMap Str YamlValue :=
  OrdMap.ofList document.fields.entries

def terminated (lines : List Str) : Str := lines.flatMap (· ++ ['\n'])

/-- The text of a document, with or without fences. -/
def Document.text (document : Document) (fenced : Bool) : Str :=
  let body := terminated (document.fields.lines 0)
  if fenced then "---\n".toList ++ (body ++ "---\n".toList) else body

/-! ## The tokens of the lines -/

/-- The inline value of a key. -/
def Block.inline : Block → Option Inline
  | .scalar text => some (.scalar text)
  | .flow items => some (.flowList items)
  | .mapping _ _ => none
  | .sequence _ _ => none

mutual

def Block.tokens (indent : ℕ) : Block → List Token
  | .scalar _ => []
  | .flow _ => []
  | .mapping step fields => fields.tokens (indent + step + 1)
  | .sequence step items => items.tokens (indent + step + 1)

def Fields.tokens (indent : ℕ) : Fields → List Token
  | .nil => []
  | .cons key value rest =>
      .key indent key value.inline :: (value.tokens indent ++ rest.tokens indent)

def Items.tokens (indent : ℕ) : Items → List Token
  | .nil => []
  | .scalar text rest => .seqItem indent none (some (.scalar text)) :: rest.tokens indent
  | .mapping key value step fields rest =>
      .seqItem indent (some key) (some (.scalar value)) ::
        (fields.tokens (indent + step + 1) ++ rest.tokens indent)

end

/-! ## Building the values -/

mutual

/-- The outline of the value of a key at an indentation. -/
def Block.outline (indent : ℕ) : Block → Outline.Value
  | .scalar text => .inline (.scalar text)
  | .flow items => .inline (.flowList items)
  | .mapping step fields => .mapping (indent + step + 1) (fields.outline (indent + step + 1))
  | .sequence step items => .sequence (indent + step + 1) (items.outline (indent + step + 1))

def Fields.outline (indent : ℕ) : Fields → Outline.Fields
  | .nil => .nil
  | .cons key value rest => .cons key (value.outline indent) (rest.outline indent)

def Items.outline (indent : ℕ) : Items → Outline.Items
  | .nil => .nil
  | .scalar text rest => .scalar (.scalar text) (rest.outline indent)
  | .mapping key value step fields rest =>
      .keyed key (some (.scalar value)) (indent + step + 1) (fields.outline (indent + step + 1))
        (rest.outline indent)

end

theorem map_fst_entries : ∀ fields : Fields, fields.entries.map Prod.fst = fields.keys
  | .nil => by rw [Fields.entries, Fields.keys, map_nil]
  | .cons key value rest => by
      rw [Fields.entries, Fields.keys, map_cons, map_fst_entries rest]

theorem Fields.Valid.keys_nodup : ∀ {fields : Fields}, fields.Valid → fields.keys.Nodup
  | .nil, _ => by
      rw [Fields.keys]
      exact nodup_nil
  | .cons key value rest, h => by
      rw [Fields.Valid] at h
      rw [Fields.keys]
      exact nodup_cons.mpr ⟨h.2.1, h.2.2.2.keys_nodup⟩

/-- The fields of a mapping stored as a map. -/
theorem insertFields_entries {fields : Fields} (hvalid : fields.Valid) :
    insertFields OrdMap.empty fields.entries = .ok (OrdMap.ofList fields.entries) := by
  apply insertFields_eq_ok
  · rw [map_fst_entries]
    exact hvalid.keys_nodup
  · intro key _
    rfl

/-- The first field of an item and its other fields stored as a map. -/
theorem insertFields_item {fields : Fields} (hvalid : fields.Valid) {key : Str} {value : YamlValue}
    (hkey : key ∉ fields.keys) :
    insertFields (OrdMap.empty.insert key value) fields.entries =
      .ok (OrdMap.ofList ((key, value) :: fields.entries)) := by
  apply insertFields_eq_ok
  · rw [map_fst_entries]
    exact hvalid.keys_nodup
  · intro other hother
    rw [map_fst_entries] at hother
    have hne : key ≠ other := fun h => hkey (h ▸ hother)
    rw [OrdMap.contains, OrdMap.find?_insert_of_ne _ _ hne]
    rfl

mutual

/-- An outline of the supported subset has the lines of the block and stands for its value. -/
theorem Block.outline_spec (value : Block) : ∀ indent, value.Valid →
    (value.outline indent).onLine = value.inline ∧
      (value.outline indent).tokens = value.tokens indent ∧
      (value.outline indent).Indented indent ∧ (value.outline indent).result = .ok value.value := by
  intro indent hvalid
  cases value with
  | scalar text | flow items => exact ⟨rfl, rfl, trivial, rfl⟩
  | mapping step fields =>
      obtain ⟨hne, hvalid⟩ := hvalid
      obtain ⟨htokens, hindented, hentries⟩ := fields.outline_spec (indent + step + 1) hvalid
      refine ⟨rfl, htokens, ⟨by omega, fun hnil => ?_, hindented⟩, ?_⟩
      · cases fields with
        | nil => exact hne rfl
        | cons key value rest => cases hnil
      · rw [Block.outline, Outline.Value.result, hentries]
        rfl
  | sequence step items =>
      obtain ⟨hne, hvalid⟩ := hvalid
      obtain ⟨htokens, hindented, hresults⟩ := items.outline_spec (indent + step + 1) hvalid
      refine ⟨rfl, htokens, ⟨by omega, fun hnil => ?_, hindented⟩, ?_⟩
      · cases items with
        | nil => exact hne rfl
        | scalar text rest => cases hnil
        | mapping key value step fields rest => cases hnil
      · rw [Block.outline, Outline.Value.result, hresults]
        rfl
termination_by structural value

theorem Fields.outline_spec (fields : Fields) : ∀ indent, fields.Valid →
    (fields.outline indent).tokens indent = fields.tokens indent ∧
      (fields.outline indent).Indented indent ∧
      (fields.outline indent).entries = .ok fields.entries := by
  intro indent hvalid
  cases fields with
  | nil => exact ⟨rfl, trivial, rfl⟩
  | cons key value rest =>
      obtain ⟨_, _, hvalue, hrest⟩ := hvalid
      obtain ⟨honLine, htokens, hindented, hresult⟩ := value.outline_spec indent hvalue
      obtain ⟨hothers, hrest, hentries⟩ := rest.outline_spec indent hrest
      refine ⟨?_, ⟨hindented, hrest⟩, ?_⟩
      · rw [Fields.outline, Outline.Fields.tokens, honLine, htokens, hothers, Fields.tokens]
      · rw [Fields.outline, Outline.Fields.entries, hresult, hentries]
        rfl
termination_by structural fields

theorem Items.outline_spec (items : Items) : ∀ indent, items.Valid →
    (items.outline indent).tokens indent = items.tokens indent ∧
      (items.outline indent).Indented indent ∧
      (items.outline indent).results = .ok items.values := by
  intro indent hvalid
  cases items with
  | nil => exact ⟨rfl, trivial, rfl⟩
  | scalar text rest =>
      obtain ⟨htokens, hindented, hresults⟩ := rest.outline_spec indent hvalid.2
      refine ⟨congrArg _ htokens, hindented, ?_⟩
      rw [Items.outline, Outline.Items.results, hresults]
      rfl
  | mapping key value step fields rest =>
      obtain ⟨_, _, hkey, hfields, hrest⟩ := hvalid
      obtain ⟨htokens, hindented, hentries⟩ := fields.outline_spec (indent + step + 1) hfields
      obtain ⟨hothers, hrest, hresults⟩ := rest.outline_spec indent hrest
      refine ⟨?_, ⟨fun _ => by omega, hindented, hrest⟩, ?_⟩
      · rw [Items.outline, Outline.Items.tokens, htokens, hothers, Items.tokens]
      · have hmap := @insertFields_item _ hfields key (.string value) hkey
        rw [Items.outline, Outline.Items.results, hentries, hresults, ok_bind]
        exact bind_eq_ok_iff.mpr ⟨_, hmap, rfl⟩
termination_by structural items

end

/-! ## Reading the lines -/

theorem key_char_spec {c : Char}
    (h : (c.isAlphanum || c = '_' || c = '-' || c = '.') = true) :
    (48 ≤ c.toNat ∧ c.toNat ≤ 57) ∨ (65 ≤ c.toNat ∧ c.toNat ≤ 90) ∨
      (97 ≤ c.toNat ∧ c.toNat ≤ 122) ∨ c.toNat = 95 ∨ c.toNat = 45 ∨ c.toNat = 46 := by
  simp only [Char.isAlphanum, isAlpha_eq, isUpper_eq, isLower_eq, Char.isDigit,
    Bool.or_eq_true, decide_eq_true_eq, Bool.and_eq_true, UInt32.le_iff_toNat_le, ge_iff_le] at h
  have hnat : c.val.toNat = c.toNat := rfl
  have hupper : 'A'.val.toNat = 65 ∧ 'Z'.val.toNat = 90 := ⟨rfl, rfl⟩
  have hlower : 'a'.val.toNat = 97 ∧ 'z'.val.toNat = 122 := ⟨rfl, rfl⟩
  have hdigit : '0'.val.toNat = 48 ∧ '9'.val.toNat = 57 := ⟨rfl, rfl⟩
  rw [hnat, hupper.1, hupper.2, hlower.1, hlower.2, hdigit.1, hdigit.2] at h
  obtain ((h | rfl) | rfl) | rfl := h
  · omega
  · decide
  · decide
  · decide

theorem isWhitespace_key_char {c : Char}
    (h : (c.isAlphanum || c = '_' || c = '-' || c = '.') = true) : isWhitespace c = false := by
  have hspec := key_char_spec h
  unfold isWhitespace
  simp only [Bool.or_eq_false_iff, Bool.and_eq_false_iff, decide_eq_false_iff_not]
  omega

theorem validKey_iff : validKey key = true ↔ key ≠ [] ∧
    ∀ c ∈ key, (c.isAlphanum || c = '_' || c = '-' || c = '.') = true := by
  rw [validKey, Bool.and_eq_true, decide_eq_true_eq, all_eq_true]

theorem not_mem_key (h : validKey key = true) {c : Char}
    (hc : (c.isAlphanum || c = '_' || c = '-' || c = '.') = false) : c ∉ key := by
  intro hmem
  rw [(validKey_iff.mp h).2 c hmem] at hc
  cases hc

theorem trim_key (h : validKey key = true) : trim key = key := by
  rw [trimmed_iff]
  constructor
  · intro c hc
    exact isWhitespace_key_char ((validKey_iff.mp h).2 c (mem_of_mem_head? hc))
  · intro c hc
    exact isWhitespace_key_char ((validKey_iff.mp h).2 c (mem_of_mem_getLast? hc))

theorem byteLen_spaces (count : ℕ) : byteLen (spaces count) = count := by
  have hsize : Char.utf8Size ' ' = 1 := by decide
  induction count with
  | zero => rfl
  | succ count ih =>
      rw [spaces, byteLen] at ih ⊢
      rw [replicate_succ, map_cons, sum_cons, ih, hsize]
      omega

/-- A line is read by its text and the number of columns before it. -/
theorem tokenizeLine_spaces {text : Str} (hne : text ≠ [])
    (hhead : ∀ c ∈ text.head?, isWhitespace c = false ∧ c ≠ '#')
    (hlast : ∀ c ∈ text.getLast?, isWhitespace c = false) :
    tokenizeLine (spaces count ++ text) = some <$> tokenizeTrimmed count text := by
  have hend : trimEnd (spaces count ++ text) = spaces count ++ text := by
    apply trimEnd_of_getLast?
    intro c hc
    rw [getLast?_append_of_ne_nil _ hne] at hc
    exact hlast c hc
  have hstart : trimStart (spaces count ++ text) = text := by
    rw [spaces, trimStart_replicate]
    exact trimStart_of_head? fun c hc => (hhead c hc).1
  have hcomment : ¬ (text = [] ∨ text.head? = some '#') := by
    intro h
    obtain h | h := h
    · exact hne h
    · exact (hhead '#' h).2 rfl
  have hindent : byteLen (spaces count ++ text) - byteLen text = count := by
    rw [byteLen_append, byteLen_spaces]
    omega
  unfold tokenizeLine
  dsimp only
  rw [hend, hstart, if_neg hcomment, hindent]
  cases tokenizeTrimmed count text <;> rfl

section Scalars

variable {text : Str}

theorem PlainScalar.last (h : PlainScalar text) :
    ∀ c ∈ text.getLast?, isWhitespace c = false :=
  (trimmed_iff.mp h.trimmed).2

theorem stripStart_of_head? {mark : Char} (h : text.head? ≠ some mark) :
    stripStart [mark] text = none := by
  rw [Option.eq_none_iff_forall_ne_some]
  intro rest hrest
  rw [stripStart_eq_some_iff] at hrest
  exact h (by simp [hrest])

/-- A plain scalar is read as it stands, with or without a space before it. -/
theorem scalar_plain (h : PlainScalar text) : scalar text = .ok text := by
  have hdouble : text.head? ≠ some '"' := h.first '"' (by simp)
  have hsingle : text.head? ≠ some '\'' := h.first '\'' (by simp)
  have hunquote : unquote text = text := by
    rw [unquote, quoted, quoted, stripStart_of_head? hdouble, stripStart_of_head? hsingle]
    exact h.trimmed
  unfold scalar
  dsimp only
  rw [h.trimmed, hunquote, if_neg h.nonempty]

theorem scalar_space (text : Str) : scalar (' ' :: text) = scalar text := by
  unfold scalar
  rw [trim_cons_whitespace (by decide)]

theorem parseInline_scalar (h : PlainScalar text) :
    parseInline (' ' :: text) = .ok (some (.scalar text)) := by
  have hopen : ¬ text.head? ∈ ['{', '|', '>'].map some := by
    simp [h.first]
  have hquote : ¬ text.head? ∈ ['"', '\''].map some := by
    simp [h.first]
  have hbracket : text.head? ≠ some '[' := h.first '[' (by simp)
  have hcomment : stripInlineComment text = some text := by
    rw [stripInlineComment, splitOnceStr_eq_none h.no_comment]
  have huncomment : uncomment text = text := by
    rw [uncomment, if_neg hquote, hcomment]
    exact h.trimmed
  unfold parseInline
  dsimp only
  rw [trim_cons_whitespace (by decide), h.trimmed, if_neg h.nonempty, if_neg hopen,
    huncomment, if_neg h.nonempty, if_neg hbracket, scalar_plain h]
  rfl

end Scalars

/-! ### Flow lists -/

theorem join_cons (first : Str) (rest : List Str) :
    join ", ".toList (first :: rest) = [','].intercalate (first :: rest.map (' ' :: ·)) := by
  induction rest generalizing first with
  | nil => rfl
  | cons second rest ih =>
      have hne : (second :: rest).map (' ' :: ·) ≠ [] := by simp
      rw [join, intercalate_cons_of_ne_nil (cons_ne_nil second rest),
        intercalate_cons_of_ne_nil hne]
      have hsecond := ih second
      rw [join] at hsecond
      have hpush : [','].intercalate ((second :: rest).map (' ' :: ·)) =
          ' ' :: [','].intercalate (second :: rest.map (' ' :: ·)) := by
        cases rest <;> rfl
      rw [hsecond, hpush]
      simp

/-- A list of plain scalars holds no comment mark. -/
theorem no_comment_join {items : List Str} (h : ∀ item ∈ items, PlainScalar item) :
    (join ", ".toList items ++ [']']).IsChain fun a b => ¬ (a = ' ' ∧ b = '#') := by
  induction items with
  | nil => simp [join]
  | cons first rest ih =>
      have hfirst := h first (by simp)
      have hchain : first.IsChain fun a b => ¬ (a = ' ' ∧ b = '#') :=
        pair_infix_iff.mp hfirst.no_comment
      have hlast : ∀ c ∈ first.getLast?, ¬ (c = ' ' ∧ (',' = '#' ∨ ']' = '#')) := by simp
      cases rest with
      | nil =>
          rw [join, intercalate_singleton, isChain_append]
          exact ⟨hchain, by simp, by simp⟩
      | cons second rest =>
          have hsecond := h second (by simp)
          have htail := ih fun item hitem => h item (mem_cons_of_mem _ hitem)
          have hjoin : join ", ".toList (first :: second :: rest) ++ [']'] =
              first ++ (", ".toList ++ (join ", ".toList (second :: rest) ++ [']'])) := by
            rw [join, intercalate_cons_of_ne_nil (cons_ne_nil second rest), join]
            simp
          have hhead : ∀ c ∈ (join ", ".toList (second :: rest) ++ [']']).head?, c ≠ '#' := by
            obtain ⟨x, tail, rfl⟩ := exists_cons_of_ne_nil hsecond.nonempty
            intro c hc
            have hx : c = x := by
              rw [join_cons, List.intercalate] at hc
              cases rest with
              | nil => simpa [eq_comm] using hc
              | cons third rest => simpa [List.intersperse, eq_comm] using hc
            rw [hx]
            intro heq
            exact hsecond.first '#' (by simp) (by rw [heq]; rfl)
          rw [hjoin, isChain_append, isChain_append]
          refine ⟨hchain, ⟨by simp, htail, ?_⟩, by simp⟩
          intro x hx y hy hpair
          exact hhead y hy hpair.2

theorem mapM_scalar {items : List Str} (h : ∀ item ∈ items, PlainScalar item) :
    items.mapM scalar = .ok items := by
  induction items with
  | nil => rfl
  | cons item rest ih =>
      rw [mapM_cons, scalar_plain (h item (by simp)),
        ih fun item hitem => h item (mem_cons_of_mem _ hitem)]
      rfl

theorem mapM_scalar_space (items : List Str) :
    (items.map (' ' :: ·)).mapM scalar = items.mapM scalar := by
  induction items with
  | nil => rfl
  | cons item rest ih => rw [map_cons, mapM_cons, mapM_cons, scalar_space, ih]

theorem parseInline_flow {items : List Str} (hne : items ≠ [])
    (h : ∀ item ∈ items, PlainScalar item ∧ ',' ∉ item) :
    parseInline (Block.flow items).inlineText = .ok (some (.flowList items)) := by
  have hplain : ∀ item ∈ items, PlainScalar item := fun item hitem => (h item hitem).1
  obtain ⟨first, rest, rfl⟩ := exists_cons_of_ne_nil hne
  generalize htext : '[' :: (join ", ".toList (first :: rest) ++ [']']) = text
  have hlast : text.getLast? = some ']' := by
    rw [← htext, ← cons_append, getLast?_append_of_ne_nil _ (by simp)]
    rfl
  have htrim : trim text = text := by
    rw [trimmed_iff, hlast, ← htext]
    refine ⟨?_, ?_⟩
    · intro c hc
      obtain rfl : '[' = c := by simpa using hc
      decide
    · intro c hc
      obtain rfl : ']' = c := by simpa using hc
      decide
  have hcomment : stripInlineComment text = some text := by
    have hchain : ¬ " #".toList <:+: text := by
      rw [← htext]
      apply (pair_infix_iff (x := ' ') (y := '#')).mpr
      rw [isChain_cons]
      exact ⟨by simp, no_comment_join hplain⟩
    rw [stripInlineComment, splitOnceStr_eq_none hchain]
  have hinner : text.tail.dropLast.splitOn ',' = first :: rest.map (' ' :: ·) := by
    rw [← htext, tail_cons, dropLast_concat, join_cons]
    apply splitOn_intercalate
    · intro item hitem
      rw [mem_cons, mem_map] at hitem
      obtain rfl | ⟨other, hother, rfl⟩ := hitem
      · exact (h item (by simp)).2
      · simpa using (h other (by simp [hother])).2
    · simp
  have hvalues : (first :: rest.map (' ' :: ·)).mapM scalar = .ok (first :: rest) := by
    rw [mapM_cons, mapM_scalar_space, ← mapM_cons]
    exact mapM_scalar hplain
  have hnil : text ≠ [] := by simp [← htext]
  have hhead : text.head? = some '[' := by simp [← htext]
  have hinline : (Block.flow (first :: rest)).inlineText = ' ' :: text := by
    rw [Block.inlineText, htext]
  have hopen : ¬ some '[' ∈ ['{', '|', '>'].map some := by decide
  have hquote : ¬ some '[' ∈ ['"', '\''].map some := by decide
  have huncomment : uncomment text = text := by
    rw [uncomment, hhead, if_neg hquote, hcomment]
    exact htrim
  unfold parseInline
  dsimp only
  rw [hinline, trim_cons_whitespace (by decide), htrim, if_neg hnil, hhead, if_neg hopen,
    huncomment, if_neg hnil, if_pos hhead, hlast, if_neg (by simp), hinner, hvalues]
  rfl

/-! ### Lines -/

theorem parseInline_inlineText {value : Block} (hvalid : value.Valid) :
    parseInline value.inlineText = .ok value.inline := by
  cases value with
  | scalar text =>
      rw [Block.Valid] at hvalid
      exact parseInline_scalar hvalid
  | flow items =>
      rw [Block.Valid] at hvalid
      exact parseInline_flow hvalid.1 hvalid.2
  | mapping step fields => rfl
  | sequence step items => rfl

/-- A key does not begin a sequence item. -/
theorem stripStart_key (hkey : validKey key = true) (rest : Str) :
    stripStart "- ".toList (key ++ ':' :: rest) = none := by
  have hspace : ' ' ∉ key := not_mem_key hkey (by decide)
  rw [Option.eq_none_iff_forall_ne_some]
  intro after hafter
  have heq : key ++ ':' :: rest = '-' :: ' ' :: after := stripStart_eq_some_iff.mp hafter
  match key, hkey, hspace, heq with
  | [], hkey, _, _ => exact absurd hkey (by decide)
  | [_], _, _, heq => simp at heq
  | _ :: c :: _, _, hspace, heq =>
      have hc : c = ' ' := by
        simp only [cons_append, List.cons.injEq] at heq
        exact heq.2.1
      exact hspace (by simp [hc])

theorem tokenizeTrimmed_key {value : Block} (hkey : validKey key = true) (hvalid : value.Valid) :
    tokenizeTrimmed count (key ++ ':' :: value.inlineText) =
      .ok (.key count key value.inline) := by
  have hcolon : ':' ∉ key := not_mem_key hkey (by decide)
  unfold tokenizeTrimmed
  rw [stripStart_key hkey, splitOnce_append hcolon]
  dsimp only
  rw [trim_key hkey, hkey, parseInline_inlineText hvalid]
  rfl

/-- Only a colon before a space or at the end makes a mapping item. -/
theorem mappingColon_eq_some {head text before after : Str}
    (h : mappingColon head text = some (before, after)) :
    ∃ middle, text = middle ++ ':' :: after ∧ (after = [] ∨ after.head? = some ' ') := by
  induction text generalizing head with
  | nil => cases h
  | cons c rest ih =>
      rw [mappingColon] at h
      split_ifs at h with hcolon hend
      · obtain ⟨-, rfl⟩ := Prod.mk.inj (Option.some.inj h)
        rw [Bool.and_eq_true, decide_eq_true_eq] at hcolon
        exact ⟨[], by rw [hcolon.1]; rfl, hend⟩
      · obtain ⟨middle, hmiddle, hafter⟩ := ih h
        exact ⟨c :: middle, by rw [hmiddle]; rfl, hafter⟩

theorem mappingColon_plain {text : Str} (h : PlainScalar text) : mappingColon [] text = none := by
  rw [Option.eq_none_iff_forall_ne_some]
  rintro ⟨before, after⟩ hsome
  obtain ⟨middle, htext, hafter⟩ := mappingColon_eq_some hsome
  obtain rfl | hspace := hafter
  · exact h.no_final_colon (by rw [htext]; simp)
  · obtain ⟨tail, rfl⟩ : ∃ tail, after = ' ' :: tail := by
      cases after with
      | nil => cases hspace
      | cons c tail =>
          obtain rfl : c = ' ' := by simpa using hspace
          exact ⟨tail, rfl⟩
    exact h.no_colon ⟨middle, tail, by rw [htext]; simp⟩

theorem mappingColon_key (hkey : validKey key = true) (value : Str) :
    mappingColon [] (key ++ ':' :: ' ' :: value) = some (key, ' ' :: value) := by
  have hcolon : ':' ∉ key := not_mem_key hkey (by decide)
  have hread : ∀ (rest head : Str), head ++ rest = key →
      mappingColon head (rest ++ ':' :: ' ' :: value) = some (key, ' ' :: value) := by
    intro rest
    induction rest with
    | nil =>
        intro head hhead
        obtain rfl : head = key := by simpa using hhead
        rw [nil_append, mappingColon, trim_key hkey, hkey]
        simp
    | cons c rest ih =>
        intro head hhead
        have hc : c ≠ ':' := by
          rintro rfl
          exact hcolon (by simp [← hhead])
        rw [cons_append, mappingColon, if_neg (by simp [hc])]
        exact ih (head ++ [c]) (by simp [hhead])
  exact hread key [] rfl

theorem tokenizeTrimmed_item {text : Str} (h : PlainScalar text) :
    tokenizeTrimmed count ("- ".toList ++ text) =
      .ok (.seqItem count none (some (.scalar text))) := by
  have hstrip : stripStart "- ".toList ("- ".toList ++ text) = some text :=
    stripStart_eq_some_iff.mpr rfl
  unfold tokenizeTrimmed splitSequenceValue
  rw [hstrip]
  dsimp only
  rw [mappingColon_plain h, scalar_plain h]
  rfl

theorem tokenizeTrimmed_mapping {value : Str} (hkey : validKey key = true) (h : PlainScalar value) :
    tokenizeTrimmed count ("- ".toList ++ (key ++ ':' :: ' ' :: value)) =
      .ok (.seqItem count (some key) (some (.scalar value))) := by
  have hstrip : stripStart "- ".toList ("- ".toList ++ (key ++ ':' :: ' ' :: value)) =
      some (key ++ ':' :: ' ' :: value) := stripStart_eq_some_iff.mpr rfl
  unfold tokenizeTrimmed splitSequenceValue
  rw [hstrip]
  dsimp only
  rw [mappingColon_key hkey]
  dsimp only
  rw [parseInline_scalar h, trim_key hkey]
  rfl

/-- A line that gives a token and can stand before a line break. -/
structure ReadsAs (line : Str) (token : Token) : Prop where
  token : tokenizeLine line = .ok (some token)
  one_line : '\n' ∉ line
  nonempty : line ≠ []
  last : ∀ c ∈ line.getLast?, isWhitespace c = false

theorem readsAs_spaces {text : Str} {token : Token}
    (htoken : tokenizeTrimmed count text = .ok token) (hne : text ≠ [])
    (hhead : ∀ c ∈ text.head?, isWhitespace c = false ∧ c ≠ '#')
    (hlast : ∀ c ∈ text.getLast?, isWhitespace c = false) (hline : '\n' ∉ text) :
    ReadsAs (spaces count ++ text) token := by
  constructor
  · rw [tokenizeLine_spaces hne hhead hlast, htoken]
    rfl
  · rw [mem_append, not_or]
    refine ⟨?_, hline⟩
    simp [spaces]
  · simp [hne]
  · intro c hc
    rw [getLast?_append_of_ne_nil _ hne] at hc
    exact hlast c hc

/-- What follows a colon ends with a visible character and holds no line break. -/
theorem inlineText_spec {value : Block} (hvalid : value.Valid) :
    '\n' ∉ value.inlineText ∧
      ∀ c ∈ (':' :: value.inlineText).getLast?, isWhitespace c = false := by
  cases value with
  | scalar text =>
      rw [Block.Valid] at hvalid
      rw [Block.inlineText]
      constructor
      · simpa using hvalid.one_line
      · intro c hc
        apply hvalid.last c
        obtain ⟨x, tail, rfl⟩ := exists_cons_of_ne_nil hvalid.nonempty
        simpa using hc
  | flow items =>
      rw [Block.Valid] at hvalid
      rw [Block.inlineText]
      constructor
      · have hjoin : '\n' ∉ join ", ".toList items :=
          not_mem_join (by decide) fun item hitem => (hvalid.2 item hitem).1.one_line
        simpa using hjoin
      · intro c hc
        have hc : c = ']' := by
          rw [← cons_append, ← cons_append, ← cons_append,
            getLast?_append_of_ne_nil _ (by simp)] at hc
          simpa [eq_comm] using hc
        rw [hc]
        decide
  | mapping step fields | sequence step items =>
      constructor
      · simp [Block.inlineText]
      · intro c hc
        obtain rfl : ':' = c := by simpa [Block.inlineText] using hc
        decide

/-! ### A whole text -/

theorem readsAs_key {value : Block} (hkey : validKey key = true) (hvalid : value.Valid) :
    ReadsAs (spaces count ++ (key ++ ':' :: value.inlineText)) (.key count key value.inline) := by
  obtain ⟨hline, hlast⟩ := inlineText_spec hvalid
  apply readsAs_spaces (tokenizeTrimmed_key hkey hvalid)
  · simp
  · intro c hc
    obtain ⟨x, tail, rfl⟩ := exists_cons_of_ne_nil (validKey_iff.mp hkey).1
    obtain rfl : x = c := by simpa using hc
    have hx := (validKey_iff.mp hkey).2 x (by simp)
    refine ⟨isWhitespace_key_char hx, ?_⟩
    rintro rfl
    revert hx
    decide
  · intro c hc
    rw [getLast?_append_of_ne_nil _ (cons_ne_nil _ _)] at hc
    exact hlast c hc
  · have hbreak : '\n' ∉ key := not_mem_key hkey (by decide)
    simp [hbreak, hline]

theorem readsAs_dash {text : Str} {token : Token}
    (htoken : tokenizeTrimmed count ("- ".toList ++ text) = .ok token) (hne : text ≠ [])
    (hlast : ∀ c ∈ text.getLast?, isWhitespace c = false) (hline : '\n' ∉ text) :
    ReadsAs (spaces count ++ ("- ".toList ++ text)) token := by
  apply readsAs_spaces htoken
  · simp
  · intro c hc
    obtain rfl : '-' = c := by simpa using hc
    decide
  · intro c hc
    rw [getLast?_append_of_ne_nil _ hne] at hc
    exact hlast c hc
  · simpa using hline

theorem readsAs_item {text : Str} (h : PlainScalar text) :
    ReadsAs (spaces count ++ ("- ".toList ++ text)) (.seqItem count none (some (.scalar text))) :=
  readsAs_dash (tokenizeTrimmed_item h) h.nonempty h.last h.one_line

theorem readsAs_mapping {value : Str} (hkey : validKey key = true) (h : PlainScalar value) :
    ReadsAs (spaces count ++ ("- ".toList ++ (key ++ ':' :: ' ' :: value)))
      (.seqItem count (some key) (some (.scalar value))) := by
  apply readsAs_dash (tokenizeTrimmed_mapping hkey h)
  · simp
  · intro c hc
    apply h.last c
    obtain ⟨x, tail, rfl⟩ := exists_cons_of_ne_nil h.nonempty
    rw [getLast?_append_of_ne_nil _ (cons_ne_nil _ _)] at hc
    simpa using hc
  · have hbreak : '\n' ∉ key := not_mem_key hkey (by decide)
    simp [hbreak, h.one_line]

mutual

theorem readsAs_fields : ∀ (fields : Fields) (indent : ℕ), fields.Valid →
    List.Forall₂ ReadsAs (fields.lines indent) (fields.tokens indent)
  | .nil, indent, _ => by
      rw [Fields.lines, Fields.tokens]
      exact List.Forall₂.nil
  | .cons key value rest, indent, hvalid => by
      rw [Fields.Valid] at hvalid
      rw [Fields.lines, Fields.tokens]
      apply List.Forall₂.cons (readsAs_key hvalid.1 hvalid.2.2.1)
      exact rel_append (readsAs_block value indent hvalid.2.2.1)
        (readsAs_fields rest indent hvalid.2.2.2)

theorem readsAs_block : ∀ (value : Block) (indent : ℕ), value.Valid →
    List.Forall₂ ReadsAs (value.lines indent) (value.tokens indent)
  | .scalar _, _, _ => by
      rw [Block.lines, Block.tokens]
      exact List.Forall₂.nil
  | .flow _, _, _ => by
      rw [Block.lines, Block.tokens]
      exact List.Forall₂.nil
  | .mapping step fields, indent, hvalid => by
      rw [Block.Valid] at hvalid
      rw [Block.lines, Block.tokens]
      exact readsAs_fields fields _ hvalid.2
  | .sequence step items, indent, hvalid => by
      rw [Block.Valid] at hvalid
      rw [Block.lines, Block.tokens]
      exact readsAs_items items _ hvalid.2

theorem readsAs_items : ∀ (items : Items) (indent : ℕ), items.Valid →
    List.Forall₂ ReadsAs (items.lines indent) (items.tokens indent)
  | .nil, indent, _ => by
      rw [Items.lines, Items.tokens]
      exact List.Forall₂.nil
  | .scalar text rest, indent, hvalid => by
      rw [Items.Valid] at hvalid
      rw [Items.lines, Items.tokens]
      exact List.Forall₂.cons (readsAs_item hvalid.1) (readsAs_items rest indent hvalid.2)
  | .mapping key value step fields rest, indent, hvalid => by
      rw [Items.Valid] at hvalid
      obtain ⟨hkey, hvalue, _, hfields, hrest⟩ := hvalid
      rw [Items.lines, Items.tokens]
      apply List.Forall₂.cons (readsAs_mapping hkey hvalue)
      exact rel_append (readsAs_fields fields _ hfields) (readsAs_items rest indent hrest)

end

/-- Lines that give tokens give them in order. -/
theorem mapM_tokenizeLine (h : List.Forall₂ ReadsAs lines tokens) :
    lines.mapM tokenizeLine = .ok (tokens.map some) := by
  induction h with
  | nil => rfl
  | cons hread _ ih =>
      rw [mapM_cons, hread.token, ih]
      rfl

/-- Every line that gives a token can stand in a text. -/
theorem line_spec (h : List.Forall₂ ReadsAs lines tokens) :
    ∀ line ∈ lines, '\n' ∉ line ∧ line.getLast? ≠ some '\r' := by
  induction h with
  | nil => simp
  | cons hread _ ih =>
      intro line hline
      rw [mem_cons] at hline
      obtain rfl | hline := hline
      · refine ⟨hread.one_line, ?_⟩
        intro hlast
        have hreturn := hread.last '\r' hlast
        revert hreturn
        decide
      · exact ih line hline

theorem tokenize_of_lines {text : Str} (htext : Text.lines text = lines)
    (h : List.Forall₂ ReadsAs lines tokens) :
    tokenize text = .ok tokens := by
  rw [tokenize, htext, mapM_tokenizeLine h]
  simp [bind, Except.bind, pure, Except.pure, filterMap_map]

/-! ### Fences -/

theorem terminated_concat (lines : List Str) (last : Str) :
    terminated (lines ++ [last]) = ['\n'].intercalate (lines ++ [last]) ++ ['\n'] := by
  unfold terminated
  induction lines with
  | nil => simp
  | cons line rest ih =>
      have hne : rest ++ [last] ≠ [] := by simp
      rw [cons_append, flatMap_cons, ih, intercalate_cons_of_ne_nil hne]
      simp

/-- Between fences the text of the lines loses its last line break. -/
theorem stripFences_fenced (lines : List Str) :
    stripFences ("---\n".toList ++ (terminated lines ++ "---\n".toList)) =
      trimEnd (terminated lines) := by
  have hstart : ("---\n".toList ++ (terminated lines ++ "---\n".toList)).dropWhile
      (fun c => decide (c = Char.ofNat 0xFEFF)) =
        "---\n".toList ++ (terminated lines ++ "---\n".toList) := by
    change List.dropWhile _ ('-' :: _) = _
    rw [dropWhile_cons_of_neg (by decide)]
    rfl
  have hstrip : stripStart "---\n".toList
      ("---\n".toList ++ (terminated lines ++ "---\n".toList)) =
        some (terminated lines ++ "---\n".toList) := stripStart_eq_some_iff.mpr rfl
  have hend : trimEnd (terminated lines ++ "---\n".toList) =
      terminated lines ++ "---".toList := by
    have hassoc : terminated lines ++ "---\n".toList = terminated lines ++ ['-', '-', '-'] ++ ['\n'] := by
      rw [append_assoc]
      rfl
    rw [hassoc, trimEnd_concat_whitespace (by decide)]
    apply trimEnd_of_getLast?
    intro c hc
    rw [getLast?_append_of_ne_nil _ (by simp)] at hc
    obtain rfl : '-' = c := by simpa using hc
    decide
  have hdrop : (terminated lines ++ "---".toList).rdropWhile (· ≠ '\n') = terminated lines := by
    have hdashes : ∀ x ∈ "---".toList, decide (x ≠ '\n') = true := by
      intro x hx
      obtain rfl : x = '-' := by simpa using hx
      decide
    rw [rdropWhile_append hdashes]
    obtain rfl | ⟨init, last, rfl⟩ := eq_nil_or_concat lines
    · rfl
    · rw [concat_eq_append, terminated_concat, rdropWhile_concat_neg _ _ _ (by decide)]
  have htake : (terminated lines ++ "---".toList).rtakeWhile (· ≠ '\n') = "---".toList := by
    apply @append_cancel_left _ (terminated lines)
    calc terminated lines ++ (terminated lines ++ "---".toList).rtakeWhile (· ≠ '\n')
        = (terminated lines ++ "---".toList).rdropWhile (· ≠ '\n') ++
            (terminated lines ++ "---".toList).rtakeWhile (· ≠ '\n') := by rw [hdrop]
      _ = terminated lines ++ "---".toList := rdropWhile_append_rtakeWhile
  unfold stripFences
  dsimp only
  rw [hstart, hstrip, Option.some_or]
  dsimp only
  rw [hend, htake, hdrop, if_pos (by decide)]

/-- Without fences the text is taken as it stands. -/
theorem stripFences_plain (h : List.Forall₂ ReadsAs lines tokens)
    (hfirst : ∀ line ∈ lines.head?, ':' ∈ line ∧ ∀ c ∈ line.head?, c ≠ Char.ofNat 0xFEFF) :
    stripFences (terminated lines) = terminated lines := by
  cases h with
  | nil => rfl
  | @cons line _ rest _ hread _ =>
      obtain ⟨hcolon, hmark⟩ := hfirst line rfl
      have htext : terminated (line :: rest) = line ++ '\n' :: terminated rest := by
        simp [terminated]
      have hstart : (terminated (line :: rest)).dropWhile
          (fun c => decide (c = Char.ofNat 0xFEFF)) = terminated (line :: rest) := by
        obtain ⟨x, tail, rfl⟩ := exists_cons_of_ne_nil hread.nonempty
        rw [htext, cons_append, dropWhile_cons_of_neg]
        simpa using hmark x rfl
      -- the first line holds a colon, so it is no fence
      have hnone : ∀ fence : Str, ':' ∉ fence → '\n' ∉ fence →
          stripStart (fence ++ ['\n']) (terminated (line :: rest)) = none := by
        intro fence hfence hbreak
        rw [Option.eq_none_iff_forall_ne_some]
        intro after hafter
        rw [stripStart_eq_some_iff, htext] at hafter
        have hsplit : splitOnce '\n' (line ++ '\n' :: terminated rest) =
            some (fence, after) := by
          rw [hafter, append_assoc]
          exact splitOnce_append hbreak after
        rw [splitOnce_append hread.one_line] at hsplit
        obtain ⟨rfl, -⟩ := Prod.mk.inj (Option.some.inj hsplit)
        exact hfence hcolon
      have hunix := hnone ['-', '-', '-'] (by decide) (by decide)
      have hwindows := hnone ['-', '-', '-', '\r'] (by decide) (by decide)
      exact stripFences_eq_self hstart hunix hwindows

/-- The lines of a text whose last line break is trimmed away. -/
theorem lines_trimEnd (h : List.Forall₂ ReadsAs lines tokens) :
    Text.lines (trimEnd (terminated lines)) = lines := by
  obtain rfl | ⟨init, last, rfl⟩ := eq_nil_or_concat lines
  · rfl
  · rw [concat_eq_append] at h ⊢
    have hlast : ∃ token, ReadsAs last token := by
      have hmem : last ∈ init ++ [last] := by simp
      obtain ⟨n, hn, hget⟩ := mem_iff_getElem.mp hmem
      have hlen := h.length_eq
      have hread := (forall₂_iff_get.mp h).2 n hn (hlen ▸ hn)
      exact ⟨_, by simpa [hget] using hread⟩
    obtain ⟨token, hread⟩ := hlast
    have hne : init ++ [last] ≠ [] := by simp
    have htail : ∃ before, ['\n'].intercalate (init ++ [last]) = before ++ last := by
      clear h hne
      induction init with
      | nil => exact ⟨[], by simp⟩
      | cons line rest ih =>
          obtain ⟨before, hbefore⟩ := ih
          have hne : rest ++ [last] ≠ [] := by simp
          refine ⟨line ++ ['\n'] ++ before, ?_⟩
          rw [cons_append, intercalate_cons_of_ne_nil hne, hbefore]
          simp only [append_assoc]
    obtain ⟨before, hbefore⟩ := htail
    have htrim : trimEnd (terminated (init ++ [last])) =
        ['\n'].intercalate (init ++ [last]) := by
      rw [terminated_concat, trimEnd_concat_whitespace (by decide), hbefore]
      apply trimEnd_of_getLast?
      intro c hc
      rw [getLast?_append_of_ne_nil _ hread.nonempty] at hc
      exact hread.last c hc
    rw [htrim]
    exact lines_intercalate (line_spec h) hread.nonempty

/-! ## The round trip -/

theorem head_fields {fields : Fields} (hvalid : fields.Valid) :
    ∀ line ∈ (fields.lines 0).head?, ':' ∈ line ∧ ∀ c ∈ line.head?, c ≠ Char.ofNat 0xFEFF := by
  cases fields with
  | nil => simp [Fields.lines]
  | cons key value rest =>
      rw [Fields.Valid] at hvalid
      intro line hline
      obtain rfl : key ++ ':' :: value.inlineText = line := by
        simpa [Fields.lines, spaces] using hline
      refine ⟨by simp, ?_⟩
      intro c hc
      obtain ⟨x, tail, rfl⟩ := exists_cons_of_ne_nil (validKey_iff.mp hvalid.1).1
      obtain rfl : x = c := by simpa using hc
      have hx := (validKey_iff.mp hvalid.1).2 x (by simp)
      rintro rfl
      revert hx
      decide

/-- Parsing the text of a mapping of the supported subset, written with any increasing
indentation and with or without fences, gives exactly that mapping. -/
theorem parseFrontmatter_text (document : Document) (fenced : Bool) :
    parseFrontmatter (document.text fenced) = .ok document.map := by
  obtain ⟨fields, hvalid⟩ := document
  have hreads : List.Forall₂ ReadsAs (fields.lines 0) (fields.tokens 0) :=
    readsAs_fields fields 0 hvalid
  have htokens : tokenize (stripFences (Document.text ⟨fields, hvalid⟩ fenced)) =
      .ok (fields.tokens 0) := by
    cases fenced with
    | true =>
        have htext : Document.text ⟨fields, hvalid⟩ true =
            "---\n".toList ++ (terminated (fields.lines 0) ++ "---\n".toList) := rfl
        rw [htext, stripFences_fenced]
        exact tokenize_of_lines (lines_trimEnd hreads) hreads
    | false =>
        have htext : Document.text ⟨fields, hvalid⟩ false = terminated (fields.lines 0) := rfl
        rw [htext, stripFences_plain hreads (head_fields hvalid)]
        exact tokenize_of_lines (lines_flatMap (line_spec hreads)) hreads
  have hbuild : buildMapping ((fields.tokens 0).length + 1) (fields.tokens 0) 0 [] =
      .ok ([], fields.entries) := by
    obtain ⟨hsame, hindented, hentries⟩ := fields.outline_spec 0 hvalid
    have hread := (fields.outline 0).build ((fields.tokens 0).length + 1) 0 [] [] hindented
      (fun _ htoken => (nomatch htoken))
    rw [hsame, hentries, append_nil] at hread
    exact hread (Nat.lt_succ_self _)
  have hmap := insertFields_entries hvalid
  unfold parseFrontmatter
  rw [htokens]
  simp only [bind, Except.bind, hbuild]
  exact hmap

end Bran.Frontmatter
