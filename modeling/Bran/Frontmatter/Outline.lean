import Bran.Frontmatter.Parse
import Bran.Library.Validation

/-!
# The keys of a frontmatter text

The lines of an accepted text form an outline, which their indentation determines.  The parser keeps
every key of the outline at its place exactly when no mapping below a key repeats a key and every
sequence item that names a key gives it a value on its line: a repeated key of a nested mapping is
resolved in favour of the last value, and the key of an item without a value is dropped.
-/

namespace Bran.Frontmatter.Outline

open Schema Validation List OrdMap
open Except (ok.inj)

/-! ## Outlines -/

mutual

/-- What stands behind a key: a value on its line, or a deeper block. -/
inductive Value
  | inline (value : Inline)
  | mapping (deeper : ℕ) (fields : Fields)
  | sequence (deeper : ℕ) (items : Items)

inductive Fields
  | nil
  | cons (key : Str) (value : Value) (rest : Fields)

/-- The items of a sequence; an item with a key may have fields on deeper lines. -/
inductive Items
  | nil
  | scalar (value : Inline) (rest : Items)
  | keyed (key : Str) (inline : Option Inline) (deeper : ℕ) (fields : Fields) (rest : Items)

end

def Value.onLine : Value → Option Inline
  | .inline value => some value
  | .mapping _ _ | .sequence _ _ => none

mutual

/-- The lines below a key. -/
def Value.tokens : Value → List Token
  | .inline _ => []
  | .mapping deeper fields => fields.tokens deeper
  | .sequence deeper items => items.tokens deeper

/-- The lines of a mapping. -/
def Fields.tokens : Fields → ℕ → List Token
  | .nil, _ => []
  | .cons key value rest, indent =>
      .key indent key value.onLine :: (value.tokens ++ rest.tokens indent)

/-- The lines of a sequence. -/
def Items.tokens : Items → ℕ → List Token
  | .nil, _ => []
  | .scalar value rest, indent => .seqItem indent none (some value) :: rest.tokens indent
  | .keyed key inline deeper fields rest, indent =>
      .seqItem indent (some key) inline :: (fields.tokens deeper ++ rest.tokens indent)

end

mutual

/-- A block below a key is deeper than the key and has a line. -/
def Value.Indented : Value → ℕ → Prop
  | .inline _, _ => True
  | .mapping deeper fields, indent => indent < deeper ∧ fields ≠ .nil ∧ fields.Indented deeper
  | .sequence deeper items, indent => indent < deeper ∧ items ≠ .nil ∧ items.Indented deeper

def Fields.Indented : Fields → ℕ → Prop
  | .nil, _ => True
  | .cons _ value rest, indent => value.Indented indent ∧ rest.Indented indent

def Items.Indented : Items → ℕ → Prop
  | .nil, _ => True
  | .scalar _ rest, indent => rest.Indented indent
  | .keyed _ _ deeper fields rest, indent =>
      (fields ≠ .nil → indent < deeper) ∧ fields.Indented deeper ∧ rest.Indented indent

end

def Reads (raw : Str) (fields : Fields) : Prop :=
  tokenize (stripFences raw) = .ok (fields.tokens 0) ∧ fields.Indented 0

/-! ## What the parser makes of an outline -/

/-- The mapping of an item before its deeper lines. -/
def itemStart (key : Str) : Option Inline → OrdMap Str YamlValue
  | some inline => OrdMap.empty.insert key (yamlValue inline)
  | none => OrdMap.empty

mutual

def Value.result : Value → Except Str YamlValue
  | .inline value => .ok (yamlValue value)
  | .mapping _ fields => do return .ofMap (OrdMap.ofList (← fields.entries))
  | .sequence _ items => do return .sequence (← items.results)

def Fields.entries : Fields → Except Str (List (Str × YamlValue))
  | .nil => .ok []
  | .cons key value rest => do
      let result ← value.result
      return (key, result) :: (← rest.entries)

def Items.results : Items → Except Str (List YamlValue)
  | .nil => .ok []
  | .scalar value rest => do return yamlValue value :: (← rest.results)
  | .keyed key inline _ fields rest => do
      let mapping ← insertFields (itemStart key inline) (← fields.entries)
      return .ofMap mapping :: (← rest.results)

end

/-! ## Keys at their places -/

mutual

/-- Every key below a key is a key at its place in a value. -/
def Value.Kept : Value → YamlValue → Prop
  | .inline _, _ => True
  | .mapping _ fields, result => ∃ map, result = .ofMap map ∧ fields.Kept map
  | .sequence _ items, result => ∃ results, result = .sequence results ∧ items.Kept results

/-- Every key of a mapping is a key at its place in a map. -/
def Fields.Kept : Fields → OrdMap Str YamlValue → Prop
  | .nil, _ => True
  | .cons key value rest, map =>
      (∃ result, map.find? key = some result ∧ value.Kept result) ∧ rest.Kept map

/-- Every key of a sequence is a key at its place in a list of values. -/
def Items.Kept : Items → List YamlValue → Prop
  | .nil, results => results = []
  | .scalar _ rest, results => ∃ first others, results = first :: others ∧ rest.Kept others
  | .keyed key _ _ fields rest, results => ∃ map others, results = .ofMap map :: others ∧
      key ∈ map.keys ∧ fields.Kept map ∧ rest.Kept others

end

def Fields.keys : Fields → List Str
  | .nil => []
  | .cons key _ rest => key :: rest.keys

mutual

/-- No mapping below a key repeats a key. -/
def Value.Distinct : Value → Prop
  | .inline _ => True
  | .mapping _ fields => fields.keys.Nodup ∧ fields.Distinct
  | .sequence _ items => items.Distinct

/-- No mapping below the keys of a mapping repeats a key. -/
def Fields.Distinct : Fields → Prop
  | .nil => True
  | .cons _ value rest => value.Distinct ∧ rest.Distinct

/-- No mapping of a sequence repeats a key. -/
def Items.Distinct : Items → Prop
  | .nil => True
  | .scalar _ rest => rest.Distinct
  | .keyed key _ _ fields rest => (key :: fields.keys).Nodup ∧ fields.Distinct ∧ rest.Distinct

end

mutual

/-- Every item with a key has a value on its line, and no mapping below a key repeats a key. -/
def Value.Valued : Value → Prop
  | .inline _ => True
  | .mapping _ fields => fields.keys.Nodup ∧ fields.Valued
  | .sequence _ items => items.Valued

def Fields.Valued : Fields → Prop
  | .nil => True
  | .cons _ value rest => value.Valued ∧ rest.Valued

def Items.Valued : Items → Prop
  | .nil => True
  | .scalar _ rest => rest.Valued
  | .keyed _ inline _ fields rest => inline ≠ none ∧ fields.Valued ∧ rest.Valued

end

/-! ## Stored fields -/

section Stored

variable {entries : List (Str × YamlValue)} {map result : OrdMap Str YamlValue}

/-- Fields that could be stored replaced nothing. -/
theorem insertFields_kept (h : insertFields map entries = .ok result) {key : Str}
    {value : YamlValue} (hfind : map.find? key = some value) : result.find? key = some value := by
  induction entries generalizing map with
  | nil =>
      obtain rfl := ok.inj h
      exact hfind
  | cons entry rest ih =>
      obtain ⟨first, stored⟩ := entry
      rw [insertFields] at h
      split_ifs at h with hcontains
      apply ih h
      have hne : first ≠ key := by
        intro hsame
        subst hsame
        rw [OrdMap.contains, hfind] at hcontains
        exact hcontains rfl
      rw [find?_insert_of_ne _ _ hne, hfind]

theorem insertFields_find? (h : insertFields map entries = .ok result) :
    ∀ entry ∈ entries, result.find? entry.1 = some entry.2 := by
  induction entries generalizing map with
  | nil => exact fun _ h => absurd h not_mem_nil
  | cons entry rest ih =>
      obtain ⟨first, stored⟩ := entry
      rw [insertFields] at h
      split_ifs at h with hcontains
      rw [forall_mem_cons]
      exact ⟨insertFields_kept h (find?_insert_self _ _ _), ih h⟩

theorem mem_keys_insertFields (h : insertFields map entries = .ok result) {key : Str} :
    key ∈ result.keys ↔ key ∈ map.keys ∨ key ∈ entries.map Prod.fst := by
  induction entries generalizing map with
  | nil =>
      obtain rfl := ok.inj h
      simp
  | cons entry rest ih =>
      obtain ⟨first, stored⟩ := entry
      rw [insertFields] at h
      split_ifs at h with hcontains
      rw [ih h, mem_keys_insert, map_cons, mem_cons]
      tauto

end Stored

theorem mem_keys_itemStart {key other : Str} {inline : Option Inline} :
    other ∈ (itemStart key inline).keys ↔ inline ≠ none ∧ other = key := by
  cases inline with
  | none => simp [itemStart]
  | some value => simp [itemStart, mem_keys_insert]

/-- The entries of a mapping stand under its keys. -/
theorem Fields.map_fst_entries {fields : Fields} {entries : List (Str × YamlValue)}
    (h : fields.entries = .ok entries) : entries.map Prod.fst = fields.keys := by
  induction entries generalizing fields with
  | nil =>
      cases fields with
      | nil => rfl
      | cons key value rest =>
          rw [Fields.entries] at h
          obtain ⟨_, _, h⟩ := bind_eq_ok_iff.mp h
          obtain ⟨_, _, h⟩ := bind_eq_ok_iff.mp h
          exact (nomatch ok.inj h)
  | cons entry entries ih =>
      cases fields with
      | nil => exact (nomatch ok.inj h)
      | cons key value rest =>
          rw [Fields.entries] at h
          obtain ⟨result, _, h⟩ := bind_eq_ok_iff.mp h
          obtain ⟨others, hothers, h⟩ := bind_eq_ok_iff.mp h
          obtain ⟨rfl, rfl⟩ := List.cons.inj (ok.inj h)
          rw [map_cons, ih hothers, Fields.keys]

/-! ## Kept outlines are valued outlines -/

mutual

theorem Value.kept_iff (value : Value) : ∀ result, value.result = .ok result →
    (value.Kept result ∧ value.Distinct ↔ value.Valued) := by
  intro result hresult
  cases value with
  | inline value => exact ⟨fun _ => trivial, fun _ => ⟨trivial, trivial⟩⟩
  | mapping deeper fields =>
      rw [Value.result] at hresult
      obtain ⟨entries, hentries, hresult⟩ := bind_eq_ok_iff.mp hresult
      obtain rfl := ok.inj hresult
      have hfields (hnodup : fields.keys.Nodup) : ∀ map : OrdMap Str YamlValue,
          map.entries = (OrdMap.ofList entries).entries →
          (fields.Kept map ∧ fields.Distinct ↔ fields.Valued) := by
        intro map hmap
        rw [← Fields.map_fst_entries hentries] at hnodup
        refine fields.kept_iff entries map hentries fun entry hentry => ?_
        rw [OrdMap.find?, hmap]
        exact (find?_ofList hnodup).mpr hentry
      constructor
      · intro h
        obtain ⟨⟨map, hmap, hkept⟩, hnodup, hdistinct⟩ := h
        exact ⟨hnodup, (hfields hnodup map (YamlValue.mapping.inj hmap).symm).mp
          ⟨hkept, hdistinct⟩⟩
      · intro h
        obtain ⟨hkept, hdistinct⟩ := (hfields h.1 _ rfl).mpr h.2
        exact ⟨⟨_, rfl, hkept⟩, h.1, hdistinct⟩
  | sequence deeper items =>
      rw [Value.result] at hresult
      obtain ⟨results, hresults, hresult⟩ := bind_eq_ok_iff.mp hresult
      obtain rfl := ok.inj hresult
      have hkept : (Value.sequence deeper items).Kept (.sequence results) ↔ items.Kept results :=
        ⟨fun ⟨_, hsame, h⟩ => YamlValue.sequence.inj hsame ▸ h, fun h => ⟨_, rfl, h⟩⟩
      rw [hkept]
      exact items.kept_iff results hresults
termination_by structural value

theorem Fields.kept_iff (fields : Fields) : ∀ entries (map : OrdMap Str YamlValue),
    fields.entries = .ok entries → (∀ entry ∈ entries, map.find? entry.1 = some entry.2) →
    (fields.Kept map ∧ fields.Distinct ↔ fields.Valued) := by
  intro entries map hentries hmap
  cases fields with
  | nil => exact ⟨fun _ => trivial, fun _ => ⟨trivial, trivial⟩⟩
  | cons key value rest =>
      rw [Fields.entries] at hentries
      obtain ⟨result, hresult, hentries⟩ := bind_eq_ok_iff.mp hentries
      obtain ⟨others, hothers, hentries⟩ := bind_eq_ok_iff.mp hentries
      obtain rfl := ok.inj hentries
      obtain ⟨hfirst, hothersMap⟩ := forall_mem_cons.mp hmap
      have hkept : (∃ found, map.find? key = some found ∧ value.Kept found) ↔
          value.Kept result := by simp [hfirst]
      rw [Fields.Kept, Fields.Distinct, Fields.Valued, hkept, and_and_and_comm,
        value.kept_iff result hresult, rest.kept_iff others map hothers hothersMap]
termination_by structural fields

theorem Items.kept_iff (items : Items) : ∀ results, items.results = .ok results →
    (items.Kept results ∧ items.Distinct ↔ items.Valued) := by
  intro results hresults
  cases items with
  | nil =>
      obtain rfl := ok.inj hresults
      exact ⟨fun _ => trivial, fun _ => ⟨rfl, trivial⟩⟩
  | scalar value rest =>
      rw [Items.results] at hresults
      obtain ⟨others, hothers, hresults⟩ := bind_eq_ok_iff.mp hresults
      obtain rfl := ok.inj hresults
      rw [Items.Kept, Items.Distinct, Items.Valued, ← rest.kept_iff others hothers]
      simp
  | keyed key inline deeper fields rest =>
      rw [Items.results] at hresults
      obtain ⟨entries, hentries, hresults⟩ := bind_eq_ok_iff.mp hresults
      obtain ⟨map, hmap, hresults⟩ := bind_eq_ok_iff.mp hresults
      obtain ⟨others, hothers, hresults⟩ := bind_eq_ok_iff.mp hresults
      obtain rfl := ok.inj hresults
      have hfields := fields.kept_iff entries map hentries (insertFields_find? hmap)
      have hrest := rest.kept_iff others hothers
      obtain ⟨hnodup, hfresh, _⟩ := insertFields_spec hmap
      have hkeys (other : Str) := @mem_keys_insertFields _ _ _ hmap other
      rw [Fields.map_fst_entries hentries] at hnodup hfresh hkeys
      constructor
      · intro h
        obtain ⟨⟨map', others', hsame, hmem, hkept, hkeptRest⟩, hdistinct⟩ := h
        obtain ⟨hkeyed, hdistinct, hdistinctRest⟩ := hdistinct
        obtain ⟨hfirst, rfl⟩ := List.cons.inj hsame
        obtain rfl : map = map' :=
          (OrdMap.mk.injEq _ _ _ _).mpr (YamlValue.mapping.inj hfirst)
        refine ⟨?_, hfields.mp ⟨hkept, hdistinct⟩, hrest.mp ⟨hkeptRest, hdistinctRest⟩⟩
        -- without a value on the line, the key would come from a deeper line
        intro hnone
        rcases (hkeys key).mp hmem with hstart | hfield
        · exact (mem_keys_itemStart.mp hstart).1 hnone
        · exact (nodup_cons.mp hkeyed).1 hfield
      · intro h
        obtain ⟨hinline, hvalued, hvaluedRest⟩ := h
        obtain ⟨hkept, hdistinct⟩ := hfields.mpr hvalued
        obtain ⟨hkeptRest, hdistinctRest⟩ := hrest.mpr hvaluedRest
        have hstart : key ∈ (itemStart key inline).keys := mem_keys_itemStart.mpr ⟨hinline, rfl⟩
        have hkey : key ∉ fields.keys := by
          intro hmem
          have hfalse := hfresh key hmem
          rw [OrdMap.contains_iff.mpr hstart] at hfalse
          cases hfalse
        exact ⟨⟨map, others, rfl, (hkeys key).mpr (Or.inl hstart), hkept, hkeptRest⟩,
          nodup_cons.mpr ⟨hkey, hnodup⟩, hdistinct, hdistinctRest⟩
termination_by structural items

end

/-! ## Items with a key, step by step -/

section Keyed

variable {fuel indent : ℕ} {key : Str} {inline : Option Inline} {next : Token}
  {rest after : List Token} {items : List YamlValue}

/-- An item without deeper lines. -/
theorem buildSequence_keyed (h : ∀ token ∈ rest.head?, token.nextIndent ≤ indent) :
    buildSequence (fuel + 1) (.seqItem indent (some key) inline :: rest) indent items =
      buildSequence fuel rest indent (items ++ [.ofMap (itemStart key inline)]) := by
  conv_lhs => unfold buildSequence
  rw [if_neg (not_not.mpr rfl)]
  cases rest with
  | nil => cases inline <;> rfl
  | cons next after =>
      have hnext : ¬next.nextIndent > indent := Nat.not_lt.mpr (h next rfl)
      cases inline <;> exact if_neg hnext

/-- An item with deeper lines. -/
theorem buildSequence_keyed_fields (h : indent < next.nextIndent) :
    buildSequence (fuel + 1) (.seqItem indent (some key) inline :: next :: after) indent items =
      (buildMapping fuel (next :: after) next.nextIndent [] >>= fun result =>
        insertFields (itemStart key inline) result.2 >>= fun mapping =>
          buildSequence fuel result.1 indent (items ++ [.ofMap mapping])) := by
  conv_lhs => unfold buildSequence
  rw [if_neg (not_not.mpr rfl)]
  cases inline <;> exact if_pos h

end Keyed

/-! ## Running the parser on an outline -/

/-- A token that closes every block at an indentation. -/
def Ends (indent : ℕ) (after : List Token) : Prop :=
  ∀ token ∈ after.head?, token.nextIndent < indent

theorem Ends.mono {indent deeper : ℕ} {after : List Token} (h : Ends indent after)
    (hle : indent ≤ deeper) : Ends deeper after :=
  fun token htoken => (h token htoken).trans_le hle

theorem Fields.ends (fields : Fields) {indent deeper : ℕ} {after : List Token}
    (hdeeper : indent < deeper) (hafter : Ends indent after) :
    Ends deeper (fields.tokens indent ++ after) := by
  cases fields with
  | nil => exact hafter.mono hdeeper.le
  | cons key value rest =>
      intro token htoken
      obtain rfl : Token.key indent key value.onLine = token := by
        simpa [Fields.tokens] using htoken
      exact hdeeper

theorem Items.ends (items : Items) {indent deeper : ℕ} {after : List Token}
    (hdeeper : indent < deeper) (hafter : Ends indent after) :
    Ends deeper (items.tokens indent ++ after) := by
  cases items with
  | nil => exact hafter.mono hdeeper.le
  | scalar value rest =>
      intro token htoken
      obtain rfl : Token.seqItem indent none (some value) = token := by
        simpa [Items.tokens] using htoken
      exact hdeeper
  | keyed key inline step fields rest =>
      intro token htoken
      obtain rfl : Token.seqItem indent (some key) inline = token := by
        simpa [Items.tokens] using htoken
      exact hdeeper

theorem buildMapping_ends {fuel indent : ℕ} {after : List Token}
    {entries : List (Str × YamlValue)} (hafter : Ends indent after) (hfuel : after.length < fuel) :
    buildMapping fuel after indent entries = .ok (after, entries) := by
  obtain ⟨fuel, rfl⟩ := Nat.exists_eq_add_one_of_ne_zero (Nat.ne_zero_of_lt hfuel)
  cases after with
  | nil => exact buildMapping_nil
  | cons token rest =>
      have hlt : token.nextIndent < indent := hafter token rfl
      cases token with
      | key keyIndent key inline => exact buildMapping_other (Nat.ne_of_lt hlt)
      | seqItem itemIndent key inline => exact buildMapping_item hlt

theorem buildSequence_ends {fuel indent : ℕ} {after : List Token} {items : List YamlValue}
    (hafter : Ends indent after) (hfuel : after.length < fuel) :
    buildSequence fuel after indent items = .ok (after, items) := by
  obtain ⟨fuel, rfl⟩ := Nat.exists_eq_add_one_of_ne_zero (Nat.ne_zero_of_lt hfuel)
  cases after with
  | nil => exact buildSequence_nil
  | cons token rest =>
      have hlt : token.nextIndent < indent := hafter token rfl
      cases token with
      | key keyIndent key inline => exact buildSequence_key
      | seqItem itemIndent key inline => exact buildSequence_other (Nat.ne_of_lt hlt)

theorem Fields.head {fields : Fields} (h : fields ≠ .nil) (indent : ℕ) :
    ∃ key inline rest, fields.tokens indent = .key indent key inline :: rest := by
  cases fields with
  | nil => exact absurd rfl h
  | cons key value rest => exact ⟨_, _, _, rfl⟩

theorem Items.head {items : Items} (h : items ≠ .nil) (indent : ℕ) :
    ∃ key inline rest, items.tokens indent = .seqItem indent key inline :: rest := by
  cases items with
  | nil => exact absurd rfl h
  | scalar value rest | keyed key inline deeper fields rest => exact ⟨_, _, _, rfl⟩

mutual

/-- The mapping builder takes the lines of the fields and stops behind them. -/
theorem Fields.build (fields : Fields) : ∀ (fuel indent : ℕ) (after : List Token)
    (entries : List (Str × YamlValue)), fields.Indented indent → Ends indent after →
    (fields.tokens indent ++ after).length < fuel →
    buildMapping fuel (fields.tokens indent ++ after) indent entries =
      fields.entries.map fun own => (after, entries ++ own) := by
  intro fuel indent after entries hindented hafter hfuel
  cases fields with
  | nil =>
      rw [Fields.entries, Except.map, append_nil]
      exact buildMapping_ends hafter hfuel
  | cons key value rest =>
      obtain ⟨hvalue, hrest⟩ := hindented
      obtain ⟨fuel, rfl⟩ := Nat.exists_eq_add_one_of_ne_zero (Nat.ne_zero_of_lt hfuel)
      rw [Fields.tokens, cons_append, append_assoc] at hfuel ⊢
      rw [length_cons, length_append] at hfuel
      have hrun : ∀ result, buildMapping fuel (rest.tokens indent ++ after) indent
          (entries ++ [(key, result)]) =
            rest.entries.map fun own => (after, entries ++ (key, result) :: own) := by
        intro result
        rw [rest.build fuel indent after (entries ++ [(key, result)]) hrest hafter (by omega)]
        simp only [append_assoc, singleton_append]
      rw [Fields.entries]
      cases value with
      | inline value =>
          rw [Value.onLine, Value.tokens, nil_append, buildMapping_inline, hrun, Value.result,
            ok_bind]
          cases rest.entries <;> rfl
      | mapping deeper nested =>
          obtain ⟨hdeeper, hne, hnested⟩ := hvalue
          have hinner := nested.build fuel deeper (rest.tokens indent ++ after) [] hnested
            (rest.ends hdeeper hafter)
            (by rw [length_append]; rw [Value.tokens] at hfuel; omega)
          obtain ⟨first, inline, others, hhead⟩ := Fields.head hne deeper
          rw [Value.onLine, Value.tokens, Value.result]
          rw [hhead, cons_append] at hinner ⊢
          rw [buildMapping_mapping hdeeper, hinner]
          cases nested.entries with
          | error error => rfl
          | ok own =>
              show buildMapping fuel (rest.tokens indent ++ after) indent _ = _
              rw [hrun]
              cases rest.entries <;> rfl
      | sequence deeper items =>
          obtain ⟨hdeeper, hne, hitems⟩ := hvalue
          have hinner := items.build fuel deeper (rest.tokens indent ++ after) [] hitems
            (rest.ends hdeeper hafter)
            (by rw [length_append]; rw [Value.tokens] at hfuel; omega)
          obtain ⟨first, inline, others, hhead⟩ := Items.head hne deeper
          rw [Value.onLine, Value.tokens, Value.result]
          rw [hhead, cons_append] at hinner ⊢
          rw [buildMapping_sequence hdeeper, hinner]
          cases items.results with
          | error error => rfl
          | ok own =>
              show buildMapping fuel (rest.tokens indent ++ after) indent _ = _
              rw [hrun]
              cases rest.entries <;> rfl
termination_by structural fields

/-- The sequence builder takes the lines of the items and stops behind them. -/
theorem Items.build (items : Items) : ∀ (fuel indent : ℕ) (after : List Token)
    (results : List YamlValue), items.Indented indent → Ends indent after →
    (items.tokens indent ++ after).length < fuel →
    buildSequence fuel (items.tokens indent ++ after) indent results =
      items.results.map fun own => (after, results ++ own) := by
  intro fuel indent after results hindented hafter hfuel
  cases items with
  | nil =>
      rw [Items.results, Except.map, append_nil]
      exact buildSequence_ends hafter hfuel
  | scalar value rest =>
      obtain ⟨fuel, rfl⟩ := Nat.exists_eq_add_one_of_ne_zero (Nat.ne_zero_of_lt hfuel)
      rw [Items.tokens, cons_append, length_cons] at hfuel
      rw [Items.tokens, cons_append, buildSequence_scalar,
        rest.build fuel indent after _ hindented hafter (by omega), Items.results]
      cases rest.results with
      | error error => rfl
      | ok own =>
          show Except.ok (after, results ++ [yamlValue value] ++ own) = _
          rw [append_assoc]
          rfl
  | keyed key inline deeper fields rest =>
      obtain ⟨hdeeper, hfields, hrest⟩ := hindented
      obtain ⟨fuel, rfl⟩ := Nat.exists_eq_add_one_of_ne_zero (Nat.ne_zero_of_lt hfuel)
      rw [Items.tokens, cons_append, append_assoc] at hfuel ⊢
      rw [length_cons, length_append] at hfuel
      have hrun : ∀ map : OrdMap Str YamlValue,
          buildSequence fuel (rest.tokens indent ++ after) indent (results ++ [.ofMap map]) =
            rest.results.map fun own => (after, results ++ .ofMap map :: own) := by
        intro map
        rw [rest.build fuel indent after (results ++ [YamlValue.ofMap map]) hrest hafter
          (by omega)]
        simp only [append_assoc, singleton_append]
      rw [Items.results]
      by_cases hne : fields = .nil
      · subst hne
        have hshallow : ∀ token ∈ (rest.tokens indent ++ after).head?,
            token.nextIndent ≤ indent := fun token htoken =>
          Nat.le_of_lt_succ (rest.ends (Nat.lt_succ_self indent) hafter token htoken)
        rw [Fields.tokens, nil_append, buildSequence_keyed hshallow, hrun, Fields.entries,
          ok_bind]
        cases rest.results <;> rfl
      · have hinner := fields.build fuel deeper (rest.tokens indent ++ after) [] hfields
          (rest.ends (hdeeper hne) hafter) (by rw [length_append]; omega)
        obtain ⟨first, line, others, hhead⟩ := Fields.head hne deeper
        rw [hhead, cons_append] at hinner ⊢
        rw [buildSequence_keyed_fields (hdeeper hne)]
        show (buildMapping fuel _ deeper [] >>= _) = _
        rw [hinner]
        cases fields.entries with
        | error error => rfl
        | ok own =>
            show (insertFields (itemStart key inline) own >>= fun mapping =>
              buildSequence fuel (rest.tokens indent ++ after) indent
                (results ++ [.ofMap mapping])) = _
            rw [ok_bind]
            cases insertFields (itemStart key inline) own with
            | error error => rfl
            | ok map =>
                rw [ok_bind, hrun]
                cases rest.results <;> rfl
termination_by structural items

end

/-! ## Accepted lines have an outline -/

/-- What the mapping builder took, as fields. -/
def TookFields (indent : ℕ) (tokens rest : List Token) : Prop :=
  ∃ fields : Fields, tokens = fields.tokens indent ++ rest ∧ fields.Indented indent ∧
    ∀ key inline after, tokens = .key indent key inline :: after → fields ≠ .nil

/-- What the sequence builder took, as items. -/
def TookItems (indent : ℕ) (tokens rest : List Token) : Prop :=
  ∃ items : Items, tokens = items.tokens indent ++ rest ∧ items.Indented indent ∧
    ∀ key inline after, tokens = .seqItem indent key inline :: after → items ≠ .nil

theorem tookFields_none {indent : ℕ} {tokens : List Token}
    (h : ∀ key inline after, tokens ≠ .key indent key inline :: after) :
    TookFields indent tokens tokens :=
  ⟨.nil, rfl, trivial, fun key inline after hhead => absurd hhead (h key inline after)⟩

theorem tookItems_none {indent : ℕ} {tokens : List Token}
    (h : ∀ key inline after, tokens ≠ .seqItem indent key inline :: after) :
    TookItems indent tokens tokens :=
  ⟨.nil, rfl, trivial, fun key inline after hhead => absurd hhead (h key inline after)⟩

theorem TookFields.cons {indent : ℕ} {key : Str} {value : Value} {tokens rest : List Token}
    (hvalue : value.Indented indent) (h : TookFields indent tokens rest) :
    TookFields indent (.key indent key value.onLine :: (value.tokens ++ tokens)) rest := by
  obtain ⟨fields, rfl, hindented, _⟩ := h
  refine ⟨.cons key value fields, ?_, ⟨hvalue, hindented⟩, fun _ _ _ _ h => (nomatch h)⟩
  rw [Fields.tokens, cons_append, append_assoc]

theorem TookItems.scalar {indent : ℕ} {value : Inline} {tokens rest : List Token}
    (h : TookItems indent tokens rest) :
    TookItems indent (.seqItem indent none (some value) :: tokens) rest := by
  obtain ⟨items, rfl, hindented, _⟩ := h
  exact ⟨.scalar value items, rfl, hindented, fun _ _ _ _ h => (nomatch h)⟩

theorem TookItems.keyed {indent deeper : ℕ} {key : Str} {inline : Option Inline} {fields : Fields}
    {tokens rest : List Token} (hdeeper : fields ≠ .nil → indent < deeper)
    (hfields : fields.Indented deeper) (h : TookItems indent tokens rest) :
    TookItems indent (.seqItem indent (some key) inline :: (fields.tokens deeper ++ tokens))
      rest := by
  obtain ⟨items, rfl, hindented, _⟩ := h
  refine ⟨.keyed key inline deeper fields items, ?_, ⟨hdeeper, hfields, hindented⟩,
    fun _ _ _ _ h => (nomatch h)⟩
  rw [Items.tokens, cons_append, append_assoc]

theorem TookFields.length_le {indent : ℕ} {tokens rest : List Token}
    (h : TookFields indent tokens rest) : rest.length ≤ tokens.length := by
  obtain ⟨fields, rfl, _⟩ := h
  rw [length_append]
  omega

theorem TookItems.length_le {indent : ℕ} {tokens rest : List Token}
    (h : TookItems indent tokens rest) : rest.length ≤ tokens.length := by
  obtain ⟨items, rfl, _⟩ := h
  rw [length_append]
  omega

section Took

variable {fuel indent : ℕ} {rest : List Token}

/-- The builders find an outline with a bound on their calls. -/
structure BuildsTake (fuel : ℕ) : Prop where
  mapping : ∀ (tokens : List Token) (indent : ℕ) (entries : List (Str × YamlValue))
    (rest : List Token) (entries' : List (Str × YamlValue)), tokens.length < fuel →
    buildMapping fuel tokens indent entries = .ok (rest, entries') → TookFields indent tokens rest
  sequence : ∀ (tokens : List Token) (indent : ℕ) (items : List YamlValue) (rest : List Token)
    (items' : List YamlValue), tokens.length < fuel →
    buildSequence fuel tokens indent items = .ok (rest, items') → TookItems indent tokens rest

/-- A key without a value on its line. -/
theorem BuildsTake.block (h : BuildsTake fuel) {key : Str} {others : List Token}
    {entries entries' : List (Str × YamlValue)} (hfuel : others.length < fuel)
    (hrun : buildMapping (fuel + 1) (.key indent key none :: others) indent entries =
      .ok (rest, entries')) : TookFields indent (.key indent key none :: others) rest := by
  cases others with
  | nil =>
      unfold buildMapping at hrun
      rw [if_neg (not_not.mpr rfl)] at hrun
      cases hrun
  | cons next after =>
      by_cases hdeeper : indent < next.nextIndent
      · cases next with
        | key nextIndent first inline =>
            have hnext : indent < nextIndent := hdeeper
            rw [buildMapping_mapping hnext] at hrun
            obtain ⟨⟨middle, nested⟩, hnested, hrun⟩ := bind_eq_ok_iff.mp hrun
            have htook := h.mapping _ _ _ _ _ hfuel hnested
            have hmore := h.mapping _ _ _ _ _ (htook.length_le.trans_lt hfuel) hrun
            obtain ⟨fields, htokens, hindented, hne⟩ := htook
            rw [htokens]
            exact @TookFields.cons _ key (.mapping nextIndent fields) _ _
              ⟨hdeeper, hne _ _ _ rfl, hindented⟩ hmore
        | seqItem nextIndent first inline =>
            have hnext : indent < nextIndent := hdeeper
            rw [buildMapping_sequence hnext] at hrun
            obtain ⟨⟨middle, nested⟩, hnested, hrun⟩ := bind_eq_ok_iff.mp hrun
            have htook := h.sequence _ _ _ _ _ hfuel hnested
            have hmore := h.mapping _ _ _ _ _ (htook.length_le.trans_lt hfuel) hrun
            obtain ⟨items, htokens, hindented, hne⟩ := htook
            rw [htokens]
            exact @TookFields.cons _ key (.sequence nextIndent items) _ _
              ⟨hdeeper, hne _ _ _ rfl, hindented⟩ hmore
      · unfold buildMapping at hrun
        rw [if_neg (not_not.mpr rfl)] at hrun
        dsimp only at hrun
        rw [if_pos (Nat.le_of_not_lt hdeeper)] at hrun
        cases hrun

/-- An item with a key. -/
theorem BuildsTake.item (h : BuildsTake fuel) {key : Str} {inline : Option Inline}
    {others : List Token} {items items' : List YamlValue} (hfuel : others.length < fuel)
    (hrun : buildSequence (fuel + 1) (.seqItem indent (some key) inline :: others) indent items =
      .ok (rest, items')) :
    TookItems indent (.seqItem indent (some key) inline :: others) rest := by
  by_cases hshallow : ∀ token ∈ others.head?, token.nextIndent ≤ indent
  · rw [buildSequence_keyed hshallow] at hrun
    have hmore := h.sequence _ _ _ _ _ hfuel hrun
    exact @TookItems.keyed indent indent key inline .nil _ _ (fun hne => absurd rfl hne) trivial
      hmore
  · cases others with
    | nil => exact absurd (fun _ htoken => (nomatch htoken)) hshallow
    | cons next after =>
        have hdeeper : indent < next.nextIndent := by
          by_contra hle
          apply hshallow
          intro token htoken
          obtain rfl := Option.some.inj htoken
          exact Nat.le_of_not_lt hle
        rw [buildSequence_keyed_fields hdeeper] at hrun
        obtain ⟨⟨middle, fields⟩, hfields, hrun⟩ := bind_eq_ok_iff.mp hrun
        obtain ⟨map, _, hrun⟩ := bind_eq_ok_iff.mp hrun
        have htook := h.mapping _ _ _ _ _ hfuel hfields
        have hmore := h.sequence _ _ _ _ _ (htook.length_le.trans_lt hfuel) hrun
        obtain ⟨fields, htokens, hindented, _⟩ := htook
        rw [htokens]
        exact TookItems.keyed (fun _ => hdeeper) hindented hmore

theorem buildsTake (fuel : ℕ) : BuildsTake fuel := by
  induction fuel with
  | zero => exact ⟨fun _ _ _ _ _ h => absurd h (Nat.not_lt_zero _),
      fun _ _ _ _ _ h => absurd h (Nat.not_lt_zero _)⟩
  | succ fuel ih =>
      constructor
      · intro tokens indent entries rest entries' hfuel h
        cases tokens with
        | nil =>
            rw [buildMapping_nil] at h
            obtain ⟨rfl, _⟩ := Prod.mk.inj (ok.inj h)
            exact tookFields_none fun _ _ _ hhead => by cases hhead
        | cons token others =>
            have hless : others.length < fuel := Nat.lt_of_succ_lt_succ hfuel
            cases token with
            | seqItem itemIndent key inline =>
                unfold buildMapping at h
                split_ifs at h
                obtain ⟨rfl, _⟩ := Prod.mk.inj (ok.inj h)
                exact tookFields_none fun _ _ _ hhead => by cases hhead
            | key keyIndent key inline =>
                by_cases hsame : keyIndent = indent
                · subst hsame
                  cases inline with
                  | some value =>
                      rw [buildMapping_inline] at h
                      have hmore := ih.mapping _ _ _ _ _ hless h
                      exact @TookFields.cons _ key (.inline value) _ _ trivial hmore
                  | none => exact ih.block hless h
                · rw [buildMapping_other hsame] at h
                  obtain ⟨rfl, _⟩ := Prod.mk.inj (ok.inj h)
                  refine tookFields_none fun _ _ _ hhead => ?_
                  exact hsame (Token.key.inj (List.cons.inj hhead).1).1
      · intro tokens indent items rest items' hfuel h
        cases tokens with
        | nil =>
            rw [buildSequence_nil] at h
            obtain ⟨rfl, _⟩ := Prod.mk.inj (ok.inj h)
            exact tookItems_none fun _ _ _ hhead => by cases hhead
        | cons token others =>
            have hless : others.length < fuel := Nat.lt_of_succ_lt_succ hfuel
            cases token with
            | key keyIndent key inline =>
                rw [buildSequence_key] at h
                obtain ⟨rfl, _⟩ := Prod.mk.inj (ok.inj h)
                exact tookItems_none fun _ _ _ hhead => by cases hhead
            | seqItem itemIndent key inline =>
                by_cases hsame : itemIndent = indent
                · subst hsame
                  cases key with
                  | some key => exact ih.item hless h
                  | none =>
                      cases inline with
                      | some value =>
                          rw [buildSequence_scalar] at h
                          exact (ih.sequence _ _ _ _ _ hless h).scalar
                      | none =>
                          unfold buildSequence at h
                          rw [if_neg (not_not.mpr rfl)] at h
                          cases h
                · rw [buildSequence_other hsame] at h
                  obtain ⟨rfl, _⟩ := Prod.mk.inj (ok.inj h)
                  refine tookItems_none fun _ _ _ hhead => ?_
                  exact hsame (Token.seqItem.inj (List.cons.inj hhead).1).1

end Took

/-! ## The parser -/

/-- An accepted text has an outline. -/
theorem exists_reads {raw : Str} {map : OrdMap Str YamlValue}
    (h : parseFrontmatter raw = .ok map) : ∃ fields, Reads raw fields := by
  rw [parseFrontmatter] at h
  obtain ⟨tokens, htokens, h⟩ := bind_eq_ok_iff.mp h
  obtain ⟨⟨rest, entries⟩, hbuild, h⟩ := bind_eq_ok_iff.mp h
  dsimp only at h
  split_ifs at h with hrest
  obtain rfl := not_not.mp hrest
  obtain ⟨fields, rfl, hindented, _⟩ := (buildsTake _).mapping _ _ _ _ _ (Nat.lt_succ_self _) hbuild
  rw [append_nil] at htokens
  exact ⟨fields, htokens, hindented⟩

/-- The map of an accepted text holds the entries of its outline. -/
theorem entries_of_reads {raw : Str} {map : OrdMap Str YamlValue} {fields : Fields}
    (h : parseFrontmatter raw = .ok map) (hreads : Reads raw fields) :
    ∃ entries, fields.entries = .ok entries ∧ insertFields .empty entries = .ok map := by
  obtain ⟨htokens, hindented⟩ := hreads
  rw [parseFrontmatter, htokens, ok_bind] at h
  have hbuild := fields.build ((fields.tokens 0).length + 1) 0 [] [] hindented
    (fun _ htoken => (nomatch htoken)) (by rw [append_nil]; exact Nat.lt_succ_self _)
  rw [append_nil] at hbuild
  rw [hbuild] at h
  cases hentries : fields.entries with
  | error error =>
      rw [hentries] at h
      cases h
  | ok entries =>
      rw [hentries] at h
      exact ⟨entries, rfl, h⟩

/-- Of an accepted text every key is kept at its place and no mapping repeats a key exactly when
every item with a key has a value on its line and no mapping below a key repeats one. -/
theorem parseFrontmatter_keeps_iff {raw : Str} {map : OrdMap Str YamlValue}
    (h : parseFrontmatter raw = .ok map) :
    (∃ fields, Reads raw fields) ∧ ∀ fields, Reads raw fields →
      (fields.Kept map ∧ fields.keys.Nodup ∧ fields.Distinct ↔ fields.Valued) := by
  refine ⟨exists_reads h, fun fields hreads => ?_⟩
  obtain ⟨entries, hentries, hmap⟩ := entries_of_reads h hreads
  have hnodup := (insertFields_spec hmap).1
  rw [Fields.map_fst_entries hentries] at hnodup
  rw [← fields.kept_iff entries map hentries (insertFields_find? hmap)]
  exact and_congr_right fun _ => and_iff_right hnodup

/-- A key without a value in a sequence item. -/
def droppedText : Str := "s:\n  - by:\n    x: 1\n".toList

def droppedMap : OrdMap Str YamlValue :=
  .ofList [("s".toList, .sequence [.ofMap (.ofList [("x".toList, .string "1".toList)])])]

theorem parseFrontmatter_keeps_iff_plain :
    (∃ fields, Reads "a: b\n".toList fields) ∧ ∀ fields, Reads "a: b\n".toList fields →
      (fields.Kept (.ofList [(['a'], .string ['b'])]) ∧ fields.keys.Nodup ∧ fields.Distinct ↔
        fields.Valued) :=
  parseFrontmatter_keeps_iff rfl

/-- The parser accepts a text whose key `by` is nowhere in the result. -/
theorem not_parseFrontmatter_keeps_dropped :
    ¬∀ (raw : Str) (map : OrdMap Str YamlValue), parseFrontmatter raw = .ok map →
      ∀ fields, Reads raw fields → fields.Kept map ∧ fields.keys.Nodup ∧ fields.Distinct := by
  intro hall
  have hreads : Reads droppedText (.cons ['s'] (.sequence 2 (.keyed ['b', 'y'] none 4
      (.cons ['x'] (.inline (.scalar ['1'])) .nil) .nil)) .nil) := by
    refine ⟨rfl, ⟨by omega, by simp, ?_⟩, trivial⟩
    exact ⟨fun _ => by omega, ⟨trivial, trivial⟩, trivial⟩
  have hparse : parseFrontmatter droppedText = .ok droppedMap := rfl
  obtain ⟨⟨⟨_, hfind, results, rfl, map, others, rfl, hmem, _⟩, _⟩, _⟩ :=
    hall droppedText droppedMap hparse _ hreads
  have hvalue : droppedMap.find? ['s'] =
      some (.sequence [.ofMap (.ofList [(['x'], .string ['1'])])]) := rfl
  have hitems := YamlValue.sequence.inj (Option.some.inj (hvalue.symm.trans hfind))
  have hentries := YamlValue.mapping.inj (List.cons.inj hitems).1
  rw [OrdMap.keys, ← hentries] at hmem
  exact absurd hmem (by decide)

end Bran.Frontmatter.Outline
