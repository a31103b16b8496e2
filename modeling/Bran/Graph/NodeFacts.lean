import Bran.Graph.Model

/-!
# The facts of a node

`NodeFacts` counts its payload while values are added, ignored and replaced, and finds a value by
halving.  Both stay right along every sequence of builders.
-/

namespace Bran.Graph.NodeFacts

open List OrdMap

open Text (byteLen)

def fieldBytes (key : Str) (values : List Str) : ℕ := byteLen key + (values.map byteLen).sum

def payloadBytes (fields : OrdMap Str (List Str)) : ℕ := (fields.mapValues fieldBytes).values.sum

/-! ## The builders -/

/-- `replace_single_value`: `none` is the underflow of its subtraction. -/
def replaceSingleValue (facts : NodeFacts) (key value : Str) :
    Option (Except GraphError NodeFacts) :=
  match facts.fields.find? key with
  | none => some (facts.withFieldValue key value)
  | some values =>
      if facts.semanticBytes < fieldBytes key values then none
      else some (withFieldValue ⟨facts.fields.erase key,
        facts.semanticBytes - fieldBytes key values⟩ key value)

def withTag (facts : NodeFacts) (value : Str) := facts.withFieldValue "tags".toList value
def withStatus (facts : NodeFacts) (value : Str) := facts.replaceSingleValue "status".toList value
def withFreshness (facts : NodeFacts) (value : Str) :=
  facts.replaceSingleValue "freshness".toList value
def withSubsystem (facts : NodeFacts) (value : Str) :=
  facts.replaceSingleValue "subsystem".toList value
def withPurpose (facts : NodeFacts) (value : Str) := facts.replaceSingleValue "purpose".toList value
def withTask (facts : NodeFacts) (value : Str) := facts.replaceSingleValue "task".toList value
def withAudience (facts : NodeFacts) (value : Str) :=
  facts.replaceSingleValue "audience".toList value

/-- A value that a builder gave to a key, and whether it replaced the others. -/
structure Change where
  key : Str
  value : Str
  replaces : Bool

/-- The facts that builders make from the default, with their changes, the last one first. -/
inductive Built : List Change → NodeFacts → Prop
  | default : Built [] default
  | added {changes facts key value next} : Built changes facts →
      facts.withFieldValue key value = .ok next → Built (⟨key, value, false⟩ :: changes) next
  | replaced {changes facts key value next} : Built changes facts →
      facts.replaceSingleValue key value = some (.ok next) →
        Built (⟨key, value, true⟩ :: changes) next

/-- A change gave the value to the key, and no later one replaced it. -/
def Given (changes : List Change) (key value : Str) : Prop :=
  ∃ later change earlier, changes = later ++ change :: earlier ∧ change.key = key ∧
    change.value = value ∧ ∀ other ∈ later, other.key = key → other.replaces = false

variable {facts next : NodeFacts} {key value : Str} {values : List Str}
  {fields : OrdMap Str (List Str)} {changes : List Change}

theorem given_cons {change : Change} : Given (change :: changes) key value ↔
    (change.key = key ∧ change.value = value) ∨
      (change.key = key → change.replaces = false) ∧ Given changes key value := by
  constructor
  · intro ⟨later, given, earlier, hsplit, hkey, hvalue, hlater⟩
    cases later with
    | nil =>
        obtain ⟨rfl, rfl⟩ := List.cons.inj hsplit
        exact Or.inl ⟨hkey, hvalue⟩
    | cons first later =>
        obtain ⟨rfl, rfl⟩ := List.cons.inj hsplit
        obtain ⟨hfirst, hlater⟩ := forall_mem_cons.mp hlater
        exact Or.inr ⟨hfirst, later, given, earlier, rfl, hkey, hvalue, hlater⟩
  · rintro (⟨hkey, hvalue⟩ | ⟨hchange, later, given, earlier, rfl, hkey, hvalue, hlater⟩)
    · exact ⟨[], change, changes, rfl, hkey, hvalue, by simp⟩
    · exact ⟨change :: later, given, earlier, rfl, hkey, hvalue,
        forall_mem_cons.mpr ⟨hchange, hlater⟩⟩

/-! ## The search -/

/-- Halving finds what a sorted list holds. -/
theorem binarySearch_iff (fuel : ℕ) (hsorted : values.Pairwise (· < ·))
    (hfuel : values.length ≤ fuel) : binarySearch value fuel values = true ↔ value ∈ values := by
  induction fuel generalizing values with
  | zero =>
      obtain rfl := length_eq_zero_iff.mp (Nat.le_zero.mp hfuel)
      simp [binarySearch]
  | succ fuel ih =>
      unfold binarySearch
      cases hmiddle : values[values.length / 2]? with
      | none =>
          have hlength := List.getElem?_eq_none_iff.mp hmiddle
          obtain rfl : values = [] := length_eq_zero_iff.mp (by omega)
          simp
      | some middle =>
          obtain ⟨hlt, hget⟩ := List.getElem?_eq_some_iff.mp hmiddle
          -- the middle stands between what is below it and what is above it
          have hsplit : values = values.take (values.length / 2) ++
              middle :: values.drop (values.length / 2 + 1) := by
            rw [← hget, ← drop_eq_getElem_cons hlt, take_append_drop]
          have hparts := hsorted
          rw [hsplit, pairwise_append, pairwise_cons] at hparts
          obtain ⟨hlow, ⟨habove, hhigh⟩, hbelow⟩ := hparts
          have hmem : value ∈ values ↔ value ∈ values.take (values.length / 2) ∨
              value = middle ∨ value ∈ values.drop (values.length / 2 + 1) := by
            rw [← mem_cons, ← mem_append, ← hsplit]
          dsimp only
          split_ifs with heq hless
          · simp [hmem, heq]
          · rw [ih hhigh (by rw [length_drop]; omega), hmem]
            have hnot : value ∉ values.take (values.length / 2) := fun hin =>
              absurd (hbelow value hin middle mem_cons_self) (not_lt.mpr hless.le)
            simp [hnot, Ne.symm heq]
          · rw [ih hlow (by rw [length_take]; omega), hmem]
            have hnot : value ∉ values.drop (values.length / 2 + 1) := fun hin =>
              hless (habove value hin)
            simp [hnot, Ne.symm heq]

/-! ## What holds of the facts that are built -/

/-- The fields are within their limits and counted. -/
structure Counted (facts : NodeFacts) : Prop where
  values : ∀ key values, facts.values key = some values →
    values.Pairwise (· < ·) ∧ values ≠ [] ∧ values.length ≤ maxValuesPerField
  fields : facts.fields.keys.length ≤ maxFields
  bytes : facts.semanticBytes = payloadBytes facts.fields
  bounded : facts.semanticBytes ≤ maxSemanticBytes

/-- What the changes leave in the facts. -/
structure Sound (changes : List Change) (facts : NodeFacts) : Prop extends Counted facts where
  contains : ∀ key value, facts.containsValue key value = true ↔ Given changes key value
  noUnderflow : ∀ key value, facts.replaceSingleValue key value ≠ none

/-- The values of a key, none for an absent one. -/
def held (facts : NodeFacts) (key : Str) : List Str := (facts.values key).getD []

theorem payloadBytes_insert : payloadBytes (fields.insert key values) +
    ((fields.find? key).map (fieldBytes key)).getD 0 =
      payloadBytes fields + fieldBytes key values := by
  have hsum := sum_values_insert (fields.mapValues fieldBytes) key (fieldBytes key values)
  rw [find?_mapValues, ← mapValues_insert] at hsum
  exact hsum

/-- A field that is taken out takes its bytes along. -/
theorem payloadBytes_erase (hfind : fields.find? key = some values) :
    payloadBytes (fields.erase key) + fieldBytes key values = payloadBytes fields := by
  have hsum := @payloadBytes_insert key values (fields.erase key)
  rw [restore_erase hfind, find?_erase, if_pos rfl] at hsum
  exact hsum.symm

theorem counted_erase (h : Counted facts) (hfind : facts.fields.find? key = some values) :
    fieldBytes key values ≤ facts.semanticBytes ∧
      Counted ⟨facts.fields.erase key, facts.semanticBytes - fieldBytes key values⟩ := by
  have hbytes := payloadBytes_erase hfind
  have hcount := h.bytes
  have hbounded := h.bounded
  refine ⟨by omega, fun other items hitems => h.values other items ?_, ?_, ?_, ?_⟩
  · rw [NodeFacts.values, find?_erase] at hitems
    split_ifs at hitems
    exact hitems
  · exact (filter_sublist.map Prod.fst).length_le.trans h.fields
  · show facts.semanticBytes - _ = payloadBytes (facts.fields.erase key)
    omega
  · show facts.semanticBytes - _ ≤ _
    omega

/-- A builder either finds the value or stores it within the limits. -/
theorem withFieldValue_eq_ok (h : facts.withFieldValue key value = .ok next) :
    (value ∈ facts.held key ∧ next = facts) ∨
      value ∉ facts.held key ∧ (facts.held key).length ≠ maxValuesPerField ∧
        (facts.fields.find? key = none → facts.fields.keys.length ≠ maxFields) ∧
        facts.semanticBytes + facts.additionalBytes key value ≤ maxSemanticBytes ∧
        next = facts.store key value := by
  have hwithin (hwithin : withFieldValue.withinSemanticBytes facts key value = .ok next) :
      facts.semanticBytes + facts.additionalBytes key value ≤ maxSemanticBytes ∧
        next = facts.store key value := by
    unfold withFieldValue.withinSemanticBytes at hwithin
    dsimp only at hwithin
    split_ifs at hwithin with hlimit
    exact ⟨Nat.le_of_not_gt hlimit, (Except.ok.inj hwithin).symm⟩
  unfold withFieldValue at h
  unfold held NodeFacts.values
  cases hfind : facts.fields.find? key with
  | none =>
      simp only [hfind] at h
      split_ifs at h with _ _ hfields
      exact Or.inr ⟨not_mem_nil, by decide, fun _ => hfields, hwithin h⟩
  | some values =>
      simp only [hfind, contains_iff_mem] at h
      split_ifs at h with _ _ hmem hlength
      · exact Or.inl ⟨hmem, (Except.ok.inj h).symm⟩
      · exact Or.inr ⟨hmem, hlength, fun hnone => (nomatch hnone), hwithin h⟩

theorem Counted.held (h : Counted facts) :
    (facts.held key).Nodup ∧ (facts.held key).length ≤ maxValuesPerField := by
  unfold NodeFacts.held
  cases hvalues : facts.values key with
  | none => exact ⟨nodup_nil, Nat.zero_le _⟩
  | some values =>
      obtain ⟨hsorted, _, hshort⟩ := h.values key values hvalues
      exact ⟨hsorted.imp ne_of_lt, hshort⟩

/-- A value that is stored takes its place in the order. -/
theorem sorted_held (h : (facts.held key).Nodup) (hnew : value ∉ facts.held key) :
    ((facts.held key ++ [value]).insertionSort (· ≤ ·)).Pairwise (· < ·) := by
  have hnodup : (facts.held key ++ [value]).Nodup := by
    rw [nodup_append]
    refine ⟨h, nodup_singleton _, fun item hitem other hother heq => hnew ?_⟩
    rwa [← mem_singleton.mp hother, ← heq]
  have hsorted := (pairwise_insertionSort (· ≤ ·) (facts.held key ++ [value])).and
    ((perm_insertionSort _ _).nodup_iff.mpr hnodup)
  exact hsorted.imp fun hle => lt_of_le_of_ne hle.1 hle.2

theorem keys_insert_le (hle : fields.keys.length ≤ maxFields)
    (hnew : fields.find? key = none → fields.keys.length ≠ maxFields) :
    (fields.insert key values).keys.length ≤ maxFields := by
  have hcount := total_insert (fun _ => 1) fields key values
  rw [total_one, total_one] at hcount
  cases hfind : fields.find? key with
  | none =>
      have hne := hnew hfind
      simp only [hfind, Option.map_none, Option.getD_none] at hcount
      omega
  | some _ =>
      simp only [hfind, Option.map_some, Option.getD_some] at hcount
      omega

theorem payloadBytes_store : payloadBytes (facts.store key value).fields =
    payloadBytes facts.fields + facts.additionalBytes key value := by
  have hsum := @payloadBytes_insert key
    ((facts.held key ++ [value]).insertionSort (· ≤ ·)) facts.fields
  have hvalues : (((facts.held key ++ [value]).insertionSort (· ≤ ·)).map byteLen).sum =
      ((facts.held key).map byteLen).sum + byteLen value := by
    rw [((perm_insertionSort _ _).map byteLen).sum_nat, map_append, sum_append, map_singleton,
      sum_singleton]
  rw [fieldBytes, hvalues] at hsum
  unfold additionalBytes OrdMap.contains store
  unfold held NodeFacts.values at hsum
  cases hfind : facts.fields.find? key with
  | none => simp [hfind] at hsum ⊢; omega
  | some values => simp [hfind, fieldBytes] at hsum ⊢; omega

/-- A value that is stored keeps the fields counted. -/
theorem counted_store (h : Counted facts) (hnew : value ∉ facts.held key)
    (hlength : (facts.held key).length ≠ maxValuesPerField)
    (hfields : facts.fields.find? key = none → facts.fields.keys.length ≠ maxFields)
    (hbytes : facts.semanticBytes + facts.additionalBytes key value ≤ maxSemanticBytes) :
    Counted (facts.store key value) := by
  obtain ⟨hnodup, hshort⟩ := @h.held _ key
  refine ⟨fun other items hitems => ?_, keys_insert_le h.fields hfields, ?_, hbytes⟩
  · rw [NodeFacts.values, store, find?_insert] at hitems
    split_ifs at hitems
    · obtain rfl := Option.some.inj hitems
      have hlen := length_insertionSort (· ≤ ·) (facts.held key ++ [value])
      rw [length_append, length_singleton] at hlen
      refine ⟨sorted_held hnodup hnew, ne_nil_of_length_pos ?_, ?_⟩
      · exact hlen.symm ▸ Nat.succ_pos _
      · exact hlen.le.trans (Nat.lt_of_le_of_ne hshort hlength)
    · exact h.values other items hitems
  · rw [payloadBytes_store, ← h.bytes]
    rfl

theorem counted_withFieldValue (h : Counted facts)
    (hok : facts.withFieldValue key value = .ok next) : Counted next ∧
      ∀ other item, item ∈ next.held other ↔ (key = other ∧ value = item) ∨
        item ∈ facts.held other := by
  obtain ⟨hmem, rfl⟩ | ⟨hnew, hlength, hfields, hbytes, rfl⟩ := withFieldValue_eq_ok hok
  · exact ⟨h, fun other item => ⟨Or.inr, fun hin => hin.elim (fun ⟨hkey, hvalue⟩ =>
      hkey ▸ hvalue ▸ hmem) id⟩⟩
  · refine ⟨counted_store h hnew hlength hfields hbytes, fun other item => ?_⟩
    rw [held, NodeFacts.values, store, find?_insert]
    split_ifs with hsame
    · subst hsame
      simp [held, NodeFacts.values, or_comm, eq_comm]
    · simp [held, NodeFacts.values, hsame]

theorem containsValue_iff (h : Counted facts) :
    facts.containsValue key value = true ↔ value ∈ facts.held key := by
  unfold containsValue held
  cases hvalues : facts.values key with
  | none => simp
  | some values => exact binarySearch_iff values.length (h.values key values hvalues).1 le_rfl

/-- A replacement leaves its value alone under the key. -/
theorem counted_replaceSingleValue (h : Counted facts)
    (hok : facts.replaceSingleValue key value = some (.ok next)) : Counted next ∧
      ∀ other item, item ∈ next.held other ↔ (key = other ∧ value = item) ∨
        key ≠ other ∧ item ∈ facts.held other := by
  unfold replaceSingleValue at hok
  cases hfind : facts.fields.find? key with
  | none =>
      simp only [hfind] at hok
      obtain ⟨hnext, hheld⟩ := counted_withFieldValue h (Option.some.inj hok)
      refine ⟨hnext, fun other item => (hheld other item).trans (or_congr_right ⟨fun hin => ?_,
        And.right⟩)⟩
      refine ⟨?_, hin⟩
      -- nothing is held under an absent key
      rintro rfl
      simp [held, NodeFacts.values, hfind] at hin
  | some values =>
      simp only [hfind] at hok
      split_ifs at hok
      obtain ⟨hnext, hheld⟩ := counted_withFieldValue (counted_erase h hfind).2
        (Option.some.inj hok)
      refine ⟨hnext, fun other item => (hheld other item).trans (or_congr_right ?_)⟩
      rw [held, NodeFacts.values, find?_erase]
      split_ifs with hsame
      · simp [hsame]
      · simp [hsame, held, NodeFacts.values]

/-- Facts that builders made are sorted, bounded, counted and hold what was given. -/
theorem built_sound (h : Built changes facts) : Sound changes facts := by
  -- each builder keeps the count, and holds what it was given on top of what was held
  have hbuilt : Counted facts ∧ ∀ key value, value ∈ facts.held key ↔ Given changes key value := by
    induction h with
    | default =>
        refine ⟨⟨fun _ _ h => (nomatch h), Nat.zero_le _, rfl, Nat.zero_le _⟩, fun key value => ?_⟩
        simp [held, NodeFacts.values, default, Given]
    | added _ hok ih =>
        obtain ⟨hnext, hheld⟩ := counted_withFieldValue ih.1 hok
        refine ⟨hnext, fun other item => ?_⟩
        rw [hheld, ih.2, given_cons]
        simp
    | replaced _ hok ih =>
        obtain ⟨hnext, hheld⟩ := counted_replaceSingleValue ih.1 hok
        refine ⟨hnext, fun other item => ?_⟩
        rw [hheld, ih.2, given_cons]
        simp
  obtain ⟨hcounted, hheld⟩ := hbuilt
  refine ⟨hcounted, fun key value => (containsValue_iff hcounted).trans (hheld key value), ?_⟩
  intro key value
  unfold replaceSingleValue
  cases hfind : facts.fields.find? key with
  | none => simp
  | some values => simp [Nat.not_lt.mpr (counted_erase hcounted hfind).1]

/-- A second status takes the place of the first. -/
theorem built_sound_status : Sound [⟨"status".toList, "final".toList, true⟩,
    ⟨"status".toList, "draft".toList, true⟩] (default.store "status".toList "final".toList) :=
  built_sound (.replaced (.replaced .default rfl) rfl)

end Bran.Graph.NodeFacts
