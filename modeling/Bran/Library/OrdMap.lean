import Mathlib.Algebra.Group.Int.Defs
import Mathlib.Algebra.GroupWithZero.Nat
import Mathlib.Data.List.Sort

/-!
# Ordered finite maps

An `OrdMap K V` is an association list whose keys strictly increase, so that it
can be both looked up and iterated in key order and so that two maps with the
same lookups are equal.  The order of the keys is a field of the structure: no
operation can return an unsorted map.
-/

universe u v

/-- A finite map iterated in increasing key order. -/
structure OrdMap (K : Type u) (V : Type v) [LinearOrder K] where
  entries : List (K × V)
  sorted : (entries.map Prod.fst).Pairwise (· < ·)

namespace OrdMap

open List (map_cons mem_cons pairwise_cons mem_map map_map sum_cons)

variable {K : Type u} {V : Type v} [LinearOrder K]

instance [DecidableEq V] : DecidableEq (OrdMap K V) := fun first second =>
  decidable_of_iff (first.entries = second.entries) (by
    cases first
    cases second
    simp)

/-! ## Operations -/

/-- The map without entries. -/
def empty : OrdMap K V := ⟨[], List.Pairwise.nil⟩

instance : Inhabited (OrdMap K V) := ⟨empty⟩

/-- The first value stored under a key in an entry list. -/
def findEntry (key : K) : List (K × V) → Option V
  | [] => none
  | (k, v) :: rest => if k = key then some v else findEntry key rest

/-- The value stored under a key. -/
def find? (m : OrdMap K V) (key : K) : Option V := findEntry key m.entries

/-- Whether a key is stored. -/
def contains (m : OrdMap K V) (key : K) : Bool := (m.find? key).isSome

def keys (m : OrdMap K V) : List K := m.entries.map Prod.fst

def values (m : OrdMap K V) : List V := m.entries.map Prod.snd

/-- Sorted insertion into an entry list, replacing an entry of the same key. -/
def insertEntry (key : K) (value : V) : List (K × V) → List (K × V)
  | [] => [(key, value)]
  | (k, v) :: rest =>
      if key < k then (key, value) :: (k, v) :: rest
      else if key = k then (key, value) :: rest
      else (k, v) :: insertEntry key value rest

theorem mem_keys_insertEntry {key k : K} {value : V} {entries : List (K × V)} :
    k ∈ (insertEntry key value entries).map Prod.fst ↔
      k = key ∨ k ∈ entries.map Prod.fst := by
  induction entries with
  | nil => simp [insertEntry]
  | cons entry rest ih =>
      obtain ⟨k', v'⟩ := entry
      rw [insertEntry]
      split_ifs with hlt heq
      · simp
      · subst heq
        simp
      · simp only [map_cons, mem_cons, ih]
        tauto

theorem sorted_insertEntry {key : K} {value : V} {entries : List (K × V)}
    (hsorted : (entries.map Prod.fst).Pairwise (· < ·)) :
    ((insertEntry key value entries).map Prod.fst).Pairwise (· < ·) := by
  induction entries with
  | nil => simp [insertEntry]
  | cons entry rest ih =>
      obtain ⟨k', v'⟩ := entry
      rw [map_cons, pairwise_cons] at hsorted
      rw [insertEntry]
      split_ifs with hlt heq
      · rw [map_cons, pairwise_cons]
        refine ⟨fun k hk => ?_, List.pairwise_cons.mpr hsorted⟩
        rcases List.mem_cons.mp hk with rfl | hk
        · exact hlt
        · exact hlt.trans (hsorted.1 k hk)
      · subst heq
        exact List.pairwise_cons.mpr hsorted
      · rw [map_cons, pairwise_cons]
        refine ⟨fun k hk => ?_, ih hsorted.2⟩
        rcases mem_keys_insertEntry.mp hk with rfl | hk
        · exact lt_of_le_of_ne (not_lt.mp hlt) (Ne.symm heq)
        · exact hsorted.1 k hk

/-- Stores a value under a key, replacing the one stored there. -/
def insert (m : OrdMap K V) (key : K) (value : V) : OrdMap K V :=
  ⟨insertEntry key value m.entries, sorted_insertEntry m.sorted⟩

/-- Removes a key. -/
def erase (m : OrdMap K V) (key : K) : OrdMap K V :=
  ⟨m.entries.filter fun entry => entry.1 ≠ key,
    m.sorted.sublist (List.filter_sublist.map Prod.fst)⟩

/-- The map of an entry list; of two entries with one key the later one stays. -/
def ofList (entries : List (K × V)) : OrdMap K V :=
  entries.foldl (fun m entry => m.insert entry.1 entry.2) empty

/-- Applies a function to every value. -/
def mapValues {W : Type*} (f : K → V → W) (m : OrdMap K V) : OrdMap K W :=
  ⟨m.entries.map fun entry => (entry.1, f entry.1 entry.2), by
    simpa [List.map_map, Function.comp_def] using m.sorted⟩

/-! ## Lookups -/

@[simp] theorem find?_empty (key : K) : (empty : OrdMap K V).find? key = none := rfl

@[simp] theorem keys_empty : (empty : OrdMap K V).keys = [] := rfl

theorem findEntry_insertEntry (key key' : K) (value : V) (entries : List (K × V)) :
    findEntry key' (insertEntry key value entries) =
      if key = key' then some value else findEntry key' entries := by
  induction entries with
  | nil => simp [insertEntry, findEntry]
  | cons entry rest ih =>
      obtain ⟨k, v⟩ := entry
      rw [insertEntry]
      by_cases hkey : key = key'
      · subst hkey
        rw [if_pos rfl] at ih ⊢
        split_ifs with hlt heq
        · simp [findEntry]
        · simp [findEntry]
        · simp [findEntry, Ne.symm heq, ih]
      · rw [if_neg hkey] at ih ⊢
        split_ifs with hlt heq
        · simp [findEntry, hkey]
        · subst heq
          simp [findEntry, hkey]
        · simp [findEntry, ih]

theorem find?_insert (m : OrdMap K V) (key key' : K) (value : V) :
    (m.insert key value).find? key' = if key = key' then some value else m.find? key' :=
  findEntry_insertEntry key key' value m.entries

@[simp] theorem find?_insert_self (m : OrdMap K V) (key : K) (value : V) :
    (m.insert key value).find? key = some value := by
  rw [find?_insert, if_pos rfl]

theorem find?_insert_of_ne (m : OrdMap K V) {key key' : K} (value : V) (hne : key ≠ key') :
    (m.insert key value).find? key' = m.find? key' := by
  rw [find?_insert, if_neg hne]

theorem mem_entries_iff {m : OrdMap K V} {key : K} {value : V} :
    (key, value) ∈ m.entries ↔ m.find? key = some value := by
  obtain ⟨entries, hsorted⟩ := m
  simp only [find?]
  induction entries with
  | nil => simp [findEntry]
  | cons entry rest ih =>
      obtain ⟨k, v⟩ := entry
      rw [map_cons, pairwise_cons] at hsorted
      by_cases hkey : k = key
      · subst hkey
        have hrest : (k, value) ∉ rest := fun hmem =>
          lt_irrefl k (hsorted.1 k (List.mem_map_of_mem hmem))
        simp [findEntry, hrest, eq_comm]
      · simp [findEntry, hkey, Ne.symm hkey, ih hsorted.2]

theorem mem_keys_iff {m : OrdMap K V} {key : K} : key ∈ m.keys ↔ ∃ value, m.find? key = some value := by
  simp only [keys, mem_map, Prod.exists, exists_and_right, exists_eq_right, mem_entries_iff]

@[simp] theorem contains_iff {m : OrdMap K V} {key : K} : m.contains key = true ↔ key ∈ m.keys := by
  rw [contains, Option.isSome_iff_exists, mem_keys_iff]

theorem contains_eq_false_iff {m : OrdMap K V} {key : K} :
    m.contains key = false ↔ m.find? key = none := by
  simp [contains]

theorem find?_eq_none_iff {m : OrdMap K V} {key : K} : m.find? key = none ↔ key ∉ m.keys := by
  rw [← contains_iff, Bool.not_eq_true, contains_eq_false_iff]

theorem keys_nodup (m : OrdMap K V) : m.keys.Nodup := m.sorted.imp ne_of_lt

theorem entries_nodup (m : OrdMap K V) : m.entries.Nodup := m.keys_nodup.of_map

theorem mem_keys_insert {m : OrdMap K V} {key k : K} {value : V} :
    k ∈ (m.insert key value).keys ↔ k = key ∨ k ∈ m.keys :=
  mem_keys_insertEntry

theorem find?_erase (m : OrdMap K V) (key key' : K) :
    (m.erase key).find? key' = if key = key' then none else m.find? key' := by
  apply Option.ext
  intro value
  rw [← mem_entries_iff, erase, List.mem_filter, mem_entries_iff]
  by_cases h : key = key' <;> simp [h, eq_comm]

theorem find?_mapValues {W : Type*} (f : K → V → W) (m : OrdMap K V) (key : K) :
    (m.mapValues f).find? key = (m.find? key).map (f key) := by
  apply Option.ext
  intro value
  rw [← mem_entries_iff]
  simp only [mapValues, mem_map, Prod.exists, Prod.mk.injEq, Option.map_eq_some_iff]
  constructor
  · rintro ⟨k, v, hmem, rfl, rfl⟩
    exact ⟨v, mem_entries_iff.mp hmem, rfl⟩
  · rintro ⟨v, hfind, rfl⟩
    exact ⟨key, v, mem_entries_iff.mpr hfind, rfl, rfl⟩

@[simp] theorem keys_mapValues {W : Type*} (f : K → V → W) (m : OrdMap K V) :
    (m.mapValues f).keys = m.keys := by
  simp [keys, mapValues, map_map, Function.comp_def]

/-- Without repeated keys a map holds exactly the entries of its list. -/
theorem find?_ofList {entries : List (K × V)} (hnodup : (entries.map Prod.fst).Nodup) {key : K}
    {value : V} : (ofList entries).find? key = some value ↔ (key, value) ∈ entries := by
  have hfold : ∀ (entries : List (K × V)) (m : OrdMap K V), (entries.map Prod.fst).Nodup →
      (∀ entry ∈ entries, m.find? entry.1 = none) →
      ((entries.foldl (fun m entry => m.insert entry.1 entry.2) m).find? key = some value ↔
        m.find? key = some value ∨ (key, value) ∈ entries) := by
    intro entries
    induction entries with
    | nil => simp
    | cons entry rest ih =>
        intro m hnodup hfresh
        obtain ⟨k, v⟩ := entry
        rw [map_cons, List.nodup_cons] at hnodup
        have hnone : m.find? k = none := hfresh (k, v) (by simp)
        rw [List.foldl_cons, ih _ hnodup.2, find?_insert]
        · by_cases hkey : k = key
          · subst hkey
            have hrest : (k, value) ∉ rest := fun hmem =>
              hnodup.1 (List.mem_map.mpr ⟨_, hmem, rfl⟩)
            simp [hrest, hnone, eq_comm]
          · simp [hkey, Ne.symm hkey]
        · intro other hother
          have hne : k ≠ other.1 := fun h => hnodup.1 (List.mem_map.mpr ⟨other, hother, h.symm⟩)
          rw [find?_insert_of_ne _ _ hne]
          exact hfresh other (List.mem_cons_of_mem _ hother)
  rw [ofList, hfold entries empty hnodup (by simp)]
  simp

/-- Without repeated keys the entries of a map are those of its list. -/
theorem entries_ofList_perm {entries : List (K × V)} (hnodup : (entries.map Prod.fst).Nodup) :
    (ofList entries).entries.Perm entries := by
  refine (List.perm_ext_iff_of_nodup (entries_nodup _) hnodup.of_map).mpr ?_
  rintro ⟨key, value⟩
  rw [mem_entries_iff, find?_ofList hnodup]

/-! ## Extensionality -/

/-- A map is determined by its lookups. -/
theorem ext_find? {first second : OrdMap K V} (h : ∀ key, first.find? key = second.find? key) :
    first = second := by
  have hmem : ∀ entry, entry ∈ first.entries ↔ entry ∈ second.entries := by
    rintro ⟨key, value⟩
    rw [mem_entries_iff, mem_entries_iff, h key]
  have hperm : first.entries.Perm second.entries :=
    (List.perm_ext_iff_of_nodup first.entries_nodup second.entries_nodup).mpr hmem
  have heq : first.entries = second.entries :=
    hperm.eq_of_pairwise (fun a b _ _ hab hba => absurd hab (not_lt.mpr hba.le))
      (List.pairwise_map.mp first.sorted) (List.pairwise_map.mp second.sorted)
  cases first
  cases second
  simpa using heq

theorem ofList_entries (m : OrdMap K V) : ofList m.entries = m := by
  refine ext_find? fun key => Option.ext fun value => ?_
  rw [find?_ofList m.keys_nodup, ← mem_entries_iff]

end OrdMap

/-! ## Ordered sets -/

/-- A finite set iterated in increasing order, as the keys of a map. -/
abbrev OrdSet (K : Type u) [LinearOrder K] := OrdMap K Unit

namespace OrdSet

variable {K : Type u} [LinearOrder K]

/-- `BTreeSet::extend`. -/
def extend (set : OrdSet K) (items : List K) : OrdSet K :=
  items.foldl (fun set item => set.insert item ()) set

def ofList (items : List K) : OrdSet K := extend OrdMap.empty items

theorem mem_keys_extend {set : OrdSet K} {items : List K} {item : K} :
    item ∈ (extend set items).keys ↔ item ∈ set.keys ∨ item ∈ items := by
  unfold extend
  induction items generalizing set with
  | nil => simp
  | cons head rest ih =>
      rw [List.foldl_cons, ih, OrdMap.mem_keys_insert, List.mem_cons]
      tauto

theorem mem_keys_ofList {items : List K} {item : K} : item ∈ (ofList items).keys ↔ item ∈ items := by
  rw [ofList, mem_keys_extend, OrdMap.keys_empty]
  simp

end OrdSet

/-! ## Counters -/

namespace OrdMap

variable {K : Type u} [LinearOrder K]

/-- `*map.entry(key).or_insert(0) += amount`. -/
def addTo (m : OrdMap K ℕ) (key : K) (amount : ℕ) : OrdMap K ℕ :=
  m.insert key ((m.find? key).getD 0 + amount)

theorem findEntry_eq_none {V : Type*} {key : K} {entries : List (K × V)}
    (h : key ∉ entries.map Prod.fst) : findEntry key entries = none := by
  induction entries with
  | nil => rfl
  | cons entry rest ih =>
      rw [List.map_cons, List.mem_cons, not_or] at h
      rw [findEntry, if_neg (Ne.symm h.1), ih h.2]

theorem sum_insertEntry {key : K} {value : ℕ} {entries : List (K × ℕ)}
    (hsorted : (entries.map Prod.fst).Pairwise (· < ·)) :
    ((insertEntry key value entries).map Prod.snd).sum + (findEntry key entries).getD 0 =
      (entries.map Prod.snd).sum + value := by
  induction entries with
  | nil => simp [insertEntry, findEntry]
  | cons entry rest ih =>
      obtain ⟨k, v⟩ := entry
      rw [List.map_cons, List.pairwise_cons] at hsorted
      have hrest := ih hsorted.2
      by_cases hlt : key < k
      · -- the key is below every stored key
        have habsent : key ∉ ((k, v) :: rest).map Prod.fst := by
          rw [List.map_cons, List.mem_cons, not_or]
          exact ⟨hlt.ne, fun hmem => absurd (hsorted.1 key hmem) (not_lt.mpr hlt.le)⟩
        rw [findEntry_eq_none habsent, insertEntry, if_pos hlt]
        simp only [List.map_cons, List.sum_cons, Option.getD_none]
        omega
      · by_cases heq : key = k
        · rw [insertEntry, if_neg hlt, if_pos heq, findEntry, if_pos heq.symm]
          simp only [List.map_cons, List.sum_cons, Option.getD_some]
          omega
        · rw [insertEntry, if_neg hlt, if_neg heq, findEntry, if_neg (Ne.symm heq)]
          simp only [List.map_cons, List.sum_cons]
          omega

/-- Counting an amount raises the total by it. -/
theorem sum_values_addTo (m : OrdMap K ℕ) (key : K) (amount : ℕ) :
    (m.addTo key amount).values.sum = m.values.sum + amount := by
  have hsum := @sum_insertEntry _ _ key ((m.find? key).getD 0 + amount) _ m.sorted
  unfold addTo values insert
  unfold find? at hsum ⊢
  simp only at hsum ⊢
  omega

/-- Storing a value exchanges the one that was there in the total. -/
theorem sum_values_insert (m : OrdMap K ℕ) (key : K) (value : ℕ) :
    (m.insert key value).values.sum + (m.find? key).getD 0 = m.values.sum + value :=
  sum_insertEntry m.sorted

theorem mapValues_insert {V W : Type*} (f : K → V → W) (m : OrdMap K V) (key : K) (value : V) :
    (m.insert key value).mapValues f = (m.mapValues f).insert key (f key value) := by
  apply ext_find?
  intro other
  rw [find?_mapValues, find?_insert, find?_insert, find?_mapValues]
  by_cases hsame : key = other
  · subst hsame
    rw [if_pos rfl, if_pos rfl, Option.map_some]
  · rw [if_neg hsame, if_neg hsame]

/-- The total is the sum of what is stored under the keys. -/
theorem sum_values (m : OrdMap K ℕ) :
    m.values.sum = (m.keys.map fun key => (m.find? key).getD 0).sum := by
  have hvalues : m.values = m.keys.map fun key => (m.find? key).getD 0 := by
    rw [values, keys, List.map_map]
    apply List.map_congr_left
    intro entry hentry
    have hfind : m.find? entry.1 = some entry.2 := mem_entries_iff.mp hentry
    rw [Function.comp_apply, hfind, Option.getD_some]
  rw [hvalues]

/-- The sum of a measure over the stored values. -/
def total {V : Type*} (f : V → ℕ) (m : OrdMap K V) : ℕ := (m.mapValues fun _ => f).values.sum

theorem total_insert {V : Type*} (f : V → ℕ) (m : OrdMap K V) (key : K) (value : V) :
    (m.insert key value).total f + ((m.find? key).map f).getD 0 = m.total f + f value := by
  have hsum := sum_values_insert (m.mapValues fun _ => f) key (f value)
  rw [find?_mapValues] at hsum
  rw [total, mapValues_insert]
  exact hsum

/-- A value that is taken out can be put back. -/
theorem restore_erase {V : Type*} {m : OrdMap K V} {key : K} {value : V}
    (h : m.find? key = some value) : (m.erase key).insert key value = m := by
  apply ext_find?
  intro other
  rw [find?_insert, find?_erase]
  split
  · rename_i heq
    rw [← heq, h]
  · rfl

theorem total_erase {V : Type*} (f : V → ℕ) (m : OrdMap K V) (key : K) :
    (m.erase key).total f + ((m.find? key).map f).getD 0 = m.total f := by
  cases hfind : m.find? key with
  | none =>
      have hsame : m.erase key = m := by
        apply ext_find?
        intro other
        rw [find?_erase]
        split
        · rename_i heq
          rw [← heq, hfind]
        · rfl
      rw [hsame]
      rfl
  | some value =>
      have hinsert := total_insert f (m.erase key) key value
      rw [restore_erase hfind, find?_erase, if_pos rfl] at hinsert
      exact hinsert.symm

theorem total_one {V : Type*} (m : OrdMap K V) : m.total (fun _ => 1) = m.keys.length := by
  rw [total, values, mapValues, List.map_map]
  have hones : (Prod.snd ∘ fun entry : K × V => (entry.1, 1)) = fun _ => 1 := rfl
  rw [hones, List.map_const', List.sum_replicate_nat, keys, List.length_map, Nat.mul_one]

/-- The first key is the least. -/
theorem head?_keys {V : Type*} {m : OrdMap K V} {key : K} (h : m.keys.head? = some key) :
    key ∈ m.keys ∧ ∀ other ∈ m.keys, key ≤ other := by
  have hsorted := m.sorted
  change m.keys.Pairwise (· < ·) at hsorted
  cases hkeys : m.keys with
  | nil =>
      rw [hkeys] at h
      cases h
  | cons first rest =>
      rw [hkeys] at h hsorted
      cases h
      refine ⟨List.mem_cons_self, ?_⟩
      intro other hother
      rcases List.mem_cons.mp hother with rfl | hother
      · exact le_rfl
      · exact ((List.pairwise_cons.mp hsorted).1 other hother).le

/-! ## Parts of a map -/

variable {V : Type*}

/-- The entries whose keys satisfy a condition. -/
def filterKeys (keep : K → Bool) (m : OrdMap K V) : OrdMap K V :=
  ⟨m.entries.filter fun entry => keep entry.1, m.sorted.sublist (List.filter_sublist.map Prod.fst)⟩

theorem findEntry_filter (keep : K → Bool) (key : K) (entries : List (K × V)) :
    findEntry key (entries.filter fun entry => keep entry.1) =
      if keep key then findEntry key entries else none := by
  induction entries with
  | nil => simp [findEntry]
  | cons entry rest ih =>
      obtain ⟨k, v⟩ := entry
      rw [List.filter_cons]
      dsimp only
      by_cases hkey : k = key
      · subst hkey
        by_cases hkeep : keep k = true
        · rw [if_pos hkeep, if_pos hkeep, findEntry, findEntry, if_pos rfl, if_pos rfl]
        · rw [if_neg hkeep, if_neg hkeep, ih, if_neg hkeep]
      · by_cases hkeep : keep k = true
        · rw [if_pos hkeep, findEntry, if_neg hkey, ih, findEntry, if_neg hkey]
        · rw [if_neg hkeep, ih, findEntry, if_neg hkey]

theorem find?_filterKeys (keep : K → Bool) (m : OrdMap K V) (key : K) :
    (m.filterKeys keep).find? key = if keep key then m.find? key else none :=
  findEntry_filter keep key m.entries

theorem keys_filterKeys (keep : K → Bool) (m : OrdMap K V) :
    (m.filterKeys keep).keys = m.keys.filter keep := by
  unfold filterKeys keys
  rw [List.filter_map]
  rfl

end OrdMap
