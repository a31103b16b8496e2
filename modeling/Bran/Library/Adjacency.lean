import Bran.Library.OrdMap

/-!
# Position indexes and adjacency lists

A graph is kept as a list of nodes and a list of edges, with a map from each
identity to its position and with the identities of the edges that leave and
that enter each node.  The tables are filled by one pass over each list, which
checks every record before it is entered and rejects an identity entered twice.

`index_eq_ok_iff` and `link_eq_ok_iff` say what such a pass is: it succeeds
exactly when every record passes its check and no identity is repeated, and then
the tables are the ones that `positions`, `forward` and `reverse` describe.
-/

namespace Adjacency

open List OrdMap

variable {K N E α β ε : Type*} [LinearOrder K] [LinearOrder N] [LinearOrder E]

/-! ## Position indexes -/

/-- Enters the positions of `keys`, counted from `start`. -/
def positionsFrom : ℕ → List K → OrdMap K ℕ → OrdMap K ℕ
  | _, [], index => index
  | start, key :: rest, index => positionsFrom (start + 1) rest (index.insert key start)

/-- The position of every key of a list. -/
def positions (keys : List K) : OrdMap K ℕ := positionsFrom 0 keys OrdMap.empty

theorem find?_positionsFrom {start : ℕ} {keys : List K} {index : OrdMap K ℕ}
    (hnodup : keys.Nodup) (hfresh : ∀ key ∈ keys, index.find? key = none) {key : K} {i : ℕ} :
    (positionsFrom start keys index).find? key = some i ↔
      index.find? key = some i ∨ ∃ j, keys[j]? = some key ∧ i = start + j := by
  induction keys generalizing start index with
  | nil => simp [positionsFrom]
  | cons head rest ih =>
      rw [nodup_cons] at hnodup
      have hrest : ∀ k ∈ rest, (index.insert head start).find? k = none := by
        intro k hk
        have hne : head ≠ k := fun h => hnodup.1 (h ▸ hk)
        rw [find?_insert_of_ne _ _ hne]
        exact hfresh k (mem_cons_of_mem _ hk)
      have hhead : index.find? head = none := hfresh head (by simp)
      rw [positionsFrom, ih hnodup.2 hrest, find?_insert]
      constructor
      · rintro (h | ⟨j, hj, rfl⟩)
        · split_ifs at h with hkey
          · exact Or.inr ⟨0, by simp [hkey], by simpa using h.symm⟩
          · exact Or.inl h
        · exact Or.inr ⟨j + 1, by simpa using hj, by omega⟩
      · rintro (h | ⟨j, hj, rfl⟩)
        · have hne : head ≠ key := by
            rintro rfl
            rw [hhead] at h
            exact absurd h (by simp)
          exact Or.inl (by rw [if_neg hne]; exact h)
        · cases j with
          | zero => exact Or.inl (by rw [if_pos (by simpa using hj)]; simp)
          | succ j => exact Or.inr ⟨j, by simpa using hj, by omega⟩

theorem find?_positions {keys : List K} (hnodup : keys.Nodup) {key : K} {i : ℕ} :
    (positions keys).find? key = some i ↔ keys[i]? = some key := by
  rw [positions, find?_positionsFrom hnodup (by simp)]
  simp

/-- The pass over the nodes: every record is checked, then entered. -/
def index (key : α → K) (check : α → Except ε Unit) (duplicate : α → ε) :
    ℕ → List α → OrdMap K ℕ → Except ε (OrdMap K ℕ)
  | _, [], table => .ok table
  | start, node :: rest, table =>
      match check node with
      | .error error => .error error
      | .ok () =>
          if table.contains (key node) then .error (duplicate node)
          else index key check duplicate (start + 1) rest (table.insert (key node) start)

variable {key : α → K} {check : α → Except ε Unit} {duplicate : α → ε}

theorem index_from_eq_ok_iff {start : ℕ} {nodes : List α} {table table' : OrdMap K ℕ} :
    index key check duplicate start nodes table = .ok table' ↔
      (∀ node ∈ nodes, check node = .ok ()) ∧ (nodes.map key).Nodup ∧
        (∀ node ∈ nodes, table.find? (key node) = none) ∧
          positionsFrom start (nodes.map key) table = table' := by
  induction nodes generalizing start table with
  | nil => simp [index, positionsFrom]
  | cons node rest ih =>
      rw [index]
      cases hcheck : check node with
      | error error => simp [hcheck]
      | ok u =>
          cases hfind : table.contains (key node) with
          | true =>
              have hne : table.find? (key node) ≠ none := fun h => by
                rw [← contains_eq_false_iff, hfind] at h
                exact absurd h (by simp)
              simp [hne]
          | false =>
              have hnone := contains_eq_false_iff.mp hfind
              simp only [Bool.false_eq_true, ↓reduceIte, ih, forall_mem_cons, hcheck,
                map_cons, nodup_cons, positionsFrom, hnone, true_and,
                find?_insert]
              constructor
              · rintro ⟨hall, hnodup, hfresh, heq⟩
                refine ⟨hall, ⟨?_, hnodup⟩, ?_, heq⟩
                · intro hmem
                  obtain ⟨other, hother, hkey⟩ := mem_map.mp hmem
                  have := hfresh other hother
                  rw [if_pos hkey.symm] at this
                  exact absurd this (by simp)
                · intro other hother
                  have := hfresh other hother
                  split_ifs at this
                  exact this
              · rintro ⟨hall, ⟨hnotMem, hnodup⟩, hfresh, heq⟩
                refine ⟨hall, hnodup, ?_, heq⟩
                intro other hother
                have hne : key node ≠ key other := fun h =>
                  hnotMem (h ▸ mem_map_of_mem hother)
                rw [if_neg hne]
                exact hfresh other hother

theorem index_eq_ok_iff {nodes : List α} {table : OrdMap K ℕ} :
    index key check duplicate 0 nodes OrdMap.empty = .ok table ↔
      (∀ node ∈ nodes, check node = .ok ()) ∧ (nodes.map key).Nodup ∧
        positions (nodes.map key) = table := by
  rw [index_from_eq_ok_iff, positions]
  simp

/-! ## Adjacency lists -/

/-- Appends a value to the list stored under a key. -/
def pushUnder (lists : OrdMap N (List E)) (node : N) (edge : E) : OrdMap N (List E) :=
  lists.insert node ((lists.find? node).getD [] ++ [edge])

/-- The list stored under a key, empty where there is none. -/
def listUnder (lists : OrdMap N (List E)) (node : N) : List E := (lists.find? node).getD []

omit [LinearOrder E] in
theorem listUnder_pushUnder (lists : OrdMap N (List E)) (node node' : N) (edge : E) :
    listUnder (pushUnder lists node edge) node' =
      if node = node' then listUnder lists node' ++ [edge] else listUnder lists node' := by
  unfold listUnder pushUnder
  rw [find?_insert]
  split_ifs with h <;> simp [h]

/-- The lists of `edges` grouped by one endpoint, in list order. -/
def group (id : β → E) (endpoint : β → N) (edges : List β) (lists : OrdMap N (List E)) :
    OrdMap N (List E) :=
  edges.foldl (fun lists edge => pushUnder lists (endpoint edge) (id edge)) lists

omit [LinearOrder E] in
theorem listUnder_group (id : β → E) (endpoint : β → N) (edges : List β)
    (lists : OrdMap N (List E)) (node : N) :
    listUnder (group id endpoint edges lists) node =
      listUnder lists node ++ (edges.filter fun edge => endpoint edge = node).map id := by
  induction edges generalizing lists with
  | nil => simp [group]
  | cons edge rest ih =>
      have hstep : group id endpoint (edge :: rest) lists =
          group id endpoint rest (pushUnder lists (endpoint edge) (id edge)) := rfl
      rw [hstep, ih, listUnder_pushUnder]
      by_cases h : endpoint edge = node <;> simp [h]

/-- The tables over an edge list. -/
structure Tables (N E : Type*) [LinearOrder N] [LinearOrder E] where
  edgeIndex : OrdMap E ℕ
  forward : OrdMap N (List E)
  reverse : OrdMap N (List E)
  deriving DecidableEq

/-- Tables without edges. -/
def Tables.empty : Tables N E := ⟨OrdMap.empty, OrdMap.empty, OrdMap.empty⟩

/-- The tables of an edge list. -/
def tablesOf (id : β → E) (source target : β → N) (edges : List β) : Tables N E :=
  ⟨positions (edges.map id), group id source edges OrdMap.empty,
    group id target edges OrdMap.empty⟩

/-- The pass over the edges: every record is checked, then entered. -/
def link (id : β → E) (source target : β → N) (check : β → Except ε Unit) (duplicate : β → ε) :
    ℕ → List β → Tables N E → Except ε (Tables N E)
  | _, [], tables => .ok tables
  | start, edge :: rest, tables =>
      match check edge with
      | .error error => .error error
      | .ok () =>
          if tables.edgeIndex.contains (id edge) then .error (duplicate edge)
          else link id source target check duplicate (start + 1) rest
            ⟨tables.edgeIndex.insert (id edge) start,
              pushUnder tables.forward (source edge) (id edge),
              pushUnder tables.reverse (target edge) (id edge)⟩

variable {id : β → E} {source target : β → N} {checkEdge : β → Except ε Unit}
  {duplicateEdge : β → ε}

/-- The identities are entered as by `index`; the lists do not influence the pass. -/
theorem link_from_eq_ok_iff {start : ℕ} {edges : List β} {tables tables' : Tables N E} :
    link id source target checkEdge duplicateEdge start edges tables = .ok tables' ↔
      index id checkEdge duplicateEdge start edges tables.edgeIndex = .ok tables'.edgeIndex ∧
        group id source edges tables.forward = tables'.forward ∧
          group id target edges tables.reverse = tables'.reverse := by
  induction edges generalizing start tables with
  | nil =>
      obtain ⟨edgeIndex, forward, reverse⟩ := tables
      obtain ⟨edgeIndex', forward', reverse'⟩ := tables'
      simp [link, index, group]
  | cons edge rest ih =>
      rw [link, index]
      cases hcheck : checkEdge edge with
      | error error => simp
      | ok u =>
          cases hfind : tables.edgeIndex.contains (id edge) with
          | true => simp
          | false =>
              simp only [Bool.false_eq_true, ↓reduceIte, ih]
              rfl

theorem link_eq_ok_iff {edges : List β} {tables : Tables N E} :
    link id source target checkEdge duplicateEdge 0 edges Tables.empty = .ok tables ↔
      (∀ edge ∈ edges, checkEdge edge = .ok ()) ∧ (edges.map id).Nodup ∧
        tablesOf id source target edges = tables := by
  rw [link_from_eq_ok_iff]
  obtain ⟨edgeIndex, forward, reverse⟩ := tables
  simp only [Tables.empty, index_eq_ok_iff, tablesOf, Tables.mk.injEq]
  tauto

theorem forward_tablesOf (edges : List β) (node : N) :
    listUnder (tablesOf id source target edges).forward node =
      (edges.filter fun edge => source edge = node).map id := by
  rw [tablesOf, listUnder_group]
  simp [listUnder]

theorem reverse_tablesOf (edges : List β) (node : N) :
    listUnder (tablesOf id source target edges).reverse node =
      (edges.filter fun edge => target edge = node).map id := by
  rw [tablesOf, listUnder_group]
  simp [listUnder]

/-! ## Looking records up -/

/-- The record a position index points at. -/
def lookup (table : OrdMap K ℕ) (records : List α) (k : K) : Option α :=
  (table.find? k).bind fun position => records[position]?

theorem lookup_eq_some_iff {records : List α} (hnodup : (records.map key).Nodup) {k : K}
    {record : α} :
    lookup (positions (records.map key)) records k = some record ↔
      record ∈ records ∧ key record = k := by
  simp only [lookup, Option.bind_eq_some_iff, find?_positions hnodup, getElem?_map,
    Option.map_eq_some_iff]
  constructor
  · rintro ⟨i, ⟨record', hrecord', hkey⟩, hrecord⟩
    rw [hrecord] at hrecord'
    cases hrecord'
    exact ⟨mem_of_getElem? hrecord, hkey⟩
  · rintro ⟨hmem, hkey⟩
    obtain ⟨i, hi⟩ := mem_iff_getElem?.mp hmem
    exact ⟨i, ⟨record, hi, hkey⟩, hi⟩

/-- Looking up the keys of indexed records gives the records back. -/
theorem map_lookup {records : List α} (hnodup : (records.map key).Nodup) {part : List α}
    (hpart : ∀ record ∈ part, record ∈ records) :
    (part.map key).map (lookup (positions (records.map key)) records) = part.map some := by
  rw [map_map]
  refine map_congr_left fun record hrecord => ?_
  exact (lookup_eq_some_iff hnodup).mpr ⟨hpart record hrecord, rfl⟩

theorem filterMap_lookup {records : List α} (hnodup : (records.map key).Nodup) {part : List α}
    (hpart : ∀ record ∈ part, record ∈ records) :
    (part.map key).filterMap (lookup (positions (records.map key)) records) = part := by
  have hmap := congrArg (List.filterMap fun entry => entry) (map_lookup hnodup hpart)
  simpa [filterMap_map, Function.comp_def] using hmap

theorem contains_positions {records : List α} (hnodup : (records.map key).Nodup) {k : K} :
    (positions (records.map key)).contains k = true ↔ ∃ record ∈ records, key record = k := by
  rw [OrdMap.contains_iff, mem_keys_iff]
  simp only [find?_positions hnodup, ← mem_iff_getElem?, mem_map]

end Adjacency
