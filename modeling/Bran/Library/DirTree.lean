import Mathlib.Data.List.Nodup
import Mathlib.Data.List.Infix

/-!
# Directory trees

A tree of named items, as a walk over directories sees it.  A walk carries a location, which it
extends by the name of each item it enters, and does not enter the items that it skips; what it
reaches is described by looking the names up one after the other.
-/

namespace DirTree

open List

/-- What a name in a directory stands for. -/
inductive Item (N D : Type)
  | file (data : D)
  | directory (entries : List (N × Item N D))
  | symlink
  | other

/-- The answer to a lookup. -/
inductive Found (N D : Type)
  | item (item : Item N D)
  | missing
  | notDirectory
  | throughLink

variable {N D L : Type}

/-! ## Lookup -/

section Lookup

variable [DecidableEq N]

/-- The first item of a name. -/
def entryNamed (name : N) : List (N × Item N D) → Option (Item N D)
  | [] => none
  | (other, item) :: rest => if other = name then some item else entryNamed name rest

/-- The item that names lead to. -/
def lookup : List N → Item N D → Found N D
  | [], item => .item item
  | name :: rest, .directory entries =>
      match entryNamed name entries with
      | some item => lookup rest item
      | none => .missing
  | _ :: _, .symlink => .throughLink
  | _ :: _, _ => .notDirectory

/-- The data of the file that names lead to. -/
def fileAt (names : List N) (item : Item N D) : Option D :=
  match lookup names item with
  | .item (.file data) => some data
  | _ => none

theorem entryNamed_eq_some_iff {entries : List (N × Item N D)} (h : (entries.map Prod.fst).Nodup)
    {name : N} {item : Item N D} : entryNamed name entries = some item ↔ (name, item) ∈ entries := by
  induction entries with
  | nil => simp [entryNamed]
  | cons entry rest ih =>
      obtain ⟨other, first⟩ := entry
      obtain ⟨hnew, hrest⟩ := nodup_cons.mp h
      rw [entryNamed, mem_cons, Prod.mk.injEq]
      split_ifs with hname
      · subst hname
        constructor
        · exact fun hitem => .inl ⟨rfl, (Option.some.inj hitem).symm⟩
        · rintro (⟨_, rfl⟩ | hmem)
          · rfl
          · exact absurd (mem_map.mpr ⟨_, hmem, rfl⟩) hnew
      · rw [ih hrest]
        exact ⟨.inr, fun hmem => hmem.resolve_left fun heq => hname heq.1.symm⟩

theorem fileAt_cons {name : N} {names : List N} {item : Item N D} {data : D} :
    fileAt (name :: names) item = some data ↔ ∃ entries, item = .directory entries ∧
      ∃ child, entryNamed name entries = some child ∧ fileAt names child = some data := by
  cases item with
  | file bytes | symlink | other => simp [fileAt, lookup]
  | directory entries =>
      rw [fileAt, lookup]
      cases hentry : entryNamed name entries with
      | none => simp [hentry]
      | some child => simp [hentry, fileAt]

end Lookup

/-! ## Well-formed trees -/

/-- No directory has a name twice, and every name is one that a directory can hold. -/
inductive WellFormed (valid : N → Prop) : Item N D → Prop
  | file (data : D) : WellFormed valid (.file data)
  | symlink : WellFormed valid .symlink
  | other : WellFormed valid .other
  | directory (entries : List (N × Item N D)) (hnodup : (entries.map Prod.fst).Nodup)
      (hvalid : ∀ entry ∈ entries, valid entry.1)
      (hitems : ∀ entry ∈ entries, WellFormed valid entry.2) : WellFormed valid (.directory entries)

/-! ## Measures -/

mutual

/-- The directories on the longest way into an item. -/
def heightItem : Item N D → ℕ
  | .directory entries => heightIn entries + 1
  | _ => 0

/-- How deep the directories of a list of entries are nested. -/
def heightIn : List (N × Item N D) → ℕ
  | [] => 0
  | (_, item) :: rest => max (heightItem item) (heightIn rest)

end

mutual

def directoriesItem : Item N D → ℕ
  | .directory entries => directoriesIn entries + 1
  | _ => 0

/-- The number of directories below a list of entries. -/
def directoriesIn : List (N × Item N D) → ℕ
  | [] => 0
  | (_, item) :: rest => directoriesItem item + directoriesIn rest

end

theorem heightIn_cons (entry : N × Item N D) (rest : List (N × Item N D)) :
    heightIn (entry :: rest) = max (heightIn [entry]) (heightIn rest) := by
  obtain ⟨name, item⟩ := entry
  rw [heightIn, heightIn, heightIn, Nat.max_zero]

theorem directoriesIn_cons (entry : N × Item N D) (rest : List (N × Item N D)) :
    directoriesIn (entry :: rest) = directoriesIn [entry] + directoriesIn rest := by
  obtain ⟨name, item⟩ := entry
  rw [directoriesIn, directoriesIn, directoriesIn, Nat.add_zero]

/-! ## Walks -/

section Walk

variable (locate : L → N → L) (skip : L → Bool)

mutual

/-- The files that a walk reaches from an item, at their locations. -/
def reachedItem (place : L) : Item N D → List (L × D)
  | .file data => [(place, data)]
  | .directory entries => reached place entries
  | .symlink => []
  | .other => []

/-- The files that a walk reaches from the entries of a directory. -/
def reached (place : L) : List (N × Item N D) → List (L × D)
  | [] => []
  | (name, item) :: rest =>
      (if skip (locate place name) then [] else reachedItem (locate place name) item) ++
        reached place rest

end

theorem reached_eq_flatMap (place : L) (entries : List (N × Item N D)) :
    reached locate skip place entries = entries.flatMap fun entry =>
      if skip (locate place entry.1) then [] else
        reachedItem locate skip (locate place entry.1) entry.2 := by
  induction entries with
  | nil => rw [reached, flatMap_nil]
  | cons entry rest ih => rw [reached, flatMap_cons, ih]

/-- No location on the way is skipped. -/
def Open (place : L) (names : List N) : Prop :=
  ∀ front, front ≠ [] → front <+: names → skip (front.foldl locate place) = false

instance (place : L) (names : List N) : Decidable (Open locate skip place names) :=
  decidable_of_iff (∀ front ∈ names.inits, front ≠ [] → skip (front.foldl locate place) = false)
    ⟨fun h front hne hfront => h front ((mem_inits _ _).mpr hfront) hne,
      fun h front hfront hne => h front hne ((mem_inits _ _).mp hfront)⟩

variable {locate skip}

theorem open_nil (place : L) : Open locate skip place [] :=
  fun _ hne hfront => absurd (prefix_nil.mp hfront) hne

theorem open_cons_iff {place : L} {name : N} {names : List N} :
    Open locate skip place (name :: names) ↔
      skip (locate place name) = false ∧ Open locate skip (locate place name) names := by
  constructor
  · intro h
    refine ⟨h [name] (cons_ne_nil _ _) ⟨names, rfl⟩, fun front hne hfront => ?_⟩
    exact h (name :: front) (cons_ne_nil _ _) (cons_prefix_cons.mpr ⟨rfl, hfront⟩)
  · rintro ⟨hfirst, hrest⟩ front hne hfront
    cases front with
    | nil => exact absurd rfl hne
    | cons other front =>
        obtain ⟨rfl, htail⟩ := cons_prefix_cons.mp hfront
        by_cases hnil : front = []
        · rw [hnil]
          exact hfirst
        · exact hrest front hnil htail

/-- What is open for two walks. -/
theorem open_or_iff {skip' : L → Bool} {place : L} {names : List N} :
    Open locate (fun location => skip location || skip' location) place names ↔
      Open locate skip place names ∧ Open locate skip' place names := by
  simp only [Open, Bool.or_eq_false_iff]
  exact ⟨fun h => ⟨fun front hne hfront => (h front hne hfront).1,
    fun front hne hfront => (h front hne hfront).2⟩,
    fun h front hne hfront => ⟨h.1 front hne hfront, h.2 front hne hfront⟩⟩

variable [DecidableEq N] {valid : N → Prop}

/-- A walk reaches exactly the files below open names. -/
theorem mem_reachedItem {item : Item N D} (h : WellFormed valid item) {place found : L} {data : D} :
    (found, data) ∈ reachedItem locate skip place item ↔
      ∃ names, found = names.foldl locate place ∧ fileAt names item = some data ∧
        Open locate skip place names := by
  induction h generalizing place with
  | file bytes =>
      rw [reachedItem, mem_singleton, Prod.mk.injEq]
      constructor
      · rintro ⟨rfl, rfl⟩
        exact ⟨[], rfl, rfl, open_nil _⟩
      · rintro ⟨names, rfl, hfile, _⟩
        cases names with
        | nil => exact ⟨rfl, (Option.some.inj hfile).symm⟩
        | cons name names => cases hfile
  | symlink | other =>
      rw [reachedItem]
      refine ⟨fun hmem => (nomatch hmem), ?_⟩
      rintro ⟨names, _, hfile, _⟩
      cases names <;> cases hfile
  | directory entries hnodup _ _ ih =>
      rw [reachedItem, reached_eq_flatMap, mem_flatMap]
      constructor
      · rintro ⟨entry, hentry, hmem⟩
        split_ifs at hmem with hskip
        · cases hmem
        · obtain ⟨names, rfl, hfile, hopen⟩ := (ih entry hentry).mp hmem
          refine ⟨entry.1 :: names, rfl, fileAt_cons.mpr ⟨entries, rfl, entry.2, ?_, hfile⟩, ?_⟩
          · exact (entryNamed_eq_some_iff hnodup).mpr hentry
          · exact open_cons_iff.mpr ⟨Bool.eq_false_iff.mpr hskip, hopen⟩
      · rintro ⟨names, rfl, hfile, hopen⟩
        cases names with
        | nil => cases hfile
        | cons name names =>
            obtain ⟨entries', heq, child, hchild, hfile⟩ := fileAt_cons.mp hfile
            obtain rfl := Item.directory.inj heq
            obtain ⟨hfirst, hrest⟩ := open_cons_iff.mp hopen
            have hentry := (entryNamed_eq_some_iff hnodup).mp hchild
            refine ⟨(name, child), hentry, ?_⟩
            rw [if_neg (Bool.eq_false_iff.mp hfirst)]
            exact (ih (name, child) hentry).mpr ⟨names, rfl, hfile, hrest⟩

theorem valid_of_fileAt {item : Item N D} (h : WellFormed valid item) {names : List N} {data : D}
    (hfile : fileAt names item = some data) : ∀ name ∈ names, valid name := by
  induction names generalizing item with
  | nil => exact fun _ hmem => (nomatch hmem)
  | cons name names ih =>
      obtain ⟨entries, rfl, child, hchild, hrest⟩ := fileAt_cons.mp hfile
      cases h with
      | directory _ hnodup hvalid hitems =>
          have hentry := (entryNamed_eq_some_iff hnodup).mp hchild
          exact forall_mem_cons.mpr ⟨hvalid _ hentry, ih (hitems _ hentry) hrest⟩

/-- Locations below a place that tell valid names apart. -/
def Separates (valid : N → Prop) (locate : L → N → L) (place : L) : Prop :=
  ∀ first second : List N, (∀ name ∈ first, valid name) → (∀ name ∈ second, valid name) →
    first.foldl locate place = second.foldl locate place → first = second

omit [DecidableEq N] in
theorem Separates.below {place : L} (h : Separates valid locate place) {name : N}
    (hname : valid name) : Separates valid locate (locate place name) := by
  intro first second hfirst hsecond heq
  exact (List.cons.inj (h (name :: first) (name :: second)
    (forall_mem_cons.mpr ⟨hname, hfirst⟩) (forall_mem_cons.mpr ⟨hname, hsecond⟩) heq)).2

/-- A walk whose locations tell names apart reaches no location twice. -/
theorem nodup_reachedItem {item : Item N D} (h : WellFormed valid item) {place : L}
    (hseparates : Separates valid locate place) :
    ((reachedItem locate skip place item).map Prod.fst).Nodup := by
  induction h generalizing place with
  | file data => exact nodup_singleton _
  | symlink => exact nodup_nil
  | other => exact nodup_nil
  | directory entries hnodup hvalid hitems ih =>
      rw [reachedItem, reached_eq_flatMap, map_flatMap, nodup_flatMap]
      constructor
      · intro entry hentry
        split_ifs
        · exact nodup_nil
        · exact ih entry hentry (hseparates.below (hvalid entry hentry))
      · -- files below different names have different locations
        refine (pairwise_map.mp hnodup).imp_of_mem ?_
        intro first second hfirst hsecond hne found hfound hfound'
        obtain ⟨⟨_, data⟩, hmem, rfl⟩ := mem_map.mp hfound
        obtain ⟨⟨_, data'⟩, hmem', heq⟩ := mem_map.mp hfound'
        by_cases hskip : skip (locate place first.1) = true
        · rw [if_pos hskip] at hmem
          cases hmem
        by_cases hskip' : skip (locate place second.1) = true
        · rw [if_pos hskip'] at hmem'
          cases hmem'
        rw [if_neg hskip] at hmem
        rw [if_neg hskip'] at hmem'
        obtain ⟨names, hnames, hfile, _⟩ := (mem_reachedItem (hitems first hfirst)).mp hmem
        obtain ⟨names', hnames', hfile', _⟩ := (mem_reachedItem (hitems second hsecond)).mp hmem'
        have hsame := hseparates (first.1 :: names) (second.1 :: names')
          (forall_mem_cons.mpr ⟨hvalid first hfirst, valid_of_fileAt (hitems first hfirst) hfile⟩)
          (forall_mem_cons.mpr
            ⟨hvalid second hsecond, valid_of_fileAt (hitems second hsecond) hfile'⟩)
          (hnames.symm.trans (heq.symm.trans hnames'))
        exact hne (List.cons.inj hsame).1

end Walk

/-! ## Pruned trees -/

section Prune

variable (locate : L → N → L) (skip : L → Bool)

mutual

/-- An item without the items that a walk skips. -/
def prunedItem (place : L) : Item N D → Item N D
  | .file data => .file data
  | .directory entries => .directory (pruned place entries)
  | .symlink => .symlink
  | .other => .other

/-- The entries of a directory without those that a walk skips. -/
def pruned (place : L) : List (N × Item N D) → List (N × Item N D)
  | [] => []
  | (name, item) :: rest =>
      if skip (locate place name) then pruned place rest
      else (name, prunedItem (locate place name) item) :: pruned place rest

end

variable {locate skip}

mutual

theorem reachedItem_prunedItem (place : L) (item : Item N D) :
    reachedItem locate skip place (prunedItem locate skip place item) =
      reachedItem locate skip place item := by
  cases item with
  | file data | symlink | other => rw [prunedItem]
  | directory entries =>
      rw [prunedItem, reachedItem, reachedItem]
      exact reached_pruned place entries

theorem reached_pruned (place : L) (entries : List (N × Item N D)) :
    reached locate skip place (pruned locate skip place entries) =
      reached locate skip place entries := by
  cases entries with
  | nil => rw [pruned]
  | cons entry rest =>
      obtain ⟨name, item⟩ := entry
      rw [pruned]
      split_ifs with hskip
      · rw [reached_pruned place rest, reached, if_pos hskip, nil_append]
      · rw [reached, reached, if_neg hskip, if_neg hskip, reachedItem_prunedItem,
          reached_pruned place rest]

end

/-- Names that a walk skips may be left out before. -/
theorem pruned_filter {place : L} {keep : N → Bool}
    (h : ∀ name, keep name = false → skip (locate place name) = true)
    (entries : List (N × Item N D)) :
    pruned locate skip place (entries.filter fun entry => keep entry.1) =
      pruned locate skip place entries := by
  induction entries with
  | nil => rfl
  | cons entry rest ih =>
      obtain ⟨name, item⟩ := entry
      rw [filter_cons]
      split_ifs with hkeep
      · rw [pruned, pruned, ih]
      · rw [ih, pruned, if_pos (h name (Bool.eq_false_iff.mpr hkeep))]

end Prune

end DirTree
