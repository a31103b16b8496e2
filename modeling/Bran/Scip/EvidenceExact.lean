import Bran.Scip.Evidence

/-!
# Evidence is the front of the facts

The facts that an index states about the selected symbols, as a set, and what the bounded passes of
`Index::evidence` make of it.
-/

namespace Bran.Scip

open Smallest Symbol List Finset

/-! ## Selected symbols -/

section Select

variable (wanted : Str → Bool)

/-- What is selected without a bound, when `selected` has been selected already. -/
def selectable (selected : Finset Str) (symbols : List Str) : Finset Str :=
  selected ∪ symbols.toFinset.filter fun symbol => wanted symbol = true

variable {wanted} {selected : Finset Str} {symbol : Str} {symbols : List Str}

theorem mem_selectable {other : Str} : other ∈ selectable wanted selected symbols ↔
    other ∈ selected ∨ (other ∈ symbols ∧ wanted other = true) := by
  simp [selectable]

theorem selectable_skip (h : symbol ∈ selected ∨ wanted symbol = false) :
    selectable wanted selected (symbol :: symbols) = selectable wanted selected symbols := by
  ext other
  rw [mem_selectable, mem_selectable, List.mem_cons]
  constructor
  · intro hother
    rcases hother with hselected | ⟨rfl | hmem, hwanted⟩
    · exact Or.inl hselected
    · exact Or.inl (h.resolve_right (by rw [hwanted]; decide))
    · exact Or.inr ⟨hmem, hwanted⟩
  · exact Or.imp_right fun hother => ⟨Or.inr hother.1, hother.2⟩

theorem selectable_insert (h : wanted symbol = true) :
    selectable wanted (insert symbol selected) symbols =
      selectable wanted selected (symbol :: symbols) := by
  ext other
  rw [mem_selectable, mem_selectable, mem_insert, List.mem_cons]
  constructor
  · intro hother
    rcases hother with (rfl | hselected) | ⟨hmem, hwanted⟩
    · exact Or.inr ⟨Or.inl rfl, h⟩
    · exact Or.inl hselected
    · exact Or.inr ⟨Or.inr hmem, hwanted⟩
  · intro hother
    rcases hother with hselected | ⟨rfl | hmem, hwanted⟩
    · exact Or.inl (Or.inr hselected)
    · exact Or.inl (Or.inl rfl)
    · exact Or.inr ⟨hmem, hwanted⟩

/-- The loop selects what there is to select, unless it stops at the bound. -/
theorem select_spec (hcard : selected.card ≤ maxSymbols) :
    (select wanted symbols selected).1 ⊆ selectable wanted selected symbols ∧
      ((select wanted symbols selected).2 = false →
        (select wanted symbols selected).1 = selectable wanted selected symbols) ∧
      ((select wanted symbols selected).2 = true →
        maxSymbols < (selectable wanted selected symbols).card) := by
  induction symbols generalizing selected with
  | nil =>
      have hnil : selectable wanted selected [] = selected := by
        ext other
        simp [mem_selectable]
      rw [hnil]
      exact ⟨Finset.Subset.refl _, fun _ => rfl, fun h => (nomatch h)⟩
  | cons symbol symbols ih =>
      rw [select]
      split_ifs with hskip hfull
      · rw [selectable_skip hskip]
        exact ih hcard
      · rw [not_or, Bool.not_eq_false] at hskip
        refine ⟨fun other hother => mem_selectable.mpr (Or.inl hother), nofun, fun _ => ?_⟩
        have hsubset : insert symbol selected ⊆ selectable wanted selected (symbol :: symbols) := by
          rw [← selectable_insert hskip.2]
          exact fun other hother => mem_selectable.mpr (Or.inl hother)
        have hle := card_le_card hsubset
        rw [card_insert_of_notMem hskip.1] at hle
        omega
      · rw [not_or, Bool.not_eq_false] at hskip
        rw [← selectable_insert hskip.2]
        refine ih ?_
        rw [card_insert_of_notMem hskip.1]
        omega

end Select

/-! ## Implementing symbols -/

section Link

variable (selected : Finset Str)

/-- What is collected without a bound, when `implemented` has been collected already. -/
def linkable (implemented : Finset (Str × Str)) (pairs : List (Str × Str)) : Finset (Str × Str) :=
  implemented ∪ pairs.toFinset.filter fun pair => pair.2 ∈ selected

variable {selected} {implemented : Finset (Str × Str)} {pair : Str × Str}
  {pairs : List (Str × Str)} {truncated : Bool}

theorem mem_linkable {other : Str × Str} : other ∈ linkable selected implemented pairs ↔
    other ∈ implemented ∨ (other ∈ pairs ∧ other.2 ∈ selected) := by
  simp [linkable]

theorem linkable_skip (h : pair.2 ∉ selected ∨ pair ∈ implemented) :
    linkable selected implemented (pair :: pairs) = linkable selected implemented pairs := by
  ext other
  rw [mem_linkable, mem_linkable, List.mem_cons]
  constructor
  · intro hother
    rcases hother with himplemented | ⟨rfl | hmem, hselected⟩
    · exact Or.inl himplemented
    · exact Or.inl (h.resolve_left (not_not.mpr hselected))
    · exact Or.inr ⟨hmem, hselected⟩
  · exact Or.imp_right fun hother => ⟨Or.inr hother.1, hother.2⟩

theorem linkable_insert (h : pair.2 ∈ selected) :
    linkable selected (insert pair implemented) pairs =
      linkable selected implemented (pair :: pairs) := by
  ext other
  rw [mem_linkable, mem_linkable, mem_insert, List.mem_cons]
  constructor
  · intro hother
    rcases hother with (rfl | himplemented) | ⟨hmem, hselected⟩
    · exact Or.inr ⟨Or.inl rfl, h⟩
    · exact Or.inl himplemented
    · exact Or.inr ⟨Or.inr hmem, hselected⟩
  · intro hother
    rcases hother with himplemented | ⟨rfl | hmem, hselected⟩
    · exact Or.inl (Or.inr himplemented)
    · exact Or.inl (Or.inl rfl)
    · exact Or.inr ⟨hmem, hselected⟩

/-- The loop collects what there is to collect, or says that it has not. -/
theorem link_spec (hcard : implemented.card ≤ maxSymbols) :
    (link selected pairs implemented truncated).1 ⊆ linkable selected implemented pairs ∧
      ((link selected pairs implemented truncated).2 = false → truncated = false ∧
        (link selected pairs implemented truncated).1 = linkable selected implemented pairs) ∧
      ((link selected pairs implemented truncated).2 = true → truncated = true ∨
        maxSymbols < (linkable selected implemented pairs).card) := by
  induction pairs generalizing implemented truncated with
  | nil =>
      have hnil : linkable selected implemented [] = implemented := by
        ext other
        simp [mem_linkable]
      rw [hnil]
      exact ⟨Finset.Subset.refl _, fun h => ⟨h, rfl⟩, Or.inl⟩
  | cons pair pairs ih =>
      rw [link]
      split_ifs with hskip hfull
      · rw [linkable_skip hskip]
        exact ih hcard
      · rw [not_or, not_not] at hskip
        obtain ⟨hsubset, hfalse, -⟩ := @ih implemented true hcard
        refine ⟨hsubset.trans fun other hother => ?_, fun h => Bool.noConfusion (hfalse h).1, fun _ => ?_⟩
        · rw [mem_linkable] at hother ⊢
          exact hother.imp_right fun hother => ⟨List.mem_cons_of_mem _ hother.1, hother.2⟩
        · have hsubset : insert pair implemented ⊆
              linkable selected implemented (pair :: pairs) := by
            rw [← linkable_insert hskip.1]
            exact fun other hother => mem_linkable.mpr (Or.inl hother)
          have hle := card_le_card hsubset
          rw [card_insert_of_notMem hskip.2] at hle
          exact Or.inr (by omega)
      · rw [not_or, not_not] at hskip
        rw [← linkable_insert hskip.1]
        refine ih ?_
        rw [card_insert_of_notMem hskip.2]
        omega

end Link

/-! ## Kept candidates -/

/-- The candidates among what is found. -/
def candidatesOf (found : List Found) : List Candidate :=
  found.filterMap fun
    | .unranked => none
    | .candidate candidate => some candidate

section Collect

variable {limit : ℕ} {found : List Found} {all : Finset Candidate} {state : Collected}

theorem mem_candidatesOf {candidate : Candidate} :
    candidate ∈ candidatesOf found ↔ .candidate candidate ∈ found := by
  rw [candidatesOf, List.mem_filterMap]
  constructor
  · intro h
    obtain ⟨one, hone, heq⟩ := h
    cases one with
    | unranked => cases heq
    | candidate other =>
        obtain rfl := Option.some.inj heq
        exact hone
  · exact fun h => ⟨_, h, rfl⟩

/-- Within the bound the smallest candidates are kept. -/
theorem collect_spec (hkept : Of limit all state.kept)
    (hcount : state.candidates + (candidatesOf found).length ≤ maxCandidates)
    (hover : limit < all.card → state.truncated = true) :
    Of limit (all ∪ (candidatesOf found).toFinset) (collect limit found state).kept ∧
      ((collect limit found state).truncated = true ↔ state.truncated = true ∨
        limit < (all ∪ (candidatesOf found).toFinset).card ∨ .unranked ∈ found) := by
  induction found generalizing all state with
  | nil =>
      have hnil : all ∪ (candidatesOf []).toFinset = all := union_empty all
      rw [hnil]
      refine ⟨hkept, Or.inl, fun h => ?_⟩
      rcases h with htruncated | hlt | hmem
      · exact htruncated
      · exact hover hlt
      · exact absurd hmem not_mem_nil
  | cons one found ih =>
      cases one with
      | unranked =>
          obtain ⟨hcollected, htruncated⟩ := @ih all { state with truncated := true } hkept hcount
            fun _ => rfl
          refine ⟨hcollected, fun _ => Or.inr (Or.inr List.mem_cons_self), fun _ => ?_⟩
          exact htruncated.mpr (Or.inl rfl)
      | candidate candidate =>
          have hcons : candidatesOf (.candidate candidate :: found) =
              candidate :: candidatesOf found := rfl
          rw [hcons, length_cons] at hcount
          have hunion : insert candidate all ∪ (candidatesOf found).toFinset =
              all ∪ (candidatesOf (.candidate candidate :: found)).toFinset := by
            rw [hcons, toFinset_cons, insert_union, union_insert]
          have hmem : .unranked ∈ Found.candidate candidate :: found ↔ .unranked ∈ found := by
            simp
          rw [collect, if_neg (by omega), ← hunion, hmem]
          obtain ⟨hcollected, htruncated⟩ := @ih (insert candidate all)
            { kept := Smallest.put limit state.kept candidate
              candidates := state.candidates + 1
              truncated := state.truncated || limit < (insert candidate state.kept).card }
            hkept.put (by dsimp only; omega) (fun hlt => by
              rw [Bool.or_eq_true, decide_eq_true_eq]
              exact (hkept.lt_card_iff.mp hlt).imp_left hover)
          refine ⟨hcollected, htruncated.trans ?_⟩
          rw [Bool.or_eq_true, decide_eq_true_eq]
          have hle := card_le_card
            (subset_union_left : insert candidate all ⊆
              insert candidate all ∪ (candidatesOf found).toFinset)
          have hlt := hkept.lt_card_iff (x := candidate)
          constructor
          · intro h
            rcases h with (htrue | hnow) | hrest
            · exact Or.inl htrue
            · exact Or.inr (Or.inl ((hlt.mpr (Or.inr hnow)).trans_le hle))
            · exact Or.inr hrest
          · intro h
            rcases h with htrue | hrest
            · exact Or.inl (Or.inl htrue)
            · exact Or.inr hrest

/-- Beyond the bound something is left out. -/
theorem truncated_collect (hcount : maxCandidates < state.candidates + (candidatesOf found).length)
    (hbefore : state.candidates ≤ maxCandidates) :
    (collect limit found state).truncated = true := by
  induction found generalizing state with
  | nil =>
      have hlength : (candidatesOf []).length = 0 := rfl
      omega
  | cons one found ih =>
      cases one with
      | unranked => exact @ih { state with truncated := true } hcount hbefore
      | candidate candidate =>
          have hlength : (candidatesOf (.candidate candidate :: found)).length =
              (candidatesOf found).length + 1 := rfl
          rw [collect]
          split_ifs with hfull
          · rfl
          · exact ih (by dsimp only; omega) (by dsimp only; omega)

theorem kept_collect :
    (collect limit found state).kept ⊆ state.kept ∪ (candidatesOf found).toFinset := by
  induction found generalizing state with
  | nil => exact subset_union_left
  | cons one found ih =>
      cases one with
      | unranked => exact @ih { state with truncated := true }
      | candidate candidate =>
          have hcons : (candidatesOf (.candidate candidate :: found)).toFinset =
              insert candidate (candidatesOf found).toFinset := toFinset_cons
          rw [collect, hcons]
          split_ifs with hfull
          · exact subset_union_left
          · refine ih.trans ?_
            rw [union_insert, ← insert_union]
            exact union_subset_union_left put_subset

end Collect

/-! ## Facts -/

section Facts

variable (index : Index) (isAlphanumeric : Char → Bool) (names : OrdSet Str)
  (ranked : OrdMap Str ℕ)

/-- The symbols of the index that have one of the names. -/
def Index.selected : Finset Str := selectable (named isAlphanumeric names) ∅ index.symbols

/-- Every implementing symbol with a selected symbol that it implements. -/
def Index.implemented : Finset (Str × Str) :=
  linkable (index.selected isAlphanumeric names) ∅ index.pairs

/-- What is found without a bound. -/
def Index.found : List Found :=
  foundIn (index.selected isAlphanumeric names) (index.implemented isAlphanumeric names) ranked
    index.documents

/-- The distinct facts about the selected symbols in ranked documents. -/
def Index.facts : Finset Candidate :=
  (candidatesOf (index.found isAlphanumeric names ranked)).toFinset

/-- No pass has more before it than it collects. -/
def Index.InBounds : Prop :=
  (index.selected isAlphanumeric names).card ≤ maxSymbols ∧
    (index.implemented isAlphanumeric names).card ≤ maxSymbols ∧
    (candidatesOf (index.found isAlphanumeric names ranked)).length ≤ maxCandidates

/-- The index states that one symbol implements another. -/
def Index.Implements (symbol target : Str) : Prop :=
  ∃ information ∈ index.informations, information.symbol = symbol ∧
    target ∈ information.implements

/-- An occurrence of a selected symbol, or the definition of what implements one. -/
def Index.Selects (occurrence : OccurrenceView) : Prop :=
  occurrence.symbol ∈ index.selected isAlphanumeric names ∨
    (occurrence.definition = true ∧
      ∃ target ∈ index.selected isAlphanumeric names, index.Implements occurrence.symbol target)

/-- The fact is a definition, a reference or an implementation that stands at an occurrence in a
ranked document. -/
def Index.States (fact : Candidate) : Prop :=
  ∃ document ∈ index.documents, ∃ occurrence ∈ document.occurrences,
    ranked.find? document.path = some fact.rank ∧ fact.locator = document.path ∧
    fact.startLine = occurrence.startLine ∧ fact.endLine = occurrence.endLine ∧
    fact.symbol = occurrence.symbol ∧
    ((occurrence.symbol ∈ index.selected isAlphanumeric names ∧ fact.role = occurrence.role ∧
        fact.implements = none) ∨
      (occurrence.definition = true ∧ fact.role = .implementation ∧
        ∃ target ∈ index.selected isAlphanumeric names,
          index.Implements occurrence.symbol target ∧ fact.implements = some target))

end Facts

section Found

variable {selected selected' : Finset Str} {implemented implemented' : Finset (Str × Str)}
  {ranked : OrdMap Str ℕ} {documents : List DocumentView} {occurrence : OccurrenceView}

theorem mem_targets {target : Str} : target ∈ occurrence.targets implemented ↔
    occurrence.definition = true ∧ (occurrence.symbol, target) ∈ implemented := by
  unfold OccurrenceView.targets targets
  split_ifs with hdefinition
  · rw [mem_image]
    constructor
    · intro h
      obtain ⟨⟨symbol, other⟩, hpair, rfl⟩ := h
      obtain ⟨hmem, rfl⟩ := Finset.mem_filter.mp hpair
      exact ⟨hdefinition, hmem⟩
    · intro h
      exact ⟨_, Finset.mem_filter.mpr ⟨h.2, rfl⟩, rfl⟩
  · exact iff_of_false (notMem_empty _) fun h => hdefinition h.1

theorem mem_roles {role : Role} {implements : Option Str} :
    (role, implements) ∈ occurrence.roles selected implemented ↔
      (occurrence.symbol ∈ selected ∧ role = occurrence.role ∧ implements = none) ∨
      (role = .implementation ∧
        ∃ target ∈ occurrence.targets implemented, implements = some target) := by
  rw [OccurrenceView.roles, mem_append, List.mem_map]
  refine or_congr ?_ ?_
  · split_ifs with hselected
    · rw [List.mem_singleton, Prod.mk.injEq]
      exact (and_iff_right hselected).symm
    · exact iff_of_false not_mem_nil fun h => hselected h.1
  · constructor
    · intro h
      obtain ⟨target, htarget, heq⟩ := h
      obtain ⟨rfl, rfl⟩ := Prod.mk.inj heq
      exact ⟨rfl, target, (mem_sort _).mp htarget, rfl⟩
    · intro h
      obtain ⟨rfl, target, htarget, rfl⟩ := h
      exact ⟨target, (mem_sort _).mpr htarget, rfl⟩

theorem roles_of_skipped (h : occurrence.symbol ∉ selected ∧ occurrence.targets implemented = ∅) :
    occurrence.roles selected implemented = [] := by
  rw [OccurrenceView.roles, if_neg h.1, h.2, sort_empty]
  rfl

theorem mem_foundAt {document : DocumentView} {fact : Candidate} :
    .candidate fact ∈ document.foundAt selected implemented ranked occurrence ↔
      ranked.find? document.path = some fact.rank ∧ fact.locator = document.path ∧
      fact.startLine = occurrence.startLine ∧ fact.endLine = occurrence.endLine ∧
      fact.symbol = occurrence.symbol ∧
      (fact.role, fact.implements) ∈ occurrence.roles selected implemented := by
  unfold DocumentView.foundAt
  split_ifs with hskip
  · rw [roles_of_skipped hskip]
    simp
  · cases hrank : ranked.find? document.path with
    | none => simp
    | some rank =>
        dsimp only
        rw [List.mem_map]
        constructor
        · intro h
          obtain ⟨found, hfound, heq⟩ := h
          obtain rfl := Found.candidate.inj heq
          exact ⟨rfl, rfl, rfl, rfl, rfl, hfound⟩
        · intro h
          obtain ⟨hrank, hlocator, hstart, hend, hsymbol, hroles⟩ := h
          refine ⟨_, hroles, ?_⟩
          rw [Option.some.inj hrank, ← hlocator, ← hstart, ← hend, ← hsymbol]

theorem mem_foundIn {fact : Candidate} :
    .candidate fact ∈ foundIn selected implemented ranked documents ↔
      ∃ document ∈ documents, ∃ occurrence ∈ document.occurrences,
        ranked.find? document.path = some fact.rank ∧ fact.locator = document.path ∧
        fact.startLine = occurrence.startLine ∧ fact.endLine = occurrence.endLine ∧
        fact.symbol = occurrence.symbol ∧
        (fact.role, fact.implements) ∈ occurrence.roles selected implemented := by
  simp only [foundIn, mem_flatMap, mem_foundAt]

theorem unranked_mem_foundIn : .unranked ∈ foundIn selected implemented ranked documents ↔
    ∃ document ∈ documents, ranked.find? document.path = none ∧
      ∃ occurrence ∈ document.occurrences, occurrence.symbol ∈ selected ∨
        occurrence.targets implemented ≠ ∅ := by
  have hat : ∀ (document : DocumentView) (occurrence : OccurrenceView),
      .unranked ∈ document.foundAt selected implemented ranked occurrence ↔
        ranked.find? document.path = none ∧
          (occurrence.symbol ∈ selected ∨ occurrence.targets implemented ≠ ∅) := by
    intro document occurrence
    unfold DocumentView.foundAt
    split_ifs with hskip
    · refine iff_of_false not_mem_nil fun h => ?_
      exact h.2.elim hskip.1 fun hne => hne hskip.2
    · rw [not_and_or, not_not] at hskip
      cases ranked.find? document.path with
      | none => exact iff_of_true List.mem_cons_self ⟨rfl, hskip⟩
      | some rank => simp
  simp only [foundIn, mem_flatMap, hat]
  constructor
  · intro h
    obtain ⟨document, hdocument, occurrence, hoccurrence, hrank, hselects⟩ := h
    exact ⟨document, hdocument, hrank, occurrence, hoccurrence, hselects⟩
  · intro h
    obtain ⟨document, hdocument, hrank, occurrence, hoccurrence, hselects⟩ := h
    exact ⟨document, hdocument, occurrence, hoccurrence, hrank, hselects⟩

/-- What is found about fewer symbols is found about more. -/
theorem candidatesOf_mono (hselected : selected ⊆ selected')
    (himplemented : implemented ⊆ implemented') :
    (candidatesOf (foundIn selected implemented ranked documents)).toFinset ⊆
      (candidatesOf (foundIn selected' implemented' ranked documents)).toFinset := by
  intro fact hfact
  rw [mem_toFinset, mem_candidatesOf, mem_foundIn] at hfact ⊢
  obtain ⟨document, hdocument, occurrence, hoccurrence, hrank, hlocator, hstart, hend, hsymbol,
    hroles⟩ := hfact
  refine ⟨document, hdocument, occurrence, hoccurrence, hrank, hlocator, hstart, hend, hsymbol, ?_⟩
  rw [mem_roles] at hroles ⊢
  rcases hroles with ⟨hmem, hrole⟩ | ⟨hrole, target, htarget, himplements⟩
  · exact Or.inl ⟨hselected hmem, hrole⟩
  · rw [mem_targets] at htarget
    exact Or.inr ⟨hrole, target, mem_targets.mpr ⟨htarget.1, himplemented htarget.2⟩, himplements⟩

end Found

section Exact

variable {index : Index} {isAlphanumeric : Char → Bool} {names : OrdSet Str}
  {ranked : OrdMap Str ℕ}

theorem mem_implemented {symbol target : Str} :
    (symbol, target) ∈ index.implemented isAlphanumeric names ↔
      target ∈ index.selected isAlphanumeric names ∧ index.Implements symbol target := by
  have hpairs : (symbol, target) ∈ index.pairs ↔ index.Implements symbol target := by
    simp only [Index.pairs, Index.Implements, mem_flatMap, List.mem_map, Prod.mk.injEq]
    constructor
    · intro h
      obtain ⟨information, hmem, other, hother, rfl, rfl⟩ := h
      exact ⟨information, hmem, rfl, hother⟩
    · intro h
      obtain ⟨information, hmem, rfl, htarget⟩ := h
      exact ⟨information, hmem, target, htarget, rfl, rfl⟩
  rw [Index.implemented, mem_linkable, hpairs]
  simp [and_comm]

theorem mem_facts {fact : Candidate} : fact ∈ index.facts isAlphanumeric names ranked ↔
    index.States isAlphanumeric names ranked fact := by
  rw [Index.facts, mem_toFinset, mem_candidatesOf, Index.found, mem_foundIn]
  simp only [Index.States, mem_roles, mem_targets, mem_implemented]
  constructor
  · intro h
    obtain ⟨document, hdocument, occurrence, hoccurrence, hrank, hlocator, hstart, hend, hsymbol,
      hroles⟩ := h
    refine ⟨document, hdocument, occurrence, hoccurrence, hrank, hlocator, hstart, hend, hsymbol,
      hroles.imp_right fun h => ?_⟩
    obtain ⟨hrole, target, ⟨hdefinition, hselected, himplements⟩, heq⟩ := h
    exact ⟨hdefinition, hrole, target, hselected, himplements, heq⟩
  · intro h
    obtain ⟨document, hdocument, occurrence, hoccurrence, hrank, hlocator, hstart, hend, hsymbol,
      hroles⟩ := h
    refine ⟨document, hdocument, occurrence, hoccurrence, hrank, hlocator, hstart, hend, hsymbol,
      hroles.imp_right fun h => ?_⟩
    obtain ⟨hdefinition, hrole, target, hselected, himplements, heq⟩ := h
    exact ⟨hrole, target, ⟨hdefinition, hselected, himplements⟩, heq⟩

/-- A document without a rank holds back what it states. -/
theorem unranked_mem_found : .unranked ∈ index.found isAlphanumeric names ranked ↔
    ∃ document ∈ index.documents, ranked.find? document.path = none ∧
      ∃ occurrence ∈ document.occurrences, index.Selects isAlphanumeric names occurrence := by
  have htargets : ∀ occurrence : OccurrenceView,
      occurrence.targets (index.implemented isAlphanumeric names) ≠ ∅ ↔
        occurrence.definition = true ∧ ∃ target ∈ index.selected isAlphanumeric names,
          index.Implements occurrence.symbol target := by
    intro occurrence
    rw [← nonempty_iff_ne_empty]
    constructor
    · intro h
      obtain ⟨target, htarget⟩ := h
      obtain ⟨hdefinition, hpair⟩ := mem_targets.mp htarget
      exact ⟨hdefinition, target, mem_implemented.mp hpair⟩
    · intro h
      obtain ⟨hdefinition, target, hpair⟩ := h
      exact ⟨target, mem_targets.mpr ⟨hdefinition, mem_implemented.mpr hpair⟩⟩
  simp only [Index.found, unranked_mem_foundIn, htargets, Index.Selects]

/-- What the passes of `evidence` collect, and what it means that nothing was left out so far. -/
theorem exists_collected (index : Index) (isAlphanumeric : Char → Bool) (names : OrdSet Str)
    (ranked : OrdMap Str ℕ) (limit : ℕ) : ∃ found truncated,
    index.evidence isAlphanumeric names ranked limit =
      ((collect limit found ⟨∅, 0, truncated⟩).kept.sort.map index.evidenceOf,
        (collect limit found ⟨∅, 0, truncated⟩).truncated) ∧
    (candidatesOf found).toFinset ⊆ index.facts isAlphanumeric names ranked ∧
    (truncated = false → found = index.found isAlphanumeric names ranked) ∧
    (index.InBounds isAlphanumeric names ranked → truncated = false) := by
  obtain ⟨hselected, hall, hfull⟩ := @select_spec (named isAlphanumeric names) ∅ index.symbols
    (Nat.zero_le _)
  obtain ⟨himplemented, hlinked, hover⟩ := @link_spec
    (select (named isAlphanumeric names) index.symbols ∅).1 ∅ index.pairs
    (select (named isAlphanumeric names) index.symbols ∅).2 (Nat.zero_le _)
  have hlinkable : linkable (select (named isAlphanumeric names) index.symbols ∅).1 ∅ index.pairs ⊆
      index.implemented isAlphanumeric names := by
    intro pair hpair
    rw [mem_linkable] at hpair
    rw [Index.implemented, mem_linkable]
    exact hpair.imp_right fun hpair => ⟨hpair.1, hselected hpair.2⟩
  refine ⟨_, _, rfl, candidatesOf_mono hselected (himplemented.trans hlinkable), fun h => ?_,
    fun hbounds => ?_⟩
  · obtain ⟨hselect, hlink⟩ := hlinked h
    rw [hlink, hall hselect]
    rfl
  · have hselect : (select (named isAlphanumeric names) index.symbols ∅).2 = false := by
      rw [← Bool.not_eq_true]
      intro htrue
      exact absurd (hfull htrue) (not_lt.mpr hbounds.1)
    rw [← Bool.not_eq_true]
    intro htrue
    rcases hover htrue with htruncated | hlt
    · exact absurd (htruncated.symm.trans hselect) (by decide)
    · exact absurd (hlt.trans_le (card_le_card hlinkable)) (not_lt.mpr hbounds.2.1)

/-- Within the bounds of the passes the evidence is the front of the facts in their order, and it is
truncated when there are more, or some in a document without a rank.  In any case it is true, and
complete unless it says otherwise. -/
theorem evidence_exact (index : Index) (isAlphanumeric : Char → Bool) (names : OrdSet Str)
    (ranked : OrdMap Str ℕ) (limit : ℕ) :
    (∀ fact, fact ∈ index.facts isAlphanumeric names ranked ↔
      index.States isAlphanumeric names ranked fact) ∧
    (index.InBounds isAlphanumeric names ranked →
      (index.evidence isAlphanumeric names ranked limit).1 =
        ((index.facts isAlphanumeric names ranked).sort.take limit).map index.evidenceOf ∧
      ((index.evidence isAlphanumeric names ranked limit).2 = true ↔
        limit < (index.facts isAlphanumeric names ranked).card ∨
          ∃ document ∈ index.documents, ranked.find? document.path = none ∧
            ∃ occurrence ∈ document.occurrences,
              index.Selects isAlphanumeric names occurrence)) ∧
    (∀ evidence ∈ (index.evidence isAlphanumeric names ranked limit).1,
      ∃ fact, index.States isAlphanumeric names ranked fact ∧
        evidence = index.evidenceOf fact) ∧
    ((index.evidence isAlphanumeric names ranked limit).2 = false →
      (index.evidence isAlphanumeric names ranked limit).1 =
        (index.facts isAlphanumeric names ranked).sort.map index.evidenceOf) := by
  obtain ⟨found, truncated, heq, hsubset, hfound, hbounds⟩ :=
    exists_collected index isAlphanumeric names ranked limit
  have hstart : Of limit (∅ : Finset Candidate) (⟨∅, 0, truncated⟩ : Collected).kept :=
    Of.empty limit
  have hover : limit < (∅ : Finset Candidate).card →
      (⟨∅, 0, truncated⟩ : Collected).truncated = true := fun h => absurd h (Nat.not_lt_zero _)
  have hspec : (candidatesOf found).length ≤ maxCandidates →
      Of limit (candidatesOf found).toFinset (collect limit found ⟨∅, 0, truncated⟩).kept ∧
        ((collect limit found ⟨∅, 0, truncated⟩).truncated = true ↔ truncated = true ∨
          limit < (candidatesOf found).toFinset.card ∨ .unranked ∈ found) := by
    intro hcount
    have h := collect_spec hstart ((Nat.zero_add _).trans_le hcount) hover
    rwa [empty_union] at h
  rw [heq]
  refine ⟨fun fact => mem_facts, fun hin => ?_, fun evidence hevidence => ?_, fun hfalse => ?_⟩
  · have htruncated := hbounds hin
    obtain rfl := hfound htruncated
    obtain ⟨hof, hiff⟩ := hspec hin.2.2
    refine ⟨congrArg _ hof.sort_eq, hiff.trans ?_⟩
    rw [htruncated, ← unranked_mem_found, or_iff_right Bool.false_ne_true]
    rfl
  · obtain ⟨fact, hfact, rfl⟩ := List.mem_map.mp hevidence
    rw [mem_sort] at hfact
    have hkept := kept_collect hfact
    rw [empty_union] at hkept
    exact ⟨fact, mem_facts.mp (hsubset hkept), rfl⟩
  · have hcount : (candidatesOf found).length ≤ maxCandidates := by
      by_contra hnot
      have htrue : (collect limit found ⟨∅, 0, truncated⟩).truncated = true :=
        truncated_collect (by dsimp only; omega) (Nat.zero_le _)
      exact absurd (htrue.symm.trans hfalse) (by decide)
    obtain ⟨hof, hiff⟩ := hspec hcount
    have hfalse' : (collect limit found ⟨∅, 0, truncated⟩).truncated = false := hfalse
    have hnone := (not_congr hiff).mp (by rw [hfalse']; exact Bool.false_ne_true)
    rw [not_or, not_or, not_lt] at hnone
    obtain rfl := hfound (Bool.eq_false_iff.mpr hnone.1)
    dsimp only
    rw [hof.eq hnone.2.1]
    rfl

/-! ## One definition -/

/-- A symbol of the name `f`. -/
def typeSymbol : Str := "s m p v f#".toList

/-- The document `a`, which defines it. -/
def oneDocument : DocumentView :=
  ⟨['a'], [], [10, 1, 97, 18, 19, 10, 3, 1, 2, 3, 18, 10, 115, 32, 109, 32, 112, 32, 118, 32, 102,
    35, 24, 1]⟩

/-- An index of this document. -/
def oneDefinition : Index := ⟨18 :: 24 :: oneDocument.body⟩

theorem named_typeSymbol :
    named Char.isAlphanum (OrdMap.empty.insert ['f'] ()) typeSymbol = true := by
  have hskip : skipFields 4 typeSymbol = some "f#".toList := by decide
  have hturn : turn Char.isAlphanum "f#".toList = some (some ['f'], true, []) := by decide
  have hname : symbolName Char.isAlphanum typeSymbol = some ⟨['f'], ['f'], true⟩ := by
    rw [symbolName, if_neg (by decide), hskip]
    show readDescriptors Char.isAlphanum [] false _ >>= _ = _
    rw [readDescriptors_turn (by decide) hturn, readDescriptors_nil]
    rfl
  rw [named, hname]
  decide

/-- The definition is returned. -/
theorem evidence_oneDefinition :
    (oneDefinition.evidence Char.isAlphanum (OrdMap.empty.insert ['f'] ())
      (OrdMap.empty.insert ['a'] 7) 5).1 =
        [⟨['a'], 2, 2, .definition, typeSymbol, "unspecified_kind".toList, none⟩] := by
  have hdocuments : oneDefinition.documents = [oneDocument] := by decide +kernel
  have hsymbols : oneDefinition.symbols = [typeSymbol] := by decide +kernel
  have hpairs : oneDefinition.pairs = [] := by decide +kernel
  have hkind : oneDefinition.kindOf typeSymbol = 0 := by decide +kernel
  have hselected : oneDefinition.selected Char.isAlphanum (OrdMap.empty.insert ['f'] ()) =
      {typeSymbol} := by
    ext symbol
    rw [Index.selected, mem_selectable, hsymbols, List.mem_singleton, Finset.mem_singleton]
    constructor
    · exact fun h => h.elim (fun h => absurd h (notMem_empty _)) fun h => h.1
    · rintro rfl
      exact Or.inr ⟨rfl, named_typeSymbol⟩
  have himplemented : oneDefinition.implemented Char.isAlphanum (OrdMap.empty.insert ['f'] ()) =
      ∅ := by
    rw [Index.implemented, hpairs]
    rfl
  have hfound : oneDefinition.found Char.isAlphanum (OrdMap.empty.insert ['f'] ())
      (OrdMap.empty.insert ['a'] 7) =
        [.candidate ⟨7, ['a'], 1, 1, .definition, typeSymbol, none⟩] := by
    rw [Index.found, hselected, himplemented, hdocuments]
    decide +kernel
  have hbounds : oneDefinition.InBounds Char.isAlphanum (OrdMap.empty.insert ['f'] ())
      (OrdMap.empty.insert ['a'] 7) := by
    rw [Index.InBounds, hselected, himplemented, hfound]
    exact ⟨by decide, by decide, by decide⟩
  have hfacts : oneDefinition.facts Char.isAlphanum (OrdMap.empty.insert ['f'] ())
      (OrdMap.empty.insert ['a'] 7) = {⟨7, ['a'], 1, 1, .definition, typeSymbol, none⟩} := by
    rw [Index.facts, hfound]
    rfl
  have hexact := ((evidence_exact oneDefinition Char.isAlphanum (OrdMap.empty.insert ['f'] ())
    (OrdMap.empty.insert ['a'] 7) 5).2.1 hbounds).1
  rw [hexact, hfacts, sort_singleton]
  show [oneDefinition.evidenceOf _] = _
  rw [Index.evidenceOf]
  dsimp only
  rw [hkind]
  decide +kernel

end Exact

end Bran.Scip
