import Bran.Cli.EvidenceRuns
import Bran.Cli.QueryRecord
import Bran.Scan.Pruned

/-!
# Recorded queries are replayed

The evidence store lies where neither the scanner nor the discovery of documents looks, so a record
that was made from repositories is made again from repositories with another store.
-/

namespace Bran.Cli

open Text Validation DirTree Scan Graph
open List (map_cons foldl_cons sum_cons flatMap_cons)

/-! ## Roots beside their store -/

def withoutCache : RepoItem → RepoItem
  | .directory entries => .directory (entries.filter fun entry => entry.1 ≠ "cache".toList)
  | item => item

/-- The entries of a root without the cache of `.bran`, where the evidence store is. -/
def withoutStore (root : Root) : Root :=
  root.map fun entry => if entry.1 = ".bran".toList then (entry.1, withoutCache entry.2) else entry

/-- Roots that differ in the evidence store and its directory at most. -/
def SameBesideStore (root root' : Root) : Prop := withoutStore root = withoutStore root'

theorem isIgnoredRelative_cache (matcher : IgnoreMatcher) :
    matcher.isIgnoredRelative ".bran/cache".toList = true := by
  have hbuiltin : ((".bran/cache".toList.rdropWhile (· = '/')).splitOn '/').any
      (fun component => builtinComponents.contains component) = true := by decide
  rw [IgnoreMatcher.isIgnoredRelative, hbuiltin, Bool.true_or]

/-- A walk that skips the cache does not see the store. -/
theorem pruned_withoutStore {skip : Str → Bool} (hskip : skip ".bran/cache".toList = true)
    (root : Root) :
    pruned joinRelative skip [] (withoutStore root) = pruned joinRelative skip [] root := by
  induction root with
  | nil => rfl
  | cons entry rest ih =>
      obtain ⟨name, item⟩ := entry
      rw [withoutStore, map_cons, ← withoutStore]
      dsimp only
      split_ifs with hname
      · rw [pruned, pruned, ih, hname]
        congr 2
        cases item with
        | file data | symlink | other => rfl
        | directory entries =>
            have hsame : pruned joinRelative skip (joinRelative [] ".bran".toList)
                (entries.filter fun entry => entry.1 ≠ "cache".toList) =
                pruned joinRelative skip (joinRelative [] ".bran".toList) entries :=
              @pruned_filter _ _ _ joinRelative skip _ (fun name => name ≠ "cache".toList)
                (fun name hdropped => by
                  have hcache : name = "cache".toList := by simpa using hdropped
                  rw [hcache]
                  exact hskip) entries
            rw [withoutCache, prunedItem, prunedItem, hsame]
      · rw [pruned, pruned, ih]

theorem entryNamed_withoutStore {name : Str} (h : name ≠ ".bran".toList) (root : Root) :
    entryNamed name (withoutStore root) = entryNamed name root := by
  induction root with
  | nil => rfl
  | cons entry rest ih =>
      obtain ⟨other, item⟩ := entry
      rw [withoutStore, map_cons, ← withoutStore]
      dsimp only
      split_ifs with hbran
      · have hother : other ≠ name := fun heq => h (heq.symm.trans hbran)
        rw [entryNamed, entryNamed, if_neg hother, if_neg hother, ih]
      · rw [entryNamed, entryNamed, ih]

theorem entryNamed_bran_withoutStore (root : Root) :
    entryNamed ".bran".toList (withoutStore root) =
      (entryNamed ".bran".toList root).map withoutCache := by
  induction root with
  | nil => rfl
  | cons entry rest ih =>
      obtain ⟨other, item⟩ := entry
      rw [withoutStore, map_cons, ← withoutStore]
      dsimp only
      split_ifs with hbran
      · rw [entryNamed, entryNamed, if_pos hbran, if_pos hbran]
        rfl
      · rw [entryNamed, entryNamed, if_neg hbran, if_neg hbran, ih]

theorem entryNamed_filter {name : Str} {keep : Str → Bool} (h : keep name = true)
    (entries : List (Str × RepoItem)) :
    entryNamed name (entries.filter fun entry => keep entry.1) = entryNamed name entries := by
  induction entries with
  | nil => rfl
  | cons entry rest ih =>
      obtain ⟨other, item⟩ := entry
      rw [List.filter_cons]
      split_ifs with hkeep
      · rw [entryNamed, entryNamed, ih]
      · have hother : other ≠ name := fun heq => hkeep (by rw [heq]; exact h)
        rw [ih, entryNamed, if_neg hother]

section Beside

variable {root root' : Root}

theorem SameBesideStore.entryNamed_eq (h : SameBesideStore root root') {name : Str}
    (hname : name ≠ ".bran".toList) : entryNamed name root = entryNamed name root' := by
  rw [← entryNamed_withoutStore hname root, h, entryNamed_withoutStore hname root']

theorem SameBesideStore.pruned_eq (h : SameBesideStore root root') {skip : Str → Bool}
    (hskip : skip ".bran/cache".toList = true) :
    pruned joinRelative skip [] root = pruned joinRelative skip [] root' := by
  rw [← pruned_withoutStore hskip root, h, pruned_withoutStore hskip root']

theorem SameBesideStore.hasPolicy_eq (h : SameBesideStore root root') :
    hasPolicy root = hasPolicy root' := by
  have hpolicy : ∀ root : Root, hasPolicy (withoutStore root) = hasPolicy root := by
    intro root
    rw [hasPolicy, hasPolicy, fileAt, fileAt, lookup, lookup, entryNamed_bran_withoutStore]
    cases entryNamed ".bran".toList root with
    | none => rfl
    | some item =>
        rw [Option.map_some]
        cases item with
        | file data | symlink | other => rfl
        | directory entries =>
            rw [withoutCache]
            dsimp only
            rw [lookup, lookup, @entryNamed_filter _ (fun name => name ≠ "cache".toList) (by decide)]
  rw [← hpolicy root, h, hpolicy root']

/-- The ignore files are read from other entries than the store. -/
theorem SameBesideStore.readIgnore_eq (h : SameBesideStore root root') :
    readIgnore root = readIgnore root' := by
  rw [readIgnore, readIgnore, readConfigured, readConfigured, configuredIgnore, configuredIgnore,
    h.entryNamed_eq (by decide : branignoreFilename ≠ _),
    h.entryNamed_eq (by decide : legacyOkfignoreFilename ≠ _),
    h.entryNamed_eq (by decide : gitignoreFilename ≠ _)]

theorem SameBesideStore.scan_eq {M : Type} {scanner : RepositoryScanner M}
    (h : SameBesideStore root root') : scan scanner root = scan scanner root' := by
  refine scan_eq_of_pruned h.readIgnore_eq fun matcher => h.pruned_eq ?_
  rw [skipped, isIgnoredRelative_cache, Bool.or_true]

theorem SameBesideStore.matcherFor_eq (h : SameBesideStore root root') :
    matcherFor root = matcherFor root' := by
  rw [matcherFor, matcherFor, rulesFor, rulesFor, readIgnoreFile, readIgnoreFile, readIgnoreFile,
    readIgnoreFile, readIgnoreFile, readIgnoreFile,
    h.entryNamed_eq (by decide : branignoreFilename ≠ _),
    h.entryNamed_eq (by decide : legacyOkfignoreFilename ≠ _),
    h.entryNamed_eq (by decide : gitignoreFilename ≠ _)]

end Beside

/-! ## Discovery -/

section Discovery

variable (matcher : IgnoreMatcher)

/-- A directory on the stack without what the walk skips. -/
def prunedPending (pending : Pending) : Pending :=
  (pruned joinRelative matcher.isIgnoredRelative pending.2.1 pending.1, pending.2.1, pending.2.2)

variable {matcher}

theorem visitEntries_pruned (directory : Str) (depth : ℕ) (entries : List (Str × RepoItem))
    (stack : List Pending) (found : List Listed) :
    (pruned joinRelative matcher.isIgnoredRelative directory entries).foldl
        (visitEntry matcher directory depth) (stack.map (prunedPending matcher), found) =
      let state := entries.foldl (visitEntry matcher directory depth) (stack, found)
      (state.1.map (prunedPending matcher), state.2) := by
  induction entries generalizing stack found with
  | nil => rfl
  | cons entry rest ih =>
      obtain ⟨name, item⟩ := entry
      rw [pruned, foldl_cons]
      split_ifs with hskip
      · have hstay : visitEntry matcher directory depth (stack, found) (name, item) =
            (stack, found) := by
          rw [visitEntry]
          exact if_pos hskip
        rw [hstay]
        exact ih stack found
      · simp only [foldl_cons, visitEntry, if_neg hskip]
        cases item with
        | file data =>
            rw [prunedItem]
            dsimp only
            cases formatForPath (joinRelative directory name) with
            | none => exact ih stack found
            | some format => exact ih stack _
        | symlink | other => exact ih stack found
        | directory entries => exact ih ((entries, joinRelative directory name, depth + 1) :: stack) found

/-- The loop does not look at what it skips. -/
theorem discoverLoop_pruned (fuel : ℕ) (stack : List Pending) (found : List Listed) :
    discoverLoop matcher fuel (stack.map (prunedPending matcher)) found =
      discoverLoop matcher fuel stack found := by
  induction fuel generalizing stack found with
  | zero =>
      cases stack with
      | nil => rfl
      | cons pending stack => rfl
  | succ fuel ih =>
      cases stack with
      | nil => rfl
      | cons pending stack =>
          obtain ⟨entries, directory, depth⟩ := pending
          rw [map_cons, prunedPending, discoverLoop, discoverLoop]
          dsimp only
          split_ifs with hdepth
          · exact ih stack found
          · rw [visitEntries_pruned]
            exact ih _ _

theorem discoverLoop_mono {fuel fuel' : ℕ} (hle : fuel ≤ fuel') {stack : List Pending}
    {found listed : List Listed} (h : discoverLoop matcher fuel stack found = some listed) :
    discoverLoop matcher fuel' stack found = some listed := by
  induction fuel generalizing fuel' stack found with
  | zero =>
      cases stack with
      | nil => rwa [discoverLoop] at h ⊢
      | cons pending stack => cases h
  | succ fuel ih =>
      obtain ⟨more, rfl⟩ : ∃ more, fuel' = more + 1 := ⟨fuel' - 1, by omega⟩
      cases stack with
      | nil => rwa [discoverLoop] at h ⊢
      | cons pending stack =>
          obtain ⟨entries, directory, depth⟩ := pending
          rw [discoverLoop] at h ⊢
          split_ifs at h ⊢
          · exact ih (by omega) h
          · exact ih (by omega) h

/-- Every directory that is pushed is one of those below. -/
theorem directoriesLeft_visitEntries (directory : Str) (depth : ℕ)
    (entries : List (Str × RepoItem)) (stack : List Pending) (found : List Listed) :
    directoriesLeft (entries.foldl (visitEntry matcher directory depth) (stack, found)).1 ≤
      directoriesIn entries + directoriesLeft stack := by
  induction entries generalizing stack found with
  | nil => exact Nat.le_add_left _ _
  | cons entry rest ih =>
      obtain ⟨name, item⟩ := entry
      have hstep : directoriesLeft (visitEntry matcher directory depth (stack, found) (name, item)).1 ≤
          directoriesItem item + directoriesLeft stack := by
        rw [visitEntry]
        dsimp only
        split_ifs
        · exact Nat.le_add_left _ _
        · cases item with
          | file data =>
              dsimp only
              split
              · exact Nat.le_add_left _ _
              · exact Nat.le_add_left _ _
          | symlink | other => exact Nat.le_add_left _ _
          | directory entries =>
              rw [directoriesLeft, map_cons, sum_cons, directoriesItem]
              rfl
      have hrest := ih (visitEntry matcher directory depth (stack, found) (name, item)).1
        (visitEntry matcher directory depth (stack, found) (name, item)).2
      rw [foldl_cons, directoriesIn]
      calc _ ≤ _ := hrest
        _ ≤ directoriesIn rest + (directoriesItem item + directoriesLeft stack) :=
          Nat.add_le_add_left hstep _
        _ = _ := by omega

theorem discoverLoop_isSome (fuel : ℕ) {stack : List Pending} (found : List Listed)
    (h : directoriesLeft stack ≤ fuel) :
    ∃ listed, discoverLoop matcher fuel stack found = some listed := by
  induction fuel generalizing stack found with
  | zero =>
      cases stack with
      | nil => exact ⟨found, rfl⟩
      | cons pending stack =>
          rw [directoriesLeft, map_cons, sum_cons] at h
          omega
  | succ fuel ih =>
      cases stack with
      | nil => exact ⟨found, rfl⟩
      | cons pending stack =>
          obtain ⟨entries, directory, depth⟩ := pending
          rw [directoriesLeft, map_cons, sum_cons] at h
          have hstack : directoriesIn entries + directoriesLeft stack ≤ fuel := by
            have hle : directoriesIn entries + 1 + directoriesLeft stack ≤ fuel + 1 := h
            omega
          rw [discoverLoop]
          split_ifs
          · exact ih found (by omega)
          · exact ih _ ((directoriesLeft_visitEntries directory depth entries stack found).trans hstack)

/-- The loop finds the same below directories that agree in what is not skipped. -/
theorem discover_eq_of_pruned {root root' : Root} (hmatcher : matcherFor root = matcherFor root')
    (hpruned : pruned joinRelative (matcherFor root).isIgnoredRelative [] root =
      pruned joinRelative (matcherFor root).isIgnoredRelative [] root') :
    discover root = discover root' := by
  have hleft : ∀ root : Root, directoriesLeft [(root, ([] : Str), 0)] ≤ directoriesIn root + 1 :=
    fun root => le_of_eq (Nat.add_zero _)
  obtain ⟨listed, hlisted⟩ := @discoverLoop_isSome (matcherFor root)
    (directoriesIn root + 1) _ [] (hleft root)
  obtain ⟨listed', hlisted'⟩ := @discoverLoop_isSome (matcherFor root)
    (directoriesIn root' + 1) _ [] (hleft root')
  have hmore := discoverLoop_mono (Nat.le_add_right _ (directoriesIn root' + 1)) hlisted
  have hmore' := discoverLoop_mono (Nat.le_add_left _ (directoriesIn root + 1)) hlisted'
  have hstack : [(root, ([] : Str), 0)].map (prunedPending (matcherFor root)) =
      [(root', ([] : Str), 0)].map (prunedPending (matcherFor root)) := by
    rw [List.map_singleton, List.map_singleton, prunedPending, prunedPending, hpruned]
  have hsame : some listed = some listed' := by
    rw [← hmore, ← hmore', ← discoverLoop_pruned, hstack, discoverLoop_pruned]
  rw [discover, discover, ← hmatcher, hlisted, hlisted', hsame]

/-- What a visit finds or leaves to be visited was below the entries, found or left before. -/
theorem forall_visitEntries {P : Listed → Prop} (directory : Str) (depth : ℕ)
    (entries : List (Str × RepoItem)) {stack : List Pending} {found : List Listed}
    (hentries : ∀ listed ∈
      documentsOf (reached joinRelative matcher.isIgnoredRelative directory entries), P listed)
    (hstack : ∀ listed ∈ documentsBelow matcher stack, P listed)
    (hfound : ∀ listed ∈ found, P listed) :
    let state := entries.foldl (visitEntry matcher directory depth) (stack, found)
    (∀ listed ∈ documentsBelow matcher state.1, P listed) ∧ ∀ listed ∈ state.2, P listed := by
  induction entries generalizing stack found with
  | nil => exact ⟨hstack, hfound⟩
  | cons entry rest ih =>
      obtain ⟨name, item⟩ := entry
      rw [reached, documentsOf_append] at hentries
      have hfirst := fun listed hmem => hentries listed (List.mem_append_left _ hmem)
      have hrest := fun listed hmem => hentries listed (List.mem_append_right _ hmem)
      rw [foldl_cons]
      rw [visitEntry]
      dsimp only
      split_ifs with hskip
      · exact ih hrest hstack hfound
      · rw [if_neg hskip] at hfirst
        cases item with
        | symlink | other => exact ih hrest hstack hfound
        | directory entries =>
            rw [reachedItem] at hfirst
            refine ih hrest (fun listed hmem => ?_) hfound
            rw [documentsBelow, flatMap_cons] at hmem
            exact (List.mem_append.mp hmem).elim (hfirst listed) (hstack listed)
        | file data =>
            dsimp only
            cases hformat : formatForPath (joinRelative directory name) with
            | none => exact ih hrest hstack hfound
            | some format =>
                have hhere : P (joinRelative directory name, format) := by
                  refine hfirst _ (mem_documentsOf_iff.mpr ⟨hformat, data, ?_⟩)
                  rw [reachedItem]
                  exact List.mem_singleton_self _
                exact ih hrest hstack (forall_mem_append_singleton hfound hhere)

theorem forall_discoverLoop {P : Listed → Prop} {fuel : ℕ} {stack : List Pending}
    {found listed : List Listed} (h : discoverLoop matcher fuel stack found = some listed)
    (hstack : ∀ listed ∈ documentsBelow matcher stack, P listed)
    (hfound : ∀ listed ∈ found, P listed) : ∀ document ∈ listed, P document := by
  induction fuel generalizing stack found with
  | zero =>
      cases stack with
      | nil =>
          rw [discoverLoop] at h
          exact Option.some.inj h ▸ hfound
      | cons pending stack => cases h
  | succ fuel ih =>
      cases stack with
      | nil =>
          rw [discoverLoop] at h
          exact Option.some.inj h ▸ hfound
      | cons pending stack =>
          obtain ⟨entries, directory, depth⟩ := pending
          rw [documentsBelow, flatMap_cons] at hstack
          have hentries := fun listed hmem => hstack listed (List.mem_append_left _ hmem)
          have hbelow := fun listed hmem => hstack listed (List.mem_append_right _ hmem)
          rw [discoverLoop] at h
          split_ifs at h
          · exact ih h hbelow hfound
          · obtain ⟨hstate, hlisted⟩ :=
              forall_visitEntries directory depth entries hentries hbelow hfound
            exact ih h hstate hlisted

end Discovery

theorem reached_of_discover {root : Root} {files : List Listed} {omitted : ℕ}
    (h : discover root = some (files, omitted)) {listed : Listed} (hlisted : listed ∈ files) :
    ∃ data, (listed.1, data) ∈
      reached joinRelative (matcherFor root).isIgnoredRelative [] root := by
  obtain ⟨found, hloop, hpair⟩ := Option.map_eq_some_iff.mp h
  obtain ⟨rfl, _⟩ := Prod.mk.inj hpair
  have hall := @forall_discoverLoop (matcherFor root)
    (fun listed => ∃ data, (listed.1, data) ∈
      reached joinRelative (matcherFor root).isIgnoredRelative [] root) _ _ _ _ hloop
    (fun listed hmem => ?_) fun _ hmem => (nomatch hmem)
  · exact hall listed (mem_sortBy.mp (List.mem_of_mem_take hlisted))
  · rw [documentsBelow, flatMap_cons, List.flatMap_nil, List.append_nil] at hmem
    exact (mem_documentsOf_iff.mp hmem).2

/-- Document evidence does not see the store. -/
theorem SameBesideStore.bundleDocuments_eq {root root' : Root} (h : SameBesideStore root root')
    (hwf : WellFormed IsName (.directory root)) (hwf' : WellFormed IsName (.directory root'))
    (bundle : Str) : bundleDocuments bundle root = bundleDocuments bundle root' := by
  have hskip := isIgnoredRelative_cache (matcherFor root)
  have hpruned := h.pruned_eq hskip
  have hdiscover := discover_eq_of_pruned h.matcherFor_eq hpruned
  rw [bundleDocuments, bundleDocuments, ← hdiscover]
  cases hfound : discover root with
  | none => rfl
  | some found =>
      obtain ⟨files, omitted⟩ := found
      have hfiles : files.map (fun listed => (listed, fileBelow root listed.1)) =
          files.map fun listed => (listed, fileBelow root' listed.1) := by
        apply List.map_congr_left
        intro listed hlisted
        obtain ⟨data, hreached⟩ := reached_of_discover hfound hlisted
        have hreached' := hreached
        rw [← reached_pruned, hpruned, reached_pruned] at hreached'
        rw [((mem_reached_iff hwf).mp hreached).1, ((mem_reached_iff hwf').mp hreached').1]
      rw [Option.map_some, Option.map_some, hfiles]

/-! ## Repositories beside their stores -/

/-- Repositories that differ in their evidence stores at most. -/
structure SameBesideStores (repositories repositories' : Repositories) : Prop where
  present : ∀ text, (repositories text).isSome = (repositories' text).isSome
  wellFormed : ∀ text root, repositories text = some root → WellFormed IsName (.directory root)
  wellFormed' : ∀ text root, repositories' text = some root → WellFormed IsName (.directory root)
  same : ∀ text root root', repositories text = some root → repositories' text = some root' →
    SameBesideStore root root'

section Replay

variable {M : Type} (ports : QueryPorts M) {repositories repositories' : Repositories}

/-- A root is there in both, or in neither. -/
theorem SameBesideStores.cases (h : SameBesideStores repositories repositories') (text : Str) :
    (repositories text = none ∧ repositories' text = none) ∨
      ∃ root root', repositories text = some root ∧ repositories' text = some root' := by
  have hpresent := h.present text
  cases hroot : repositories text with
  | none =>
      rw [hroot] at hpresent
      exact .inl ⟨rfl, Option.isNone_iff_eq_none.mp (by simpa using hpresent.symm)⟩
  | some root =>
      rw [hroot] at hpresent
      exact .inr ⟨root, (repositories' text).get hpresent.symm, rfl, (Option.some_get _).symm⟩

theorem SameBesideStores.scanPolicyQueryRoot_eq (h : SameBesideStores repositories repositories')
    (text : Str) :
    scanPolicyQueryRoot ports repositories text = scanPolicyQueryRoot ports repositories' text := by
  rw [scanPolicyQueryRoot, scanPolicyQueryRoot]
  rcases h.cases text with ⟨hroot, hroot'⟩ | ⟨root, root', hroot, hroot'⟩
  · rw [hroot, hroot']
  · have hsame := h.same text root root' hroot hroot'
    rw [hroot, hroot']
    dsimp only
    rw [hsame.hasPolicy_eq, hsame.scan_eq]

theorem SameBesideStores.documentEvidenceTerms_eq
    (h : SameBesideStores repositories repositories') (bundles : List Str) (query : Str) :
    documentEvidenceTerms ports repositories bundles query =
      documentEvidenceTerms ports repositories' bundles query := by
  have hbundle : (fun bundle => (repositories bundle).bind (bundleDocuments bundle)) =
      fun bundle => (repositories' bundle).bind (bundleDocuments bundle) := by
    funext bundle
    rcases h.cases bundle with ⟨hroot, hroot'⟩ | ⟨root, root', hroot, hroot'⟩
    · rw [hroot, hroot']
    · rw [hroot, hroot', Option.bind_some, Option.bind_some]
      exact (h.same bundle root root' hroot hroot').bundleDocuments_eq
        (h.wellFormed bundle root hroot) (h.wellFormed' bundle root' hroot') bundle
  rw [documentEvidenceTerms, documentEvidenceTerms, hbundle]

/-- A live evaluation does not see the stores. -/
theorem SameBesideStores.queryEvidenceFromLive_eq
    (h : SameBesideStores repositories repositories') (roots : List Str) (query : Str)
    (multi : Bool) :
    queryEvidenceFromLive ports repositories roots query multi =
      queryEvidenceFromLive ports repositories' roots query multi := by
  have hscan : scanPolicyQueryRoot ports repositories = scanPolicyQueryRoot ports repositories' :=
    funext (h.scanPolicyQueryRoot_eq ports)
  have hdocuments : documentEvidenceTerms ports repositories =
      documentEvidenceTerms ports repositories' :=
    funext fun bundles => funext (h.documentEvidenceTerms_eq ports bundles)
  rw [queryEvidenceFromLive.eq_def, queryEvidenceFromLive.eq_def, hscan, hdocuments]

/-! ## The two producers -/

theorem bundle_scoreCandidates {snapshot : ScanSnapshot M} {terms entities : Terms}
    (nodes : List NodeInput) {state : List SourceRanking × Terms}
    (hstate : ∀ ranking ∈ state.1, ranking.bundle = []) :
    ∀ ranking ∈ (nodes.foldl (scoreCandidate ports snapshot terms entities) state).1,
      ranking.bundle = [] := by
  induction nodes generalizing state with
  | nil => exact hstate
  | cons node rest ih =>
      rw [foldl_cons]
      apply ih
      rw [scoreCandidate]
      dsimp only
      split_ifs
      · exact forall_mem_append_singleton hstate rfl
      · exact hstate
      · exact hstate

theorem mem_of_mem_suppressed {rankings : List SourceRanking} {matched entities : Terms}
    {ranking : SourceRanking}
    (h : ranking ∈ suppressUnanchoredEntityMatches rankings matched entities) :
    ranking ∈ rankings := by
  rw [suppressUnanchoredEntityMatches] at h
  split_ifs at h
  · cases h
  · exact h

variable {query : Str} {record : QueryEvidenceRecord} {roots : List Str}

/-- The sources of a single root are ranked without a bundle. -/
theorem bundle_sourceRankings {graph : GraphInput} {snapshot : ScanSnapshot M} {maxSources : ℕ}
    {ranking : SourceRanking}
    (h : ranking ∈ (sourceRankings ports graph snapshot query maxSources).1) :
    ranking.bundle = [] := by
  have hscored : ∀ ranking ∈ (scoreSourceCandidates ports graph snapshot query).1,
      ranking.bundle = [] := bundle_scoreCandidates ports graph.nodes fun _ hmem => (nomatch hmem)
  obtain ⟨index, hindex, rfl⟩ := List.mem_mapIdx.mp h
  have hbundle := hscored _ (mem_of_mem_suppressed
    (mem_sortBy.mp (List.mem_of_mem_take (List.getElem_mem hindex))))
  exact hbundle

/-- A live evaluation of one root makes the record that its query has made. -/
theorem queryEvidenceFromLive_of_doQuery {root : Str}
    (h : doQuery ports repositories root query = .ok record) :
    queryEvidenceFromLive ports repositories [root] query false = .ok record := by
  rw [doQuery] at h
  rw [queryEvidenceFromLive, scanPolicyQueryRoot]
  cases hroot : repositories root with
  | none =>
      rw [hroot] at h
      cases h
  | some tree =>
      rw [hroot] at h
      dsimp only at h ⊢
      split_ifs at h ⊢
      cases hscan : scan ports.scanner tree with
      | error failure =>
          rw [hscan] at h
          cases h
      | ok snapshot =>
          rw [hscan] at h
          dsimp only at h ⊢
          cases hgraph : ports.graphInput snapshot with
          | none =>
              rw [hgraph] at h
              cases h
          | some graph =>
              rw [hgraph] at h
              dsimp only at h ⊢
              split_ifs at h
              rw [ok_bind, ← h]
              -- the rankings of a single root have no bundle to drop
              have hrankings : (sourceRankings ports graph snapshot query queryResultLimit).1.map
                    (fun ranking => { evidenceRankingFromSource ranking with bundle := [] }) =
                  (sourceRankings ports graph snapshot query queryResultLimit).1.map
                    evidenceRankingFromSource := by
                apply List.map_congr_left
                intro ranking hmem
                rw [evidenceRankingFromSource, bundle_sourceRankings ports hmem]
              dsimp only
              rw [hrankings]
              rfl

theorem queryEvidenceFromLive_of_doQueryMulti
    (h : doQueryMulti ports repositories roots query = .ok record) :
    queryEvidenceFromLive ports repositories roots query true = .ok record := by
  rw [doQueryMulti] at h
  cases hduplicate : duplicateRoot [] roots with
  | some root =>
      rw [hduplicate] at h
      cases h
  | none =>
      rw [hduplicate] at h
      obtain ⟨scanned, hscanned, hrest⟩ := bind_eq_ok_iff.mp h
      obtain ⟨_, hrecord⟩ := check_bind_eq_ok_iff.mp hrest
      rw [queryEvidenceFromLive, hscanned, ok_bind]
      exact hrecord

/-- What a live evaluation puts into its record. -/
theorem of_queryEvidenceFromLive {multi : Bool}
    (h : queryEvidenceFromLive ports repositories roots query multi = .ok record) :
    record.requestedRoots = roots ∧ record.request = query ∧ record.outcome ∈ queryOutcomes := by
  have houtcome : ∀ rankings matched documents,
      (withDocuments ports query rankings matched documents).2 ∈ queryOutcomes := by
    intro rankings matched documents
    rw [withDocuments, querySemanticOutcome]
    dsimp only
    split_ifs <;> decide
  rw [queryEvidenceFromLive.eq_def] at h
  split at h
  · cases h
  all_goals
    obtain ⟨_, _, hrecord⟩ := bind_eq_ok_iff.mp h
    obtain rfl := Except.ok.inj hrecord
    exact ⟨rfl, rfl, houtcome _ _ _⟩

/-- A live evaluation makes the record that a query has made. -/
theorem queryEvidenceFromLive_of_recordQuery
    (h : recordQuery ports repositories roots query = .ok record) :
    queryEvidenceFromLive ports repositories roots query (roots.length ≠ 1) = .ok record := by
  cases roots with
  | nil => exact queryEvidenceFromLive_of_doQueryMulti ports h
  | cons root rest =>
      cases rest with
      | nil => exact queryEvidenceFromLive_of_doQuery ports h
      | cons second rest =>
          have hmany : (root :: second :: rest).length ≠ 1 := by
            rw [List.length_cons, List.length_cons]
            omega
          rw [decide_eq_true hmany]
          exact queryEvidenceFromLive_of_doQueryMulti ports h

/-- A record that a query has made for a root is made again by its evaluation. -/
theorem evaluateQueryRecord_of_recordQuery
    (h : recordQuery ports repositories roots query = .ok record)
    (hroots : record.requestedRoots ≠ []) :
    record.Recorded ∧ evaluateQueryRecord ports repositories record = .ok record := by
  have hlive := queryEvidenceFromLive_of_recordQuery ports h
  obtain ⟨hrequested, hrequest, houtcome⟩ := of_queryEvidenceFromLive ports hlive
  refine ⟨⟨hroots, houtcome⟩, ?_⟩
  have hmany : roots.length ≠ 1 ↔ roots.length > 1 := by
    have hpositive : 0 < roots.length := List.length_pos_iff.mpr (hrequested ▸ hroots)
    omega
  rw [evaluateQueryRecord, if_neg hroots, hrequested, hrequest, ← decide_eq_decide.mpr hmany]
  exact hlive

end Replay

/-- Equal rankings do not differ. -/
theorem rankingDifferences_self (rankings : List QueryEvidenceRanking) :
    rankingDifferences rankings rankings = [] := by
  rw [rankingDifferences]
  apply List.filterMap_eq_nil_iff.mpr
  intro key _
  cases (rankingMap rankings).find? key with
  | none => rfl
  | some ranking => exact if_pos rfl

/-! ## Query evidence -/

/-- A stored record is evaluated to the same outcome, the same terms and the same rankings. -/
def Replays {M : Type} (ports : QueryPorts M) (repositories : Repositories)
    (stored : QueryEvidenceRecord) : Prop :=
  ∃ current, evaluateQueryRecord ports repositories stored = .ok current ∧
    current.outcome = stored.outcome ∧ current.matched = stored.matched ∧
    current.unmatched = stored.unmatched ∧
    rankingDifferences stored.rankings current.rankings = []

/-- The store of a root has a record more, or another one in the place of that of its key, and the
other stores are as they were. -/
def Upserts (tree after : Files.Tree) (root : Files.Path) (record : QueryEvidenceRecord) : Prop :=
  ∃ before behind, Stored tree root before ∧ Stored after root behind ∧
    (∀ other, other ∈ behind ↔ other = record ∨ other ∈ before ∧ other.key ≠ record.key) ∧
    ∀ other, other ≠ root → after.find? (storeFile other) = tree.find? (storeFile other)

theorem Step.upserts {locate : Str → Files.Path} {tree after : Files.Tree} {record : QueryEvidenceRecord}
    (h : Step locate tree record (some (.ok ())) after) (hvalid : StoresValid tree)
    (hrecord : record.Recorded) (hfits : record.Fits) :
    ∃ primary, record.requestedRoots.head? = some primary ∧
      Upserts tree after (locate primary) record := by
  obtain ⟨primary, rest, records, bytes, hroots, hadded⟩ := h.added
  refine ⟨primary, by rw [hroots, List.head?_cons], records, upserted records record,
    hadded.before, .inr ⟨bytes, hadded.stored, hadded.parsed hvalid hrecord hfits⟩,
    fun _ => mem_upserted, hadded.others⟩

/-- Query evidence survives storage and is replayed, as far as the fields of the records are within
the bound that only the reader checks: a store that was written is read back exactly then; the stores
stay valid over every run of persists, a persist that does not answer `Ok` leaves them as they were
and one that does adds its record; and a record that a query has stored is evaluated to itself on
repositories with other stores. -/
theorem query_evidence_survives {M : Type} (ports : QueryPorts M) (locate : Str → Files.Path) :
    (∀ records stored, (∀ record ∈ records, record.Recorded) →
      encodeEvidenceStore records = .ok stored →
      (parseEvidenceStore stored = .ok records ↔ ∀ record ∈ records, record.Fits)) ∧
    (∀ start persisted last, StoresValid start →
      (∀ record ∈ persisted, record.Recorded ∧ record.Fits) → Run locate start persisted last →
      StoresValid last ∧ ∀ record answer next, Step locate last record answer next →
        (answer ≠ some (.ok ()) → StoresKept last next) ∧
        (answer = some (.ok ()) → record.Recorded → record.Fits →
          ∃ primary, record.requestedRoots.head? = some primary ∧
            Upserts last next (locate primary) record)) ∧
    (∀ repositories roots query record tree after, StoresValid tree →
      recordQuery ports repositories roots query = .ok record → record.Fits →
      Step locate tree record (some (.ok ())) after →
      ∃ primary records, record.requestedRoots.head? = some primary ∧
        Stored after (locate primary) records ∧ record ∈ records ∧
        ∀ stored ∈ records, stored.key = record.key →
          ∀ repositories', SameBesideStores repositories repositories' →
            Replays ports repositories' stored) := by
  refine ⟨?_, ?_, ?_⟩
  · intro records stored hrecords hstored
    have hread := @parseEvidenceStore_encode_iff records records stored
      (fun record hmem => ⟨(hrecords record hmem).roots, (hrecords record hmem).outcome⟩) hstored
    rw [hread, and_iff_left rfl]
  · intro start persisted last hvalid hall hrun
    refine ⟨hrun.valid hvalid hall, fun record answer next hstep => ⟨hstep.kept, ?_⟩⟩
    intro hanswer hrecord hfits
    subst hanswer
    exact hstep.upserts (hrun.valid hvalid hall) hrecord hfits
  · intro repositories roots query record tree after hvalid hquery hfits hstep
    obtain ⟨first, rest, _, _, hroots, _⟩ := hstep.added
    obtain ⟨hrecord, hevaluated⟩ := evaluateQueryRecord_of_recordQuery ports hquery
      (hroots ▸ List.cons_ne_nil first rest)
    obtain ⟨primary, hprimary, before, records, _, hrecords, hmem, _⟩ :=
      hstep.upserts hvalid hrecord hfits
    refine ⟨primary, records, hprimary, hrecords, (hmem record).mpr (.inl rfl), ?_⟩
    intro stored hstored hkey repositories' hsame
    obtain rfl : stored = record :=
      ((hmem stored).mp hstored).resolve_right fun h => h.2 hkey
    refine ⟨stored, ?_, rfl, rfl, rfl, rankingDifferences_self _⟩
    rw [evaluateQueryRecord] at hevaluated ⊢
    rwa [hsame.queryEvidenceFromLive_eq ports] at hevaluated

/-- A record with a term that only the reader refuses. -/
def longRecord : QueryEvidenceRecord :=
  ⟨"a".toList, ["r".toList], "miss".toList, [List.replicate 4097 'a'], [], []⟩

/-- A store that was written is not always read back. -/
theorem not_query_evidence_survives_long :
    ¬ ∀ records stored, (∀ record ∈ records, record.Recorded) →
      encodeEvidenceStore records = .ok stored → parseEvidenceStore stored = .ok records := by
  intro h
  have hrecorded : ∀ record ∈ [longRecord], record.Recorded :=
    List.forall_mem_singleton.mpr ⟨List.cons_ne_nil _ _, by decide⟩
  have hstored : encodeEvidenceStore [longRecord] = .ok (bytes (storeText [longRecord])) :=
    encodeEvidenceStore_eq_ok_iff.mpr ⟨by decide, List.forall_mem_singleton.mpr (by decide),
      by decide +kernel, rfl⟩
  have hread := h [longRecord] _ hrecorded hstored
  have hfits := ((parseEvidenceStore_encode_iff (fun record hmem =>
    ⟨(hrecorded record hmem).roots, (hrecorded record hmem).outcome⟩) hstored).mp hread).1
  have hterm : byteLen (List.replicate 4097 'a') ≤ maxEvidenceFieldBytes :=
    (hfits longRecord List.mem_cons_self).matched _ List.mem_cons_self
  rw [byteLen, List.map_replicate, List.sum_replicate_nat] at hterm
  exact absurd hterm (by decide)

end Bran.Cli
