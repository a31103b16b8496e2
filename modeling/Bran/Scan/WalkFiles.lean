import Bran.Scan.Walk

/-!
# What a scan holds

A walk stores the files that it reaches, as far as the scanner accepts and reads them.  A full scan
therefore holds exactly the readable files below the names that it does not pass over.
-/

namespace Bran.Scan

open Text Validation DirTree List OrdMap
open Except (ok.inj)

variable {data : List UInt8} {config : ScanConfig}

/-- A name that a directory can hold. -/
def IsName (name : Str) : Prop := name ≠ [] ∧ '/' ∉ name

instance : DecidablePred IsName := fun name =>
  inferInstanceAs (Decidable (name ≠ [] ∧ '/' ∉ name))

/-! ## Paths -/

theorem foldl_joinRelative_append {directory : Str} (h : directory ≠ []) (names : List Str) :
    names.foldl joinRelative directory = join ['/'] (directory :: names) := by
  induction names generalizing directory with
  | nil => exact intercalate_singleton.symm
  | cons name rest ih =>
      have hjoin : joinRelative directory name = directory ++ '/' :: name := if_neg h
      rw [foldl_cons, hjoin, ih (append_ne_nil_of_left_ne_nil h _), join, join]
      cases rest with
      | nil | cons next rest => simp [intercalate_cons_cons]

/-- The path of names below the root. -/
theorem foldl_joinRelative {names : List Str} (h : ∀ name ∈ names, IsName name) :
    names.foldl joinRelative [] = join ['/'] names := by
  cases names with
  | nil => rfl
  | cons name rest =>
      have hjoin : joinRelative [] name = name := if_pos rfl
      rw [foldl_cons, hjoin]
      exact foldl_joinRelative_append (h name mem_cons_self).1 rest

theorem splitOn_join {names : List Str} (h : ∀ name ∈ names, IsName name) (hne : names ≠ []) :
    (join ['/'] names).splitOn '/' = names :=
  splitOn_intercalate _ (fun name hname => (h name hname).2) hne

theorem join_splitOn (path : Str) : join ['/'] (path.splitOn '/') = path :=
  intercalate_splitOn _

/-- Paths tell names apart. -/
theorem separates_joinRelative : Separates IsName joinRelative [] := by
  intro first second hfirst hsecond heq
  rw [foldl_joinRelative hfirst, foldl_joinRelative hsecond] at heq
  have hnil : ∀ names : List Str, (∀ name ∈ names, IsName name) → join ['/'] names = [] →
      names = [] := by
    intro names hnames hjoin
    cases names with
    | nil => rfl
    | cons name rest =>
        refine absurd ?_ (hnames name mem_cons_self).1
        cases rest with
        | nil => exact intercalate_singleton.symm.trans hjoin
        | cons next rest =>
            rw [join, intercalate_cons_cons] at hjoin
            exact (append_eq_nil_iff.mp (append_eq_nil_iff.mp hjoin).1).1
  by_cases hne : first = []
  · subst hne
    exact (hnil second hsecond heq.symm).symm
  by_cases hne' : second = []
  · subst hne'
    exact hnil first hfirst heq
  rw [← splitOn_join hfirst hne, heq, splitOn_join hsecond hne']

/-! ## Stored entries -/

variable {M : Type} (scanner : RepositoryScanner M)

/-- The entry that the scanner keeps for a file, if it reads the file. -/
def RepositoryScanner.entryFor (relative : Str) (data : List UInt8) : Option (ScanEntry M) :=
  if scanner.config.acceptsFile relative then
    (inspectSource scanner.config relative data).toOption.map (scanner.entryOf relative data)
  else none

/-- The entries for a list of files. -/
def RepositoryScanner.entriesFor (files : List (Str × List UInt8)) : List (Str × ScanEntry M) :=
  files.filterMap fun file => (scanner.entryFor file.1 file.2).map fun entry => (file.1, entry)

def sizeEntry (entry : Str × ScanEntry M) : Str × ℕ := (entry.1, entry.2.source.length)

variable {scanner}

theorem entryFor_eq_some_iff {relative : Str} {entry : ScanEntry M} :
    scanner.entryFor relative data = some entry ↔ scanner.config.acceptsFile relative = true ∧
      ∃ text, inspectSource scanner.config relative data = .ok text ∧
        entry = scanner.entryOf relative data text := by
  rw [RepositoryScanner.entryFor]
  split_ifs with haccepts
  · rw [Option.map_eq_some_iff]
    constructor
    · rintro ⟨text, htext, rfl⟩
      cases hread : inspectSource scanner.config relative data with
      | error diagnostic =>
          rw [hread] at htext
          cases htext
      | ok value =>
          rw [hread] at htext
          obtain rfl := Option.some.inj htext
          exact ⟨haccepts, value, rfl, rfl⟩
    · rintro ⟨_, text, hread, rfl⟩
      exact ⟨text, by rw [hread]; rfl, rfl⟩
  · exact ⟨fun h => (nomatch h), fun h => absurd h.1 haccepts⟩

/-- What a part of a walk adds to its state. -/
structure Walked (config : ScanConfig) (state state' : WalkState M)
    (entries : List (Str × ScanEntry M)) : Prop where
  stored : state'.snapshot.entries =
    entries.foldl (fun m entry => m.insert entry.1 entry.2) state.snapshot.entries
  observed : state'.snapshot.observedBytes =
    (entries.map sizeEntry).foldl (fun m entry => m.insert entry.1 entry.2)
      state.snapshot.observedBytes
  inputs : state'.snapshot.inputs = state.snapshot.inputs
  files : state'.limits.files = state.limits.files + entries.length
  bytes : state'.limits.bytes = state.limits.bytes + ((entries.map sizeEntry).map Prod.snd).sum
  filesBound : state.limits.files ≤ config.maxFiles → state'.limits.files ≤ config.maxFiles
  bytesBound : state.limits.bytes ≤ config.maxTotalBytes →
    state'.limits.bytes ≤ config.maxTotalBytes

theorem Walked.refl {state state' : WalkState M}
    (hentries : state'.snapshot.entries = state.snapshot.entries)
    (hobserved : state'.snapshot.observedBytes = state.snapshot.observedBytes)
    (hinputs : state'.snapshot.inputs = state.snapshot.inputs)
    (hfiles : state'.limits.files = state.limits.files)
    (hbytes : state'.limits.bytes = state.limits.bytes) : Walked config state state' [] where
  stored := hentries
  observed := hobserved
  inputs := hinputs
  files := hfiles
  bytes := hbytes
  filesBound := fun h => hfiles.trans_le h
  bytesBound := fun h => hbytes.trans_le h

theorem Walked.trans {first second third : WalkState M}
    {entries entries' : List (Str × ScanEntry M)} (h : Walked config first second entries)
    (h' : Walked config second third entries') :
    Walked config first third (entries ++ entries') where
  stored := by rw [h'.stored, h.stored, foldl_append]
  observed := by rw [h'.observed, h.observed, map_append, foldl_append]
  inputs := h'.inputs.trans h.inputs
  files := by rw [h'.files, h.files, length_append, Nat.add_assoc]
  bytes := by
    rw [h'.bytes, h.bytes, map_append, map_append, sum_append, Nat.add_assoc]
  filesBound := fun hle => h'.filesBound (h.filesBound hle)
  bytesBound := fun hle => h'.bytesBound (h.bytesBound hle)

/-! ## Observed bytes -/

theorem removeObserved_entries (snapshot : ScanSnapshot M) (path : Str) :
    (snapshot.removeObserved path).entries = snapshot.entries := by
  rw [ScanSnapshot.removeObserved]
  split <;> rfl

theorem removeObserved_inputs (snapshot : ScanSnapshot M) (path : Str) :
    (snapshot.removeObserved path).inputs = snapshot.inputs := by
  rw [ScanSnapshot.removeObserved]
  split <;> rfl

theorem removeObserved_observedBytes (snapshot : ScanSnapshot M) (path : Str) :
    (snapshot.removeObserved path).observedBytes = snapshot.observedBytes.erase path := by
  rw [ScanSnapshot.removeObserved]
  split
  · rename_i hnone
    refine ext_find? fun other => ?_
    rw [find?_erase]
    split_ifs with hsame
    · rw [← hsame, hnone]
    · rfl
  · rfl

theorem insert_erase {V : Type} (m : OrdMap Str V) (path : Str) (value : V) :
    (m.erase path).insert path value = m.insert path value := by
  refine ext_find? fun other => ?_
  rw [find?_insert, find?_insert, find?_erase]
  split_ifs <;> rfl

theorem replaceObserved_observedBytes (snapshot : ScanSnapshot M) (path : Str) (size : ℕ) :
    (snapshot.replaceObserved path size).observedBytes =
      snapshot.observedBytes.insert path size := by
  show ((snapshot.removeObserved path).observedBytes).insert path size = _
  rw [removeObserved_observedBytes, insert_erase]

/-! ## The steps of a walk -/

theorem inspectSource_length {relative text : Str}
    (h : inspectSource config relative data = .ok text) : data.length ≤ config.maxFileBytes := by
  obtain ⟨_, hlength, _⟩ := bind_eq_ok_iff.mp h
  exact not_lt.mp (failIf_eq_ok_iff.mp hlength)

theorem checkBytes_eq_ok_iff {path : Str} {size prior : ℕ} :
    checkBytes config path size prior = .ok () ↔
      size ≤ config.maxFileBytes ∧ size ≤ config.maxTotalBytes - prior := by
  rw [checkBytes, check_bind_eq_ok_iff, failIf_eq_ok_iff, failIf_eq_ok_iff, gt_iff_lt, gt_iff_lt,
    not_lt, not_lt]

theorem readFile_walked {relative : Str} {state state' : WalkState M}
    (haccepts : scanner.config.acceptsFile relative = true)
    (h : readFile scanner relative data state = .ok state') :
    Walked scanner.config state state' (scanner.entriesFor [(relative, data)]) := by
  rw [readFile] at h
  cases hread : inspectSource scanner.config relative data with
  | error diagnostic =>
      rw [hread] at h
      have hnone : scanner.entriesFor [(relative, data)] = [] := by
        simp [RepositoryScanner.entriesFor, RepositoryScanner.entryFor, hread, Except.toOption]
      rw [hnone, ← ok.inj h]
      exact .refl rfl rfl rfl rfl rfl
  | ok text =>
      rw [hread] at h
      dsimp only at h
      rw [check_bind_eq_ok_iff, check_bind_eq_ok_iff, failIf_eq_ok_iff, not_lt,
        checkBytes_eq_ok_iff] at h
      obtain ⟨hfiles, ⟨_, hbytes⟩, hstate⟩ := h
      have hsome : scanner.entriesFor [(relative, data)] =
          [(relative, scanner.entryOf relative data text)] := by
        simp [RepositoryScanner.entriesFor, RepositoryScanner.entryFor, hread, haccepts,
          Except.toOption]
      rw [hsome, ← ok.inj hstate]
      exact {
        stored := by
          show (((state.snapshot.removeObserved relative).entries).insert _ _) = _
          rw [removeObserved_entries]
          rfl
        observed := replaceObserved_observedBytes _ _ _
        inputs := removeObserved_inputs _ _
        files := rfl
        bytes := rfl
        filesBound := fun _ => hfiles
        bytesBound := fun hle => by
          show state.limits.bytes + data.length ≤ _
          omega }

theorem countPath_walked {relative : Str} {item : RepoItem} {state state' : WalkState M}
    (h : countPath config relative item state = .ok state') :
    Walked config state state' [] := by
  rw [countPath] at h
  split_ifs at h
  · obtain ⟨_, hstate⟩ := check_bind_eq_ok_iff.mp h
    rw [← ok.inj hstate]
    exact .refl rfl rfl rfl rfl rfl
  · rw [← ok.inj h]
    exact .refl rfl rfl rfl rfl rfl

mutual

theorem walkItem_walked {matcher : IgnoreMatcher} {relative : Str} {depth : ℕ} (item : RepoItem)
    {state state' : WalkState M}
    (h : walkItem scanner matcher relative depth item state = .ok state') :
    Walked scanner.config state state'
      (scanner.entriesFor (reachedItem joinRelative (skipped matcher) relative item)) := by
  cases item with
  | symlink | other =>
      rw [walkItem] at h
      rw [← ok.inj h, reachedItem]
      exact .refl rfl rfl rfl rfl rfl
  | file data =>
      rw [walkItem] at h
      rw [reachedItem]
      split_ifs at h with haccepts
      · exact readFile_walked haccepts h
      · have hnone : scanner.entriesFor [(relative, data)] = [] := by
          simp [RepositoryScanner.entriesFor, RepositoryScanner.entryFor, haccepts]
        rw [hnone, ← ok.inj h]
        exact .refl rfl rfl rfl rfl rfl
  | directory entries =>
      rw [walkItem] at h
      rw [reachedItem]
      exact walk_walked entries (check_bind_eq_ok_iff.mp h).2

theorem walk_walked {matcher : IgnoreMatcher} {directory : Str} {depth : ℕ}
    (items : List (Str × RepoItem)) {state state' : WalkState M}
    (h : walk scanner matcher directory depth items state = .ok state') :
    Walked scanner.config state state'
      (scanner.entriesFor (reached joinRelative (skipped matcher) directory items)) := by
  cases items with
  | nil =>
      rw [walk] at h
      rw [← ok.inj h, reached]
      exact .refl rfl rfl rfl rfl rfl
  | cons entry rest =>
      obtain ⟨name, item⟩ := entry
      rw [walk] at h
      rw [reached, RepositoryScanner.entriesFor, filterMap_append]
      split_ifs at h ⊢ with hskipped
      · exact walk_walked rest h
      · obtain ⟨counted, hcount, hrest⟩ := bind_eq_ok_iff.mp h
        obtain ⟨visited, hitem, hwalk⟩ := bind_eq_ok_iff.mp hrest
        exact ((countPath_walked hcount).trans (walkItem_walked item hitem)).trans
          (walk_walked rest hwalk)

end

/-! ## Scans -/

def fileBelow (root : Root) (path : Str) : Option (List UInt8) :=
  fileAt (path.splitOn '/') (.directory root)

theorem isName_of_fileBelow {root : Root} (h : WellFormed IsName (.directory root)) {path : Str}
    (hfile : fileBelow root path = some data) :
    ∀ name ∈ path.splitOn '/', IsName name :=
  valid_of_fileAt h hfile

/-- A walk from the root reaches the files below it that it does not pass over. -/
theorem mem_reached_iff {root : Root} (h : WellFormed IsName (.directory root)) {skip : Str → Bool}
    {path : Str} :
    (path, data) ∈ reached joinRelative skip [] root ↔
      fileBelow root path = some data ∧ Open joinRelative skip [] (path.splitOn '/') := by
  have hmem := @mem_reachedItem _ _ _ joinRelative skip _ _ _ h [] path data
  rw [reachedItem] at hmem
  rw [hmem]
  constructor
  · rintro ⟨names, rfl, hfile, hopen⟩
    have hnames := valid_of_fileAt h hfile
    have hne : names ≠ [] := by
      rintro rfl
      cases hfile
    rw [foldl_joinRelative hnames, fileBelow, splitOn_join hnames hne]
    exact ⟨hfile, hopen⟩
  · rintro ⟨hfile, hopen⟩
    refine ⟨path.splitOn '/', ?_, hfile, hopen⟩
    rw [foldl_joinRelative (isName_of_fileBelow h hfile), join_splitOn]

/-- No walk from the root reaches a path twice. -/
theorem nodup_reached {root : Root} (h : WellFormed IsName (.directory root))
    (skip : Str → Bool) : ((reached joinRelative skip [] root).map Prod.fst).Nodup :=
  @nodup_reachedItem _ _ _ joinRelative skip _ _ _ h [] separates_joinRelative

/-- The entry of a full scan under a path. -/
def RepositoryScanner.entryAt (matcher : IgnoreMatcher) (root : Root) (path : Str) :
    Option (ScanEntry M) :=
  if Open joinRelative (skipped matcher) [] (path.splitOn '/') then
    (fileBelow root path).bind (scanner.entryFor path)
  else none

theorem mem_entriesFor_iff {files : List (Str × List UInt8)} {path : Str} {entry : ScanEntry M} :
    (path, entry) ∈ scanner.entriesFor files ↔
      ∃ data, (path, data) ∈ files ∧ scanner.entryFor path data = some entry := by
  rw [RepositoryScanner.entriesFor, mem_filterMap]
  constructor
  · rintro ⟨⟨other, data⟩, hmem, hentry⟩
    obtain ⟨found, hfound, heq⟩ := Option.map_eq_some_iff.mp hentry
    obtain ⟨rfl, rfl⟩ := Prod.mk.inj heq
    exact ⟨data, hmem, hfound⟩
  · rintro ⟨data, hmem, hentry⟩
    exact ⟨(path, data), hmem, by rw [hentry]; rfl⟩

theorem map_fst_entriesFor (files : List (Str × List UInt8)) :
    ((scanner.entriesFor files).map Prod.fst).Sublist (files.map Prod.fst) := by
  induction files with
  | nil => exact List.Sublist.slnil
  | cons file rest ih =>
      rw [RepositoryScanner.entriesFor, filterMap_cons]
      cases hentry : scanner.entryFor file.1 file.2 with
      | none => exact ih.cons _
      | some entry => exact ih.cons_cons _

/-- A full scan holds the entry of every readable file that it reaches, and their sizes. -/
structure Scanned (scanner : RepositoryScanner M) (matcher : IgnoreMatcher) (root : Root)
    (snapshot : ScanSnapshot M) : Prop where
  entries : ∀ path, snapshot.entries.find? path = scanner.entryAt matcher root path
  observed : ∀ path, snapshot.observedBytes.find? path =
    (scanner.entryAt matcher root path).map fun entry => entry.source.length
  count : snapshot.fileCount = snapshot.observedBytes.entries.length
  total : snapshot.totalBytes = snapshot.observedBytes.values.sum
  countBound : snapshot.fileCount ≤ scanner.config.maxFiles
  totalBound : snapshot.totalBytes ≤ scanner.config.maxTotalBytes

theorem scan_eq_ok {root : Root} (hroot : WellFormed IsName (.directory root))
    {matcher : IgnoreMatcher} {ignore : ContentIdentity}
    (hignore : readIgnore root = .ok (matcher, ignore)) {snapshot : ScanSnapshot M}
    (h : scan scanner root = .ok snapshot) :
    Scanned scanner matcher root snapshot ∧ snapshot.inputs = scanner.inputs ignore := by
  rw [scan, hignore, ok_bind] at h
  obtain ⟨⟨stored, limits⟩, hwalk, hsnapshot⟩ := bind_eq_ok_iff.mp h
  obtain rfl := ok.inj hsnapshot
  have hwalked := walk_walked root hwalk
  generalize hfiles : scanner.entriesFor (reached joinRelative (skipped matcher) [] root) = files
    at hwalked
  have hnodup : (files.map Prod.fst).Nodup := by
    rw [← hfiles]
    exact (map_fst_entriesFor _).nodup (nodup_reached hroot _)
  have hsizes : ((files.map sizeEntry).map Prod.fst).Nodup := by
    rw [map_map]
    exact hnodup
  have hmem : ∀ path entry, (path, entry) ∈ files ↔
      scanner.entryAt matcher root path = some entry := by
    intro path entry
    rw [← hfiles, mem_entriesFor_iff, RepositoryScanner.entryAt]
    split_ifs with hopen
    · rw [Option.bind_eq_some_iff]
      exact exists_congr fun data =>
        and_congr_left fun _ => (mem_reached_iff hroot).trans (and_iff_left hopen)
    · refine ⟨?_, fun h => (nomatch h)⟩
      rintro ⟨data, hreached, _⟩
      exact absurd ((mem_reached_iff hroot).mp hreached).2 hopen
  have hobserved : stored.observedBytes = OrdMap.ofList (files.map sizeEntry) :=
    hwalked.observed
  have hlength : stored.observedBytes.entries.length = files.length := by
    rw [hobserved, (entries_ofList_perm hsizes).length_eq, length_map]
  have hsum : stored.observedBytes.values.sum = ((files.map sizeEntry).map Prod.snd).sum := by
    rw [hobserved]
    exact ((entries_ofList_perm hsizes).map Prod.snd).sum_nat
  refine ⟨⟨?_, ?_, rfl, rfl, ?_, ?_⟩, hwalked.inputs⟩
  · intro path
    refine Option.ext fun entry => ?_
    show stored.entries.find? path = some entry ↔ _
    rw [hwalked.stored, ← hmem]
    exact find?_ofList hnodup
  · intro path
    refine Option.ext fun size => ?_
    show stored.observedBytes.find? path = some size ↔ _
    rw [hobserved, find?_ofList hsizes, mem_map, Option.map_eq_some_iff]
    constructor
    · rintro ⟨⟨other, entry⟩, hentry, heq⟩
      obtain ⟨rfl, rfl⟩ := Prod.mk.inj heq
      exact ⟨entry, (hmem other entry).mp hentry, rfl⟩
    · rintro ⟨entry, hentry, rfl⟩
      exact ⟨(path, entry), (hmem path entry).mpr hentry, rfl⟩
  · show stored.observedBytes.entries.length ≤ _
    have hbound := hwalked.filesBound (Nat.zero_le _)
    rw [hwalked.files] at hbound
    rw [hlength]
    exact (Nat.le_add_left _ _).trans hbound
  · show stored.observedBytes.values.sum ≤ _
    have hbound := hwalked.bytesBound (Nat.zero_le _)
    rw [hwalked.bytes] at hbound
    rw [hsum]
    exact (Nat.le_add_left _ _).trans hbound

end Bran.Scan
