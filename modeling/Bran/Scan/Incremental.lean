import Bran.Scan.WalkFiles

/-!
# Incremental scans

A scan from the changed paths edits the previous snapshot one path at a time and checks the limit of
bytes against the running total.  It agrees with a full scan exactly when that total stays within the
limit at every path that it reads, and none of those lies below a directory that a walk passes over.
-/

namespace Bran.Scan

open Text Validation DirTree Option
open Except (ok.inj)

variable {M : Type}

variable {first second snapshot : ScanSnapshot M}

/-! ## Contents -/

/-- The counters and both maps of a snapshot, from the entry under each path. -/
structure Holds (snapshot : ScanSnapshot M) (content : Str → Option (ScanEntry M)) : Prop where
  entries : ∀ path, snapshot.entries.find? path = content path
  observed : ∀ path, snapshot.observedBytes.find? path =
    (content path).map fun entry => entry.source.length
  count : snapshot.fileCount = snapshot.observedBytes.entries.length
  total : snapshot.totalBytes = snapshot.observedBytes.values.sum

structure SameFiles (first second : ScanSnapshot M) : Prop where
  entries : first.entries = second.entries
  observedBytes : first.observedBytes = second.observedBytes
  fileCount : first.fileCount = second.fileCount
  totalBytes : first.totalBytes = second.totalBytes

theorem Scanned.holds {scanner : RepositoryScanner M} {matcher : IgnoreMatcher} {root : Root}
    (h : Scanned scanner matcher root snapshot) :
    Holds snapshot (scanner.entryAt matcher root) :=
  ⟨h.entries, h.observed, h.count, h.total⟩

/-- The contents decide the counters. -/
theorem Holds.sameFiles {content : Str → Option (ScanEntry M)} (h : Holds first content)
    (h' : Holds second content) : SameFiles first second := by
  have hobserved : first.observedBytes = second.observedBytes :=
    OrdMap.ext_find? fun path => (h.observed path).trans (h'.observed path).symm
  exact {
    entries := OrdMap.ext_find? fun path => (h.entries path).trans (h'.entries path).symm
    observedBytes := hobserved
    fileCount := by rw [h.count, h'.count, hobserved]
    totalBytes := by rw [h.total, h'.total, hobserved] }

/-- The size of what may be under a path. -/
def entrySize (entry : Option (ScanEntry M)) : ℕ :=
  (entry.map fun entry => entry.source.length).getD 0

theorem Holds.size {content : Str → Option (ScanEntry M)} (h : Holds snapshot content) (path : Str) :
    (snapshot.observedBytes.find? path).getD 0 = entrySize (content path) := by
  rw [h.observed, entrySize]

/-! ## Edits of a snapshot -/

theorem sum_values_erase (m : OrdMap Str ℕ) (path : Str) :
    (m.erase path).values.sum + (m.find? path).getD 0 = m.values.sum := by
  have herase := OrdMap.sum_values_insert (m.erase path) path ((m.find? path).getD 0)
  rw [OrdMap.find?_erase, if_pos rfl, insert_erase] at herase
  have hinsert := OrdMap.sum_values_insert m path ((m.find? path).getD 0)
  simp only [getD_none, Nat.add_zero] at herase
  omega

theorem length_entries_insert {V : Type} (m : OrdMap Str V) {path : Str} {value : V}
    (h : m.find? path = none) : (m.insert path value).entries.length = m.entries.length + 1 := by
  have hcount := OrdMap.total_insert (fun _ => 1) m path value
  rw [OrdMap.total_one, OrdMap.total_one, h] at hcount
  simpa [OrdMap.keys] using hcount

theorem length_entries_erase {V : Type} (m : OrdMap Str V) {path : Str} {value : V}
    (h : m.find? path = some value) : (m.erase path).entries.length = m.entries.length - 1 := by
  have hcount := OrdMap.total_erase (fun _ => 1) m path
  rw [OrdMap.total_one, OrdMap.total_one, h] at hcount
  simp only [OrdMap.keys, List.length_map, map_some, getD_some] at hcount
  omega

/-- Dropping a path takes its entry out of the snapshot. -/
theorem Holds.drop {content : Str → Option (ScanEntry M)} (h : Holds snapshot content) (path : Str) :
    Holds (dropPath path snapshot) (Function.update content path none) ∧
      (dropPath path snapshot).totalBytes + entrySize (content path) = snapshot.totalBytes := by
  have hobserved : (dropPath path snapshot).observedBytes = snapshot.observedBytes.erase path :=
    removeObserved_observedBytes _ _
  have hcount : (dropPath path snapshot).fileCount =
      (snapshot.observedBytes.erase path).entries.length := by
    rw [dropPath, ScanSnapshot.removeObserved]
    dsimp only
    cases hfind : snapshot.observedBytes.find? path with
    | none =>
        rw [h.count, ← removeObserved_observedBytes, ScanSnapshot.removeObserved, hfind]
    | some size =>
        rw [length_entries_erase _ hfind, ← h.count]
  have htotal : (dropPath path snapshot).totalBytes =
      (snapshot.observedBytes.erase path).values.sum := by
    have hsum := sum_values_erase snapshot.observedBytes path
    rw [dropPath, ScanSnapshot.removeObserved]
    dsimp only
    cases hfind : snapshot.observedBytes.find? path with
    | none =>
        rw [hfind, getD_none] at hsum
        exact h.total.trans hsum.symm
    | some size =>
        rw [hfind, getD_some] at hsum
        show snapshot.totalBytes - size = _
        rw [h.total]
        omega
  refine ⟨⟨?_, ?_, ?_, ?_⟩, ?_⟩
  · intro other
    rw [dropPath, removeObserved_entries]
    show (snapshot.entries.erase path).find? other = _
    rw [OrdMap.find?_erase, h.entries, Function.update_apply]
    exact ite_congr (propext eq_comm) (fun _ => rfl) fun _ => rfl
  · intro other
    rw [hobserved, OrdMap.find?_erase, h.observed, Function.update_apply]
    by_cases hsame : path = other
    · rw [if_pos hsame, if_pos hsame.symm, map_none]
    · rw [if_neg hsame, if_neg (Ne.symm hsame)]
  · rw [hcount, hobserved]
  · rw [htotal, hobserved]
  · rw [htotal, ← h.size, sum_values_erase, h.total]

/-- Storing an entry under a free path. -/
theorem Holds.store {content : Str → Option (ScanEntry M)} (h : Holds snapshot content) {path : Str}
    (hfree : content path = none) (entry : ScanEntry M) :
    Holds ((snapshot.replaceObserved path entry.source.length).store path entry)
        (Function.update content path (some entry)) ∧
      ((snapshot.replaceObserved path entry.source.length).store path entry).totalBytes =
        snapshot.totalBytes + entry.source.length := by
  have hnone : snapshot.observedBytes.find? path = none := by
    rw [h.observed, hfree, map_none]
  have hremoved : snapshot.removeObserved path = snapshot := by
    rw [ScanSnapshot.removeObserved, hnone]
  have hstate : (snapshot.replaceObserved path entry.source.length).store path entry =
      { snapshot with
        entries := snapshot.entries.insert path entry
        observedBytes := snapshot.observedBytes.insert path entry.source.length
        fileCount := snapshot.fileCount + 1
        totalBytes := snapshot.totalBytes + entry.source.length } := by
    rw [ScanSnapshot.replaceObserved, hremoved]
    rfl
  rw [hstate]
  refine ⟨⟨?_, ?_, ?_, ?_⟩, rfl⟩
  · intro other
    show (snapshot.entries.insert path entry).find? other = _
    rw [OrdMap.find?_insert, h.entries, Function.update_apply]
    exact ite_congr (propext eq_comm) (fun _ => rfl) fun _ => rfl
  · intro other
    show (snapshot.observedBytes.insert path entry.source.length).find? other = _
    rw [OrdMap.find?_insert, h.observed, Function.update_apply]
    by_cases hsame : path = other
    · rw [if_pos hsame, if_pos hsame.symm, map_some]
    · rw [if_neg hsame, if_neg (Ne.symm hsame)]
  · show snapshot.fileCount + 1 = _
    rw [length_entries_insert _ hnone, h.count]
  · have hsum := OrdMap.sum_values_insert snapshot.observedBytes path entry.source.length
    rw [hnone, getD_none, Nat.add_zero] at hsum
    exact (congrArg (· + entry.source.length) h.total).trans hsum.symm

theorem Holds.push {snapshot : ScanSnapshot M} {content : Str → Option (ScanEntry M)}
    (h : Holds snapshot content) (diagnostic : ScanDiagnostic) :
    Holds (snapshot.push diagnostic) content :=
  ⟨h.entries, h.observed, h.count, h.total⟩

/-! ## Changed paths -/

section Steps

variable {scanner : RepositoryScanner M} {root : Root} {path : Str}

/-- What the scanner reads at a changed path. -/
def RepositoryScanner.readAt (scanner : RepositoryScanner M) (matcher : IgnoreMatcher)
    (root : Root) (path : Str) : Option (ScanEntry M) :=
  if skipped matcher path then none else (fileBelow root path).bind (scanner.entryFor path)

/-- One path of the loop, on a snapshot that no longer holds it. -/
theorem applyFound_holds {snapshot snapshot' : ScanSnapshot M}
    {content : Str → Option (ScanEntry M)} (h : Holds snapshot content)
    (hfree : content path = none)
    (hstep : applyFound scanner path snapshot (lookup (path.splitOn '/') (.directory root)) =
      .ok snapshot') :
    Holds snapshot' (Function.update content path
        ((fileBelow root path).bind (scanner.entryFor path))) ∧
      snapshot'.totalBytes =
        snapshot.totalBytes + entrySize ((fileBelow root path).bind (scanner.entryFor path)) := by
  have hkept : ∀ found : Option (ScanEntry M), found = none → ∀ kept : ScanSnapshot M,
      Holds kept content → kept.totalBytes = snapshot.totalBytes →
      Holds kept (Function.update content path found) ∧
        kept.totalBytes = snapshot.totalBytes + entrySize found := by
    rintro found rfl kept hkept htotal
    rw [← hfree, Function.update_eq_self, hfree]
    exact ⟨hkept, htotal⟩
  cases hlookup : lookup (path.splitOn '/') (.directory root) with
  | missing =>
      rw [hlookup, applyFound] at hstep
      rw [← ok.inj hstep]
      exact hkept _ (by rw [fileBelow, fileAt, hlookup]; rfl) _ h rfl
  | notDirectory | throughLink =>
      rw [hlookup, applyFound] at hstep
      rw [← ok.inj hstep]
      exact hkept _ (by rw [fileBelow, fileAt, hlookup]; rfl) _ (h.push _) rfl
  | item item =>
      cases item with
      | symlink | other =>
          rw [hlookup, applyFound] at hstep
          rw [← ok.inj hstep]
          exact hkept _ (by rw [fileBelow, fileAt, hlookup]; rfl) _ (h.push _) rfl
      | directory entries =>
          rw [hlookup, applyFound] at hstep
          cases hstep
      | file data =>
          have hfile : fileBelow root path = some data := by
            rw [fileBelow, fileAt, hlookup]
          rw [hlookup, applyFound] at hstep
          rw [hfile, bind_some]
          split_ifs at hstep with haccepts
          · rw [← ok.inj hstep]
            refine hkept _ ?_ _ h rfl
            rw [RepositoryScanner.entryFor, if_neg]
            simpa using haccepts
          · have haccepts : scanner.config.acceptsFile path = true := by simpa using haccepts
            cases hread : inspectSource scanner.config path data with
            | error diagnostic =>
                rw [hread] at hstep
                rw [← ok.inj hstep]
                refine hkept _ ?_ _ (h.push _) rfl
                rw [RepositoryScanner.entryFor, if_pos haccepts, hread]
                rfl
            | ok text =>
                rw [hread] at hstep
                have hentry : scanner.entryFor path data =
                    some (scanner.entryOf path data text) :=
                  entryFor_eq_some_iff.mpr ⟨haccepts, text, hread, rfl⟩
                rw [← ok.inj (check_bind_eq_ok_iff.mp hstep).2, hentry]
                exact h.store hfree _

/-- A path is refused exactly when what it holds does not fit. -/
theorem applyFound_isOk_iff {snapshot : ScanSnapshot M}
    (hbound : snapshot.totalBytes ≤ scanner.config.maxTotalBytes)
    (hdirectory : ∀ entries,
      lookup (path.splitOn '/') (.directory root) ≠ .item (.directory entries)) :
    (∃ snapshot',
        applyFound scanner path snapshot (lookup (path.splitOn '/') (.directory root)) =
          .ok snapshot') ↔
      ((fileBelow root path).bind (scanner.entryFor path) ≠ none →
        snapshot.totalBytes + entrySize ((fileBelow root path).bind (scanner.entryFor path)) ≤
          scanner.config.maxTotalBytes) := by
  have hkept : ∀ found : Option (ScanEntry M), found = none → ∀ kept : ScanSnapshot M,
      (∃ snapshot', (.ok kept : Except ScanFailure (ScanSnapshot M)) = .ok snapshot') ↔
        (found ≠ none →
          snapshot.totalBytes + entrySize found ≤ scanner.config.maxTotalBytes) :=
    fun found hfound kept => ⟨fun _ hne => absurd hfound hne, fun _ => ⟨kept, rfl⟩⟩
  cases hlookup : lookup (path.splitOn '/') (.directory root) with
  | missing | notDirectory
  | throughLink => exact hkept _ (by rw [fileBelow, fileAt, hlookup]; rfl) _
  | item item =>
      cases item with
      | symlink | other => exact hkept _ (by rw [fileBelow, fileAt, hlookup]; rfl) _
      | directory entries => exact absurd hlookup (hdirectory entries)
      | file data =>
          have hfile : fileBelow root path = some data := by
            rw [fileBelow, fileAt, hlookup]
          rw [applyFound, hfile, bind_some]
          split_ifs with haccepts
          · refine hkept _ ?_ _
            rw [RepositoryScanner.entryFor, if_neg]
            simpa using haccepts
          · have haccepts : scanner.config.acceptsFile path = true := by simpa using haccepts
            cases hread : inspectSource scanner.config path data with
            | error diagnostic =>
                refine hkept _ ?_ _
                rw [RepositoryScanner.entryFor, if_pos haccepts, hread]
                rfl
            | ok text =>
                have hentry : scanner.entryFor path data =
                    some (scanner.entryOf path data text) :=
                  entryFor_eq_some_iff.mpr ⟨haccepts, text, hread, rfl⟩
                have hsize : entrySize (some (scanner.entryOf path data text)) = data.length := rfl
                have hlength := inspectSource_length hread
                dsimp only
                rw [hentry, hsize]
                constructor
                · rintro ⟨_, hok⟩ _
                  have hfits := (checkBytes_eq_ok_iff.mp (check_bind_eq_ok_iff.mp hok).1).2
                  omega
                · intro hfits
                  have hfits := hfits (some_ne_none _)
                  have hcheck : checkBytes scanner.config path data.length snapshot.totalBytes =
                      .ok () := checkBytes_eq_ok_iff.mpr ⟨hlength, by omega⟩
                  rw [hcheck]
                  exact ⟨_, rfl⟩

end Steps

/-! ## The loop -/

/-- The part of the loop for one path. -/
def changeStep (scanner : RepositoryScanner M) (root : Root) (matcher : IgnoreMatcher)
    (path : Str) (snapshot : ScanSnapshot M) : Except ScanFailure (ScanSnapshot M) :=
  if skipped matcher path then .ok (dropPath path snapshot)
  else applyChangedPath scanner root path snapshot

section Loop

variable {scanner : RepositoryScanner M} {root : Root} {matcher : IgnoreMatcher}

theorem applyChanges_cons (path : Str) (rest : List Str) (snapshot : ScanSnapshot M) :
    applyChanges scanner root matcher (path :: rest) snapshot =
      changeStep scanner root matcher path snapshot >>= applyChanges scanner root matcher rest := by
  rw [applyChanges, changeStep]
  split_ifs <;> rfl

theorem changeStep_holds {path : Str} {snapshot snapshot' : ScanSnapshot M}
    {content : Str → Option (ScanEntry M)} (h : Holds snapshot content)
    (hstep : changeStep scanner root matcher path snapshot = .ok snapshot') :
    Holds snapshot' (Function.update content path (scanner.readAt matcher root path)) ∧
      snapshot'.totalBytes + entrySize (content path) =
        snapshot.totalBytes + entrySize (scanner.readAt matcher root path) := by
  obtain ⟨hdropped, htotal⟩ := h.drop path
  rw [changeStep] at hstep
  rw [RepositoryScanner.readAt]
  split_ifs at hstep ⊢ with hskipped
  · rw [← ok.inj hstep]
    exact ⟨hdropped, htotal⟩
  · obtain ⟨_, hfound⟩ := check_bind_eq_ok_iff.mp hstep
    obtain ⟨hholds, hadded⟩ := applyFound_holds hdropped (Function.update_self _ _ _) hfound
    rw [Function.update_idem] at hholds
    exact ⟨hholds, by omega⟩

theorem changeStep_isOk_iff {path : Str} {snapshot : ScanSnapshot M}
    {content : Str → Option (ScanEntry M)} (h : Holds snapshot content)
    (hbound : snapshot.totalBytes ≤ scanner.config.maxTotalBytes)
    (hvalid : validateChangedPath path = .ok ())
    (hdirectory : ∀ entries,
      lookup (path.splitOn '/') (.directory root) ≠ .item (.directory entries)) :
    (∃ snapshot', changeStep scanner root matcher path snapshot = .ok snapshot') ↔
      (scanner.readAt matcher root path ≠ none →
        snapshot.totalBytes + entrySize (scanner.readAt matcher root path) ≤
          scanner.config.maxTotalBytes + entrySize (content path)) := by
  obtain ⟨_, htotal⟩ := h.drop path
  rw [changeStep, RepositoryScanner.readAt]
  split_ifs with hskipped
  · exact ⟨fun _ hne => absurd rfl hne, fun _ => ⟨_, rfl⟩⟩
  · rw [applyChangedPath, hvalid, ok_bind, applyFound_isOk_iff (by omega) hdirectory]
    refine imp_congr_right fun _ => ?_
    omega

variable (scanner matcher root) in
/-- The running total stays within the limit at every path that is read: `old` is what the previous
snapshot counts for a path. -/
def Fits (old : Str → ℕ) (total : ℕ) (paths : List Str) : Prop :=
  ∀ front path rest, paths = front ++ path :: rest → scanner.readAt matcher root path ≠ none →
    total + ((front ++ [path]).map fun other =>
        entrySize (scanner.readAt matcher root other)).sum ≤
      scanner.config.maxTotalBytes + ((front ++ [path]).map old).sum

theorem Fits.head {old : Str → ℕ} {total : ℕ} {path : Str} {rest : List Str}
    (h : Fits scanner root matcher old total (path :: rest))
    (hne : scanner.readAt matcher root path ≠ none) :
    total + entrySize (scanner.readAt matcher root path) ≤
      scanner.config.maxTotalBytes + old path := by
  simpa using h [] path rest rfl hne

theorem fits_cons_iff {old : Str → ℕ} {total total' : ℕ} {path : Str} {rest : List Str}
    (htotal : total' + old path = total + entrySize (scanner.readAt matcher root path)) :
    Fits scanner root matcher old total (path :: rest) ↔
      (scanner.readAt matcher root path ≠ none →
        total + entrySize (scanner.readAt matcher root path) ≤
          scanner.config.maxTotalBytes + old path) ∧
      Fits scanner root matcher old total' rest := by
  constructor
  · intro h
    refine ⟨h.head, ?_⟩
    intro front other rest' heq hne
    have hother := h (path :: front) other rest' (congrArg (path :: ·) heq) hne
    simp only [List.cons_append, List.map_cons, List.sum_cons] at hother
    omega
  · rintro ⟨hfirst, hrest⟩ front other rest' heq hne
    cases front with
    | nil =>
        obtain ⟨rfl, rfl⟩ := List.cons.inj heq
        simpa using hfirst hne
    | cons first front =>
        obtain ⟨rfl, rfl⟩ := List.cons.inj heq
        have hother := hrest front other rest' rfl hne
        simp only [List.cons_append, List.map_cons, List.sum_cons]
        omega

/-- The loop holds at every changed path what the scanner reads there. -/
theorem applyChanges_holds {paths : List Str} {snapshot snapshot' : ScanSnapshot M}
    {content : Str → Option (ScanEntry M)} (h : Holds snapshot content)
    (hrun : applyChanges scanner root matcher paths snapshot = .ok snapshot') :
    Holds snapshot' fun path =>
      if path ∈ paths then scanner.readAt matcher root path else content path := by
  induction paths generalizing snapshot content with
  | nil =>
      rw [← ok.inj hrun]
      simpa using h
  | cons path rest ih =>
      rw [applyChanges_cons] at hrun
      obtain ⟨stepped, hstep, hrest⟩ := bind_eq_ok_iff.mp hrun
      have hholds := ih (changeStep_holds h hstep).1 hrest
      refine (congrArg (Holds snapshot') (funext fun other => ?_)).mp hholds
      by_cases hmem : other ∈ rest
      · rw [if_pos hmem, if_pos (List.mem_cons_of_mem _ hmem)]
      · rw [if_neg hmem, Function.update_apply]
        by_cases hsame : other = path
        · rw [if_pos hsame, if_pos (List.mem_cons.mpr (.inl hsame)), hsame]
        · rw [if_neg hsame, if_neg fun h => (List.mem_cons.mp h).elim hsame hmem]

/-- The loop succeeds exactly when its running total fits. -/
theorem applyChanges_isOk_iff {paths : List Str} {snapshot : ScanSnapshot M}
    {content : Str → Option (ScanEntry M)} {old : Str → ℕ} (h : Holds snapshot content)
    (hold : ∀ path ∈ paths, old path = entrySize (content path))
    (hbound : snapshot.totalBytes ≤ scanner.config.maxTotalBytes) (hnodup : paths.Nodup)
    (hvalid : ∀ path ∈ paths, validateChangedPath path = .ok ())
    (hdirectory : ∀ path ∈ paths, ∀ entries,
      lookup (path.splitOn '/') (.directory root) ≠ .item (.directory entries)) :
    (∃ snapshot', applyChanges scanner root matcher paths snapshot = .ok snapshot') ↔
      Fits scanner root matcher old snapshot.totalBytes paths := by
  induction paths generalizing snapshot content with
  | nil =>
      refine ⟨fun _ front path rest heq => ?_, fun _ => ⟨snapshot, rfl⟩⟩
      exact absurd heq.symm (List.append_ne_nil_of_right_ne_nil _ (List.cons_ne_nil _ _))
  | cons path rest ih =>
      obtain ⟨hfirst, hrest⟩ := List.forall_mem_cons.mp hold
      obtain ⟨hnew, hnodup⟩ := List.nodup_cons.mp hnodup
      obtain ⟨hpath, hvalid⟩ := List.forall_mem_cons.mp hvalid
      obtain ⟨hplace, hdirectory⟩ := List.forall_mem_cons.mp hdirectory
      have hstep : (∃ stepped, changeStep scanner root matcher path snapshot = .ok stepped) ↔ _ :=
        changeStep_isOk_iff h hbound hpath hplace
      rw [← hfirst] at hstep
      -- what the loop does behind a step that succeeds
      have hbehind : ∀ stepped,
          changeStep scanner root matcher path snapshot = .ok stepped →
          ((∃ snapshot', applyChanges scanner root matcher rest stepped = .ok snapshot') ↔
            Fits scanner root matcher old snapshot.totalBytes (path :: rest)) := by
        intro stepped hstepped
        obtain ⟨hholds, htotal⟩ := changeStep_holds h hstepped
        rw [← hfirst] at htotal
        have hfits := hstep.mp ⟨stepped, hstepped⟩
        have hbound' : stepped.totalBytes ≤ scanner.config.maxTotalBytes := by
          by_cases hne : scanner.readAt matcher root path = none
          · have hzero : entrySize (scanner.readAt matcher root path) = 0 := by
              rw [hne]
              rfl
            omega
          · have hle := hfits hne
            omega
        have hold' : ∀ other ∈ rest, old other = entrySize
            (Function.update content path (scanner.readAt matcher root path) other) := by
          intro other hother
          have hne : other ≠ path := by
            rintro rfl
            exact hnew hother
          rw [Function.update_of_ne hne]
          exact hrest other hother
        rw [ih hholds hold' hbound' hnodup hvalid hdirectory, fits_cons_iff htotal]
        exact (and_iff_right hfits).symm
      rw [applyChanges_cons]
      constructor
      · rintro ⟨snapshot', hrun⟩
        obtain ⟨stepped, hstepped, hafter⟩ := bind_eq_ok_iff.mp hrun
        exact (hbehind stepped hstepped).mp ⟨snapshot', hafter⟩
      · intro hfits
        obtain ⟨stepped, hstepped⟩ := hstep.mpr hfits.head
        rw [hstepped, ok_bind]
        exact (hbehind stepped hstepped).mpr hfits

end Loop

/-! ## The change -/

theorem SameFiles.trans {third : ScanSnapshot M} (h : SameFiles first second)
    (h' : SameFiles second third) : SameFiles first third :=
  ⟨h.entries.trans h'.entries, h.observedBytes.trans h'.observedBytes,
    h.fileCount.trans h'.fileCount, h.totalBytes.trans h'.totalBytes⟩

theorem SameFiles.symm (h : SameFiles first second) :
    SameFiles second first :=
  ⟨h.entries.symm, h.observedBytes.symm, h.fileCount.symm, h.totalBytes.symm⟩

/-- The comparison with the previous snapshot adds diagnostics only. -/
theorem classify_sameFiles (previous snapshot : ScanSnapshot M) (changedPaths : OrdSet Str) :
    SameFiles (classify previous changedPaths snapshot).snapshot snapshot := by
  have hstep : ∀ (inputChanged : Bool) (change : ScanChange M) (entry : Str × ScanEntry M),
      SameFiles (classifyEntry previous changedPaths inputChanged change entry).snapshot
        change.snapshot := by
    intro inputChanged change entry
    rw [classifyEntry]
    cases previous.entries.find? entry.1 with
    | none => exact ⟨rfl, rfl, rfl, rfl⟩
    | some prior =>
        dsimp only
        split_ifs <;> exact ⟨rfl, rfl, rfl, rfl⟩
  have hfold : ∀ (inputChanged : Bool) (entries : List (Str × ScanEntry M)) (change : ScanChange M),
      SameFiles (entries.foldl (classifyEntry previous changedPaths inputChanged) change).snapshot
        change.snapshot := by
    intro inputChanged entries
    induction entries with
    | nil => exact fun change => ⟨rfl, rfl, rfl, rfl⟩
    | cons entry rest ih => exact fun change => (ih _).trans (hstep _ change entry)
  have hall := hfold (snapshot.inputs ≠ previous.inputs) snapshot.entries.entries
    ⟨snapshot, [], [], [], [], []⟩
  exact ⟨hall.entries, hall.observedBytes, hall.fileCount, hall.totalBytes⟩

theorem Holds.of_sameFiles {content : Str → Option (ScanEntry M)} (h : Holds second content)
    (hsame : SameFiles first second) : Holds first content where
  entries := by rw [hsame.entries]; exact h.entries
  observed := by rw [hsame.observedBytes]; exact h.observed
  count := by rw [hsame.fileCount, hsame.observedBytes]; exact h.count
  total := by rw [hsame.totalBytes, hsame.observedBytes]; exact h.total

section Agreement

variable {scanner : RepositoryScanner M} {before after : Root} {matcher : IgnoreMatcher}
  {ignore : ContentIdentity} {previous full : ScanSnapshot M} {changedPaths : OrdSet Str}

/-- With the inputs of the previous snapshot the changed paths are applied to it. -/
theorem scanChanged_eq (hafter : readIgnore after = .ok (matcher, ignore))
    (hinputs : previous.inputs = scanner.inputs ignore)
    (hvalid : ∀ path ∈ changedPaths.keys, validateChangedPath path = .ok ()) :
    scanChanged scanner after previous changedPaths =
      (updateSnapshot scanner after matcher (scanner.inputs ignore) previous changedPaths).map
        (classify previous changedPaths) := by
  rw [scanChanged, forEach_eq_ok_iff.mpr hvalid, ok_bind, hafter, ok_bind]
  dsimp only
  rw [if_neg (not_not.mpr hinputs.symm)]
  cases updateSnapshot scanner after matcher (scanner.inputs ignore) previous changedPaths <;> rfl

/-- What a full scan holds at a path is what the scanner reads there, below open names. -/
theorem entryAt_eq {root : Root} (h : WellFormed IsName (.directory root)) (path : Str) :
    scanner.entryAt matcher root path =
      if Open joinRelative (skipped matcher) [] (path.splitOn '/') then
        scanner.readAt matcher root path
      else none := by
  rw [RepositoryScanner.entryAt, RepositoryScanner.readAt]
  split_ifs with hopen hskipped
  · cases hfile : fileBelow root path with
    | none => rfl
    | some data =>
        -- the path itself is the last location on the way
        have hlast := hopen (path.splitOn '/') (List.splitOn_ne_nil _ _) (List.prefix_refl _)
        rw [foldl_joinRelative (isName_of_fileBelow h hfile), join_splitOn, hskipped] at hlast
        cases hlast
  · rfl
  · rfl

/-- A scan from the changed paths finds the files of a full scan exactly when every changed file
that it reads is below names that a walk enters, and the running total of the files before it in
their order never passes the limit of bytes. -/
theorem scanChanged_agrees_iff (hwf : WellFormed IsName (.directory before))
    (hwf' : WellFormed IsName (.directory after))
    (hbefore : readIgnore before = .ok (matcher, ignore))
    (hafter : readIgnore after = .ok (matcher, ignore))
    (hprevious : scan scanner before = .ok previous) (hfull : scan scanner after = .ok full)
    (hchanged : ∀ path, path ∈ changedPaths.keys ↔ fileBelow before path ≠ fileBelow after path)
    (hvalid : ∀ path ∈ changedPaths.keys, validateChangedPath path = .ok ())
    (hdirectory : ∀ path ∈ changedPaths.keys, ∀ entries,
      lookup (path.splitOn '/') (.directory after) ≠ .item (.directory entries)) :
    (∃ change, scanChanged scanner after previous changedPaths = .ok change ∧
        SameFiles change.snapshot full) ↔
      (∀ path ∈ changedPaths.keys, scanner.readAt matcher after path ≠ none →
        Open joinRelative (skipped matcher) [] (path.splitOn '/')) ∧
      Fits scanner after matcher (fun path => (previous.observedBytes.find? path).getD 0)
        previous.totalBytes changedPaths.keys := by
  obtain ⟨hscanned, hinputs⟩ := scan_eq_ok hwf hbefore hprevious
  obtain ⟨hscanned', _⟩ := scan_eq_ok hwf' hafter hfull
  rw [scanChanged_eq hafter hinputs hvalid]
  obtain ⟨start, hstarts⟩ : ∃ start : ScanSnapshot M, start = { previous with
      diagnostics := previous.diagnostics.filter fun diagnostic =>
        !changedPaths.contains diagnostic.path
      inputs := scanner.inputs ignore } := ⟨_, rfl⟩
  have hstart : Holds start (scanner.entryAt matcher before) := by
    rw [hstarts]
    exact ⟨hscanned.entries, hscanned.observed, hscanned.count, hscanned.total⟩
  have htotal : start.totalBytes = previous.totalBytes := by rw [hstarts]
  have hrun : (∃ applied, applyChanges scanner after matcher changedPaths.keys start =
      .ok applied) ↔ Fits scanner after matcher
        (fun path => (previous.observedBytes.find? path).getD 0) start.totalBytes
        changedPaths.keys :=
    applyChanges_isOk_iff hstart (fun path _ => hscanned.holds.size path)
      (htotal.trans_le hscanned.totalBound) changedPaths.keys_nodup hvalid hdirectory
  rw [← htotal]
  constructor
  · rintro ⟨change, hchange, hsame⟩
    obtain ⟨updated, hupdate, rfl⟩ := map_eq_ok_iff.mp hchange
    rw [updateSnapshot, ← hstarts] at hupdate
    obtain ⟨applied, happlied, hchecks⟩ := bind_eq_ok_iff.mp hupdate
    obtain ⟨_, hlimits⟩ := check_bind_eq_ok_iff.mp hchecks
    obtain ⟨_, hok⟩ := check_bind_eq_ok_iff.mp hlimits
    obtain rfl := Except.ok.inj hok
    refine ⟨fun path hpath hread => ?_, hrun.mp ⟨_, happlied⟩⟩
    -- the full scan holds the path as well
    have hheld := hscanned'.holds.of_sameFiles
      ((classify_sameFiles previous applied changedPaths).symm.trans hsame)
    have hentry := (applyChanges_holds hstart happlied).entries path
    rw [if_pos hpath, hheld.entries, entryAt_eq hwf'] at hentry
    by_contra hclosed
    rw [if_neg hclosed] at hentry
    exact hread hentry.symm
  · rintro ⟨hopen, hfits⟩
    obtain ⟨applied, happlied⟩ := hrun.mpr hfits
    have hcontent : (fun path => if path ∈ changedPaths.keys then
        scanner.readAt matcher after path else scanner.entryAt matcher before path) =
          scanner.entryAt matcher after := by
      funext path
      split_ifs with hpath
      · rw [entryAt_eq hwf']
        split_ifs with hway
        · rfl
        · by_contra hread
          exact hway (hopen path hpath hread)
      · have hfile : fileBelow before path = fileBelow after path :=
          not_not.mp fun hne => hpath ((hchanged path).mpr hne)
        rw [RepositoryScanner.entryAt, RepositoryScanner.entryAt, hfile]
    have hsame : SameFiles applied full :=
      (hcontent ▸ applyChanges_holds hstart happlied).sameFiles hscanned'.holds
    have hupdate : updateSnapshot scanner after matcher (scanner.inputs ignore) previous
        changedPaths = .ok applied := by
      have hcount : ¬ applied.fileCount > scanner.config.maxFiles := by
        rw [hsame.fileCount]
        exact not_lt.mpr hscanned'.countBound
      have hbytes : ¬ applied.totalBytes > scanner.config.maxTotalBytes := by
        rw [hsame.totalBytes]
        exact not_lt.mpr hscanned'.totalBound
      rw [updateSnapshot, ← hstarts, happlied, ok_bind]
      exact check_bind_eq_ok_iff.mpr ⟨failIf_eq_ok_iff.mpr hcount,
        check_bind_eq_ok_iff.mpr ⟨failIf_eq_ok_iff.mpr hbytes, rfl⟩⟩
    rw [hupdate]
    exact ⟨_, rfl, (classify_sameFiles previous applied changedPaths).trans hsame⟩

end Agreement

/-! ### One file in the place of another -/

theorem fileBelow_single {name : Str} (hname : '/' ∉ name) (data : List UInt8) (path : Str) :
    fileBelow [(name, .file data)] path = if path = name then some data else none := by
  rw [fileBelow]
  split_ifs with hsame
  · rw [hsame, List.splitOn_eq_singleton hname]
    simp [fileAt, lookup, entryNamed]
  · cases hsplit : path.splitOn '/' with
    | nil => exact absurd hsplit (List.splitOn_ne_nil _ _)
    | cons first rest =>
        by_cases hfirst : name = first
        · cases rest with
          | nil =>
              have hjoin := join_splitOn path
              rw [hsplit, ← hfirst] at hjoin
              exact absurd (hjoin.symm.trans List.intercalate_singleton) hsame
          | cons next rest => simp [fileAt, lookup, entryNamed, hfirst]
        · simp [fileAt, lookup, entryNamed, hfirst]

theorem wellFormed_single {name : Str} (hname : IsName name) (data : List UInt8) :
    WellFormed IsName (.directory [(name, .file data)] : RepoItem) :=
  .directory _ (List.nodup_singleton _) (List.forall_mem_singleton.mpr hname)
    (List.forall_mem_singleton.mpr (.file data))

def tenBytesScanner : RepositoryScanner Unit :=
  ⟨⟨10, 10, 10, [], false⟩, fun _ _ => (), [], []⟩

/-- A root directory with one file of ten bytes. -/
def tenBytesUnder (name : Str) : Root := [(name, .file (List.replicate 10 97))]

/-- The paths whose file differs. -/
def swappedPaths : OrdSet Str := .ofList [['a'], ['z']]

theorem mem_swappedPaths (path : Str) : path ∈ swappedPaths.keys ↔
    fileBelow (tenBytesUnder ['a']) path ≠ fileBelow (tenBytesUnder ['z']) path := by
  rw [tenBytesUnder, tenBytesUnder, fileBelow_single (by decide), fileBelow_single (by decide),
    swappedPaths, OrdSet.mem_keys_ofList]
  simp only [List.mem_cons, List.not_mem_nil, or_false]
  by_cases hfirst : path = ['a']
  · simp [hfirst]
  · by_cases hsecond : path = ['z'] <;> simp [hfirst, hsecond]

theorem swappedPaths_valid :
    ∀ path ∈ swappedPaths.keys, validateChangedPath path = .ok () := by decide

theorem swappedPaths_file {name : Str} (hname : name = ['a'] ∨ name = ['z']) :
    ∀ path ∈ swappedPaths.keys, ∀ entries : List (Str × RepoItem),
      lookup (path.splitOn '/') (.directory (tenBytesUnder name)) ≠ .item (.directory entries) := by
  intro path hpath entries hlookup
  rw [swappedPaths, OrdSet.mem_keys_ofList, List.mem_cons, List.mem_singleton] at hpath
  obtain rfl | rfl := hname <;> obtain rfl | rfl := hpath <;> cases hlookup

/-- The file moves behind its old name. -/
theorem scanChanged_agrees_iff_moved :
    ∃ previous full : ScanSnapshot Unit,
      scan tenBytesScanner (tenBytesUnder ['a']) = .ok previous ∧
      scan tenBytesScanner (tenBytesUnder ['z']) = .ok full ∧
      ((∃ change, scanChanged tenBytesScanner (tenBytesUnder ['z']) previous swappedPaths =
            .ok change ∧ SameFiles change.snapshot full) ↔
        (∀ path ∈ swappedPaths.keys,
          tenBytesScanner.readAt .default (tenBytesUnder ['z']) path ≠ none →
            Open joinRelative (skipped .default) [] (path.splitOn '/')) ∧
        Fits tenBytesScanner (tenBytesUnder ['z']) .default
          (fun path => (previous.observedBytes.find? path).getD 0) previous.totalBytes
          swappedPaths.keys) := by
  refine ⟨_, _, rfl, rfl, ?_⟩
  exact scanChanged_agrees_iff (wellFormed_single (by decide) _) (wellFormed_single (by decide) _)
    rfl rfl rfl rfl mem_swappedPaths swappedPaths_valid (swappedPaths_file (.inr rfl))

/-- Before its old name the file is refused, though a full scan of its new place succeeds. -/
theorem not_scanChanged_agrees_moved :
    ∃ (previous full : ScanSnapshot Unit) (ignore : ContentIdentity),
      WellFormed IsName (.directory (tenBytesUnder ['z']) : RepoItem) ∧
      WellFormed IsName (.directory (tenBytesUnder ['a']) : RepoItem) ∧
      readIgnore (tenBytesUnder ['z']) = .ok (.default, ignore) ∧
      readIgnore (tenBytesUnder ['a']) = .ok (.default, ignore) ∧
      scan tenBytesScanner (tenBytesUnder ['z']) = .ok previous ∧
      scan tenBytesScanner (tenBytesUnder ['a']) = .ok full ∧
      (∀ path, path ∈ swappedPaths.keys ↔
        fileBelow (tenBytesUnder ['z']) path ≠ fileBelow (tenBytesUnder ['a']) path) ∧
      (∀ path ∈ swappedPaths.keys, validateChangedPath path = .ok ()) ∧
      (∀ path ∈ swappedPaths.keys, ∀ entries, lookup (path.splitOn '/')
        (.directory (tenBytesUnder ['a'])) ≠ .item (.directory entries)) ∧
      ¬ ∃ change, scanChanged tenBytesScanner (tenBytesUnder ['a']) previous swappedPaths =
          .ok change ∧ SameFiles change.snapshot full := by
  refine ⟨_, _, _, wellFormed_single (by decide) _, wellFormed_single (by decide) _, rfl, rfl,
    rfl, rfl, fun path => (mem_swappedPaths path).trans ne_comm, swappedPaths_valid,
    swappedPaths_file (.inl rfl), ?_⟩
  rintro ⟨change, hchange, _⟩
  rw [scanChanged_eq rfl rfl swappedPaths_valid] at hchange
  cases hchange

end Bran.Scan
