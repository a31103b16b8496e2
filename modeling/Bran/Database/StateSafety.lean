import Bran.Database.State

/-!
# What the operations of the state store do

The looks at the file system that the operations decide by, the objects of a namespace and their
sizes, and what opening and putting leave behind: opening touches no object and clears the
staging area, a put that fails touches no object, and a put that succeeds stores its bytes under
their digest.
-/

namespace Bran.Database

open Files Files.Script Agent Validation OrdMap

/-! ## Looking -/

/-- The only errors that a fault adds to what the files answer. -/
def Faulty (error : StateStoreError) : Prop := ∃ kind, error = .io kind

theorem faulty_ofIo {α : Type} (error : Error) :
    ∃ error', ofIo (.error error : Except Error α) = .error error' ∧ Faulty error' :=
  ⟨_, rfl, error.kind, rfl⟩

theorem reads_translated {α : Type} (look : Tree → Except Error α) :
    Reads (translated (query look)) (fun tree => ofIo (look tree)) Faulty :=
  reads_query ofIo fun error _ => faulty_ofIo error

theorem reads_entry (path : Path) :
    Reads (entry path) (fun tree => existing (lookup path tree)) Faulty := by
  apply reads_query existing
  intro error hkind
  exact ⟨.io error.kind, if_neg hkind, error.kind, rfl⟩

/-- What `realDir` answers. -/
def lookDir (path : Path) (tree : Tree) : Except StateStoreError Bool :=
  asDirectory (tree.find? path)

/-- What `regularFile` answers. -/
def lookFile (path : Path) (tree : Tree) : Except StateStoreError (Option ℕ) :=
  asRegularFile (tree.find? path)

theorem existing_lookup (path : Path) (tree : Tree) :
    existing (lookup path tree) = .ok (tree.find? path) := by
  unfold lookup
  cases tree.find? path with
  | none => rfl
  | some entry => rfl

theorem reads_realDir (path : Path) : Reads (realDir path) (lookDir path) Faulty := by
  have hreads := (reads_entry path).andThen fun found => reads_pure (asDirectory found)
  simp only [existing_lookup, ok_bind] at hreads
  exact hreads

theorem reads_regularFile (path : Path) : Reads (regularFile path) (lookFile path) Faulty := by
  have hreads := (reads_entry path).andThen fun found => reads_pure (asRegularFile found)
  simp only [existing_lookup, ok_bind] at hreads
  exact hreads

/-- What `fileLengths` answers. -/
def lookLengths : List Path → Tree → Except StateStoreError (List (Path × ℕ))
  | [], _ => .ok []
  | path :: rest, tree => lookFile path tree >>= fun
      | none => .error .unconfined
      | some length => lookLengths rest tree >>= fun files => .ok ((path, length) :: files)

theorem reads_fileLengths (paths : List Path) :
    Reads (fileLengths paths) (lookLengths paths) Faulty := by
  induction paths with
  | nil => exact reads_pure _
  | cons path rest ih =>
      apply (reads_regularFile path).andThen
      intro found
      cases found with
      | none => exact reads_pure _
      | some length => exact ih.andThen fun files => reads_pure _

/-- What `regularFiles` answers. -/
def lookFiles (dir : Path) (tree : Tree) : Except StateStoreError (List (Path × ℕ)) :=
  ofIo (listing dir tree) >>= fun paths => lookLengths paths tree

theorem reads_regularFiles (dir : Path) : Reads (regularFiles dir) (lookFiles dir) Faulty :=
  (reads_translated (listing dir)).andThen reads_fileLengths

/-- What `allPresent` answers. -/
def lookPresent : List Path → Tree → Except StateStoreError Bool
  | [], _ => .ok true
  | component :: rest, tree => lookDir component tree >>= fun present =>
      if present then lookPresent rest tree else .ok false

theorem reads_allPresent (components : List Path) :
    Reads (allPresent components) (lookPresent components) Faulty := by
  induction components with
  | nil => exact reads_pure _
  | cons component rest ih =>
      exact (reads_realDir component).andThen fun present => reads_ite ih (reads_pure _)

theorem lookDir_eq_true_iff {path : Path} {tree : Tree} :
    lookDir path tree = .ok true ↔ tree.find? path = some .directory := by
  unfold lookDir
  rcases tree.find? path with _ | (_ | _ | _) <;> simp [asDirectory]

variable {components : List Path} {files : List (Path × ℕ)}

theorem lookPresent_of_directories {tree : Tree}
    (h : ∀ component ∈ components, tree.find? component = some .directory) :
    lookPresent components tree = .ok true := by
  induction components with
  | nil => rfl
  | cons component rest ih =>
      have hfirst := lookDir_eq_true_iff.mpr (h component (by simp))
      have hrest := ih fun other hother => h other (List.mem_cons_of_mem _ hother)
      rw [lookPresent, hfirst, ok_bind, if_pos rfl, hrest]

/-! ## Objects and their sizes -/

/-- The length of what stands at a path, zero unless it is a regular file. -/
def sizeAt (tree : Tree) (path : Path) : ℕ := ((tree.find? path).bind Files.Entry.length?).getD 0

/-- Whether a path names an entry of a directory. -/
def isChild (dir path : Path) : Bool := path ≠ [] && path.dropLast = dir

def entriesOf (dir : Path) (tree : Tree) : OrdMap Path Files.Entry := tree.filterKeys (isChild dir)

/-- The bytes that the entries of a directory take. -/
def totalSize (dir : Path) (tree : Tree) : ℕ :=
  ((entriesOf dir tree).mapValues fun _ entry => entry.length?.getD 0).values.sum

@[simp] theorem isChild_concat (dir : Path) (name : Str) : isChild dir (dir ++ [name]) = true := by
  simp [isChild]

theorem isChild_iff {dir path : Path} : isChild dir path = true ↔ ∃ name, path = dir ++ [name] := by
  constructor
  · intro h
    simp only [isChild, Bool.and_eq_true, decide_eq_true_eq] at h
    obtain ⟨hne, rfl⟩ := h
    exact ⟨path.getLast hne, (List.dropLast_append_getLast hne).symm⟩
  · intro h
    obtain ⟨name, rfl⟩ := h
    exact isChild_concat dir name

theorem find?_entriesOf (dir : Path) (tree : Tree) (path : Path) :
    (entriesOf dir tree).find? path = if isChild dir path then tree.find? path else none :=
  find?_filterKeys (isChild dir) tree path

theorem keys_entriesOf (dir : Path) (tree : Tree) : (entriesOf dir tree).keys = children dir tree := by
  rw [entriesOf, keys_filterKeys]
  rfl

/-- Two trees with the same entries in a directory. -/
theorem entriesOf_congr {dir : Path} {tree after : Tree}
    (h : ∀ path, isChild dir path = true → after.find? path = tree.find? path) :
    entriesOf dir after = entriesOf dir tree := by
  apply ext_find?
  intro path
  rw [find?_entriesOf, find?_entriesOf]
  by_cases hchild : isChild dir path = true
  · rw [if_pos hchild, if_pos hchild, h path hchild]
  · rw [if_neg hchild, if_neg hchild]

theorem entriesOf_insert {dir path : Path} (hchild : isChild dir path = true) (tree : Tree)
    (entry : Files.Entry) :
    entriesOf dir (tree.insert path entry) = (entriesOf dir tree).insert path entry := by
  apply ext_find?
  intro other
  rw [find?_entriesOf, find?_insert, find?_insert, find?_entriesOf]
  by_cases hsame : path = other
  · subst hsame
    rw [if_pos hchild, if_pos rfl, if_pos rfl]
  · rw [if_neg hsame, if_neg hsame]

theorem totalSize_congr {dir : Path} {tree after : Tree}
    (h : entriesOf dir after = entriesOf dir tree) : totalSize dir after = totalSize dir tree := by
  unfold totalSize
  rw [h]

theorem find?_sizes {dir path : Path} (hchild : isChild dir path = true) (tree : Tree) :
    (((entriesOf dir tree).mapValues fun _ entry => entry.length?.getD 0).find? path).getD 0 =
      sizeAt tree path := by
  rw [find?_mapValues, find?_entriesOf, if_pos hchild, sizeAt]
  cases tree.find? path with
  | none => rfl
  | some entry => rfl

/-- A file stored in a directory takes the place of what was there. -/
theorem totalSize_insert {dir path : Path} (hchild : isChild dir path = true) (tree : Tree)
    (bytes : List UInt8) :
    totalSize dir (tree.insert path (.file bytes)) + sizeAt tree path =
      totalSize dir tree + bytes.length := by
  have hsum := sum_values_insert
    ((entriesOf dir tree).mapValues fun _ entry => entry.length?.getD 0) path bytes.length
  rw [find?_sizes hchild] at hsum
  rw [totalSize, entriesOf_insert hchild, mapValues_insert]
  exact hsum

theorem sizeAt_le_totalSize {dir path : Path} (hchild : isChild dir path = true) (tree : Tree) :
    sizeAt tree path ≤ totalSize dir tree := by
  have hsum := totalSize_insert hchild tree []
  rw [List.length_nil] at hsum
  omega

theorem lookFile_eq_ok {path : Path} {tree : Tree} {found : Option ℕ}
    (h : lookFile path tree = .ok found) :
    (tree.find? path).bind Files.Entry.length? = found ∧ (found = none → tree.find? path = none) := by
  unfold lookFile at h
  rcases hentry : tree.find? path with _ | (bytes | _ | _)
  · rw [hentry] at h
    cases h
    exact ⟨rfl, fun _ => rfl⟩
  · rw [hentry] at h
    cases h
    exact ⟨rfl, fun hnone => by cases hnone⟩
  · rw [hentry] at h
    cases h
  · rw [hentry] at h
    cases h

theorem lookLengths_eq_ok {paths : List Path} {tree : Tree} (h : lookLengths paths tree = .ok files) :
    files.map Prod.fst = paths ∧ (files.map Prod.snd).sum = (paths.map (sizeAt tree)).sum := by
  induction paths generalizing files with
  | nil =>
      cases h
      exact ⟨rfl, rfl⟩
  | cons path rest ih =>
      rw [lookLengths, bind_eq_ok_iff] at h
      obtain ⟨found, hfound, h⟩ := h
      cases found with
      | none => cases h
      | some length =>
          rw [bind_eq_ok_iff] at h
          obtain ⟨files', hfiles, h⟩ := h
          cases h
          obtain ⟨hpaths, hsum⟩ := ih hfiles
          have hsize : sizeAt tree path = length := by
            rw [sizeAt, (lookFile_eq_ok hfound).1, Option.getD_some]
          rw [List.map_cons, List.map_cons, List.map_cons, List.sum_cons, List.sum_cons, hpaths,
            hsum, hsize]
          exact ⟨rfl, rfl⟩

/-- The lengths that `regularFiles` gathers are those of all entries. -/
theorem lookFiles_eq_ok {dir : Path} {tree : Tree} (h : lookFiles dir tree = .ok files) :
    files.map Prod.fst = children dir tree ∧ (files.map Prod.snd).sum = totalSize dir tree := by
  rw [lookFiles, bind_eq_ok_iff] at h
  obtain ⟨paths, hpaths, h⟩ := h
  have hlisted : paths = children dir tree := by
    unfold listing at hpaths
    rcases hentry : tree.find? dir with _ | (_ | _ | _)
    · rw [hentry] at hpaths
      cases hpaths
    · rw [hentry] at hpaths
      cases hpaths
    · rw [hentry] at hpaths
      cases hpaths
      rfl
    · rw [hentry] at hpaths
      cases hpaths
  subst hlisted
  obtain ⟨hfst, hsum⟩ := lookLengths_eq_ok h
  refine ⟨hfst, ?_⟩
  rw [hsum, totalSize, sum_values, keys_mapValues, keys_entriesOf]
  apply congrArg List.sum
  apply List.map_congr_left
  intro path hpath
  have hchild : isChild dir path = true := (List.mem_filter.mp hpath).2
  exact (find?_sizes hchild tree).symm

/-- A directory without entries. -/
theorem totalSize_eq_zero {dir : Path} {tree : Tree}
    (h : ∀ path, isChild dir path = true → tree.find? path = none) : totalSize dir tree = 0 := by
  have hempty : entriesOf dir tree = OrdMap.empty := by
    apply ext_find?
    intro path
    rw [find?_entriesOf, find?_empty]
    by_cases hchild : isChild dir path = true
    · rw [if_pos hchild, h path hchild]
    · rw [if_neg hchild]
  rw [totalSize, hempty]
  rfl

theorem mem_children_iff {dir path : Path} {tree : Tree} :
    path ∈ children dir tree ↔ isChild dir path = true ∧ tree.find? path ≠ none := by
  rw [children, List.mem_filter, Option.ne_none_iff_exists', ← mem_keys_iff, and_comm]
  rfl

/-! ## What opening may change -/

/-- Directories stay, and from two levels below the namespace on nothing changes but that staging
files may go. -/
structure Opened (dir : Path) (tree after : Tree) : Prop where
  directories : KeepsDirectories tree after
  deep : ∀ path, dir.length + 2 ≤ path.length → after.find? path = tree.find? path ∨
    (isChild (stagingDir dir) path = true ∧ after.find? path = none)

namespace Opened

variable {dir path : Path} {tree : Tree}

theorem refl (dir : Path) (tree : Tree) : Opened dir tree tree :=
  ⟨.refl tree, fun _ _ => .inl rfl⟩

theorem trans (dir : Path) (first second third : Tree) (h : Opened dir first second)
    (h' : Opened dir second third) : Opened dir first third := by
  refine ⟨h.directories.trans _ _ _ h'.directories, ?_⟩
  intro path hlength
  rcases h'.deep path hlength with hsame | hgone
  · rw [hsame]
    exact h.deep path hlength
  · exact .inr hgone

theorem insert (hlength : path.length ≤ dir.length + 1)
    (hdirectory : tree.find? path ≠ some .directory) (entry : Files.Entry) :
    Opened dir tree (tree.insert path entry) := by
  refine ⟨.insert hdirectory entry, ?_⟩
  intro other hother
  have hne : path ≠ other := by
    intro hsame
    subst hsame
    omega
  exact .inl (find?_insert_of_ne _ _ hne)

theorem erase (hchild : isChild (stagingDir dir) path = true)
    (hdirectory : tree.find? path ≠ some .directory) : Opened dir tree (tree.erase path) := by
  refine ⟨.erase hdirectory, ?_⟩
  intro other _
  rw [find?_erase]
  by_cases hsame : path = other
  · subst hsame
    exact .inr ⟨hchild, if_pos rfl⟩
  · exact .inl (if_neg hsame)

/-- A staging file that is gone stays gone. -/
theorem absent {after : Tree} (h : Opened dir tree after)
    (hchild : isChild (stagingDir dir) path = true) (hnone : tree.find? path = none) :
    after.find? path = none := by
  obtain ⟨name, rfl⟩ := isChild_iff.mp hchild
  rcases h.deep (stagingDir dir ++ [name]) (by simp [stagingDir]) with hsame | ⟨_, hgone⟩
  · rw [hsame, hnone]
  · exact hgone

/-- No object is touched. -/
theorem object {after : Tree} (h : Opened dir tree after)
    (hchild : isChild (objectsDir dir) path = true) : after.find? path = tree.find? path := by
  obtain ⟨name, rfl⟩ := isChild_iff.mp hchild
  rcases h.deep (objectsDir dir ++ [name]) (by simp [objectsDir]) with hsame | ⟨hstaged, _⟩
  · exact hsame
  · exfalso
    simp [isChild, objectsDir, stagingDir] at hstaged

end Opened

section Moves

variable {dir : Path}

theorem establishes_createDir {path : Path} (hlength : path.length ≤ dir.length + 1) :
    Establishes (createDir path) (Opened dir)
      fun _ tree => tree.find? path = some .directory := by
  apply establishes_change (Opened.refl dir)
  intro tree after halter
  obtain ⟨hnone, rfl⟩ := directoryCreated_eq_ok halter
  exact ⟨Opened.insert hlength (by simp [hnone]) _, find?_insert_self _ _ _⟩

theorem moves_isDir (path : Path) : Moves (isDir path) (Opened dir) :=
  (moves_query (Opened.refl dir) _).bind (Opened.trans dir) fun _ => moves_pure (Opened.refl dir) _

theorem moves_createDirOrFound {path : Path} (hlength : path.length ≤ dir.length + 1) :
    Moves (createDirOrFound path) (Opened dir) := by
  apply (establishes_createDir hlength).moves.bind (Opened.trans dir)
  intro answer
  cases answer with
  | ok _ => exact moves_pure (Opened.refl dir) _
  | error error =>
      exact (moves_isDir path).bind (Opened.trans dir) fun _ => moves_pure (Opened.refl dir) _

theorem moves_createDirAll {names : List Str} (hlength : names.length ≤ dir.length + 1) :
    Moves (createDirAll names) (Opened dir) := by
  induction names with
  | nil => exact moves_pure (Opened.refl dir) _
  | cons name above ih =>
      have habove : above.length ≤ dir.length + 1 := by
        rw [List.length_cons] at hlength
        omega
      have hpath : (name :: above).reverse.length ≤ dir.length + 1 := by
        rwa [List.length_reverse]
      apply (establishes_createDir hpath).moves.bind (Opened.trans dir)
      intro answer
      cases answer with
      | ok _ => exact moves_pure (Opened.refl dir) _
      | error error =>
          dsimp only
          split
          · exact (ih habove).andThen (Opened.trans dir) (Opened.refl dir) fun _ =>
              moves_createDirOrFound hpath
          · exact (moves_isDir _).bind (Opened.trans dir) fun _ => moves_pure (Opened.refl dir) _

theorem establishes_translated {α : Type} {script : Script (Except Error α)}
    {P : α → Tree → Prop} (h : Establishes script (Opened dir) P) :
    Establishes (translated script) (Opened dir) P := by
  apply h.map
  intro answer x hanswer
  cases answer with
  | ok answer =>
      cases hanswer
      rfl
  | error error => cases hanswer

theorem establishes_realDir (path : Path) :
    Establishes (realDir path) (Opened dir)
      fun present tree => present = true → tree.find? path = some .directory := by
  apply ((reads_realDir path).establishes (Opened.refl dir)).mono
  intro present tree hlook hpresent
  rw [hpresent] at hlook
  exact lookDir_eq_true_iff.mp hlook

/-- A directory is there once it was found or made. -/
theorem establishes_createUnless (present : Bool) {path : Path}
    (hlength : path.length ≤ dir.length + 1) :
    Establishes (createUnless present path) (Opened dir)
      fun _ tree => present = false → tree.find? path = some .directory := by
  cases present with
  | true => exact establishes_pure (Opened.refl dir) fun _ hfalse => by cases hfalse
  | false =>
      exact (establishes_translated (establishes_createDir hlength)).mono fun _ _ h _ => h

theorem establishes_createMissing {components : List Path}
    (hlength : ∀ component ∈ components, component.length ≤ dir.length + 1) :
    Establishes (createMissing components) (Opened dir)
      fun _ tree => ∀ component ∈ components, tree.find? component = some .directory := by
  induction components with
  | nil => exact establishes_pure (Opened.refl dir) fun _ _ hmem => by cases hmem
  | cons component rest ih =>
      have hrest := ih fun other hother => hlength other (List.mem_cons_of_mem _ hother)
      have hmade (present : Bool) := ((establishes_createUnless present
        (hlength component (by simp))).andThen (Opened.trans dir) (Opened.refl dir)
        (fun _ _ _ hmoved h hpresent => hmoved.directories _ (h hpresent))
        (fun _ => hrest))
      have hall := (establishes_realDir component).andThen (Opened.trans dir) (Opened.refl dir)
        (fun _ _ _ hmoved h hpresent => hmoved.directories _ (h hpresent)) hmade
      apply hall.mono
      intro _ tree h other hother
      obtain ⟨present, hfound, _, hnew, hothers⟩ := h
      rcases List.mem_cons.mp hother with rfl | hother
      · cases present with
        | true => exact hfound rfl
        | false => exact hnew rfl
      · exact hothers other hother

theorem moves_writeVersion : Moves (writeVersion dir) (Opened dir) := by
  have hlength : (versionFile dir).length ≤ dir.length + 1 := by simp [versionFile]
  have hfilled (bytes : List UInt8) (tree : Tree) :
      Opened dir tree (filled (versionFile dir) bytes tree) := by
    rcases filled_cases (versionFile dir) bytes tree with ⟨old, hfile, hfilled⟩ | hfilled
    · rw [hfilled]
      exact Opened.insert hlength (by simp [hfile]) _
    · rw [hfilled]
      exact Opened.refl dir tree
  apply Moves.andThen (Opened.trans dir) (Opened.refl dir)
  · apply moves_change (Opened.refl dir)
    intro tree after halter
    obtain ⟨hdirectory, rfl⟩ := truncated_eq_ok halter
    exact Opened.insert hlength hdirectory _
  · intro _
    exact moves_call (hfilled _) fun landed => hfilled _

/-- Every listed staging file is gone in the end. -/
theorem establishes_removeStaged {files : List (Path × ℕ)}
    (hfiles : ∀ file ∈ files, isChild (stagingDir dir) file.1 = true) :
    Establishes (removeStaged files) (Opened dir)
      fun _ tree => ∀ file ∈ files, tree.find? file.1 = none := by
  induction files with
  | nil => exact establishes_pure (Opened.refl dir) fun _ _ hmem => by cases hmem
  | cons file rest ih =>
      have hchild := hfiles file (by simp)
      have hremoved : Establishes (removeFile file.1) (Opened dir)
          fun _ tree => tree.find? file.1 = none := by
        apply establishes_change (Opened.refl dir)
        intro tree after halter
        obtain ⟨hdirectory, rfl⟩ := removed_eq_ok halter
        exact ⟨Opened.erase hchild hdirectory, by rw [find?_erase, if_pos rfl]⟩
      have hrest := ih fun other hother => hfiles other (List.mem_cons_of_mem _ hother)
      have hall := (establishes_translated hremoved).andThen (Opened.trans dir) (Opened.refl dir)
        (fun _ _ _ hmoved hnone => hmoved.absent hchild hnone) (fun _ => hrest)
      apply hall.mono
      intro _ tree h other hother
      obtain ⟨_, hfirst, hothers⟩ := h
      rcases List.mem_cons.mp hother with rfl | hother
      · exact hfirst
      · exact hothers other hother

end Moves

/-! ## What opening has seen -/

/-- What `checkLayout` answers. -/
def lookLayout (dir : Path) (present : Bool) (version : Option ℕ) (tree : Tree) :
    Except StateStoreError Unit :=
  match version with
  | some _ => ofIo (contents (versionFile dir) tree) >>= checkVersion
  | none =>
      if present then ofIo (listing dir tree) >>= fun children =>
        if children ≠ [] then .error .corrupt else .ok ()
      else .ok ()

theorem reads_checkLayout (dir : Path) (present : Bool) (version : Option ℕ) :
    Reads (checkLayout dir present version) (lookLayout dir present version) Faulty := by
  cases version with
  | some length =>
      exact (reads_translated (contents (versionFile dir))).andThen fun bytes => reads_pure _
  | none =>
      exact reads_ite ((reads_translated (listing dir)).andThen fun children => reads_pure _)
        (reads_pure _)

/-- What `inspect` answers. -/
def lookInspect (components : List Path) (dir : Path) (tree : Tree) :
    Except StateStoreError Inspection :=
  lookPresent components tree >>= fun present =>
  (if present then lookFile (versionFile dir) tree else .ok none) >>= fun version =>
  lookLayout dir present version tree >>= fun _ =>
  (if present then lookDir (objectsDir dir) tree else .ok false) >>= fun objectsPresent =>
  (if present then lookDir (stagingDir dir) tree else .ok false) >>= fun stagingPresent =>
  (if stagingPresent then lookFiles (stagingDir dir) tree else .ok []) >>= fun staged =>
  (if objectsPresent then lookFiles (objectsDir dir) tree else .ok []) >>= fun stored =>
  .ok ⟨version, objectsPresent, stagingPresent, staged, stored⟩

theorem reads_inspect (components : List Path) (dir : Path) :
    Reads (inspect components dir) (lookInspect components dir) Faulty := by
  apply (reads_allPresent components).andThen
  intro present
  apply (reads_ite (reads_regularFile _) (reads_pure _)).andThen
  intro version
  apply (reads_checkLayout dir present version).andThen
  intro _
  apply (reads_ite (reads_realDir _) (reads_pure _)).andThen
  intro objectsPresent
  apply (reads_ite (reads_realDir _) (reads_pure _)).andThen
  intro stagingPresent
  apply (reads_ite (reads_regularFiles _) (reads_pure _)).andThen
  intro staged
  apply (reads_ite (reads_regularFiles _) (reads_pure _)).andThen
  intro stored
  exact reads_pure _

/-- What stands in a subdirectory of the namespace stands below real directories. -/
def Standing (components : List Path) (sub : Path) (tree : Tree) : Prop :=
  ∀ path, isChild sub path = true → tree.find? path ≠ none →
    (∀ component ∈ components, tree.find? component = some .directory) ∧
      tree.find? sub = some .directory

/-- The entries of a subdirectory are all listed, whether it was there or not. -/
theorem listed_of_look {sub : Path} {tree : Tree} {present found : Bool}
    (hstanding : Standing components sub tree)
    (hpresent : lookPresent components tree = .ok present)
    (hfound : (if present then lookDir sub tree else .ok false) = .ok found)
    (hfiles : (if found then lookFiles sub tree else .ok []) = .ok files) :
    files.map Prod.fst = children sub tree ∧ (files.map Prod.snd).sum = totalSize sub tree := by
  cases found with
  | true =>
      rw [if_pos rfl] at hfiles
      exact lookFiles_eq_ok hfiles
  | false =>
      have hnone : ∀ path, isChild sub path = true → tree.find? path = none := by
        intro path hchild
        by_contra hentry
        obtain ⟨hcomponents, hsub⟩ := hstanding path hchild hentry
        rw [lookPresent_of_directories hcomponents] at hpresent
        cases hpresent
        rw [if_pos rfl, lookDir_eq_true_iff.mpr hsub] at hfound
        cases hfound
      cases hfiles
      refine ⟨?_, (totalSize_eq_zero hnone).symm⟩
      symm
      rw [List.map_nil, List.eq_nil_iff_forall_not_mem]
      intro path hmem
      obtain ⟨hchild, hentry⟩ := mem_children_iff.mp hmem
      exact hentry (hnone path hchild)

theorem directory_of_look {sub : Path} {tree : Tree} {present : Bool}
    (h : (if present then lookDir sub tree else .ok false) = .ok true) :
    tree.find? sub = some .directory := by
  cases present with
  | true => exact lookDir_eq_true_iff.mp h
  | false => cases h

/-- What an inspection says of the files. -/
structure Inspected (dir : Path) (tree : Tree) (found : Inspection) : Prop where
  objects : found.objectsPresent = true → tree.find? (objectsDir dir) = some .directory
  staging : found.stagingPresent = true → tree.find? (stagingDir dir) = some .directory
  staged : found.staged.map Prod.fst = children (stagingDir dir) tree
  stored : (found.stored.map Prod.snd).sum = totalSize (objectsDir dir) tree

theorem inspected_of_look {dir : Path} {tree : Tree} {found : Inspection}
    (hobjects : Standing components (objectsDir dir) tree)
    (hstaging : Standing components (stagingDir dir) tree)
    (h : lookInspect components dir tree = .ok found) : Inspected dir tree found := by
  simp only [lookInspect, bind_eq_ok_iff] at h
  obtain ⟨present, hpresent, version, _, _, _, objectsPresent, hobjectsPresent, stagingPresent,
    hstagingPresent, staged, hstaged, stored, hstored, hfound⟩ := h
  cases hfound
  constructor
  · intro hfound
    dsimp only at hfound
    rw [hfound] at hobjectsPresent
    exact directory_of_look hobjectsPresent
  · intro hfound
    dsimp only at hfound
    rw [hfound] at hstagingPresent
    exact directory_of_look hstagingPresent
  · exact (listed_of_look hstaging hpresent hstagingPresent hstaged).1
  · exact (listed_of_look hobjects hpresent hobjectsPresent hstored).2

/-! ## Opening -/

theorem length_componentsBelow {stateRoot : Path} {names : List Str} {component : Path}
    (h : component ∈ componentsBelow stateRoot names) :
    component.length ≤ (stateRoot ++ names).length := by
  induction names generalizing stateRoot with
  | nil => cases h
  | cons name rest ih =>
      rcases List.mem_cons.mp h with rfl | h
      · simp
      · have hrest := ih h
        rwa [List.append_assoc] at hrest

/-- The directories that an open store works in. -/
structure Prepared (components : List Path) (dir : Path) (tree : Tree) : Prop where
  components : ∀ component ∈ components, tree.find? component = some .directory
  objects : tree.find? (objectsDir dir) = some .directory
  staging : tree.find? (stagingDir dir) = some .directory

theorem Prepared.keeps {dir : Path} {tree after : Tree} (h : Prepared components dir tree)
    (hkeeps : KeepsDirectories tree after) :
    Prepared components dir after :=
  ⟨fun component hmem => hkeeps _ (h.components component hmem), hkeeps _ h.objects,
    hkeeps _ h.staging⟩

theorem establishes_prepare {stateRoot : Path} {names : List Str} {found : Inspection}
    {dir : Path} (hdir : dir = stateRoot ++ names)
    (hstaged : ∀ file ∈ found.staged, isChild (stagingDir dir) file.1 = true) :
    Establishes (prepare stateRoot (componentsBelow stateRoot names) dir found) (Opened dir)
      fun _ tree =>
        (∀ component ∈ componentsBelow stateRoot names, tree.find? component = some .directory) ∧
        (found.objectsPresent = false → tree.find? (objectsDir dir) = some .directory) ∧
        (found.stagingPresent = false → tree.find? (stagingDir dir) = some .directory) ∧
        ∀ file ∈ found.staged, tree.find? file.1 = none := by
  have hroot : stateRoot.reverse.length ≤ dir.length + 1 := by
    rw [hdir, List.length_reverse, List.length_append]
    omega
  have hcomponents : ∀ component ∈ componentsBelow stateRoot names,
      component.length ≤ dir.length + 1 := by
    intro component hmem
    have hlength := length_componentsBelow hmem
    rw [← hdir] at hlength
    omega
  have hversion : Establishes
      (if found.version = none then translated (writeVersion dir) else return .ok ())
      (Opened dir) fun _ _ => True := by
    split
    · exact establishes_translated (establishes_of_moves moves_writeVersion)
    · exact establishes_pure (Opened.refl dir) fun _ => trivial
  have htrans := Opened.trans dir
  have hrefl := Opened.refl dir
  have hremove := fun (_ : Unit) => establishes_removeStaged hstaged
  have hstaging := fun (_ : Unit) => (establishes_createUnless found.stagingPresent
    (show (stagingDir dir).length ≤ dir.length + 1 by simp [stagingDir])).andThen htrans hrefl
      (fun _ _ _ hmoved h habsent => hmoved.directories _ (h habsent)) hremove
  have hobjects := fun (_ : Unit) => (establishes_createUnless found.objectsPresent
    (show (objectsDir dir).length ≤ dir.length + 1 by simp [objectsDir])).andThen htrans hrefl
      (fun _ _ _ hmoved h habsent => hmoved.directories _ (h habsent)) hstaging
  have hwritten := fun (_ : Unit) => hversion.andThen htrans hrefl (fun _ _ _ _ h => h) hobjects
  have hmissing := fun (_ : Unit) => (establishes_createMissing hcomponents).andThen htrans hrefl
    (fun _ _ _ hmoved h component hmem => hmoved.directories _ (h component hmem)) hwritten
  have hall := (establishes_translated (establishes_of_moves (moves_createDirAll hroot))).andThen
    htrans hrefl (fun _ _ _ _ h => h) hmissing
  apply hall.mono
  intro _ tree h
  obtain ⟨_, _, _, hmade, _, _, _, hmadeObjects, _, hmadeStaging, hremoved⟩ := h
  exact ⟨hmade, hmadeObjects, hmadeStaging, hremoved⟩

structure OpenedStore (descriptor : StateStoreDescriptor) (stateRoot : Path) (tree : Tree)
    (store : FileStateStore) (after : Tree) : Prop where
  dir : store.dir = storeDir descriptor stateRoot
  quota : store.quota = descriptor.quotaBytes
  used : store.used = totalSize (objectsDir store.dir) tree
  prepared : Prepared (componentsBelow stateRoot (segments descriptor)) store.dir after
  cleared : ∀ path, isChild (stagingDir store.dir) path = true → after.find? path = none

/-- What preparing leaves after an inspection. -/
theorem opened_of_prepared {descriptor : StateStoreDescriptor} {stateRoot dir : Path}
    {tree after : Tree} {found : Inspection} (hdir : dir = storeDir descriptor stateRoot)
    (hinspected : Inspected dir tree found) (hmoved : Opened dir tree after)
    (hcomponents : ∀ component ∈ componentsBelow stateRoot (segments descriptor),
      after.find? component = some .directory)
    (hobjects : found.objectsPresent = false → after.find? (objectsDir dir) = some .directory)
    (hstaging : found.stagingPresent = false → after.find? (stagingDir dir) = some .directory)
    (hremoved : ∀ file ∈ found.staged, after.find? file.1 = none) :
    OpenedStore descriptor stateRoot tree
      ⟨dir, descriptor.quotaBytes, (found.stored.map Prod.snd).sum, found.staged.length, 0⟩
      after := by
  refine ⟨hdir, rfl, hinspected.stored, ⟨hcomponents, ?_, ?_⟩, ?_⟩
  · cases hpresent : found.objectsPresent with
    | true => exact hmoved.directories _ (hinspected.objects hpresent)
    | false => exact hobjects hpresent
  · cases hpresent : found.stagingPresent with
    | true => exact hmoved.directories _ (hinspected.staging hpresent)
    | false => exact hstaging hpresent
  · intro path hchild
    by_cases hnone : tree.find? path = none
    · exact hmoved.absent hchild hnone
    · -- what was there was staged, hence removed
      have hmem := mem_children_iff.mpr ⟨hchild, hnone⟩
      rw [← hinspected.staged] at hmem
      obtain ⟨file, hfile, rfl⟩ := List.mem_map.mp hmem
      exact hremoved file hfile

/-- What opening does: the files change as `Opened` says, and a store that is opened counts the
objects and has an empty staging area. -/
theorem ensures_openStore (descriptor : StateStoreDescriptor) (stateRoot : Path) (tree : Tree)
    (hobjects : Standing (componentsBelow stateRoot (segments descriptor))
      (objectsDir (storeDir descriptor stateRoot)) tree)
    (hstaging : Standing (componentsBelow stateRoot (segments descriptor))
      (stagingDir (storeDir descriptor stateRoot)) tree) :
    Ensures (openStore descriptor stateRoot) tree
      (fun answer after => Opened (storeDir descriptor stateRoot) tree after ∧
        ∀ store, answer = .ok store → OpenedStore descriptor stateRoot tree store after)
      (fun after => Opened (storeDir descriptor stateRoot) tree after) := by
  have hrefl := Opened.refl (storeDir descriptor stateRoot)
  unfold openStore
  split
  · apply ensures_pure
    exact ⟨hrefl tree, fun store hstore => by cases hstore⟩
  · dsimp only
    apply Ensures.andThen (((reads_inspect _ _).keeps tree).mono (fun _ _ h => h)
      fun after hsame => by rw [hsame]; exact hrefl tree)
    · intro found same hfound
      obtain ⟨rfl, hlook | ⟨_, herror, _⟩⟩ := hfound
      · have hinspected := inspected_of_look hobjects hstaging hlook.symm
        have hstaged : ∀ file ∈ found.staged,
            isChild (stagingDir (storeDir descriptor stateRoot)) file.1 = true := by
          intro file hfile
          have hmem : file.1 ∈ found.staged.map Prod.fst := List.mem_map_of_mem hfile
          rw [hinspected.staged] at hmem
          exact (mem_children_iff.mp hmem).1
        apply Ensures.andThen ((establishes_prepare rfl hstaged).ensures same)
        · intro _ after hdone
          obtain ⟨hmoved, hprepared⟩ := hdone
          obtain ⟨hcomponents, hmadeObjects, hmadeStaging, hremoved⟩ := hprepared () rfl
          unfold sumLengths
          split
          · apply Ensures.seq
            apply ensures_pure
            apply ensures_pure
            refine ⟨hmoved, ?_⟩
            intro store hstore
            cases hstore
            exact opened_of_prepared rfl hinspected hmoved hcomponents hmadeObjects hmadeStaging
              hremoved
          · exact Ensures.seq (ensures_stop hmoved)
        · intro error after hdone
          exact ⟨hdone.1, fun store hstore => by cases hstore⟩
      · cases herror
    · intro error after hfound
      obtain ⟨rfl, -⟩ := hfound
      exact ⟨hrefl after, fun store hstore => by cases hstore⟩

namespace FileStateStore

/-! ## Getting and verifying -/

/-- What `get` answers. -/
def lookGet (store : FileStateStore) (id : ResultId) (tree : Tree) :
    Except StateStoreError (List UInt8) :=
  lookFile (store.object id) tree >>= fun
    | none => .error .notFound
    | some _ => ofIo (contents (store.object id) tree) >>= fun bytes =>
        if ResultId.sha256 bytes ≠ id then .error .corrupt else .ok bytes

theorem reads_get (store : FileStateStore) (id : ResultId) :
    Reads (store.get id) (store.lookGet id) Faulty := by
  apply (reads_regularFile (store.object id)).andThen
  intro found
  cases found with
  | none => exact reads_pure _
  | some length =>
      exact (reads_translated (contents (store.object id))).andThen fun bytes => reads_pure _

/-- An object is handed out when it is there and its bytes have the digest asked for. -/
theorem lookGet_eq_ok_iff {store : FileStateStore} {id : ResultId} {tree : Tree}
    {bytes : List UInt8} : store.lookGet id tree = .ok bytes ↔
      tree.find? (store.object id) = some (.file bytes) ∧ ResultId.sha256 bytes = id := by
  unfold lookGet lookFile contents
  rcases tree.find? (store.object id) with _ | (stored | _ | _)
  · simp [asRegularFile]
  · simp only [asRegularFile, ofIo, ok_bind, Option.some.injEq, Files.Entry.file.injEq]
    constructor
    · intro h
      split at h
      · cases h
      · rename_i hdigest
        cases h
        exact ⟨rfl, not_not.mp hdigest⟩
    · intro h
      obtain ⟨rfl, hdigest⟩ := h
      rw [if_neg (not_not.mpr hdigest)]
  · simp [asRegularFile, error_bind]
  · simp [asRegularFile, error_bind]

/-- What `verifyAll` answers. -/
def lookVerifyAll (store : FileStateStore) :
    List (Path × ℕ) → Tree → Except StateStoreError Unit
  | [], _ => .ok ()
  | (path, _) :: rest, tree =>
      match identifier path with
      | none => .error .corrupt
      | some id => store.lookGet id tree >>= fun _ => store.lookVerifyAll rest tree

theorem reads_verifyAll (store : FileStateStore) (files : List (Path × ℕ)) :
    Reads (store.verifyAll files) (store.lookVerifyAll files) Faulty := by
  induction files with
  | nil => exact reads_pure _
  | cons file rest ih =>
      have hlook : store.lookVerifyAll (file :: rest) = fun tree => match identifier file.1 with
          | none => .error .corrupt
          | some id => store.lookGet id tree >>= fun _ => store.lookVerifyAll rest tree := rfl
      rw [hlook]
      unfold verifyAll
      cases identifier file.1 with
      | none => exact reads_pure _
      | some id => exact (store.reads_get id).andThen fun _ => ih

/-- What `verify` answers. -/
def lookVerify (store : FileStateStore) (tree : Tree) : Except StateStoreError ℕ :=
  lookFiles (objectsDir store.dir) tree >>= fun objects =>
  store.lookVerifyAll objects tree >>= fun _ => .ok objects.length

theorem reads_verify (store : FileStateStore) : Reads store.verify store.lookVerify Faulty := by
  apply (reads_regularFiles (objectsDir store.dir)).andThen
  intro objects
  exact (store.reads_verifyAll objects).andThen fun _ => reads_pure _

/-! ## Putting -/

/-- What `holds` answers. -/
def lookHolds (path : Path) (bytes : List UInt8) (found : Option ℕ) (tree : Tree) :
    Except StateStoreError Bool :=
  match found with
  | none => .ok false
  | some _ => ofIo (contents path tree) >>= fun stored => .ok (stored = bytes)

theorem reads_holds (path : Path) (bytes : List UInt8) (found : Option ℕ) :
    Reads (holds path bytes found) (lookHolds path bytes found) Faulty := by
  cases found with
  | none => exact reads_pure _
  | some length => exact (reads_translated (contents path)).andThen fun stored => reads_pure _

theorem lookHolds_eq_true {path : Path} {bytes : List UInt8} {found : Option ℕ} {tree : Tree}
    (h : lookHolds path bytes found tree = .ok true) :
    tree.find? path = some (.file bytes) := by
  cases found with
  | none => cases h
  | some length =>
      unfold lookHolds contents at h
      rcases hentry : tree.find? path with _ | (stored | _ | _)
      · simp [hentry, ofIo, error_bind] at h
      · simp only [hentry, ofIo, ok_bind, Except.ok.injEq, decide_eq_true_eq] at h
        rw [h]
      · simp [hentry, ofIo, error_bind] at h
      · simp [hentry, ofIo, error_bind] at h

/-- The usage that `put` has settled on before it writes. -/
structure Planned (store : FileStateStore) (bytes : List UInt8) (tree : Tree) (total : ℕ) :
    Prop where
  within : total ≤ store.quota
  counted : ∃ used, total = used - sizeAt tree (store.object (.sha256 bytes)) + bytes.length ∧
    (tree.find? (store.object (.sha256 bytes)) = none → used = store.used) ∧
    (tree.find? (store.object (.sha256 bytes)) ≠ none →
      used = totalSize (objectsDir store.dir) tree)

theorem ensures_usage (store : FileStateStore) (found : Option ℕ) (tree : Tree) :
    Ensures (store.usage found) tree
      (fun answer after => after = tree ∧ ∀ used, answer = .ok used →
        (found = none → used = store.used) ∧
        (found ≠ none → used = totalSize (objectsDir store.dir) tree))
      (fun after => after = tree) := by
  cases found with
  | none =>
      apply ensures_pure
      refine ⟨rfl, ?_⟩
      intro used hused
      cases hused
      exact ⟨fun _ => rfl, fun hne => absurd rfl hne⟩
  | some length =>
      apply Ensures.andThen ((reads_regularFiles (objectsDir store.dir)).keeps tree)
      · intro files same hfiles
        obtain ⟨rfl, hlook | ⟨_, herror, _⟩⟩ := hfiles
        · unfold sumLengths
          split
          · apply Ensures.seq
            apply ensures_pure
            apply ensures_pure
            refine ⟨rfl, ?_⟩
            intro used hused
            cases hused
            exact ⟨fun hnone => (nomatch hnone), fun _ => (lookFiles_eq_ok hlook.symm).2⟩
          · exact Ensures.seq (ensures_stop rfl)
        · cases herror
      · intro error same hfiles
        exact ⟨hfiles.1, fun used hused => by cases hused⟩

theorem planned_of_admitted {store : FileStateStore} {bytes : List UInt8} {tree : Tree}
    {used total : ℕ} {found : Option ℕ}
    (hfound : lookFile (store.object (.sha256 bytes)) tree = .ok found)
    (hnone : found = none → used = store.used)
    (hsome : found ≠ none → used = totalSize (objectsDir store.dir) tree)
    (h : store.admitted used found bytes = .ok total) : store.Planned bytes tree total := by
  obtain ⟨hsize, habsent⟩ := lookFile_eq_ok hfound
  unfold admitted at h
  dsimp only at h
  split at h
  · rename_i hfits
    cases h
    refine ⟨hfits.2, used, by rw [sizeAt, hsize], ?_, ?_⟩
    · intro hentry
      apply hnone
      rw [← hsize, hentry]
      rfl
    · intro hentry
      apply hsome
      intro hfound
      exact hentry (habsent hfound)
  · cases h

theorem ensures_plan (store : FileStateStore) (bytes : List UInt8) (tree : Tree) :
    Ensures (store.plan bytes) tree
      (fun answer after => after = tree ∧
        (answer = .ok none → tree.find? (store.object (.sha256 bytes)) = some (.file bytes)) ∧
        ∀ total, answer = .ok (some total) → store.Planned bytes tree total)
      (fun after => after = tree) := by
  have herror (error : StateStoreError) (after : Tree) (hsame : after = tree) :
      after = tree ∧
        ((.error error : Except StateStoreError (Option ℕ)) = .ok none →
          tree.find? (store.object (.sha256 bytes)) = some (.file bytes)) ∧
        ∀ total, (.error error : Except StateStoreError (Option ℕ)) = .ok (some total) →
          store.Planned bytes tree total :=
    ⟨hsame, fun h => (nomatch h), fun _ h => (nomatch h)⟩
  unfold plan
  split
  · exact ensures_pure (herror _ _ rfl)
  · dsimp only
    apply Ensures.andThen ((reads_regularFile _).keeps tree)
    · intro found same hfound
      obtain ⟨rfl, hfound | ⟨_, hfaulty, _⟩⟩ := hfound
      · apply Ensures.andThen ((reads_holds _ bytes found).keeps same)
        · intro intact same' hintact
          obtain ⟨rfl, hintact | ⟨_, hfaulty, _⟩⟩ := hintact
          · cases intact with
            | true =>
                apply ensures_pure
                exact ⟨rfl, fun _ => lookHolds_eq_true hintact.symm, fun _ h => (nomatch h)⟩
            | false =>
                apply Ensures.andThen (store.ensures_usage found same')
                · intro used same'' hused
                  obtain ⟨rfl, hused⟩ := hused
                  obtain ⟨hnone, hsome⟩ := hused used rfl
                  apply ensures_pure
                  cases hadmitted : store.admitted used found bytes with
                  | error error => exact herror error _ rfl
                  | ok total =>
                      refine ⟨rfl, fun h => (nomatch h), ?_⟩
                      intro total' htotal
                      cases htotal
                      exact planned_of_admitted hfound.symm hnone hsome hadmitted
                · intro error same'' hused
                  exact herror error _ hused.1
          · cases hfaulty
        · intro error same' hintact
          exact herror error _ hintact.1
      · cases hfaulty
    · intro error same hfound
      exact herror error _ hfound.1

/-- A published file has all its bytes; one that is not published has left the other paths as they
were. -/
theorem ensures_publish (temp path : Path) (bytes : List UInt8) (tree : Tree) :
    Ensures (publish temp path bytes) tree
      (fun answer after => (answer = .ok () ∧
          AgreesBeside temp (tree.insert path (.file bytes)) after) ∨
        ∃ error, answer = .error error ∧ AgreesBeside temp tree after)
      (fun after => AgreesBeside temp tree after) := by
  apply Ensures.andThen ((ensures_change_cases _ tree).mono (fun _ _ h => h)
    fun after hsame => by rw [hsame]; exact AgreesBeside.refl temp tree)
  · intro _ first hcreated
    rcases hcreated with ⟨-, hcreated⟩ | ⟨_, herror, _⟩
    · obtain ⟨-, rfl⟩ := created_eq_ok hcreated
      have hfilled (content : List UInt8) : filled temp content (tree.insert temp (.file [])) =
          (tree.insert temp (.file [])).insert temp (.file content) := by
        rw [filled, find?_insert_self]
      have hbeside (content : List UInt8) :
          AgreesBeside temp tree (filled temp content (tree.insert temp (.file []))) :=
        (AgreesBeside.insert temp tree _).trans (AgreesBeside.filled temp content _)
      apply Ensures.andThen (Q := fun answer after => AgreesBeside temp tree after ∧
        (answer = .ok () → after.find? temp = some (.file bytes)))
      · refine ensures_call ⟨hbeside bytes, ?_⟩ ?_ ?_
        · intro _
          rw [hfilled, find?_insert_self]
        · exact fun _ landed _ => ⟨hbeside _, fun h => by cases h⟩
        · exact fun landed => hbeside _
      · intro _ second hwritten
        obtain ⟨hsecond, hwritten⟩ := hwritten
        have hstaged := hwritten rfl
        apply Ensures.andThen (Q := fun _ after => after = second)
        · exact ensures_query rfl (fun _ _ => rfl) hsecond
        · intro _ third hthird
          subst hthird
          apply (ensures_change_cases (renamed temp path) third).mono
          · intro answer after hrenamed
            rcases hrenamed with ⟨hok, hrenamed⟩ | ⟨error, herror, hsame⟩
            · obtain ⟨entry, hentry, -, -, rfl⟩ := renamed_eq_ok hrenamed
              rw [hstaged] at hentry
              cases hentry
              exact .inl ⟨hok, (hsecond.trans (AgreesBeside.erase temp third)).insert_both path _⟩
            · rw [hsame]
              exact .inr ⟨error, herror, hsecond⟩
          · intro after hsame
            rw [hsame]
            exact hsecond
        · intro error third hthird
          rw [hthird]
          exact .inr ⟨error, rfl, hsecond⟩
      · intro error second hwritten
        exact .inr ⟨error, rfl, hwritten.1⟩
    · cases herror
  · intro error first hcreated
    rcases hcreated with ⟨hok, -⟩ | ⟨_, -, hsame⟩
    · cases hok
    · rw [hsame]
      exact .inr ⟨error, rfl, AgreesBeside.refl temp tree⟩

theorem moves_publish (temp path : Path) (bytes : List UInt8) :
    Moves (publish temp path bytes) KeepsDirectories := by
  have hfilled (content : List UInt8) (tree : Tree) :
      KeepsDirectories tree (filled temp content tree) := by
    rcases filled_cases temp content tree with ⟨old, hfile, hfilled⟩ | hfilled
    · rw [hfilled]
      exact .insert (by simp [hfile]) _
    · rw [hfilled]
      exact .refl tree
  apply Moves.andThen KeepsDirectories.trans KeepsDirectories.refl
  · apply moves_change KeepsDirectories.refl
    intro tree after hcreated
    obtain ⟨hnone, rfl⟩ := created_eq_ok hcreated
    exact .insert (by simp [hnone]) _
  · intro _
    apply Moves.andThen KeepsDirectories.trans KeepsDirectories.refl
    · exact moves_call (hfilled bytes) fun landed => hfilled _
    · intro _
      apply Moves.andThen KeepsDirectories.trans KeepsDirectories.refl
      · exact moves_query KeepsDirectories.refl _
      · intro _
        apply moves_change KeepsDirectories.refl
        intro tree after hrenamed
        obtain ⟨entry, hsource, hentry, hdestination, rfl⟩ := renamed_eq_ok hrenamed
        have hdirectory : tree.find? temp ≠ some .directory := by
          rw [hsource]
          exact fun h => hentry (Option.some.inj h)
        apply (KeepsDirectories.erase hdirectory).trans
        apply KeepsDirectories.insert
        rw [find?_erase]
        split
        · simp
        · exact hdestination

/-- What a put answers and leaves behind. -/
inductive PutOutcome (store : FileStateStore) (bytes : List UInt8) (tree : Tree) :
    Except StateStoreError ResultId → FileStateStore → Tree → Prop
  | refused (error : StateStoreError) (count : ℕ) {after : Tree}
      (h : AgreesBeside (store.temp (.sha256 bytes)) tree after) :
      PutOutcome store bytes tree (.error error) { store with nextTemp := count } after
  | intact (h : tree.find? (store.object (.sha256 bytes)) = some (.file bytes)) :
      PutOutcome store bytes tree (.ok (.sha256 bytes)) store tree
  | stored (total count : ℕ) {after : Tree} (hplanned : store.Planned bytes tree total)
      (h : AgreesBeside (store.temp (.sha256 bytes))
        (tree.insert (store.object (.sha256 bytes)) (.file bytes)) after) :
      PutOutcome store bytes tree (.ok (.sha256 bytes))
        { store with nextTemp := count, used := total } after

theorem object_ne_temp {store : FileStateStore} {id : ResultId} {path : Path}
    (h : isChild (objectsDir store.dir) path = true) : path ≠ store.temp id := by
  intro hsame
  obtain ⟨name, rfl⟩ := isChild_iff.mp h
  have hdirs := congrArg List.dropLast hsame
  simp [temp, objectsDir, stagingDir] at hdirs

theorem ensures_put (store : FileStateStore) (bytes : List UInt8) (tree : Tree) :
    Ensures (store.put bytes) tree
      (fun answer after => PutOutcome store bytes tree answer.1 answer.2 after ∧
        KeepsDirectories tree after)
      (fun after => AgreesBeside (store.temp (.sha256 bytes)) tree after ∧
        KeepsDirectories tree after) := by
  have hrefl := KeepsDirectories.refl tree
  have hsame := AgreesBeside.refl (store.temp (.sha256 bytes)) tree
  unfold put
  dsimp only
  apply Ensures.bind ((store.ensures_plan bytes tree).mono (fun _ _ h => h)
    fun after heq => by rw [heq]; exact ⟨hsame, hrefl⟩)
  intro answer same hplan
  obtain ⟨rfl, hintact, hplanned⟩ := hplan
  rcases answer with error | (_ | total)
  · exact ensures_pure ⟨.refused error store.nextTemp hsame, hrefl⟩
  · exact ensures_pure ⟨.intact (hintact rfl), hrefl⟩
  · apply Ensures.bind ((ensures_publish _ _ bytes same).along (moves_publish _ _ bytes))
    intro written after hwritten
    obtain ⟨⟨rfl, hstored⟩ | ⟨error, rfl, hbeside⟩, hkeeps⟩ := hwritten
    · exact ensures_pure ⟨.stored total _ (hplanned total rfl) hstored, hkeeps⟩
    · apply Ensures.bind ((ensures_change_cases _ after).mono (fun _ _ h => h)
        fun after' heq => by rw [heq]; exact ⟨hbeside, hkeeps⟩)
      intro _ after' hremoved
      apply ensures_pure
      rcases hremoved with ⟨-, hremoved⟩ | ⟨_, -, rfl⟩
      · obtain ⟨hdirectory, rfl⟩ := removed_eq_ok hremoved
        exact ⟨.refused _ _ (hbeside.trans (AgreesBeside.erase _ after)),
          hkeeps.trans _ _ _ (.erase hdirectory)⟩
      · exact ⟨.refused _ _ hbeside, hkeeps⟩

end FileStateStore

end Bran.Database
