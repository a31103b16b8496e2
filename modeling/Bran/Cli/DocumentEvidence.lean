import Bran.Document.Projection
import Bran.Scan.WalkFiles

/-!
# Document discovery

The documents that a query reports are found by a walk of its own, over a stack of directories and
with a matcher of its own.
-/

namespace Bran.Cli

open Text Validation DirTree Scan List
open Except (ok.inj)
open Prod (mk.inj)
open Document (Format)

def maxDocumentFiles : ℕ := 64

def maxDepth : ℕ := 64

/-- `Format::ALL`. -/
def allFormats : List Format := [.docx, .xlsx, .pptx, .pdf]

def formatForPath (path : Str) : Option Format :=
  match rsplitOnce '.' path with
  | none => none
  | some (_, extension) =>
      if extension = [] ∨ '/' ∈ extension then none
      else allFormats.find? fun format =>
        toAsciiLowercase format.extension.toList = toAsciiLowercase extension

/-! ## The matcher -/

def readIgnoreFile (root : Root) (name : Str) : List UInt8 :=
  match entryNamed name root with
  | some (.file data) => if data.length > maxBranignoreBytes then [] else data
  | _ => []

/-- The rules of the root ignore files. -/
def rulesFor (root : Root) : IgnoreMatcher :=
  match IgnoreMatcher.fromBranignore (readIgnoreFile root branignoreFilename) with
  | .ok matcher => matcher
  | .error _ =>
      match IgnoreMatcher.fromOkfignore (readIgnoreFile root legacyOkfignoreFilename) with
      | .ok matcher => matcher
      | .error _ => .default

def matcherFor (root : Root) : IgnoreMatcher :=
  (rulesFor root).addGitignore (readIgnoreFile root gitignoreFilename)

/-! ## The walk -/

/-- A directory on the stack: its entries, its path and its depth. -/
abbrev Pending := List (Str × RepoItem) × Str × ℕ

/-- A document with its format. -/
abbrev Listed := Str × Format

/-- One entry of the directory that was popped. -/
def visitEntry (matcher : IgnoreMatcher) (directory : Str) (depth : ℕ)
    (state : List Pending × List Listed) (entry : Str × RepoItem) : List Pending × List Listed :=
  let relative := joinRelative directory entry.1
  if matcher.isIgnoredRelative relative then state
  else
    match entry.2 with
    | .directory entries => ((entries, relative, depth + 1) :: state.1, state.2)
    | .file _ =>
        match formatForPath relative with
        | some format => (state.1, state.2 ++ [(relative, format)])
        | none => state
    | _ => state

/-- The loop over the stack, for so many directories. -/
def discoverLoop (matcher : IgnoreMatcher) : ℕ → List Pending → List Listed → Option (List Listed)
  | _, [], found => some found
  | 0, _ :: _, _ => none
  | fuel + 1, (entries, directory, depth) :: stack, found =>
      if depth > maxDepth then discoverLoop matcher fuel stack found
      else
        let state := entries.foldl (visitEntry matcher directory depth) (stack, found)
        discoverLoop matcher fuel state.1 state.2

/-- The order of the documents. -/
def listedKey (listed : Listed) : Str ×ₗ ℕ := toLex (listed.1, allFormats.idxOf listed.2)

/-- `discover`: the documents that are kept, and how many are not. -/
def discover (root : Root) : Option (List Listed × ℕ) :=
  (discoverLoop (matcherFor root) (directoriesIn root + 1) [(root, [], 0)] []).map fun found =>
    ((sortBy listedKey found).take maxDocumentFiles, found.length - maxDocumentFiles)

/-! ## What the loop finds -/

/-- The documents among files. -/
def documentsOf (files : List (Str × List UInt8)) : List Listed :=
  files.filterMap fun file => (formatForPath file.1).map fun format => (file.1, format)

theorem documentsOf_append (first second : List (Str × List UInt8)) :
    documentsOf (first ++ second) = documentsOf first ++ documentsOf second :=
  filterMap_append

section Loop

variable (matcher : IgnoreMatcher)

/-- The documents that are still to be found below a stack. -/
def documentsBelow (stack : List Pending) : List Listed :=
  stack.flatMap fun pending =>
    documentsOf (reached joinRelative matcher.isIgnoredRelative pending.2.1 pending.1)

/-- The directories that are still to be popped. -/
def directoriesLeft (stack : List Pending) : ℕ :=
  (stack.map fun pending => directoriesIn pending.1 + 1).sum

/-- No directory below a stack is too deep. -/
def Shallow (stack : List Pending) : Prop :=
  ∀ pending ∈ stack, pending.2.2 + heightIn pending.1 ≤ maxDepth

variable {matcher}

theorem append_right_comm {α : Type} (first second third : List α) :
    (first ++ second ++ third).Perm (first ++ third ++ second) := by
  rw [append_assoc, append_assoc]
  exact perm_append_comm.append_left first

/-- One entry: what was found and what is left make up the same documents. -/
theorem visitEntry_spec {directory : Str} {depth : ℕ} (entry : Str × RepoItem)
    (hheight : depth + heightIn [entry] ≤ maxDepth) {stack : List Pending}
    (found : List Listed) (hshallow : Shallow stack) :
    let state := visitEntry matcher directory depth (stack, found) entry
    (state.2 ++ documentsBelow matcher state.1).Perm
        (found ++ documentsOf (reached joinRelative matcher.isIgnoredRelative directory [entry]) ++
          documentsBelow matcher stack) ∧
      directoriesLeft state.1 ≤ directoriesIn [entry] + directoriesLeft stack ∧
      Shallow state.1 := by
  obtain ⟨name, item⟩ := entry
  have hreached : reached joinRelative matcher.isIgnoredRelative directory [(name, item)] =
      if matcher.isIgnoredRelative (joinRelative directory name) then [] else
        reachedItem joinRelative matcher.isIgnoredRelative (joinRelative directory name) item := by
    rw [reached, reached, append_nil]
  rw [hreached, visitEntry]
  split_ifs with hignored
  · refine ⟨?_, Nat.le_add_left _ _, hshallow⟩
    rw [documentsOf, filterMap_nil, append_nil]
  · cases item with
    | symlink | other =>
        refine ⟨?_, Nat.le_add_left _ _, hshallow⟩
        rw [reachedItem, documentsOf, filterMap_nil, append_nil]
    | file data =>
        rw [reachedItem, documentsOf, filterMap_cons, filterMap_nil]
        dsimp only
        cases formatForPath (joinRelative directory name) with
        | none => exact ⟨by rw [Option.map_none, append_nil], Nat.le_add_left _ _, hshallow⟩
        | some format => exact ⟨List.Perm.refl _, Nat.le_add_left _ _, hshallow⟩
    | directory entries =>
        have hbelow : heightIn [(name, (.directory entries : RepoItem))] = heightIn entries + 1 := by
          simp [heightIn, heightItem]
        refine ⟨?_, ?_, forall_mem_cons.mpr ⟨?_, hshallow⟩⟩
        · rw [reachedItem, documentsBelow, flatMap_cons, ← append_assoc]
          exact List.Perm.refl _
        · have hcount : directoriesIn [(name, (.directory entries : RepoItem))] =
              directoriesIn entries + 1 := by
            simp [directoriesIn, directoriesItem]
          rw [hcount, directoriesLeft, map_cons, sum_cons]
          exact Nat.le_refl _
        · show depth + 1 + heightIn entries ≤ maxDepth
          omega

/-- The entries of a directory, by induction over the loop. -/
theorem visitEntries_spec {directory : Str} {depth : ℕ} (entries : List (Str × RepoItem))
    (hheight : depth + heightIn entries ≤ maxDepth) {stack : List Pending} (found : List Listed)
    (hshallow : Shallow stack) :
    let state := entries.foldl (visitEntry matcher directory depth) (stack, found)
    (state.2 ++ documentsBelow matcher state.1).Perm
        (found ++ documentsOf (reached joinRelative matcher.isIgnoredRelative directory entries) ++
          documentsBelow matcher stack) ∧
      directoriesLeft state.1 ≤ directoriesIn entries + directoriesLeft stack ∧
      Shallow state.1 := by
  induction entries generalizing stack found with
  | nil =>
      refine ⟨?_, Nat.le_add_left _ _, hshallow⟩
      rw [reached, documentsOf, filterMap_nil, append_nil]
      exact List.Perm.refl _
  | cons entry rest ih =>
      rw [heightIn_cons] at hheight
      obtain ⟨hperm, hleft, hbelow⟩ :=
        @visitEntry_spec matcher directory depth entry (by omega) stack found hshallow
      obtain ⟨hperm', hleft', hbelow'⟩ := ih (by omega)
        (visitEntry matcher directory depth (stack, found) entry).2 hbelow
      refine ⟨?_, ?_, hbelow'⟩
      · have hsplit : reached joinRelative matcher.isIgnoredRelative directory (entry :: rest) =
            reached joinRelative matcher.isIgnoredRelative directory [entry] ++
              reached joinRelative matcher.isIgnoredRelative directory rest := by
          obtain ⟨name, item⟩ := entry
          rw [reached, reached, reached, append_nil]
        rw [hsplit, documentsOf_append, ← append_assoc]
        exact hperm'.trans ((append_right_comm _ _ _).trans
          ((hperm.append_right _).trans (append_right_comm _ _ _)))
      · rw [directoriesIn_cons]
        refine hleft'.trans ?_
        omega

/-- With enough steps the loop finds the documents below its stack. -/
theorem discoverLoop_spec (fuel : ℕ) {stack : List Pending} (found : List Listed)
    (hfuel : directoriesLeft stack ≤ fuel) (hshallow : Shallow stack) :
    ∃ listed, discoverLoop matcher fuel stack found = some listed ∧
      listed.Perm (found ++ documentsBelow matcher stack) := by
  induction fuel generalizing stack found with
  | zero =>
      cases stack with
      | nil => exact ⟨found, rfl, by rw [documentsBelow, flatMap_nil, append_nil]⟩
      | cons pending stack =>
          rw [directoriesLeft, map_cons, sum_cons] at hfuel
          omega
  | succ fuel ih =>
      cases stack with
      | nil => exact ⟨found, rfl, by rw [documentsBelow, flatMap_nil, append_nil]⟩
      | cons pending stack =>
          obtain ⟨entries, directory, depth⟩ := pending
          obtain ⟨hheight, hstack⟩ := forall_mem_cons.mp hshallow
          rw [directoriesLeft, map_cons, sum_cons] at hfuel
          obtain ⟨hperm, hleft, hbelow⟩ := visitEntries_spec entries hheight found hstack
          have hdepth : ¬ depth > maxDepth := by
            have hle : depth + heightIn entries ≤ maxDepth := hheight
            omega
          have hfuel : directoriesLeft stack + directoriesIn entries ≤ fuel := by
            have hle : directoriesIn entries + 1 + directoriesLeft stack ≤ fuel + 1 := hfuel
            omega
          obtain ⟨listed, hlisted, hall⟩ := ih _ (hleft.trans (by omega)) hbelow
          refine ⟨listed, ?_, ?_⟩
          · rw [discoverLoop, if_neg hdepth]
            exact hlisted
          · rw [documentsBelow, flatMap_cons, ← append_assoc]
            exact hall.trans hperm

end Loop

/-! ## What discovery lists -/

theorem mem_documentsOf_iff {files : List (Str × List UInt8)} {path : Str} {format : Format} :
    (path, format) ∈ documentsOf files ↔
      formatForPath path = some format ∧ ∃ data, (path, data) ∈ files := by
  rw [documentsOf, mem_filterMap]
  constructor
  · rintro ⟨⟨other, data⟩, hmem, hformat⟩
    obtain ⟨found, hfound, heq⟩ := Option.map_eq_some_iff.mp hformat
    obtain ⟨rfl, rfl⟩ := mk.inj heq
    exact ⟨hfound, data, hmem⟩
  · rintro ⟨hformat, data, hmem⟩
    exact ⟨(path, data), hmem, by rw [hformat]; rfl⟩

theorem map_fst_documentsOf (files : List (Str × List UInt8)) :
    ((documentsOf files).map Prod.fst).Sublist (files.map Prod.fst) := by
  induction files with
  | nil => exact List.Sublist.slnil
  | cons file rest ih =>
      rw [documentsOf, filterMap_cons]
      cases formatForPath file.1 with
      | none => exact ih.cons _
      | some format => exact ih.cons_cons _

/-- The documents of a root directory, whatever the ignore files say. -/
def allDocuments (root : Root) : List Listed :=
  documentsOf (reached joinRelative (fun _ => false) [] root)

/-- Within its bounds discovery lists the documents that its matcher leaves. -/
theorem discover_spec {root : Root} (hwf : WellFormed IsName (.directory root))
    (hheight : heightIn root ≤ maxDepth) (hcount : (allDocuments root).length ≤ maxDocumentFiles) :
    ∃ files, discover root = some (files, 0) ∧ ∀ path, path ∈ files.map Prod.fst ↔
      formatForPath path ≠ none ∧
        ∃ data, (path, data) ∈ reached joinRelative (matcherFor root).isIgnoredRelative [] root := by
  have hshallow : Shallow [(root, ([] : Str), 0)] :=
    forall_mem_singleton.mpr (by rw [Nat.zero_add]; exact hheight)
  obtain ⟨listed, hloop, hperm⟩ := @discoverLoop_spec (matcherFor root) (directoriesIn root + 1)
    [(root, [], 0)] [] (Nat.le_refl _) hshallow
  have hbelow : documentsBelow (matcherFor root) [(root, [], 0)] =
      documentsOf (reached joinRelative (matcherFor root).isIgnoredRelative [] root) := by
    rw [documentsBelow, flatMap_cons, flatMap_nil, append_nil]
  rw [nil_append, hbelow] at hperm
  have hmem : ∀ path format, (path, format) ∈ listed ↔ formatForPath path = some format ∧
      ∃ data, (path, data) ∈ reached joinRelative (matcherFor root).isIgnoredRelative [] root :=
    fun path format => hperm.mem_iff.trans mem_documentsOf_iff
  have hlength : listed.length ≤ maxDocumentFiles := by
    have hnodup : listed.Nodup := hperm.nodup_iff.mpr
      ((map_fst_documentsOf _).nodup (nodup_reached hwf _)).of_map
    have hsubset : listed ⊆ allDocuments root := by
      rintro ⟨path, format⟩ hlisted
      obtain ⟨hformat, data, hreached⟩ := (hmem path format).mp hlisted
      refine mem_documentsOf_iff.mpr ⟨hformat, data, (mem_reached_iff hwf).mpr ?_⟩
      exact ⟨((mem_reached_iff hwf).mp hreached).1, fun _ _ _ => rfl⟩
    exact (subperm_of_subset hnodup hsubset).length_le.trans hcount
  refine ⟨sortBy listedKey listed, ?_, fun path => ?_⟩
  · rw [discover, hloop, Option.map_some, Nat.sub_eq_zero_of_le hlength, take_of_length_le]
    rw [length_sortBy]
    exact hlength
  · rw [mem_map]
    constructor
    · rintro ⟨⟨other, format⟩, hlisted, rfl⟩
      obtain ⟨hformat, hreached⟩ := (hmem other format).mp (mem_sortBy.mp hlisted)
      exact ⟨hformat.trans_ne (Option.some_ne_none _), hreached⟩
    · rintro ⟨hne, hreached⟩
      obtain ⟨format, hformat⟩ := Option.ne_none_iff_exists'.mp hne
      exact ⟨(path, format), mem_sortBy.mpr ((hmem path format).mpr ⟨hformat, hreached⟩), rfl⟩

/-! ## The two matchers -/

/-- Whether the rules of a legacy ignore file that stands alone hide a path. -/
def legacyIgnores (root : Root) (path : Str) : Bool :=
  match entryNamed branignoreFilename root, entryNamed legacyOkfignoreFilename root with
  | none, some (.file data) =>
      match IgnoreMatcher.fromOkfignore data with
      | .ok matcher => matcher.isIgnoredRelative path
      | .error _ => false
  | _, _ => false

theorem addGitignore_nil (matcher : IgnoreMatcher) : matcher.addGitignore [] = matcher := by
  have hread : fromUtf8 [] = some [] := by decide
  rw [IgnoreMatcher.addGitignore, hread]
  show { matcher with gitRules := matcher.gitRules ++ (lines []).filterMap _ } = matcher
  rw [show lines [] = [] from rfl, filterMap_nil, append_nil]

theorem gitRules_of_fromBranignore {data : List UInt8} {matcher : IgnoreMatcher}
    (h : IgnoreMatcher.fromBranignore data = .ok matcher) : matcher.gitRules = [] := by
  obtain ⟨_, htext⟩ := check_bind_eq_ok_iff.mp h
  cases hread : fromUtf8 data with
  | none =>
      rw [hread] at htext
      cases htext
  | some text =>
      rw [hread] at htext
      obtain ⟨rules, _, hmatcher⟩ := bind_eq_ok_iff.mp htext
      rw [← ok.inj hmatcher]

/-- The rules of a `.gitignore` add to those that are there. -/
theorem isIgnoredRelative_addGitignore {matcher : IgnoreMatcher} (h : matcher.gitRules = [])
    (data : List UInt8) (path : Str) :
    (matcher.addGitignore data).isIgnoredRelative path =
      ((IgnoreMatcher.default.addGitignore data).isIgnoredRelative path ||
        matcher.isIgnoredRelative path) := by
  obtain ⟨rules, gitRules⟩ := matcher
  obtain rfl : gitRules = [] := h
  have hrules : ∀ git : List GitRule, ∃ builtin hidden : Bool, ∃ named : Bool,
      (⟨rules, git⟩ : IgnoreMatcher).isIgnoredRelative path = (builtin || (named || hidden)) ∧
      (⟨[], git⟩ : IgnoreMatcher).isIgnoredRelative path = (builtin || (false || hidden)) ∧
      (⟨rules, []⟩ : IgnoreMatcher).isIgnoredRelative path = (builtin || (named || false)) :=
    fun git => ⟨_, _, _, rfl, rfl, rfl⟩
  rw [IgnoreMatcher.addGitignore, IgnoreMatcher.addGitignore]
  cases fromUtf8 data with
  | none =>
      obtain ⟨builtin, hidden, named, hall, hgit, hown⟩ := hrules []
      dsimp only
      rw [IgnoreMatcher.default, hgit, hall]
      cases builtin <;> cases hidden <;> cases named <;> rfl
  | some text =>
      obtain ⟨builtin, hidden, named, hall, hgit, hown⟩ :=
        hrules ([] ++ (lines text).filterMap IgnoreMatcher.gitRule)
      dsimp only
      rw [IgnoreMatcher.default, hgit, hall, hown]
      cases builtin <;> cases hidden <;> cases named <;> rfl

theorem fromBranignore_nil : IgnoreMatcher.fromBranignore [] = .ok .default := rfl

/-- The scanner ignores what discovery ignores and what a legacy file that stands alone hides. -/
theorem isIgnoredRelative_of_readIgnore {root : Root} {matcher : IgnoreMatcher}
    {ignore : ContentIdentity} (h : readIgnore root = .ok (matcher, ignore)) (path : Str) :
    matcher.isIgnoredRelative path =
      ((matcherFor root).isIgnoredRelative path || legacyIgnores root path) := by
  rw [readIgnore] at h
  obtain ⟨⟨configured, input⟩, hconfigured, hgit⟩ := bind_eq_ok_iff.mp h
  -- both read the same `.gitignore`
  have hmatcher : matcher = configured.addGitignore (readIgnoreFile root gitignoreFilename) := by
    rw [readIgnoreFile]
    dsimp only at hgit
    cases hentry : entryNamed gitignoreFilename root with
    | none =>
        rw [hentry] at hgit
        rw [addGitignore_nil]
        exact (mk.inj (ok.inj hgit)).1.symm
    | some item =>
        rw [hentry] at hgit
        cases item with
        | file data =>
            dsimp only at hgit ⊢
            split_ifs at hgit ⊢
            · rw [addGitignore_nil]
              exact (mk.inj (ok.inj hgit)).1.symm
            · exact (mk.inj (ok.inj hgit)).1.symm
        | directory entries | symlink | other =>
            rw [addGitignore_nil]
            exact (mk.inj (ok.inj hgit)).1.symm
  rw [readConfigured, configuredIgnore] at hconfigured
  rw [matcherFor, rulesFor, legacyIgnores, readIgnoreFile, hmatcher]
  cases hnative : entryNamed branignoreFilename root with
  | some item =>
      rw [hnative] at hconfigured
      cases item with
      | file data =>
          obtain ⟨hlength, hparsed⟩ := check_bind_eq_ok_iff.mp hconfigured
          obtain ⟨parsed, hrules, hpair⟩ := bind_eq_ok_iff.mp hparsed
          obtain rfl := (mk.inj (ok.inj hpair)).1
          dsimp only
          rw [if_neg (failIf_eq_ok_iff.mp hlength), mapError_eq_ok_iff.mp hrules, Bool.or_false]
      | directory entries | symlink | other => cases hconfigured
  | none =>
      rw [hnative] at hconfigured
      dsimp only
      rw [fromBranignore_nil]
      cases hlegacy : entryNamed legacyOkfignoreFilename root with
      | none =>
          rw [hlegacy] at hconfigured
          obtain rfl := (mk.inj (ok.inj hconfigured)).1
          exact (Bool.or_false _).symm
      | some item =>
          rw [hlegacy] at hconfigured
          cases item with
          | file data =>
              obtain ⟨_, hparsed⟩ := check_bind_eq_ok_iff.mp hconfigured
              obtain ⟨parsed, hrules, hpair⟩ := bind_eq_ok_iff.mp hparsed
              obtain rfl := (mk.inj (ok.inj hpair)).1
              have hrules := mapError_eq_ok_iff.mp hrules
              dsimp only
              rw [IgnoreMatcher.fromOkfignore, hrules]
              exact isIgnoredRelative_addGitignore (gitRules_of_fromBranignore hrules) _ _
          | directory entries | symlink | other => cases hconfigured

/-- What the scanner passes over and discovery does not: the names of the ignore files in the root
directory, and what a legacy ignore file that stands alone hides. -/
def passedOver (root : Root) (path : Str) : Bool :=
  isIgnoreControlPath path || legacyIgnores root path

/-- Discovery lists the documents that a scan reaches exactly when it reaches none below a name that
only the scanner passes over. -/
theorem discover_agrees_iff {root : Root} {matcher : IgnoreMatcher} {ignore : ContentIdentity}
    (hwf : WellFormed IsName (.directory root)) (hheight : heightIn root ≤ maxDepth)
    (hcount : (allDocuments root).length ≤ maxDocumentFiles)
    (hignore : readIgnore root = .ok (matcher, ignore)) :
    (∃ files omitted, discover root = some (files, omitted) ∧ ∀ path,
        path ∈ files.map Prod.fst ↔ formatForPath path ≠ none ∧
          ∃ data, (path, data) ∈ reached joinRelative (skipped matcher) [] root) ↔
      ∀ path data, fileBelow root path = some data → formatForPath path ≠ none →
        Open joinRelative (matcherFor root).isIgnoredRelative [] (path.splitOn '/') →
        Open joinRelative (passedOver root) [] (path.splitOn '/') := by
  obtain ⟨files, hdiscover, hlisted⟩ := discover_spec hwf hheight hcount
  have hskipped : ∀ path : Str, Open joinRelative (skipped matcher) [] (path.splitOn '/') ↔
      Open joinRelative (matcherFor root).isIgnoredRelative [] (path.splitOn '/') ∧
        Open joinRelative (passedOver root) [] (path.splitOn '/') := by
    intro path
    have hsplit : skipped matcher = fun path =>
        (matcherFor root).isIgnoredRelative path || passedOver root path := by
      funext path
      rw [skipped, passedOver, isIgnoredRelative_of_readIgnore hignore]
      exact Bool.or_left_comm _ _ _
    rw [hsplit, open_or_iff]
  constructor
  · rintro ⟨files', omitted, hdiscover', hagrees⟩ path data hfile hformat hopen
    obtain rfl := (Prod.mk.inj (Option.some.inj (hdiscover.symm.trans hdiscover'))).1
    have hfound := (hlisted path).mpr ⟨hformat, data, (mem_reached_iff hwf).mpr ⟨hfile, hopen⟩⟩
    obtain ⟨_, _, hreached⟩ := (hagrees path).mp hfound
    exact ((hskipped path).mp ((mem_reached_iff hwf).mp hreached).2).2
  · intro hclear
    refine ⟨files, 0, hdiscover, fun path => (hlisted path).trans ?_⟩
    refine and_congr_right fun hformat => exists_congr fun data => ?_
    rw [mem_reached_iff hwf, mem_reached_iff hwf, hskipped]
    exact and_congr_right fun hfile =>
      ⟨fun hopen => ⟨hopen, hclear path data hfile hformat hopen⟩, And.left⟩

/-! ### A legacy ignore file that stands alone -/

/-- A legacy ignore file with a rule for a directory, and a document under a name. -/
def legacyRoot (directory : Str) : Root :=
  [(".okfignore".toList, .file (bytes "private".toList)),
    (directory, .directory [("a.docx".toList, .file [])])]

theorem wellFormed_legacyRoot {directory : Str} (hname : IsName directory)
    (hne : ".okfignore".toList ≠ directory) :
    WellFormed IsName (.directory (legacyRoot directory)) := by
  refine .directory _ (nodup_cons.mpr ⟨?_, nodup_singleton _⟩) ?_ ?_
  · exact fun hmem => hne (mem_singleton.mp hmem)
  · exact forall_mem_cons.mpr ⟨by decide, forall_mem_singleton.mpr hname⟩
  · refine forall_mem_cons.mpr ⟨.file _, forall_mem_singleton.mpr ?_⟩
    exact .directory _ (nodup_singleton _) (forall_mem_singleton.mpr (by decide))
      (forall_mem_singleton.mpr (.file _))

/-- A document that the legacy rules leave alone. -/
theorem discover_agrees_iff_public :
    ∃ matcher ignore, readIgnore (legacyRoot "public".toList) = .ok (matcher, ignore) ∧
      ((∃ files omitted, discover (legacyRoot "public".toList) = some (files, omitted) ∧ ∀ path,
          path ∈ files.map Prod.fst ↔ formatForPath path ≠ none ∧ ∃ data, (path, data) ∈
            reached joinRelative (skipped matcher) [] (legacyRoot "public".toList)) ↔
        ∀ path data, fileBelow (legacyRoot "public".toList) path = some data →
          formatForPath path ≠ none →
          Open joinRelative (matcherFor (legacyRoot "public".toList)).isIgnoredRelative []
            (path.splitOn '/') →
          Open joinRelative (passedOver (legacyRoot "public".toList)) [] (path.splitOn '/')) :=
  ⟨_, _, rfl, discover_agrees_iff (wellFormed_legacyRoot (by decide) (by decide)) (by decide)
    (by decide) rfl⟩

/-- A document that the scanner passes over is listed. -/
theorem not_discover_agrees_private :
    ∃ matcher ignore,
      WellFormed IsName (.directory (legacyRoot "private".toList)) ∧
      heightIn (legacyRoot "private".toList) ≤ maxDepth ∧
      (allDocuments (legacyRoot "private".toList)).length ≤ maxDocumentFiles ∧
      readIgnore (legacyRoot "private".toList) = .ok (matcher, ignore) ∧
      ¬ ∃ files omitted, discover (legacyRoot "private".toList) = some (files, omitted) ∧
        ∀ path, path ∈ files.map Prod.fst ↔ formatForPath path ≠ none ∧ ∃ data, (path, data) ∈
          reached joinRelative (skipped matcher) [] (legacyRoot "private".toList) := by
  refine ⟨_, _, wellFormed_legacyRoot (by decide) (by decide), by decide, by decide, rfl, ?_⟩
  rintro ⟨files, omitted, hdiscover, hagrees⟩
  have hlisted : discover (legacyRoot "private".toList) =
      some ([("private/a.docx".toList, .docx)], 0) := rfl
  obtain rfl := (Prod.mk.inj (Option.some.inj (hlisted.symm.trans hdiscover))).1
  obtain ⟨_, data, hreached⟩ := (hagrees "private/a.docx".toList).mp mem_cons_self
  cases hreached

end Bran.Cli
