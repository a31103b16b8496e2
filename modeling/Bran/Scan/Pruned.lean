import Bran.Scan.Walk

/-!
# What a scan does not see

A scan depends on the ignore files of the root directory and on what is not skipped below it.
-/

namespace Bran.Scan

open Text Validation DirTree

variable {M : Type} {scanner : RepositoryScanner M} {matcher : IgnoreMatcher}

theorem countPath_prunedItem {config : ScanConfig} {relative : Str} {skip : Str → Bool}
    (item : RepoItem) :
    countPath (M := M) config relative (prunedItem joinRelative skip relative item) =
      countPath config relative item := by
  cases item with
  | file data => rw [prunedItem]
  | directory entries =>
      rw [prunedItem]
      rfl
  | symlink => rw [prunedItem]
  | other => rw [prunedItem]

mutual

theorem walkItem_prunedItem (relative : Str) (depth : ℕ) (item : RepoItem) (state : WalkState M) :
    walkItem scanner matcher relative depth
        (prunedItem joinRelative (skipped matcher) relative item) state =
      walkItem scanner matcher relative depth item state := by
  cases item with
  | file data | symlink | other => rw [prunedItem]
  | directory entries =>
      rw [prunedItem, walkItem, walkItem]
      congr 1
      funext _
      exact walk_pruned relative (depth + 1) entries state

/-- A walk over a pruned directory is the walk over the directory. -/
theorem walk_pruned (directory : Str) (depth : ℕ) (entries : List (Str × RepoItem))
    (state : WalkState M) :
    walk scanner matcher directory depth
        (pruned joinRelative (skipped matcher) directory entries) state =
      walk scanner matcher directory depth entries state := by
  cases entries with
  | nil => rw [pruned]
  | cons entry rest =>
      obtain ⟨name, item⟩ := entry
      rw [pruned]
      split_ifs with hskip
      · rw [walk_pruned directory depth rest state, walk, if_pos hskip]
      · rw [walk, walk, if_neg hskip, if_neg hskip, countPath_prunedItem]
        congr 1
        funext counted
        rw [walkItem_prunedItem]
        congr 1
        funext walked
        exact walk_pruned directory depth rest walked

end

/-- Roots with the same rules and the same entries behind them have the same scan. -/
theorem scan_eq_of_pruned {root root' : Root} (hignore : readIgnore root = readIgnore root')
    (hpruned : ∀ matcher, pruned joinRelative (skipped matcher) [] root =
      pruned joinRelative (skipped matcher) [] root') : scan scanner root = scan scanner root' := by
  rw [scan, scan, hignore]
  congr 1
  funext found
  dsimp only
  rw [← walk_pruned [] 0 root, hpruned, walk_pruned [] 0 root']

end Bran.Scan
