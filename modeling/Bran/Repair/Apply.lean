import Bran.Library.Files
import Bran.Scan.Digest

/-!
# The repair coordinator

`RepairCoordinator::propose` and `RepairCoordinator::apply`: a proposal records the bytes it
was made from; applying it stages the new bytes beside the target, keeps the old file as a
backup until the validator has spoken, and restores it when the validator refuses.
-/

namespace Bran.Repair

open Files Files.Script OrdMap

/-! ## Proposals and terminals -/

structure RepairProposal where
  digest : Str
  target : Str
  content : List UInt8
  original : Option (List UInt8)
  deriving DecidableEq

structure RepairReceipt where
  schemaVersion : Str
  proposalDigest : Str
  appliedTarget : Str
  authorityTag : Str
  revalidation : Str
  deriving DecidableEq

structure MaintainerAuthority where
  reason : Str

inductive RepairTerminal
  | proposed (proposal : RepairProposal)
  | applied (receipt : RepairReceipt)
  | validationPassed (receipt : RepairReceipt)
  | validationFailed (reason : Str) (receipt : RepairReceipt)
  | authorizationFailure
  | digestMismatch (expected actual : Str)
  | staleSource
  | unsafePath (path : Str)
  | ioPartialWrite (path reason : Str)
  deriving DecidableEq

def repairReceiptSchemaVersion : Str := "1.0.0".toList

/-- The root of the repository and the validator, which reads the files below it. -/
structure RepairCoordinator where
  root : Path
  validator : Path → Tree → Except Str Unit

/-- What the process reads from its host: its id, the nanoseconds since the epoch (none when
the clock stands before it), and the directory `"."` names. -/
structure Host where
  processId : ℕ
  nanoseconds : Option ℕ
  currentDir : Path

/-! ## Paths -/

/-- `Path::components` of a relative path; `.` and empty components are dropped. -/
def components (relative : Str) : Path :=
  (relative.splitOn '/').filter fun component => component ≠ [] ∧ component ≠ ['.']

/-- The private `is_safe_relative`. -/
def isSafeRelative (relative : Str) : Bool :=
  if relative = [] ∨ ['/'].isPrefixOf relative ∨ ['\\'].isPrefixOf relative ∨
      Char.ofNat 0 ∈ relative then false
  else (components relative).all fun component => component ≠ ['.', '.']

/-- `self.root.join(target)`. -/
def RepairCoordinator.full (coordinator : RepairCoordinator) (target : Str) : Path :=
  coordinator.root ++ components target

/-- The loop of `is_symlink_ancestor_or_target`. -/
def isSymlinkBelow (current : Path) : Path → Script Bool
  | [] => pure false
  | component :: rest => do
      let current := current ++ [component]
      match ← symlinkMetadata current with
      | .ok .symlink => pure true
      | _ => isSymlinkBelow current rest

/-- The private `is_symlink_ancestor_or_target`. -/
def isSymlinkAncestorOrTarget (root target : Path) : Script Bool :=
  match root.isPrefixOf? target with
  | some relative => isSymlinkBelow root relative
  | none => pure true

/-- The checks of a target before it is read. -/
def isUnsafe (coordinator : RepairCoordinator) (target : Str) : Script Bool :=
  if !isSafeRelative target || !coordinator.root.isPrefixOf (coordinator.full target) then pure true
  else isSymlinkAncestorOrTarget coordinator.root (coordinator.full target)

/-- The private `read_existing`. -/
def readExisting (path : Path) : Script (Except Error (Option (List UInt8))) := do
  match ← symlinkMetadata path with
  | .ok _ => return (← read path).map some
  | .error error => return if error.kind = .notFound then .ok none else .error error

/-! ## Applying -/

/-- The private `cleanup_error`. -/
def cleanupError (primary : Error) : Except Error Unit → Error
  | .ok () => primary
  | .error error =>
      ⟨.other 0, primary.text ++ "; cleanup failed: ".toList ++ error.text⟩

/-- The private `remove_file_if_exists`. -/
def removeFileIfExists (path : Path) : Script (Except Error Unit) := do
  match ← removeFile path with
  | .ok () => return .ok ()
  | .error error => return if error.kind = .notFound then .ok () else .error error

/-- The sibling `.{fname}.{infix}.{pid}.{nonce}` of a target. -/
def sibling (host : Host) (target : Path) (label : Str) (nonce : ℕ) : Path :=
  let parent := if target = [] then host.currentDir else target.dropLast
  let fname := target.getLast?.getD "repair".toList
  parent ++ [".".toList ++ fname ++ label ++ Text.decimal host.processId ++ ".".toList ++
    Text.decimal nonce]

def tmpPath (host : Host) (target : Path) (nonce : ℕ) : Path :=
  sibling host target ".tmp.".toList nonce

def backupPath (host : Host) (target : Path) (nonce : ℕ) : Path :=
  sibling host target ".bak.".toList nonce

/-- The closure that fills the staged file. -/
def writeStaged (tmp : Path) (data : List UInt8) : Script (Except Error Unit) := do
  match ← createNew tmp with
  | .error error => return .error error
  | .ok () =>
      match ← writeAll tmp data with
      | .error error => return .error error
      | .ok () => syncAll

/-- The private `staged_replace`. -/
def stagedReplace (host : Host) (target : Path) (data : List UInt8) :
    Script (Except Error (Option Path)) :=
  match host.nanoseconds with
  | none => return .error ⟨.other 0, "second time provided was later than self".toList⟩
  | some nonce => do
      let tmp := tmpPath host target nonce
      let backup := backupPath host target nonce
      match ← writeStaged tmp data with
      | .error error => return .error (cleanupError error (← removeFileIfExists tmp))
      | .ok () =>
          match ← symlinkMetadata target with
          | .ok _ =>
              match ← rename target backup with
              | .error error => return .error (cleanupError error (← removeFileIfExists tmp))
              | .ok () =>
                  match ← rename tmp target with
                  | .error error =>
                      let restore ← rename backup target
                      let cleanup ← removeFileIfExists tmp
                      return .error (cleanupError (cleanupError error restore) cleanup)
                  | .ok () => return .ok (some backup)
          | .error error =>
              if error.kind = .notFound then
                match ← rename tmp target with
                | .error error => return .error (cleanupError error (← removeFileIfExists tmp))
                | .ok () => return .ok none
              else return .error (cleanupError error (← removeFileIfExists tmp))

/-- The private `rollback`. -/
def rollback (target : Path) : Option Path → Script (Except Error Unit)
  | some backup => do
      match ← removeFileIfExists target with
      | .error error => return .error error
      | .ok () => rename backup target
  | none => removeFileIfExists target

/-- The removal of the backup after a passed validation. -/
def dropBackup : Option Path → Script (Except Error Unit)
  | some backup => removeFileIfExists backup
  | none => pure (.ok ())

/-- The end of `apply`, from the validator on. -/
def revalidate (coordinator : RepairCoordinator) (authority : MaintainerAuthority)
    (proposal : RepairProposal) (digest : Str) (backup : Option Path) : Script RepairTerminal := do
  let target := proposal.target
  match ← observe (coordinator.validator coordinator.root) with
  | .ok () =>
      match ← dropBackup backup with
      | .error error => return .ioPartialWrite target error.text
      | .ok () =>
          return .validationPassed ⟨repairReceiptSchemaVersion, digest, target, authority.reason,
            "proposed -> applied -> validation-passed".toList⟩
  | .error reason =>
      match ← rollback (coordinator.full target) backup with
      | .error error =>
          return .ioPartialWrite target ("validator failed; rollback failed: ".toList ++
            error.text ++ " (validator: ".toList ++ reason ++ ")".toList)
      | .ok () =>
          return .validationFailed ("applied -> validation-failed: ".toList ++ reason)
            ⟨repairReceiptSchemaVersion, digest, target, authority.reason,
              "proposed -> applied -> validation-failed -> restored".toList⟩

/-- `RepairCoordinator::apply` once the authority has been accepted. -/
def applyAuthorized (host : Host) (coordinator : RepairCoordinator)
    (authority : MaintainerAuthority) (proposal : RepairProposal) (digest : Str) :
    Script RepairTerminal := do
  if digest ≠ proposal.digest then return .digestMismatch proposal.digest digest
  let target := proposal.target
  if ← isUnsafe coordinator target then return .unsafePath target
  match ← readExisting (coordinator.full target) with
  | .error error => return .ioPartialWrite target error.text
  | .ok current =>
      if current ≠ proposal.original then return .staleSource
      match ← stagedReplace host (coordinator.full target) proposal.content with
      | .error error => return .ioPartialWrite target error.text
      | .ok backup => revalidate coordinator authority proposal digest backup

/-- `RepairCoordinator::apply`. -/
def apply (host : Host) (coordinator : RepairCoordinator)
    (authority : Option MaintainerAuthority) (proposal : RepairProposal) (digest : Str) :
    Script RepairTerminal :=
  match authority with
  | some authority =>
      if Text.isBlank authority.reason then return .authorizationFailure
      else applyAuthorized host coordinator authority proposal digest
  | none => return .authorizationFailure

/-! ## What the steps leave behind -/

section Steps

variable {tree : Tree} {C : Tree → Prop}

theorem ensures_removeFileIfExists {path : Path} {Q : Except Error Unit → Tree → Prop}
    (hfile : tree.find? path ≠ some .directory) (hdone : Q (.ok ()) (tree.erase path))
    (hrefused : ∀ error, Q (.error error) tree) (hstop : C tree) :
    Ensures (removeFileIfExists path) tree Q C := by
  unfold removeFileIfExists
  apply Ensures.seq
  have hother : ∀ error : Error, error.kind ≠ .notFound →
      Ensures (pure (if error.kind = .notFound then Except.ok () else .error error)) tree Q C := by
    intro error hkind
    rw [if_neg hkind]
    exact ensures_pure (hrefused error)
  cases hfind : tree.find? path with
  | none =>
      have hsame : tree.erase path = tree := by
        apply ext_find?
        intro key
        rw [find?_erase]
        by_cases hkey : path = key
        · rw [if_pos hkey, ← hkey, hfind]
        · rw [if_neg hkey]
      have hremoved : removed path tree = .error .notFound := by rw [removed, hfind]
      apply ensures_change_error hremoved _ hstop
      intro error herror
      rcases herror with rfl | hkind
      · exact ensures_pure (hsame ▸ hdone)
      · exact hother error hkind
  | some entry =>
      have hremoved : removed path tree = .ok (tree.erase path) := by
        rw [removed, hfind]
        cases entry with
        | directory => exact absurd hfind hfile
        | file bytes => rfl
        | symlink => rfl
      exact ensures_change hremoved (ensures_pure hdone) hother hstop

variable {target tmp backup : Path} {data : List UInt8}

/-- The staging names are distinct from the target and from each other, and name nothing. -/
structure Fresh (tree : Tree) (target tmp backup : Path) : Prop where
  tmp_ne : tmp ≠ target
  backup_ne : backup ≠ target
  distinct : tmp ≠ backup
  no_tmp : tree.find? tmp = none
  no_backup : tree.find? backup = none

/-- Nothing but the target and the staging names changed, and what the target named is still
there, at its place or at the backup's. -/
structure Recoverable (before : Tree) (target tmp backup : Path) (after : Tree) : Prop where
  elsewhere : ∀ path, path ≠ target → path ≠ tmp → path ≠ backup →
    after.find? path = before.find? path
  original : ∀ entry, before.find? target = some entry →
    after.find? target = some entry ∨ after.find? backup = some entry

theorem Recoverable.refl : Recoverable tree target tmp backup tree :=
  ⟨fun _ _ _ _ => rfl, fun _ h => .inl h⟩

theorem recoverable_insert_tmp (hfresh : Fresh tree target tmp backup) (entry : Entry) :
    Recoverable tree target tmp backup (tree.insert tmp entry) := by
  constructor
  · intro path _ htmp _
    rw [find?_insert_of_ne _ _ (Ne.symm htmp)]
  · intro original horiginal
    rw [find?_insert_of_ne _ _ hfresh.tmp_ne]
    exact .inl horiginal

theorem erase_insert_tmp (hfresh : Fresh tree target tmp backup) (entry : Entry) :
    (tree.insert tmp entry).erase tmp = tree := by
  apply ext_find?
  intro key
  rw [find?_erase, find?_insert]
  by_cases hkey : tmp = key
  · rw [if_pos hkey, ← hkey, hfresh.no_tmp]
  · rw [if_neg hkey, if_neg hkey]

theorem insert_insert_tmp (first second : Entry) :
    (tree.insert tmp first).insert tmp second = tree.insert tmp second := by
  apply ext_find?
  intro key
  by_cases hkey : tmp = key
  · simp only [find?_insert, if_pos hkey]
  · simp only [find?_insert, if_neg hkey]

/-- The staged file is written as a whole, or what is there of it can be removed. -/
theorem ensures_writeStaged (hfresh : Fresh tree target tmp backup) :
    Ensures (writeStaged tmp data) tree
      (fun answer after => (answer = .ok () ∧ after = tree.insert tmp (.file data)) ∨
        (∃ error, answer = .error error) ∧
          (after = tree ∨ ∃ bytes, after = tree.insert tmp (.file bytes)))
      (Recoverable tree target tmp backup) := by
  have hfilled : ∀ bytes, filled tmp bytes (tree.insert tmp (.file [])) =
      tree.insert tmp (.file bytes) := by
    intro bytes
    rw [filled, find?_insert_self]
    exact insert_insert_tmp _ _
  unfold writeStaged
  apply Ensures.seq
  cases hparent : inDirectory tree tmp with
  | error error =>
      have hcreated : created tmp tree = .error error := by rw [created, hfresh.no_tmp, hparent]
      apply ensures_change_error hcreated
      · intro error _
        exact ensures_pure (.inr ⟨⟨error, rfl⟩, .inl rfl⟩)
      · exact .refl
  | ok _ =>
      have hcreated : created tmp tree = .ok (tree.insert tmp (.file [])) := by
        rw [created, hfresh.no_tmp, hparent]
      apply ensures_change hcreated
      · apply Ensures.seq
        apply ensures_call
        · dsimp only
          rw [hfilled]
          apply ensures_query
          · exact .inl ⟨rfl, rfl⟩
          · intro error _
            exact .inr ⟨⟨error, rfl⟩, .inr ⟨data, rfl⟩⟩
          · exact recoverable_insert_tmp hfresh _
        · intro error landed _
          rw [hfilled]
          exact ensures_pure (.inr ⟨⟨error, rfl⟩, .inr ⟨_, rfl⟩⟩)
        · intro landed
          rw [hfilled]
          exact recoverable_insert_tmp hfresh _
      · intro error _
        exact ensures_pure (.inr ⟨⟨error, rfl⟩, .inl rfl⟩)
      · exact .refl

/-- The tree with the new file at the target and the old one, if there was one, as a backup. -/
def installed (tree : Tree) (target backup : Path) (data : List UInt8) : Tree :=
  match tree.find? target with
  | some entry => (tree.insert backup entry).insert target (.file data)
  | none => tree.insert target (.file data)

/-- The staged file is given up: it is removed, or the removal fails as well. -/
theorem ensures_giveUp (hfresh : Fresh tree target tmp backup) {after : Tree} {error : Error}
    (hafter : after = tree ∨ ∃ bytes, after = tree.insert tmp (.file bytes)) :
    Ensures (do return .error (cleanupError error (← removeFileIfExists tmp)) :
        Script (Except Error (Option Path))) after
      (fun answer after => (∃ error, answer = .error error) ∧
        Recoverable tree target tmp backup after) (Recoverable tree target tmp backup) := by
  have hrecoverable : Recoverable tree target tmp backup after := by
    obtain rfl | ⟨bytes, rfl⟩ := hafter
    · exact .refl
    · exact recoverable_insert_tmp hfresh _
  have herase : after.erase tmp = tree := by
    obtain rfl | ⟨bytes, rfl⟩ := hafter
    · apply ext_find?
      intro key
      rw [find?_erase]
      by_cases hkey : tmp = key
      · rw [if_pos hkey, ← hkey, hfresh.no_tmp]
      · rw [if_neg hkey]
    · exact erase_insert_tmp hfresh _
  apply Ensures.seq
  apply ensures_removeFileIfExists
  · obtain rfl | ⟨bytes, rfl⟩ := hafter
    · simp [hfresh.no_tmp]
    · simp
  · rw [herase]
    exact ensures_pure ⟨⟨_, rfl⟩, .refl⟩
  · intro error
    exact ensures_pure ⟨⟨_, rfl⟩, hrecoverable⟩
  · exact hrecoverable

/-- The tree between the two renames: the target has gone to the backup's place. -/
def setAside (tree : Tree) (target tmp backup : Path) (data : List UInt8) (entry : Entry) : Tree :=
  ((tree.insert tmp (.file data)).erase target).insert backup entry

section Aside

variable {entry : Entry}

theorem find?_setAside (key : Path) :
    (setAside tree target tmp backup data entry).find? key =
      if backup = key then some entry else if target = key then none
      else if tmp = key then some (.file data) else tree.find? key := by
  rw [setAside, find?_insert, find?_erase, find?_insert]
  split_ifs <;> rfl

theorem recoverable_setAside (hentry : tree.find? target = some entry) :
    Recoverable tree target tmp backup (setAside tree target tmp backup data entry) := by
  constructor
  · intro path htarget htmp hbackup
    rw [find?_setAside, if_neg hbackup.symm, if_neg htarget.symm, if_neg htmp.symm]
  · intro original horiginal
    right
    rw [find?_setAside, if_pos rfl, ← horiginal, hentry]

/-- Installing the staged file over the gap gives the new tree. -/
theorem renamed_tmp_setAside (hfresh : Fresh tree target tmp backup)
    (hentry : tree.find? target = some entry) :
    renamed tmp target (setAside tree target tmp backup data entry) =
      .ok (installed tree target backup data) := by
  have htmp : (setAside tree target tmp backup data entry).find? tmp = some (.file data) := by
    rw [find?_setAside, if_neg (Ne.symm hfresh.distinct), if_neg (Ne.symm hfresh.tmp_ne), if_pos rfl]
  have htarget : (setAside tree target tmp backup data entry).find? target = none := by
    rw [find?_setAside, if_neg hfresh.backup_ne, if_pos rfl]
  have heq : ((setAside tree target tmp backup data entry).erase tmp).insert target (.file data) =
      installed tree target backup data := by
    apply ext_find?
    intro key
    have hno := hfresh.no_tmp
    simp only [installed, hentry, find?_insert, find?_erase, find?_setAside]
    have := hfresh.distinct
    grind
  rw [renamed, htmp, htarget]
  exact congrArg Except.ok heq

/-- Putting the backup back gives the tree in which only the staged file is new. -/
theorem renamed_backup_setAside (hfresh : Fresh tree target tmp backup)
    (hfile : entry ≠ .directory) (hentry : tree.find? target = some entry) :
    renamed backup target (setAside tree target tmp backup data entry) =
      .ok (tree.insert tmp (.file data)) := by
  have hbackup : (setAside tree target tmp backup data entry).find? backup = some entry := by
    rw [find?_setAside, if_pos rfl]
  have htarget : (setAside tree target tmp backup data entry).find? target = none := by
    rw [find?_setAside, if_neg hfresh.backup_ne, if_pos rfl]
  have heq : ((setAside tree target tmp backup data entry).erase backup).insert target entry =
      tree.insert tmp (.file data) := by
    apply ext_find?
    intro key
    have hno := hfresh.no_backup
    simp only [find?_insert, find?_erase, find?_setAside]
    have := hfresh.distinct
    have := hfresh.tmp_ne
    grind
  rw [renamed, hbackup, htarget]
  cases entry with
  | directory => exact absurd rfl hfile
  | file bytes | symlink => exact congrArg Except.ok heq

end Aside

/-- How a staged replacement ends: the new file is in place and the old one, if there was one,
is the backup; or what was there can be recovered. -/
inductive Replaced (before : Tree) (target tmp backup : Path) (data : List UInt8) :
    Except Error (Option Path) → Tree → Prop
  | kept {entry : Entry} (hentry : before.find? target = some entry) (hfile : entry ≠ .directory) :
      Replaced before target tmp backup data (.ok (some backup)) (installed before target backup data)
  | made (hnone : before.find? target = none) :
      Replaced before target tmp backup data (.ok none) (installed before target backup data)
  | failed {error : Error} {after : Tree} (h : Recoverable before target tmp backup after) :
      Replaced before target tmp backup data (.error error) after

theorem ensures_giveUp_replaced (hfresh : Fresh tree target tmp backup) {after : Tree}
    {error : Error} (hafter : after = tree ∨ ∃ bytes, after = tree.insert tmp (.file bytes)) :
    Ensures (do return .error (cleanupError error (← removeFileIfExists tmp))) after
      (Replaced tree target tmp backup data) (Recoverable tree target tmp backup) := by
  apply (ensures_giveUp hfresh hafter).mono
  · intro answer after h
    obtain ⟨⟨error, rfl⟩, hrecoverable⟩ := h
    exact .failed hrecoverable
  · intro after h
    exact h

/-- The replacement of an existing target, from the first rename on. -/
theorem ensures_swap (hfresh : Fresh tree target tmp backup) {entry : Entry}
    (hentry : tree.find? target = some entry) :
    Ensures (do
        match ← rename target backup with
        | .error error => return .error (cleanupError error (← removeFileIfExists tmp))
        | .ok () =>
            match ← rename tmp target with
            | .error error =>
                let restore ← rename backup target
                let cleanup ← removeFileIfExists tmp
                return .error (cleanupError (cleanupError error restore) cleanup)
            | .ok () => return .ok (some backup)) (tree.insert tmp (.file data))
      (Replaced tree target tmp backup data) (Recoverable tree target tmp backup) := by
  have htarget : (tree.insert tmp (.file data)).find? target = some entry := by
    rw [find?_insert_of_ne _ _ hfresh.tmp_ne, hentry]
  have hbackup : (tree.insert tmp (.file data)).find? backup = none := by
    rw [find?_insert_of_ne _ _ hfresh.distinct, hfresh.no_backup]
  have hstaged : Recoverable tree target tmp backup (tree.insert tmp (.file data)) :=
    recoverable_insert_tmp hfresh _
  apply Ensures.seq
  by_cases hfile : entry = .directory
  · have haside : renamed target backup (tree.insert tmp (.file data)) = .error .isADirectory := by
      rw [renamed, htarget, hfile]
    apply ensures_change_error haside
    · intro error _
      exact ensures_giveUp_replaced hfresh (.inr ⟨data, rfl⟩)
    · exact hstaged
  · have haside : renamed target backup (tree.insert tmp (.file data)) =
        .ok (setAside tree target tmp backup data entry) := by
      rw [renamed, htarget, hbackup]
      cases entry with
      | directory => exact absurd rfl hfile
      | file bytes => rfl
      | symlink => rfl
    have hrecoverable : Recoverable tree target tmp backup
        (setAside tree target tmp backup data entry) := recoverable_setAside hentry
    apply ensures_change haside
    · apply Ensures.seq
      apply ensures_change (renamed_tmp_setAside hfresh hentry)
      · exact ensures_pure (.kept hentry hfile)
      · intro error _
        apply Ensures.seq
        apply ensures_change (renamed_backup_setAside hfresh hfile hentry)
        · apply Ensures.seq
          apply ensures_removeFileIfExists
          · simp
          · rw [erase_insert_tmp hfresh]
            exact ensures_pure (.failed .refl)
          · intro error
            exact ensures_pure (.failed hstaged)
          · exact hstaged
        · intro error _
          -- the backup stays where it is: the original is recovered from there
          have htmp : (setAside tree target tmp backup data entry).find? tmp =
              some (.file data) := by
            rw [find?_setAside, if_neg (Ne.symm hfresh.distinct), if_neg (Ne.symm hfresh.tmp_ne),
              if_pos rfl]
          have herased : Recoverable tree target tmp backup
              ((setAside tree target tmp backup data entry).erase tmp) := by
            constructor
            · intro path hpath htmp hbackup
              rw [find?_erase, if_neg (Ne.symm htmp)]
              exact hrecoverable.elsewhere path hpath htmp hbackup
            · intro original horiginal
              right
              rw [find?_erase, if_neg hfresh.distinct, find?_setAside, if_pos rfl,
                ← horiginal, hentry]
          apply Ensures.seq
          apply ensures_removeFileIfExists
          · simp [htmp]
          · exact ensures_pure (.failed herased)
          · intro error
            exact ensures_pure (.failed hrecoverable)
          · exact hrecoverable
        · exact hrecoverable
      · exact hrecoverable
    · intro error _
      exact ensures_giveUp_replaced hfresh (.inr ⟨data, rfl⟩)
    · exact hstaged

theorem ensures_stagedReplace {host : Host} {nonce : ℕ} (hclock : host.nanoseconds = some nonce)
    (hfresh : Fresh tree target (tmpPath host target nonce) (backupPath host target nonce)) :
    Ensures (stagedReplace host target data) tree
      (Replaced tree target (tmpPath host target nonce) (backupPath host target nonce) data)
      (Recoverable tree target (tmpPath host target nonce) (backupPath host target nonce)) := by
  unfold stagedReplace
  rw [hclock]
  dsimp only
  generalize tmpPath host target nonce = tmp at hfresh ⊢
  generalize backupPath host target nonce = backup at hfresh ⊢
  have hstaged : Recoverable tree target tmp backup (tree.insert tmp (.file data)) :=
    recoverable_insert_tmp hfresh _
  apply (ensures_writeStaged hfresh).bind
  intro answer after h
  obtain ⟨rfl, rfl⟩ | ⟨⟨error, rfl⟩, hafter⟩ := h
  · have htarget : (tree.insert tmp (.file data)).find? target = tree.find? target :=
      find?_insert_of_ne _ _ hfresh.tmp_ne
    apply Ensures.seq
    apply ensures_query
    · rw [lookup, htarget]
      cases hentry : tree.find? target with
      | some entry => exact ensures_swap hfresh hentry
      | none =>
          have hinstalled : renamed tmp target (tree.insert tmp (.file data)) =
              .ok (installed tree target backup data) := by
            rw [renamed, find?_insert_self, htarget, hentry, installed, hentry,
              erase_insert_tmp hfresh]
          dsimp only
          rw [if_pos (show Error.notFound.kind = .notFound from rfl)]
          apply Ensures.seq
          apply ensures_change hinstalled
          · exact ensures_pure (.made hentry)
          · intro error _
            exact ensures_giveUp_replaced hfresh (.inr ⟨data, rfl⟩)
          · exact hstaged
    · intro error hkind
      dsimp only
      rw [if_neg hkind]
      exact ensures_giveUp_replaced hfresh (.inr ⟨data, rfl⟩)
    · exact hstaged
  · exact ensures_giveUp_replaced hfresh hafter

/-! ## After the validator has spoken -/

/-- What a terminal says about the files. -/
def Settled (before : Tree) (target tmp backup : Path) (data : List UInt8) :
    RepairTerminal → Tree → Prop
  | .validationPassed _, after => after = before.insert target (.file data)
  | .ioPartialWrite _ _, after => Recoverable before target tmp backup after
  | _, after => after = before

section Installed

variable {entry : Entry}

theorem find?_installed (hentry : tree.find? target = some entry) (key : Path) :
    (installed tree target backup data).find? key =
      if target = key then some (.file data) else if backup = key then some entry
      else tree.find? key := by
  rw [installed, hentry]
  dsimp only
  rw [find?_insert, find?_insert]
  split_ifs <;> rfl

theorem recoverable_installed (hfresh : Fresh tree target tmp backup)
    (hentry : tree.find? target = some entry) :
    Recoverable tree target tmp backup (installed tree target backup data) := by
  constructor
  · intro path htarget _ hbackup
    rw [find?_installed hentry, if_neg htarget.symm, if_neg hbackup.symm]
  · intro original horiginal
    right
    rw [find?_installed hentry, if_neg (Ne.symm hfresh.backup_ne), if_pos rfl, ← horiginal, hentry]

/-- Dropping the backup commits the new file. -/
theorem erase_backup_installed (hfresh : Fresh tree target tmp backup)
    (hentry : tree.find? target = some entry) :
    (installed tree target backup data).erase backup = tree.insert target (.file data) := by
  apply ext_find?
  intro key
  have hno := hfresh.no_backup
  have hne := hfresh.backup_ne
  simp only [find?_erase, find?_installed hentry, find?_insert]
  grind

/-- The gap a rollback opens before the backup goes back. -/
theorem recoverable_erase_installed (hfresh : Fresh tree target tmp backup)
    (hentry : tree.find? target = some entry) :
    Recoverable tree target tmp backup ((installed tree target backup data).erase target) := by
  have hinstalled : Recoverable tree target tmp backup (installed tree target backup data) :=
    recoverable_installed hfresh hentry
  constructor
  · intro path htarget htmp hbackup
    rw [find?_erase, if_neg htarget.symm]
    exact hinstalled.elsewhere path htarget htmp hbackup
  · intro original horiginal
    right
    rw [find?_erase, if_neg (Ne.symm hfresh.backup_ne), find?_installed hentry,
      if_neg (Ne.symm hfresh.backup_ne), if_pos rfl, ← horiginal, hentry]

/-- The second half of a rollback gives the tree before the replacement. -/
theorem renamed_backup_installed (hfresh : Fresh tree target tmp backup)
    (hfile : entry ≠ .directory) (hentry : tree.find? target = some entry) :
    renamed backup target ((installed tree target backup data).erase target) = .ok tree := by
  have hbackup : ((installed tree target backup data).erase target).find? backup =
      some entry := by
    rw [find?_erase, if_neg (Ne.symm hfresh.backup_ne), find?_installed hentry,
      if_neg (Ne.symm hfresh.backup_ne), if_pos rfl]
  have hgap : ((installed tree target backup data).erase target).find? target = none := by
    rw [find?_erase, if_pos rfl]
  have heq : (((installed tree target backup data).erase target).erase backup).insert target
      entry = tree := by
    apply ext_find?
    intro key
    have hno := hfresh.no_backup
    simp only [find?_insert, find?_erase, find?_installed hentry]
    grind
  rw [renamed, hbackup, hgap]
  cases entry with
  | directory => exact absurd rfl hfile
  | file bytes | symlink => exact congrArg Except.ok heq

end Installed

theorem ensures_rollback {kept : Option Path} {after : Tree} {Q : Except Error Unit → Tree → Prop}
    (hfresh : Fresh tree target tmp backup)
    (hreplaced : Replaced tree target tmp backup data (.ok kept) after)
    (hdone : Q (.ok ()) tree)
    (hrefused : ∀ error after, Recoverable tree target tmp backup after → Q (.error error) after) :
    Ensures (rollback target kept) after Q (Recoverable tree target tmp backup) := by
  cases hreplaced with
  | @kept entry hentry hfile =>
      have hfound : (installed tree target backup data).find? target = some (.file data) := by
        rw [find?_installed hentry, if_pos rfl]
      have hrecoverable : Recoverable tree target tmp backup (installed tree target backup data) :=
        recoverable_installed hfresh hentry
      apply Ensures.seq
      apply ensures_removeFileIfExists
      · simp [hfound]
      · apply ensures_change (renamed_backup_installed hfresh hfile hentry) hdone
        · intro error _
          exact hrefused error _ (recoverable_erase_installed hfresh hentry)
        · exact recoverable_erase_installed hfresh hentry
      · intro error
        exact ensures_pure (hrefused error _ hrecoverable)
      · exact hrecoverable
  | made hnone =>
      have hrecoverable : Recoverable tree target tmp backup (installed tree target backup data) := by
        constructor
        · intro path htarget _ _
          rw [installed, hnone, find?_insert_of_ne _ _ htarget.symm]
        · intro entry hentry
          rw [hnone] at hentry
          cases hentry
      have herase : (installed tree target backup data).erase target = tree := by
        apply ext_find?
        intro key
        rw [installed, hnone, find?_erase, find?_insert]
        by_cases hkey : target = key
        · rw [if_pos hkey, ← hkey, hnone]
        · rw [if_neg hkey, if_neg hkey]
      apply ensures_removeFileIfExists
      · rw [installed, hnone]
        simp
      · rw [herase]
        exact hdone
      · intro error
        exact hrefused error _ hrecoverable
      · exact hrecoverable

theorem ensures_dropBackup {kept : Option Path} {after : Tree}
    {Q : Except Error Unit → Tree → Prop} (hfresh : Fresh tree target tmp backup)
    (hreplaced : Replaced tree target tmp backup data (.ok kept) after)
    (hdone : Q (.ok ()) (tree.insert target (.file data)))
    (hrefused : ∀ error after, Recoverable tree target tmp backup after → Q (.error error) after) :
    Ensures (dropBackup kept) after Q (Recoverable tree target tmp backup) := by
  cases hreplaced with
  | @kept entry hentry hfile =>
      apply ensures_removeFileIfExists
      · rw [find?_installed hentry, if_neg (Ne.symm hfresh.backup_ne), if_pos rfl]
        simpa using hfile
      · rw [erase_backup_installed hfresh hentry]
        exact hdone
      · intro error
        exact hrefused error _ (recoverable_installed hfresh hentry)
      · exact recoverable_installed hfresh hentry
  | made hnone =>
      apply ensures_pure
      rw [installed, hnone]
      exact hdone

end Steps

/-! ## A whole run -/

section Apply

variable {host : Host} {coordinator : RepairCoordinator} {proposal : RepairProposal}
  {authority : MaintainerAuthority} {digest : Str} {tree : Tree} {tmp backup : Path}

theorem ensures_revalidate {kept : Option Path} {after : Tree}
    (hfresh : Fresh tree (coordinator.full proposal.target) tmp backup)
    (hreplaced : Replaced tree (coordinator.full proposal.target) tmp backup proposal.content
      (.ok kept) after) :
    Ensures (revalidate coordinator authority proposal digest kept) after
      (Settled tree (coordinator.full proposal.target) tmp backup proposal.content)
      (Recoverable tree (coordinator.full proposal.target) tmp backup) := by
  unfold revalidate
  apply Ensures.seq
  apply ensures_observe
  cases coordinator.validator coordinator.root after with
  | ok _ =>
      apply Ensures.seq
      apply ensures_dropBackup hfresh hreplaced
      · exact ensures_pure rfl
      · intro error after hrecoverable
        exact ensures_pure hrecoverable
  | error reason =>
      apply Ensures.seq
      apply ensures_rollback hfresh hreplaced
      · exact ensures_pure rfl
      · intro error after hrecoverable
        exact ensures_pure hrecoverable

/-- The checks before the target is read change nothing. -/
theorem ensures_isUnsafe {target : Str} {C : Tree → Prop} (hstop : C tree) :
    Ensures (isUnsafe coordinator target) tree (fun _ after => after = tree) C := by
  have hbelow : ∀ relative current, Ensures (isSymlinkBelow current relative) tree
      (fun _ after => after = tree) C := by
    intro relative
    induction relative with
    | nil =>
        intro current
        exact ensures_pure rfl
    | cons component rest ih =>
        intro current
        have hnext : ∀ answer : Except Error Entry, Ensures (match answer with
            | .ok .symlink => pure true
            | _ => isSymlinkBelow (current ++ [component]) rest) tree
              (fun _ after => after = tree) C := by
          intro answer
          split
          · exact ensures_pure rfl
          · exact ih _
        apply Ensures.seq
        apply ensures_query
        · exact hnext _
        · intro error _
          exact hnext (.error error)
        · exact hstop
  unfold isUnsafe isSymlinkAncestorOrTarget
  split
  · exact ensures_pure rfl
  · split
    · exact hbelow _ _
    · exact ensures_pure rfl

theorem ensures_readExisting {path : Path} {C : Tree → Prop} (hstop : C tree) :
    Ensures (readExisting path) tree (fun _ after => after = tree) C := by
  unfold readExisting
  apply Ensures.seq
  have hread : ∀ answer : Except Error Entry, Ensures (do
      match answer with
      | .ok _ => return (← read path).map some
      | .error error => return if error.kind = .notFound then .ok none else .error error) tree
      (fun (_ : Except Error (Option (List UInt8))) after => after = tree) C := by
    intro answer
    cases answer with
    | error error => exact ensures_pure rfl
    | ok entry =>
        apply Ensures.seq
        apply ensures_query
        · exact ensures_pure rfl
        · intro error _
          exact ensures_pure rfl
        · exact hstop
  apply ensures_query
  · exact hread _
  · intro error _
    exact hread (.error error)
  · exact hstop

/-- The staging names differ from the target and from each other by their texts. -/
theorem fresh_of_absent {target : Path} {nonce : ℕ}
    (htmp : tree.find? (tmpPath host target nonce) = none)
    (hbackup : tree.find? (backupPath host target nonce) = none) :
    Fresh tree target (tmpPath host target nonce) (backupPath host target nonce) := by
  have hne : ∀ label : Str, sibling host target label nonce ≠ target := by
    intro label heq
    unfold sibling at heq
    by_cases hnil : target = []
    · simp [hnil] at heq
    · obtain ⟨parent, name, rfl⟩ := (List.eq_nil_or_concat target).resolve_left hnil
      have hlast := congrArg (fun path : Path => (path.getLast?.getD []).length) heq
      simp [List.concat_eq_append] at hlast
      omega
  refine ⟨hne _, hne _, ?_, htmp, hbackup⟩
  intro heq
  unfold tmpPath backupPath sibling at heq
  simp [List.append_assoc] at heq

/-- Every terminal of `apply` says what happened to the files. -/
theorem ensures_apply {authority : Option MaintainerAuthority}
    (hfresh : ∀ nonce, host.nanoseconds = some nonce →
      tree.find? (tmpPath host (coordinator.full proposal.target) nonce) = none ∧
        tree.find? (backupPath host (coordinator.full proposal.target) nonce) = none) :
    Ensures (apply host coordinator authority proposal digest) tree
      (Settled tree (coordinator.full proposal.target)
        (tmpPath host (coordinator.full proposal.target) (host.nanoseconds.getD 0))
        (backupPath host (coordinator.full proposal.target) (host.nanoseconds.getD 0))
        proposal.content)
      (Recoverable tree (coordinator.full proposal.target)
        (tmpPath host (coordinator.full proposal.target) (host.nanoseconds.getD 0))
        (backupPath host (coordinator.full proposal.target) (host.nanoseconds.getD 0))) := by
  unfold apply
  cases authority with
  | none => exact ensures_pure rfl
  | some authority =>
      dsimp only
      split
      · exact ensures_pure rfl
      unfold applyAuthorized
      split
      · exact ensures_pure rfl
      apply (ensures_isUnsafe .refl).bind
      intro refused after hafter
      subst hafter
      split
      · exact ensures_pure rfl
      apply (ensures_readExisting .refl).bind
      intro current after hafter
      subst hafter
      cases current with
      | error error => exact ensures_pure .refl
      | ok current =>
          dsimp only
          split
          · exact ensures_pure rfl
          cases hclock : host.nanoseconds with
          | none =>
              unfold stagedReplace
              rw [hclock]
              exact ensures_pure .refl
          | some nonce =>
              obtain ⟨htmp, hbackup⟩ := hfresh nonce hclock
              have hnames := fresh_of_absent htmp hbackup
              apply (ensures_stagedReplace hclock hnames).bind
              intro replaced after hreplaced
              cases replaced with
              | error error =>
                  cases hreplaced with
                  | failed hrecoverable => exact ensures_pure hrecoverable
              | ok kept => exact ensures_revalidate hnames hreplaced

/-- Applying a repair is all or nothing and never loses the original: a passed validation leaves
exactly the new content at the target, every other terminal but `IoPartialWrite` leaves the
files as they were, and after `IoPartialWrite` the original bytes are at the target or at the
backup and nothing else but the staged file has changed. -/
theorem apply_all_or_nothing (host : Host) (coordinator : RepairCoordinator)
    (authority : Option MaintainerAuthority) (proposal : RepairProposal) (digest : Str)
    (schedule : Schedule) (world world' : World) (terminal : RepairTerminal)
    (hfresh : ∀ nonce, host.nanoseconds = some nonce →
      world.files.find? (tmpPath host (coordinator.full proposal.target) nonce) = none ∧
        world.files.find? (backupPath host (coordinator.full proposal.target) nonce) = none)
    (hrun : apply host coordinator authority proposal digest schedule world =
      (some terminal, world')) :
    (∀ receipt, terminal = .validationPassed receipt →
      world'.files =
        world.files.insert (coordinator.full proposal.target) (.file proposal.content)) ∧
    ((∀ receipt, terminal ≠ .validationPassed receipt) →
      (∀ path reason, terminal ≠ .ioPartialWrite path reason) → world'.files = world.files) ∧
    (∀ path reason, terminal = .ioPartialWrite path reason →
      (∀ bytes, world.files.find? (coordinator.full proposal.target) = some (.file bytes) →
        world'.files.find? (coordinator.full proposal.target) = some (.file bytes) ∨
          world'.files.find? (backupPath host (coordinator.full proposal.target)
            (host.nanoseconds.getD 0)) = some (.file bytes)) ∧
      ∀ path, path ≠ coordinator.full proposal.target →
        path ≠ tmpPath host (coordinator.full proposal.target) (host.nanoseconds.getD 0) →
        path ≠ backupPath host (coordinator.full proposal.target) (host.nanoseconds.getD 0) →
        world'.files.find? path = world.files.find? path) := by
  have hsettled := (@ensures_apply _ _ _ digest _ authority hfresh).answer hrun
  refine ⟨?_, ?_, ?_⟩
  · intro receipt hterminal
    rw [hterminal] at hsettled
    exact hsettled
  · intro hpassed hio
    cases terminal with
    | validationPassed receipt => exact absurd rfl (hpassed receipt)
    | ioPartialWrite path reason => exact absurd rfl (hio path reason)
    | _ => exact hsettled
  · intro path reason hterminal
    rw [hterminal] at hsettled
    have hrecoverable : Recoverable _ _ _ _ _ := hsettled
    exact ⟨fun bytes => hrecoverable.original (.file bytes), hrecoverable.elsewhere⟩

/-- A file `a` with one byte below the root `r`. -/
def oneFile : World :=
  ⟨OrdMap.ofList [([], .directory), (["r".toList], .directory),
    (["r".toList, "a".toList], .file [1])], 0⟩

/-- A run without faults and with a validator that accepts everything. -/
def acceptedRun : Option RepairTerminal × World :=
  apply ⟨1, some 7, []⟩ ⟨["r".toList], fun _ _ => .ok ()⟩ (some ⟨"fix".toList⟩)
    ⟨"d".toList, "a".toList, [2, 3], some [1]⟩ "d".toList (fun _ => none) oneFile

theorem apply_all_or_nothing_accepted :
    acceptedRun.2.files = oneFile.files.insert ["r".toList, "a".toList] (.file [2, 3]) := by
  have hterminal : acceptedRun.1 = some (.validationPassed ⟨repairReceiptSchemaVersion, "d".toList,
      "a".toList, "fix".toList, "proposed -> applied -> validation-passed".toList⟩) := by
    decide +kernel
  refine (apply_all_or_nothing ⟨1, some 7, []⟩ ⟨["r".toList], fun _ _ => .ok ()⟩
    (some ⟨"fix".toList⟩) ⟨"d".toList, "a".toList, [2, 3], some [1]⟩ "d".toList (fun _ => none)
    oneFile acceptedRun.2 _ ?_ (Prod.ext hterminal rfl)).1 _ rfl
  intro nonce hclock
  obtain rfl := Option.some.inj hclock
  decide +kernel

end Apply

end Bran.Repair
