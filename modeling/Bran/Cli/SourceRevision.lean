import Bran.Cli.Dispatch

/-!
# The commit of a registered root

The commit that the `HEAD` of a git directory names.  The git directory and the common directory are
finite maps from relative names to contents; they hold no symbolic link.  A directory counts as
missing, and a name below a file cannot be looked up.
-/

namespace Bran.Cli

open Text Validation List

/-! ## Reading references -/

def maxRefFileBytes : ℕ := 4096

def maxPackedRefsBytes : ℕ := 64 * 1024 * 1024

def maxSymrefDepth : ℕ := 5

def perWorktreeRefs : List Str :=
  ["refs/worktree/".toList, "refs/bisect/".toList, "refs/rewritten/".toList]

/-- `Small`, without the outcome for symbolic links. -/
inductive Small
  | missing
  | unreadable
  | invalid
  | text (content : Str)

/-- The files below a directory. -/
abbrev GitDir := OrdMap Str (List UInt8)

/-- What `git_dirs` finds. -/
structure GitDirs where
  gitDir : GitDir
  commonDir : GitDir

def openConfined (name : Str) (within : GitDir) : Except Small (List UInt8) :=
  match within.find? name with
  | some content => .ok content
  | none =>
      if within.keys.any fun file => List.isPrefixOf (file ++ ['/']) name then .error .unreadable
      else .error .missing

def readSmall (name : Str) (within : GitDir) : Small :=
  match openConfined name within with
  | .error outcome => outcome
  | .ok content =>
      if maxRefFileBytes < content.length then .invalid
      else ((fromUtf8 content).map Small.text).getD .invalid

def safeRef (name : Str) : Bool :=
  "refs/".toList.isPrefixOf name && name.all (fun c => c != '\\' && c != '\x00') &&
    (name.splitOn '/').all fun part => part != [] && part != ['.'] && part != ['.', '.']

def objectId (text : Str) : Bool :=
  (byteLen text == 40 || byteLen text == 64) && text.all isLowerHex

/-- The lines that `read_line` gives, each with its line feed. -/
def byteLines : List UInt8 → List (List UInt8)
  | [] => []
  | byte :: rest =>
      if byte = 10 then [byte] :: byteLines rest
      else
        match byteLines rest with
        | [] => [[byte]]
        | line :: others => (byte :: line) :: others

/-- A blank line, a comment or a peeled line. -/
def skippedLine (entry : Str) : Bool :=
  entry.isEmpty || entry.head? == some '#' || entry.head? == some '^'

/-- The loop of `packed_ref`.  A line that `take` cuts off makes the total too large. -/
def packedLines (target : Str) : ℕ → List (List UInt8) → Except String Str
  | _, [] => .error "ref_unresolved"
  | total, line :: rest =>
      match fromUtf8 line with
      | none => .error "ref_corrupt"
      | some text =>
          if maxPackedRefsBytes < total + line.length then .error "ref_corrupt"
          else if skippedLine (trimEnd text) = true then packedLines target (total + line.length) rest
          else
            match splitOnce ' ' (trimEnd text) with
            | none => .error "ref_corrupt"
            | some (id, name) =>
                if name = target then
                  if objectId id = true then .ok id else .error "ref_corrupt"
                else packedLines target (total + line.length) rest

def packedRef (commonDir : GitDir) (target : Str) : Except String Str :=
  match openConfined "packed-refs".toList commonDir with
  | .ok content => packedLines target 0 (byteLines content)
  | .error .missing => .error "ref_unresolved"
  | .error _ => .error "ref_unreadable"

/-- Whether a reference is kept for each worktree. -/
def perWorktree (target : Str) : Bool := perWorktreeRefs.any fun start => start.isPrefixOf target

/-- The directory of the loose file of a reference. -/
def GitDirs.store (dirs : GitDirs) (target : Str) : GitDir :=
  if perWorktree target = true then dirs.gitDir else dirs.commonDir

/-- The loop of `head`. -/
def headLoop (dirs : GitDirs) : ℕ → Option Str → Str → Except String (Option Str × Str)
  | 0, _, _ => .error "ref_cycle"
  | rounds + 1, reference, content =>
      match stripStart "ref: ".toList (trimEnd content) with
      | none =>
          if objectId (trimEnd content) = true then .ok (reference, trimEnd content)
          else if reference = none then .error "head_corrupt"
          else .error "ref_corrupt"
      | some target =>
          if safeRef target = false then .error "ref_unsafe"
          else
            match readSmall target (dirs.store target) with
            | .text next => headLoop dirs rounds (reference.or (some target)) next
            | .missing =>
                if perWorktree target = true then .error "ref_unresolved"
                else (packedRef dirs.commonDir target).map (reference.or (some target), ·)
            | .invalid => .error "ref_corrupt"
            | .unreadable => .error "ref_unreadable"

/-- Whether the references are in a `reftable`. -/
def GitDirs.hasReftable (dirs : GitDirs) : Bool :=
  dirs.commonDir.keys.any fun file =>
    file == "reftable".toList || "reftable/".toList.isPrefixOf file

def head (dirs : GitDirs) : Except String (Option Str × Str) := do
  failIf (dirs.hasReftable = true) "reftable_unsupported"
  match readSmall "HEAD".toList dirs.gitDir with
  | .text content => headLoop dirs (maxSymrefDepth + 1) none content
  | .invalid => .error "head_corrupt"
  | .missing | .unreadable => .error "head_unreadable"

/-- `read`, with the outcome of `git_dirs`. -/
def readRevision (dirs : Except String GitDirs) : SourceRevision :=
  match dirs >>= head with
  | .ok (reference, commit) => .attested reference commit
  | .error reason => .unavailable reason.toList

/-! ## Following references -/

/-- A small UTF-8 file with a text. -/
def HoldsText (within : GitDir) (name text : Str) : Prop :=
  within.find? name = some (bytes text) ∧ byteLen text ≤ maxRefFileBytes

/-- Nothing stands at a name. -/
def Missing (within : GitDir) (name : Str) : Prop :=
  within.find? name = none ∧ ∀ file ∈ within.keys, ¬ file ++ ['/'] <+: name

/-- A name below `refs/` without an empty, dot or dot-dot segment. -/
def ConfinedName (name : Str) : Prop :=
  "refs/".toList <+: name ∧ ∀ part ∈ name.splitOn '/', part ≠ [] ∧ part ≠ ['.'] ∧ part ≠ ['.', '.']

/-- A confined name without a backslash and without a NUL. -/
def SafeName (name : Str) : Prop := ConfinedName name ∧ '\\' ∉ name ∧ '\x00' ∉ name

/-- A text that names a reference. -/
def Refers (content name : Str) : Prop := trimEnd content = "ref: ".toList ++ name

/-- Following loose references with names of a kind from a text to another one. -/
inductive Leads (dirs : GitDirs) (Kind : Str → Prop) : Str → List Str → Str → Prop
  | here (content : Str) : Leads dirs Kind content [] content
  | follow {content name next last : Str} {names : List Str} (hrefers : Refers content name)
      (hname : Kind name) (hloose : HoldsText (dirs.store name) name next)
      (hleads : Leads dirs Kind next names last) : Leads dirs Kind content (name :: names) last

/-- A line with an identity and a name. -/
def RefEntry (line : List UInt8) (id name : Str) : Prop :=
  ∃ text, bytes text = line ∧ skippedLine (trimEnd text) = false ∧ ' ' ∉ id ∧
    trimEnd text = id ++ ' ' :: name

/-- The identity of a commit: 40 or 64 lowercase hexadecimal digits. -/
def CommitId (id : Str) : Prop :=
  (id.length = 40 ∨ id.length = 64) ∧ ∀ c ∈ id, isLowerHex c = true

/-- The first line with a name has the identity of a commit. -/
def PackedAs (commonDir : GitDir) (name commit : Str) : Prop :=
  ∃ content before line after, commonDir.find? "packed-refs".toList = some content ∧
    byteLines content = before ++ line :: after ∧
    (∀ earlier ∈ before, ∀ id, ¬ RefEntry earlier id name) ∧ RefEntry line commit name ∧ CommitId commit

/-- Following references from a text to a commit, loose files first. -/
def Resolves (dirs : GitDirs) (Kind : Str → Prop) (content : Str) (names : List Str)
    (commit : Str) : Prop :=
  (∃ last, Leads dirs Kind content names last ∧ commit = trimEnd last ∧ CommitId commit) ∨
    ∃ front name last, names = front ++ [name] ∧ Leads dirs Kind content front last ∧
      Refers last name ∧ Kind name ∧ perWorktree name = false ∧ Missing dirs.commonDir name ∧
      PackedAs dirs.commonDir name commit

/-- A packed-refs file within its limit, with lines of the four kinds only. -/
def PackedValid (commonDir : GitDir) : Prop :=
  ∀ content, commonDir.find? "packed-refs".toList = some content →
    content.length ≤ maxPackedRefsBytes ∧ ∀ line ∈ byteLines content, ∃ text, bytes text = line ∧
      (skippedLine (trimEnd text) = true ∨ ∃ id name, trimEnd text = id ++ ' ' :: name)

/-! ## Files and names -/

theorem openConfined_eq_ok_iff {name : Str} {within : GitDir} {content : List UInt8} :
    openConfined name within = .ok content ↔ within.find? name = some content := by
  rw [openConfined]
  cases within.find? name with
  | none => split_ifs <;> simp
  | some found => simp

theorem readSmall_eq_text_iff {name text : Str} {within : GitDir} :
    readSmall name within = .text text ↔ HoldsText within name text := by
  rw [readSmall, openConfined, HoldsText, ← length_bytes]
  cases within.find? name with
  | none => split_ifs <;> simp
  | some content =>
      dsimp only
      rw [Option.some.injEq]
      split_ifs with hlong
      · simp only [reduceCtorEq, false_iff, not_and]
        intro hcontent
        rwa [← hcontent, not_le]
      · cases htext : fromUtf8 content with
        | none =>
            simp only [Option.map_none, Option.getD_none, reduceCtorEq, false_iff, not_and]
            intro hcontent
            simp [fromUtf8_eq_some_iff.mpr hcontent.symm] at htext
        | some found =>
            obtain rfl := fromUtf8_eq_some_iff.mp htext
            simp only [Option.map_some, Option.getD_some, Small.text.injEq]
            constructor
            · rintro rfl
              exact ⟨rfl, not_lt.mp hlong⟩
            · exact fun h => bytes_injective h.1

theorem readSmall_eq_missing_iff {name : Str} {within : GitDir} :
    readSmall name within = .missing ↔ Missing within name := by
  rw [readSmall, openConfined, Missing]
  cases within.find? name with
  | none => split_ifs with hbelow <;> simpa [List.isPrefixOf_iff_prefix] using hbelow
  | some content =>
      dsimp only
      split_ifs
      · simp
      · cases fromUtf8 content <;> simp

theorem safeRef_iff {name : Str} : safeRef name = true ↔ SafeName name := by
  have hchars : (∀ c ∈ name, c ≠ '\\' ∧ c ≠ '\x00') ↔ '\\' ∉ name ∧ '\x00' ∉ name := by
    simp only [forall_and, forall_mem_ne']
  simp only [safeRef, SafeName, ConfinedName, Bool.and_eq_true, isPrefixOf_iff_prefix,
    all_eq_true, bne_iff_ne, hchars, and_assoc]
  tauto

theorem objectId_iff {text : Str} : objectId text = true ↔ CommitId text := by
  rw [objectId, CommitId, Bool.and_eq_true, all_eq_true, Bool.or_eq_true, beq_iff_eq,
    beq_iff_eq]
  refine and_congr_left fun hhex => ?_
  have hlength : byteLen text = text.length := by
    rw [← length_bytes, bytes_ascii fun c hc => ?_, length_map]
    have hle := hhex c hc
    simp only [isLowerHex, Bool.or_eq_true, Bool.and_eq_true, decide_eq_true_eq] at hle
    have hlast : c ≤ 'f' := hle.elim (fun h => h.2.trans (by decide)) And.right
    exact lt_of_le_of_lt (UInt32.le_iff_toNat_le.mp hlast) (by decide)
  rw [hlength]

/-! ## The packed references -/

theorem CommitId.not_reference {id : Str} (h : CommitId id) :
    stripStart "ref: ".toList id = none := by
  cases hstrip : stripStart "ref: ".toList id with
  | none => rfl
  | some name =>
      have hfirst : 'r' ∈ id := by simp [stripStart_eq_some_iff.mp hstrip]
      exact absurd (h.2 'r' hfirst) (by decide)

theorem packedLines_eq_ok {target id : Str} {total : ℕ} {lines : List (List UInt8)}
    (h : packedLines target total lines = .ok id) :
    ∃ before line after, lines = before ++ line :: after ∧
      (∀ earlier ∈ before, ∀ other, ¬ RefEntry earlier other target) ∧ RefEntry line id target ∧
      CommitId id := by
  induction lines generalizing total with
  | nil => cases h
  | cons line rest ih =>
      have hlater (hnot : ∀ other, ¬ RefEntry line other target)
          (hrest : packedLines target (total + line.length) rest = .ok id) :
          ∃ before found after, line :: rest = before ++ found :: after ∧
            (∀ earlier ∈ before, ∀ other, ¬ RefEntry earlier other target) ∧ RefEntry found id target ∧
            CommitId id := by
        obtain ⟨before, found, after, rfl, hbefore, hfound⟩ := ih hrest
        exact ⟨line :: before, found, after, rfl, forall_mem_cons.mpr ⟨hnot, hbefore⟩, hfound⟩
      rw [packedLines] at h
      cases htext : fromUtf8 line with
      | none => simp [htext] at h
      | some text =>
          obtain rfl := fromUtf8_eq_some_iff.mp htext
          rw [htext] at h
          dsimp only at h
          split_ifs at h with _ hskipped
          · refine hlater (fun other hentry => ?_) h
            obtain ⟨text', hsame, hkept, _⟩ := hentry
            rw [bytes_injective hsame, hskipped] at hkept
            cases hkept
          · cases hsplit : splitOnce ' ' (trimEnd text) with
            | none => simp [hsplit] at h
            | some halves =>
                obtain ⟨found, name⟩ := halves
                rw [hsplit] at h
                dsimp only at h
                obtain ⟨hentry, hspace⟩ := splitOnce_eq_some hsplit
                split_ifs at h with hname hid
                · cases h
                  subst hname
                  exact ⟨[], _, rest, rfl, fun _ hmem => (nomatch hmem),
                    ⟨text, rfl, Bool.not_eq_true _ ▸ hskipped, hspace, hentry⟩, objectId_iff.mp hid⟩
                · refine hlater (fun other hother => ?_) h
                  obtain ⟨text', hsame, _, hspace', hentry'⟩ := hother
                  rw [bytes_injective hsame, hentry] at hentry'
                  exact hname (append_cons_inj hspace hspace' hentry').2

theorem packedLines_of_first {target id : Str} {total : ℕ} {before after : List (List UInt8)}
    {line : List UInt8}
    (hvalid : ∀ entry ∈ before ++ line :: after, ∃ text, bytes text = entry ∧
      (skippedLine (trimEnd text) = true ∨ ∃ id name, trimEnd text = id ++ ' ' :: name))
    (hlimit : total + (before ++ line :: after).flatten.length ≤ maxPackedRefsBytes)
    (hbefore : ∀ earlier ∈ before, ∀ other, ¬ RefEntry earlier other target)
    (hline : RefEntry line id target) (hid : CommitId id) :
    packedLines target total (before ++ line :: after) = .ok id := by
  induction before generalizing total with
  | nil =>
      obtain ⟨text, rfl, hkept, hspace, hentry⟩ := hline
      rw [nil_append, flatten_cons, length_append] at hlimit
      rw [nil_append, packedLines, fromUtf8_bytes]
      dsimp only
      rw [if_neg (by omega), if_neg (by rw [hkept]; exact Bool.false_ne_true), hentry,
        splitOnce_append hspace]
      dsimp only
      rw [if_pos rfl, if_pos (objectId_iff.mpr hid)]
  | cons earlier rest ih =>
      rw [cons_append] at hvalid hlimit ⊢
      rw [flatten_cons, length_append] at hlimit
      obtain ⟨⟨text, rfl, hkind⟩, hrest⟩ := forall_mem_cons.mp hvalid
      obtain ⟨hnot, hbefore⟩ := forall_mem_cons.mp hbefore
      have hfound := @ih (total + (bytes text).length) hrest (by omega) hbefore
      rw [packedLines, fromUtf8_bytes]
      dsimp only
      rw [if_neg (by omega)]
      split_ifs with hskipped
      · exact hfound
      · obtain ⟨other, shown, hshown⟩ := hkind.resolve_left hskipped
        obtain ⟨found, name, hentry, hspace⟩ := eq_append_cons_of_mem
          (show ' ' ∈ trimEnd text by simp [hshown])
        rw [hentry, splitOnce_append hspace]
        dsimp only
        rw [if_neg ?_, hfound]
        rintro rfl
        exact hnot found ⟨text, rfl, Bool.not_eq_true _ ▸ hskipped, hspace, hentry⟩

theorem flatten_byteLines (content : List UInt8) : (byteLines content).flatten = content := by
  induction content with
  | nil => rfl
  | cons byte rest ih =>
      rw [byteLines]
      split_ifs
      · rw [flatten_cons, ih, singleton_append]
      · cases hlines : byteLines rest with
        | nil | cons line others =>
            rw [← ih, hlines]
            rfl

theorem packedRef_eq_ok {commonDir : GitDir} {target id : Str}
    (h : packedRef commonDir target = .ok id) : PackedAs commonDir target id := by
  rw [packedRef] at h
  cases hopen : openConfined "packed-refs".toList commonDir with
  | error outcome =>
      rw [hopen] at h
      cases outcome <;> cases h
  | ok content =>
      rw [hopen] at h
      obtain ⟨before, line, after, hlines, hfirst⟩ := packedLines_eq_ok h
      exact ⟨content, before, line, after, openConfined_eq_ok_iff.mp hopen, hlines, hfirst⟩

theorem packedRef_of_packed {commonDir : GitDir} {target id : Str} (hvalid : PackedValid commonDir)
    (h : PackedAs commonDir target id) : packedRef commonDir target = .ok id := by
  obtain ⟨content, before, line, after, hfile, hlines, hbefore, hline, hid⟩ := h
  obtain ⟨hlimit, hkinds⟩ := hvalid content hfile
  rw [packedRef, openConfined_eq_ok_iff.mpr hfile]
  dsimp only
  rw [hlines] at hkinds ⊢
  refine packedLines_of_first hkinds ?_ hbefore hline hid
  rwa [Nat.zero_add, ← hlines, flatten_byteLines]

/-! ## The loop -/

variable {dirs : GitDirs} {content last commit : Str} {names : List Str}

theorem headLoop_refers {rounds : ℕ} {reference : Option Str} {name : Str}
    (hrefers : Refers content name) (hname : SafeName name) :
    headLoop dirs (rounds + 1) reference content =
      match readSmall name (dirs.store name) with
      | .text next => headLoop dirs rounds (reference.or (some name)) next
      | .missing =>
          if perWorktree name = true then .error "ref_unresolved"
          else (packedRef dirs.commonDir name).map (reference.or (some name), ·)
      | .invalid => .error "ref_corrupt"
      | .unreadable => .error "ref_unreadable" := by
  have hsafe : ¬ safeRef name = false := by simp [safeRef_iff.mpr hname]
  rw [headLoop, stripStart_eq_some_iff.mpr hrefers]
  exact if_neg hsafe

/-- The loop follows the loose references. -/
theorem headLoop_leads (h : Leads dirs SafeName content names last) (rounds : ℕ)
    (reference : Option Str) :
    headLoop dirs (names.length + rounds) reference content =
      headLoop dirs rounds (reference.or names.head?) last := by
  induction h generalizing reference with
  | here content => simp
  | @follow content name next last names hrefers hname hloose _ ih =>
      rw [length_cons, Nat.add_right_comm, headLoop_refers hrefers hname,
        readSmall_eq_text_iff.mpr hloose]
      dsimp only
      rw [ih]
      cases reference <;> rfl

/-- What the loop finds is where the references lead. -/
theorem resolves_of_headLoop {rounds : ℕ} {reference found : Option Str}
    (h : headLoop dirs rounds reference content = .ok (found, commit)) :
    ∃ names, Resolves dirs SafeName content names commit ∧ found = reference.or names.head? := by
  induction rounds generalizing reference content with
  | zero => cases h
  | succ rounds ih =>
      cases hstrip : stripStart "ref: ".toList (trimEnd content) with
      | none =>
          rw [headLoop, hstrip] at h
          dsimp only at h
          split_ifs at h with hid
          cases h
          exact ⟨[], .inl ⟨content, .here content, rfl, objectId_iff.mp hid⟩, by simp⟩
      | some name =>
          have hrefers : Refers content name := stripStart_eq_some_iff.mp hstrip
          by_cases hunsafe : safeRef name = false
          · rw [headLoop, hstrip] at h
            dsimp only at h
            rw [if_pos hunsafe] at h
            cases h
          have hname := safeRef_iff.mp (Bool.not_eq_false _ ▸ hunsafe)
          rw [headLoop_refers hrefers hname] at h
          cases hread : readSmall name (dirs.store name) with
          | invalid | unreadable => simp [hread] at h
          | text next =>
              rw [hread] at h
              obtain ⟨names, hresolves, rfl⟩ := ih h
              have hloose := readSmall_eq_text_iff.mp hread
              refine ⟨name :: names, ?_, by cases reference <;> rfl⟩
              rcases hresolves with ⟨last, hleads, hlast⟩ | ⟨front, packed, last, rfl, hleads, hlast⟩
              · exact .inl ⟨last, .follow hrefers hname hloose hleads, hlast⟩
              · exact .inr ⟨name :: front, packed, last, rfl,
                  .follow hrefers hname hloose hleads, hlast⟩
          | missing =>
              rw [hread] at h
              dsimp only at h
              split_ifs at h with hshared
              obtain ⟨id, hid, hfound⟩ := map_eq_ok_iff.mp h
              obtain ⟨rfl, rfl⟩ := Prod.mk.inj hfound
              have hmissing := readSmall_eq_missing_iff.mp hread
              rw [GitDirs.store, if_neg hshared] at hmissing
              exact ⟨[name], .inr ⟨[], name, content, rfl, .here content, hrefers, hname,
                Bool.not_eq_true _ ▸ hshared, hmissing, packedRef_eq_ok hid⟩, rfl⟩

/-- The loop finds where at most five references lead. -/
theorem headLoop_of_resolves (hvalid : PackedValid dirs.commonDir)
    (h : Resolves dirs SafeName content names commit) (hlength : names.length ≤ maxSymrefDepth) :
    headLoop dirs (maxSymrefDepth + 1) none content = .ok (names.head?, commit) := by
  have hrounds (front : List Str) (hle : front.length ≤ maxSymrefDepth) :
      maxSymrefDepth + 1 = front.length + (maxSymrefDepth - front.length + 1) := by omega
  rcases h with ⟨last, hleads, rfl, hid⟩ |
    ⟨front, name, last, rfl, hleads, hrefers, hname, hshared, hmissing, hpacked⟩
  · rw [hrounds names hlength, headLoop_leads hleads, headLoop, hid.not_reference]
    exact if_pos (objectId_iff.mpr hid)
  · rw [length_append, length_singleton] at hlength
    have hshared' : ¬ perWorktree name = true := by simp [hshared]
    rw [hrounds front (by omega), headLoop_leads hleads, headLoop_refers hrefers hname,
      GitDirs.store, if_neg hshared', readSmall_eq_missing_iff.mpr hmissing]
    dsimp only
    rw [if_neg hshared', packedRef_of_packed hvalid hpacked]
    cases front <;> rfl

theorem safeName_of_resolves (h : Resolves dirs SafeName content names commit) :
    CommitId commit ∧ ∀ name ∈ names, SafeName name := by
  have hleads {content last : Str} {names : List Str} (h : Leads dirs SafeName content names last) :
      ∀ name ∈ names, SafeName name := by
    induction h with
    | here content => exact fun _ hmem => (nomatch hmem)
    | follow _ hname _ _ ih => exact forall_mem_cons.mpr ⟨hname, ih⟩
  rcases h with ⟨last, h, _, hid⟩ | ⟨front, name, last, rfl, h, _, hname, _, _, hpacked⟩
  · exact ⟨hid, hleads h⟩
  · obtain ⟨_, _, _, _, _, _, _, _, hid⟩ := hpacked
    refine ⟨hid, fun other hmem => ?_⟩
    rcases mem_append.mp hmem with hfront | hlast
    · exact hleads h other hfront
    · exact mem_singleton.mp hlast ▸ hname

/-! ## The commit of a root -/

theorem readRevision_eq_attested_iff {reference : Option Str} :
    readRevision (.ok dirs) = .attested reference commit ↔ dirs.hasReftable = false ∧
      ∃ content, HoldsText dirs.gitDir "HEAD".toList content ∧
        headLoop dirs (maxSymrefDepth + 1) none content = .ok (reference, commit) := by
  have hhead : readRevision (.ok dirs) = .attested reference commit ↔
      head dirs = .ok (reference, commit) := by
    rw [readRevision, ok_bind]
    cases head dirs <;> simp [Prod.ext_iff]
  rw [hhead, head, check_bind_eq_ok_iff, failIf_eq_ok_iff, Bool.not_eq_true]
  refine and_congr_right fun _ => ?_
  simp only [← readSmall_eq_text_iff]
  cases readSmall "HEAD".toList dirs.gitDir <;> simp

/-- An attested commit is where the references from `HEAD` lead; where at most five references lead
is attested; six loose references are too many. -/
theorem readRevision_resolves (dirs : GitDirs) :
    (∀ reference commit, readRevision (.ok dirs) = .attested reference commit →
      CommitId commit ∧ ∃ content names, HoldsText dirs.gitDir "HEAD".toList content ∧
        Resolves dirs SafeName content names commit ∧ reference = names.head? ∧
        ∀ name ∈ names, SafeName name) ∧
    (dirs.hasReftable = false → ∀ content, HoldsText dirs.gitDir "HEAD".toList content →
      (∀ names commit, Resolves dirs SafeName content names commit → names.length ≤ 5 →
        PackedValid dirs.commonDir →
        readRevision (.ok dirs) = .attested names.head? commit) ∧
      ∀ names last, Leads dirs SafeName content names last → names.length = 6 →
        readRevision (.ok dirs) = .unavailable "ref_cycle".toList) := by
  refine ⟨fun reference commit h => ?_, fun hreftable content hhead => ⟨?_, ?_⟩⟩
  · obtain ⟨_, content, hhead, hloop⟩ := readRevision_eq_attested_iff.mp h
    obtain ⟨names, hresolves, hreference⟩ := resolves_of_headLoop hloop
    obtain ⟨hid, hnames⟩ := safeName_of_resolves hresolves
    exact ⟨hid, content, names, hhead, hresolves, hreference, hnames⟩
  · intro names commit hresolves hlength hvalid
    exact readRevision_eq_attested_iff.mpr
      ⟨hreftable, content, hhead, headLoop_of_resolves hvalid hresolves hlength⟩
  · intro names last hleads hlength
    have hloop : headLoop dirs (maxSymrefDepth + 1) none content = .error "ref_cycle" := by
      rw [show maxSymrefDepth + 1 = names.length + 0 by rw [hlength]; rfl, headLoop_leads hleads]
      rfl
    rw [readRevision, ok_bind, head, hreftable, readSmall_eq_text_iff.mpr hhead]
    dsimp only
    rw [hloop]
    rfl

/-- A reference with a backslash leads to a commit that is not attested. -/
def backslashDirs : GitDirs :=
  let files : GitDir := OrdMap.ofList [("HEAD".toList, bytes "ref: refs/a\\b".toList),
    ("refs/a\\b".toList, List.replicate 40 48)]
  ⟨files, files⟩

theorem not_readRevision_resolves_backslash :
    ¬ ∀ (dirs : GitDirs) (content : Str) (names : List Str) (commit : Str),
      dirs.hasReftable = false → HoldsText dirs.gitDir "HEAD".toList content →
      Resolves dirs ConfinedName content names commit → names.length ≤ 5 →
      PackedValid dirs.commonDir → readRevision (.ok dirs) = .attested names.head? commit := by
  intro h
  have hrefers : Refers "ref: refs/a\\b".toList "refs/a\\b".toList := by
    unfold Refers
    decide
  have hname : ConfinedName "refs/a\\b".toList := by
    unfold ConfinedName
    decide
  have hid : CommitId (List.replicate 40 '0') := by
    unfold CommitId
    decide
  have hnone := h backslashDirs "ref: refs/a\\b".toList ["refs/a\\b".toList]
    (List.replicate 40 '0') (by decide) ⟨by decide +kernel, by decide⟩
    (.inl ⟨List.replicate 40 '0', .follow hrefers hname ⟨by decide +kernel, by decide⟩ (.here _),
      by decide +kernel, hid⟩) (by decide) (fun content hfile => by
        rw [show backslashDirs.commonDir.find? "packed-refs".toList = none by decide +kernel] at hfile
        cases hfile)
  exact absurd hnone (by decide +kernel)

end Bran.Cli
