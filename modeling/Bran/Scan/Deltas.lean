import Bran.Graph.Structural
import Bran.Scan.Walk

/-!
# The deltas of an index transaction

`classify_deltas` of `transaction.rs` turns the lists of a scan change into deltas.  A removed and an
added file with equal bytes and evidence are a rename when neither has another such partner, and are
reported as ambiguous otherwise.
-/

namespace Bran.Scan

open List OrdMap Validation

open Bran.Graph (StructuralSourceType)
open Bran.Agent (sha256Value)

/-! ## Parse results -/

structure PreextractedTextProvenance where
  originalArtifactDigest : Str
  extractorIdentity : Str
  extractorVersion : Str
  extractionDigest : Str
  deriving DecidableEq

/-- What `classify_deltas` reads of a `StructuralParseResult`. -/
structure StructuralParseResult where
  sourceType : Option StructuralSourceType
  provenance : Option PreextractedTextProvenance
  deriving DecidableEq

/-! ## Deltas -/

inductive IndexDeltaKind
  | create
  | change
  | delete
  | rename
  deriving DecidableEq

structure IndexDelta where
  kind : IndexDeltaKind
  oldPath : Option Str
  newPath : Option Str
  deriving DecidableEq

structure RenameAmbiguity where
  contentDigest : Str
  removedPaths : List Str
  addedPaths : List Str
  deriving DecidableEq

/-- An old path with a new one, in the order of a `BTreeSet` of pairs. -/
abbrev PathPair := Str ×ₗ Str

section Classification

variable {M : Type}

def sameEvidence (previousParsed currentParsed : OrdMap Str StructuralParseResult)
    (oldPath newPath : Str) : Bool :=
  match previousParsed.find? oldPath, currentParsed.find? newPath with
  | some old, some new => old.sourceType = new.sourceType && old.provenance = new.provenance
  | _, _ => false

/-- A removed and an added path may be one file. -/
def isEligible (previous current : ScanSnapshot M)
    (previousParsed currentParsed : OrdMap Str StructuralParseResult) (oldPath newPath : Str) :
    Bool :=
  match previous.entries.find? oldPath, current.entries.find? newPath with
  | some old, some new =>
      old.source = new.source && sameEvidence previousParsed currentParsed oldPath newPath
  | _, _ => false

/-- `eligible`. -/
def eligiblePairs (change : ScanChange M) (previous current : ScanSnapshot M)
    (previousParsed currentParsed : OrdMap Str StructuralParseResult) : OrdSet PathPair :=
  .ofList (change.removed.flatMap fun oldPath =>
    (change.added.filter (isEligible previous current previousParsed currentParsed oldPath)).map
      fun newPath => toLex (oldPath, newPath))

/-- The old paths and the new paths that share a digest. -/
structure AmbiguityGroup where
  removed : OrdSet Str
  added : OrdSet Str

/-- `renames` and `ambiguity_by_digest`. -/
structure Pairing where
  renames : OrdSet PathPair
  ambiguityByDigest : OrdMap Str AmbiguityGroup

/-- `old_count` and `new_count` are both 1. -/
def isUnique (eligible : OrdSet PathPair) (pair : PathPair) : Bool :=
  eligible.keys.countP (fun other => (ofLex other).1 = (ofLex pair).1) = 1 &&
    eligible.keys.countP (fun other => (ofLex other).2 = (ofLex pair).2) = 1

/-- `group.0.insert(old_path.clone()); group.1.insert(new_path.clone())`. -/
def AmbiguityGroup.insert (group : AmbiguityGroup) (pair : PathPair) : AmbiguityGroup :=
  ⟨group.removed.insert (ofLex pair).1 (), group.added.insert (ofLex pair).2 ()⟩

/-- One eligible pair of the loop. -/
def pairStep (previous : ScanSnapshot M) (eligible : OrdSet PathPair) (pairing : Pairing)
    (pair : PathPair) : Pairing :=
  if isUnique eligible pair then { pairing with renames := pairing.renames.insert pair () }
  else
    match previous.entries.find? (ofLex pair).1 with
    | none => pairing
    | some entry =>
        let digest := sha256Value entry.source
        let group := (pairing.ambiguityByDigest.find? digest).getD ⟨.empty, .empty⟩
        { pairing with
          ambiguityByDigest := pairing.ambiguityByDigest.insert digest (group.insert pair) }

/-- The renames and the ambiguous groups of the eligible pairs. -/
def pairUp (previous : ScanSnapshot M) (eligible : OrdSet PathPair) : Pairing :=
  eligible.keys.foldl (pairStep previous eligible) ⟨.empty, .empty⟩

def createDelta (path : Str) : IndexDelta := ⟨.create, none, some path⟩

def changeDelta (path : Str) : IndexDelta := ⟨.change, some path, some path⟩

def deleteDelta (path : Str) : IndexDelta := ⟨.delete, some path, none⟩

def renameDelta (pair : PathPair) : IndexDelta :=
  ⟨.rename, some (ofLex pair).1, some (ofLex pair).2⟩

def classifyDeltas (change : ScanChange M) (previous current : ScanSnapshot M)
    (previousParsed currentParsed : OrdMap Str StructuralParseResult) :
    List IndexDelta × List RenameAmbiguity :=
  let pairing := pairUp previous
    (eligiblePairs change previous current previousParsed currentParsed)
  let renamedOld : OrdSet Str := .ofList (pairing.renames.keys.map fun pair => (ofLex pair).1)
  let renamedNew : OrdSet Str := .ofList (pairing.renames.keys.map fun pair => (ofLex pair).2)
  ((change.added.filter fun path => !renamedNew.contains path).map createDelta ++
      (change.changed.map changeDelta ++
        ((change.removed.filter fun path => !renamedOld.contains path).map deleteDelta ++
          pairing.renames.keys.map renameDelta)),
    pairing.ambiguityByDigest.entries.map fun entry =>
      ⟨entry.1, entry.2.removed.keys, entry.2.added.keys⟩)

end Classification

/-! ## The lists of a change -/

/-- The lists of a change name no path twice. -/
structure ScanChange.Listed {M : Type} (change : ScanChange M) : Prop where
  added : change.added.Nodup
  changed : change.changed.Nodup
  removed : change.removed.Nodup

/-! ## Eligible pairs -/

section Pairs

variable {M : Type} {change : ScanChange M} {previous current : ScanSnapshot M}
  {previousParsed currentParsed : OrdMap Str StructuralParseResult}

/-- A removed and an added file have equal bytes, source type and provenance. -/
structure Partners (change : ScanChange M) (previous current : ScanSnapshot M)
    (previousParsed currentParsed : OrdMap Str StructuralParseResult) (oldPath newPath : Str) :
    Prop where
  removed : oldPath ∈ change.removed
  added : newPath ∈ change.added
  bytes : ∃ old new, previous.entries.find? oldPath = some old ∧
    current.entries.find? newPath = some new ∧ old.source = new.source
  evidence : ∃ old new, previousParsed.find? oldPath = some old ∧
    currentParsed.find? newPath = some new ∧ old.sourceType = new.sourceType ∧
    old.provenance = new.provenance

theorem sameEvidence_iff {oldPath newPath : Str} :
    sameEvidence previousParsed currentParsed oldPath newPath = true ↔
      ∃ old new, previousParsed.find? oldPath = some old ∧
        currentParsed.find? newPath = some new ∧ old.sourceType = new.sourceType ∧
        old.provenance = new.provenance := by
  rw [sameEvidence]
  cases previousParsed.find? oldPath with
  | none => simp
  | some old =>
      cases currentParsed.find? newPath with
      | none => simp
      | some new => simp

theorem isEligible_iff {oldPath newPath : Str} :
    isEligible previous current previousParsed currentParsed oldPath newPath = true ↔
      (∃ old new, previous.entries.find? oldPath = some old ∧
        current.entries.find? newPath = some new ∧ old.source = new.source) ∧
      sameEvidence previousParsed currentParsed oldPath newPath = true := by
  rw [isEligible]
  cases previous.entries.find? oldPath with
  | none => simp
  | some old =>
      cases current.entries.find? newPath with
      | none => simp
      | some new => simp

theorem mem_eligiblePairs {pair : PathPair} :
    pair ∈ (eligiblePairs change previous current previousParsed currentParsed).keys ↔
      Partners change previous current previousParsed currentParsed (ofLex pair).1
        (ofLex pair).2 := by
  rw [eligiblePairs, OrdSet.mem_keys_ofList, mem_flatMap]
  constructor
  · intro h
    obtain ⟨oldPath, hold, hpair⟩ := h
    obtain ⟨newPath, hnew, rfl⟩ := mem_map.mp hpair
    obtain ⟨hadded, heligible⟩ := mem_filter.mp hnew
    obtain ⟨hbytes, hevidence⟩ := isEligible_iff.mp heligible
    exact ⟨hold, hadded, hbytes, sameEvidence_iff.mp hevidence⟩
  · intro h
    have heligible := isEligible_iff.mpr ⟨h.bytes, sameEvidence_iff.mpr h.evidence⟩
    exact ⟨_, h.removed, mem_map.mpr ⟨_, mem_filter.mpr ⟨h.added, heligible⟩, rfl⟩⟩

/-- Of a list without repetition one member alone has a property. -/
theorem countP_eq_one_iff {α : Type} {l : List α} (hnodup : l.Nodup) {p : α → Bool} {a : α}
    (ha : a ∈ l) (hp : p a = true) : l.countP p = 1 ↔ ∀ b ∈ l, p b = true → b = a := by
  rw [countP_eq_length_filter]
  have hmem : a ∈ l.filter p := mem_filter.mpr ⟨ha, hp⟩
  constructor
  · intro hone b hb hpb
    obtain ⟨c, hc⟩ := length_eq_one_iff.mp hone
    have hb' : b ∈ l.filter p := mem_filter.mpr ⟨hb, hpb⟩
    rw [hc, mem_singleton] at hmem hb'
    exact hb'.trans hmem.symm
  · intro hall
    have hsame : ∀ b ∈ l.filter p, b = a := fun b hb =>
      hall b (mem_filter.mp hb).1 (mem_filter.mp hb).2
    have hreplicate := eq_replicate_of_mem hsame
    have hle : (l.filter p).length ≤ 1 := by
      have hfilter := hnodup.filter p
      rw [hreplicate] at hfilter
      exact nodup_replicate.mp hfilter
    have hpos := length_pos_of_mem hmem
    omega

variable {eligible : OrdSet PathPair} {pair : PathPair}

theorem isUnique_iff (h : pair ∈ eligible.keys) :
    isUnique eligible pair = true ↔
      (∀ other ∈ eligible.keys, (ofLex other).1 = (ofLex pair).1 → other = pair) ∧
      ∀ other ∈ eligible.keys, (ofLex other).2 = (ofLex pair).2 → other = pair := by
  rw [isUnique, Bool.and_eq_true, decide_eq_true_eq, decide_eq_true_eq,
    countP_eq_one_iff eligible.keys_nodup h (decide_eq_true rfl),
    countP_eq_one_iff eligible.keys_nodup h (decide_eq_true rfl)]
  simp only [decide_eq_true_eq]

/-! ## The loop over the pairs -/

/-- The renames are the unique pairs. -/
theorem mem_renames_foldl (eligible : OrdSet PathPair) (pairs : List PathPair) (pairing : Pairing) :
    pair ∈ (pairs.foldl (pairStep previous eligible) pairing).renames.keys ↔
      pair ∈ pairing.renames.keys ∨ (pair ∈ pairs ∧ isUnique eligible pair = true) := by
  induction pairs generalizing pairing with
  | nil => simp
  | cons first rest ih =>
      rw [foldl_cons, ih, mem_cons]
      have hstep : pair ∈ (pairStep previous eligible pairing first).renames.keys ↔
          pair ∈ pairing.renames.keys ∨ (pair = first ∧ isUnique eligible pair = true) := by
        rw [pairStep]
        by_cases hunique : isUnique eligible first = true
        · rw [if_pos hunique, mem_keys_insert]
          constructor
          · intro h
            rcases h with rfl | h
            · exact Or.inr ⟨rfl, hunique⟩
            · exact Or.inl h
          · intro h
            rcases h with h | ⟨rfl, _⟩
            · exact Or.inr h
            · exact Or.inl rfl
        · rw [if_neg hunique]
          have hsame : ¬(pair = first ∧ isUnique eligible pair = true) := by
            intro h
            obtain ⟨rfl, h⟩ := h
            exact hunique h
          cases previous.entries.find? (ofLex first).1 <;> simp only [hsame, or_false]
      rw [hstep]
      tauto

/-- A pair stands in the group of a digest. -/
def Grouped (groups : OrdMap Str AmbiguityGroup) (digest : Str) (pair : PathPair) : Prop :=
  ∃ group, groups.find? digest = some group ∧ (ofLex pair).1 ∈ group.removed.keys ∧
    (ofLex pair).2 ∈ group.added.keys

theorem grouped_insert_self (groups : OrdMap Str AmbiguityGroup) (digest : Str)
    (group : AmbiguityGroup) (pair : PathPair) :
    Grouped (groups.insert digest (group.insert pair)) digest pair :=
  ⟨_, find?_insert_self _ _ _, mem_keys_insert.mpr (Or.inl rfl),
    mem_keys_insert.mpr (Or.inl rfl)⟩

theorem Grouped.pairStep {pairing : Pairing} {digest : Str}
    (h : Grouped pairing.ambiguityByDigest digest pair) (other : PathPair) :
    Grouped (pairStep previous eligible pairing other).ambiguityByDigest digest pair := by
  obtain ⟨group, hgroup, hold, hnew⟩ := h
  rw [Scan.pairStep]
  split_ifs
  · exact ⟨group, hgroup, hold, hnew⟩
  · cases previous.entries.find? (ofLex other).1 with
    | none => exact ⟨group, hgroup, hold, hnew⟩
    | some entry =>
        dsimp only
        by_cases hdigest : sha256Value entry.source = digest
        · -- the group of the pair gets one more pair
          rw [hdigest, hgroup, Option.getD_some]
          exact ⟨_, find?_insert_self _ _ _, mem_keys_insert.mpr (Or.inr hold),
            mem_keys_insert.mpr (Or.inr hnew)⟩
        · exact ⟨group, (find?_insert_of_ne _ _ hdigest).trans hgroup, hold, hnew⟩

theorem Grouped.foldl {digest : Str} (pairs : List PathPair) {pairing : Pairing}
    (h : Grouped pairing.ambiguityByDigest digest pair) :
    Grouped (pairs.foldl (Scan.pairStep previous eligible) pairing).ambiguityByDigest digest
      pair := by
  induction pairs generalizing pairing with
  | nil => exact h
  | cons first rest ih => exact ih (h.pairStep first)

/-- A pair that is not unique is put into the group of its digest. -/
theorem grouped_of_mem {entry : ScanEntry M} (hunique : isUnique eligible pair ≠ true)
    (hentry : previous.entries.find? (ofLex pair).1 = some entry) {pairs : List PathPair}
    (hmem : pair ∈ pairs) (pairing : Pairing) :
    Grouped (pairs.foldl (pairStep previous eligible) pairing).ambiguityByDigest
      (sha256Value entry.source) pair := by
  induction pairs generalizing pairing with
  | nil => exact absurd hmem not_mem_nil
  | cons first rest ih =>
      rw [foldl_cons]
      rcases mem_cons.mp hmem with rfl | hrest
      · apply Grouped.foldl
        rw [pairStep, if_neg hunique, hentry]
        exact grouped_insert_self _ _ _ _
      · exact ih hrest _

theorem mem_renames {pair : PathPair} {eligible : OrdSet PathPair} :
    pair ∈ (pairUp previous eligible).renames.keys ↔
      pair ∈ eligible.keys ∧ isUnique eligible pair = true := by
  rw [pairUp, mem_renames_foldl, keys_empty]
  simp

/-! ## Counting deltas -/

/-- One pair is the partners of each other alone. -/
def SolePartners (change : ScanChange M) (previous current : ScanSnapshot M)
    (previousParsed currentParsed : OrdMap Str StructuralParseResult) (oldPath newPath : Str) :
    Prop :=
  Partners change previous current previousParsed currentParsed oldPath newPath ∧
    (∀ other, Partners change previous current previousParsed currentParsed oldPath other →
      other = newPath) ∧
    ∀ other, Partners change previous current previousParsed currentParsed other newPath →
      other = oldPath

theorem mem_renames_iff {pair : PathPair} :
    pair ∈ (pairUp previous
        (eligiblePairs change previous current previousParsed currentParsed)).renames.keys ↔
      SolePartners change previous current previousParsed currentParsed (ofLex pair).1
        (ofLex pair).2 := by
  rw [mem_renames]
  constructor
  · intro h
    obtain ⟨hmem, hunique⟩ := h
    obtain ⟨hold, hnew⟩ := (isUnique_iff hmem).mp hunique
    refine ⟨mem_eligiblePairs.mp hmem, fun other hother => ?_, fun other hother => ?_⟩
    · have hsame := hold (toLex ((ofLex pair).1, other)) (mem_eligiblePairs.mpr hother) rfl
      exact congrArg (fun pair => (ofLex pair).2) hsame
    · have hsame := hnew (toLex (other, (ofLex pair).2)) (mem_eligiblePairs.mpr hother) rfl
      exact congrArg (fun pair => (ofLex pair).1) hsame
  · intro h
    obtain ⟨hpartners, hold, hnew⟩ := h
    have hmem := mem_eligiblePairs.mpr hpartners
    refine ⟨hmem, (isUnique_iff hmem).mpr ⟨fun other hother heq => ?_, fun other hother heq => ?_⟩⟩
    · have hother := mem_eligiblePairs.mp hother
      rw [heq] at hother
      exact congrArg toLex (Prod.ext heq (hold _ hother))
    · have hother := mem_eligiblePairs.mp hother
      rw [heq] at hother
      exact congrArg toLex (Prod.ext (hnew _ hother) heq)

/-- Of a list without repetition, a member is left out or counted once, and no one is counted that
is left out and found elsewhere once. -/
theorem countP_filter_add {α : Type} {listed : List α} {pairs : List PathPair}
    (hlisted : listed.Nodup) (hpairs : pairs.Nodup) (side : PathPair → α) [DecidableEq α]
    (hside : ∀ pair ∈ pairs, ∀ other ∈ pairs, side pair = side other → pair = other)
    (left : α → Bool) (hleft : ∀ a, left a = true ↔ a ∉ pairs.map side) {a : α}
    (ha : a ∈ listed) :
    (listed.filter left).countP (fun b => b = a) + pairs.countP (fun pair => side pair = a) = 1 := by
  by_cases hmem : a ∈ pairs.map side
  · obtain ⟨pair, hpair, rfl⟩ := mem_map.mp hmem
    have hout : (listed.filter left).countP (fun b => b = side pair) = 0 := by
      rw [countP_eq_zero]
      intro b hb hsame
      obtain rfl := of_decide_eq_true hsame
      exact (hleft _).mp (mem_filter.mp hb).2 hmem
    have hone : pairs.countP (fun other => side other = side pair) = 1 := by
      rw [countP_eq_one_iff hpairs hpair (decide_eq_true rfl)]
      intro other hother hsame
      exact hside other hother pair hpair (of_decide_eq_true hsame)
    omega
  · have hin : a ∈ listed.filter left := mem_filter.mpr ⟨ha, (hleft a).mpr hmem⟩
    have hone : (listed.filter left).countP (fun b => b = a) = 1 := by
      rw [countP_eq_one_iff (hlisted.filter _) hin (decide_eq_true rfl)]
      exact fun b _ hsame => of_decide_eq_true hsame
    have hnone : pairs.countP (fun pair => side pair = a) = 0 := by
      rw [countP_eq_zero]
      intro pair hpair hsame
      exact hmem (mem_map.mpr ⟨pair, hpair, of_decide_eq_true hsame⟩)
    omega

/-- What the classification of a change says about its paths. -/
structure Classified (change : ScanChange M) (previous current : ScanSnapshot M)
    (previousParsed currentParsed : OrdMap Str StructuralParseResult)
    (result : List IndexDelta × List RenameAmbiguity) : Prop where
  /-- A removed path is deleted or renamed, once. -/
  removed : ∀ path ∈ change.removed, result.1.countP (fun delta =>
    (delta.kind = .delete ∨ delta.kind = .rename) ∧ delta.oldPath = some path) = 1
  /-- An added path is created or the new path of a rename, once. -/
  added : ∀ path ∈ change.added, result.1.countP (fun delta =>
    (delta.kind = .create ∨ delta.kind = .rename) ∧ delta.newPath = some path) = 1
  changed : ∀ path ∈ change.changed, result.1.countP (fun delta =>
    delta.kind = .change ∧ (delta.oldPath = some path ∨ delta.newPath = some path)) = 1
  renamed : ∀ oldPath newPath, ⟨.rename, some oldPath, some newPath⟩ ∈ result.1 ↔
    SolePartners change previous current previousParsed currentParsed oldPath newPath
  /-- Partners that are no rename are in the one ambiguity of their digest. -/
  ambiguous : ∀ oldPath newPath,
    Partners change previous current previousParsed currentParsed oldPath newPath →
    ⟨.rename, some oldPath, some newPath⟩ ∉ result.1 →
    ∃ entry, previous.entries.find? oldPath = some entry ∧
      ∃ ambiguity ∈ result.2, ambiguity.contentDigest = sha256Value entry.source ∧
        oldPath ∈ ambiguity.removedPaths ∧ newPath ∈ ambiguity.addedPaths ∧
        ∀ other ∈ result.2, other.contentDigest = sha256Value entry.source → other = ambiguity

theorem rename_mem_iff {oldPath newPath : Str} :
    ⟨.rename, some oldPath, some newPath⟩ ∈
        (classifyDeltas change previous current previousParsed currentParsed).1 ↔
      SolePartners change previous current previousParsed currentParsed oldPath newPath := by
  rw [classifyDeltas]
  dsimp only
  rw [mem_append, mem_append, mem_append]
  constructor
  · intro h
    rcases h with h | h | h | h
    · obtain ⟨path, _, hpath⟩ := mem_map.mp h
      cases hpath
    · obtain ⟨path, _, hpath⟩ := mem_map.mp h
      cases hpath
    · obtain ⟨path, _, hpath⟩ := mem_map.mp h
      cases hpath
    · obtain ⟨pair, hmem, hpair⟩ := mem_map.mp h
      obtain ⟨rfl, rfl⟩ : (ofLex pair).1 = oldPath ∧ (ofLex pair).2 = newPath := by
        simpa [renameDelta] using hpair
      exact mem_renames_iff.mp hmem
  · intro h
    have hmem := (@mem_renames_iff _ _ _ _ _ _ (toLex (oldPath, newPath))).mpr h
    exact Or.inr (Or.inr (Or.inr (mem_map.mpr ⟨_, hmem, rfl⟩)))

/-- The renamed paths of one side. -/
theorem contains_side {α : Type} [LinearOrder α] (pairs : List PathPair) (side : PathPair → α)
    (path : α) : (!(OrdSet.ofList (pairs.map side)).contains path) = true ↔
      path ∉ pairs.map side := by
  rw [Bool.not_eq_true', ← Bool.not_eq_true, OrdMap.contains_iff, OrdSet.mem_keys_ofList]

theorem countP_deleted (hremoved : change.removed.Nodup) {path : Str}
    (hpath : path ∈ change.removed) :
    (classifyDeltas change previous current previousParsed currentParsed).1.countP (fun delta =>
      (delta.kind = .delete ∨ delta.kind = .rename) ∧ delta.oldPath = some path) = 1 := by
  rw [classifyDeltas]
  dsimp only
  have hnodup := (pairUp previous
    (eligiblePairs change previous current previousParsed currentParsed)).renames.keys_nodup
  have hcount := countP_filter_add hremoved hnodup (fun pair => (ofLex pair).1)
    (fun pair hpair other hother hsame => by
      have hsole := (mem_renames_iff.mp hother).2.1 (ofLex pair).2
      rw [← hsame] at hsole
      exact congrArg toLex (Prod.ext hsame (hsole (mem_renames_iff.mp hpair).1)))
    _ (contains_side _ _) hpath
  simpa [countP_map, Function.comp_def, createDelta, changeDelta, deleteDelta, renameDelta]
    using hcount

theorem countP_created (hadded : change.added.Nodup) {path : Str}
    (hpath : path ∈ change.added) :
    (classifyDeltas change previous current previousParsed currentParsed).1.countP (fun delta =>
      (delta.kind = .create ∨ delta.kind = .rename) ∧ delta.newPath = some path) = 1 := by
  rw [classifyDeltas]
  dsimp only
  have hnodup := (pairUp previous
    (eligiblePairs change previous current previousParsed currentParsed)).renames.keys_nodup
  have hcount := countP_filter_add hadded hnodup (fun pair => (ofLex pair).2)
    (fun pair hpair other hother hsame => by
      have hsole := (mem_renames_iff.mp hother).2.2 (ofLex pair).1
      rw [← hsame] at hsole
      exact congrArg toLex (Prod.ext (hsole (mem_renames_iff.mp hpair).1) hsame))
    _ (contains_side _ _) hpath
  simpa [countP_map, Function.comp_def, createDelta, changeDelta, deleteDelta, renameDelta]
    using hcount

theorem countP_changed (hchanged : change.changed.Nodup) {path : Str}
    (hpath : path ∈ change.changed) :
    (classifyDeltas change previous current previousParsed currentParsed).1.countP (fun delta =>
      delta.kind = .change ∧ (delta.oldPath = some path ∨ delta.newPath = some path)) = 1 := by
  rw [classifyDeltas]
  dsimp only
  have hone : change.changed.countP (fun other => other = path) = 1 := by
    rw [countP_eq_one_iff hchanged hpath (decide_eq_true rfl)]
    exact fun _ _ hsame => of_decide_eq_true hsame
  simpa [countP_map, Function.comp_def, createDelta, changeDelta, deleteDelta, renameDelta]
    using hone

/-- The classification of a change whose lists name no path twice. -/
theorem classifyDeltas_classified (h : change.Listed) :
    Classified change previous current previousParsed currentParsed
      (classifyDeltas change previous current previousParsed currentParsed) where
  removed _ hpath := countP_deleted h.removed hpath
  added _ hpath := countP_created h.added hpath
  changed _ hpath := countP_changed h.changed hpath
  renamed _ _ := rename_mem_iff
  ambiguous oldPath newPath hpartners hrename := by
    obtain ⟨entry, _, hentry, _, _⟩ := hpartners.bytes
    have hmem := (@mem_eligiblePairs _ _ _ _ _ _ (toLex (oldPath, newPath))).mpr hpartners
    have hunique : isUnique (eligiblePairs change previous current previousParsed currentParsed)
        (toLex (oldPath, newPath)) ≠ true := by
      intro hunique
      have hrenamed := (@mem_renames _ previous _ _).mpr ⟨hmem, hunique⟩
      exact hrename (rename_mem_iff.mpr (mem_renames_iff.mp hrenamed))
    obtain ⟨group, hgroup, hold, hnew⟩ := grouped_of_mem hunique hentry hmem ⟨.empty, .empty⟩
    refine ⟨entry, hentry, _, mem_map.mpr ⟨_, mem_entries_iff.mpr hgroup, rfl⟩, rfl,
      hold, hnew, fun other hother hdigest => ?_⟩
    -- a map has one entry under a digest
    obtain ⟨⟨digest, group'⟩, hentry', rfl⟩ := mem_map.mp hother
    obtain rfl : digest = _ := hdigest
    obtain rfl := Option.some.inj ((mem_entries_iff.mp hentry').symm.trans hgroup)
    rfl

end Pairs

/-- One byte in a file that a scan finds at a path. -/
def oneByteAt (path : Str) : ScanSnapshot Unit :=
  ⟨.ofList [(path, ⟨.fromBytes [97], [97], ()⟩)], [], ⟨.fromBytes [], .fromBytes [], .fromBytes [],
    .fromBytes [], .fromBytes [], .fromBytes []⟩, 1, 1, .ofList [(path, 1)]⟩

def parsedText (path : Str) : OrdMap Str StructuralParseResult :=
  .ofList [(path, ⟨some .text, none⟩)]

/-- A file under another name. -/
def movedChange : ScanChange Unit := ⟨oneByteAt ['b'], [['b']], [], [['a']], [], []⟩

theorem classifyDeltas_classified_moved :
    Classified movedChange (oneByteAt ['a']) (oneByteAt ['b']) (parsedText ['a'])
      (parsedText ['b']) (classifyDeltas movedChange (oneByteAt ['a']) (oneByteAt ['b'])
        (parsedText ['a']) (parsedText ['b'])) :=
  classifyDeltas_classified ⟨nodup_singleton _, nodup_nil, nodup_singleton _⟩

example : (classifyDeltas movedChange (oneByteAt ['a']) (oneByteAt ['b']) (parsedText ['a'])
    (parsedText ['b'])).1 = [⟨.rename, some ['a'], some ['b']⟩] := by
  decide +kernel

/-! ## The changes of the scanner -/

section Scanner

variable {M : Type}

/-- An entry of the new snapshot is taken over from the previous one. -/
def isReused (previous : ScanSnapshot M) (changedPaths : OrdSet Str) (inputChanged : Bool)
    (entry : Str × ScanEntry M) : Bool :=
  (previous.entries.find? entry.1).any fun prior =>
    !inputChanged && !changedPaths.contains entry.1 && prior.identity = entry.2.identity &&
      prior.source = entry.2.source

/-- The comparison adds every entry to one list. -/
theorem foldl_classifyEntry (previous : ScanSnapshot M) (changedPaths : OrdSet Str)
    (inputChanged : Bool) (entries : List (Str × ScanEntry M)) (change : ScanChange M) :
    ∃ diagnostics affected,
      entries.foldl (classifyEntry previous changedPaths inputChanged) change =
        { snapshot := { change.snapshot with diagnostics := diagnostics }
          added := change.added ++
            (entries.filter fun entry => !previous.entries.contains entry.1).map Prod.fst
          changed := change.changed ++ (entries.filter fun entry =>
            previous.entries.contains entry.1 &&
              !isReused previous changedPaths inputChanged entry).map Prod.fst
          removed := change.removed
          reused := change.reused ++
            (entries.filter (isReused previous changedPaths inputChanged)).map Prod.fst
          affected := affected } := by
  induction entries generalizing change with
  | nil => exact ⟨change.snapshot.diagnostics, change.affected, by simp⟩
  | cons entry rest ih =>
      obtain ⟨diagnostics, affected, hrest⟩ := ih (classifyEntry previous changedPaths inputChanged
        change entry)
      refine ⟨diagnostics, affected, ?_⟩
      rw [foldl_cons, hrest, classifyEntry]
      cases hprior : previous.entries.find? entry.1 with
      | none => simp [OrdMap.contains, isReused, hprior]
      | some prior =>
          have hcontains : previous.entries.contains entry.1 = true := by
            rw [OrdMap.contains, hprior, Option.isSome_some]
          have hreused : isReused previous changedPaths inputChanged entry =
              (!inputChanged && !changedPaths.contains entry.1 &&
                prior.identity = entry.2.identity && prior.source = entry.2.source) := by
            rw [isReused, hprior, Option.any_some]
          dsimp only
          rw [← hreused]
          split_ifs with h hweak
          · simp [hcontains, h]
          · simp [hcontains, h, ScanSnapshot.push]
          · simp [hcontains, h]

/-- What a change says about the two snapshots: every path of either is in one of its lists. -/
structure ScanChange.Exact (change : ScanChange M) (previous : ScanSnapshot M)
    (changedPaths : OrdSet Str) : Prop where
  listed : change.Listed
  added : ∀ path, path ∈ change.added ↔
    path ∈ change.snapshot.entries.keys ∧ path ∉ previous.entries.keys
  removed : ∀ path, path ∈ change.removed ↔
    path ∈ previous.entries.keys ∧ path ∉ change.snapshot.entries.keys
  /-- Only the same bytes read under the same inputs are reused. -/
  reused : ∀ path, path ∈ change.reused ↔ path ∉ changedPaths.keys ∧
    change.snapshot.inputs = previous.inputs ∧ ∃ prior entry,
      previous.entries.find? path = some prior ∧ change.snapshot.entries.find? path = some entry ∧
        prior.identity = entry.identity ∧ prior.source = entry.source
  changed : ∀ path, path ∈ change.changed ↔ path ∈ previous.entries.keys ∧
    path ∈ change.snapshot.entries.keys ∧ path ∉ change.reused

theorem mem_filter_entries {m : OrdMap Str (ScanEntry M)} {keep : Str × ScanEntry M → Bool}
    {path : Str} : path ∈ (m.entries.filter keep).map Prod.fst ↔
      ∃ entry, m.find? path = some entry ∧ keep (path, entry) = true := by
  simp [mem_filter, mem_entries_iff]

theorem isReused_iff {previous : ScanSnapshot M} {changedPaths : OrdSet Str} {inputChanged : Bool}
    {entry : Str × ScanEntry M} :
    isReused previous changedPaths inputChanged entry = true ↔
      entry.1 ∉ changedPaths.keys ∧ inputChanged = false ∧ ∃ prior,
        previous.entries.find? entry.1 = some prior ∧ prior.identity = entry.2.identity ∧
          prior.source = entry.2.source := by
  rw [← find?_eq_none_iff, ← contains_eq_false_iff, isReused]
  cases previous.entries.find? entry.1 <;> simp [and_assoc, and_left_comm]

/-- The comparison of two snapshots is exact. -/
theorem classify_exact (previous : ScanSnapshot M) (changedPaths : OrdSet Str)
    (snapshot : ScanSnapshot M) :
    (classify previous changedPaths snapshot).Exact previous changedPaths := by
  obtain ⟨diagnostics, affected, hfold⟩ := foldl_classifyEntry previous changedPaths
    (snapshot.inputs ≠ previous.inputs) snapshot.entries.entries ⟨snapshot, [], [], [], [], []⟩
  have hsub (m : OrdMap Str (ScanEntry M)) (keep : Str × ScanEntry M → Bool) :
      ((m.entries.filter keep).map Prod.fst).Nodup :=
    (filter_sublist.map Prod.fst).nodup m.keys_nodup
  rw [classify]
  dsimp only
  rw [hfold]
  refine ⟨⟨hsub _ _, hsub _ _, hsub _ _⟩, fun path => ?_, fun path => ?_, fun path => ?_,
    fun path => ?_⟩
  · simp [mem_filter_entries, mem_keys_iff, contains_eq_false_iff, find?_eq_none_iff]
  · simp [mem_filter_entries, mem_keys_iff, contains_eq_false_iff, find?_eq_none_iff]
  · simp [mem_filter_entries, isReused_iff]
    tauto
  · simp [mem_filter_entries, mem_keys_iff]
    grind

theorem exact_of_scanChanged {scanner : RepositoryScanner M} {root : Root}
    {previous : ScanSnapshot M} {changedPaths : OrdSet Str} {change : ScanChange M}
    (h : scanChanged scanner root previous changedPaths = .ok change) :
    change.Exact previous changedPaths := by
  rw [scanChanged] at h
  obtain ⟨_, _, h⟩ := bind_eq_ok_iff.mp h
  obtain ⟨_, _, h⟩ := bind_eq_ok_iff.mp h
  dsimp only at h
  split_ifs at h
  all_goals
    obtain ⟨snapshot, _, h⟩ := bind_eq_ok_iff.mp h
    rw [← Except.ok.inj h]
    exact classify_exact previous changedPaths snapshot

end Scanner

end Bran.Scan
