import Bran.Cli.EvidencePersist

/-!
# The evidence store over runs

What a persist leaves in the stores, for every schedule of refused calls, and what holds of the
stores after any number of them.
-/

namespace Bran.Cli

open Text Validation Files Files.Script OrdMap
open Except (ok.inj)
open Agent (ResultStoreError)

/-! ## Stores -/

def StoresKept (tree after : Tree) : Prop :=
  ∀ root, after.find? (storeFile root) = tree.find? (storeFile root)

namespace StoresKept

theorem refl (tree : Tree) : StoresKept tree tree := fun _ => rfl

theorem trans (first second third : Tree) (h : StoresKept first second)
    (h' : StoresKept second third) : StoresKept first third :=
  fun root => (h' root).trans (h root)

theorem insert {path : Path} (h : ∀ root, storeFile root ≠ path) (tree : Tree)
    (entry : Files.Entry) : StoresKept tree (tree.insert path entry) :=
  fun root => find?_insert_of_ne _ _ (h root).symm

theorem erase {path : Path} (h : ∀ root, storeFile root ≠ path) (tree : Tree) :
    StoresKept tree (tree.erase path) := by
  intro root
  rw [find?_erase, if_neg (h root).symm]

theorem filled {path : Path} (h : ∀ root, storeFile root ≠ path) (bytes : List UInt8)
    (tree : Tree) : StoresKept tree (Files.filled path bytes tree) := by
  rcases filled_cases path bytes tree with ⟨_, _, hfilled⟩ | hfilled
  · rw [hfilled]
    exact insert h tree _
  · rw [hfilled]
    exact refl tree

end StoresKept

/-- The records of a store; one that is absent has none. -/
def Stored (tree : Tree) (root : Path) (records : List QueryEvidenceRecord) : Prop :=
  (tree.find? (storeFile root) = none ∧ records = []) ∨
    ∃ bytes, tree.find? (storeFile root) = some (.file bytes) ∧
      parseEvidenceStore bytes = .ok records

/-- A record is added to the store of a root, and the other stores are as they were. -/
structure Persisted (tree after : Tree) (root : Path) (record : QueryEvidenceRecord)
    (records : List QueryEvidenceRecord) (bytes : List UInt8) : Prop where
  before : Stored tree root records
  encoded : encodeEvidenceStore (upserted records record) = .ok bytes
  stored : after.find? (storeFile root) = some (.file bytes)
  others : ∀ other, other ≠ root → after.find? (storeFile other) = tree.find? (storeFile other)

/-! ## Reading -/

/-- A script that looks at the files and goes on. -/
theorem ensures_query_bind {α β : Type} {look : Tree → Except Error α}
    {next : Except Error α → Script β} {tree : Tree} {R : β → Tree → Prop} {C : Tree → Prop}
    (h : ∀ answer, Ensures (next answer) tree R C) (hstop : C tree) :
    Ensures (query look >>= next) tree R C :=
  Ensures.seq (ensures_query (h _) (fun _ _ => h _) hstop)

theorem ensures_metadata {α ε : Type} (path : Path) (check : Except Error Files.Entry → Except ε α)
    (tree : Tree) :
    Ensures (metadataOf path check) tree
      (fun answer after => after = tree ∧ (answer = check (lookup path tree) ∨
        ∃ error : Error, error.kind ≠ .notFound ∧ answer = check (.error error)))
      (fun after => after = tree) := by
  apply Ensures.seq
  apply ensures_query
  · exact ensures_pure ⟨rfl, .inl rfl⟩
  · exact fun error hkind => ensures_pure ⟨rfl, .inr ⟨error, hkind, rfl⟩⟩
  · rfl

/-- Metadata of a path, whatever it is checked for. -/
theorem ensures_metadata_kept {α ε : Type} {path : Path}
    {check : Except Error Files.Entry → Except ε α} {tree : Tree} :
    Ensures (metadataOf path check) tree (fun _ after => after = tree) (fun after => after = tree) :=
  (ensures_metadata path check tree).mono (fun _ _ h => h.1) fun _ h => h

section Persist

variable (locate : Str → Path)

theorem ensures_evidenceStorePath (root : Str) (tree : Tree) :
    Ensures (evidenceStorePath locate root) tree
      (fun answer after => after = tree ∧ ∀ path, answer = .ok path → path = storeFile (locate root))
      (fun after => after = tree) := by
  rw [evidenceStorePath]
  split_ifs
  · exact ensures_pure ⟨rfl, fun _ h => (nomatch h)⟩
  · apply ensures_metadata_kept.andThen
    · rintro _ _ rfl
      apply ensures_metadata_kept.andThen
      · rintro _ _ rfl
        apply ensures_metadata_kept.andThen
        · rintro _ _ rfl
          exact ensures_pure ⟨rfl, fun _ h => (ok.inj h).symm⟩
        · rintro _ _ rfl
          exact ⟨rfl, fun _ h => (nomatch h)⟩
      · rintro _ _ rfl
        exact ⟨rfl, fun _ h => (nomatch h)⟩
    · rintro _ _ rfl
      exact ⟨rfl, fun _ h => (nomatch h)⟩

theorem file_of_asContents {path : Path} {limit : ℕ} {tree : Tree} {bytes : List UInt8}
    (h : asContents limit (contents path tree) = .ok bytes) :
    tree.find? path = some (.file bytes) := by
  rw [contents] at h
  cases hfound : tree.find? path with
  | none =>
      rw [hfound] at h
      cases h
  | some entry =>
      rw [hfound] at h
      cases entry with
      | file data =>
          rw [asContents] at h
          split_ifs at h
          obtain rfl := ok.inj h
          rfl
      | directory => cases h
      | symlink => cases h

theorem ensures_readRegularBounded (path : Path) (limit : ℕ) (tree : Tree) :
    Ensures (readRegularBounded path limit) tree
      (fun answer after => after = tree ∧
        ∀ bytes, answer = .ok bytes → tree.find? path = some (.file bytes))
      (fun after => after = tree) := by
  apply ensures_metadata_kept.andThen
  · rintro _ _ rfl
    apply Ensures.seq
    apply ensures_query
    · exact ensures_pure ⟨rfl, fun _ hbytes => file_of_asContents hbytes⟩
    · exact fun _ _ => ensures_pure ⟨rfl, fun _ h => (nomatch h)⟩
    · rfl
  · rintro _ _ rfl
    exact ⟨rfl, fun _ h => (nomatch h)⟩

/-- A store that is not found is absent. -/
theorem absent_of_inspectEvidenceFile {path : Path} {tree : Tree}
    (h : inspectEvidenceFile (lookup path tree) = .ok false) : tree.find? path = none := by
  rw [lookup] at h
  cases hfound : tree.find? path with
  | none => rfl
  | some entry =>
      rw [hfound] at h
      cases entry with
      | file data =>
          dsimp only [inspectEvidenceFile] at h
          split_ifs at h
          exact (nomatch ok.inj h)
      | directory => cases h
      | symlink => cases h

theorem ensures_loadEvidenceRecords (root : Str) (tree : Tree) :
    Ensures (loadEvidenceRecords locate root) tree
      (fun answer after => after = tree ∧
        ∀ records, answer = .ok records → Stored tree (locate root) records)
      (fun after => after = tree) := by
  apply (ensures_evidenceStorePath locate root tree).andThen
  · rintro path _ ⟨rfl, hpath⟩
    obtain rfl := hpath path rfl
    apply (ensures_metadata (storeFile (locate root)) inspectEvidenceFile _).andThen
    · rintro found _ ⟨rfl, hfound⟩
      split_ifs with habsent
      · refine ensures_pure ⟨rfl, fun records hrecords => .inl ⟨?_, (ok.inj hrecords).symm⟩⟩
        rcases hfound with hfound | ⟨error, hkind, hfound⟩
        · exact absent_of_inspectEvidenceFile (by rw [← hfound, habsent])
        · rw [inspectEvidenceFile, if_neg hkind] at hfound
          cases hfound
      · apply (ensures_readRegularBounded _ _ _).bind
        rintro answer _ ⟨rfl, hanswer⟩
        cases answer with
        | error error => exact ensures_pure ⟨rfl, fun _ h => (nomatch h)⟩
        | ok bytes =>
            exact ensures_pure ⟨rfl, fun _ hrecords => .inr ⟨bytes, hanswer bytes rfl, hrecords⟩⟩
    · rintro _ _ ⟨rfl, _⟩
      exact ⟨rfl, fun _ h => (nomatch h)⟩
  · rintro _ _ ⟨rfl, _⟩
    exact ⟨rfl, fun _ h => (nomatch h)⟩

/-! ## Writing -/

/-- A change beside the stores. -/
theorem ensures_change_kept {alter : Tree → Except Error Tree} {tree : Tree}
    (h : ∀ after, alter tree = .ok after → StoresKept tree after) :
    Ensures (change alter) tree (fun _ after => StoresKept tree after) (StoresKept tree) := by
  apply (ensures_change_cases alter tree).mono
  · rintro _ after (⟨_, hafter⟩ | ⟨_, _, rfl⟩)
    · exact h after hafter
    · exact .refl after
  · rintro after rfl
    exact .refl after

theorem ensures_checkedDirectory (root : Path) (tree : Tree) :
    Ensures (checkedDirectory (cacheDirectory root)) tree (fun _ after => StoresKept tree after)
      (StoresKept tree) := by
  refine ensures_query_bind (fun answer => ?_) (.refl tree)
  have hdone : ∀ answer : Except ResultStoreError Unit, Ensures (pure answer) tree
      (fun _ after => StoresKept tree after) (StoresKept tree) :=
    fun answer => ensures_pure (.refl tree)
  rcases answer with error | entry
  · dsimp only
    split_ifs
    · apply (ensures_change_kept fun after hafter => ?_).bind
      · rintro (_ | _) after hkept
        · exact ensures_pure hkept
        · exact ensures_pure hkept
      · obtain ⟨_, rfl⟩ := directoryCreated_eq_ok hafter
        exact .insert (fun other => storeFile_ne_cacheDirectory other root) tree _
    · exact hdone _
  · cases entry with
    | file _ | directory | symlink => exact hdone _

theorem ensures_removeTemporary (root : Path) (tree : Tree) :
    Ensures (removeFile (storeTemp root)) tree (fun _ after => StoresKept tree after)
      (StoresKept tree) := by
  refine ensures_change_kept fun after hafter => ?_
  obtain ⟨_, rfl⟩ := removed_eq_ok hafter
  exact .erase (fun other => storeFile_ne_storeTemp other root) tree

theorem ensures_clearTemporary (root : Path) (tree : Tree) :
    Ensures (clearTemporary (storeTemp root)) tree (fun _ after => StoresKept tree after)
      (StoresKept tree) := by
  refine ensures_query_bind (fun answer => ?_) (.refl tree)
  have hdone : ∀ answer : Except EvidenceError Unit, Ensures (pure answer) tree
      (fun _ after => StoresKept tree after) (StoresKept tree) :=
    fun answer => ensures_pure (.refl tree)
  rcases answer with error | entry
  · dsimp only
    split_ifs
    · exact hdone _
    · exact hdone _
  · cases entry with
    | file _ =>
        apply (ensures_removeTemporary root tree).bind
        rintro (_ | _) after hkept
        · exact ensures_pure hkept
        · exact ensures_pure hkept
    | directory => exact hdone _
    | symlink => exact hdone _

theorem ensures_writePrivateFile (root : Path) (bytes : List UInt8) (tree : Tree) :
    Ensures (writePrivateFile (storeTemp root) bytes) tree
      (fun answer after => StoresKept tree after ∧
        (answer = .ok () → after.find? (storeTemp root) = some (.file bytes)))
      (StoresKept tree) := by
  have hne : ∀ other, storeFile other ≠ storeTemp root := fun other =>
    storeFile_ne_storeTemp other root
  have hwritten : Ensures
      ((createNew (storeTemp root)).andThen fun _ =>
        (writeAll (storeTemp root) bytes).andThen fun _ => syncAll) tree
      (fun answer after => StoresKept tree after ∧
        (answer = .ok () → after.find? (storeTemp root) = some (.file bytes))) (StoresKept tree) := by
    apply Ensures.andThen ((ensures_change_cases _ tree).mono (fun _ _ h => h)
      fun after hsame => by rw [hsame]; exact .refl tree)
    · intro _ first hcreated
      rcases hcreated with ⟨-, hcreated⟩ | ⟨_, herror, _⟩
      · obtain ⟨-, rfl⟩ := created_eq_ok hcreated
        have hkept : ∀ content, StoresKept tree
            (filled (storeTemp root) content (tree.insert (storeTemp root) (.file []))) :=
          fun content => .trans _ _ _ (.insert hne tree _) (.filled hne content _)
        apply Ensures.andThen (Q := fun answer after => StoresKept tree after ∧
          (answer = .ok () → after.find? (storeTemp root) = some (.file bytes)))
        · refine ensures_call ⟨hkept bytes, fun _ => ?_⟩
            (fun _ landed _ => ⟨hkept _, fun h => (nomatch h)⟩) fun landed => hkept _
          rw [filled, find?_insert_self]
          exact find?_insert_self _ _ _
        · rintro _ second ⟨hsecond, hfile⟩
          exact ensures_query ⟨hsecond, fun _ => hfile rfl⟩
            (fun _ _ => ⟨hsecond, fun h => (nomatch h)⟩) hsecond
        · rintro error second ⟨hsecond, _⟩
          exact ⟨hsecond, fun h => (nomatch h)⟩
      · cases herror
    · rintro error first (⟨hok, _⟩ | ⟨_, _, rfl⟩)
      · cases hok
      · exact ⟨.refl first, fun h => (nomatch h)⟩
  apply hwritten.bind
  rintro (error | _) after ⟨hkept, hfile⟩
  · exact ensures_pure ⟨hkept, fun h => (nomatch h)⟩
  · exact ensures_pure ⟨hkept, fun _ => hfile rfl⟩

/-- The store is replaced as a whole, or it is as it was. -/
theorem ensures_publishStore (root : Path) (encoded : List UInt8) (tree : Tree) :
    Ensures (publishStore (storeTemp root) (storeFile root) encoded) tree
      (fun answer after => (answer = .ok () ∧ after.find? (storeFile root) = some (.file encoded) ∧
          ∀ other, other ≠ root → after.find? (storeFile other) = tree.find? (storeFile other)) ∨
        ∃ error, answer = .error error ∧ StoresKept tree after)
      (StoresKept tree) := by
  have hfailed : ∀ error after, StoresKept tree after → Ensures
      (do let _ ← removeFile (storeTemp root); return (.error error : Except EvidenceError Unit)) after
      (fun answer after => (answer = .ok () ∧ after.find? (storeFile root) = some (.file encoded) ∧
          ∀ other, other ≠ root → after.find? (storeFile other) = tree.find? (storeFile other)) ∨
        ∃ error, answer = .error error ∧ StoresKept tree after)
      (StoresKept tree) := by
    intro error after hkept
    apply ((ensures_removeTemporary root after).mono (fun _ _ h => StoresKept.trans _ _ _ hkept h)
      fun _ h => StoresKept.trans _ _ _ hkept h).bind
    exact fun _ _ hremoved => ensures_pure (.inr ⟨error, rfl, hremoved⟩)
  apply (ensures_writePrivateFile root encoded tree).bind
  rintro (error | _) middle ⟨hmiddle, hfile⟩
  · exact hfailed _ middle hmiddle
  · apply ((ensures_change_cases (renamed (storeTemp root) (storeFile root)) middle).mono
      (fun _ _ h => h) fun after hsame => by rw [hsame]; exact hmiddle).bind
    rintro answer after (⟨rfl, hrenamed⟩ | ⟨error, rfl, rfl⟩)
    · obtain ⟨entry, hentry, -, -, rfl⟩ := renamed_eq_ok hrenamed
      obtain rfl := Option.some.inj ((hfile rfl).symm.trans hentry)
      refine ensures_pure (.inl ⟨rfl, find?_insert_self _ _ _, fun other hother => ?_⟩)
      rw [find?_insert_of_ne _ _ fun h => hother (storeFile_injective h).symm,
        find?_erase, if_neg (storeFile_ne_storeTemp other root).symm]
      exact hmiddle other
    · exact hfailed _ after hmiddle

theorem ensures_writeEvidenceRecords (root : Str) (records : List QueryEvidenceRecord)
    (tree : Tree) :
    Ensures (writeEvidenceRecords locate root records) tree
      (fun answer after => (answer = .ok () ∧ ∃ bytes, encodeEvidenceStore records = .ok bytes ∧
          after.find? (storeFile (locate root)) = some (.file bytes) ∧ ∀ other, other ≠ locate root →
            after.find? (storeFile other) = tree.find? (storeFile other)) ∨
        ∃ error, answer = .error error ∧ StoresKept tree after)
      (StoresKept tree) := by
  have hsame : ∀ after, after = tree → StoresKept tree after := by
    rintro after rfl
    exact .refl after
  apply ((ensures_evidenceStorePath locate root tree).mono (fun _ _ h => h) hsame).andThen
  · rintro store _ ⟨rfl, hstore⟩
    obtain rfl := hstore store rfl
    apply (ensures_metadata_kept.mono (fun _ _ h => h) hsame).andThen
    · rintro _ _ rfl
      apply Ensures.andThen (Q := fun _ after => StoresKept _ after)
      · apply (ensures_checkedDirectory (locate root) _).bind
        exact fun _ _ hkept => ensures_pure hkept
      · intro _ first hfirst
        apply Ensures.andThen (Q := fun answer after => after = first ∧
          answer = encodeEvidenceStore records)
        · exact ensures_pure ⟨rfl, rfl⟩
        · rintro bytes _ ⟨rfl, hbytes⟩
          apply ((ensures_clearTemporary (locate root) _).mono
            (fun _ _ h => StoresKept.trans _ _ _ hfirst h)
            fun _ h => StoresKept.trans _ _ _ hfirst h).andThen
          · intro _ second hsecond
            apply (ensures_publishStore (locate root) bytes second).mono
            · rintro _ after (⟨rfl, hstored, hothers⟩ | ⟨error, rfl, hkept⟩)
              · exact .inl ⟨rfl, bytes, hbytes.symm, hstored,
                  fun other hother => (hothers other hother).trans (hsecond other)⟩
              · exact .inr ⟨error, rfl, StoresKept.trans _ _ _ hsecond hkept⟩
            · exact fun _ hkept => StoresKept.trans _ _ _ hsecond hkept
          · exact fun error _ hkept => .inr ⟨error, rfl, hkept⟩
        · rintro error _ ⟨rfl, _⟩
          exact .inr ⟨error, rfl, hfirst⟩
      · exact fun error _ hkept => .inr ⟨error, rfl, hkept⟩
    · rintro error _ rfl
      exact .inr ⟨error, rfl, .refl _⟩
  · rintro error _ ⟨rfl, _⟩
    exact .inr ⟨error, rfl, .refl _⟩

/-- A persist adds its record to the store of its first root, or the stores are as they were. -/
theorem ensures_persistQueryEvidence (record : QueryEvidenceRecord) (tree : Tree) :
    Ensures (persistQueryEvidence locate record) tree
      (fun answer after => (answer = .ok () ∧ ∃ primary rest records bytes,
          record.requestedRoots = primary :: rest ∧
          Persisted tree after (locate primary) record records bytes) ∨
        ∃ error, answer = .error error ∧ StoresKept tree after)
      (StoresKept tree) := by
  rw [persistQueryEvidence.eq_def]
  cases hroots : record.requestedRoots with
  | nil => exact ensures_pure (.inr ⟨_, rfl, .refl tree⟩)
  | cons primary rest =>
      dsimp only
      split_ifs
      · exact ensures_pure (.inr ⟨_, rfl, .refl tree⟩)
      · apply ((ensures_loadEvidenceRecords locate primary tree).mono (fun _ _ h => h)
          fun after hsame => by rw [hsame]; exact .refl tree).andThen
        · rintro records _ ⟨rfl, hrecords⟩
          split_ifs
          · exact ensures_pure (.inr ⟨_, rfl, .refl _⟩)
          · apply (ensures_writeEvidenceRecords locate primary _ _).mono
            · rintro _ after (⟨rfl, bytes, hencoded, hstored, hothers⟩ | hfailed)
              · exact .inl ⟨rfl, primary, rest, records, bytes, rfl,
                  hrecords records rfl, hencoded, hstored, hothers⟩
              · exact .inr hfailed
            · exact fun _ hkept => hkept
        · rintro error _ ⟨rfl, _⟩
          exact .inr ⟨error, rfl, .refl _⟩

end Persist

/-! ## Records under their keys -/

theorem mem_withoutKey {records : List QueryEvidenceRecord} {record other : QueryEvidenceRecord} :
    other ∈ withoutKey records record ↔ other ∈ records ∧ other.key ≠ record.key := by
  rw [withoutKey, List.mem_filter, Bool.or_eq_true, decide_eq_true_eq, decide_eq_true_eq,
    ← not_and_or]
  refine and_congr_right fun _ => not_congr ?_
  rw [QueryEvidenceRecord.key, QueryEvidenceRecord.key, EmbeddingLike.apply_eq_iff_eq,
    Prod.mk.injEq]

/-- A record joins the others in the place of that of its key. -/
theorem mem_upserted {records : List QueryEvidenceRecord} {record other : QueryEvidenceRecord} :
    other ∈ upserted records record ↔ other = record ∨ other ∈ records ∧ other.key ≠ record.key := by
  rw [upserted, mem_sortBy, List.mem_append, mem_withoutKey, List.mem_singleton, or_comm]

/-- Records in the order of their keys, no key twice. -/
def Ordered (records : List QueryEvidenceRecord) : Prop :=
  (records.map QueryEvidenceRecord.key).Pairwise (· < ·)

theorem ordered_upserted {records : List QueryEvidenceRecord} (h : Ordered records)
    (record : QueryEvidenceRecord) : Ordered (upserted records record) := by
  apply pairwise_lt_sortBy
  have hothers : ((withoutKey records record).map QueryEvidenceRecord.key).Nodup := by
    have hnodup : (records.map QueryEvidenceRecord.key).Nodup := h.imp ne_of_lt
    exact hnodup.sublist (List.filter_sublist.map _)
  rw [List.map_append, List.map_singleton, List.nodup_append]
  refine ⟨hothers, List.nodup_singleton _, fun key hkey other hother => ?_⟩
  obtain ⟨existing, hexisting, rfl⟩ := List.mem_map.mp hkey
  rw [List.mem_singleton.mp hother]
  exact (mem_withoutKey.mp hexisting).2

/-! ## Valid stores -/

/-- Every store is read, into so many records in the order of their keys. -/
def StoresValid (tree : Tree) : Prop :=
  ∀ root bytes, tree.find? (storeFile root) = some (.file bytes) →
    ∃ records, parseEvidenceStore bytes = .ok records ∧ records.length ≤ maxEvidenceRecords ∧
      Ordered records

/-- A record that a query records: it has a root and an outcome. -/
structure QueryEvidenceRecord.Recorded (record : QueryEvidenceRecord) : Prop where
  roots : record.requestedRoots ≠ []
  outcome : record.outcome ∈ queryOutcomes

theorem StoresValid.kept {tree after : Tree} (h : StoresValid tree) (hkept : StoresKept tree after) :
    StoresValid after :=
  fun root bytes hbytes => h root bytes ((hkept root).symm.trans hbytes)

theorem StoresValid.stored {tree : Tree} (h : StoresValid tree) {root : Path}
    {records : List QueryEvidenceRecord} (hstored : Stored tree root records) :
    Ordered records ∧ ∀ record ∈ records, record.Storable ∧ record.Fits := by
  rcases hstored with ⟨_, rfl⟩ | ⟨bytes, hbytes, hparsed⟩
  · exact ⟨.nil, fun _ hmem => (nomatch hmem)⟩
  · obtain ⟨found, hfound, _, hordered⟩ := h root bytes hbytes
    obtain rfl := ok.inj (hparsed.symm.trans hfound)
    exact ⟨hordered, (parseEvidenceStore_sound hparsed).2⟩

section Step

variable {tree after : Tree} {root : Path} {record : QueryEvidenceRecord}
  {records : List QueryEvidenceRecord} {bytes : List UInt8}

/-- What was persisted is read back. -/
theorem Persisted.parsed (h : Persisted tree after root record records bytes)
    (hvalid : StoresValid tree) (hrecord : record.Recorded) (hfits : record.Fits) :
    parseEvidenceStore bytes = .ok (upserted records record) := by
  obtain ⟨_, hrecords⟩ := hvalid.stored h.before
  apply (parseEvidenceStore_encode_iff _ h.encoded).mpr
  · refine ⟨fun other hmem => ?_, rfl⟩
    rcases mem_upserted.mp hmem with rfl | ⟨hother, _⟩
    · exact hfits
    · exact (hrecords other hother).2
  · intro other hmem
    rcases mem_upserted.mp hmem with rfl | ⟨hother, _⟩
    · exact ⟨hrecord.roots, hrecord.outcome⟩
    · exact ⟨(hrecords other hother).1.roots, (hrecords other hother).1.outcome⟩

theorem Persisted.valid (h : Persisted tree after root record records bytes)
    (hvalid : StoresValid tree) (hrecord : record.Recorded) (hfits : record.Fits) :
    StoresValid after := by
  intro other found hfound
  by_cases hother : other = root
  · subst hother
    obtain rfl := Files.Entry.file.inj (Option.some.inj (h.stored.symm.trans hfound))
    exact ⟨_, h.parsed hvalid hrecord hfits, (encodeEvidenceStore_eq_ok_iff.mp h.encoded).1,
      ordered_upserted (hvalid.stored h.before).1 record⟩
  · exact hvalid other found ((h.others other hother).symm.trans hfound)

end Step

/-! ## Runs -/

section Runs

variable (locate : Str → Path)

/-- A persist, with its answer unless the process stops in it. -/
inductive Step : Tree → QueryEvidenceRecord → Option (Except EvidenceError Unit) → Tree → Prop
  | persist {record : QueryEvidenceRecord} {tree : Tree} {schedule : Schedule} {calls : ℕ}
      {answer : Option (Except EvidenceError Unit)} {after : World}
      (h : persistQueryEvidence locate record schedule ⟨tree, calls⟩ = (answer, after)) :
      Step tree record answer after.files

/-- Persists one after the other. -/
inductive Run : Tree → List QueryEvidenceRecord → Tree → Prop
  | nil (tree : Tree) : Run tree [] tree
  | cons {start middle last : Tree} {record : QueryEvidenceRecord}
      {answer : Option (Except EvidenceError Unit)} {rest : List QueryEvidenceRecord}
      (h : Step locate start record answer middle) (hrest : Run middle rest last) :
      Run start (record :: rest) last

variable {locate} {tree after : Tree} {record : QueryEvidenceRecord}

/-- A persist that answers `Ok` has added its record to the store of its first root. -/
theorem Step.added (h : Step locate tree record (some (.ok ())) after) :
    ∃ primary rest records bytes, record.requestedRoots = primary :: rest ∧
      Persisted tree after (locate primary) record records bytes := by
  obtain ⟨hrun⟩ := h
  rcases (ensures_persistQueryEvidence locate record tree).answer hrun with ⟨_, hadded⟩ | hfailed
  · exact hadded
  · obtain ⟨_, herror, _⟩ := hfailed
    cases herror

/-- Any other persist leaves the stores as they were. -/
theorem Step.kept {answer : Option (Except EvidenceError Unit)}
    (h : Step locate tree record answer after) (hanswer : answer ≠ some (.ok ())) :
    StoresKept tree after := by
  obtain ⟨hrun⟩ := h
  have hspec := ensures_persistQueryEvidence locate record tree
  cases answer with
  | none => exact hspec.stopped hrun
  | some answer =>
      rcases hspec.answer hrun with ⟨rfl, _⟩ | ⟨_, _, hkept⟩
      · exact absurd rfl hanswer
      · exact hkept

theorem Step.valid {answer : Option (Except EvidenceError Unit)}
    (h : Step locate tree record answer after) (hvalid : StoresValid tree)
    (hrecord : record.Recorded) (hfits : record.Fits) : StoresValid after := by
  by_cases hanswer : answer = some (.ok ())
  · subst hanswer
    obtain ⟨_, _, _, _, _, hadded⟩ := h.added
    exact hadded.valid hvalid hrecord hfits
  · exact hvalid.kept (h.kept hanswer)

/-- The stores stay valid over a run, by induction on its persists. -/
theorem Run.valid {persisted : List QueryEvidenceRecord} (h : Run locate tree persisted after)
    (hvalid : StoresValid tree) (hall : ∀ record ∈ persisted, record.Recorded ∧ record.Fits) :
    StoresValid after := by
  induction h with
  | nil tree => exact hvalid
  | cons hstep hrest ih =>
      obtain ⟨⟨hrecord, hfits⟩, hall⟩ := List.forall_mem_cons.mp hall
      exact ih (hstep.valid hvalid hrecord hfits) hall

end Runs

end Bran.Cli
