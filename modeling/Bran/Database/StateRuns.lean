import Bran.Database.StateSafety

/-!
# Runs of a state store

A session is the file system and the store that is open on it, if any.  It goes on by opening the
store, by its operations, by a crash at any point and by damage to the bytes of object files.
`Effect` says what each of these does to the objects and to the counted usage; the invariants of
a run follow from it.
-/

namespace Bran.Database

open Files Files.Script Agent List Option OrdMap

/-! ## Sessions -/

structure Session where
  files : Tree
  store : Option FileStateStore

/-- What happened in one step, with the answer the caller got. -/
inductive Event
  | opened (result : Except StateStoreError Unit)
  | put (bytes : List UInt8) (result : Except StateStoreError ResultId)
  | got (id : ResultId) (result : Except StateStoreError (List UInt8))
  | verified (result : Except StateStoreError ℕ)
  | crashed
  | damaged

section Runs

variable (descriptor : StateStoreDescriptor) (stateRoot : Path)

/-- Bytes of object files may change; nothing else does. -/
def Damages (files after : Tree) : Prop :=
  ∀ path, after.find? path = files.find? path ∨
    isChild (objectsDir (storeDir descriptor stateRoot)) path = true ∧
      ∃ old new, files.find? path = some (.file old) ∧ after.find? path = some (.file new)

/-- One step.  Any call of an operation may be refused, and the process may stop in any of them
or between two operations; a store that has crashed has to be opened again. -/
inductive Step : Session → Event → Session → Prop
  | opened {files schedule calls result world}
      (h : openStore descriptor stateRoot schedule ⟨files, calls⟩ = (some result, world)) :
      Step ⟨files, none⟩ (.opened (result.map fun _ => ())) ⟨world.files, result.toOption⟩
  | openCrashed {files schedule calls world}
      (h : openStore descriptor stateRoot schedule ⟨files, calls⟩ = (none, world)) :
      Step ⟨files, none⟩ .crashed ⟨world.files, none⟩
  | put {files store bytes schedule calls result next world}
      (h : FileStateStore.put store bytes schedule ⟨files, calls⟩ = (some (result, next), world)) :
      Step ⟨files, some store⟩ (.put bytes result) ⟨world.files, some next⟩
  | putCrashed {files store bytes schedule calls world}
      (h : FileStateStore.put store bytes schedule ⟨files, calls⟩ = (none, world)) :
      Step ⟨files, some store⟩ .crashed ⟨world.files, none⟩
  | got {files store id schedule calls result world}
      (h : FileStateStore.get store id schedule ⟨files, calls⟩ = (some result, world)) :
      Step ⟨files, some store⟩ (.got id result) ⟨world.files, some store⟩
  | getCrashed {files store id schedule calls world}
      (h : FileStateStore.get store id schedule ⟨files, calls⟩ = (none, world)) :
      Step ⟨files, some store⟩ .crashed ⟨world.files, none⟩
  | verified {files store schedule calls result world}
      (h : FileStateStore.verify store schedule ⟨files, calls⟩ = (some result, world)) :
      Step ⟨files, some store⟩ (.verified result) ⟨world.files, some store⟩
  | verifyCrashed {files store schedule calls world}
      (h : FileStateStore.verify store schedule ⟨files, calls⟩ = (none, world)) :
      Step ⟨files, some store⟩ .crashed ⟨world.files, none⟩
  | crashed {files store} : Step ⟨files, store⟩ .crashed ⟨files, none⟩
  | damaged {files after store} (h : Damages descriptor stateRoot files after) :
      Step ⟨files, store⟩ .damaged ⟨after, store⟩

/-- A run from one session to another, with its events. -/
inductive Run : Session → List Event → Session → Prop
  | nil (session : Session) : Run session [] session
  | cons {start middle last : Session} {event : Event} {events : List Event}
      (h : Step descriptor stateRoot start event middle) (hrest : Run middle events last) :
      Run start (event :: events) last

/-- A run begins on a file system on which no store is open. -/
structure Initial (session : Session) : Prop where
  wellFormed : WellFormed session.files
  closed : session.store = none

/-- The objects of the namespace, by their paths. -/
def objects (session : Session) : OrdMap Path Files.Entry :=
  entriesOf (objectsDir (storeDir descriptor stateRoot)) session.files

def staged (session : Session) : OrdMap Path Files.Entry :=
  entriesOf (stagingDir (storeDir descriptor stateRoot)) session.files

def storedBytes (session : Session) : ℕ :=
  totalSize (objectsDir (storeDir descriptor stateRoot)) session.files

/-- Where the object of an identifier is kept. -/
def objectPath (id : ResultId) : Path :=
  objectsDir (storeDir descriptor stateRoot) ++ [id.value]

/-! ## What a session keeps -/

/-- What holds between any two steps. -/
structure Consistent (session : Session) : Prop where
  objects : Standing (componentsBelow stateRoot (segments descriptor))
    (objectsDir (storeDir descriptor stateRoot)) session.files
  staging : Standing (componentsBelow stateRoot (segments descriptor))
    (stagingDir (storeDir descriptor stateRoot)) session.files
  store : ∀ store, session.store = some store →
    store.dir = storeDir descriptor stateRoot ∧ store.quota = descriptor.quotaBytes ∧
      Prepared (componentsBelow stateRoot (segments descriptor)) store.dir session.files

/-- What a step does to the objects and to the counted usage. -/
inductive Effect (before after : Session) : Event → Prop
  | opened {store : FileStateStore}
      (hobjects : objects descriptor stateRoot after = objects descriptor stateRoot before)
      (hstaged : staged descriptor stateRoot after = OrdMap.empty)
      (hstore : after.store = some store)
      (hused : store.used = storedBytes descriptor stateRoot before) :
      Effect before after (.opened (.ok ()))
  | unopened (error : StateStoreError)
      (hobjects : objects descriptor stateRoot after = objects descriptor stateRoot before)
      (hstore : after.store = none) : Effect before after (.opened (.error error))
  | refused (bytes : List UInt8) (error : StateStoreError)
      (hobjects : objects descriptor stateRoot after = objects descriptor stateRoot before)
      (hused : after.store.map FileStateStore.used = before.store.map FileStateStore.used) :
      Effect before after (.put bytes (.error error))
  | intact (bytes : List UInt8)
      (hobjects : objects descriptor stateRoot after = objects descriptor stateRoot before)
      (hused : after.store.map FileStateStore.used = before.store.map FileStateStore.used)
      (hheld : before.files.find? (objectPath descriptor stateRoot (.sha256 bytes)) =
        some (.file bytes)) :
      Effect before after (.put bytes (.ok (.sha256 bytes)))
  | stored (bytes : List UInt8) {store next : FileStateStore} (used : ℕ)
      (hobjects : objects descriptor stateRoot after =
        (objects descriptor stateRoot before).insert
          (objectPath descriptor stateRoot (.sha256 bytes)) (.file bytes))
      (hbefore : before.store = some store) (hafter : after.store = some next)
      (hfresh : before.files.find? (objectPath descriptor stateRoot (.sha256 bytes)) = none →
        used = store.used)
      (hreplaced : before.files.find? (objectPath descriptor stateRoot (.sha256 bytes)) ≠ none →
        used = storedBytes descriptor stateRoot before)
      (hused : next.used = used -
        sizeAt before.files (objectPath descriptor stateRoot (.sha256 bytes)) + bytes.length)
      (hquota : next.used ≤ descriptor.quotaBytes) :
      Effect before after (.put bytes (.ok (.sha256 bytes)))
  | got {store : FileStateStore} (id : ResultId) (result : Except StateStoreError (List UInt8))
      (hfiles : after = before) (hstore : before.store = some store)
      (hresult : result = store.lookGet id before.files ∨
        ∃ error, result = .error error ∧ Faulty error) :
      Effect before after (.got id result)
  | verified (result : Except StateStoreError ℕ) (hfiles : after = before) :
      Effect before after (.verified result)
  | crashed
      (hobjects : objects descriptor stateRoot after = objects descriptor stateRoot before)
      (hstore : after.store = none) : Effect before after .crashed
  | damaged : Effect before after .damaged

end Runs

section Steps

variable {descriptor : StateStoreDescriptor} {stateRoot : Path}

theorem isChild_objectPath (id : ResultId) : isChild (objectsDir (storeDir descriptor stateRoot))
    (objectPath descriptor stateRoot id) = true :=
  isChild_concat _ id.value

theorem consistent_of_initial {session : Session} (h : Initial session) :
    Consistent descriptor stateRoot session := by
  have hcomponent : ∀ (names : List Str) (root : Path) (component : Path),
      component ∈ componentsBelow root names → ∃ rest, root ++ names = component ++ rest := by
    intro names
    induction names with
    | nil => intro _ _ hmem; cases hmem
    | cons name rest ih =>
        intro root component hmem
        rcases mem_cons.mp hmem with rfl | hmem
        · exact ⟨rest, by simp⟩
        · obtain ⟨tail, htail⟩ := ih _ _ hmem
          exact ⟨tail, by rw [← htail]; simp⟩
  have hstanding (name : Str) : Standing (componentsBelow stateRoot (segments descriptor))
      (storeDir descriptor stateRoot ++ [name]) session.files := by
    intro path hchild hentry
    obtain ⟨child, rfl⟩ := isChild_iff.mp hchild
    refine ⟨?_, h.wellFormed.above hentry (by simp)⟩
    intro component hmem
    obtain ⟨rest, hrest⟩ := hcomponent _ _ _ hmem
    rw [storeDir, hrest, append_assoc, append_assoc] at hentry
    exact h.wellFormed.above hentry (by simp)
  refine ⟨hstanding _, hstanding _, ?_⟩
  intro store hstore
  rw [h.closed] at hstore
  cases hstore

theorem Prepared.standing {components : List Path} {dir : Path} {tree : Tree}
    (h : Prepared components dir tree) :
    Standing components (objectsDir dir) tree ∧ Standing components (stagingDir dir) tree :=
  ⟨fun _ _ _ => ⟨h.components, h.objects⟩, fun _ _ _ => ⟨h.components, h.staging⟩⟩

theorem Opened.standing {components : List Path} {dir : Path} {tree after : Tree}
    (h : Opened dir tree after) (hobjects : Standing components (objectsDir dir) tree)
    (hstaging : Standing components (stagingDir dir) tree) :
    Standing components (objectsDir dir) after ∧ Standing components (stagingDir dir) after := by
  constructor
  · intro path hchild hentry
    rw [h.object hchild] at hentry
    obtain ⟨hcomponents, hsub⟩ := hobjects path hchild hentry
    exact ⟨fun component hmem => h.directories _ (hcomponents component hmem),
      h.directories _ hsub⟩
  · intro path hchild hentry
    obtain ⟨hcomponents, hsub⟩ := hstaging path hchild fun hnone => hentry (h.absent hchild hnone)
    exact ⟨fun component hmem => h.directories _ (hcomponents component hmem),
      h.directories _ hsub⟩

theorem Opened.objects_eq {files after : Tree} {store store' : Option FileStateStore}
    (h : Opened (storeDir descriptor stateRoot) files after) :
    objects descriptor stateRoot ⟨after, store'⟩ = objects descriptor stateRoot ⟨files, store⟩ :=
  entriesOf_congr fun _ hchild => h.object hchild

variable {after before last start : Session} {store : FileStateStore} {bytes : List UInt8}
  {event : Event} {events : List Event}

/-- A session whose directories are as the store needs them. -/
theorem consistent_of_prepared {files : Tree} (hdir : store.dir = storeDir descriptor stateRoot)
    (hquota : store.quota = descriptor.quotaBytes)
    (hprepared : Prepared (componentsBelow stateRoot (segments descriptor)) store.dir files) :
    Consistent descriptor stateRoot ⟨files, some store⟩ := by
  have hstanding := hprepared.standing
  rw [hdir] at hstanding
  refine ⟨hstanding.1, hstanding.2, ?_⟩
  intro store' hstore
  cases hstore
  exact ⟨hdir, hquota, hprepared⟩

theorem Consistent.close {session : Session} (h : Consistent descriptor stateRoot session) :
    Consistent descriptor stateRoot ⟨session.files, none⟩ :=
  ⟨h.objects, h.staging, fun _ hstore => nomatch hstore⟩

/-- What a put has done, read as the effect of a step. -/
theorem effect_of_put {files after : Tree} {next : FileStateStore}
    {result : Except StateStoreError ResultId} (hdir : store.dir = storeDir descriptor stateRoot)
    (hquota : store.quota = descriptor.quotaBytes)
    (h : store.PutOutcome bytes files result next after) :
    next.dir = store.dir ∧ next.quota = store.quota ∧
      Effect descriptor stateRoot ⟨files, some store⟩ ⟨after, some next⟩ (.put bytes result) := by
  have hpath : store.object (.sha256 bytes) = objectPath descriptor stateRoot (.sha256 bytes) := by
    rw [FileStateStore.object, objectPath, hdir]
  have hbeside : ∀ path, isChild (objectsDir (storeDir descriptor stateRoot)) path = true →
      path ≠ store.temp (.sha256 bytes) := by
    intro path hchild
    rw [← hdir] at hchild
    exact FileStateStore.object_ne_temp hchild
  cases h with
  | refused error count h =>
      refine ⟨rfl, rfl, .refused bytes error ?_ rfl⟩
      exact entriesOf_congr fun path hchild => h path (hbeside path hchild)
  | intact h =>
      rw [hpath] at h
      exact ⟨rfl, rfl, .intact bytes rfl rfl h⟩
  | stored total count hplanned h =>
      obtain ⟨used, hused, hfresh, hreplaced⟩ := hplanned.counted
      rw [hpath] at hused hfresh hreplaced h
      rw [hdir] at hreplaced
      refine ⟨rfl, rfl, .stored bytes used ?_ rfl rfl hfresh hreplaced hused ?_⟩
      · have hinsert := entriesOf_insert (@isChild_objectPath descriptor stateRoot (.sha256 bytes))
          files (.file bytes)
        exact (entriesOf_congr fun path hpath => h path (hbeside path hpath)).trans hinsert
      · rw [← hquota]
        exact hplanned.within

/-- Each step has its effect and keeps the session consistent. -/
theorem Step.effect (h : Step descriptor stateRoot before event after)
    (hconsistent : Consistent descriptor stateRoot before) :
    Effect descriptor stateRoot before after event ∧ Consistent descriptor stateRoot after := by
  obtain ⟨hobjects, hstaging, hstore⟩ := hconsistent
  cases h with
  | @opened files schedule calls result world h =>
      obtain ⟨hmoved, hopened⟩ :=
        (ensures_openStore descriptor stateRoot files hobjects hstaging).answer h
      have hstanding := hmoved.standing hobjects hstaging
      cases result with
      | error error =>
          exact ⟨.unopened error hmoved.objects_eq rfl, hstanding.1, hstanding.2,
            fun _ hstore => nomatch hstore⟩
      | ok store =>
          obtain ⟨hdir, hquota, hused, hprepared, hcleared⟩ := hopened store rfl
          rw [hdir] at hused hcleared
          refine ⟨.opened hmoved.objects_eq ?_ rfl hused,
            consistent_of_prepared hdir hquota hprepared⟩
          apply ext_find?
          intro path
          rw [staged, find?_entriesOf, find?_empty]
          split
          · rename_i hchild
            exact hcleared path hchild
          · rfl
  | @openCrashed files schedule calls world h =>
      have hmoved := (ensures_openStore descriptor stateRoot files hobjects hstaging).stopped h
      have hstanding := hmoved.standing hobjects hstaging
      exact ⟨.crashed hmoved.objects_eq rfl, hstanding.1, hstanding.2,
        fun _ hstore => nomatch hstore⟩
  | @put files store bytes schedule calls result next world h =>
      obtain ⟨hdir, hquota, hprepared⟩ := hstore store rfl
      obtain ⟨houtcome, hkeeps⟩ := (store.ensures_put bytes files).answer h
      obtain ⟨hnextDir, hnextQuota, heffect⟩ := effect_of_put hdir hquota houtcome
      refine ⟨heffect, consistent_of_prepared (hnextDir.trans hdir) (hnextQuota.trans hquota) ?_⟩
      have hafter := hprepared.keeps hkeeps
      rwa [← hnextDir] at hafter
  | @putCrashed files store bytes schedule calls world h =>
      obtain ⟨hdir, hquota, hprepared⟩ := hstore store rfl
      obtain ⟨hbeside, hkeeps⟩ := (store.ensures_put bytes files).stopped h
      have hafter := consistent_of_prepared hdir hquota (hprepared.keeps hkeeps)
      refine ⟨.crashed ?_ rfl, hafter.close⟩
      apply entriesOf_congr
      intro path hchild
      rw [← hdir] at hchild
      exact hbeside path (FileStateStore.object_ne_temp hchild)
  | @got files store id schedule calls result world h =>
      obtain ⟨hfiles, hresult⟩ := ((store.reads_get id).keeps files).answer h
      rw [hfiles]
      exact ⟨.got id result rfl rfl hresult, hobjects, hstaging, hstore⟩
  | @getCrashed files store id schedule calls world h =>
      have hfiles : world.files = files := ((store.reads_get id).keeps files).stopped h
      rw [hfiles]
      exact ⟨.crashed rfl rfl, hobjects, hstaging, fun _ hstore => nomatch hstore⟩
  | @verified files store schedule calls result world h =>
      obtain ⟨hfiles, -⟩ := (store.reads_verify.keeps files).answer h
      rw [hfiles]
      exact ⟨.verified result rfl, hobjects, hstaging, hstore⟩
  | @verifyCrashed files store schedule calls world h =>
      have hfiles : world.files = files := (store.reads_verify.keeps files).stopped h
      rw [hfiles]
      exact ⟨.crashed rfl rfl, hobjects, hstaging, fun _ hstore => nomatch hstore⟩
  | crashed => exact ⟨.crashed rfl rfl, hobjects, hstaging, fun _ hstore => nomatch hstore⟩
  | @damaged files after store h =>
      have hkeeps : KeepsDirectories files after := by
        intro path hdirectory
        rcases h path with hsame | ⟨_, old, new, hold, _⟩
        · rw [hsame, hdirectory]
        · rw [hdirectory] at hold
          cases hold
      have hpresent : ∀ path, after.find? path ≠ none → files.find? path ≠ none := by
        intro path hentry
        rcases h path with hsame | ⟨_, old, new, hold, _⟩
        · rwa [hsame] at hentry
        · rw [hold]
          exact some_ne_none _
      have hkept {sub : Path}
          (hstanding : Standing (componentsBelow stateRoot (segments descriptor)) sub files) :
          Standing (componentsBelow stateRoot (segments descriptor)) sub after := by
        intro path hchild hentry
        obtain ⟨hcomponents, hsub⟩ := hstanding path hchild (hpresent path hentry)
        exact ⟨fun component hmem => hkeeps _ (hcomponents component hmem), hkeeps _ hsub⟩
      refine ⟨.damaged, hkept hobjects, hkept hstaging, ?_⟩
      intro opened hopened
      obtain ⟨hdir, hquota, hprepared⟩ := hstore opened hopened
      exact ⟨hdir, hquota, hprepared.keeps hkeeps⟩

theorem Run.consistent (h : Run descriptor stateRoot start events last)
    (hstart : Consistent descriptor stateRoot start) : Consistent descriptor stateRoot last := by
  induction h with
  | nil _ => exact hstart
  | cons h _ ih => exact ih (h.effect hstart).2

theorem Run.split {earlier later : List Event}
    (h : Run descriptor stateRoot start (earlier ++ later) last) :
    ∃ middle, Run descriptor stateRoot start earlier middle ∧
      Run descriptor stateRoot middle later last := by
  induction earlier generalizing start with
  | nil => exact ⟨start, .nil start, h⟩
  | cons event earlier ih =>
      cases h with
      | cons hstep hrest =>
          obtain ⟨middle, hearlier, hlater⟩ := ih hrest
          exact ⟨middle, .cons hstep hearlier, hlater⟩

/-! ## What is handed out -/

/-- Bytes that `get` hands out have the digest they were asked by. -/
theorem Run.got_digest (h : Run descriptor stateRoot start events last)
    (hstart : Consistent descriptor stateRoot start) {id : ResultId}
    (hmem : Event.got id (.ok bytes) ∈ events) : ResultId.sha256 bytes = id := by
  induction h with
  | nil _ => cases hmem
  | cons h _ ih =>
      obtain ⟨heffect, hconsistent⟩ := h.effect hstart
      rcases mem_cons.mp hmem with rfl | hmem
      · cases heffect with
        | got _ _ _ _ hresult =>
            rcases hresult with hlook | ⟨_, herror, _⟩
            · exact (FileStateStore.lookGet_eq_ok_iff.mp hlook.symm).2
            · cases herror
      · exact ih hconsistent hmem

/-! ## Stored bytes stay -/

/-- The bytes that were put in a run. -/
def payloads (events : List Event) : List (List UInt8) :=
  events.filterMap fun
    | .put bytes _ => some bytes
    | _ => none

/-- No two of the given byte strings have one digest. -/
def NoCollision (all : List (List UInt8)) : Prop :=
  ∀ first ∈ all, ∀ second ∈ all, ResultId.sha256 first = ResultId.sha256 second → first = second

/-- The object of these bytes is there, with these bytes. -/
def Holds (descriptor : StateStoreDescriptor) (stateRoot : Path) (session : Session)
    (bytes : List UInt8) : Prop :=
  session.files.find? (objectPath descriptor stateRoot (.sha256 bytes)) = some (.file bytes)

theorem holds_iff {session : Session} :
    Holds descriptor stateRoot session bytes ↔
      (objects descriptor stateRoot session).find? (objectPath descriptor stateRoot
        (.sha256 bytes)) = some (.file bytes) := by
  rw [objects, find?_entriesOf, if_pos (isChild_objectPath _), Holds]

theorem Holds.of_objects_eq (h : Holds descriptor stateRoot before bytes)
    (hobjects : objects descriptor stateRoot after = objects descriptor stateRoot before) :
    Holds descriptor stateRoot after bytes := by
  rw [holds_iff] at h ⊢
  rw [hobjects, h]

theorem Effect.holds_of_put {id : ResultId}
    (h : Effect descriptor stateRoot before after (.put bytes (.ok id))) :
    id = .sha256 bytes ∧ Holds descriptor stateRoot after bytes := by
  cases h with
  | intact _ hobjects _ hheld =>
      have hholds : Holds descriptor stateRoot before bytes := hheld
      exact ⟨rfl, hholds.of_objects_eq hobjects⟩
  | stored _ used hobjects =>
      refine ⟨rfl, ?_⟩
      rw [holds_iff, hobjects, find?_insert_self]

theorem Effect.holds (h : Effect descriptor stateRoot before after event)
    (hholds : Holds descriptor stateRoot before bytes) (hdamage : event ≠ .damaged) (hput : ∀ other
    result, event = .put other result → ResultId.sha256 other = ResultId.sha256 bytes → other =
    bytes) :
    Holds descriptor stateRoot after bytes := by
  cases h with
  | opened hobjects | unopened _ hobjects | refused _ _ hobjects
  | intact _ hobjects => exact hholds.of_objects_eq hobjects
  | stored other used hobjects =>
      rw [holds_iff] at hholds ⊢
      rw [hobjects, find?_insert]
      split
      · rename_i hsame
        -- the same path, hence the same digest
        have hvalue : (ResultId.sha256 other).value = (ResultId.sha256 bytes).value := by
          simpa [objectPath] using hsame
        have hid : ResultId.sha256 other = ResultId.sha256 bytes := by
          rw [ResultId.mk.injEq]
          exact hvalue
        rw [hput other _ rfl hid]
      · exact hholds
  | got id result hfiles => rwa [hfiles]
  | verified result hfiles => rwa [hfiles]
  | crashed hobjects => exact hholds.of_objects_eq hobjects
  | damaged => exact absurd rfl hdamage

theorem Run.holds (h : Run descriptor stateRoot start events last)
    (hstart : Consistent descriptor stateRoot start)
    (hholds : Holds descriptor stateRoot start bytes) (hdamage : Event.damaged ∉ events) (hcollision
    : ∀ other ∈ payloads events, ResultId.sha256 other = ResultId.sha256 bytes → other = bytes) :
    Holds descriptor stateRoot last bytes := by
  induction h with
  | nil _ => exact hholds
  | @cons _ _ _ event events h _ ih =>
      obtain ⟨heffect, hconsistent⟩ := h.effect hstart
      rw [mem_cons, not_or] at hdamage
      apply ih hconsistent
      · apply heffect.holds hholds (Ne.symm hdamage.1)
        intro other result hevent hid
        apply hcollision other _ hid
        rw [hevent]
        exact mem_cons_self
      · exact hdamage.2
      · intro other hother
        apply hcollision
        unfold payloads at hother ⊢
        rw [filterMap_cons]
        split
        · exact hother
        · exact mem_cons_of_mem _ hother

/-! ## Usage -/

/-- An open store counts what is on disk. -/
def Counted (descriptor : StateStoreDescriptor) (stateRoot : Path) (session : Session) : Prop :=
  ∀ store, session.store = some store → store.used = storedBytes descriptor stateRoot session

theorem storedBytes_congr
    (h : objects descriptor stateRoot after = objects descriptor stateRoot before) :
    storedBytes descriptor stateRoot after = storedBytes descriptor stateRoot before :=
  totalSize_congr h

/-- A stored object takes the place of the one that was there in the sum. -/
theorem storedBytes_insert {used next : ℕ} (hobjects : objects descriptor stateRoot after = (objects
    descriptor stateRoot before).insert (objectPath descriptor stateRoot (.sha256 bytes)) (.file
    bytes)) (hused : used = storedBytes descriptor stateRoot before) (hnext : next = used - sizeAt
    before.files (objectPath descriptor stateRoot (.sha256 bytes)) + bytes.length) :
    next = storedBytes descriptor stateRoot after := by
  have hchild := @isChild_objectPath descriptor stateRoot (.sha256 bytes)
  have hle := sizeAt_le_totalSize hchild before.files
  have hsum := totalSize_insert hchild before.files bytes
  have hafter : storedBytes descriptor stateRoot after = totalSize
      (objectsDir (storeDir descriptor stateRoot))
      (before.files.insert (objectPath descriptor stateRoot (.sha256 bytes)) (.file bytes)) := by
    apply totalSize_congr
    exact hobjects.trans (entriesOf_insert hchild before.files (.file bytes)).symm
  rw [hafter]
  unfold storedBytes at hused
  omega

theorem Effect.counted (h : Effect descriptor stateRoot before after event)
    (hcounted : Counted descriptor stateRoot before) (hdamage : event ≠ .damaged) :
    Counted descriptor stateRoot after := by
  have hkept (hobjects : objects descriptor stateRoot after = objects descriptor stateRoot before)
      (hused : after.store.map FileStateStore.used = before.store.map FileStateStore.used) :
      Counted descriptor stateRoot after := by
    intro store hstore
    rw [hstore, map_some] at hused
    obtain ⟨old, hold, hsame⟩ := map_eq_some_iff.mp hused.symm
    rw [storedBytes_congr hobjects, ← hcounted old hold, hsame]
  have hclosed (hnone : after.store = none) : Counted descriptor stateRoot after := by
    intro store hstore
    rw [hnone] at hstore
    cases hstore
  cases h with
  | @opened opened hobjects _ hopened hused =>
      intro store hstore
      rw [hopened] at hstore
      cases hstore
      rw [storedBytes_congr hobjects, hused]
  | unopened _ _ hnone => exact hclosed hnone
  | refused _ _ hobjects hused | intact _ hobjects hused => exact hkept hobjects hused
  | @stored bytes old next used hobjects hbefore hafter hfresh hreplaced hused hquota =>
      intro store hstore
      rw [hafter] at hstore
      cases hstore
      apply storedBytes_insert hobjects _ hused
      by_cases hentry : before.files.find? (objectPath descriptor stateRoot (.sha256 bytes)) = none
      · rw [hfresh hentry, hcounted old hbefore]
      · exact hreplaced hentry
  | got _ _ hfiles => rwa [hfiles]
  | verified _ hfiles => rwa [hfiles]
  | crashed _ hnone => exact hclosed hnone
  | damaged => exact absurd rfl hdamage

theorem Run.counted (h : Run descriptor stateRoot start events last)
    (hstart : Consistent descriptor stateRoot start) (hcounted : Counted descriptor stateRoot start)
    (hdamage : Event.damaged ∉ events) :
    Counted descriptor stateRoot last := by
  induction h with
  | nil _ => exact hcounted
  | cons h _ ih =>
      obtain ⟨heffect, hconsistent⟩ := h.effect hstart
      rw [mem_cons, not_or] at hdamage
      exact ih hconsistent (heffect.counted hcounted (Ne.symm hdamage.1)) hdamage.2

/-- Once within the quota, what is on disk stays within it. -/
theorem Effect.within (h : Effect descriptor stateRoot before after event)
    (hcounted : Counted descriptor stateRoot after)
    (hwithin : storedBytes descriptor stateRoot before ≤ descriptor.quotaBytes)
    (hdamage : event ≠ .damaged) :
    storedBytes descriptor stateRoot after ≤ descriptor.quotaBytes := by
  cases h with
  | opened hobjects | unopened _ hobjects | refused _ _ hobjects
  | intact _ hobjects => rwa [storedBytes_congr hobjects]
  | stored _ _ _ _ hafter _ _ _ hquota => rwa [← hcounted _ hafter]
  | got _ _ hfiles => rwa [hfiles]
  | verified _ hfiles => rwa [hfiles]
  | crashed hobjects => rwa [storedBytes_congr hobjects]
  | damaged => exact absurd rfl hdamage

theorem Run.within (h : Run descriptor stateRoot start events last)
    (hstart : Consistent descriptor stateRoot start) (hcounted : Counted descriptor stateRoot start)
    (hwithin : storedBytes descriptor stateRoot start ≤ descriptor.quotaBytes)
    (hdamage : Event.damaged ∉ events) :
    storedBytes descriptor stateRoot last ≤ descriptor.quotaBytes := by
  induction h with
  | nil _ => exact hwithin
  | cons h _ ih =>
      obtain ⟨heffect, hconsistent⟩ := h.effect hstart
      rw [mem_cons, not_or] at hdamage
      have hafter := heffect.counted hcounted (Ne.symm hdamage.1)
      exact ih hconsistent hafter (heffect.within hafter hwithin (Ne.symm hdamage.1)) hdamage.2

/-! ## The state store -/

/-- The script answers these bytes unless a call is refused, and answers them when none is. -/
def Answers (script : Script (Except StateStoreError (List UInt8))) (files : Tree)
    (bytes : List UInt8) : Prop :=
  (∀ schedule calls result world, script schedule ⟨files, calls⟩ = (some result, world) →
    result = .ok bytes ∨ ∃ kind, result = .error (.io kind)) ∧
  ∀ calls, ∃ calls', script (fun _ => none) ⟨files, calls⟩ = (some (.ok bytes), ⟨files, calls'⟩)

theorem Holds.answers {session : Session} (h : Holds descriptor stateRoot session bytes)
    (hdir : store.dir = storeDir descriptor stateRoot) :
    Answers (store.get (.sha256 bytes)) session.files bytes := by
  have hpath : store.object (.sha256 bytes) = objectPath descriptor stateRoot (.sha256 bytes) := by
    rw [FileStateStore.object, objectPath, hdir]
  have hlook : store.lookGet (.sha256 bytes) session.files = .ok bytes := by
    rw [FileStateStore.lookGet_eq_ok_iff, hpath]
    exact ⟨h, rfl⟩
  have hreads := store.reads_get (.sha256 bytes)
  constructor
  · intro schedule calls result world hrun
    obtain ⟨-, hanswer⟩ := (hreads.keeps session.files).answer hrun
    rw [hlook] at hanswer
    rcases hanswer with hok | ⟨_, rfl, kind, rfl⟩
    · exact .inl hok
    · exact .inr ⟨kind, rfl⟩
  · intro calls
    obtain ⟨calls', hrun⟩ := hreads.exact ⟨session.files, calls⟩
    rw [hlook] at hrun
    exact ⟨calls', hrun⟩

/-- Bytes that a put has accepted stay available until the next damage. -/
theorem Run.put_answers {earlier later : List Event} {id : ResultId}
    (h : Run descriptor stateRoot start (earlier ++ .put bytes (.ok id) :: later) last)
    (hstart : Consistent descriptor stateRoot start) (hdamage : Event.damaged ∉ later)
    (hcollision : NoCollision (payloads (earlier ++ .put bytes (.ok id) :: later)))
    (hstore : last.store = some store) :
    Answers (store.get id) last.files bytes := by
  obtain ⟨middle, hearlier, hlater⟩ := h.split
  cases hlater with
  | cons hput hrest =>
      obtain ⟨heffect, hconsistent⟩ := hput.effect (hearlier.consistent hstart)
      obtain ⟨rfl, hholds⟩ := heffect.holds_of_put
      have hmem : bytes ∈ payloads (earlier ++ .put bytes (.ok (.sha256 bytes)) :: later) := by
        simp [payloads]
      have hkept := hrest.holds hconsistent hholds hdamage fun other hother hid => by
        apply hcollision other _ bytes hmem hid
        rw [payloads, filterMap_append, filterMap_cons]
        exact mem_append_right _ (mem_cons_of_mem _ hother)
      have hopen := hrest.consistent hconsistent
      exact hkept.answers (hopen.store store hstore).1

/-- What one more step may do to the objects and the staging area. -/
theorem Step.objects_staged (h : Step descriptor stateRoot before event after)
    (hconsistent : Consistent descriptor stateRoot before) :
    (event ≠ .damaged → objects descriptor stateRoot after = objects descriptor stateRoot before ∨
      ∃ bytes, event = .put bytes (.ok (.sha256 bytes)) ∧
        objects descriptor stateRoot after = (objects descriptor stateRoot before).insert
          (objectPath descriptor stateRoot (.sha256 bytes)) (.file bytes)) ∧
    (event = .opened (.ok ()) → staged descriptor stateRoot after = OrdMap.empty) := by
  obtain ⟨heffect, -⟩ := h.effect hconsistent
  cases heffect with
  | opened hobjects hstaged => exact ⟨fun _ => .inl hobjects, fun _ => hstaged⟩
  | unopened _ hobjects | refused _ _ hobjects
  | intact _ hobjects => exact ⟨fun _ => .inl hobjects, fun h => nomatch h⟩
  | stored bytes _ hobjects => exact ⟨fun _ => .inr ⟨bytes, rfl, hobjects⟩, fun h => nomatch h⟩
  | got _ _ hfiles | verified _ hfiles => exact ⟨fun _ => .inl (by rw [hfiles]), fun h => nomatch h⟩
  | crashed hobjects => exact ⟨fun _ => .inl hobjects, fun h => nomatch h⟩
  | damaged => exact ⟨fun h => absurd rfl h, fun h => nomatch h⟩

/-- A put that is refused leaves the objects and the usage. -/
theorem Step.put_refused {error : StateStoreError}
    (h : Step descriptor stateRoot before (.put bytes (.error error)) after)
    (hconsistent : Consistent descriptor stateRoot before) :
    objects descriptor stateRoot after = objects descriptor stateRoot before ∧
      after.store.map FileStateStore.usedBytes = before.store.map FileStateStore.usedBytes := by
  obtain ⟨heffect, -⟩ := h.effect hconsistent
  cases heffect with
  | refused _ _ hobjects hused => exact ⟨hobjects, hused⟩

/-- A put that replaces a damaged object counts what is on disk, whatever was damaged before. -/
theorem Step.put_repaired {old : List UInt8} {id : ResultId}
    (h : Step descriptor stateRoot before (.put bytes (.ok id)) after)
    (hconsistent : Consistent descriptor stateRoot before)
    (hold : before.files.find? (objectPath descriptor stateRoot id) = some (.file old))
    (hdamaged : old ≠ bytes) (hstore : after.store = some store) :
    store.usedBytes = storedBytes descriptor stateRoot after := by
  obtain ⟨heffect, -⟩ := h.effect hconsistent
  cases heffect with
  | intact _ _ _ hheld =>
      rw [hold] at hheld
      exact absurd (Files.Entry.file.inj (Option.some.inj hheld)) hdamaged
  | stored _ used hobjects hbefore hafter hfresh hreplaced hused =>
      rw [hafter] at hstore
      cases hstore
      apply storedBytes_insert hobjects _ hused
      exact hreplaced (by rw [hold]; exact some_ne_none _)

/-- The invariant of a state store, for every run from a file system on which no store is open:
what `get` hands out has the digest asked for; bytes that were put are answered until the next
damage; a refused put changes neither the objects nor the usage; only the bytes of a put become an
object and opening clears the staging area; without damage the usage is what is on disk and stays
within the quota; and a put that repairs an object counts what is on disk. -/
theorem state_store_invariant (descriptor : StateStoreDescriptor) (stateRoot : Path)
    {start last : Session} {events : List Event} (hstart : Initial start)
    (hrun : Run descriptor stateRoot start events last) :
    (∀ id bytes, .got id (.ok bytes) ∈ events → ResultId.sha256 bytes = id) ∧
    (∀ earlier bytes id later, events = earlier ++ .put bytes (.ok id) :: later →
      .damaged ∉ later → NoCollision (payloads events) →
      ∀ store, last.store = some store → Answers (store.get id) last.files bytes) ∧
    (∀ bytes error next, Step descriptor stateRoot last (.put bytes (.error error)) next →
      objects descriptor stateRoot next = objects descriptor stateRoot last ∧
      next.store.map FileStateStore.usedBytes = last.store.map FileStateStore.usedBytes) ∧
    (∀ event next, Step descriptor stateRoot last event next →
      (event ≠ .damaged → objects descriptor stateRoot next = objects descriptor stateRoot last ∨
        ∃ bytes, event = .put bytes (.ok (.sha256 bytes)) ∧
          objects descriptor stateRoot next = (objects descriptor stateRoot last).insert
            (objectPath descriptor stateRoot (.sha256 bytes)) (.file bytes)) ∧
      (event = .opened (.ok ()) → staged descriptor stateRoot next = OrdMap.empty)) ∧
    (.damaged ∉ events → ∀ store, last.store = some store →
      store.usedBytes = storedBytes descriptor stateRoot last) ∧
    (.damaged ∉ events → ∀ earlier later middle, events = earlier ++ later →
      Run descriptor stateRoot start earlier middle → Run descriptor stateRoot middle later last →
      ∀ former, middle.store = some former → former.usedBytes ≤ former.quota →
      storedBytes descriptor stateRoot last ≤ descriptor.quotaBytes ∧
      ∀ store, last.store = some store → store.usedBytes ≤ store.quota) ∧
    (∀ bytes id old next store, Step descriptor stateRoot last (.put bytes (.ok id)) next →
      last.files.find? (objectPath descriptor stateRoot id) = some (.file old) → old ≠ bytes →
      next.store = some store → store.usedBytes = storedBytes descriptor stateRoot next) := by
  have hinitial := @consistent_of_initial descriptor stateRoot start hstart
  have hcounted : Counted descriptor stateRoot start := by
    intro store hstore
    rw [hstart.closed] at hstore
    cases hstore
  have hlast := hrun.consistent hinitial
  refine ⟨?_, ?_, ?_, ?_, ?_, ?_, ?_⟩
  · intro id bytes hmem
    exact hrun.got_digest hinitial hmem
  · intro earlier bytes id later hevents hdamage hcollision store hstore
    subst hevents
    exact hrun.put_answers hinitial hdamage hcollision hstore
  · intro bytes error next hstep
    exact hstep.put_refused hlast
  · intro event next hstep
    exact hstep.objects_staged hlast
  · intro hdamage store hstore
    exact hrun.counted hinitial hcounted hdamage store hstore
  · intro hdamage earlier later middle hevents hearlier hlater former hformer hwithin
    rw [hevents, mem_append, not_or] at hdamage
    have hmiddle := hearlier.consistent hinitial
    have hmiddleCounted := hearlier.counted hinitial hcounted hdamage.1
    have hsmall : storedBytes descriptor stateRoot middle ≤ descriptor.quotaBytes := by
      rw [← hmiddleCounted former hformer, ← (hmiddle.store former hformer).2.1]
      exact hwithin
    have hend := hlater.within hmiddle hmiddleCounted hsmall hdamage.2
    refine ⟨hend, ?_⟩
    intro store hstore
    rw [(hlast.store store hstore).2.1]
    have hused := hlater.counted hmiddle hmiddleCounted hdamage.2 store hstore
    exact hused.le.trans hend
  · intro bytes id old next store hstep hold hdamaged hstore
    exact hstep.put_repaired hlast hold hdamaged hstore

end Steps

/-! ## A run -/

def plainStore : StateStoreDescriptor where
  id := "local".toList
  backend := .file
  location := "state".toList
  namespaceName := "alpha".toList
  quotaBytes := 64
  credential := none
  encryptionKey := none
  validId := by decide
  validLocation := by decide
  validNamespace := by decide
  validQuota := by decide
  validCredential := by decide

/-- A file system with nothing but its root. -/
def bare : Session := ⟨OrdMap.empty.insert [] .directory, none⟩

/-- A store opened and one byte string put into it, without faults. -/
def openAndPut (files : Tree) (bytes : List UInt8) :
    Option (FileStateStore × ResultId × World) :=
  match openStore plainStore ["srv".toList] (fun _ => none) ⟨files, 0⟩ with
  | (some (.ok store), world) =>
      match store.put bytes (fun _ => none) world with
      | (some (.ok id, next), world) => some (next, id, world)
      | _ => none
  | _ => none

theorem initial_bare : Initial bare := by
  refine ⟨?_, rfl⟩
  intro path hne hentry
  rw [bare, find?_insert_of_ne _ _ (Ne.symm hne)] at hentry
  exact absurd rfl hentry

theorem run_openAndPut {files : Tree} {bytes : List UInt8} {store : FileStateStore}
    {id : ResultId} {world : World} (h : openAndPut files bytes = some (store, id, world)) :
    Run plainStore ["srv".toList] ⟨files, none⟩ [.opened (.ok ()), .put bytes (.ok id)]
      ⟨world.files, some store⟩ := by
  unfold openAndPut at h
  split at h
  · rename_i opened middle hopened
    split at h
    · rename_i next id' last hput
      cases h
      exact .cons (Step.opened hopened) (.cons (Step.put hput) (.nil _))
    · cases h
  · cases h

theorem state_store_invariant_plain : ∃ store id files,
    Run plainStore ["srv".toList] bare [.opened (.ok ()), .put [97] (.ok id)]
      ⟨files, some store⟩ ∧
    store.usedBytes = storedBytes plainStore ["srv".toList] ⟨files, some store⟩ ∧
    Answers (store.get id) files [97] := by
  have hsome : (openAndPut bare.files [97]).isSome = true := by decide +kernel
  obtain ⟨⟨store, id, world⟩, h⟩ := isSome_iff_exists.mp hsome
  have hrun := run_openAndPut h
  obtain ⟨-, hanswers, -, -, hused, -⟩ :=
    state_store_invariant plainStore ["srv".toList] initial_bare hrun
  refine ⟨store, id, world.files, hrun, hused (by simp) store rfl, ?_⟩
  refine hanswers [.opened (.ok ())] [97] id [] rfl (by simp) ?_ store rfl
  intro first hfirst second hsecond _
  simp only [payloads, filterMap_cons, filterMap_nil, mem_singleton] at hfirst hsecond
  rw [hfirst, hsecond]

end Bran.Database
