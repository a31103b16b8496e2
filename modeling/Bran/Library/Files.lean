import Bran.Library.OrdMap
import Bran.Library.Text

/-!
# A file system whose calls may fail

A tree of files is a finite map from paths to entries.  A `Script` is a program over it: every
call it makes may be refused, and at every call the process may stop; which calls go wrong is
decided by a schedule that the program does not see.  `Ensures` says what a script leaves
behind, for every schedule, when it returns and when it stops; the rules below it let a proof
follow a script call by call.
-/

namespace Files

open OrdMap

/-- The components of an absolute path. -/
abbrev Path := List Str

/-- What a path names.  A call that would follow a symbolic link is refused. -/
inductive Entry
  | file (bytes : List UInt8)
  | directory
  | symlink
  deriving DecidableEq

def Entry.length? : Entry → Option ℕ
  | .file bytes => some bytes.length
  | _ => none

inductive ErrorKind
  | notFound
  | alreadyExists
  | other (code : ℕ)
  deriving DecidableEq

/-- An I/O error: its kind and its text. -/
structure Error where
  kind : ErrorKind
  text : Str
  deriving DecidableEq

namespace Error

def notFound : Error := ⟨.notFound, "No such file or directory (os error 2)".toList⟩

def alreadyExists : Error := ⟨.alreadyExists, "File exists (os error 17)".toList⟩

def notADirectory : Error := ⟨.other 20, "Not a directory (os error 20)".toList⟩

def isADirectory : Error := ⟨.other 21, "Is a directory (os error 21)".toList⟩

def tooManyLinks : Error := ⟨.other 40, "Too many levels of symbolic links (os error 40)".toList⟩

end Error

abbrev Tree := OrdMap Path Entry

/-! ## What the calls do when nothing goes wrong -/

/-- Whether entries can be made inside the directory of a path. -/
def inDirectory (tree : Tree) (path : Path) : Except Error Unit :=
  match tree.find? path.dropLast with
  | some .directory => .ok ()
  | some (.file _) => .error .notADirectory
  | some .symlink => .error .tooManyLinks
  | none => .error .notFound

/-- `fs::symlink_metadata`. -/
def lookup (path : Path) (tree : Tree) : Except Error Entry :=
  match tree.find? path with
  | some entry => .ok entry
  | none => .error .notFound

/-- `fs::read`. -/
def contents (path : Path) (tree : Tree) : Except Error (List UInt8) :=
  match tree.find? path with
  | some (.file bytes) => .ok bytes
  | some .directory => .error .isADirectory
  | some .symlink => .error .tooManyLinks
  | none => .error .notFound

/-- The paths directly below a directory. -/
def children (path : Path) (tree : Tree) : List Path :=
  tree.keys.filter fun child => child ≠ [] && child.dropLast = path

/-- `fs::read_dir`. -/
def listing (path : Path) (tree : Tree) : Except Error (List Path) :=
  match tree.find? path with
  | some .directory => .ok (children path tree)
  | some (.file _) => .error .notADirectory
  | some .symlink => .error .tooManyLinks
  | none => .error .notFound

/-- A new empty file, as `create_new` makes it. -/
def created (path : Path) (tree : Tree) : Except Error Tree :=
  match tree.find? path, inDirectory tree path with
  | some _, _ => .error .alreadyExists
  | none, .ok () => .ok (tree.insert path (.file []))
  | none, .error error => .error error

def directoryCreated (path : Path) (tree : Tree) : Except Error Tree :=
  match tree.find? path, inDirectory tree path with
  | some _, _ => .error .alreadyExists
  | none, .ok () => .ok (tree.insert path .directory)
  | none, .error error => .error error

/-- An empty file, new or in the place of another one, as `File::create` makes it. -/
def truncated (path : Path) (tree : Tree) : Except Error Tree :=
  match tree.find? path, inDirectory tree path with
  | some (.file _), _ => .ok (tree.insert path (.file []))
  | some .directory, _ => .error .isADirectory
  | some .symlink, _ => .error .tooManyLinks
  | none, .ok () => .ok (tree.insert path (.file []))
  | none, .error error => .error error

/-- The file of an open handle, filled with bytes. -/
def filled (path : Path) (bytes : List UInt8) (tree : Tree) : Tree :=
  match tree.find? path with
  | some (.file _) => tree.insert path (.file bytes)
  | _ => tree

/-- `fs::rename` of a file; a file at the new name is replaced. -/
def renamed (source destination : Path) (tree : Tree) : Except Error Tree :=
  match tree.find? source, tree.find? destination with
  | none, _ => .error .notFound
  | some .directory, _ => .error .isADirectory
  | some _, some .directory => .error .isADirectory
  | some entry, _ => .ok ((tree.erase source).insert destination entry)

/-- `fs::remove_file`. -/
def removed (path : Path) (tree : Tree) : Except Error Tree :=
  match tree.find? path with
  | none => .error .notFound
  | some .directory => .error .isADirectory
  | some _ => .ok (tree.erase path)

theorem created_eq_ok {path : Path} {tree after : Tree} (h : created path tree = .ok after) :
    tree.find? path = none ∧ after = tree.insert path (.file []) := by
  unfold created at h
  split at h
  · cases h
  · rename_i hnone _
    cases h
    exact ⟨hnone, rfl⟩
  · cases h

theorem directoryCreated_eq_ok {path : Path} {tree after : Tree}
    (h : directoryCreated path tree = .ok after) :
    tree.find? path = none ∧ after = tree.insert path .directory := by
  unfold directoryCreated at h
  split at h
  · cases h
  · rename_i hnone _
    cases h
    exact ⟨hnone, rfl⟩
  · cases h

theorem truncated_eq_ok {path : Path} {tree after : Tree} (h : truncated path tree = .ok after) :
    tree.find? path ≠ some .directory ∧ after = tree.insert path (.file []) := by
  unfold truncated at h
  split at h
  · rename_i hfile
    cases h
    exact ⟨by simp [hfile], rfl⟩
  · cases h
  · cases h
  · rename_i hnone _
    cases h
    exact ⟨by simp [hnone], rfl⟩
  · cases h

theorem removed_eq_ok {path : Path} {tree after : Tree} (h : removed path tree = .ok after) :
    tree.find? path ≠ some .directory ∧ after = tree.erase path := by
  unfold removed at h
  split at h
  · cases h
  · cases h
  · rename_i hdirectory hfound
    cases h
    exact ⟨by simpa [hfound] using hdirectory, rfl⟩

theorem renamed_eq_ok {source destination : Path} {tree after : Tree}
    (h : renamed source destination tree = .ok after) :
    ∃ entry, tree.find? source = some entry ∧ entry ≠ .directory ∧
      tree.find? destination ≠ some .directory ∧
      after = (tree.erase source).insert destination entry := by
  unfold renamed at h
  split at h
  · cases h
  · cases h
  · cases h
  · rename_i hentry hsource hdestination
    cases h
    refine ⟨_, hsource, ?_, hdestination, rfl⟩
    simpa using hentry

/-- Filling replaces the bytes of a file and does nothing else. -/
theorem filled_cases (path : Path) (bytes : List UInt8) (tree : Tree) :
    (∃ old, tree.find? path = some (.file old) ∧
      filled path bytes tree = tree.insert path (.file bytes)) ∨ filled path bytes tree = tree := by
  unfold filled
  split
  · rename_i old hfile
    exact .inl ⟨old, hfile, rfl⟩
  · exact .inr rfl

/-! ## Scripts -/

/-- What goes wrong with one call: it is refused with an error, which is never the answer about
an absent path, or the process stops in it.  `landed` bytes of a write have reached the file. -/
structure Fault where
  stops : Bool
  code : ℕ
  text : Str
  landed : ℕ

/-- Which calls go wrong, by their number. -/
abbrev Schedule := ℕ → Option Fault

/-- The files and the number of calls made so far. -/
structure World where
  files : Tree
  calls : ℕ

/-- A program over the file system; without an answer it has stopped on the way. -/
def Script (α : Type) := Schedule → World → Option α × World

instance : Monad Script where
  pure answer := fun _ world => (some answer, world)
  bind first next := fun schedule world =>
    match first schedule world with
    | (some answer, world) => next answer schedule world
    | (none, world) => (none, world)

namespace Script

variable {α β : Type}

def stop : Script α := fun _ world => (none, world)

/-- One call.  `effect` is its answer and the tree after it; `torn` is the tree after a call
that went wrong when some bytes had landed. -/
def call (effect : Tree → Except Error α × Tree) (torn : ℕ → Tree → Tree) :
    Script (Except Error α) := fun schedule world =>
  match schedule world.calls with
  | none => (some (effect world.files).1, ⟨(effect world.files).2, world.calls + 1⟩)
  | some fault =>
      let world := ⟨torn fault.landed world.files, world.calls + 1⟩
      if fault.stops then (none, world)
      else (some (.error ⟨.other fault.code, fault.text⟩), world)

/-- A call that only looks. -/
def query (look : Tree → Except Error α) : Script (Except Error α) :=
  call (fun tree => (look tree, tree)) fun _ tree => tree

/-- The tree a change leaves: the old one when the change is refused. -/
def outcome (tree : Tree) : Except Error Tree → Except Error Unit × Tree
  | .ok tree => (.ok (), tree)
  | .error error => (.error error, tree)

/-- A call that changes the tree at once or not at all. -/
def change (alter : Tree → Except Error Tree) : Script (Except Error Unit) :=
  call (fun tree => outcome tree (alter tree)) fun _ tree => tree

def symlinkMetadata (path : Path) : Script (Except Error Entry) := query (lookup path)

def read (path : Path) : Script (Except Error (List UInt8)) := query (contents path)

def readDir (path : Path) : Script (Except Error (List Path)) := query (listing path)

def createNew (path : Path) : Script (Except Error Unit) := change (created path)

def createDir (path : Path) : Script (Except Error Unit) := change (directoryCreated path)

def createFile (path : Path) : Script (Except Error Unit) := change (truncated path)

def rename (source destination : Path) : Script (Except Error Unit) :=
  change (renamed source destination)

def removeFile (path : Path) : Script (Except Error Unit) := change (removed path)

/-- `write_all` through the handle of a new file. -/
def writeAll (path : Path) (bytes : List UInt8) : Script (Except Error Unit) :=
  call (fun tree => (.ok (), filled path bytes tree)) fun landed => filled path (bytes.take landed)

def syncAll : Script (Except Error Unit) := query fun _ => .ok ()

/-- A computation over the files that only reads them. -/
def observe (look : Tree → α) : Script α := fun _ world => (some (look world.files), world)

/-! ## What a script leaves behind -/

/-- From this tree, for every schedule, the script returns an answer with `Q` or stops with
`C`. -/
def Ensures (script : Script α) (tree : Tree) (Q : α → Tree → Prop) (C : Tree → Prop) : Prop :=
  ∀ schedule calls, match script schedule ⟨tree, calls⟩ with
    | (some answer, world) => Q answer world.files
    | (none, world) => C world.files

variable {script : Script α} {next : α → Script β} {tree : Tree} {Q : α → Tree → Prop}
  {R : β → Tree → Prop} {C : Tree → Prop}

theorem Ensures.answer (h : Ensures script tree Q C) {schedule : Schedule} {calls : ℕ}
    {answer : α} {world : World} (hrun : script schedule ⟨tree, calls⟩ = (some answer, world)) :
    Q answer world.files := by
  have hall := h schedule calls
  rw [hrun] at hall
  exact hall

theorem Ensures.stopped (h : Ensures script tree Q C) {schedule : Schedule} {calls : ℕ}
    {world : World} (hrun : script schedule ⟨tree, calls⟩ = (none, world)) : C world.files := by
  have hall := h schedule calls
  rw [hrun] at hall
  exact hall

theorem ensures_pure {answer : α} (h : Q answer tree) : Ensures (pure answer) tree Q C :=
  fun _ _ => h

theorem ensures_stop (h : C tree) : Ensures stop tree Q C := fun _ _ => h

theorem Ensures.bind (h : Ensures script tree Q C)
    (hnext : ∀ answer tree', Q answer tree' → Ensures (next answer) tree' R C) :
    Ensures (script >>= next) tree R C := by
  intro schedule calls
  have hfirst := h schedule calls
  change match (match script schedule ⟨tree, calls⟩ with
    | (some answer, world) => next answer schedule world
    | (none, world) => (none, world)) with
    | (some answer, world) => R answer world.files
    | (none, world) => C world.files
  rcases hrun : script schedule ⟨tree, calls⟩ with ⟨answer | answer, world⟩
  · rw [hrun] at hfirst
    exact hfirst
  · rw [hrun] at hfirst
    exact hnext answer world.files hfirst schedule world.calls

/-- A script followed by another, call by call. -/
theorem Ensures.seq (h : Ensures script tree (fun answer tree' => Ensures (next answer) tree' R C) C) :
    Ensures (script >>= next) tree R C :=
  h.bind fun _ _ hnext => hnext

theorem ensures_observe {look : Tree → α} (h : Q (look tree) tree) :
    Ensures (observe look) tree Q C :=
  fun _ _ => h

theorem Ensures.mono {Q' : α → Tree → Prop} {C' : Tree → Prop} (h : Ensures script tree Q C)
    (hanswer : ∀ answer tree', Q answer tree' → Q' answer tree')
    (hstop : ∀ tree', C tree' → C' tree') : Ensures script tree Q' C' := by
  intro schedule calls
  have hall := h schedule calls
  rcases hrun : script schedule ⟨tree, calls⟩ with ⟨answer | answer, world⟩
  · rw [hrun] at hall
    exact hstop _ hall
  · rw [hrun] at hall
    exact hanswer _ _ hall

/-- The rule of a call: it answers, it is refused, or the process stops in it. -/
theorem ensures_call {effect : Tree → Except Error α × Tree} {torn : ℕ → Tree → Tree}
    {Q : Except Error α → Tree → Prop}
    (hdone : Q (effect tree).1 (effect tree).2)
    (hrefused : ∀ error landed, error.kind ≠ .notFound → Q (.error error) (torn landed tree))
    (hstop : ∀ landed, C (torn landed tree)) : Ensures (call effect torn) tree Q C := by
  intro schedule calls
  unfold call
  cases schedule calls with
  | none => exact hdone
  | some fault =>
      by_cases hstops : fault.stops = true
      · simpa only [hstops, if_true] using hstop fault.landed
      · simp only [hstops]
        exact hrefused _ _ (by simp)

/-- A call that only looks leaves the tree as it is. -/
theorem ensures_query {look : Tree → Except Error α} {Q : Except Error α → Tree → Prop}
    (hdone : Q (look tree) tree)
    (hrefused : ∀ error, error.kind ≠ .notFound → Q (.error error) tree) (hstop : C tree) :
    Ensures (query look) tree Q C :=
  ensures_call hdone (fun error _ => hrefused error) fun _ => hstop

/-- A change that the tree allows. -/
theorem ensures_change {alter : Tree → Except Error Tree} {tree' : Tree}
    {Q : Except Error Unit → Tree → Prop} (halter : alter tree = .ok tree')
    (hdone : Q (.ok ()) tree')
    (hrefused : ∀ error, error.kind ≠ .notFound → Q (.error error) tree) (hstop : C tree) :
    Ensures (change alter) tree Q C := by
  refine ensures_call ?_ (fun error _ => hrefused error) fun _ => hstop
  rw [halter]
  exact hdone

/-- A change is made as the tree allows it, or nothing changes. -/
theorem ensures_change_cases (alter : Tree → Except Error Tree) (tree : Tree) :
    Ensures (change alter) tree
      (fun answer after => (answer = .ok () ∧ alter tree = .ok after) ∨
        (∃ error, answer = .error error ∧ after = tree)) (fun after => after = tree) := by
  refine ensures_call ?_ (fun error _ _ => .inr ⟨error, rfl, rfl⟩) fun _ => rfl
  cases halter : alter tree with
  | ok after => exact .inl ⟨rfl, rfl⟩
  | error error => exact .inr ⟨error, rfl, rfl⟩

/-- A change that the tree refuses. -/
theorem ensures_change_error {alter : Tree → Except Error Tree} {error : Error}
    {Q : Except Error Unit → Tree → Prop} (halter : alter tree = .error error)
    (hrefused : ∀ error', error' = error ∨ error'.kind ≠ .notFound → Q (.error error') tree)
    (hstop : C tree) : Ensures (change alter) tree Q C := by
  refine ensures_call ?_ (fun error' _ hkind => hrefused error' (.inr hkind)) fun _ => hstop
  rw [halter]
  exact hrefused error (.inl rfl)

theorem bind_apply (script : Script α) (next : α → Script β) (schedule : Schedule) (world : World) :
    (script >>= next) schedule world = match script schedule world with
      | (some answer, world) => next answer schedule world
      | (none, world) => (none, world) := rfl

/-! ## Scripts that may be refused -/

section Refusable

variable {ε : Type}

/-- A script after an answer; a refusal is passed on. -/
def andThen (first : Script (Except ε α)) (next : α → Script (Except ε β)) :
    Script (Except ε β) := do
  match ← first with
  | .ok answer => next answer
  | .error error => return .error error

theorem Ensures.andThen {first : Script (Except ε α)} {next : α → Script (Except ε β)}
    {Q : Except ε α → Tree → Prop} {R : Except ε β → Tree → Prop} (h : Ensures first tree Q C)
    (hok : ∀ answer tree', Q (.ok answer) tree' → Ensures (next answer) tree' R C)
    (herror : ∀ error tree', Q (.error error) tree' → R (.error error) tree') :
    Ensures (first.andThen next) tree R C := by
  apply h.bind
  intro answer tree' hanswer
  cases answer with
  | ok answer => exact hok answer tree' hanswer
  | error error => exact ensures_pure (herror error tree' hanswer)

/-- A script that only looks: without faults it answers what the tree says, and a fault can only
make it stop or answer one of the `faulty` errors. -/
structure Reads (script : Script (Except ε α)) (look : Tree → Except ε α) (faulty : ε → Prop) :
    Prop where
  keeps : ∀ tree, Ensures script tree
    (fun answer after => after = tree ∧
      (answer = look tree ∨ ∃ error, answer = .error error ∧ faulty error))
    (fun after => after = tree)
  exact : ∀ world, ∃ calls,
    script (fun _ => none) world = (some (look world.files), ⟨world.files, calls⟩)

variable {faulty : ε → Prop}

theorem reads_pure (answer : Except ε α) :
    Reads (pure answer : Script (Except ε α)) (fun _ => answer) faulty :=
  ⟨fun _ => ensures_pure ⟨rfl, .inl rfl⟩, fun world => ⟨world.calls, rfl⟩⟩

theorem Reads.andThen {first : Script (Except ε α)} {look : Tree → Except ε α}
    {next : α → Script (Except ε β)} {lookNext : α → Tree → Except ε β}
    (h : Reads first look faulty) (hnext : ∀ answer, Reads (next answer) (lookNext answer) faulty) :
    Reads (first.andThen next) (fun tree => look tree >>= fun answer => lookNext answer tree)
      faulty := by
  constructor
  · intro tree
    apply (h.keeps tree).andThen
    · intro answer after hanswer
      obtain ⟨rfl, hlook | ⟨_, herror, _⟩⟩ := hanswer
      · rw [← hlook]
        exact (hnext answer).keeps after
      · cases herror
    · intro error after hanswer
      obtain ⟨rfl, hlook | hfaulty⟩ := hanswer
      · exact ⟨rfl, .inl (by rw [← hlook]; rfl)⟩
      · obtain ⟨_, herror, hfaulty⟩ := hfaulty
        cases herror
        exact ⟨rfl, .inr ⟨error, rfl, hfaulty⟩⟩
  · intro world
    obtain ⟨calls, hfirst⟩ := h.exact world
    cases hlook : look world.files with
    | error error =>
        rw [hlook] at hfirst
        refine ⟨calls, ?_⟩
        rw [Script.andThen, bind_apply, hfirst]
        rfl
    | ok answer =>
        rw [hlook] at hfirst
        obtain ⟨calls', hsecond⟩ := (hnext answer).exact ⟨world.files, calls⟩
        refine ⟨calls', ?_⟩
        rw [Script.andThen, bind_apply, hfirst]
        exact hsecond

/-- A call that only looks, with its errors translated. -/
theorem reads_query {look : Tree → Except Error α} {γ : Type} (f : Except Error α → Except ε γ)
    (h : ∀ error, error.kind ≠ .notFound → ∃ error', f (.error error) = .error error' ∧
      faulty error') :
    Reads (do return f (← query look)) (fun tree => f (look tree)) faulty := by
  constructor
  · intro tree
    apply Ensures.seq
    apply ensures_query
    · exact ensures_pure ⟨rfl, .inl rfl⟩
    · intro error hkind
      obtain ⟨error', herror, hfaulty⟩ := h error hkind
      exact ensures_pure ⟨rfl, .inr ⟨error', herror, hfaulty⟩⟩
    · rfl
  · intro world
    exact ⟨world.calls + 1, rfl⟩

theorem reads_ite {condition : Prop} [Decidable condition] {first second : Script (Except ε α)}
    {look look' : Tree → Except ε α} (h : Reads first look faulty)
    (h' : Reads second look' faulty) :
    Reads (if condition then first else second)
      (fun tree => if condition then look tree else look' tree) faulty := by
  by_cases hcondition : condition
  · simpa only [if_pos hcondition] using h
  · simpa only [if_neg hcondition] using h'

end Refusable

/-! ## What holds along every run -/

/-- Every run of the script, also one that stops on the way, leads from a tree to a related one. -/
def Moves (script : Script α) (R : Tree → Tree → Prop) : Prop :=
  ∀ schedule world, R world.files (script schedule world).2.files

section Along

variable {R : Tree → Tree → Prop}

theorem moves_pure (hrefl : ∀ tree, R tree tree) (answer : α) :
    Moves (pure answer : Script α) R :=
  fun _ world => hrefl world.files

theorem Moves.bind (htrans : ∀ first second third, R first second → R second third → R first third)
    (h : Moves script R) (hnext : ∀ answer, Moves (next answer) R) : Moves (script >>= next) R := by
  intro schedule world
  have hfirst := h schedule world
  change R world.files (match script schedule world with
    | (some answer, world) => next answer schedule world
    | (none, world) => (none, world)).2.files
  rcases hrun : script schedule world with ⟨answer | answer, after⟩
  · rw [hrun] at hfirst
    exact hfirst
  · rw [hrun] at hfirst
    exact htrans _ _ _ hfirst (hnext answer schedule after)

theorem moves_call {effect : Tree → Except Error α × Tree} {torn : ℕ → Tree → Tree}
    (heffect : ∀ tree, R tree (effect tree).2) (htorn : ∀ landed tree, R tree (torn landed tree)) :
    Moves (call effect torn) R := by
  intro schedule world
  unfold call
  cases schedule world.calls with
  | none => exact heffect world.files
  | some fault =>
      have hfault := htorn fault.landed world.files
      dsimp only
      split
      · exact hfault
      · exact hfault

theorem moves_query (hrefl : ∀ tree, R tree tree) (look : Tree → Except Error α) :
    Moves (query look) R :=
  moves_call hrefl fun _ => hrefl

theorem moves_change (hrefl : ∀ tree, R tree tree) {alter : Tree → Except Error Tree}
    (h : ∀ tree after, alter tree = .ok after → R tree after) : Moves (change alter) R := by
  refine moves_call (fun tree => ?_) fun _ => hrefl
  cases halter : alter tree with
  | ok after => exact h tree after halter
  | error error => exact hrefl tree

theorem Reads.moves {ε : Type} {script : Script (Except ε α)} {look : Tree → Except ε α}
    {faulty : ε → Prop} (h : Reads script look faulty) (hrefl : ∀ tree, R tree tree) :
    Moves script R := by
  intro schedule world
  have hrun := h.keeps world.files schedule world.calls
  rcases hscript : script schedule world with ⟨answer | answer, after⟩
  · rw [hscript] at hrun
    change after.files = world.files at hrun
    rw [hrun]
    exact hrefl world.files
  · rw [hscript] at hrun
    obtain ⟨hafter, -⟩ := hrun
    rw [hafter]
    exact hrefl world.files

theorem Moves.andThen {ε : Type} {first : Script (Except ε α)} {next : α → Script (Except ε β)}
    (htrans : ∀ first second third, R first second → R second third → R first third)
    (hrefl : ∀ tree, R tree tree) (h : Moves first R) (hnext : ∀ answer, Moves (next answer) R) :
    Moves (first.andThen next) R := by
  apply h.bind htrans
  intro answer
  cases answer with
  | ok answer => exact hnext answer
  | error error => exact moves_pure hrefl _

/-- What a script ensures and what holds along its runs, together. -/
theorem Ensures.along (h : Ensures script tree Q C) (hmoves : Moves script R) :
    Ensures script tree (fun answer after => Q answer after ∧ R tree after)
      (fun after => C after ∧ R tree after) := by
  intro schedule calls
  have hall := h schedule calls
  have hrun := hmoves schedule ⟨tree, calls⟩
  rcases hscript : script schedule ⟨tree, calls⟩ with ⟨answer | answer, world⟩
  · rw [hscript] at hall hrun
    exact ⟨hall, hrun⟩
  · rw [hscript] at hall hrun
    exact ⟨hall, hrun⟩

/-! ## What an answer leaves established -/

section Established

variable {ε : Type}

/-- Every run leads along `R`, and `P` holds of an answer and the tree it leaves. -/
structure Establishes (script : Script (Except ε α)) (R : Tree → Tree → Prop)
    (P : α → Tree → Prop) : Prop where
  moves : Moves script R
  done : ∀ schedule world answer after, script schedule world = (some (.ok answer), after) →
    P answer after.files

variable {P : α → Tree → Prop}

theorem establishes_pure (hrefl : ∀ tree, R tree tree) {answer : α} (h : ∀ tree, P answer tree) :
    Establishes (pure (.ok answer) : Script (Except ε α)) R P := by
  refine ⟨moves_pure hrefl _, ?_⟩
  intro schedule world answer' after hrun
  cases hrun
  exact h _

/-- What the first script established holds still when the next one keeps it along `R`. -/
theorem Establishes.andThen {first : Script (Except ε α)} {next : α → Script (Except ε β)}
    {P' : α → β → Tree → Prop}
    (htrans : ∀ first second third, R first second → R second third → R first third)
    (hrefl : ∀ tree, R tree tree) (h : Establishes first R P)
    (hkept : ∀ answer tree after, R tree after → P answer tree → P answer after)
    (hnext : ∀ answer, Establishes (next answer) R (P' answer)) :
    Establishes (first.andThen next) R (fun answer tree => ∃ x, P x tree ∧ P' x answer tree) := by
  refine ⟨h.moves.andThen htrans hrefl fun answer => (hnext answer).moves, ?_⟩
  · intro schedule world answer after hrun
    rw [Script.andThen, bind_apply] at hrun
    rcases hfirst : first schedule world with ⟨_ | _ | found, middle⟩
    · rw [hfirst] at hrun
      cases hrun
    · rw [hfirst] at hrun
      cases hrun
    · rw [hfirst] at hrun
      have hfound := h.done schedule world found middle hfirst
      have hmoved := (hnext found).moves schedule middle
      change next found schedule middle = _ at hrun
      rw [hrun] at hmoved
      exact ⟨found, hkept found _ _ hmoved hfound,
        (hnext found).done schedule middle answer after hrun⟩

theorem Establishes.mono {P' : α → Tree → Prop} {script : Script (Except ε α)}
    (h : Establishes script R P) (himp : ∀ answer tree, P answer tree → P' answer tree) :
    Establishes script R P' :=
  ⟨h.moves, fun schedule world answer after hrun =>
    himp answer _ (h.done schedule world answer after hrun)⟩

theorem establishes_of_moves {script : Script (Except ε α)} (h : Moves script R) :
    Establishes script R fun _ _ => True :=
  ⟨h, fun _ _ _ _ _ => trivial⟩

/-- A script that only looks answers what the tree says. -/
theorem Reads.establishes {script : Script (Except ε α)} {look : Tree → Except ε α}
    {faulty : ε → Prop} (h : Reads script look faulty) (hrefl : ∀ tree, R tree tree) :
    Establishes script R fun answer tree => look tree = .ok answer := by
  refine ⟨h.moves hrefl, ?_⟩
  intro schedule world answer after hrun
  obtain ⟨hafter, hanswer⟩ := (h.keeps world.files).answer hrun
  rw [hafter]
  rcases hanswer with hlook | ⟨_, herror, _⟩
  · exact hlook.symm
  · cases herror

/-- Errors translated on the way out do not touch what is established. -/
theorem Establishes.map {ε' : Type} {script : Script (Except ε α)} (h : Establishes script R P)
    (f : Except ε α → Except ε' α) (hf : ∀ answer x, f answer = .ok x → answer = .ok x) :
    Establishes (do return f (← script)) R P := by
  constructor
  · intro schedule world
    have hmoved := h.moves schedule world
    rw [bind_apply]
    rcases hrun : script schedule world with ⟨_ | found, middle⟩
    · rw [hrun] at hmoved
      exact hmoved
    · rw [hrun] at hmoved
      exact hmoved
  · intro schedule world answer after hrun
    rw [bind_apply] at hrun
    rcases hfound : script schedule world with ⟨_ | found, middle⟩
    · rw [hfound] at hrun
      cases hrun
    · rw [hfound] at hrun
      simp only [pure, Prod.mk.injEq, Option.some.injEq] at hrun
      obtain ⟨hanswer, rfl⟩ := hrun
      rw [hf found answer hanswer] at hfound
      exact h.done schedule world answer middle hfound

theorem establishes_change (hrefl : ∀ tree, R tree tree) {alter : Tree → Except Error Tree}
    {P : Unit → Tree → Prop}
    (h : ∀ tree after, alter tree = .ok after → R tree after ∧ P () after) :
    Establishes (change alter) R P := by
  refine ⟨moves_change hrefl fun tree after halter => (h tree after halter).1, ?_⟩
  intro schedule world answer after hrun
  unfold change call at hrun
  cases hfault : schedule world.calls with
  | none =>
      rw [hfault] at hrun
      cases halter : alter world.files with
      | ok tree =>
          simp only [halter, outcome, Prod.mk.injEq] at hrun
          obtain ⟨-, rfl⟩ := hrun
          exact (h _ _ halter).2
      | error error =>
          simp only [halter, outcome, Prod.mk.injEq] at hrun
          cases hrun.1
  | some fault =>
      rw [hfault] at hrun
      dsimp only at hrun
      split at hrun
      · cases hrun
      · cases hrun

/-- What is established holds of an answer in particular after a run from a given tree. -/
theorem Establishes.ensures {script : Script (Except ε α)} (h : Establishes script R P)
    (tree : Tree) :
    Ensures script tree (fun answer after => R tree after ∧ ∀ x, answer = .ok x → P x after)
      (fun after => R tree after) := by
  intro schedule calls
  have hmoved := h.moves schedule ⟨tree, calls⟩
  rcases hrun : script schedule ⟨tree, calls⟩ with ⟨_ | answer, after⟩
  · rw [hrun] at hmoved
    exact hmoved
  · rw [hrun] at hmoved
    refine ⟨hmoved, ?_⟩
    intro x hx
    rw [hx] at hrun
    exact h.done schedule ⟨tree, calls⟩ x after hrun

end Established

end Along

end Script

/-! ## Directories -/

/-- Every entry below the root stands in a directory. -/
def WellFormed (tree : Tree) : Prop :=
  ∀ path : Path, path ≠ [] → tree.find? path ≠ none → tree.find? path.dropLast = some .directory

/-- Everything above an entry is a directory. -/
theorem WellFormed.above {tree : Tree} (h : WellFormed tree) {path rest : Path}
    (hentry : tree.find? (path ++ rest) ≠ none) (hrest : rest ≠ []) :
    tree.find? path = some .directory := by
  induction rest using List.reverseRecOn with
  | nil => exact absurd rfl hrest
  | append_singleton rest name ih =>
      rw [← List.append_assoc] at hentry
      have hparent := h (path ++ rest ++ [name]) (by simp) hentry
      rw [List.dropLast_concat] at hparent
      by_cases hnil : rest = []
      · rwa [hnil, List.append_nil] at hparent
      · exact ih (by rw [hparent]; exact Option.some_ne_none _) hnil

def KeepsDirectories (tree after : Tree) : Prop :=
  ∀ path, tree.find? path = some .directory → after.find? path = some .directory

namespace KeepsDirectories

theorem refl (tree : Tree) : KeepsDirectories tree tree := fun _ h => h

theorem trans (first second third : Tree) (h : KeepsDirectories first second)
    (h' : KeepsDirectories second third) : KeepsDirectories first third :=
  fun path hpath => h' path (h path hpath)

/-- Something new, or something other than a directory, is replaced. -/
theorem insert {tree : Tree} {path : Path} (h : tree.find? path ≠ some .directory) (entry : Entry) :
    KeepsDirectories tree (tree.insert path entry) := by
  intro other hother
  have hne : path ≠ other := by
    rintro rfl
    exact h hother
  rwa [find?_insert_of_ne _ _ hne]

theorem erase {tree : Tree} {path : Path} (h : tree.find? path ≠ some .directory) :
    KeepsDirectories tree (tree.erase path) := by
  intro other hother
  have hne : path ≠ other := by
    rintro rfl
    exact h hother
  rwa [find?_erase, if_neg hne]

end KeepsDirectories

/-- Two trees that differ at one path at most. -/
def AgreesBeside (path : Path) (tree after : Tree) : Prop :=
  ∀ other, other ≠ path → after.find? other = tree.find? other

namespace AgreesBeside

theorem refl (path : Path) (tree : Tree) : AgreesBeside path tree tree := fun _ _ => rfl

theorem trans {path : Path} {first second third : Tree} (h : AgreesBeside path first second)
    (h' : AgreesBeside path second third) : AgreesBeside path first third :=
  fun other hne => (h' other hne).trans (h other hne)

theorem insert (path : Path) (tree : Tree) (entry : Entry) :
    AgreesBeside path tree (tree.insert path entry) :=
  fun _ hne => find?_insert_of_ne _ _ (Ne.symm hne)

theorem erase (path : Path) (tree : Tree) : AgreesBeside path tree (tree.erase path) := by
  intro other hne
  rw [find?_erase, if_neg (Ne.symm hne)]

theorem filled (path : Path) (bytes : List UInt8) (tree : Tree) :
    AgreesBeside path tree (Files.filled path bytes tree) := by
  rcases filled_cases path bytes tree with ⟨_, _, hfilled⟩ | hfilled
  · rw [hfilled]
    exact insert path tree _
  · rw [hfilled]
    exact refl path tree

/-- The same entry put into both trees. -/
theorem insert_both {path : Path} {tree after : Tree} (h : AgreesBeside path tree after)
    (target : Path) (entry : Entry) :
    AgreesBeside path (tree.insert target entry) (after.insert target entry) := by
  intro other hne
  rw [find?_insert, find?_insert, h other hne]

end AgreesBeside

end Files
