import Bran.Library.OrdMap
import Bran.Library.Smallest
import Bran.Scip.Index
import Bran.Scip.SymbolName
import Mathlib.Data.Prod.Lex

/-!
# Evidence from an index

`Index::evidence` of `scip.rs`: which symbols are selected, which implement them, and the facts
about them that are kept, each pass within a bound of its own.  Without a bound the facts are a set;
the passes keep the front of its order.
-/

namespace Bran.Scip

open Symbol

/-! ## What the source computes -/

def maxSymbols : ℕ := 1024

def maxCandidates : ℕ := 2 ^ 20

def kindNames : Str :=
  "unspecified_kind array assertion associated_type attribute axiom boolean class ".toList ++
  "constant constructor data_family enum enum_member event fact field file function ".toList ++
  "getter grammar instance interface key lang lemma macro method method_receiver message ".toList ++
  "module namespace null number object operator package package_object parameter ".toList ++
  "parameter_label pattern predicate property protocol quasiquoter self_parameter setter ".toList ++
  "signature subscript string struct tactic theorem this_parameter trait type type_alias ".toList ++
  "type_class type_family type_parameter union value variable contract error library ".toList ++
  "modifier abstract_method method_specification protocol_method pure_virtual_method ".toList ++
  "trait_method type_class_method accessor delegate method_alias singleton_class ".toList ++
  "singleton_method static_data_member static_event static_field static_method ".toList ++
  "static_property static_variable unspecified_kind extension mixin concept".toList

def kindName (kind : ℕ) : Str :=
  ((kindNames.splitOn ' ')[kind]?).getD "unspecified_kind".toList

inductive Role where
  | definition
  | implementation
  | reference
  deriving DecidableEq

theorem roleIndex_injective : Function.Injective Role.ctorIdx := by
  intro first second h
  cases first <;> cases second <;> first | rfl | exact absurd h (by decide)

/-- Roles are ordered as declared. -/
instance : LinearOrder Role := LinearOrder.lift' Role.ctorIdx roleIndex_injective

structure Candidate where
  rank : ℕ
  locator : Str
  startLine : ℕ
  endLine : ℕ
  role : Role
  symbol : Str
  implements : Option Str

/-- The fields of a candidate in their order. -/
def Candidate.key (candidate : Candidate) :
    ℕ ×ₗ Str ×ₗ ℕ ×ₗ ℕ ×ₗ Role ×ₗ Str ×ₗ WithBot Str :=
  toLex (candidate.rank, toLex (candidate.locator, toLex (candidate.startLine,
    toLex (candidate.endLine, toLex (candidate.role,
      toLex (candidate.symbol, (candidate.implements : WithBot Str)))))))

theorem Candidate.key_injective : Function.Injective Candidate.key := by
  intro first second h
  cases first
  cases second
  simp only [Candidate.key, toLex_inj, Prod.mk.injEq] at h
  obtain ⟨rfl, rfl, rfl, rfl, rfl, rfl, rfl⟩ := h
  rfl

/-- Candidates are ordered by their fields. -/
instance : LinearOrder Candidate := LinearOrder.lift' Candidate.key Candidate.key_injective

structure Evidence where
  locator : Str
  startLine : ℕ
  endLine : ℕ
  role : Role
  symbol : Str
  kind : Str
  implements : Option Str
  deriving DecidableEq

/-- Whether a symbol is selected by its name. -/
def named (isAlphanumeric : Char → Bool) (names : OrdSet Str) (symbol : Str) : Bool :=
  (symbolName isAlphanumeric symbol).any fun name =>
    name.navigable && names.contains (Text.toAsciiLowercase name.name)

/-- The symbols of the occurrences and of the informations. -/
def Index.symbols (index : Index) : List Str :=
  (index.documents.flatMap DocumentView.occurrences).map (·.symbol) ++
    index.informations.map (·.symbol)

/-- The loop that selects symbols, and whether it has stopped at the bound. -/
def select (wanted : Str → Bool) : List Str → Finset Str → Finset Str × Bool
  | [], selected => (selected, false)
  | symbol :: symbols, selected =>
      if symbol ∈ selected ∨ wanted symbol = false then select wanted symbols selected
      else if selected.card = maxSymbols then (selected, true)
      else select wanted symbols (insert symbol selected)

/-- The symbols with what they implement, in the order of the loops. -/
def Index.pairs (index : Index) : List (Str × Str) :=
  index.informations.flatMap fun information =>
    information.implements.map fun target => (information.symbol, target)

/-- The loop that collects the pairs of an implementing and a selected symbol.  `implemented` is the
set of its pairs, and `pairs` their number. -/
def link (selected : Finset Str) :
    List (Str × Str) → Finset (Str × Str) → Bool → Finset (Str × Str) × Bool
  | [], implemented, truncated => (implemented, truncated)
  | pair :: pairs, implemented, truncated =>
      if pair.2 ∉ selected ∨ pair ∈ implemented then link selected pairs implemented truncated
      else if implemented.card = maxSymbols then link selected pairs implemented true
      else link selected pairs (insert pair implemented) truncated

/-- What is implemented by a symbol. -/
def targets (implemented : Finset (Str × Str)) (symbol : Str) : Finset Str :=
  (implemented.filter fun pair => pair.1 = symbol).image Prod.snd

/-- What the loop over an occurrence comes to: a document without a rank, or candidates. -/
inductive Found where
  | unranked
  | candidate (candidate : Candidate)
  deriving DecidableEq

/-- The role of an occurrence of a symbol itself. -/
def OccurrenceView.role (occurrence : OccurrenceView) : Role :=
  if occurrence.definition then .definition else .reference

section Passes

variable (selected : Finset Str) (implemented : Finset (Str × Str)) (ranked : OrdMap Str ℕ)

/-- The selected symbols that an occurrence defines an implementation of. -/
def OccurrenceView.targets (occurrence : OccurrenceView) : Finset Str :=
  if occurrence.definition then Scip.targets implemented occurrence.symbol else ∅

/-- The role and the implemented symbol of each candidate for an occurrence. -/
def OccurrenceView.roles (occurrence : OccurrenceView) : List (Role × Option Str) :=
  (if occurrence.symbol ∈ selected then [(occurrence.role, none)] else []) ++
    (occurrence.targets implemented).sort.map fun target => (.implementation, some target)

/-- What is found at an occurrence. -/
def DocumentView.foundAt (document : DocumentView) (occurrence : OccurrenceView) : List Found :=
  if occurrence.symbol ∉ selected ∧ occurrence.targets implemented = ∅ then []
  else
    match ranked.find? document.path with
    | none => [.unranked]
    | some rank => (occurrence.roles selected implemented).map fun found =>
        .candidate ⟨rank, document.path, occurrence.startLine, occurrence.endLine, found.1,
          occurrence.symbol, found.2⟩

/-- What is found in the documents, in the order of the loops. -/
def foundIn (documents : List DocumentView) : List Found :=
  documents.flatMap fun document =>
    document.occurrences.flatMap (document.foundAt selected implemented ranked)

end Passes

/-- The variables of the loop that keeps candidates. -/
structure Collected where
  kept : Finset Candidate
  candidates : ℕ
  truncated : Bool

/-- The loop that keeps candidates. -/
def collect (limit : ℕ) : List Found → Collected → Collected
  | [], state => state
  | .unranked :: rest, state => collect limit rest { state with truncated := true }
  | .candidate candidate :: rest, state =>
      if maxCandidates < state.candidates + 1 then { state with truncated := true }
      else collect limit rest
        { kept := Smallest.put limit state.kept candidate
          candidates := state.candidates + 1
          truncated := state.truncated || limit < (insert candidate state.kept).card }

/-- The kind that an index records for a symbol first. -/
def Index.kindOf (index : Index) (symbol : Str) : ℕ :=
  ((index.informations.find? fun information => information.symbol = symbol).map
    InformationView.kind).getD 0

/-- A fact as it is returned, with lines from one. -/
def Index.evidenceOf (index : Index) (candidate : Candidate) : Evidence where
  locator := candidate.locator
  startLine := candidate.startLine + 1
  endLine := candidate.endLine + 1
  role := candidate.role
  symbol := candidate.symbol
  kind := kindName (index.kindOf candidate.symbol)
  implements := candidate.implements

def Index.evidence (index : Index) (isAlphanumeric : Char → Bool) (names : OrdSet Str)
    (ranked : OrdMap Str ℕ) (limit : ℕ) : List Evidence × Bool :=
  let (selected, truncated) := select (named isAlphanumeric names) index.symbols ∅
  let (implemented, truncated) := link selected index.pairs ∅ truncated
  let collected := collect limit (foundIn selected implemented ranked index.documents)
    { kept := ∅, candidates := 0, truncated }
  (collected.kept.sort.map index.evidenceOf, collected.truncated)

end Bran.Scip
