import Bran.Scip.Index

/-!
# Indexes and their encodings

What an index says, apart from its bytes, and which bytes encode it.
-/

namespace Bran.Scip

open Protobuf

/-- A `Relationship`. -/
structure Relationship where
  symbol : Str
  isImplementation : Bool

/-- A `SymbolInformation`. -/
structure SymbolInformation where
  symbol : Str
  kind : ℕ
  relationships : List Relationship

/-- The range of an occurrence: the deprecated coordinates, or a typed range. -/
inductive OccurrenceRange
  | three (line start stop : ℕ)
  | four (startLine start endLine stop : ℕ)
  | singleLine (line start stop : ℕ)
  | multiLine (startLine start endLine stop : ℕ)

/-- An `Occurrence`. -/
structure Occurrence where
  range : OccurrenceRange
  symbol : Str
  roles : ℕ

/-- A `Document`. -/
structure Document where
  path : Str
  text : Str
  occurrences : List Occurrence
  symbols : List SymbolInformation

/-- A SCIP `Index`. -/
structure IndexValue where
  documents : List Document
  externalSymbols : List SymbolInformation

/-! ## What a value says -/

def OccurrenceRange.coordinates : OccurrenceRange → Coordinates
  | three line start stop => ⟨line, start, line, stop⟩
  | four startLine start endLine stop => ⟨startLine, start, endLine, stop⟩
  | singleLine line start stop => ⟨line, start, line, stop⟩
  | multiLine startLine start endLine stop => ⟨startLine, start, endLine, stop⟩

/-- Every coordinate is small enough and every range is ordered. -/
def Occurrence.Valid (occurrence : Occurrence) : Prop := occurrence.range.coordinates.Valid

instance (occurrence : Occurrence) : Decidable occurrence.Valid :=
  inferInstanceAs (Decidable (Coordinates.Valid _))

/-- The symbol is not empty. -/
def SymbolInformation.Valid (information : SymbolInformation) : Prop := information.symbol ≠ []

/-- Every occurrence and every symbol of a document is valid. -/
structure Document.Valid (document : Document) : Prop where
  occurrences : ∀ occurrence ∈ document.occurrences, occurrence.Valid
  symbols : ∀ information ∈ document.symbols, information.Valid

/-- Every document and every external symbol is valid. -/
structure IndexValue.Valid (index : IndexValue) : Prop where
  documents : ∀ document ∈ index.documents, document.Valid
  externalSymbols : ∀ information ∈ index.externalSymbols, information.Valid

/-- What an occurrence looks like. -/
def Occurrence.view (occurrence : Occurrence) : OccurrenceView :=
  ⟨occurrence.symbol, occurrence.roles &&& definitionRole ≠ 0,
    occurrence.range.coordinates.startLine, occurrence.range.coordinates.endLine⟩

def SymbolInformation.implements (information : SymbolInformation) : List Str :=
  (information.relationships.filter Relationship.isImplementation).map Relationship.symbol

/-- The symbols of an index, those of its documents first. -/
def IndexValue.informations (index : IndexValue) : List SymbolInformation :=
  index.documents.flatMap Document.symbols ++ index.externalSymbols

/-! ## Encodings -/

def EncodesRelationship (relationship : Relationship) (bytes : List UInt8) : Prop :=
  ∃ fields implementation, EncodesFields fields bytes ∧ HasText 1 relationship.symbol fields ∧
    HasNumber 3 implementation fields ∧ relationship.isImplementation = decide (implementation ≠ 0)

/-- The bytes of a symbol information. -/
def EncodesInformation (information : SymbolInformation) (bytes : List UInt8) : Prop :=
  ∃ fields, EncodesFields fields bytes ∧ HasText 1 information.symbol fields ∧
    HasMessages 4 EncodesRelationship information.relationships fields ∧
    HasNumber 5 information.kind fields

/-- The bytes of the coordinates of a typed range, under the numbers from one on. -/
def EncodesCoordinates (values : List ℕ) (bytes : List UInt8) : Prop :=
  ∃ fields, EncodesFields fields bytes ∧
    ∀ index value, values[index]? = some value → HasNumber (index + 1) value fields

/-- Deprecated coordinates, which may stand beside a typed range. -/
def HasDeprecated (fields : List Field) : Prop :=
  ∃ coordinates, coordinates.length ≤ 4 ∧ HasNumbers 1 coordinates fields

/-- The fields of a range: coordinates, packed or not, or one typed range. -/
def HasRange (range : OccurrenceRange) (fields : List Field) : Prop :=
  match range with
  | .three line start stop =>
      HasNumbers 1 [line, start, stop] fields ∧ valuesOf 8 fields = [] ∧ valuesOf 9 fields = []
  | .four startLine start endLine stop =>
      HasNumbers 1 [startLine, start, endLine, stop] fields ∧ valuesOf 8 fields = [] ∧
        valuesOf 9 fields = []
  | .singleLine line start stop =>
      HasDeprecated fields ∧ HasMessages 8 EncodesCoordinates [[line, start, stop]] fields ∧
        valuesOf 9 fields = []
  | .multiLine startLine start endLine stop =>
      HasDeprecated fields ∧ valuesOf 8 fields = [] ∧
        HasMessages 9 EncodesCoordinates [[startLine, start, endLine, stop]] fields

def EncodesOccurrence (occurrence : Occurrence) (bytes : List UInt8) : Prop :=
  ∃ fields, EncodesFields fields bytes ∧ HasRange occurrence.range fields ∧
    HasText 2 occurrence.symbol fields ∧ HasNumber 3 occurrence.roles fields

def EncodesDocument (document : Document) (bytes : List UInt8) : Prop :=
  ∃ fields, EncodesFields fields bytes ∧ HasText 1 document.path fields ∧
    HasMessages 2 EncodesOccurrence document.occurrences fields ∧
    HasMessages 3 EncodesInformation document.symbols fields ∧ HasText 5 document.text fields

def EncodesIndex (index : IndexValue) (bytes : List UInt8) : Prop :=
  ∃ fields, EncodesFields fields bytes ∧ HasMessages 2 EncodesDocument index.documents fields ∧
    HasMessages 3 EncodesInformation index.externalSymbols fields

end Bran.Scip
