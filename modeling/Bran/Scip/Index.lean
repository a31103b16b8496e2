import Bran.Scip.Reader

/-!
# Decoding an index

The decoder of `scip.rs`: it checks every message of an index once, and the views parse the bytes
again, each message when it is looked at.
-/

namespace Bran.Scip

open Protobuf (Value Field)
open Reading

def maxCoordinate : ℕ := 2 ^ 31 - 1

def definitionRole : ℕ := 1

structure DocumentView where
  path : Str
  text : Str
  body : List UInt8
  deriving DecidableEq

structure OccurrenceView where
  symbol : Str
  definition : Bool
  startLine : ℕ
  endLine : ℕ
  deriving DecidableEq

structure InformationView where
  symbol : Str
  kind : ℕ
  body : List UInt8
  deriving DecidableEq

structure Index where
  bytes : List UInt8
  deriving DecidableEq

/-- The loop over the fields of a message. -/
def eachField {σ : Type} (step : σ → Field → Except Fault σ) (bytes : List UInt8) (start : σ) :
    Except Fault σ :=
  (fields bytes).foldlM (fun state field => do step state (← field)) start

/-! ## Messages -/

/-- A field of `document`. -/
def DocumentView.field (document : DocumentView) : Field → Except Fault DocumentView
  | (1, value) => do return { document with path := ← strOf value }
  | (5, value) => do return { document with text := ← strOf value }
  | _ => .ok document

def document (bytes : List UInt8) : Except Fault DocumentView :=
  eachField DocumentView.field bytes ⟨[], [], bytes⟩

/-- A field of `relationship`. -/
def relationshipField (found : Str × Bool) : Field → Except Fault (Str × Bool)
  | (1, value) => do return (← strOf value, found.2)
  | (3, value) => do return (found.1, (← varintOf value) ≠ 0)
  | _ => .ok found

def relationship (bytes : List UInt8) : Except Fault (Str × Bool) :=
  eachField relationshipField bytes ([], false)

/-- A field of `information`. -/
def InformationView.field (information : InformationView) : Field → Except Fault InformationView
  | (1, value) => do return { information with symbol := ← strOf value }
  | (4, value) => do
      let _ ← relationship (← bytesOf value)
      return information
  | (5, value) => do return { information with kind := ← varintOf value }
  | _ => .ok information

def information (bytes : List UInt8) : Except Fault InformationView := do
  let information ← eachField InformationView.field bytes ⟨[], 0, bytes⟩
  if information.symbol = [] then .error .decode else return information

/-- A field of `message_varints`. -/
def wantedField (wanted found : List ℕ) (field : Field) : Except Fault (List ℕ) :=
  match wanted.idxOf? field.1 with
  | some slot => do return found.set slot (← varintOf field.2)
  | none => .ok found

def messageVarints (bytes : List UInt8) (wanted : List ℕ) : Except Fault (List ℕ) :=
  eachField (wantedField wanted) bytes (wanted.map fun _ => 0)

/-- The coordinates of a range: the start line and character, then the end. -/
structure Coordinates where
  startLine : ℕ
  startCharacter : ℕ
  endLine : ℕ
  endCharacter : ℕ
  deriving DecidableEq

/-- What `occurrence` has read. -/
structure OccurrenceState where
  symbol : Str
  roles : ℕ
  range : List ℕ
  typed : Option Coordinates

/-- `push`: a coordinate behind the others, of which there are four at most. -/
def push (range : List ℕ) (value : ℕ) : Except Fault (List ℕ) :=
  if range.length < 4 then .ok (range ++ [value]) else .error .decode

/-- The loop over packed coordinates, in so many steps. -/
def pushPacked : ℕ → Reader → List ℕ → Except Fault (List ℕ)
  | 0, reader, range => if reader.at_ < reader.bytes.length then .error .endless else .ok range
  | fuel + 1, reader, range =>
      if reader.at_ < reader.bytes.length then do
        let (value, next) ← reader.varint
        let range ← push range value
        pushPacked fuel next range
      else .ok range

/-- The coordinates of `single_line_range`. -/
def singleLine : List ℕ → Except Fault Coordinates
  | [line, start, stop] => .ok ⟨line, start, line, stop⟩
  | _ => .error .outOfBounds

/-- The coordinates of `multi_line_range`. -/
def multiLine : List ℕ → Except Fault Coordinates
  | [startLine, start, endLine, stop] => .ok ⟨startLine, start, endLine, stop⟩
  | _ => .error .outOfBounds

/-- A field of `occurrence`. -/
def OccurrenceState.field (state : OccurrenceState) : Field → Except Fault OccurrenceState
  | (1, .bytes packed) => do
      return { state with range := ← pushPacked packed.length ⟨packed, 0⟩ state.range }
  | (1, .varint element) => do return { state with range := ← push state.range element }
  | (2, value) => do return { state with symbol := ← strOf value }
  | (3, value) => do return { state with roles := ← varintOf value }
  | (8, value) => do
      let found ← messageVarints (← bytesOf value) [1, 2, 3]
      return { state with typed := some (← singleLine found) }
  | (9, value) => do
      let found ← messageVarints (← bytesOf value) [1, 2, 3, 4]
      return { state with typed := some (← multiLine found) }
  | _ => .ok state

/-- The coordinates of an occurrence: a typed range before a deprecated one. -/
def OccurrenceState.coordinates (state : OccurrenceState) : Except Fault Coordinates :=
  match state.typed, state.range with
  | some coordinates, _ => .ok coordinates
  | none, [line, start, stop] => .ok ⟨line, start, line, stop⟩
  | none, [startLine, start, endLine, stop] => .ok ⟨startLine, start, endLine, stop⟩
  | none, _ => .error .decode

/-- Coordinates within the bound, the end not before the start. -/
def Coordinates.Valid (range : Coordinates) : Prop :=
  (range.startLine ≤ maxCoordinate ∧ range.startCharacter ≤ maxCoordinate ∧
    range.endLine ≤ maxCoordinate ∧ range.endCharacter ≤ maxCoordinate) ∧
  ¬ (range.endLine < range.startLine ∨
    (range.endLine = range.startLine ∧ range.endCharacter < range.startCharacter))

instance (range : Coordinates) : Decidable range.Valid := inferInstanceAs (Decidable (_ ∧ ¬ _))

/-- `u32::try_from`. -/
def line (value : ℕ) : Except Fault ℕ := if value < 2 ^ 32 then .ok value else .error .decode

def occurrence (bytes : List UInt8) : Except Fault OccurrenceView := do
  let state ← eachField OccurrenceState.field bytes ⟨[], 0, [], none⟩
  let range ← state.coordinates
  if ¬ range.Valid then .error .decode
  else return ⟨state.symbol, state.roles &&& definitionRole ≠ 0, ← line range.startLine,
    ← line range.endLine⟩

/-! ## The index -/

/-- A field of a document, as `decode_index` checks it. -/
def checkDocumentField : Unit → Field → Except Fault Unit
  | (), (2, value) => do
      let _ ← occurrence (← bytesOf value)
      return ()
  | (), (3, value) => do
      let _ ← information (← bytesOf value)
      return ()
  | (), _ => .ok ()

/-- A field of the index, as `decode_index` checks it. -/
def checkIndexField : Unit → Field → Except Fault Unit
  | (), (2, value) => do
      let document ← document (← bytesOf value)
      eachField checkDocumentField document.body ()
  | (), (3, value) => do
      let _ ← information (← bytesOf value)
      return ()
  | (), _ => .ok ()

def decodeIndex (bytes : List UInt8) : Except Fault Index := do
  eachField checkIndexField bytes ()
  return ⟨bytes⟩

/-! ## Views -/

def Index.documents (index : Index) : List DocumentView :=
  (messages index.bytes 2).filterMap fun bytes => (document bytes).toOption

def Index.informations (index : Index) : List InformationView :=
  (index.documents.flatMap (fun document => messages document.body 3) ++
    messages index.bytes 3).filterMap fun bytes => (information bytes).toOption

def DocumentView.occurrences (document : DocumentView) : List OccurrenceView :=
  (messages document.body 2).filterMap fun bytes => (occurrence bytes).toOption

def InformationView.implements (information : InformationView) : List Str :=
  (messages information.body 4).filterMap fun bytes =>
    (relationship bytes).toOption.bind fun found => if found.2 then some found.1 else none

end Bran.Scip
