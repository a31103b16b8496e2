import Bran.Document.Intake
import Bran.Library.Nesting
import Bran.Library.Text

/-!
# The shared XML reader

`xml.rs`: what its loop makes of the events of the tokenizer.  The tokenizer itself is another
package, so its events come as a list, in any order and with what it says of names and references.
What the loop accepts is one element with everything in it closed, within the budgets.
-/

namespace Bran.Document.Xml

open Text Validation Nesting List
open Except (ok.inj)

/-! ## What the tokenizer delivers -/

structure Attribute where
  key : Str
  value : Str
  /-- `resolve_attribute` knows no namespace for its prefix. -/
  unknown : Bool
  /-- `normalized_value`, when it is one. -/
  normalized : Option Str

structure Element where
  name : Str
  localName : Str
  /-- `resolve_element` knows no namespace for its prefix. -/
  unknown : Bool
  /-- The attributes, with `none` for a malformed one. -/
  attributes : List (Option Attribute)

/-- `quick_xml::events::Event`, before its end of file. -/
inductive Token where
  | start (element : Element)
  | empty (element : Element)
  | ending
  | text (content xml10Content : Str)
  | cdata (content : Str)
  /-- A character reference and what it resolves to. -/
  | charRef (resolved : Option Char)
  /-- Another reference and the predefined entity it names. -/
  | entityRef (resolved : Option Str)
  | docType
  | decl
  | pi
  | comment
  /-- `read_event` fails. -/
  | failed

/-! ## What the source computes -/

inductive Event where
  | opening (name : Str) (attributes : List (Str × Str))
  | closing
  | text (value : Str)
  deriving DecidableEq

def isXmlChar (c : Char) : Bool :=
  c = '\t' || c = '\n' || c = '\r' || (0x20 ≤ c.toNat && c.toNat ≤ 0xD7FF) ||
    (0xE000 ≤ c.toNat && c.toNat ≤ 0xFFFD) || 0x10000 ≤ c.toNat

/-- The ranges of `is_name_start`. -/
def nameStartRanges : List (ℕ × ℕ) :=
  [('A'.toNat, 'Z'.toNat), ('_'.toNat, '_'.toNat), ('a'.toNat, 'z'.toNat), (0xC0, 0xD6),
    (0xD8, 0xF6), (0xF8, 0x2FF), (0x370, 0x37D), (0x37F, 0x1FFF), (0x200C, 0x200D),
    (0x2070, 0x218F), (0x2C00, 0x2FEF), (0x3001, 0xD7FF), (0xF900, 0xFDCF), (0xFDF0, 0xFFFD),
    (0x10000, 0xEFFFF)]

def isNameStart (c : Char) : Bool :=
  nameStartRanges.any fun range => range.1 ≤ c.toNat && c.toNat ≤ range.2

def isNameChar (c : Char) : Bool :=
  isNameStart c || c = '-' || c = '.' || ('0' ≤ c && c ≤ '9') || c.toNat = 0xB7 ||
    (0x300 ≤ c.toNat && c.toNat ≤ 0x36F) || (0x203F ≤ c.toNat && c.toNat ≤ 0x2040)

/-- The closure of `is_qualified_name`. -/
def validPart : Str → Bool
  | [] => false
  | c :: rest => isNameStart c && rest.all isNameChar

def isQualifiedName (name : Str) : Bool :=
  match name.splitOn ':' with
  | [localPart] => validPart localPart
  | [space, localPart] => validPart space && validPart localPart
  | _ => false

/-- The variables of the loop of `parse`. -/
structure Reading where
  events : List Event
  depth : ℕ
  nodes : ℕ
  roots : ℕ

variable (limits : Limits)

def count (nodes : ℕ) : Except Refusal ℕ := do
  failIf (limits.maxXmlNodes < nodes + 1) .xmlNodeLimit
  return nodes + 1

def textEvent (content : Str) (state : Reading) : Except Refusal Reading :=
  if state.depth = 0 then
    if isBlank content then .ok state else .error .malformedXml
  else
    match state.events.getLast? with
    | some (.text previous) =>
        .ok { state with events := state.events.dropLast ++ [.text (previous ++ content)] }
    | _ => do
        let nodes ← count limits state.nodes
        return { state with events := state.events ++ [.text content], nodes }

def readAttribute : Option Attribute → Except Refusal (Str × Str)
  | none => .error .malformedXml
  | some read => do
      failIf (read.unknown = true) .malformedXml
      failIf (isQualifiedName read.key = false ∨ '<' ∈ read.value) .malformedXml
      match read.normalized with
      | none => .error .malformedXml
      | some value => do
          failIf (value.all isXmlChar = false) .malformedXml
          return (read.key, value)

/-- The arm for the start of an element, with an end or without. -/
def startEvent (empty : Bool) (element : Element) (state : Reading) : Except Refusal Reading := do
  failIf (element.unknown = true) .malformedXml
  let roots := if state.depth = 0 then state.roots + 1 else state.roots
  failIf (1 < roots) .malformedXml
  failIf (limits.maxXmlDepth < state.depth + 1) .xmlDepthLimit
  let nodes ← count limits state.nodes
  failIf (isQualifiedName element.name = false) .malformedXml
  let attributes ← element.attributes.mapM readAttribute
  let events := state.events ++ [.opening element.localName attributes]
  return if empty then { events := events ++ [.closing], depth := state.depth, nodes, roots }
    else { events, depth := state.depth + 1, nodes, roots }

/-- One event of the tokenizer. -/
def step (token : Token) (state : Reading) : Except Refusal Reading :=
  match token with
  | .start element => startEvent limits false element state
  | .empty element => startEvent limits true element state
  | .ending =>
      match state.depth with
      | 0 => .error .malformedXml
      | depth + 1 => .ok { state with events := state.events ++ [.closing], depth }
  | .text content xml10Content => do
      failIf ("]]>".toList <:+: content) .malformedXml
      textEvent limits xml10Content state
  | .cdata content => textEvent limits content state
  | .charRef none => .error .malformedXml
  | .charRef (some c) => do
      failIf (isXmlChar c = false) .malformedXml
      textEvent limits [c] state
  | .entityRef none => .error .malformedXml
  | .entityRef (some resolved) => do
      failIf (resolved.all isXmlChar = false) .malformedXml
      textEvent limits resolved state
  | .docType => .error .xmlDtdRefused
  | .decl | .pi | .comment => .ok state
  | .failed => .error .malformedXml

/-- The loop of `parse`, which the end of the file ends. -/
def parseLoop : List Token → Reading → Except Refusal (List Event)
  | [], state => do
      failIf (state.depth ≠ 0 ∨ state.roots ≠ 1) .malformedXml
      return state.events
  | token :: tokens, state => do
      let state ← step limits token state
      parseLoop tokens state

def parse (tokenize : Str → List Token) (cancelled : Bool) (bytes : List UInt8) :
    Except Refusal (List Event) := do
  failIf (cancelled = true) .cancelled
  match fromUtf8 (((List.isPrefixOf? [0xEF, 0xBB, 0xBF] bytes)).getD bytes) with
  | none => .error .malformedXml
  | some text => do
      failIf (text.all isXmlChar = false) .malformedXml
      parseLoop limits (tokenize text) { events := [], depth := 0, nodes := 0, roots := 0 }

/-! ## What the loop keeps -/

/-- What an event does to the nesting. -/
def Event.role : Event → Role
  | .opening _ _ => .opening
  | .closing => .closing
  | .text _ => .leaf

/-- Two events that are not both texts. -/
def Apart (first second : Event) : Prop := first.role ≠ .leaf ∨ second.role ≠ .leaf

/-- How many events open an element or are texts. -/
def nodeCount (events : List Event) : ℕ := events.countP (·.role ≠ .closing)

/-- What holds of the variables at each turn of the loop. -/
structure Reading.Sound (state : Reading) : Prop where
  shape : Partway Event.role state.roots state.depth state.events
  within : Within Event.role limits.maxXmlDepth state.events
  balance : opens Event.role state.events = closes Event.role state.events + state.depth
  counted : nodeCount state.events = state.nodes
  bounded : state.nodes ≤ limits.maxXmlNodes
  apart : state.events.IsChain Apart

variable {limits} {state next : Reading} {events : List Event}

theorem count_eq_ok_iff {nodes nodes' : ℕ} :
    count limits nodes = .ok nodes' ↔ nodes + 1 ≤ limits.maxXmlNodes ∧ nodes' = nodes + 1 := by
  rw [count, check_bind_eq_ok_iff, failIf_eq_ok_iff, not_lt]
  exact and_congr_right fun _ => ⟨fun h => (ok.inj h).symm, fun h => congrArg _ h.symm⟩

theorem apart_concat {event : Event} (h : events.IsChain Apart)
    (hlast : ∀ last ∈ events.getLast?, Apart last event) : (events ++ [event]).IsChain Apart := by
  refine isChain_append.mpr ⟨h, isChain_singleton _, fun last hmem first hfirst => ?_⟩
  obtain rfl := Option.some.inj hfirst
  exact hlast last hmem

theorem apart_concat_of_role {event : Event} (h : events.IsChain Apart)
    (hrole : event.role ≠ .leaf) : (events ++ [event]).IsChain Apart :=
  apart_concat h fun _ _ => Or.inr hrole

section Counting

variable (events)

theorem opens_concat (event : Event) : opens Event.role (events ++ [event]) =
    opens Event.role events + if event.role = .opening then 1 else 0 := by
  rw [opens_append]
  cases event <;> rfl

theorem closes_concat (event : Event) : closes Event.role (events ++ [event]) =
    closes Event.role events + if event.role = .closing then 1 else 0 := by
  rw [closes_append]
  cases event <;> rfl

theorem nodeCount_concat (event : Event) : nodeCount (events ++ [event]) =
    nodeCount events + if event.role = .closing then 0 else 1 := by
  rw [nodeCount, countP_append]
  cases event <;> rfl

end Counting

theorem Reading.Sound.start : Reading.Sound limits ⟨[], 0, 0, 0⟩ where
  shape := .closed .nil
  within := .nil _
  balance := rfl
  counted := rfl
  bounded := Nat.zero_le _
  apart := .nil

/-- An element is opened. -/
theorem Reading.Sound.opening (h : state.Sound limits) (name : Str)
    (attributes : List (Str × Str)) {roots : ℕ}
    (hroots : roots = if state.depth = 0 then state.roots + 1 else state.roots)
    (hdepth : state.depth + 1 ≤ limits.maxXmlDepth)
    (hnodes : state.nodes + 1 ≤ limits.maxXmlNodes) :
    Reading.Sound limits ⟨state.events ++ [.opening name attributes], state.depth + 1,
      state.nodes + 1, roots⟩ where
  shape := by
    have hshape := h.shape
    cases hstate : state.depth with
    | zero =>
        rw [hroots, if_pos hstate]
        rw [hstate] at hshape
        exact hshape.open_outer rfl
    | succ depth =>
        rw [hroots, if_neg (by rw [hstate]; exact Nat.succ_ne_zero _)]
        rw [hstate] at hshape
        exact hshape.open_inner rfl
  within := by
    have hbalance := h.balance
    refine h.within.concat ?_
    rw [opens_concat, closes_concat]
    simp only [Event.role, if_pos, reduceCtorEq, if_false]
    omega
  balance := by
    have hbalance := h.balance
    rw [opens_concat, closes_concat]
    simp only [Event.role, if_pos, reduceCtorEq, if_false]
    omega
  counted := by
    rw [nodeCount_concat, h.counted]
    rfl
  bounded := hnodes
  apart := apart_concat_of_role h.apart nofun

/-- An element is closed. -/
theorem Reading.Sound.closing (h : state.Sound limits) {depth : ℕ}
    (hdepth : state.depth = depth + 1) :
    Reading.Sound limits { state with events := state.events ++ [.closing], depth } where
  shape := by
    have hshape := h.shape
    rw [hdepth] at hshape
    exact hshape.close rfl
  within := by
    have hbalance := h.balance
    have hwithin := h.within _ prefix_rfl
    refine h.within.concat ?_
    rw [opens_concat, closes_concat]
    simp only [Event.role, if_pos, reduceCtorEq, if_false]
    omega
  balance := by
    have hbalance := h.balance
    rw [opens_concat, closes_concat]
    simp only [Event.role, if_pos, reduceCtorEq, if_false]
    omega
  counted := by
    rw [nodeCount_concat, h.counted]
    rfl
  bounded := h.bounded
  apart := apart_concat_of_role h.apart nofun

/-- A text is added that no text stands in front of. -/
theorem Reading.Sound.text (h : state.Sound limits) {content : Str} (hdepth : state.depth ≠ 0)
    (hlast : ∀ previous, state.events.getLast? ≠ some (.text previous))
    (hnodes : state.nodes + 1 ≤ limits.maxXmlNodes) :
    Reading.Sound limits
      { state with events := state.events ++ [.text content], nodes := state.nodes + 1 } where
  shape := by
    obtain ⟨depth, hsucc⟩ := Nat.exists_eq_succ_of_ne_zero hdepth
    have hshape := h.shape
    rw [hsucc] at hshape
    show Partway Event.role state.roots state.depth _
    rw [hsucc]
    exact hshape.append (.singleton rfl)
  within := by
    have hwithin := h.within _ prefix_rfl
    refine h.within.concat ?_
    rw [opens_concat, closes_concat]
    exact hwithin
  balance := by
    rw [opens_concat, closes_concat]
    exact h.balance
  counted := by
    rw [nodeCount_concat, h.counted]
    rfl
  bounded := hnodes
  apart := by
    refine apart_concat h.apart fun last hmem => Or.inl ?_
    cases last with
    | opening name attributes => exact nofun
    | closing => exact nofun
    | text previous => exact absurd hmem (hlast previous)

/-- A text is put behind the one that was added last. -/
theorem Reading.Sound.merge (h : state.Sound limits) {front : List Event} {previous merged : Str}
    (hdepth : state.depth ≠ 0) (hevents : state.events = front ++ [.text previous]) :
    Reading.Sound limits { state with events := front ++ [.text merged] } where
  shape := by
    obtain ⟨depth, hsucc⟩ := Nat.exists_eq_succ_of_ne_zero hdepth
    have hshape := h.shape
    rw [hsucc, hevents] at hshape
    show Partway Event.role state.roots state.depth _
    rw [hsucc]
    exact (hshape.of_append_leaf rfl).append (.singleton rfl)
  within := by
    have hwithin := h.within
    rw [hevents] at hwithin
    have hwhole := hwithin _ prefix_rfl
    have hfront : Within Event.role limits.maxXmlDepth front :=
      fun before hbefore => hwithin before (hbefore.trans (prefix_append _ _))
    rw [opens_concat, closes_concat] at hwhole
    refine hfront.concat ?_
    rw [opens_concat, closes_concat]
    exact hwhole
  balance := by
    have hbalance := h.balance
    rw [hevents, opens_concat, closes_concat] at hbalance
    rw [opens_concat, closes_concat]
    exact hbalance
  counted := by
    have hcounted := h.counted
    rw [hevents, nodeCount_concat] at hcounted
    rw [nodeCount_concat]
    exact hcounted
  bounded := h.bounded
  apart := by
    have hapart := h.apart
    rw [hevents] at hapart
    obtain ⟨hfront, -, hlast⟩ := isChain_append.mp hapart
    refine apart_concat hfront fun last hmem => ?_
    have hprevious : Apart last (.text previous) := hlast last hmem _ rfl
    exact hprevious

theorem Reading.Sound.textEvent {content : Str} (h : state.Sound limits)
    (hread : textEvent limits content state = .ok next) : next.Sound limits := by
  unfold Xml.textEvent at hread
  by_cases hdepth : state.depth = 0
  · rw [if_pos hdepth] at hread
    split_ifs at hread with hblank
    exact ok.inj hread ▸ h
  · rw [if_neg hdepth] at hread
    split at hread
    · next previous hlast =>
      obtain ⟨front, hfront⟩ := getLast?_eq_some_iff.mp hlast
      obtain rfl := ok.inj hread
      rw [hfront, dropLast_concat]
      exact h.merge hdepth hfront
    · next hlast =>
      obtain ⟨nodes, hcount, hnext⟩ := bind_eq_ok_iff.mp hread
      obtain ⟨hnodes, rfl⟩ := count_eq_ok_iff.mp hcount
      obtain rfl := ok.inj hnext
      exact h.text hdepth hlast hnodes

theorem Reading.Sound.startEvent {empty : Bool} {element : Element} (h : state.Sound limits)
    (hread : startEvent limits empty element state = .ok next) : next.Sound limits := by
  unfold Xml.startEvent at hread
  obtain ⟨-, hread⟩ := check_bind_eq_ok_iff.mp hread
  obtain ⟨-, hread⟩ := check_bind_eq_ok_iff.mp hread
  obtain ⟨hdepth, hread⟩ := check_bind_eq_ok_iff.mp hread
  obtain ⟨nodes, hcount, hread⟩ := bind_eq_ok_iff.mp hread
  obtain ⟨-, hread⟩ := check_bind_eq_ok_iff.mp hread
  obtain ⟨attributes, -, hread⟩ := bind_eq_ok_iff.mp hread
  obtain ⟨hnodes, rfl⟩ := count_eq_ok_iff.mp hcount
  rw [failIf_eq_ok_iff, not_lt] at hdepth
  obtain rfl := ok.inj hread
  have hopen := h.opening element.localName attributes rfl hdepth hnodes
  cases empty with
  | false => exact hopen
  | true => exact hopen.closing rfl

/-- One event of the tokenizer keeps it. -/
theorem Reading.Sound.step {token : Token} (h : state.Sound limits)
    (hread : step limits token state = .ok next) : next.Sound limits := by
  cases token with
  | start element | empty element => exact h.startEvent hread
  | ending =>
      unfold Xml.step at hread
      dsimp only at hread
      split at hread
      · cases hread
      · next depth hdepth =>
        obtain rfl := ok.inj hread
        exact h.closing hdepth
  | text content xml10Content => exact h.textEvent (check_bind_eq_ok_iff.mp hread).2
  | cdata content => exact h.textEvent hread
  | charRef resolved =>
      cases resolved with
      | none => cases hread
      | some c => exact h.textEvent (check_bind_eq_ok_iff.mp hread).2
  | entityRef resolved =>
      cases resolved with
      | none => cases hread
      | some resolved => exact h.textEvent (check_bind_eq_ok_iff.mp hread).2
  | decl | pi | comment => exact ok.inj hread ▸ h
  | docType => cases hread
  | failed => cases hread

/-- One element with everything in it closed, within the budgets. -/
structure WellFormed (limits : Limits) (events : List Event) : Prop where
  root : ∃ name attributes inner, Content Event.role inner ∧
    events = .opening name attributes :: (inner ++ [.closing])
  within : Within Event.role limits.maxXmlDepth events
  apart : events.IsChain Apart
  bounded : nodeCount events ≤ limits.maxXmlNodes

/-- What the reader holds at the end of the file. -/
theorem Reading.Sound.finish (h : state.Sound limits) (hdepth : state.depth = 0)
    (hroots : state.roots = 1) : WellFormed limits state.events where
  root := by
    have hshape := h.shape
    rw [hdepth, hroots] at hshape
    obtain ⟨first, inner, last, hfirst, hlast, hinner, heq⟩ := hshape.eq_group
    cases first with
    | opening name attributes =>
        cases last with
        | closing => exact ⟨name, attributes, inner, hinner, heq⟩
        | opening name attributes => cases hlast
        | text value => cases hlast
    | closing => cases hfirst
    | text value => cases hfirst
  within := h.within
  apart := h.apart
  bounded := h.counted.trans_le h.bounded

theorem wellFormed_parseLoop {tokens : List Token} (h : state.Sound limits)
    (hread : parseLoop limits tokens state = .ok events) : WellFormed limits events := by
  induction tokens generalizing state with
  | nil =>
      obtain ⟨hend, hevents⟩ := check_bind_eq_ok_iff.mp hread
      rw [failIf_eq_ok_iff, not_or, not_not, not_not] at hend
      obtain rfl := ok.inj hevents
      exact h.finish hend.1 hend.2
  | cons token tokens ih =>
      obtain ⟨next, hnext, hread⟩ := bind_eq_ok_iff.mp hread
      exact ih (h.step hnext) hread

/-- What is accepted is well formed, whatever the tokenizer delivers. -/
theorem wellFormed_of_parse {tokenize : Str → List Token} {cancelled : Bool} {bytes : List UInt8}
    (h : parse limits tokenize cancelled bytes = .ok events) : WellFormed limits events := by
  obtain ⟨-, h⟩ := check_bind_eq_ok_iff.mp h
  split at h
  · cases h
  · exact wellFormed_parseLoop .start (check_bind_eq_ok_iff.mp h).2

end Bran.Document.Xml
