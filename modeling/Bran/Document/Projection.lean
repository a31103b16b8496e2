import Bran.Document.Canonical
import Bran.Document.Intake
import Bran.Export.Obsidian

/-!
# Projections

What admission reads out of the canonical projection of an adapter: the anchors with their
digests, the fidelity map and the identity of the processor.  A projection outside the bounds of
the envelope is not read at all.
-/

namespace Bran.Document

open Text Validation List Option

inductive Format where
  | docx
  | xlsx
  | pptx
  | pdf
  deriving DecidableEq

namespace Format

def extension : Format → String
  | docx => "docx"
  | xlsx => "xlsx"
  | pptx => "pptx"
  | pdf => "pdf"

def mediaType : Format → String
  | docx => "application/vnd.openxmlformats-officedocument.wordprocessingml.document"
  | xlsx => "application/vnd.openxmlformats-officedocument.spreadsheetml.sheet"
  | pptx => "application/vnd.openxmlformats-officedocument.presentationml.presentation"
  | pdf => "application/pdf"

def family : Format → String
  | docx => "flow"
  | xlsx => "grid"
  | pptx => "presentation"
  | pdf => "fixed-layout"

end Format

namespace Json

/-- A string of the source as a value. -/
def text (value : String) : Json := .str value.toList

/-- `BTreeMap::from` over entries with the source's keys. -/
def object (entries : List (String × Json)) : Json :=
  ofMap (OrdMap.ofList (entries.map fun entry => (entry.1.toList, entry.2)))

end Json

def strField (value : Json) (key : String) : Option Str :=
  match value.get key.toList with
  | some (.str text) => some text
  | _ => none

def intField (value : Json) (key : String) : Option ℤ :=
  match value.get key.toList with
  | some (.int number) => some number
  | _ => none

inductive Derivation where
  | embedded
  | ocr
  deriving DecidableEq

structure EvidenceAnchor where
  id : Str
  role : Str
  locator : Json
  text : Str
  textDigest : Str
  derivation : Derivation

/-! ## Identities, roles and fidelity -/

def maxIdBytes : ℕ := 256

def validId (id : Str) : Bool :=
  !id.isEmpty && byteLen id ≤ maxIdBytes &&
    id.all fun c => c.isAlphanum || c = '.' || c = '/' || c = ':' || c = '_' || c = '-'

/-- The roles of a format in `valid_role`. -/
def roles : Format → List String
  | .pdf => ["heading", "paragraph", "table", "figure", "header", "footer", "title", "list"]
  | .docx => ["heading", "paragraph", "table", "list", "header", "footer", "title"]
  | .pptx => ["heading", "paragraph", "table", "list", "title", "notes", "shape"]
  | .xlsx => ["sheet", "cell", "range", "table", "header", "chart"]

def validRole (format : Format) (role : Str) : Bool :=
  (roles format).any fun known => known.toList = role

/-- The levels a fidelity map may give a feature. -/
def validLevel : Json → Bool
  | .str level =>
      ["exact", "normalized", "approximated", "unsupported"].any fun known => known.toList = level
  | _ => false

/-- The name of a feature, with the separators the map allows. -/
def validFeature (separators : List Char) : Str → Bool
  | [] => false
  | head :: rest =>
      head.isLower && rest.all fun c => c.isLower || c.isDigit || separators.contains c

def validFidelity : Json → Bool
  | .obj map =>
      !map.isEmpty && map.all fun entry => validFeature ['_'] entry.1 && validLevel entry.2
  | _ => false

/-- `valid_docx_fidelity`: the map may be empty, and hyphens are allowed. -/
def validDocxFidelity : Json → Bool
  | .obj map => map.all fun entry => validFeature ['_', '-'] entry.1 && validLevel entry.2
  | _ => false

def docxEnvelopeFidelity : Json :=
  Json.object [("headers_footers", Json.text "unsupported"), ("headings", Json.text "normalized"),
    ("lists", Json.text "normalized"), ("macros", Json.text "unsupported"),
    ("paragraphs", Json.text "normalized"), ("tables", Json.text "normalized"),
    ("text", Json.text "normalized")]

/-! ## Reading a projection -/

/-- `docx::MODEL_VERSION`. -/
def docxModelVersion : String := "1"

/-- `pptx::SCHEMA`. -/
def pptxSchema : String := "bran.pptx.content/1"

/-- `xlsx::PROJECTION`. -/
def xlsxProjection : String := "bran-xlsx-grid/1"

/-- `pdf::PROJECTION`. -/
def pdfProjection : String := "bran-pdf-projection-v1"

/-- A number between two bounds. -/
def within (low high value : ℤ) : Bool := low ≤ value && value ≤ high

/-- An anchor of a projection: the digest is taken of its text. -/
def evidence (id role : Str) (locator : Json) (text : Str) (derivation : Derivation) :
    EvidenceAnchor where
  id := id
  role := role
  locator := locator
  text := text
  textDigest := sha256Hex (bytes text)
  derivation := derivation

theorem textDigest_evidence (id role : Str) (locator : Json) (text : Str)
    (derivation : Derivation) : (evidence id role locator text derivation).textDigest =
      sha256Hex (bytes (evidence id role locator text derivation).text) := rfl

/-- The locator of an anchor stays within the bounds of the envelope. -/
def nativeBounds (format : Format) (locator : Json) : Option Unit :=
  match format with
  | .docx => do
      let name ← strField locator "section"
      let ordinal ← intField locator "ordinal"
      guard (name ≠ [] ∧ name.length ≤ 256 ∧ within 1 1000000 ordinal = true)
  | .pptx => do
      let slide ← intField locator "slide"
      let shape ← intField locator "shape"
      let z ← intField locator "z_index"
      guard (within 1 1000000 slide = true ∧ within 1 1000000 shape = true ∧
        within 0 1000000 z = true)
  | _ => some ()

/-- One anchor of an office format. -/
def readAnchor (format : Format) (anchor : Json) : Option EvidenceAnchor := do
  let id ← strField anchor "id"
  let role ← strField anchor "role"
  let text ← strField anchor "text"
  let locator ← anchor.get "locator".toList
  guard (strField locator "family" = some format.family.toList)
  nativeBounds format locator
  guard (validId id = true ∧ validRole format role = true)
  return evidence id role locator text .embedded

/-- The fidelity map of an office format and its processor. -/
def readHeader (format : Format) (projection : Json) : Option (Json × String) :=
  match format with
  | .docx => do
      guard (strField projection "schema_version" = some docxModelVersion.toList)
      guard (strField projection "format" = some "docx".toList)
      let fidelity ← projection.get "fidelity".toList
      guard (validDocxFidelity fidelity = true)
      return (docxEnvelopeFidelity, docxModelVersion)
  | .pptx => do
      guard (strField projection "schema" = some pptxSchema.toList)
      let fidelity ← projection.get "fidelity".toList
      return (fidelity, pptxSchema)
  | .xlsx => do
      guard (strField projection "schema_version" = some xlsxProjection.toList)
      let fidelity ← projection.get "fidelity".toList
      return (fidelity, xlsxProjection)
  | .pdf => none

def arrItems : Json → Option (List Json)
  | .arr items => some items
  | _ => none

/-- A coordinate of a bounding box in the range of the envelope. -/
def clampCoord (value : ℤ) : ℤ := max 0 (min 1000000 value)

/-- The four coordinates of a bounding box, clamped and in order. -/
def readBbox : Json → Option Json
  | .arr [.int x0, .int y0, .int x1, .int y1] =>
      some (Json.object [("x0", .int (clampCoord x0)), ("y0", .int (clampCoord y0)),
        ("x1", .int (max (clampCoord x1) (clampCoord x0))),
        ("y1", .int (max (clampCoord y1) (clampCoord y0)))])
  | _ => none

/-- What a block says about where its text comes from; unknown markings are not read. -/
def readDerivation (block : Json) : Option Derivation :=
  match strField block "derivation" with
  | some marked =>
      if marked = "ocr".toList ∨ "ocr-".toList <+: marked then some .ocr
      else if marked = "embedded-text".toList then some .embedded
      else none
  | none => some .embedded

def readBlock (page : ℤ) (block : Json) : Option EvidenceAnchor := do
  let id ← strField block "id"
  let role ← strField block "role"
  let text ← strField block "text"
  guard (validId id = true ∧ validRole .pdf role = true)
  let ordinal ← intField block "block"
  guard (1 ≤ page ∧ 1 ≤ ordinal)
  let bbox ← (block.get "bbox".toList).bind readBbox
  let locator := Json.object [("family", Json.text "fixed-layout"), ("page", .int page),
    ("block", .int ordinal), ("bbox", bbox)]
  let derivation ← readDerivation block
  return evidence id role locator text derivation

def readPage (page : Json) : Option (List EvidenceAnchor) := do
  let number ← intField page "page"
  let blocks ← (page.get "blocks".toList).bind arrItems
  blocks.mapM (readBlock number)

def readProjection (format : Format) (projection : Json) :
    Option (List EvidenceAnchor × Json × String) :=
  match format with
  | .pdf => do
      let fidelity ← projection.get "fidelity".toList
      guard (validFidelity fidelity = true)
      guard (strField projection "projection" = some pdfProjection.toList)
      let pages ← (projection.get "pages".toList).bind arrItems
      let anchors ← pages.mapM readPage
      return (anchors.flatten, fidelity, pdfProjection)
  | office => do
      let (fidelity, processor) ← readHeader office projection
      guard (validFidelity fidelity = true)
      let items ← (projection.get "anchors".toList).bind arrItems
      let anchors ← items.mapM (readAnchor office)
      return (anchors, fidelity, processor)

/-- Anchors that carry the digests of their texts. -/
def Digested (anchors : List EvidenceAnchor) : Prop :=
  ∀ anchor ∈ anchors, anchor.textDigest = sha256Hex (bytes anchor.text)

theorem mem_of_mapM_eq_some {α β : Type} {f : α → Option β} {items : List α} {results : List β}
    (h : items.mapM f = some results) {result : β} (hresult : result ∈ results) :
    ∃ item ∈ items, f item = some result := by
  induction items generalizing results with
  | nil =>
      obtain rfl := Option.some.inj h
      exact absurd hresult not_mem_nil
  | cons item rest ih =>
      rw [mapM_cons, bind_eq_bind, bind_eq_some_iff] at h
      obtain ⟨first, hfirst, h⟩ := h
      rw [bind_eq_bind, bind_eq_some_iff] at h
      obtain ⟨others, hothers, h⟩ := h
      obtain rfl := Option.some.inj h
      rcases mem_cons.mp hresult with rfl | hmem
      · exact ⟨item, mem_cons_self, hfirst⟩
      · obtain ⟨found, hfound, hf⟩ := ih hothers hmem
        exact ⟨found, mem_cons_of_mem _ hfound, hf⟩

theorem digested_readAnchor {format : Format} {anchor : Json} {read : EvidenceAnchor}
    (h : readAnchor format anchor = some read) : read.textDigest = sha256Hex (bytes read.text) := by
  simp only [readAnchor, bind_eq_bind, bind_eq_some_iff] at h
  obtain ⟨id, -, role, -, text, -, locator, -, -, -, -, -, -, -, hread⟩ := h
  obtain rfl := Option.some.inj hread
  exact textDigest_evidence _ _ _ _ _

theorem digested_readBlock {page : ℤ} {block : Json} {read : EvidenceAnchor}
    (h : readBlock page block = some read) : read.textDigest = sha256Hex (bytes read.text) := by
  simp only [readBlock, bind_eq_bind, bind_eq_some_iff] at h
  obtain ⟨id, -, role, -, text, -, -, -, ordinal, -, -, -, bbox, -, derivation, -, hread⟩ := h
  obtain rfl := Option.some.inj hread
  exact textDigest_evidence _ _ _ _ _

theorem digested_readProjection {format : Format} {projection fidelity : Json} {processor : String}
    {anchors : List EvidenceAnchor}
    (h : readProjection format projection = some (anchors, fidelity, processor)) :
    Digested anchors := by
  have hoffice {items : List Json} {anchors : List EvidenceAnchor} {format : Format}
      (hitems : items.mapM (readAnchor format) = some anchors) : Digested anchors := by
    intro anchor hanchor
    obtain ⟨item, -, hitem⟩ := mem_of_mapM_eq_some hitems hanchor
    exact digested_readAnchor hitem
  cases format with
  | pdf =>
      simp only [readProjection, bind_eq_bind, bind_eq_some_iff] at h
      obtain ⟨_, -, _, -, _, -, pages, -, blocks, hblocks, hread⟩ := h
      obtain ⟨rfl, -⟩ := Prod.mk.inj (Option.some.inj hread)
      intro anchor hanchor
      obtain ⟨found, hfound, hmem⟩ := mem_flatten.mp hanchor
      obtain ⟨page, -, hpage⟩ := mem_of_mapM_eq_some hblocks hfound
      simp only [readPage, bind_eq_bind, bind_eq_some_iff] at hpage
      obtain ⟨number, -, items, -, hitems⟩ := hpage
      obtain ⟨block, -, hblock⟩ := mem_of_mapM_eq_some hitems hmem
      exact digested_readBlock hblock
  | docx | xlsx | pptx =>
      simp only [readProjection, bind_eq_bind, bind_eq_some_iff] at h
      obtain ⟨_, -, _, -, items, -, found, hfound, hread⟩ := h
      obtain ⟨rfl, -⟩ := Prod.mk.inj (Option.some.inj hread)
      exact hoffice hfound

end Bran.Document
