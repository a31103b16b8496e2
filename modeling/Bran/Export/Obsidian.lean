import Bran.Graph.Model
import Bran.Library.Words

/-!
# The Obsidian bundle

The portable Markdown export of `export/mod.rs` and its reparse.  A bundle holds one document for
each node, with the frontmatter as YAML strings, and one for the graph, with the edges as records.
-/

namespace Bran.Export

open Text Validation Graph Words

inductive ExportError
  | rootBoundViolation (path reason : Str)
  | publicBoundaryViolation (detail : Str)
  | dlpViolation (detail : Str)
  | duplicatePath (path : Str)
  | invalidIdentity (text : Str)
  deriving DecidableEq

structure ExportNode where
  id : NodeId
  path : Str
  frontmatter : OrdMap Str Str
  body : Str

structure ExportEdge where
  id : EdgeId
  source : NodeId
  target : NodeId
  linkTarget : Str

structure ObsidianBundle where
  docs : OrdMap Str Str

def ObsidianBundle.asBytes (bundle : ObsidianBundle) : List UInt8 :=
  bundle.docs.entries.flatMap fun entry => bytes entry.1 ++ 0 :: (bytes entry.2 ++ [0])

/-! ## The policy on emitted strings -/

def publicBoundaryCanaryFixture : Str :=
  ("AZ_SYNTHETIC_PUBLIC_BOUNDARY_CANARY_ALPHA_7F3A\n" ++
    "AZ_SYNTHETIC_PUBLIC_BOUNDARY_CANARY_OMEGA_9C2D\n").toList

def hasPublicBoundaryCanary (value : Str) : Bool :=
  (lines publicBoundaryCanaryFixture).any fun line => !line.isEmpty && containsStr value line

def validateEmittedString (value : Str) : Except ExportError Unit := do
  failIf (hasPublicBoundaryCanary value = true) (.dlpViolation "synthetic canary".toList)
  failIf (containsStr value "important_boundary".toList = true)
    (.publicBoundaryViolation "important_boundary".toList)

/-! ## Paths, keys and link targets -/

/-- A byte that a segment of a path may hold. -/
def fsChar (c : Char) : Bool := c.isAlphanum || c = '.' || c = '_' || c = '-'

def isSafeFsSegment (segment : Str) : Bool := !segment.isEmpty && segment.all fsChar

def unsafeKeyChars : Str := [':', '\n', '\r', '\t', '"', '\'', '|', '\\', '#']

def isSafeYamlKey (key : Str) : Bool :=
  !key.isEmpty && key.head? ≠ some ' ' && key.head? ≠ some '-' &&
    unsafeKeyChars.all (fun c => !key.contains c) &&
    key.all fun c => c.isAlphanum || c = '_' || c = '-' || c = '.'

/-- A segment that names no file. -/
def dotSegment (segment : Str) : Bool := segment.isEmpty || segment = ['.'] || segment = ['.', '.']

def unsafeSegmentReason : Str :=
  "segment contains unsafe characters (only [A-Za-z0-9._-] allowed per segment)".toList

/-- The check of each segment that both validators end with. -/
def validateSegments (path : Str) : Except ExportError Unit :=
  forEach (fun segment => failIf (isSafeFsSegment segment = false)
    (.rootBoundViolation path unsafeSegmentReason)) (path.splitOn '/')

def validateRootBoundPath (path : Str) : Except ExportError Unit := do
  failIf (path = [] ∨ path.head? = some '/' ∨ '\\' ∈ path ∨ Char.ofNat 0 ∈ path ∨
    byteLen path > 4096 ∨ ¬ ".md".toList <:+ path ∨ (path.splitOn '/').any dotSegment = true)
    (.rootBoundViolation path ("must be non-empty root-relative slash path ending .md; no leading " ++
      "/, \\, NUL, ., .. segments, or length > 4096").toList)
  validateSegments path

def validateObsidianTarget (target : Str) : Except ExportError Unit := do
  failIf (target = [] ∨ target.head? = some '/' ∨ '\\' ∈ target ∨ Char.ofNat 0 ∈ target ∨
    '|' ∈ target ∨ ':' ∈ target ∨ byteLen target > 4096 ∨
    (target.splitOn '/').any dotSegment = true)
    (.rootBoundViolation target ("must be safe root-relative Obsidian target; no scheme, absolute, " ++
      "backslash, NUL, dot segments, pipe").toList)
  validateSegments target

/-! ## Validation of the input -/

def graphPath : Str := "bran-graph.md".toList

def nodeIdKey : Str := "bran_node_id".toList

def edgeKeyStart : Str := "bran_edge_".toList

def reservedKeys : List Str :=
  ["bran_type".toList, "bran_node_count".toList, "bran_edge_count".toList]

/-- The check of one frontmatter key. -/
def validateKey (key : Str) : Except ExportError Unit := do
  failIf (key ∈ reservedKeys ∨ edgeKeyStart <+: key)
    (.invalidIdentity ("reserved frontmatter key: ".toList ++ key))
  failIf (isSafeYamlKey key = false) (.invalidIdentity ("unsafe YAML key: ".toList ++ key))

/-- The check of one entry against the policy. -/
def validateEntry (entry : Str × Str) : Except ExportError Unit := do
  validateEmittedString entry.1
  validateEmittedString entry.2

def checkPublicBoundaryAndDlp (path : Str) (frontmatter : OrdMap Str Str) (body : Str) :
    Except ExportError Unit := do
  validateEmittedString path
  validateEmittedString body
  forEach validateEntry frontmatter.entries
  forEach (fun entry => failIf (entry.1 = "public_boundary".toList ∧ entry.2 ≠ "public".toList)
    (.publicBoundaryViolation ("non-public value for public_boundary: ".toList ++ entry.2)))
    frontmatter.entries

/-- A matching identity in the frontmatter is kept, another one refused. -/
def checkIdentity (node : ExportNode) : Except ExportError Unit :=
  match node.frontmatter.find? nodeIdKey with
  | none => .ok ()
  | some value => failIf (value ≠ node.id.value) (.invalidIdentity
      ("bran_node_id conflict: ".toList ++ value ++ " != ".toList ++ node.id.value))

/-- The loop over the nodes, with the paths of those before. -/
def checkNodes : List ExportNode → OrdMap NodeId Str → List Str →
    Except ExportError (OrdMap NodeId Str)
  | [], nodePaths, _ => .ok nodePaths
  | node :: rest, nodePaths, paths => do
      validateEmittedString node.id.value
      failIf (nodePaths.contains node.id = true)
        (.invalidIdentity ("duplicate node id: ".toList ++ node.id.value))
      failIf (node.path = graphPath ∨ node.path ∈ paths) (.duplicatePath node.path)
      validateRootBoundPath node.path
      checkIdentity node
      forEach validateKey node.frontmatter.keys
      checkPublicBoundaryAndDlp node.path node.frontmatter node.body
      checkNodes rest (nodePaths.insert node.id node.path) (node.path :: paths)

/-- The check of one edge.  The paths of nodes end in `.md`. -/
def checkEdge (nodePaths : OrdMap NodeId Str) (edge : ExportEdge) : Except ExportError Unit := do
  validateEmittedString edge.id.value
  validateEmittedString edge.source.value
  validateEmittedString edge.target.value
  validateEmittedString edge.linkTarget
  failIf (nodePaths.contains edge.source = false)
    (.invalidIdentity ("edge source missing in nodes: ".toList ++ edge.source.value))
  failIf (nodePaths.contains edge.target = false)
    (.invalidIdentity ("edge target missing in nodes: ".toList ++ edge.target.value))
  validateObsidianTarget edge.linkTarget
  let expected := ((nodePaths.find? edge.target).bind (stripEnd ".md".toList)).getD []
  failIf (edge.linkTarget ≠ expected) (.invalidIdentity
    ("edge link target conflict: ".toList ++ edge.linkTarget ++ " != ".toList ++ expected))

/-- The loop over the edges for repeated identities. -/
def checkEdgeIds : List ExportEdge → List EdgeId → Except ExportError Unit
  | [], _ => .ok ()
  | edge :: rest, ids => do
      failIf (edge.id ∈ ids) (.invalidIdentity ("duplicate edge id: ".toList ++ edge.id.value))
      checkEdgeIds rest (edge.id :: ids)

/-! ## Documents -/

/-- `str::replace` of a character. -/
def replaceChar (c : Char) (text value : Str) : Str :=
  value.flatMap fun x => if x = c then text else [x]

def escapeForYaml (value : Str) : Str :=
  replaceChar '\t' ['\\', 't'] (replaceChar '\r' ['\\', 'r'] (replaceChar '\n' ['\\', 'n']
    (replaceChar '"' ['\\', '"'] (replaceChar '\\' ['\\', '\\'] value))))

def yamlScalar (value : Str) : Str := '"' :: (escapeForYaml value ++ ['"'])

def entryLine (entry : Str × Str) : Str := entry.1 ++ ':' :: ' ' :: yamlScalar entry.2

/-- The frontmatter with the identity of the node. -/
def effective (node : ExportNode) : OrdMap Str Str :=
  if node.frontmatter.contains nodeIdKey then node.frontmatter
  else node.frontmatter.insert nodeIdKey node.id.value

/-- The wikilinks that end a document. -/
def linkLines (node : ExportNode) (edges : List ExportEdge) : Str :=
  let outs := edges.filter fun edge => edge.source = node.id
  if outs = [] then []
  else '\n' :: (sortBy ExportEdge.linkTarget outs).flatMap fun edge =>
    "[[".toList ++ edge.linkTarget ++ "]]\n".toList

def buildNodeMarkdown (node : ExportNode) (edges : List ExportEdge) : Str :=
  "---\n".toList ++ ((effective node).entries.flatMap (fun entry => entryLine entry ++ ['\n']) ++
    ("---\n".toList ++ (node.body ++
      ((if node.body.getLast? ≠ some '\n' ∧ node.body ≠ [] then ['\n'] else []) ++
        linkLines node edges))))

def edgeRecord (edge : ExportEdge) : Str :=
  edge.id.value ++ '|' :: (edge.source.value ++ '|' :: (edge.target.value ++ '|' :: edge.linkTarget))

/-- The frontmatter lines of the edges, numbered from an index on. -/
def edgeEntries : ℕ → List ExportEdge → List (Str × Str)
  | _, [] => []
  | index, edge :: rest =>
      (edgeKeyStart ++ decimal index, edgeRecord edge) :: edgeEntries (index + 1) rest

/-- The frontmatter of the graph document. -/
def graphEntries (nodes : List ExportNode) (edges : List ExportEdge) : List (Str × Str) :=
  ("bran_type".toList, "graph-representation".toList) ::
    ("bran_node_count".toList, decimal nodes.length) ::
    ("bran_edge_count".toList, decimal edges.length) :: edgeEntries 0 edges

def buildGraphMarkdown (nodes : List ExportNode) (edges : List ExportEdge) : Str :=
  "---\n".toList ++ ((graphEntries nodes edges).flatMap
    (fun entry => entry.1 ++ ':' :: ' ' :: entry.2 ++ ['\n']) ++
    ("---\n\n# Bran Graph Representation\n\n## Nodes (wikilinks)\n".toList ++
      (nodes.flatMap (fun node => "- [[".toList ++ (stripEnd ".md".toList node.path).getD node.path ++
        "]] (id: ".toList ++ node.id.value ++ ")\n".toList) ++
      ("\n## Edges\n".toList ++ edges.flatMap fun edge => "- ".toList ++ edge.id.value ++ ": ".toList ++
        edge.source.value ++ " -> [[".toList ++ edge.linkTarget ++ "]]\n".toList))))

def exportToObsidian (nodes : List ExportNode) (edges : List ExportEdge) :
    Except ExportError ObsidianBundle := do
  let nodePaths ← checkNodes nodes .empty []
  forEach (checkEdge nodePaths) edges
  checkEdgeIds edges []
  let sortedNodes := sortBy ExportNode.path nodes
  let sortedEdges := sortBy ExportEdge.id edges
  let docs : OrdMap Str Str := sortedNodes.foldl
    (fun docs node => docs.insert node.path (buildNodeMarkdown node sortedEdges)) .empty
  .ok ⟨docs.insert graphPath (buildGraphMarkdown sortedNodes sortedEdges)⟩

/-! ## Reparsing -/

/-- The loop of `str::replace` over a text; `skip` characters belong to the last occurrence. -/
def replaceFrom (pattern text : Str) : ℕ → Str → Str
  | _, [] => []
  | skip + 1, _ :: rest => replaceFrom pattern text skip rest
  | 0, c :: rest =>
      if pattern <+: c :: rest then text ++ replaceFrom pattern text (pattern.length - 1) rest
      else c :: replaceFrom pattern text 0 rest

/-- `str::replace` of a string that is not empty. -/
def replaceStr (pattern text value : Str) : Str := replaceFrom pattern text 0 value

/-- The two replacements that undo the escapes. -/
def unescape (value : Str) : Str :=
  replaceStr ['\\', '\\'] ['\\'] (replaceStr ['\\', '"'] ['"'] value)

/-- The value of a frontmatter line; a lone quote has no room for the two that are cut off. -/
def parseValue (raw : Str) : Checked ExportError Str :=
  if raw.head? = some '"' ∧ raw.getLast? = some '"' then
    if raw.length = 1 then .error .panicked else .ok (unescape (raw.tail.dropLast))
  else .ok raw

/-- The loop over the lines of a frontmatter block. -/
def parseLines : List Str → OrdMap Str Str → Checked ExportError (OrdMap Str Str)
  | [], map => .ok map
  | line :: rest, map =>
      match splitOnce ':' line with
      | none => parseLines rest map
      | some (key, value) =>
          if trim key = [] then parseLines rest map
          else do
            let value ← parseValue (trim value)
            parseLines rest (map.insert (trim key) value)

def parseFrontmatterBlock (content : Str) : Checked ExportError (OrdMap Str Str) :=
  match splitOnceStr "---\n".toList content with
  | none => .ok .empty
  | some (_, rest) =>
      match splitOnceStr "\n---".toList rest with
      | none => .ok .empty
      | some (block, _) => parseLines (lines block) .empty

/-- `str::splitn` at a character. -/
def splitN (c : Char) : ℕ → Str → List Str
  | 0, _ => []
  | 1, value => [value]
  | count + 2, value =>
      match splitOnce c value with
      | none => [value]
      | some (first, rest) => first :: splitN c (count + 1) rest

abbrev EdgeRecord := EdgeId × NodeId × NodeId × Str

/-- An identity of an edge record. -/
def recordNodeId (text : Str) : Except ExportError NodeId :=
  (NodeId.parse text).mapError fun _ => .invalidIdentity text

def parseEdgeRecord (value : Str) : Except ExportError EdgeRecord :=
  match splitN '|' 4 value with
  | [id, source, target, linkTarget] => do
      forEach validateEmittedString [id, source, target, linkTarget]
      let edge ← (EdgeId.parse id).mapError fun _ => .invalidIdentity id
      let sourceId ← recordNodeId source
      let targetId ← recordNodeId target
      validateObsidianTarget linkTarget
      .ok (edge, sourceId, targetId, linkTarget)
  | _ => .error (.invalidIdentity value)

structure Collected where
  nodes : OrdSet NodeId
  frontmatter : OrdMap NodeId (OrdMap Str Str)
  edges : OrdMap EdgeId (NodeId × NodeId × Str)
  links : OrdSet Str

def isEdgeKey (key : Str) : Bool :=
  match stripStart edgeKeyStart key with
  | none => false
  | some suffix => !suffix.isEmpty && suffix.all Char.isDigit

/-- The part of the reparse for the identity of a document. -/
def collectNode (map : OrdMap Str Str) (collected : Collected) : Except ExportError Collected :=
  match map.find? nodeIdKey with
  | none => .ok collected
  | some text => do
      validateEmittedString text
      match NodeId.parse text with
      | .error _ => .error (.invalidIdentity text)
      | .ok id => do
          forEach validateEntry map.entries
          .ok { collected with
            nodes := collected.nodes.insert id ()
            frontmatter := collected.frontmatter.insert id map }

/-- The part of the reparse for the edge records of a document. -/
def collectEdges : List (Str × Str) → Collected → Except ExportError Collected
  | [], collected => .ok collected
  | entry :: rest, collected =>
      if isEdgeKey entry.1 then do
        let (id, source, target, linkTarget) ← parseEdgeRecord entry.2
        failIf (collected.edges.contains id = true)
          (.invalidIdentity ("duplicate edge id in records: ".toList ++ id.value))
        collectEdges rest { collected with
          edges := collected.edges.insert id (source, target, linkTarget)
          links := collected.links.insert linkTarget () }
      else collectEdges rest collected

/-- The loop over the documents. -/
def collectDocs : List Str → Collected → Checked ExportError Collected
  | [], collected => .ok collected
  | content :: rest, collected => do
      let map ← parseFrontmatterBlock content
      let collected ← (collectNode map collected).mapError .refused
      let collected ← (collectEdges map.entries collected).mapError .refused
      collectDocs rest collected

def checkEndPoints (nodes : OrdSet NodeId) (entry : EdgeId × NodeId × NodeId × Str) :
    Except ExportError Unit := do
  failIf (nodes.contains entry.2.1 = false) (.invalidIdentity ("edge ".toList ++ entry.1.value ++
    " source missing: ".toList ++ entry.2.1.value))
  failIf (nodes.contains entry.2.2.1 = false) (.invalidIdentity ("edge ".toList ++ entry.1.value ++
    " target missing: ".toList ++ entry.2.2.1.value))

structure Reparsed where
  nodeIds : List NodeId
  edgeIds : List EdgeId
  linkTargets : List Str
  edgeRecords : List EdgeRecord
  nodeFrontmatter : OrdMap NodeId (OrdMap Str Str)

def reparseObsidian (bundle : ObsidianBundle) : Checked ExportError Reparsed := do
  let collected ← collectDocs bundle.docs.values ⟨.empty, .empty, .empty, .empty⟩
  (forEach (checkEndPoints collected.nodes) collected.edges.entries).mapError .refused
  .ok ⟨collected.nodes.keys, collected.edges.keys, collected.links.keys, collected.edges.entries,
    collected.frontmatter⟩

end Bran.Export
