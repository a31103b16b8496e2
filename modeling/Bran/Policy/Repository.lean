import Bran.Policy.Yaml

/-!
# The repository policy

The sections of a policy text, extracted one by one, and the checks across them that
`RepositoryPolicy::parse_from_string` ends with.
-/

namespace Bran.Policy

open Text Validation

structure FrontmatterPolicy where
  required : List Str
  optional : List Str
  allowed : List Str
  preservedCanonicalKeys : List Str
  canonicalDocsFrontmatterState : Option Str

structure SourceLinksPolicy where
  requirePrefix : Str

structure TagsPolicy where
  allowed : List Str

structure StatusPolicy where
  allowed : List Str

abbrev ExactBoundaryAllowlist := OrdMap Str (OrdMap Str (OrdMap ℕ Str))

structure PublicBoundaryPolicy where
  values : List Str
  pathAllowlist : List Str
  exactAllowlist : ExactBoundaryAllowlist

structure DocumentCoveragePolicy where
  roots : List Str
  nativeBundle : List Str
  canonicalDocuments : List Str
  legacyDocuments : List Str
  excludedDocuments : OrdMap Str Str
  bridgeTargets : List Str

structure RepositoryPolicy where
  schemaVersion : Str
  frontmatter : Option FrontmatterPolicy
  coverage : Option (List Str)
  documentCoverage : Option DocumentCoveragePolicy
  sourceLinks : Option SourceLinksPolicy
  tags : Option TagsPolicy
  status : Option StatusPolicy
  publicBoundary : Option PublicBoundaryPolicy

def maxPolicyBytes : ℕ := 64 * 1024

def supportedSchemaVersion : Str := ['1']

def invalidFieldShape (field : Str) (expected : Str) : PolicyError := .invalidFieldShape field expected

/-! ## Paths -/

/-- `Path::components` of a relative path has a `..`. -/
def hasParentDir (path : Str) : Prop := ['.', '.'] ∈ path.splitOn '/'

instance (path : Str) : Decidable (hasParentDir path) :=
  inferInstanceAs (Decidable (_ ∈ _))

/-- A drive letter starts the path. -/
def hasDrive : Str → Bool
  | first :: second :: _ => first.isAlpha && second = ':'
  | _ => false

def validateRepoPath (path : Str) : Except PolicyError Unit := do
  failIf (path = []) .unsafeDocumentPath
  failIf (Char.ofNat 0 ∈ path) .unsafeDocumentPath
  failIf (hasDrive path = true) .unsafeDocumentPath
  failIf (path.head? = some '\\') .unsafeDocumentPath
  failIf (path.head? = some '/') .unsafeDocumentPath
  failIf (hasParentDir path) .unsafeDocumentPath

/-- The loop of `validate_path_list`, with the paths before. -/
def validatePathsFrom (seen : List Str) : List Str → Except PolicyError Unit
  | [] => .ok ()
  | path :: rest => do
      validateRepoPath path
      failIf (path ∈ seen) (.duplicateDocumentPath path)
      validatePathsFrom (path :: seen) rest

def validatePathList (paths : List Str) : Except PolicyError Unit := validatePathsFrom [] paths

def validateExcludedDocuments (map : OrdMap Str Str) : Except PolicyError Unit :=
  forEach (fun entry => do
    validateRepoPath entry.1
    failIf (trim entry.2 = []) .emptyExclusionReason) map.entries

/-- One loop of `validate_no_overlapping_classifications`. -/
def assignAll (bucket : Str) : List Str → OrdMap Str Str → Except PolicyError (OrdMap Str Str)
  | [], assigned => .ok assigned
  | path :: rest, assigned =>
      match assigned.find? path with
      | some existing => .error (.overlappingClassification path existing bucket)
      | none => assignAll bucket rest (assigned.insert path bucket)

def validateNoOverlappingClassifications (dc : DocumentCoveragePolicy) : Except PolicyError Unit := do
  let assigned ← assignAll "native_bundle".toList dc.nativeBundle .empty
  let assigned ← assignAll "canonical_documents".toList dc.canonicalDocuments assigned
  let assigned ← assignAll "legacy_documents".toList dc.legacyDocuments assigned
  let assigned ← assignAll "bridge_targets".toList dc.bridgeTargets assigned
  let _ ← assignAll "excluded_documents".toList dc.excludedDocuments.keys assigned
  .ok ()

def validateDocumentCoveragePaths (dc : DocumentCoveragePolicy) : Except PolicyError Unit := do
  validatePathList dc.roots
  validatePathList dc.nativeBundle
  validatePathList dc.canonicalDocuments
  validatePathList dc.legacyDocuments
  validatePathList dc.bridgeTargets
  validateExcludedDocuments dc.excludedDocuments
  validateNoOverlappingClassifications dc

/-! ## Sections -/

/-- A section, which must be a mapping. -/
def sectionOf (parsed : Node) (name : Str) : Except PolicyError (Option Node) :=
  match OrdMap.findEntry name parsed with
  | some (.map node) => .ok (some node)
  | some _ => .error (invalidFieldShape name "mapping".toList)
  | none => .ok none

/-- The keys of a section are known. -/
def checkKeys (parent : Str) (known : List Str) (node : Node) : Except PolicyError Unit :=
  forEach (fun entry => failIf (entry.1 ∉ known) (.unknownNestedField parent entry.1)) node

def extractStringSeq (parent : Str) (node : Node) (key : Str) : Except PolicyError (Option (List Str)) :=
  match OrdMap.findEntry key node with
  | some (.seq items) => .ok (some items)
  | some _ => .error (invalidFieldShape (parent ++ '.' :: key) "sequence".toList)
  | none => .ok none

def extractString (parent : Str) (node : Node) (key : Str) : Except PolicyError (Option Str) :=
  match OrdMap.findEntry key node with
  | some (.scalar text) => .ok (some text)
  | some _ => .error (invalidFieldShape (parent ++ '.' :: key) "string".toList)
  | none => .ok none

/-- A sequence of a section, empty where it is missing. -/
def stringSeq (parent : Str) (node : Node) (key : Str) : Except PolicyError (List Str) := do
  return (← extractStringSeq parent node key).getD []

def extractFrontmatter (parsed : Node) : Except PolicyError (Option FrontmatterPolicy) := do
  let name := "frontmatter".toList
  match ← sectionOf parsed name with
  | none => .ok none
  | some node => do
      checkKeys name ["required".toList, "optional".toList, "allowed".toList,
        "preserved_canonical_keys".toList, "canonical_docs_frontmatter_state".toList] node
      let required ← stringSeq name node "required".toList
      let optional ← stringSeq name node "optional".toList
      let allowed ← stringSeq name node "allowed".toList
      let preservedCanonicalKeys ← stringSeq name node "preserved_canonical_keys".toList
      let state ← extractString name node "canonical_docs_frontmatter_state".toList
      failIf (∃ text ∈ state, text ≠ "legacy_baseline".toList ∧ text ≠ "strict".toList)
        .invalidMigrationState
      return some ⟨required, optional, allowed, preservedCanonicalKeys, state⟩

/-- The classes of `coverage`. -/
def coverageClasses : List Str :=
  ["canonical".toList, "legacy".toList, "excluded".toList, "unclassified".toList]

def extractCoverage (parsed : Node) : Except PolicyError (Option (List Str)) :=
  match OrdMap.findEntry "coverage".toList parsed with
  | some (.seq items) => do
      failIf (∃ item ∈ items, item ∉ coverageClasses) .invalidCoverageClass
      return some items
  | some _ => .error (invalidFieldShape "coverage".toList "sequence".toList)
  | none => .ok none

/-- The loop over the entries of `excluded_documents`. -/
def exclusionReasons : Node → OrdMap Str Str → Except PolicyError (OrdMap Str Str)
  | [], result => .ok result
  | (path, .scalar reason) :: rest, result => exclusionReasons rest (result.insert path reason)
  | (path, _) :: _, _ => .error (invalidFieldShape
      ("document_coverage.excluded_documents.".toList ++ path) "string".toList)

/-- The `excluded_documents` of a section. -/
def extractExcludedDocuments (node : Node) : Except PolicyError (OrdMap Str Str) :=
  match OrdMap.findEntry "excluded_documents".toList node with
  | some (.map entries) => exclusionReasons entries .empty
  | some _ => .error
      (invalidFieldShape "document_coverage.excluded_documents".toList "mapping".toList)
  | none => .ok .empty

def extractDocumentCoverage (parsed : Node) : Except PolicyError (Option DocumentCoveragePolicy) := do
  let name := "document_coverage".toList
  match ← sectionOf parsed name with
  | none => .ok none
  | some node => do
      checkKeys name ["roots".toList, "native_bundle".toList, "canonical_documents".toList,
        "legacy_documents".toList, "excluded_documents".toList, "bridge_targets".toList] node
      let roots ← stringSeq name node "roots".toList
      let nativeBundle ← stringSeq name node "native_bundle".toList
      let canonicalDocuments ← stringSeq name node "canonical_documents".toList
      let legacyDocuments ← stringSeq name node "legacy_documents".toList
      let bridgeTargets ← stringSeq name node "bridge_targets".toList
      let excludedDocuments ← extractExcludedDocuments node
      return some ⟨roots, nativeBundle, canonicalDocuments, legacyDocuments, excludedDocuments,
        bridgeTargets⟩

def extractSourceLinks (parsed : Node) : Except PolicyError (Option SourceLinksPolicy) := do
  let name := "source_links".toList
  match ← sectionOf parsed name with
  | none => .ok none
  | some node => do
      checkKeys name ["require_prefix".toList] node
      return some ⟨(← extractString name node "require_prefix".toList).getD []⟩

def extractTags (parsed : Node) : Except PolicyError (Option TagsPolicy) := do
  let name := "tags".toList
  match ← sectionOf parsed name with
  | none => .ok none
  | some node => do
      checkKeys name ["allowed".toList] node
      return some ⟨← stringSeq name node "allowed".toList⟩

def extractStatus (parsed : Node) : Except PolicyError (Option StatusPolicy) := do
  let name := "status".toList
  match ← sectionOf parsed name with
  | none => .ok none
  | some node => do
      checkKeys name ["allowed".toList] node
      return some ⟨← stringSeq name node "allowed".toList⟩

/-! ## The exact allowlist -/

/-- `str::parse::<usize>`. -/
def parseUsize (text : Str) : Option ℕ :=
  CharCode.parseUnsigned (2 ^ 64) ((stripStart ['+'] text).getD text)

/-- The codes of the findings that a line may be exempted from. -/
def findingCodes : List Str :=
  ["private_home_path".toList, "credential_assignment".toList, "private_network_literal".toList,
    "internal_agent_path".toList, "proprietary_scoring_language".toList]

/-- A message of the exact allowlist. -/
def boundaryError (message : String) : PolicyError := .malformedYaml 0 message.toList

/-- A lowercase SHA-256 digest. -/
def isDigestText (text : Str) : Bool := byteLen text = 64 && text.all isLowerHex

def lineNumber (line : Str) : Except PolicyError ℕ :=
  match parseUsize line with
  | none => .error (boundaryError "public_boundary exact line must be a positive integer")
  | some 0 => .error (boundaryError "public_boundary exact line must be a positive integer")
  | some number => .ok number

def lineDigest : YamlValue → Except PolicyError Str
  | .scalar digest =>
      if isDigestText digest then .ok digest
      else .error (boundaryError "public_boundary exact digest must be lowercase SHA-256")
  | _ => .error (boundaryError "public_boundary exact digest must be lowercase SHA-256")

/-- The loop over the lines of a code, with the count of all entries before. -/
def parseExactLines : Node → ℕ → OrdMap ℕ Str → Except PolicyError (OrdMap ℕ Str × ℕ)
  | [], count, parsed => .ok (parsed, count)
  | (line, value) :: rest, count, parsed => do
      failIf (count + 1 > 4096)
        (boundaryError "public_boundary.exact_allowlist exceeds 4096 lines")
      let number ← lineNumber line
      let digest ← lineDigest value
      parseExactLines rest (count + 1) (parsed.insert number digest)

def nonemptyMap (message : String) : YamlValue → Except PolicyError Node
  | .map (entry :: rest) => .ok (entry :: rest)
  | _ => .error (boundaryError message)

/-- The loop over the codes of a path. -/
def parseExactCodes : Node → ℕ → OrdMap Str (OrdMap ℕ Str) →
    Except PolicyError (OrdMap Str (OrdMap ℕ Str) × ℕ)
  | [], count, parsed => .ok (parsed, count)
  | (code, value) :: rest, count, parsed => do
      failIf (code ∉ findingCodes) (.unknownNestedField "public_boundary.exact_allowlist".toList code)
      let lines ← nonemptyMap "public_boundary exact code entry must be a nonempty mapping" value
      let parsedLines ← parseExactLines lines count .empty
      parseExactCodes rest parsedLines.2 (parsed.insert code parsedLines.1)

/-- The loop over the paths. -/
def parseExactPaths : Node → ℕ → ExactBoundaryAllowlist → Except PolicyError ExactBoundaryAllowlist
  | [], _, parsed => .ok parsed
  | (path, value) :: rest, count, parsed => do
      validateRepoPath path
      let codes ← nonemptyMap "public_boundary exact path entry must be a nonempty mapping" value
      let parsedCodes ← parseExactCodes codes count .empty
      parseExactPaths rest parsedCodes.2 (parsed.insert path parsedCodes.1)

def parseBoundaryExactAllowlist (paths : Node) : Except PolicyError ExactBoundaryAllowlist := do
  failIf (paths.length > 256) (boundaryError "public_boundary.exact_allowlist exceeds 256 paths")
  parseExactPaths paths 0 .empty

/-- The `exact_allowlist` of a section. -/
def extractExactAllowlist (node : Node) : Except PolicyError ExactBoundaryAllowlist :=
  match OrdMap.findEntry "exact_allowlist".toList node with
  | none => .ok .empty
  | some (.map paths) => parseBoundaryExactAllowlist paths
  | some _ => .error (invalidFieldShape "public_boundary.exact_allowlist".toList "mapping".toList)

def extractPublicBoundary (parsed : Node) : Except PolicyError (Option PublicBoundaryPolicy) := do
  let name := "public_boundary".toList
  match ← sectionOf parsed name with
  | none => .ok none
  | some node => do
      checkKeys name ["values".toList, "path_allowlist".toList, "exact_allowlist".toList] node
      let values ← stringSeq name node "values".toList
      let pathAllowlist ← stringSeq name node "path_allowlist".toList
      let exactAllowlist ← extractExactAllowlist node
      return some ⟨values, pathAllowlist, exactAllowlist⟩

/-! ## The policy -/

def knownTopLevelKeys : List Str :=
  ["schema_version".toList, "frontmatter".toList, "coverage".toList, "document_coverage".toList,
    "source_links".toList, "tags".toList, "status".toList, "public_boundary".toList]

def extractVersion (parsed : Node) : Except PolicyError Str :=
  match OrdMap.findEntry "schema_version".toList parsed with
  | some (.scalar version) => do
      failIf (version ≠ supportedSchemaVersion) (.unsupportedVersion version)
      return version
  | _ => .error .missingSchemaVersion

/-- The checks of the boundary section against the coverage section. -/
def checkBoundaryPaths (documentCoverage : Option DocumentCoveragePolicy)
    (boundary : PublicBoundaryPolicy) : Except PolicyError Unit := do
  validatePathList boundary.pathAllowlist
  let bridges := (documentCoverage.map DocumentCoveragePolicy.bridgeTargets).getD []
  failIf (∃ path ∈ boundary.exactAllowlist.keys, path ∉ bridges)
    (boundaryError "public_boundary exact allowlist paths must be bridge targets")

def fromParsed (parsed : Node) : Except PolicyError RepositoryPolicy := do
  let schemaVersion ← extractVersion parsed
  forEach (fun entry => failIf (entry.1 ∉ knownTopLevelKeys) (.unknownField entry.1)) parsed
  let frontmatter ← extractFrontmatter parsed
  let coverage ← extractCoverage parsed
  let documentCoverage ← extractDocumentCoverage parsed
  let sourceLinks ← extractSourceLinks parsed
  let tags ← extractTags parsed
  let status ← extractStatus parsed
  let publicBoundary ← extractPublicBoundary parsed
  forEach validateDocumentCoveragePaths documentCoverage.toList
  forEach (checkBoundaryPaths documentCoverage) publicBoundary.toList
  return ⟨schemaVersion, frontmatter, coverage, documentCoverage, sourceLinks, tags, status,
    publicBoundary⟩

def parseFromString (raw : Str) : Except PolicyError RepositoryPolicy := do
  failIf (byteLen raw > maxPolicyBytes) (.oversized (byteLen raw) maxPolicyBytes)
  let parsed ← parsePolicyYaml raw
  fromParsed parsed

end Bran.Policy
