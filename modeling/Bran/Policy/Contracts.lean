import Bran.Policy.Repository
import Bran.Policy.Tree

/-!
# What an accepted policy satisfies

Every path of an accepted policy is safe, every exclusion has a reason, and the exact allowlist names
bridge targets, finding codes and positive lines.  Repeated paths and lines are found by their
spelling, and so the policy names nothing twice exactly if its text spells each path and each line
number in one way.
-/

namespace Bran.Policy

open Text Validation List OrdMap
open Except (ok.inj)
open Option (some.inj bind_some)

variable {paths : List Str} {node parsed : Node} {policy : RepositoryPolicy}

/-! ## Paths -/

/-- The segments of a path without the empty ones and those that stay in their directory. -/
def normalizePath (path : Str) : List Str :=
  (path.splitOn '/').filter fun segment => segment ≠ [] ∧ segment ≠ ['.']

/-- A path that stays in the repository. -/
structure SafePath (path : Str) : Prop where
  nonempty : path ≠ []
  nul : Char.ofNat 0 ∉ path
  drive : hasDrive path = false
  unc : path.head? ≠ some '\\'
  relative : path.head? ≠ some '/'
  parent : ¬ hasParentDir path

theorem safePath_of_validated {path : Str} (h : validateRepoPath path = .ok ()) : SafePath path := by
  obtain ⟨hnonempty, h⟩ := check_bind_eq_ok_iff.mp h
  obtain ⟨hnul, h⟩ := check_bind_eq_ok_iff.mp h
  obtain ⟨hdrive, h⟩ := check_bind_eq_ok_iff.mp h
  obtain ⟨hunc, h⟩ := check_bind_eq_ok_iff.mp h
  obtain ⟨hrelative, hparent⟩ := check_bind_eq_ok_iff.mp h
  exact ⟨failIf_eq_ok_iff.mp hnonempty, failIf_eq_ok_iff.mp hnul,
    Bool.eq_false_iff.mpr (failIf_eq_ok_iff.mp hdrive), failIf_eq_ok_iff.mp hunc,
    failIf_eq_ok_iff.mp hrelative, failIf_eq_ok_iff.mp hparent⟩

/-- A list of safe paths, none spelled twice. -/
structure SafePaths (paths : List Str) : Prop where
  safe : ∀ path ∈ paths, SafePath path
  nodup : paths.Nodup

theorem validatePathsFrom_ok {seen : List Str} (h : validatePathsFrom seen paths = .ok ()) :
    SafePaths paths ∧ ∀ path ∈ paths, path ∉ seen := by
  induction paths generalizing seen with
  | nil => exact ⟨⟨fun _ hmem => (nomatch hmem), nodup_nil⟩, fun _ hmem => (nomatch hmem)⟩
  | cons path rest ih =>
      obtain ⟨hsafe, h⟩ := check_bind_eq_ok_iff.mp h
      obtain ⟨hnew, h⟩ := check_bind_eq_ok_iff.mp h
      obtain ⟨hrest, hfresh⟩ := ih h
      refine ⟨⟨forall_mem_cons.mpr ⟨safePath_of_validated hsafe, hrest.safe⟩,
        nodup_cons.mpr ⟨fun hmem => hfresh path hmem mem_cons_self, hrest.nodup⟩⟩, ?_⟩
      refine forall_mem_cons.mpr ⟨failIf_eq_ok_iff.mp hnew, fun other hother hseen => ?_⟩
      exact hfresh other hother (mem_cons_of_mem _ hseen)

theorem safePaths_of_validated (h : validatePathList paths = .ok ()) :
    SafePaths paths := (validatePathsFrom_ok h).1

/-! ## Classifications -/

/-- The paths of the five classifications. -/
def DocumentCoveragePolicy.classes (dc : DocumentCoveragePolicy) : List (List Str) :=
  [dc.nativeBundle, dc.canonicalDocuments, dc.legacyDocuments, dc.bridgeTargets,
    dc.excludedDocuments.keys]

/-- The paths that are assigned so far stay distinct. -/
theorem assignAll_nodup {bucket : Str} {earlier : List Str} {assigned result : OrdMap Str Str}
    (hearlier : earlier.Nodup) (hassigned : ∀ key, key ∈ assigned.keys ↔ key ∈ earlier)
    (h : assignAll bucket paths assigned = .ok result) :
    (earlier ++ paths).Nodup ∧ ∀ key, key ∈ result.keys ↔ key ∈ earlier ++ paths := by
  induction paths generalizing earlier assigned with
  | nil =>
      obtain rfl := ok.inj h
      rw [append_nil]
      exact ⟨hearlier, hassigned⟩
  | cons path rest ih =>
      rw [assignAll] at h
      cases hfind : assigned.find? path with
      | some existing =>
          rw [hfind] at h
          cases h
      | none =>
          rw [hfind] at h
          have hnew : path ∉ earlier := mt (hassigned path).mpr (find?_eq_none_iff.mp hfind)
          rw [append_cons]
          refine ih (concat_eq_append ▸ hearlier.concat hnew) (fun key => ?_) h
          rw [mem_keys_insert, hassigned, mem_append, mem_singleton, or_comm]

/-- No path is spelled alike in two classifications. -/
theorem nodup_classes {dc : DocumentCoveragePolicy}
    (h : validateNoOverlappingClassifications dc = .ok ()) : dc.classes.flatten.Nodup := by
  obtain ⟨first, hfirst, h⟩ := bind_eq_ok_iff.mp h
  obtain ⟨second, hsecond, h⟩ := bind_eq_ok_iff.mp h
  obtain ⟨third, hthird, h⟩ := bind_eq_ok_iff.mp h
  obtain ⟨fourth, hfourth, h⟩ := bind_eq_ok_iff.mp h
  obtain ⟨fifth, hfifth, _⟩ := bind_eq_ok_iff.mp h
  have hempty : ∀ key : Str, key ∈ (OrdMap.empty : OrdMap Str Str).keys ↔ key ∈ [] := fun _ => .rfl
  obtain ⟨hnodup, hkeys⟩ := assignAll_nodup nodup_nil hempty hfirst
  obtain ⟨hnodup, hkeys⟩ := assignAll_nodup hnodup hkeys hsecond
  obtain ⟨hnodup, hkeys⟩ := assignAll_nodup hnodup hkeys hthird
  obtain ⟨hnodup, hkeys⟩ := assignAll_nodup hnodup hkeys hfourth
  obtain ⟨hnodup, _⟩ := assignAll_nodup hnodup hkeys hfifth
  simpa [DocumentCoveragePolicy.classes] using hnodup

/-! ## Sections -/

def entriesOf : YamlValue → Node
  | .map entries => entries
  | _ => []

def textOf : YamlValue → Str
  | .scalar text => text
  | _ => []

def mapUnder (node : Node) (key : Str) : Node := ((OrdMap.findEntry key node).map entriesOf).getD []

/-- The paths under a key: the items of a sequence, or the keys of a mapping. -/
def pathsUnder (node : Node) (key : Str) : List Str :=
  match OrdMap.findEntry key node with
  | some (.seq items) => items
  | some (.map entries) => entries.map Prod.fst
  | _ => []

theorem sectionOf_ok {name : Str} {found : Option Node} (h : sectionOf parsed name = .ok found) :
    found = none ∧ mapUnder parsed name = [] ∨ found = some (mapUnder parsed name) := by
  unfold sectionOf at h
  unfold mapUnder
  split at h
  · next node heq =>
      obtain rfl := ok.inj h
      rw [heq]
      exact .inr rfl
  · cases h
  · next heq =>
      obtain rfl := ok.inj h
      rw [heq]
      exact .inl ⟨rfl, rfl⟩

theorem stringSeq_ok {parent key : Str} {items : List Str}
    (h : stringSeq parent node key = .ok items) : items = pathsUnder node key := by
  obtain ⟨found, hfound, h⟩ := bind_eq_ok_iff.mp h
  obtain rfl := ok.inj h
  unfold extractStringSeq at hfound
  unfold pathsUnder
  split at hfound
  · next heq =>
      obtain rfl := ok.inj hfound
      rw [heq]
      rfl
  · cases hfound
  · next heq =>
      obtain rfl := ok.inj hfound
      rw [heq]
      rfl

theorem exclusionReasons_ok {entries : Node} {before result : OrdMap Str Str}
    (h : exclusionReasons entries before = .ok result) :
    ∀ key, key ∈ result.keys ↔ key ∈ before.keys ∨ key ∈ entries.map Prod.fst := by
  induction entries generalizing before with
  | nil =>
      obtain rfl := ok.inj h
      simp
  | cons entry rest ih =>
      obtain ⟨path, value⟩ := entry
      cases value with
      | map entries => cases h
      | seq items => cases h
      | scalar reason =>
          intro key
          rw [ih h, mem_keys_insert, map_cons, mem_cons]
          tauto

theorem extractExcludedDocuments_ok {excluded : OrdMap Str Str}
    (h : extractExcludedDocuments node = .ok excluded) (path : Str) :
    path ∈ excluded.keys ↔ path ∈ pathsUnder node "excluded_documents".toList := by
  unfold extractExcludedDocuments at h
  unfold pathsUnder
  split at h
  · next heq =>
      rw [heq, exclusionReasons_ok h]
      exact ⟨fun hmem => hmem.resolve_left (fun hnone => (nomatch hnone)), .inr⟩
  · cases h
  · next heq =>
      obtain rfl := ok.inj h
      rw [heq]
      exact ⟨fun hnone => (nomatch hnone), fun hnone => (nomatch hnone)⟩

/-- The coverage section that a mapping writes. -/
structure ReadsCoverage (node : Node) (dc : DocumentCoveragePolicy) : Prop where
  roots : dc.roots = pathsUnder node "roots".toList
  nativeBundle : dc.nativeBundle = pathsUnder node "native_bundle".toList
  canonicalDocuments : dc.canonicalDocuments = pathsUnder node "canonical_documents".toList
  legacyDocuments : dc.legacyDocuments = pathsUnder node "legacy_documents".toList
  bridgeTargets : dc.bridgeTargets = pathsUnder node "bridge_targets".toList
  excludedDocuments : ∀ path,
    path ∈ dc.excludedDocuments.keys ↔ path ∈ pathsUnder node "excluded_documents".toList

theorem extractDocumentCoverage_ok {found : Option DocumentCoveragePolicy}
    (h : extractDocumentCoverage parsed = .ok found) :
    found = none ∧ mapUnder parsed "document_coverage".toList = [] ∨
      ∃ dc, found = some dc ∧ ReadsCoverage (mapUnder parsed "document_coverage".toList) dc := by
  obtain ⟨node, hnode, h⟩ := bind_eq_ok_iff.mp h
  rcases sectionOf_ok hnode with ⟨rfl, hempty⟩ | rfl
  · exact .inl ⟨(ok.inj h).symm, hempty⟩
  · obtain ⟨_, h⟩ := check_bind_eq_ok_iff.mp h
    obtain ⟨roots, hroots, h⟩ := bind_eq_ok_iff.mp h
    obtain ⟨native, hnative, h⟩ := bind_eq_ok_iff.mp h
    obtain ⟨canonical, hcanonical, h⟩ := bind_eq_ok_iff.mp h
    obtain ⟨legacy, hlegacy, h⟩ := bind_eq_ok_iff.mp h
    obtain ⟨bridges, hbridges, h⟩ := bind_eq_ok_iff.mp h
    obtain ⟨excluded, hexcluded, h⟩ := bind_eq_ok_iff.mp h
    exact .inr ⟨_, (ok.inj h).symm, stringSeq_ok hroots, stringSeq_ok hnative,
      stringSeq_ok hcanonical, stringSeq_ok hlegacy, stringSeq_ok hbridges,
      extractExcludedDocuments_ok hexcluded⟩

/-! ## The exact allowlist -/

/-- The number that the key of a line writes. -/
def numberOf (line : Str) : ℕ := (parseUsize line).getD 0

def linesOf (node : Node) : OrdMap ℕ Str :=
  OrdMap.ofList (node.map fun entry => (numberOf entry.1, textOf entry.2))

def codesOf (node : Node) : OrdMap Str (OrdMap ℕ Str) :=
  OrdMap.ofList (node.map fun entry => (entry.1, linesOf (entriesOf entry.2)))

/-- The exact allowlist of a mapping. -/
def exactOf (node : Node) : ExactBoundaryAllowlist :=
  OrdMap.ofList (node.map fun entry => (entry.1, codesOf (entriesOf entry.2)))

def PositiveLine (entry : Str × YamlValue) : Prop :=
  parseUsize entry.1 = some (numberOf entry.1) ∧ 0 < numberOf entry.1

def KnownCode (entry : Str × YamlValue) : Prop :=
  entry.1 ∈ findingCodes ∧ ∀ line ∈ entriesOf entry.2, PositiveLine line

/-- A safe path with known codes. -/
def ExactPath (entry : Str × YamlValue) : Prop :=
  SafePath entry.1 ∧ ∀ code ∈ entriesOf entry.2, KnownCode code

theorem lineNumber_ok {line : Str} {number : ℕ} (h : lineNumber line = .ok number) :
    parseUsize line = some number ∧ 0 < number := by
  unfold lineNumber at h
  split at h
  · cases h
  · cases h
  · next hne heq =>
      obtain rfl := ok.inj h
      exact ⟨heq, Nat.pos_of_ne_zero hne⟩

theorem lineDigest_ok {value : YamlValue} {digest : Str} (h : lineDigest value = .ok digest) :
    digest = textOf value := by
  cases value with
  | map entries => cases h
  | seq items => cases h
  | scalar text =>
      rw [lineDigest] at h
      split_ifs at h
      exact (ok.inj h).symm

theorem nonemptyMap_ok {message : String} {value : YamlValue}
    (h : nonemptyMap message value = .ok node) : node = entriesOf value := by
  cases value with
  | scalar text => cases h
  | seq items => cases h
  | map entries =>
      cases entries with
      | nil => cases h
      | cons entry rest => exact (ok.inj h).symm

theorem parseExactLines_ok {entries : Node} {count : ℕ} {before : OrdMap ℕ Str}
    {result : OrdMap ℕ Str × ℕ} (h : parseExactLines entries count before = .ok result) :
    (∀ entry ∈ entries, PositiveLine entry) ∧
      result.1 = (entries.map fun entry => (numberOf entry.1, textOf entry.2)).foldl
        (fun map entry => map.insert entry.1 entry.2) before := by
  induction entries generalizing count before with
  | nil =>
      obtain rfl := ok.inj h
      exact ⟨fun _ hmem => (nomatch hmem), rfl⟩
  | cons entry rest ih =>
      obtain ⟨line, value⟩ := entry
      obtain ⟨_, h⟩ := check_bind_eq_ok_iff.mp h
      obtain ⟨number, hnumber, h⟩ := bind_eq_ok_iff.mp h
      obtain ⟨digest, hdigest, h⟩ := bind_eq_ok_iff.mp h
      obtain ⟨hrest, hresult⟩ := ih h
      obtain ⟨hparse, hpositive⟩ := lineNumber_ok hnumber
      have hnumberOf : numberOf line = number := by rw [numberOf, hparse, Option.getD_some]
      refine ⟨forall_mem_cons.mpr ⟨⟨?_, ?_⟩, hrest⟩, ?_⟩
      · rw [hnumberOf]
        exact hparse
      · rw [hnumberOf]
        exact hpositive
      · rw [hresult, map_cons, foldl_cons, hnumberOf, ← lineDigest_ok hdigest]

theorem parseExactCodes_ok {entries : Node} {count : ℕ} {before : OrdMap Str (OrdMap ℕ Str)}
    {result : OrdMap Str (OrdMap ℕ Str) × ℕ} (h : parseExactCodes entries count before = .ok result) :
    (∀ entry ∈ entries, KnownCode entry) ∧
      result.1 = (entries.map fun entry => (entry.1, linesOf (entriesOf entry.2))).foldl
        (fun map entry => map.insert entry.1 entry.2) before := by
  induction entries generalizing count before with
  | nil =>
      obtain rfl := ok.inj h
      exact ⟨fun _ hmem => (nomatch hmem), rfl⟩
  | cons entry rest ih =>
      obtain ⟨code, value⟩ := entry
      obtain ⟨hcode, h⟩ := check_bind_eq_ok_iff.mp h
      obtain ⟨lines, hlines, h⟩ := bind_eq_ok_iff.mp h
      obtain ⟨parsedLines, hparsedLines, h⟩ := bind_eq_ok_iff.mp h
      obtain ⟨hrest, hresult⟩ := ih h
      obtain rfl := nonemptyMap_ok hlines
      obtain ⟨hpositive, hread⟩ := parseExactLines_ok hparsedLines
      refine ⟨forall_mem_cons.mpr ⟨⟨not_not.mp (failIf_eq_ok_iff.mp hcode), hpositive⟩, hrest⟩, ?_⟩
      rw [hresult, hread, map_cons, foldl_cons]
      rfl

theorem parseExactPaths_ok {entries : Node} {count : ℕ} {before result : ExactBoundaryAllowlist}
    (h : parseExactPaths entries count before = .ok result) :
    (∀ entry ∈ entries, ExactPath entry) ∧
      result = (entries.map fun entry => (entry.1, codesOf (entriesOf entry.2))).foldl
        (fun map entry => map.insert entry.1 entry.2) before := by
  induction entries generalizing count before with
  | nil =>
      obtain rfl := ok.inj h
      exact ⟨fun _ hmem => (nomatch hmem), rfl⟩
  | cons entry rest ih =>
      obtain ⟨path, value⟩ := entry
      obtain ⟨hpath, h⟩ := check_bind_eq_ok_iff.mp h
      obtain ⟨codes, hcodes, h⟩ := bind_eq_ok_iff.mp h
      obtain ⟨parsedCodes, hparsedCodes, h⟩ := bind_eq_ok_iff.mp h
      obtain ⟨hrest, hresult⟩ := ih h
      obtain rfl := nonemptyMap_ok hcodes
      obtain ⟨hknown, hread⟩ := parseExactCodes_ok hparsedCodes
      refine ⟨forall_mem_cons.mpr ⟨⟨safePath_of_validated hpath, hknown⟩, hrest⟩, ?_⟩
      rw [hresult, hread, map_cons, foldl_cons]
      rfl

theorem extractExactAllowlist_ok {exact_ : ExactBoundaryAllowlist}
    (h : extractExactAllowlist node = .ok exact_) :
    (∀ entry ∈ mapUnder node "exact_allowlist".toList, ExactPath entry) ∧
      exact_ = exactOf (mapUnder node "exact_allowlist".toList) := by
  unfold extractExactAllowlist at h
  unfold mapUnder
  split at h
  · next heq =>
      obtain rfl := ok.inj h
      rw [heq]
      exact ⟨fun _ hmem => (nomatch hmem), rfl⟩
  · next heq =>
      obtain ⟨_, h⟩ := check_bind_eq_ok_iff.mp h
      rw [heq]
      exact parseExactPaths_ok h
  · cases h

/-- The boundary section that a mapping writes. -/
structure ReadsBoundary (node : Node) (boundary : PublicBoundaryPolicy) : Prop where
  pathAllowlist : boundary.pathAllowlist = pathsUnder node "path_allowlist".toList
  exactPaths : ∀ entry ∈ mapUnder node "exact_allowlist".toList, ExactPath entry
  exactAllowlist : boundary.exactAllowlist = exactOf (mapUnder node "exact_allowlist".toList)

theorem extractPublicBoundary_ok {found : Option PublicBoundaryPolicy}
    (h : extractPublicBoundary parsed = .ok found) :
    found = none ∧ mapUnder parsed "public_boundary".toList = [] ∨
      ∃ boundary, found = some boundary ∧
        ReadsBoundary (mapUnder parsed "public_boundary".toList) boundary := by
  obtain ⟨node, hnode, h⟩ := bind_eq_ok_iff.mp h
  rcases sectionOf_ok hnode with ⟨rfl, hempty⟩ | rfl
  · exact .inl ⟨(ok.inj h).symm, hempty⟩
  · obtain ⟨_, h⟩ := check_bind_eq_ok_iff.mp h
    obtain ⟨values, _, h⟩ := bind_eq_ok_iff.mp h
    obtain ⟨allowlist, hallowlist, h⟩ := bind_eq_ok_iff.mp h
    obtain ⟨exact_, hexact, h⟩ := bind_eq_ok_iff.mp h
    obtain ⟨hpaths, hread⟩ := extractExactAllowlist_ok hexact
    exact .inr ⟨_, (ok.inj h).symm, stringSeq_ok hallowlist, hpaths, hread⟩

/-! ## Contracts -/

def RepositoryPolicy.bridges (policy : RepositoryPolicy) : List Str :=
  (policy.documentCoverage.map DocumentCoveragePolicy.bridgeTargets).getD []

/-- The paths of the five classifications. -/
def RepositoryPolicy.classes (policy : RepositoryPolicy) : List (List Str) :=
  (policy.documentCoverage.map DocumentCoveragePolicy.classes).getD []

def RepositoryPolicy.pathLists (policy : RepositoryPolicy) : List (List Str) :=
  (policy.documentCoverage.map DocumentCoveragePolicy.roots).toList ++ (policy.classes ++
    (policy.publicBoundary.map PublicBoundaryPolicy.pathAllowlist).toList ++
    (policy.publicBoundary.map fun boundary => boundary.exactAllowlist.keys).toList)

/-- The digest of a line. -/
def RepositoryPolicy.digestAt (policy : RepositoryPolicy) (path code : Str) (line : ℕ) : Option Str :=
  (((policy.publicBoundary.bind fun boundary => boundary.exactAllowlist.find? path).bind
    fun codes => codes.find? code).bind fun lines => lines.find? line)

/-- What every accepted policy satisfies. -/
structure Contracts (policy : RepositoryPolicy) : Prop where
  safe : ∀ paths ∈ policy.pathLists, ∀ path ∈ paths, SafePath path
  reasons : ∀ dc ∈ policy.documentCoverage, ∀ entry ∈ dc.excludedDocuments.entries, trim entry.2 ≠ []
  bridges : ∀ boundary ∈ policy.publicBoundary, ∀ path ∈ boundary.exactAllowlist.keys,
    path ∈ policy.bridges
  codes : ∀ boundary ∈ policy.publicBoundary, ∀ codes ∈ boundary.exactAllowlist.values,
    ∀ code ∈ codes.keys, code ∈ findingCodes
  lines : ∀ boundary ∈ policy.publicBoundary, ∀ codes ∈ boundary.exactAllowlist.values,
    ∀ lines ∈ codes.values, ∀ line ∈ lines.keys, 0 < line

/-- A digest as it is written under a path and a code. -/
structure DigestEntry where
  path : Str
  code : Str
  line : Str
  digest : Str
  deriving DecidableEq

/-- The digests that a tree writes. -/
def digestEntries (parsed : Node) : List DigestEntry :=
  (mapUnder (mapUnder parsed "public_boundary".toList) "exact_allowlist".toList).flatMap fun path =>
    (entriesOf path.2).flatMap fun code => (entriesOf code.2).map fun line =>
      ⟨path.1, code.1, line.1, textOf line.2⟩

/-- The contracts, with paths compared after their normalization, and with every digest of the tree
under its own number. -/
structure Satisfies (parsed : Node) (policy : RepositoryPolicy) : Prop where
  contracts : Contracts policy
  distinct : ∀ paths ∈ policy.pathLists, (paths.map normalizePath).Nodup
  disjoint : policy.classes.Pairwise fun first second =>
    ∀ path ∈ first, ∀ other ∈ second, normalizePath path ≠ normalizePath other
  present : ∀ entry ∈ digestEntries parsed, ∃ line, parseUsize entry.line = some line ∧
    policy.digestAt entry.path entry.code line = some entry.digest
  apart : ∀ first ∈ digestEntries parsed, ∀ second ∈ digestEntries parsed,
    first.path = second.path → first.code = second.code →
      parseUsize first.line = parseUsize second.line → first = second

/-- No path of a list is spelled in two ways. -/
def OneSpelling (paths : List Str) : Prop :=
  ∀ path ∈ paths, ∀ other ∈ paths, normalizePath path = normalizePath other → path = other

def classKeys : List Str :=
  ["native_bundle".toList, "canonical_documents".toList, "legacy_documents".toList,
    "bridge_targets".toList, "excluded_documents".toList]

/-- A tree that spells each path and each line in one way. -/
structure PlainlySpelled (parsed : Node) : Prop where
  roots : OneSpelling (pathsUnder (mapUnder parsed "document_coverage".toList) "roots".toList)
  classes : OneSpelling
    (classKeys.flatMap (pathsUnder (mapUnder parsed "document_coverage".toList)))
  allowlist : OneSpelling
    (pathsUnder (mapUnder parsed "public_boundary".toList) "path_allowlist".toList)
  lines : ∀ first ∈ digestEntries parsed, ∀ second ∈ digestEntries parsed,
    first.path = second.path → first.code = second.code →
      parseUsize first.line = parseUsize second.line → first.line = second.line

theorem nodup_normalized_iff (h : paths.Nodup) :
    (paths.map normalizePath).Nodup ↔ OneSpelling paths :=
  nodup_map_iff_inj_on h

/-- The sections that the checks of a policy are about. -/
structure Accepted (parsed : Node) (policy : RepositoryPolicy) : Prop where
  coverage : policy.documentCoverage = none ∧ mapUnder parsed "document_coverage".toList = [] ∨
    ∃ dc, policy.documentCoverage = some dc ∧
      ReadsCoverage (mapUnder parsed "document_coverage".toList) dc
  boundary : policy.publicBoundary = none ∧ mapUnder parsed "public_boundary".toList = [] ∨
    ∃ boundary, policy.publicBoundary = some boundary ∧
      ReadsBoundary (mapUnder parsed "public_boundary".toList) boundary
  checkedCoverage : ∀ dc ∈ policy.documentCoverage, validateDocumentCoveragePaths dc = .ok ()
  checkedBoundary : ∀ boundary ∈ policy.publicBoundary,
    checkBoundaryPaths policy.documentCoverage boundary = .ok ()

theorem accepted_of_fromParsed (h : fromParsed parsed = .ok policy) : Accepted parsed policy := by
  obtain ⟨_, _, h⟩ := bind_eq_ok_iff.mp h
  obtain ⟨_, h⟩ := check_bind_eq_ok_iff.mp h
  obtain ⟨_, _, h⟩ := bind_eq_ok_iff.mp h
  obtain ⟨_, _, h⟩ := bind_eq_ok_iff.mp h
  obtain ⟨coverage, hcoverage, h⟩ := bind_eq_ok_iff.mp h
  obtain ⟨_, _, h⟩ := bind_eq_ok_iff.mp h
  obtain ⟨_, _, h⟩ := bind_eq_ok_iff.mp h
  obtain ⟨_, _, h⟩ := bind_eq_ok_iff.mp h
  obtain ⟨boundary, hboundary, h⟩ := bind_eq_ok_iff.mp h
  obtain ⟨hcheckedCoverage, h⟩ := check_bind_eq_ok_iff.mp h
  obtain ⟨hcheckedBoundary, h⟩ := check_bind_eq_ok_iff.mp h
  obtain rfl := ok.inj h
  exact ⟨extractDocumentCoverage_ok hcoverage, extractPublicBoundary_ok hboundary,
    fun dc hdc => forEach_eq_ok_iff.mp hcheckedCoverage dc (Option.mem_toList.mpr hdc),
    fun boundary hmem => forEach_eq_ok_iff.mp hcheckedBoundary boundary (Option.mem_toList.mpr hmem)⟩

/-- What the checks of a coverage section establish. -/
structure SoundCoverage (dc : DocumentCoveragePolicy) : Prop where
  roots : SafePaths dc.roots
  classes : ∀ paths ∈ dc.classes, SafePaths paths
  nodup : dc.classes.flatten.Nodup
  reasons : ∀ entry ∈ dc.excludedDocuments.entries, trim entry.2 ≠ []

theorem soundCoverage {dc : DocumentCoveragePolicy}
    (h : validateDocumentCoveragePaths dc = .ok ()) : SoundCoverage dc := by
  obtain ⟨hroots, h⟩ := check_bind_eq_ok_iff.mp h
  obtain ⟨hnative, h⟩ := check_bind_eq_ok_iff.mp h
  obtain ⟨hcanonical, h⟩ := check_bind_eq_ok_iff.mp h
  obtain ⟨hlegacy, h⟩ := check_bind_eq_ok_iff.mp h
  obtain ⟨hbridges, h⟩ := check_bind_eq_ok_iff.mp h
  obtain ⟨hexcluded, hoverlap⟩ := check_bind_eq_ok_iff.mp h
  have hentries := forEach_eq_ok_iff.mp hexcluded
  have hkeys : SafePaths dc.excludedDocuments.keys := by
    refine ⟨fun path hpath => ?_, dc.excludedDocuments.keys_nodup⟩
    obtain ⟨entry, hentry, rfl⟩ := mem_map.mp hpath
    exact safePath_of_validated (check_bind_eq_ok_iff.mp (hentries entry hentry)).1
  refine ⟨safePaths_of_validated hroots, ?_, nodup_classes hoverlap, fun entry hentry => ?_⟩
  · simp only [DocumentCoveragePolicy.classes, forall_mem_cons]
    exact ⟨safePaths_of_validated hnative, safePaths_of_validated hcanonical,
      safePaths_of_validated hlegacy, safePaths_of_validated hbridges, hkeys,
      fun _ hmem => (nomatch hmem)⟩
  · exact failIf_eq_ok_iff.mp (check_bind_eq_ok_iff.mp (hentries entry hentry)).2

/-- What is stored under a key was written for one of the entries. -/
theorem exists_of_mem_ofList {α K V : Type} [LinearOrder K] {items : List α} {f : α → K × V}
    {stored : K × V} (h : stored ∈ (OrdMap.ofList (items.map f)).entries) :
    ∃ item ∈ items, f item = stored := by
  have hgeneral : ∀ (pairs : List (K × V)) (map : OrdMap K V),
      stored ∈ (pairs.foldl (fun map entry => map.insert entry.1 entry.2) map).entries →
        stored ∈ map.entries ∨ stored ∈ pairs := by
    intro pairs
    induction pairs with
    | nil => exact fun _ h => .inl h
    | cons entry rest ih =>
        intro map h
        rcases ih _ h with hmem | hmem
        · obtain ⟨key, value⟩ := stored
          have hfind := mem_entries_iff.mp hmem
          rw [find?_insert] at hfind
          split_ifs at hfind with hkey
          · rw [← hkey, ← some.inj hfind]
            exact .inr mem_cons_self
          · exact .inl (mem_entries_iff.mpr hfind)
        · exact .inr (mem_cons_of_mem _ hmem)
  exact mem_map.mp ((hgeneral _ _ h).resolve_left not_mem_nil)

theorem Accepted.readsBoundary (h : Accepted parsed policy) {boundary : PublicBoundaryPolicy}
    (hboundary : boundary ∈ policy.publicBoundary) :
    ReadsBoundary (mapUnder parsed "public_boundary".toList) boundary := by
  rcases h.boundary with ⟨hnone, _⟩ | ⟨boundary', hsome, hreads⟩
  · rw [hnone] at hboundary
    cases hboundary
  · rw [hsome] at hboundary
    obtain rfl := some.inj hboundary
    exact hreads

theorem Accepted.bridges (h : Accepted parsed policy) :
    ∀ boundary ∈ policy.publicBoundary, ∀ path ∈ boundary.exactAllowlist.keys,
      path ∈ policy.bridges := by
  intro boundary hboundary
  obtain ⟨_, hbridges⟩ := check_bind_eq_ok_iff.mp (h.checkedBoundary boundary hboundary)
  have hnone := failIf_eq_ok_iff.mp hbridges
  push Not at hnone
  exact hnone

theorem mem_pathLists :
    paths ∈ policy.pathLists ↔
      (∃ dc ∈ policy.documentCoverage, paths = dc.roots ∨ paths ∈ dc.classes) ∨
        ∃ boundary ∈ policy.publicBoundary,
          paths = boundary.pathAllowlist ∨ paths = boundary.exactAllowlist.keys := by
  rw [RepositoryPolicy.pathLists, RepositoryPolicy.classes]
  cases policy.documentCoverage <;> cases policy.publicBoundary <;> simp [or_assoc]

/-- Every list of paths is safe and has no path spelled twice. -/
theorem Accepted.safePaths (h : Accepted parsed policy) :
    ∀ paths ∈ policy.pathLists, SafePaths paths := by
  intro paths hpaths
  rcases mem_pathLists.mp hpaths with ⟨dc, hdc, hlist⟩ | ⟨boundary, hboundary, hlist⟩
  · have hsound := soundCoverage (h.checkedCoverage dc hdc)
    rcases hlist with rfl | hlist
    · exact hsound.roots
    · exact hsound.classes paths hlist
  · rcases hlist with rfl | rfl
    · exact safePaths_of_validated (check_bind_eq_ok_iff.mp (h.checkedBoundary boundary hboundary)).1
    · have hreads := h.readsBoundary hboundary
      refine ⟨fun path hpath => ?_, keys_nodup _⟩
      rw [hreads.exactAllowlist, exactOf] at hpath
      obtain ⟨_, hstored, rfl⟩ := mem_map.mp hpath
      obtain ⟨entry, hentry, rfl⟩ := exists_of_mem_ofList hstored
      exact (hreads.exactPaths entry hentry).1

theorem contracts_of_accepted (h : Accepted parsed policy) : Contracts policy := by
  have hexact : ∀ boundary ∈ policy.publicBoundary, ∀ codes ∈ boundary.exactAllowlist.values,
      ∃ entry, ExactPath entry ∧ codes = codesOf (entriesOf entry.2) := by
    intro boundary hboundary codes hcodes
    have hreads := h.readsBoundary hboundary
    rw [hreads.exactAllowlist, exactOf] at hcodes
    obtain ⟨_, hstored, rfl⟩ := mem_map.mp hcodes
    obtain ⟨entry, hentry, rfl⟩ := exists_of_mem_ofList hstored
    exact ⟨entry, hreads.exactPaths entry hentry, rfl⟩
  refine ⟨fun paths hpaths => (h.safePaths paths hpaths).safe,
    fun dc hdc => (soundCoverage (h.checkedCoverage dc hdc)).reasons, h.bridges,
    fun boundary hboundary codes hcodes code hcode => ?_,
    fun boundary hboundary codes hcodes lines hlines line hline => ?_⟩
  · obtain ⟨entry, hentry, rfl⟩ := hexact boundary hboundary codes hcodes
    obtain ⟨_, hstored, rfl⟩ := mem_map.mp hcode
    obtain ⟨other, hother, rfl⟩ := exists_of_mem_ofList hstored
    exact (hentry.2 other hother).1
  · obtain ⟨entry, hentry, rfl⟩ := hexact boundary hboundary codes hcodes
    obtain ⟨_, hstored, rfl⟩ := mem_map.mp hlines
    obtain ⟨other, hother, rfl⟩ := exists_of_mem_ofList hstored
    obtain ⟨_, hkey, rfl⟩ := mem_map.mp hline
    obtain ⟨last, hlast, rfl⟩ := exists_of_mem_ofList hkey
    exact ((hentry.2 other hother).2 last hlast).2

/-! ## Spellings -/

theorem OneSpelling.mono {some_ : List Str} (h : OneSpelling paths)
    (hsubset : ∀ path ∈ some_, path ∈ paths) : OneSpelling some_ :=
  fun path hpath other hother => h path (hsubset path hpath) other (hsubset other hother)

theorem mem_classes_iff {dc : DocumentCoveragePolicy} (h : ReadsCoverage node dc) (path : Str) :
    path ∈ dc.classes.flatten ↔ path ∈ classKeys.flatMap (pathsUnder node) := by
  simp only [DocumentCoveragePolicy.classes, classKeys, flatten_cons, flatten_nil,
    flatMap_cons, flatMap_nil, mem_append, h.nativeBundle, h.canonicalDocuments,
    h.legacyDocuments, h.bridgeTargets, h.excludedDocuments]

/-- Lists without a repetition of their own or of one another. -/
theorem nodup_normalized_flatten_iff {lists : List (List Str)} :
    (lists.flatten.map normalizePath).Nodup ↔ (∀ paths ∈ lists, (paths.map normalizePath).Nodup) ∧
      lists.Pairwise fun first second =>
        ∀ path ∈ first, ∀ other ∈ second, normalizePath path ≠ normalizePath other := by
  rw [map_flatten, nodup_flatten, List.forall_mem_map, pairwise_map]
  refine and_congr_right fun _ => List.Pairwise.iff fun first second => ?_
  constructor
  · intro hdisjoint path hpath other hother heq
    exact hdisjoint (mem_map.mpr ⟨path, hpath, rfl⟩) (mem_map.mpr ⟨other, hother, heq.symm⟩)
  · intro hne segments hfirst hsecond
    obtain ⟨path, hpath, rfl⟩ := mem_map.mp hfirst
    obtain ⟨other, hother, heq⟩ := mem_map.mp hsecond
    exact hne path hpath other hother heq.symm

/-- The paths of a policy are apart after their normalization exactly if none is spelled in two
ways. -/
theorem Accepted.paths_iff (h : Accepted parsed policy) :
    ((∀ paths ∈ policy.pathLists, (paths.map normalizePath).Nodup) ∧
      policy.classes.Pairwise fun first second =>
        ∀ path ∈ first, ∀ other ∈ second, normalizePath path ≠ normalizePath other) ↔
      OneSpelling (pathsUnder (mapUnder parsed "document_coverage".toList) "roots".toList) ∧
        OneSpelling (classKeys.flatMap (pathsUnder (mapUnder parsed "document_coverage".toList))) ∧
        OneSpelling
          (pathsUnder (mapUnder parsed "public_boundary".toList) "path_allowlist".toList) := by
  have hnil : OneSpelling [] := fun _ hmem => (nomatch hmem)
  constructor
  · rintro ⟨hdistinct, hdisjoint⟩
    have hone : ∀ paths ∈ policy.pathLists, OneSpelling paths := fun paths hpaths =>
      (nodup_normalized_iff (h.safePaths paths hpaths).nodup).mp (hdistinct paths hpaths)
    refine ⟨?_, ?_, ?_⟩
    · rcases h.coverage with ⟨_, hempty⟩ | ⟨dc, hsome, hreads⟩
      · rw [hempty]
        exact hnil
      · rw [← hreads.roots]
        exact hone _ (mem_pathLists.mpr (.inl ⟨dc, hsome, .inl rfl⟩))
    · rcases h.coverage with ⟨_, hempty⟩ | ⟨dc, hsome, hreads⟩
      · rw [hempty]
        exact hnil
      · rw [RepositoryPolicy.classes, hsome] at hdisjoint
        have hnodup := (soundCoverage (h.checkedCoverage dc hsome)).nodup
        have hnormalized := nodup_normalized_flatten_iff.mpr ⟨fun paths hpaths =>
          hdistinct paths (mem_pathLists.mpr (.inl ⟨dc, hsome, .inr hpaths⟩)), hdisjoint⟩
        exact ((nodup_normalized_iff hnodup).mp hnormalized).mono fun path hpath =>
          (mem_classes_iff hreads path).mpr hpath
    · rcases h.boundary with ⟨_, hempty⟩ | ⟨boundary, hsome, hreads⟩
      · rw [hempty]
        exact hnil
      · rw [← hreads.pathAllowlist]
        exact hone _ (mem_pathLists.mpr (.inr ⟨boundary, hsome, .inl rfl⟩))
  · rintro ⟨hroots, hclasses, hallowlist⟩
    have hflat : ∀ dc ∈ policy.documentCoverage, OneSpelling dc.classes.flatten := by
      intro dc hdc
      rcases h.coverage with ⟨hnone, _⟩ | ⟨dc', hsome, hreads⟩
      · rw [hnone] at hdc
        cases hdc
      · rw [hsome] at hdc
        obtain rfl := some.inj hdc
        exact hclasses.mono fun path hpath => (mem_classes_iff hreads path).mp hpath
    refine ⟨fun paths hpaths => ?_, ?_⟩
    · refine (nodup_normalized_iff (h.safePaths paths hpaths).nodup).mpr ?_
      rcases mem_pathLists.mp hpaths with ⟨dc, hdc, hlist⟩ | ⟨boundary, hboundary, hlist⟩
      · rcases hlist with rfl | hlist
        · rcases h.coverage with ⟨hnone, _⟩ | ⟨dc', hsome, hreads⟩
          · rw [hnone] at hdc
            cases hdc
          · rw [hsome] at hdc
            obtain rfl := some.inj hdc
            rw [hreads.roots]
            exact hroots
        · exact (hflat dc hdc).mono fun path hpath => mem_flatten.mpr ⟨paths, hlist, hpath⟩
      · rcases hlist with rfl | rfl
        · rw [(h.readsBoundary hboundary).pathAllowlist]
          exact hallowlist
        · -- the exact paths are bridge targets, which are classified
          have hbridges := h.bridges boundary hboundary
          rw [RepositoryPolicy.bridges] at hbridges
          cases hcoverage : policy.documentCoverage with
          | none =>
              rw [hcoverage] at hbridges
              exact hnil.mono fun path hpath => hbridges path hpath
          | some dc =>
              rw [hcoverage] at hbridges
              refine (hflat dc hcoverage).mono fun path hpath => ?_
              exact mem_flatten.mpr ⟨dc.bridgeTargets, by simp [DocumentCoveragePolicy.classes],
                hbridges path hpath⟩
    · rw [RepositoryPolicy.classes]
      cases hcoverage : policy.documentCoverage with
      | none => exact List.Pairwise.nil
      | some dc =>
          have hnodup := (soundCoverage (h.checkedCoverage dc hcoverage)).nodup
          exact (nodup_normalized_flatten_iff.mp
            ((nodup_normalized_iff hnodup).mpr (hflat dc hcoverage))).2

/-! ## Digests -/

theorem Ordered.keys_nodup (h : Ordered (.map node)) : (node.map Prod.fst).Nodup := by
  cases h with
  | map _ hkeys _ => exact hkeys

theorem Ordered.value (h : Ordered (.map node)) {entry : Str × YamlValue} (hentry : entry ∈ node) :
    Ordered entry.2 := by
  cases h with
  | map _ _ hvalues => exact hvalues entry hentry

theorem Ordered.entriesOf {value : YamlValue} (h : Ordered value) :
    Ordered (.map (Policy.entriesOf value)) := by
  cases h with
  | scalar text | seq items => exact .map [] nodup_nil fun _ hmem => (nomatch hmem)
  | map entries hkeys hvalues => exact .map entries hkeys hvalues

theorem mem_of_findEntry {key : Str} {value : YamlValue}
    (h : OrdMap.findEntry key node = some value) : (key, value) ∈ node := by
  induction node with
  | nil => cases h
  | cons entry rest ih =>
      obtain ⟨other, text⟩ := entry
      rw [OrdMap.findEntry] at h
      split_ifs at h with hkey
      · rw [hkey, some.inj h]
        exact mem_cons_self
      · exact mem_cons_of_mem _ (ih h)

theorem Ordered.mapUnder (h : Ordered (.map node)) (key : Str) :
    Ordered (.map (Policy.mapUnder node key)) := by
  rw [Policy.mapUnder]
  cases hfind : OrdMap.findEntry key node with
  | none => exact .map [] nodup_nil fun _ hmem => (nomatch hmem)
  | some value => exact (h.value (mem_of_findEntry hfind)).entriesOf

/-- A digest stands under a path, a code and a line of the tree. -/
theorem mem_digestEntries {entry : DigestEntry} :
    entry ∈ digestEntries parsed ↔
      ∃ path ∈ mapUnder (mapUnder parsed "public_boundary".toList) "exact_allowlist".toList,
        ∃ code ∈ entriesOf path.2, ∃ line ∈ entriesOf code.2,
          entry = ⟨path.1, code.1, line.1, textOf line.2⟩ := by
  simp only [digestEntries, mem_flatMap, mem_map, eq_comm]

/-- Two digests of one line key under one code are the same. -/
theorem eq_of_line_eq (h : Ordered (.map parsed)) {first second : DigestEntry}
    (hfirst : first ∈ digestEntries parsed) (hsecond : second ∈ digestEntries parsed)
    (hpath : first.path = second.path) (hcode : first.code = second.code)
    (hline : first.line = second.line) : first = second := by
  obtain ⟨path, hpathMem, code, hcodeMem, line, hlineMem, rfl⟩ := mem_digestEntries.mp hfirst
  obtain ⟨path', hpathMem', code', hcodeMem', line', hlineMem', rfl⟩ := mem_digestEntries.mp hsecond
  have hpaths := (h.mapUnder "public_boundary".toList).mapUnder "exact_allowlist".toList
  obtain rfl := inj_on_of_nodup_map hpaths.keys_nodup hpathMem hpathMem' hpath
  have hcodes := (hpaths.value hpathMem).entriesOf
  obtain rfl := inj_on_of_nodup_map hcodes.keys_nodup hcodeMem hcodeMem' hcode
  have hlines := (hcodes.value hcodeMem).entriesOf
  obtain rfl := inj_on_of_nodup_map hlines.keys_nodup hlineMem hlineMem' hline
  rfl

/-- Where no line is spelled in two ways, each digest is stored under its number. -/
theorem Accepted.digestAt (h : Accepted parsed policy) (hordered : Ordered (.map parsed)) (hspelled
    : ∀ first ∈ digestEntries parsed, ∀ second ∈ digestEntries parsed, first.path = second.path →
    first.code = second.code → parseUsize first.line = parseUsize second.line → first.line =
    second.line) {entry : DigestEntry} (hentry : entry ∈ digestEntries parsed) :
    ∃ line, parseUsize entry.line = some line ∧
      policy.digestAt entry.path entry.code line = some entry.digest := by
  obtain ⟨path, hpath, code, hcode, line, hline, rfl⟩ := mem_digestEntries.mp hentry
  have hpaths := (hordered.mapUnder "public_boundary".toList).mapUnder "exact_allowlist".toList
  have hcodes := (hpaths.value hpath).entriesOf
  have hlines := (hcodes.value hcode).entriesOf
  rcases h.boundary with ⟨_, hempty⟩ | ⟨boundary, hsome, hreads⟩
  · rw [hempty] at hpath
    cases hpath
  have hpositive : ∀ other ∈ entriesOf code.2, PositiveLine other :=
    ((hreads.exactPaths path hpath).2 code hcode).2
  have hfindPath : boundary.exactAllowlist.find? path.1 = some (codesOf (entriesOf path.2)) := by
    rw [hreads.exactAllowlist, exactOf, find?_ofList (by rw [map_map]; exact hpaths.keys_nodup)]
    exact mem_map.mpr ⟨path, hpath, rfl⟩
  have hfindCode : (codesOf (entriesOf path.2)).find? code.1 = some (linesOf (entriesOf code.2)) := by
    rw [codesOf, find?_ofList (by rw [map_map]; exact hcodes.keys_nodup)]
    exact mem_map.mpr ⟨code, hcode, rfl⟩
  have hnumbers : ((entriesOf code.2).map fun other => numberOf other.1).Nodup := by
    refine List.Nodup.map_on ?_ hlines.keys_nodup.of_map
    intro first hfirst second hsecond hsame
    have hparse : parseUsize first.1 = parseUsize second.1 := by
      rw [(hpositive first hfirst).1, (hpositive second hsecond).1, hsame]
    have hspelling := hspelled ⟨path.1, code.1, first.1, textOf first.2⟩
      (mem_digestEntries.mpr ⟨path, hpath, code, hcode, first, hfirst, rfl⟩)
      ⟨path.1, code.1, second.1, textOf second.2⟩
      (mem_digestEntries.mpr ⟨path, hpath, code, hcode, second, hsecond, rfl⟩) rfl rfl hparse
    exact inj_on_of_nodup_map hlines.keys_nodup hfirst hsecond hspelling
  have hfindLine : (linesOf (entriesOf code.2)).find? (numberOf line.1) = some (textOf line.2) := by
    rw [linesOf, find?_ofList (by rw [map_map]; exact hnumbers)]
    exact mem_map.mpr ⟨line, hline, rfl⟩
  refine ⟨numberOf line.1, (hpositive line hline).1, ?_⟩
  rw [RepositoryPolicy.digestAt, hsome, bind_some, hfindPath, bind_some, hfindCode,
    bind_some, hfindLine]

/-! ## Accepted texts -/

theorem satisfies_iff (h : Accepted parsed policy) (hordered : Ordered (.map parsed)) :
    Satisfies parsed policy ↔ PlainlySpelled parsed := by
  constructor
  · intro hsatisfies
    obtain ⟨hroots, hclasses, hallowlist⟩ :=
      h.paths_iff.mp ⟨hsatisfies.distinct, hsatisfies.disjoint⟩
    exact ⟨hroots, hclasses, hallowlist, fun first hfirst second hsecond hpath hcode hline =>
      congrArg DigestEntry.line (hsatisfies.apart first hfirst second hsecond hpath hcode hline)⟩
  · intro hspelled
    obtain ⟨hdistinct, hdisjoint⟩ :=
      h.paths_iff.mpr ⟨hspelled.roots, hspelled.classes, hspelled.allowlist⟩
    exact ⟨contracts_of_accepted h, hdistinct, hdisjoint,
      fun entry hentry => h.digestAt hordered hspelled.lines hentry,
      fun first hfirst second hsecond hpath hcode hline => eq_of_line_eq hordered hfirst hsecond hpath
        hcode (hspelled.lines first hfirst second hsecond hpath hcode hline)⟩

/-- An accepted policy satisfies its contracts exactly if the tree of its text, which holds all that
the lines of the text hold, spells each path and each line number in one way. -/
theorem satisfies_iff_plainlySpelled {raw : Str} {policy : RepositoryPolicy}
    (h : parseFromString raw = .ok policy) : ∃ tokens parsed, tokenize raw = .ok tokens ∧
      parsePolicyYaml raw = .ok parsed ∧
      (tokens.flatMap Token.written).Perm (nodeWritten parsed) ∧ Contracts policy ∧
      (Satisfies parsed policy ↔ PlainlySpelled parsed) := by
  obtain ⟨_, h⟩ := check_bind_eq_ok_iff.mp h
  obtain ⟨parsed, hparsed, h⟩ := bind_eq_ok_iff.mp h
  obtain ⟨tokens, htokens, hwritten, hordered⟩ := parsePolicyYaml_spec hparsed
  have haccepted := accepted_of_fromParsed h
  exact ⟨tokens, parsed, htokens, hparsed, hwritten, contracts_of_accepted haccepted,
    satisfies_iff haccepted hordered⟩

/-- A policy that exempts lines of a bridge target. -/
def exemptingPolicy (exempted : Str) : Str :=
  "schema_version: 1\ndocument_coverage:\n  bridge_targets: [b]\n".toList ++
    "public_boundary:\n  exact_allowlist:\n    b:\n      private_home_path:\n".toList ++ exempted

/-- The digest of a line, all of one digit. -/
def exemptedLine (number : Str) (digit : Char) : Str :=
  List.replicate 8 ' ' ++ number ++ ':' :: ' ' :: List.replicate 64 digit ++ ['\n']

/-- A policy with one exempted line is accepted. -/
theorem satisfies_iff_plainlySpelled_zero : ∃ policy tokens parsed,
    parseFromString (exemptingPolicy (exemptedLine ['1'] '0')) = .ok policy ∧
      tokenize (exemptingPolicy (exemptedLine ['1'] '0')) = .ok tokens ∧
      parsePolicyYaml (exemptingPolicy (exemptedLine ['1'] '0')) = .ok parsed ∧
      (tokens.flatMap Token.written).Perm (nodeWritten parsed) ∧ Contracts policy ∧
      (Satisfies parsed policy ↔ PlainlySpelled parsed) := by
  have haccepted : (parseFromString (exemptingPolicy (exemptedLine ['1'] '0'))).toOption.isSome = true := by
    decide +kernel
  cases hpolicy : parseFromString (exemptingPolicy (exemptedLine ['1'] '0')) with
  | error error =>
      rw [hpolicy] at haccepted
      cases haccepted
  | ok policy =>
      obtain ⟨tokens, parsed, h⟩ := satisfies_iff_plainlySpelled hpolicy
      exact ⟨policy, tokens, parsed, rfl, h⟩

/-- Two digests for one line. -/
def twiceExempted : Str := exemptedLine ['0', '1'] '1' ++ exemptedLine ['1'] '0'

/-- Of two digests for line 1, one of them written for line 01, only one is kept. -/
theorem not_satisfies_padded : ∃ policy parsed,
    parseFromString (exemptingPolicy twiceExempted) = .ok policy ∧
      parsePolicyYaml (exemptingPolicy twiceExempted) = .ok parsed ∧
      ¬ Satisfies parsed policy := by
  have haccepted : (parseFromString (exemptingPolicy twiceExempted)).toOption.isSome =
      true := by decide +kernel
  have hlines : (parsePolicyYaml (exemptingPolicy twiceExempted)).toOption.map
      digestEntries = some
        [⟨['b'], "private_home_path".toList, ['0', '1'], List.replicate 64 '1'⟩,
          ⟨['b'], "private_home_path".toList, ['1'], List.replicate 64 '0'⟩] := by
    decide +kernel
  cases hpolicy : parseFromString (exemptingPolicy twiceExempted) with
  | error error =>
      rw [hpolicy] at haccepted
      cases haccepted
  | ok policy =>
      cases hparsed : parsePolicyYaml (exemptingPolicy twiceExempted) with
      | error error =>
          rw [hparsed] at hlines
          cases hlines
      | ok parsed =>
          refine ⟨policy, parsed, rfl, rfl, fun hsatisfies => ?_⟩
          rw [hparsed] at hlines
          have hentries := Option.some.inj hlines
          have hsame := hsatisfies.apart
            ⟨['b'], "private_home_path".toList, ['0', '1'], List.replicate 64 '1'⟩
            (by rw [hentries]; exact mem_cons_self)
            ⟨['b'], "private_home_path".toList, ['1'], List.replicate 64 '0'⟩
            (by rw [hentries]; exact mem_cons_of_mem _ mem_cons_self) rfl rfl
            (by decide +kernel)
          exact absurd (congrArg DigestEntry.line hsame) (by decide)

end Bran.Policy
