import Bran.Agent.Ports

/-!
# Delegation requests and grounding contracts

The values of `agent/delegate.rs`: what a request may ask for, which evidence its grounding
contract admits, and how the support of a claim is verified against the current files.
-/

namespace Bran.Agent

open Text Validation Packet Program AgentCall

/-! ## Locators -/

/-- `path::Component` of a Unix path. -/
inductive Component where
  | rootDir
  | curDir
  | parentDir
  | normal (name : Str)
  deriving DecidableEq

/-- The component of a part of a path that is not empty. -/
def componentOf (part : Str) : Component :=
  if part = ['.'] then .curDir
  else if part = ['.', '.'] then .parentDir
  else .normal part

/-- `Path::components`: empty parts are skipped, and so is a dot that is not at the front. -/
def components (path : Str) : List Component :=
  let parts := (path.splitOn '/').filter (· ≠ [])
  let front := parts.take 1
  let rest := (parts.drop 1).filter (· ≠ ['.'])
  if path.head? = some '/' then
    .rootDir :: ((parts.filter (· ≠ ['.'])).map componentOf)
  else (front ++ rest).map componentOf

def Component.name? : Component → Option Str
  | .normal name => some name
  | _ => none

def validLocator (locator : Str) : Bool :=
  !locator.isEmpty && decide (byteLen locator ≤ 1024) && isPublicDlpSafe locator &&
    (components locator).all fun component => component.name?.isSome

/-! ## Evidence -/

structure AdmittedEvidence where
  locator : Str
  contentDigest : Str
  valid : validLocator locator = true ∧ validSha256 contentDigest = true
  deriving DecidableEq

/-- `GroundingContract`: its locators and its evidence are sorted, as its constructors leave
them. -/
structure GroundingContract where
  admittedCitationLocators : List Str
  admittedEvidence : List AdmittedEvidence
  repositoryRoot : Option Files.Path
  preservationAnchors : List PreservationAnchor
  sortedLocators : admittedCitationLocators.Pairwise (· < ·)
  sortedEvidence : (admittedEvidence.map AdmittedEvidence.locator).Pairwise (· < ·)

namespace GroundingContract

variable (contract : GroundingContract)

/-- `admits_citation`, a binary search in a sorted list. -/
def admitsCitation (locator : Str) : Bool := decide (locator ∈ contract.admittedCitationLocators)

/-- `admitted_evidence`, a binary search in a sorted list. -/
def admittedEvidenceFor (locator : Str) : Option AdmittedEvidence :=
  contract.admittedEvidence.find? fun evidence => evidence.locator = locator

def hasVerifiableEvidence : Bool :=
  contract.repositoryRoot.isSome && !contract.admittedEvidence.isEmpty

end GroundingContract

/-! ## The current files -/

def maxFileBytes : ℕ := 1024 * 1024

section

variable {K : Type}

/-- The loop of `read_current_file` over the components below the root: no symbolic link, and
directories up to the last one. -/
def walkComponents (joined : Files.Path) : List Str → Coordination K Unit Files.Path
  | [] => pure joined
  | name :: rest => do
      let found ← askSymlinkMetadata (joined ++ [name])
      let metadata ← ofOption found
      ofExcept (failIf (metadata.fileType = .symlink ∨
        (rest ≠ [] ∧ metadata.fileType ≠ .directory)) ())
      walkComponents (joined ++ [name]) rest

/-- The file that was opened is the one that was found. -/
def sameFile (found opened : Metadata) : Bool := found.dev == opened.dev && found.ino == opened.ino

/-- The opened file has not changed while it was read. -/
def unchangedFile (opened final : Metadata) : Bool :=
  sameFile opened final && opened.len == final.len && opened.mtime == final.mtime &&
    opened.mtimeNsec == final.mtimeNsec

/-- `read_current_file` from the opening of the file on. -/
def readCanonical (found : Metadata) (canonical : Files.Path) :
    Coordination K Unit (List UInt8) := do
  let opened ← askOpenFile canonical
  let opened ← ofOption opened
  ofExcept (failIf (sameFile found opened = false) ())
  let content ← askReadToEnd canonical
  let content ← ofOption content
  ofExcept (failIf (maxFileBytes < (content.take (maxFileBytes + 1)).length) ())
  let final ← askMetadata canonical
  let final ← ofOption final
  ofExcept (failIf (unchangedFile opened final = false) ())
  pure (content.take (maxFileBytes + 1))

def readCurrentFile (root : Files.Path) (locator : Str) : Coordination K Unit (List UInt8) := do
  ofExcept (failIf (validLocator locator = false) ())
  let joined ← walkComponents root ((components locator).filterMap Component.name?)
  let found ← askSymlinkMetadata joined
  let found ← ofOption found
  ofExcept (failIf (found.fileType ≠ .file ∨ found.len > maxFileBytes) ())
  let canonical ← askCanonicalize joined
  let canonical ← ofOption canonical
  ofExcept (failIf (¬ root <+: canonical ∨ canonical = root) ())
  readCanonical found canonical

/-- What `verifies_support` looks at in a claim. -/
structure SupportClaim where
  locator : Str
  contentDigest : Str
  support : Str

/-- The part of the loop of `verifies_support` that needs no file. -/
def admitsClaim (contract : GroundingContract) (count : ℕ) (claim : SupportClaim) : Bool :=
  decide (count ≤ 128) && decide (minClaimSupportBytes ≤ byteLen (trim claim.support)) &&
    decide (byteLen claim.support ≤ 65536) &&
    (contract.admittedEvidenceFor claim.locator).any fun admitted =>
      claim.contentDigest == admitted.contentDigest

/-- The bytes of a file in the loop of `verifies_support`: those read before, or those of a file
with the admitted digest. -/
def currentContent (root : Files.Path) (current : OrdMap Str (List UInt8)) (claim : SupportClaim) :
    Coordination K Unit (List UInt8) :=
  match current.find? claim.locator with
  | some content => pure content
  | none => do
      let content ← readCurrentFile root claim.locator
      ofExcept (failIf ((ResultId.sha256 content).value ≠ claim.contentDigest) ())
      pure content

/-- The loop of `verifies_support`. -/
def verifyClaims (contract : GroundingContract) (root : Files.Path) :
    List SupportClaim → ℕ → OrdMap Str (List UInt8) → Coordination K Unit Unit
  | [], count, _ => ofExcept (failIf (count = 0) ())
  | claim :: rest, count, current => do
      ofExcept (failIf (admitsClaim contract (count + 1) claim = false) ())
      let content ← currentContent root current claim
      ofExcept (failIf (¬ bytes claim.support <:+: content) ())
      -- bytes that were read before are entered again, unchanged
      verifyClaims contract root rest (count + 1) (current.insert claim.locator content)

/-- `verifies_support`; it answers `true` where this ends. -/
def verifiesSupport (contract : GroundingContract) (claims : List SupportClaim) :
    Coordination K Unit Unit := do
  let root ← ofOption contract.repositoryRoot
  verifyClaims contract root claims 0 OrdMap.empty

end

/-! ## Requests -/

/-- `is_valid_identity` of the requests. -/
def Delegate.isValidIdentity (s : Str) : Bool := validNameOf 64 identityChar s

/-- `DelegationRequest`, with what `DelegationRequest::new` checks. -/
structure DelegationRequest where
  profile : Str
  prompt : Str
  providerOverride : Option Str
  modelOverride : Option Str
  reasoningOverride : Option ReasoningLevel
  toolPolicy : ToolPolicy
  noSession : Bool
  maxOutputBytes : ℕ
  hardTotalTokenCeiling : Option ℕ
  maxOutputTokens : Option ℕ
  delegationDepth : ℕ
  groundingContract : Option GroundingContract
  validProfile : Delegate.isValidIdentity profile = true
  validPrompt : isBlank prompt = false ∧ byteLen prompt ≤ 65536
  validOverrides : (∀ value ∈ providerOverride, Delegate.isValidIdentity value = true) ∧
    ∀ value ∈ modelOverride, Delegate.isValidIdentity value = true
  validMaxOutput : 1 ≤ maxOutputBytes ∧ maxOutputBytes ≤ 1048576
  validBudget : hardTotalTokenCeiling ≠ some 0 ∧ maxOutputTokens ≠ some 0 ∧
    ∀ output ∈ maxOutputTokens, ∃ ceiling ∈ hardTotalTokenCeiling, output ≤ ceiling
  validDepth : delegationDepth ≤ 8

end Bran.Agent
