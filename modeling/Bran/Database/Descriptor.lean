import Bran.Database.SqlGate

/-!
# Database descriptors

The validated descriptors of `database/mod.rs`: what an evidence source and a state store are
configured with.  Each field that the parsers check carries its check.
-/

namespace Bran.Database

/-- `valid_name`: `[a-z0-9][a-z0-9._-]{0,63}`. -/
def validName (value : Str) : Bool :=
  value ≠ [] && Text.byteLen value ≤ 64 && value.head?.any (fun c => c.isLower || c.isDigit) &&
    value.all fun c => c.isLower || c.isDigit || c = '.' || c = '_' || c = '-'

/-- `safe_relative_path`: `[A-Za-z0-9._-]` segments, no `.` or `..`, at most 256 bytes. -/
def safeRelativePath (value : Str) : Bool :=
  value ≠ [] && Text.byteLen value ≤ 256 && (value.splitOn '/').all fun segment =>
    segment ≠ [] && segment ≠ ['.'] && segment ≠ ['.', '.'] &&
      segment.all fun c => c.isAlphanum || c = '.' || c = '_' || c = '-'

/-- `is_digest`. -/
def isDigestText (value : Str) : Bool :=
  (Text.stripStart "sha256:".toList value).any Agent.isDigest

/-! ## Credentials -/

inductive CredentialScope
  | evidence
  | state
  deriving DecidableEq

structure CredentialReference where
  scope : CredentialScope
  name : Str
  valid : validName name = true
  deriving DecidableEq

/-! ## Evidence sources -/

inductive Engine
  | sqlite
  | postgresql
  deriving DecidableEq

inductive AccessMode
  | introspection
  | boundedRows
  deriving DecidableEq

structure EvidenceLimits where
  maxRows : ℕ
  maxBytes : ℕ
  timeoutMs : ℕ
  valid : 1 ≤ maxRows ∧ maxRows ≤ 10000 ∧ 1 ≤ maxBytes ∧ maxBytes ≤ 4 * 1024 * 1024 ∧
    1 ≤ timeoutMs ∧ timeoutMs ≤ 60000
  deriving DecidableEq

structure EvidenceSourceDescriptor where
  id : Str
  engine : Engine
  database : Str
  credential : Option CredentialReference
  access : AccessMode
  relations : List RelationName
  queries : List Str
  snapshot : Option Str
  limits : EvidenceLimits
  validId : validName id = true
  validDatabase : match engine with
    | .sqlite => safeRelativePath database = true ∧ credential = none
    | .postgresql => validName database = true ∧ credential.isSome = true
  validRelations : relations ≠ [] ∧ relations.Pairwise (· < ·)
  validQueries : ∀ query ∈ queries, isDigestText query = true
  validSnapshot : ∀ value ∈ snapshot, isDigestText value = true
  deriving DecidableEq

/-! ## State stores -/

inductive StateBackend
  | file
  | sqlite
  | postgresql
  deriving DecidableEq

structure StateStoreDescriptor where
  id : Str
  backend : StateBackend
  location : Str
  namespaceName : Str
  quotaBytes : ℕ
  credential : Option CredentialReference
  encryptionKey : Option CredentialReference
  validId : validName id = true
  validLocation : safeRelativePath location = true
  validNamespace : validName namespaceName = true
  validQuota : 1 ≤ quotaBytes ∧ quotaBytes ≤ 2 ^ 30
  validCredential : credential.isSome = true ↔ backend = .postgresql
  deriving DecidableEq

/-! ## Texts -/

/-- `RelationName::to_string`. -/
def RelationName.text (name : RelationName) : Str := name.schema ++ '.' :: name.relation

def AccessMode.asStr : AccessMode → Str
  | .introspection => "introspection".toList
  | .boundedRows => "bounded-rows".toList

def Engine.asStr : Engine → Str
  | .sqlite => "sqlite".toList
  | .postgresql => "postgresql".toList

def CredentialScope.asStr : CredentialScope → Str
  | .evidence => "evidence".toList
  | .state => "state".toList

/-- `CredentialReference::to_string`. -/
def CredentialReference.text (reference : CredentialReference) : Str :=
  "credref:".toList ++ reference.scope.asStr ++ '/' :: reference.name

def QueryDerivation.asStr : QueryDerivation → Str
  | .projection => "projection".toList
  | .query => "query".toList

end Bran.Database
