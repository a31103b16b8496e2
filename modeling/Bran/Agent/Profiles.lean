import Bran.Adapters.Sqz

/-!
# Agent profiles

The identities of `agent/mod.rs`: profiles, tool policies and the registries of providers, models
and profiles.  Four modules of the source have a validator of identities of their own; all of them
are `validNameOf` with the same parameters.
-/

namespace Bran.Agent

open Text Adapters

/-! ## Names -/

/-- A name of at most `limit` bytes over some characters. -/
def validNameOf (limit : ℕ) (allowed : Char → Bool) (name : Str) : Bool :=
  decide (1 ≤ byteLen name ∧ byteLen name ≤ limit) && name.all allowed

def identityChar (c : Char) : Bool :=
  ('a' ≤ c && c ≤ 'z') || ('0' ≤ c && c ≤ '9') || c == '.' || c == '_' || c == '-'

def isValidIdentity (s : Str) : Bool := validNameOf 64 identityChar s

def isPublicDlpSafe (value : Str) : Bool := (dlpFindings value).isEmpty

/-! ## Profiles -/

inductive ReasoningLevel where
  | off
  | minimal
  | low
  | medium
  | high
  | xhigh
  | max
  deriving DecidableEq

def ReasoningLevel.parse (s : Str) : Option ReasoningLevel :=
  if s = "off".toList then some .off
  else if s = "minimal".toList then some .minimal
  else if s = "low".toList then some .low
  else if s = "medium".toList then some .medium
  else if s = "high".toList then some .high
  else if s = "xhigh".toList then some .xhigh
  else if s = "max".toList then some .max
  else none

def ReasoningLevel.asStr : ReasoningLevel → Str
  | .off => "off".toList
  | .minimal => "minimal".toList
  | .low => "low".toList
  | .medium => "medium".toList
  | .high => "high".toList
  | .xhigh => "xhigh".toList
  | .max => "max".toList

structure ToolPolicy where
  allow : Finset Str
  deny : Finset Str
  deriving DecidableEq

def ToolPolicy.allows (policy : ToolPolicy) (name : Str) : Bool :=
  decide (name ∈ policy.allow) && decide (name ∉ policy.deny)

def ToolPolicy.allowed (policy : ToolPolicy) : List Str := policy.allow.sort (· ≤ ·)

def ToolPolicy.denied (policy : ToolPolicy) : List Str := policy.deny.sort (· ≤ ·)

def ToolPolicy.readOnlyDefault : ToolPolicy where
  allow := {"read".toList, "search".toList}
  deny := {"write".toList, "edit".toList, "shell".toList, "network".toList}

/-- What `AgentProfile::new` checks. -/
def AgentProfile.Valid (name provider model accountHandle : Str) : Prop :=
  isValidIdentity name = true ∧ isValidIdentity provider = true ∧ isValidIdentity model = true ∧
    isValidIdentity accountHandle = true ∧ isPublicDlpSafe accountHandle = true

structure AgentProfile where
  name : Str
  provider : Str
  model : Str
  accountHandle : Str
  defaultReasoningLevel : ReasoningLevel
  toolPolicy : ToolPolicy
  valid : AgentProfile.Valid name provider model accountHandle
  deriving DecidableEq

/-! ## Registries -/

/-- `AgentProfileRegistry`, with its `ProviderRegistry` and `ModelRegistry`. -/
structure AgentProfileRegistry where
  providers : Finset Str
  models : OrdMap Str (Finset Str)
  profiles : OrdMap Str AgentProfile

namespace AgentProfileRegistry

variable (registry : AgentProfileRegistry)

/-- `ProviderRegistry::contains`, which `require` tests. -/
def hasProvider (identity : Str) : Bool := decide (identity ∈ registry.providers)

/-- `ModelRegistry::contains_for_provider`, which `require_for_provider` tests. -/
def hasModel (provider model : Str) : Bool :=
  (registry.models.find? provider).any fun models => decide (model ∈ models)

def get (name : Str) : Option AgentProfile := registry.profiles.find? name

end AgentProfileRegistry

end Bran.Agent
