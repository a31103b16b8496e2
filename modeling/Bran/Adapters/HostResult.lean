import Bran.Adapters.HostFrames
import Bran.Agent.Runtime

/-!
# Results of an external host

What the external-host provider reads out of the two frames of a host: the preflight, which fixes
the token quantities of the run, and the result, which has to repeat what the request and the
preflight say.  Both are payloads of fields grouped by key.
-/

namespace Bran.Adapters.Provider

open Validation Text List
open Except (ok.inj)
open Option (some.inj)
open Agent (ProviderRequest ProviderOutput ProviderClaim ProviderExecutionEvidence
  ProviderTokenUsage LosslessArtifact ArtifactKind ResultId validNameOf hexByte)

/-- How a function of this module ends without a value. -/
inductive HostError where
  | provider (error : Agent.ProviderError)
  | panicked
  deriving DecidableEq

/-- `ProviderError::InvalidOutput`. -/
abbrev invalidResult : HostError := .provider .invalidOutput

/-- `ProviderError::Unavailable`. -/
abbrev unavailable : HostError := .provider .unavailable

/-- The errors of the wire format among those of the provider. -/
def hostError : Fault → HostError
  | .provider .failed => .provider .failed
  | .provider .invalidOutput => invalidResult
  | .panicked => .panicked

/-- A `usize`. -/
abbrev Word : Type := { n : ℕ // n < 2 ^ 64 }

/-- The fields of a payload, grouped by key. -/
abbrev FieldMap : Type := OrdMap Str (List Str)

/-- `"unavailable"`. -/
def unavailableText : Str := "unavailable".toList

/-! ## Names and policies -/

def validName (value : Str) : Bool :=
  validNameOf 128 (fun c => c.isAlphanum || c == '.' || c == '_' || c == '-') value

structure SafeAccountReference where
  text : Str
  valid : validName text = true

def toolPolicy (request : ProviderRequest) : Str :=
  "allow:".toList ++ join [','] request.toolPolicy.allowed ++ ";deny:".toList ++
    join [','] request.toolPolicy.denied

/-- `bool::to_string`. -/
def boolText (value : Bool) : Str := if value then "true".toList else "false".toList

def optionalNumber : Option ℕ → Str
  | none => unavailableText
  | some value => decimal value

/-! ## Reading fields -/

/-- `parse`, with the errors of the provider. -/
def parseValues (payload : List UInt8) : Except HostError FieldMap :=
  (parse payload).mapError hostError

/-- `number`, with its bound. -/
def numberWord (value : Str) : Except HostError Word :=
  match h : number value with
  | .ok n => .ok ⟨n, Nat.lt_of_le_of_lt (number_eq_ok.mp h).2 (by decide)⟩
  | .error fault => .error (hostError fault)

def strict (values : FieldMap) (allowed required repeated : List Str) : Except HostError Unit :=
  failIf
    ((∃ key ∈ values.keys, key ∉ allowed) ∨
      (∃ key ∈ required, (values.find? key).all fun value => decide (value.length ≠ 1)) ∨
      ∃ entry ∈ values.entries,
        if entry.1 ∈ repeated then 64 < entry.2.length else entry.2.length ≠ 1)
    invalidResult

def value (values : FieldMap) (key : Str) : Except HostError Str :=
  match (values.find? key).bind List.head? with
  | some text => .ok text
  | none => .error invalidResult

def same (values : FieldMap) (key expected : Str) : Except HostError Unit := do
  let text ← value values key
  failIf (text ≠ expected) invalidResult

/-- `same`, for a field that is there. -/
def sameIfPresent (values : FieldMap) (key expected : Str) : Except HostError Unit :=
  if values.contains key then same values key expected else .ok ()

/-- A quantity of tokens that a host may leave out. -/
def optionalCount (values : FieldMap) (key : Str) : Except HostError (Option Word) := do
  let text ← value values key
  if text = unavailableText then pure none
  else
    let count ← numberWord text
    pure (some count)

/-- `Option::cloned` and `unwrap_or_default`. -/
def valuesAt (values : FieldMap) (key : Str) : List Str := (values.find? key).getD []

/-! ## The preflight -/

structure Preflight where
  id : Str
  noSession : Bool
  input : Option ℕ
  maxOutput : Option ℕ
  complete : Option ℕ
  ceiling : Option ℕ
  deriving DecidableEq

/-- The names of `parse_preflight`. -/
def preflightNames : List Str :=
  ["stage", "status", "provider", "model", "reasoning", "tool_policy", "account_ref",
    "request_digest", "preflight_id", "no_session", "input_tokens", "max_output_tokens",
    "exact_complete_tokens", "hard_total_token_ceiling"].map String.toList

/-- The input and the complete tokens of a preflight. -/
def preflightTokens (values : FieldMap) :
    (ceiling maxOutput : Option ℕ) → Except HostError (Option ℕ × Option ℕ)
  | some ceiling, some maxOutput => do
      let input ← value values "input_tokens".toList >>= numberWord
      let complete ← value values "exact_complete_tokens".toList >>= numberWord
      failIf (input.1 = 0) unavailable
      let sum ← checkedAdd input.1 maxOutput invalidResult
      failIf (complete.1 ≠ sum ∨ ceiling < complete.1) unavailable
      pure (some input.1, some complete.1)
  | some _, none => do
      let complete ← value values "exact_complete_tokens".toList
      failIf (complete ≠ unavailableText) unavailable
      let input ← optionalCount values "input_tokens".toList
      pure (input.map Subtype.val, none)
  | none, maxOutput => do
      failIf (maxOutput ≠ none) unavailable
      let complete ← value values "exact_complete_tokens".toList
      failIf (complete ≠ unavailableText) unavailable
      let input ← optionalCount values "input_tokens".toList
      pure (input.map Subtype.val, none)

/-- `parse_preflight` after its fields. -/
def preflightOf (values : FieldMap) (request : ProviderRequest) (account : SafeAccountReference)
    (digest : Str) (legacyTestFixture : Bool) : Except HostError Preflight := do
  strict values preflightNames
    (if legacyTestFixture then preflightNames.filter (· ≠ "no_session".toList)
      else preflightNames) []
  let status ← value values "status".toList
  failIf (status ≠ "supported".toList) unavailable
  same values "stage".toList "preflight-result".toList
  same values "provider".toList request.provider
  same values "model".toList request.model
  same values "reasoning".toList request.requested.asStr
  same values "tool_policy".toList (toolPolicy request)
  same values "account_ref".toList account.text
  same values "request_digest".toList digest
  sameIfPresent values "no_session".toList (boolText request.noSession)
  let id ← value values "preflight_id".toList
  failIf (validName id = false) invalidResult
  let maxOutput ← optionalCount values "max_output_tokens".toList
  let ceiling ← optionalCount values "hard_total_token_ceiling".toList
  failIf (ceiling.map Subtype.val ≠ request.hardTotalTokenCeiling ∨
    ∃ requested ∈ request.maxOutputTokens, maxOutput.map Subtype.val ≠ some requested) unavailable
  let (input, complete) ←
    preflightTokens values (ceiling.map Subtype.val) (maxOutput.map Subtype.val)
  pure {
    id
    noSession := request.noSession
    input
    maxOutput := maxOutput.map Subtype.val
    complete
    ceiling := ceiling.map Subtype.val }

def parsePreflight (payload : List UInt8) (request : ProviderRequest)
    (account : SafeAccountReference) (digest : Str) (legacyTestFixture : Bool) :
    Except HostError Preflight := do
  let values ← parseValues payload
  preflightOf values request account digest legacyTestFixture

/-! ## Claims and artifacts -/

/-- `fields[index]`. -/
def itemAt (items : List Str) (index : ℕ) : Except HostError Str :=
  match items[index]? with
  | some item => .ok item
  | none => .error .panicked

/-- The mark of a material claim. -/
def materialOf (text : Str) : Except HostError Bool :=
  if text = "true".toList then .ok true
  else if text = "false".toList then .ok false
  else .error invalidResult

/-- The claim of `parse_claims` at one index. -/
def claimAt (ids texts materials locators digests supports : List Str) (index : ℕ) :
    Except HostError ProviderClaim := do
  let material ← itemAt materials index >>= materialOf
  let id ← itemAt ids index
  let text ← itemAt texts index
  let locator ← itemAt locators index
  let contentDigest ← itemAt digests index
  let support ← itemAt supports index
  (ProviderClaim.new id text material locator contentDigest support).mapError
    fun _ => invalidResult

def parseClaims (values : FieldMap) : Except HostError (List ProviderClaim) := do
  let ids := valuesAt values "claim_id".toList
  let texts := valuesAt values "claim_text".toList
  let materials := valuesAt values "claim_material".toList
  let locators := valuesAt values "claim_locator".toList
  let digests := valuesAt values "claim_content_digest".toList
  let supports := valuesAt values "claim_support".toList
  let count := ids.length
  failIf (∃ field ∈ [ids, texts, materials, locators, digests, supports], field.length ≠ count)
    invalidResult
  (List.range count).mapM (claimAt ids texts materials locators digests supports)

/-- The closure `digit` of `decode_hex`. -/
def digit (c : Char) : Except HostError UInt8 :=
  if '0' ≤ c ∧ c ≤ '9' then .ok (c.toUInt8 - '0'.toUInt8)
  else if 'a' ≤ c ∧ c ≤ 'f' then .ok (c.toUInt8 - 'a'.toUInt8 + 10)
  else .error invalidResult

/-- `chunks_exact(2)` with the byte of each chunk. -/
def decodeChunks : Str → Except HostError (List UInt8)
  | high :: low :: rest => do
      let high ← digit high
      let low ← digit low
      let decoded ← decodeChunks rest
      pure ((high <<< 4 ||| low) :: decoded)
  | [_] => .ok []
  | [] => .ok []

def decodeHex (value : Str) : Except HostError (List UInt8) := do
  failIf (byteLen value % 2 ≠ 0 ∨ value.all isLowerHex = false) invalidResult
  decodeChunks value

/-- The names of the kinds in `parse_artifacts`. -/
def artifactKind (kind : Str) : Except HostError ArtifactKind :=
  if kind = "patch".toList then .ok .patch
  else if kind = "json".toList then .ok .json
  else if kind = "validation-receipt".toList then .ok .validationReceipt
  else if kind = "opaque".toList then .ok .opaqueBytes
  else .error invalidResult

/-- One artifact of `parse_artifacts`. -/
def artifactOf (item : ((Str × Str) × Str) × Str) : Except HostError LosslessArtifact := do
  let (((kind, mediaType), id), encoded) := item
  let kind ← artifactKind kind
  let decoded ← decodeHex encoded
  let artifact ← (LosslessArtifact.new kind mediaType decoded).mapError fun _ => invalidResult
  failIf (artifact.id.text ≠ id) invalidResult
  pure artifact

def parseArtifacts (values : FieldMap) : Except HostError (List LosslessArtifact) := do
  let kinds := valuesAt values "artifact_kind".toList
  let mediaTypes := valuesAt values "artifact_media_type".toList
  let ids := valuesAt values "artifact_id".toList
  let encoded := valuesAt values "artifact_bytes".toList
  failIf (kinds.length ≠ mediaTypes.length ∨ kinds.length ≠ ids.length ∨
    kinds.length ≠ encoded.length) invalidResult
  (((kinds.zip mediaTypes).zip ids).zip encoded).mapM artifactOf

/-! ## The result -/

/-- The names of `parse_result`. -/
def resultNames : List Str :=
  ["stage", "status", "request_digest", "preflight_id", "provider", "model", "reasoning",
    "tool_policy", "account_ref", "no_session", "input_tokens", "max_output_tokens",
    "exact_complete_tokens", "hard_total_token_ceiling", "actual_input_tokens",
    "actual_output_tokens", "answer", "citation", "claim_id", "claim_text", "claim_material",
    "claim_locator", "claim_content_digest", "claim_support", "provider_run_id",
    "effective_provider", "effective_model", "effective_reasoning", "artifact_kind",
    "artifact_media_type", "artifact_id", "artifact_bytes"].map String.toList

/-- The names that `parse_result` requires. -/
def requiredNames (legacyTestFixture : Bool) : List Str :=
  let required := ["stage", "status", "request_digest", "preflight_id", "provider", "model",
    "reasoning", "tool_policy", "account_ref", "no_session", "input_tokens", "max_output_tokens",
    "exact_complete_tokens", "hard_total_token_ceiling", "actual_input_tokens",
    "actual_output_tokens", "answer", "provider_run_id"].map String.toList
  if legacyTestFixture then required.filter (· ≠ "no_session".toList)
  else
    required ++ ["effective_provider", "effective_model", "effective_reasoning"].map String.toList

/-- The names that `parse_result` lets a host repeat. -/
def repeatedNames : List Str :=
  ["citation", "claim_id", "claim_text", "claim_material", "claim_locator",
    "claim_content_digest", "claim_support", "artifact_kind", "artifact_media_type",
    "artifact_id", "artifact_bytes"].map String.toList

/-- The fields of `parse_result` that repeat what the request and the preflight say. -/
def repeats (values : FieldMap) (request : ProviderRequest) (account : SafeAccountReference)
    (digest : Str) (preflight : Preflight) : Except HostError Unit := do
  same values "stage".toList "result".toList
  same values "status".toList "complete".toList
  same values "request_digest".toList digest
  same values "preflight_id".toList preflight.id
  same values "provider".toList request.provider
  same values "model".toList request.model
  same values "reasoning".toList request.requested.asStr
  same values "tool_policy".toList (toolPolicy request)
  same values "account_ref".toList account.text
  sameIfPresent values "no_session".toList (boolText preflight.noSession)
  same values "input_tokens".toList (optionalNumber preflight.input)
  same values "max_output_tokens".toList (optionalNumber preflight.maxOutput)
  same values "exact_complete_tokens".toList (optionalNumber preflight.complete)
  same values "hard_total_token_ceiling".toList (optionalNumber preflight.ceiling)

/-- `Option::zip` with `is_some_and`. -/
def zipSome (first second : Option ℕ) (test : ℕ → ℕ → Bool) : Bool :=
  match first, second with
  | some first, some second => test first second
  | _, _ => false

/-- The total of the tokens used, where both counts are there. -/
def actualTotal : (input output : Option ℕ) → Except HostError (Option ℕ)
  | some input, some output => do
      let sum ← checkedAdd input output invalidResult
      pure (some sum)
  | _, _ => .ok none

/-- The checks of `parse_result` on the tokens used. -/
def checkTokens (preflight : Preflight) (input output : Option ℕ) : Except HostError Unit := do
  let needsInput := preflight.input.isSome || preflight.complete.isSome || preflight.ceiling.isSome
  let needsOutput :=
    preflight.maxOutput.isSome || preflight.complete.isSome || preflight.ceiling.isSome
  failIf ((needsInput && input.isNone) || (needsOutput && output.isNone)) invalidResult
  let actualComplete ← actualTotal input output
  failIf (zipSome preflight.maxOutput output (fun maximum output => decide (maximum < output)) ||
    zipSome preflight.input input (fun expected input => decide (input ≠ expected)) ||
    zipSome preflight.complete actualComplete (fun complete actual => decide (complete < actual)) ||
    zipSome preflight.ceiling actualComplete (fun ceiling actual => decide (ceiling < actual)))
    invalidResult

/-- The closure `effective` of `parse_result`. -/
def effective (values : FieldMap) (legacyTestFixture : Bool) (key legacy : Str) :
    Except HostError (Option Str) :=
  match (valuesAt values key).head? <|> (if legacyTestFixture then some legacy else none) with
  | none => .error invalidResult
  | some reported =>
      if reported = unavailableText then .ok none
      else if validName reported then .ok (some reported)
      else .error invalidResult

/-- The output of `parse_result` from its parts. -/
def outputOf (preflight : Preflight) (answer : Str) (citations : List Str) (providerRunId : Str)
    (effectiveProfile effectiveProvider effectiveModel effectiveReasoning : Option Str)
    (input output : Option Word) (claims : List ProviderClaim)
    (artifacts : List LosslessArtifact) : Except Agent.ProviderOutputError ProviderOutput := do
  let evidence ← ProviderExecutionEvidence.new effectiveProfile effectiveProvider effectiveModel
    effectiveReasoning
  let usage : Agent.ProviderTokenUsage := {
    actualInputTokens := input.map Subtype.val
    actualOutputTokens := output.map Subtype.val
    words := ⟨fun tokens h => by obtain ⟨word, _, rfl⟩ := Option.mem_map.mp h; exact word.2,
      fun tokens h => by obtain ⟨word, _, rfl⟩ := Option.mem_map.mp h; exact word.2⟩ }
  let output ← ProviderOutput.withEffectiveExecution answer citations (some providerRunId) evidence
    usage artifacts
  let output ← output.withClaims claims
  match preflight.ceiling with
  | some ceiling => output.withTokenBudgetAttestation ceiling
  | none => pure output

/-- `parse_result` after its fields. -/
def resultOf (values : FieldMap) (request : ProviderRequest) (account : SafeAccountReference)
    (digest : Str) (preflight : Preflight) (effectiveProfile : Option Str)
    (legacyTestFixture : Bool) : Except HostError ProviderOutput := do
  strict values resultNames (requiredNames legacyTestFixture) repeatedNames
  repeats values request account digest preflight
  let input ← optionalCount values "actual_input_tokens".toList
  let output ← optionalCount values "actual_output_tokens".toList
  checkTokens preflight (input.map Subtype.val) (output.map Subtype.val)
  let answer ← value values "answer".toList
  failIf (request.maxOutputBytes < byteLen answer) invalidResult
  let claims ← parseClaims values
  let artifacts ← parseArtifacts values
  let effectiveProvider ←
    effective values legacyTestFixture "effective_provider".toList request.provider
  let effectiveModel ← effective values legacyTestFixture "effective_model".toList request.model
  let effectiveReasoning ← effective values legacyTestFixture "effective_reasoning".toList
    request.requested.asStr
  let providerRunId ← value values "provider_run_id".toList
  (outputOf preflight answer (valuesAt values "citation".toList) providerRunId effectiveProfile
    effectiveProvider effectiveModel effectiveReasoning input output claims artifacts).mapError
    fun _ => invalidResult

def parseResult (payload : List UInt8) (request : ProviderRequest) (account : SafeAccountReference)
    (digest : Str) (preflight : Preflight) (effectiveProfile : Option Str)
    (legacyTestFixture : Bool) : Except HostError ProviderOutput := do
  let values ← parseValues payload
  resultOf values request account digest preflight effectiveProfile legacyTestFixture

/-! ## Fields and their groups -/

section Groups

variable {items : List (StrSlice × StrSlice)} {values : FieldMap}

theorem valuesAt_eq (h : Groups items values) (key : Str) :
    valuesAt values key = valuesOf key items := by
  rw [valuesAt, h key]
  by_cases hempty : valuesOf key items = []
  · rw [if_pos hempty, hempty]
    rfl
  · rw [if_neg hempty]
    rfl

theorem valuesOf_ne_nil_iff {key : Str} :
    valuesOf key items ≠ [] ↔ ∃ item ∈ items, item.1.text = key := by
  simp [valuesOf, filter_eq_nil_iff]

theorem value_eq_ok_iff (h : Groups items values) {key text : Str} :
    value values key = .ok text ↔ (valuesOf key items).head? = some text := by
  rw [value, h key]
  cases hvalues : valuesOf key items with
  | nil => simp
  | cons first rest => simp

theorem same_eq_ok_iff (h : Groups items values) {key expected : Str} :
    same values key expected = .ok () ↔ (valuesOf key items).head? = some expected := by
  simp only [same, bind_eq_ok_iff, value_eq_ok_iff h, failIf_eq_ok_iff, not_not]
  constructor
  · intro h
    obtain ⟨text, htext, rfl⟩ := h
    exact htext
  · intro h
    exact ⟨expected, h, rfl⟩

theorem contains_eq_true_iff (h : Groups items values) {key : Str} :
    values.contains key = true ↔ valuesOf key items ≠ [] := by
  rw [OrdMap.contains, h key]
  by_cases hempty : valuesOf key items = []
  · simp [hempty]
  · simp [hempty]

/-- What `strict` lets through. -/
structure Strict (allowed required repeated : List Str) (items : List (StrSlice × StrSlice)) :
    Prop where
  named : ∀ item ∈ items, item.1.text ∈ allowed
  present : ∀ key ∈ required, (valuesOf key items).length = 1
  bounded : ∀ key ∈ repeated, (valuesOf key items).length ≤ 64
  single : ∀ key, key ∉ repeated → (valuesOf key items).length ≤ 1

theorem strict_eq_ok_iff (h : Groups items values) {allowed required repeated : List Str} :
    strict values allowed required repeated = .ok () ↔ Strict allowed required repeated items := by
  have hfind : ∀ {key : Str} {texts : List Str}, values.find? key = some texts ↔
      valuesOf key items ≠ [] ∧ valuesOf key items = texts := by
    intro key texts
    rw [h key]
    by_cases hempty : valuesOf key items = []
    · simp [hempty]
    · simp [hempty]
  have hkeys : ∀ key, key ∈ values.keys ↔ valuesOf key items ≠ [] := by
    intro key
    rw [OrdMap.mem_keys_iff]
    simp [hfind]
  rw [strict, failIf_eq_ok_iff]
  simp only [not_or, not_exists, not_and, not_not]
  constructor
  · intro hstrict
    obtain ⟨hallowed, hrequired, hlengths⟩ := hstrict
    have hlength : ∀ key, valuesOf key items ≠ [] →
        ¬ if key ∈ repeated then 64 < (valuesOf key items).length
          else (valuesOf key items).length ≠ 1 := fun key hne =>
      hlengths (key, valuesOf key items) (OrdMap.mem_entries_iff.mpr (hfind.mpr ⟨hne, rfl⟩))
    refine ⟨fun item hitem => ?_, fun key hkey => ?_, fun key hkey => ?_, fun key hkey => ?_⟩
    · exact hallowed _ ((hkeys _).mpr (valuesOf_ne_nil_iff.mpr ⟨item, hitem, rfl⟩))
    · have hone := hrequired key hkey
      rw [h key] at hone
      by_cases hempty : valuesOf key items = []
      · simp [hempty] at hone
      · simpa [hempty] using hone
    · by_cases hempty : valuesOf key items = []
      · simp [hempty]
      · have hbound := hlength key hempty
        rw [if_pos hkey] at hbound
        omega
    · by_cases hempty : valuesOf key items = []
      · simp [hempty]
      · have hone := hlength key hempty
        rw [if_neg hkey, not_not] at hone
        omega
  · intro hstrict
    refine ⟨fun key hkey => ?_, fun key hkey => ?_, fun entry hentry => ?_⟩
    · obtain ⟨item, hitem, rfl⟩ := valuesOf_ne_nil_iff.mp ((hkeys key).mp hkey)
      exact hstrict.named item hitem
    · have hone := hstrict.present key hkey
      have hne : valuesOf key items ≠ [] := ne_nil_of_length_pos (by omega)
      rw [h key, if_neg hne]
      simp [hone]
    · obtain ⟨hne, hvalues⟩ := hfind.mp (OrdMap.mem_entries_iff.mp hentry)
      have hpos := length_pos_iff.mpr hne
      by_cases hrepeated : entry.1 ∈ repeated
      · have hbound := hstrict.bounded _ hrepeated
        rw [if_pos hrepeated, ← hvalues]
        omega
      · have hone := hstrict.single _ hrepeated
        rw [if_neg hrepeated, ← hvalues, not_not]
        omega

/-- A field that may not be repeated has the value that is read. -/
theorem Strict.head?_eq_some_iff {allowed required repeated : List Str}
    (h : Strict allowed required repeated items) {key text : Str} (hkey : key ∉ repeated) :
    (valuesOf key items).head? = some text ↔ valuesOf key items = [text] := by
  have hlength := h.single key hkey
  cases hvalues : valuesOf key items with
  | nil => simp
  | cons first rest =>
      have hrest : rest = [] := by
        rw [hvalues, length_cons] at hlength
        exact eq_nil_of_length_eq_zero (by omega)
      simp [hrest]

theorem unavailableText_ne_decimal (n : ℕ) : unavailableText ≠ decimal n := by
  intro h
  have hdigit : 'u'.isDigit = true := by
    apply Nat.isDigit_of_mem_toDigits (b := 10) (n := n) (by omega) (by omega)
    rw [← decimal, ← h]
    exact mem_cons_self
  exact absurd hdigit (by decide)

theorem numberWord_eq_ok_iff {text : Str} {word : Word} :
    numberWord text = .ok word ↔ text = decimal word.1 := by
  rw [numberWord]
  split
  · rename_i n hn
    obtain ⟨rfl, _⟩ := number_eq_ok.mp hn
    rw [Except.ok.injEq, Subtype.ext_iff]
    constructor
    · intro h
      exact congrArg decimal h
    · intro h
      exact Encoding.decimal_injective h
  · rename_i fault hfault
    constructor
    · intro h
      cases h
    · intro h
      have hword : word.1 ≤ usizeMax := Nat.le_pred_of_lt word.2
      rw [number_eq_ok.mpr ⟨h, hword⟩] at hfault
      cases hfault

theorem optionalCount_eq_ok_iff (h : Groups items values) {key : Str} {count : Option Word} :
    optionalCount values key = .ok count ↔
      (valuesOf key items).head? = some (optionalNumber (count.map Subtype.val)) := by
  simp only [optionalCount, bind_eq_ok_iff, value_eq_ok_iff h]
  constructor
  · intro h
    obtain ⟨text, htext, h⟩ := h
    by_cases hnone : text = unavailableText
    · rw [if_pos hnone] at h
      cases h
      rw [htext, hnone]
      rfl
    · rw [if_neg hnone, bind_eq_ok_iff] at h
      obtain ⟨word, hword, h⟩ := h
      cases h
      rw [htext, numberWord_eq_ok_iff.mp hword]
      rfl
  · intro h
    refine ⟨_, h, ?_⟩
    cases count with
    | none => rfl
    | some word =>
        have hne : decimal word.1 ≠ unavailableText := (unavailableText_ne_decimal _).symm
        change (if decimal word.1 = unavailableText then _ else _) = _
        rw [if_neg hne, bind_eq_ok_iff]
        exact ⟨word, numberWord_eq_ok_iff.mpr rfl, rfl⟩

end Groups

/-! ## Claims and artifacts read back -/

theorem itemAt_eq_ok_iff {items : List Str} {index : ℕ} {item : Str} :
    itemAt items index = .ok item ↔ items[index]? = some item := by
  rw [itemAt]
  cases items[index]? with
  | none => simp
  | some found => simp

theorem materialOf_eq_ok_iff {material : Bool} {text : Str} :
    materialOf text = .ok material ↔ text = boolText material := by
  rw [materialOf]
  by_cases htrue : text = "true".toList
  · subst htrue
    cases material with
    | false => decide
    | true => decide
  · rw [if_neg htrue]
    by_cases hfalse : text = "false".toList
    · subst hfalse
      cases material with
      | false => decide
      | true => decide
    · rw [if_neg hfalse]
      cases material with
      | false => simpa [boolText] using hfalse
      | true => simpa [boolText] using htrue

/-- The claim at an index is made of the six texts there. -/
theorem claimAt_eq_ok_iff {ids texts materials locators digests supports : List Str} {index : ℕ}
    {claim : ProviderClaim} :
    claimAt ids texts materials locators digests supports index = .ok claim ↔
      ids[index]? = some claim.id ∧ texts[index]? = some claim.text ∧
        materials[index]? = some (boolText claim.material) ∧
        locators[index]? = some claim.locator ∧ digests[index]? = some claim.contentDigest ∧
        supports[index]? = some claim.support := by
  simp only [claimAt, bind_eq_ok_iff, itemAt_eq_ok_iff, materialOf_eq_ok_iff, mapError_eq_ok_iff,
    ProviderClaim.new_eq_ok_iff]
  constructor
  · intro h
    obtain ⟨_, ⟨_, hmaterial, rfl⟩, id, hid, text, htext, locator, hlocator, digest, hdigest,
      support, hsupport, rfl, rfl, rfl, rfl, rfl, rfl⟩ := h
    exact ⟨hid, htext, hmaterial, hlocator, hdigest, hsupport⟩
  · intro h
    obtain ⟨hid, htext, hmaterial, hlocator, hdigest, hsupport⟩ := h
    exact ⟨_, ⟨_, hmaterial, rfl⟩, _, hid, _, htext, _, hlocator, _, hdigest, _, hsupport, rfl, rfl,
      rfl, rfl, rfl, rfl⟩

/-- The rows that six lists of texts have for some claims. -/
def claimRows (claims : List ProviderClaim) : List (Str × List Str) :=
  [("claim_id".toList, claims.map ProviderClaim.id),
    ("claim_text".toList, claims.map ProviderClaim.text),
    ("claim_material".toList, claims.map fun claim => boolText claim.material),
    ("claim_locator".toList, claims.map ProviderClaim.locator),
    ("claim_content_digest".toList, claims.map ProviderClaim.contentDigest),
    ("claim_support".toList, claims.map ProviderClaim.support)]

/-- The name of a kind of artifact. -/
def kindText : ArtifactKind → Str
  | .patch => "patch".toList
  | .json => "json".toList
  | .validationReceipt => "validation-receipt".toList
  | .opaqueBytes => "opaque".toList

/-- The rows that four lists of texts have for some artifacts. -/
def artifactRows (artifacts : List LosslessArtifact) : List (Str × List Str) :=
  [("artifact_kind".toList, artifacts.map fun artifact => kindText artifact.kind),
    ("artifact_media_type".toList, artifacts.map LosslessArtifact.mediaType),
    ("artifact_id".toList, artifacts.map fun artifact => (ResultId.sha256 artifact.bytes).text),
    ("artifact_bytes".toList, artifacts.map fun artifact => artifact.bytes.flatMap hexByte)]

/-- A list is known from its length and its items. -/
theorem eq_map_iff_getElem? {α : Type} {texts : List Str} {items : List α} {text : α → Str} :
    texts = items.map text ↔ texts.length = items.length ∧
      ∀ index (h : index < items.length), texts[index]? = some (text items[index]) := by
  constructor
  · intro h
    subst h
    refine ⟨length_map _, fun index hindex => ?_⟩
    rw [getElem?_map, getElem?_eq_getElem hindex]
    rfl
  · intro h
    obtain ⟨hlength, hitems⟩ := h
    apply ext_getElem?
    intro index
    by_cases hindex : index < items.length
    · rw [hitems index hindex]
      simp [hindex]
    · rw [getElem?_eq_none (by omega), getElem?_eq_none (by simpa using hindex)]

/-- A pass over the indices of some results. -/
theorem mapM_range_eq_ok_iff {α : Type} {f : ℕ → Except HostError α} {count : ℕ}
    {results : List α} :
    (List.range count).mapM f = .ok results ↔ count = results.length ∧
      ∀ index (h : index < results.length), f index = .ok results[index] := by
  rw [mapM_eq_ok_iff, forall₂_iff_get]
  constructor
  · intro h
    obtain ⟨hlength, hitems⟩ := h
    rw [length_range] at hlength
    refine ⟨hlength, fun index hindex => ?_⟩
    simpa using hitems index (by simpa [hlength] using hindex) hindex
  · intro h
    obtain ⟨rfl, hitems⟩ := h
    refine ⟨length_range, fun index _ hindex => ?_⟩
    simpa using hitems index hindex

section Groups

variable {items : List (StrSlice × StrSlice)} {values : FieldMap}

/-- Claims are the combination of the six lists, position by position. -/
theorem parseClaims_eq_ok_iff (h : Groups items values) {claims : List ProviderClaim} :
    parseClaims values = .ok claims ↔ ∀ row ∈ claimRows claims, valuesOf row.1 items = row.2 := by
  rw [parseClaims, check_bind_eq_ok_iff, failIf_eq_ok_iff]
  simp only [valuesAt_eq h, mapM_range_eq_ok_iff, claimAt_eq_ok_iff, claimRows, forall_mem_cons,
    not_mem_nil, IsEmpty.forall_iff, implies_true, and_true, exists_mem_cons_iff, not_or, not_not,
    eq_map_iff_getElem?, false_and, exists_false, not_false_eq_true]
  constructor
  · intro h
    obtain ⟨⟨_, htexts, hmaterials, hlocators, hdigests, hsupports⟩, hlength, hitems⟩ := h
    rw [hlength] at htexts hmaterials hlocators hdigests hsupports
    exact ⟨⟨hlength, fun index hindex => (hitems index hindex).1⟩,
      ⟨htexts, fun index hindex => (hitems index hindex).2.1⟩,
      ⟨hmaterials, fun index hindex => (hitems index hindex).2.2.1⟩,
      ⟨hlocators, fun index hindex => (hitems index hindex).2.2.2.1⟩,
      ⟨hdigests, fun index hindex => (hitems index hindex).2.2.2.2.1⟩,
      ⟨hsupports, fun index hindex => (hitems index hindex).2.2.2.2.2⟩⟩
  · intro h
    obtain ⟨⟨hlength, hids⟩, ⟨htexts, htext⟩, ⟨hmaterials, hmaterial⟩, ⟨hlocators, hlocator⟩,
      ⟨hdigests, hdigest⟩, hsupports, hsupport⟩ := h
    refine ⟨⟨trivial, ?_, ?_, ?_, ?_, ?_⟩, hlength, fun index hindex =>
      ⟨hids index hindex, htext index hindex, hmaterial index hindex, hlocator index hindex,
        hdigest index hindex, hsupport index hindex⟩⟩
    · rw [htexts, hlength]
    · rw [hmaterials, hlength]
    · rw [hlocators, hlength]
    · rw [hdigests, hlength]
    · rw [hsupports, hlength]

end Groups

theorem artifactKind_eq_ok_iff {text : Str} {kind : ArtifactKind} :
    artifactKind text = .ok kind ↔ text = kindText kind := by
  constructor
  · intro h
    rw [artifactKind] at h
    split_ifs at h with hpatch hjson hreceipt hopaque
    · obtain rfl := ok.inj h
      exact hpatch
    · obtain rfl := ok.inj h
      exact hjson
    · obtain rfl := ok.inj h
      exact hreceipt
    · obtain rfl := ok.inj h
      exact hopaque
  · intro h
    subst h
    cases kind with
    | patch | json | validationReceipt | opaqueBytes => rfl

/-- The sixteen digits. -/
theorem digit_hexDigit {n : ℕ} (hn : n < 16) : digit (hexDigit n) = .ok (UInt8.ofNat n) := by
  have hall : ∀ n < 16, digit (hexDigit n) = .ok (UInt8.ofNat n) := by decide
  exact hall n hn

theorem exists_hexDigit {c : Char} (h : isLowerHex c = true) : ∃ n < 16, c = hexDigit n := by
  have hcode : 48 ≤ c.toNat ∧ c.toNat ≤ 57 ∨ 97 ≤ c.toNat ∧ c.toNat ≤ 102 := by
    simpa [isLowerHex, Char.le_def, UInt32.le_iff_toNat_le] using h
  obtain hdigit | hletter := hcode
  · refine ⟨c.toNat - 48, by omega, ?_⟩
    have hback : 48 + (c.toNat - 48) = c.toNat := by omega
    rw [hexDigit, if_pos (by omega), hback, Char.ofNat_toNat]
  · refine ⟨c.toNat - 87, by omega, ?_⟩
    have hback : 87 + (c.toNat - 87) = c.toNat := by omega
    rw [hexDigit, if_neg (by omega), hback, Char.ofNat_toNat]

theorem hexByte_pair {high low : ℕ} (hhigh : high < 16) (hlow : low < 16) :
    hexByte (UInt8.ofNat high <<< 4 ||| UInt8.ofNat low) = [hexDigit high, hexDigit low] := by
  have hall : ∀ high < 16, ∀ low < 16,
      hexByte (UInt8.ofNat high <<< 4 ||| UInt8.ofNat low) = [hexDigit high, hexDigit low] := by
    decide +kernel
  exact hall high hhigh low hlow

theorem pair_of_byte (byte : UInt8) :
    UInt8.ofNat (byte.toNat / 16) <<< 4 ||| UInt8.ofNat (byte.toNat % 16) = byte := by
  have hall : ∀ n < 256, UInt8.ofNat (n / 16) <<< 4 ||| UInt8.ofNat (n % 16) = UInt8.ofNat n := by
    decide +kernel
  rw [hall _ byte.toNat_lt, UInt8.ofNat_toNat]

theorem decodeChunks_flatMap (decoded : List UInt8) :
    decodeChunks (decoded.flatMap hexByte) = .ok decoded := by
  induction decoded with
  | nil => rfl
  | cons byte rest ih =>
      have hhigh : byte.toNat / 16 < 16 := Nat.div_lt_of_lt_mul byte.toNat_lt
      have hlow : byte.toNat % 16 < 16 := Nat.mod_lt _ (by omega)
      have hbyte : hexByte byte = [hexDigit (byte.toNat / 16), hexDigit (byte.toNat % 16)] := by
        rw [← hexByte_pair hhigh hlow, pair_of_byte]
      rw [flatMap_cons, hbyte, cons_append, cons_append, nil_append,
        decodeChunks, digit_hexDigit hhigh, ok_bind, digit_hexDigit hlow, ok_bind, ih, ok_bind,
        pair_of_byte]
      rfl

theorem flatMap_of_decodeChunks {text : Str} {decoded : List UInt8} (heven : text.length % 2 = 0)
    (hhex : ∀ c ∈ text, isLowerHex c = true) (h : decodeChunks text = .ok decoded) :
    text = decoded.flatMap hexByte := by
  fun_induction decodeChunks text generalizing decoded with
  | case1 high low rest ih =>
      obtain ⟨a, ha, rfl⟩ := exists_hexDigit (hhex high mem_cons_self)
      obtain ⟨b, hb, rfl⟩ := exists_hexDigit (hhex low (by simp))
      rw [digit_hexDigit ha, ok_bind, digit_hexDigit hb, ok_bind] at h
      obtain ⟨others, hothers, h⟩ := bind_eq_ok_iff.mp h
      obtain rfl := ok.inj h
      have hrest : rest = others.flatMap hexByte := by
        rw [length_cons, length_cons] at heven
        refine ih (by omega) (fun c hc => hhex c ?_) hothers
        exact mem_cons_of_mem _ (mem_cons_of_mem _ hc)
      rw [flatMap_cons, hexByte_pair ha hb, ← hrest]
      rfl
  | case2 c => simp at heven
  | case3 =>
      obtain rfl := ok.inj h
      rfl

/-- A text of ASCII characters has one byte each. -/
theorem byteLen_of_hex {text : Str} (h : ∀ c ∈ text, isLowerHex c = true) :
    byteLen text = text.length := by
  induction text with
  | nil => rfl
  | cons c rest ih =>
      obtain ⟨n, hn, rfl⟩ := exists_hexDigit (h c mem_cons_self)
      have hrest : byteLen rest = rest.length := ih fun c hc => h c (mem_cons_of_mem _ hc)
      rw [byteLen, map_cons, sum_cons, (hexDigit_spec hn).1, ← byteLen, hrest,
        length_cons, Nat.add_comm]

/-- Only the lowercase digits of some bytes are decoded, and to these bytes. -/
theorem decodeHex_eq_ok_iff {text : Str} {decoded : List UInt8} :
    decodeHex text = .ok decoded ↔ text = decoded.flatMap hexByte := by
  rw [decodeHex, check_bind_eq_ok_iff, failIf_eq_ok_iff, not_or, not_not, Bool.not_eq_false,
    all_eq_true]
  constructor
  · intro h
    obtain ⟨⟨heven, hhex⟩, h⟩ := h
    rw [byteLen_of_hex hhex] at heven
    exact flatMap_of_decodeChunks heven hhex h
  · intro h
    subst h
    obtain ⟨hlength, hhex⟩ := Agent.flatMap_hexByte_spec decoded
    rw [hlength]
    exact ⟨⟨by omega, all_eq_true.mp hhex⟩, decodeChunks_flatMap decoded⟩

def artifactTexts (artifact : LosslessArtifact) : ((Str × Str) × Str) × Str :=
  (((kindText artifact.kind, artifact.mediaType), (ResultId.sha256 artifact.bytes).text),
    artifact.bytes.flatMap hexByte)

theorem artifactOf_eq_ok_iff {item : ((Str × Str) × Str) × Str} {artifact : LosslessArtifact} :
    artifactOf item = .ok artifact ↔ item = artifactTexts artifact := by
  obtain ⟨⟨⟨kind, mediaType⟩, id⟩, encoded⟩ := item
  simp only [artifactOf, bind_eq_ok_iff, artifactKind_eq_ok_iff, decodeHex_eq_ok_iff,
    mapError_eq_ok_iff, LosslessArtifact.new_eq_ok_iff]
  constructor
  · intro h
    obtain ⟨_, rfl, _, rfl, built, ⟨rfl, rfl, rfl⟩, _, hid, h⟩ := h
    rw [failIf_eq_ok_iff, not_not, built.identified] at hid
    obtain rfl := ok.inj h
    rw [artifactTexts, hid]
  · intro h
    obtain ⟨⟨⟨rfl, rfl⟩, rfl⟩, rfl⟩ := (by simpa [artifactTexts] using h :
      ((kind = _ ∧ mediaType = _) ∧ id = _) ∧ encoded = _)
    refine ⟨_, rfl, _, rfl, artifact, ⟨rfl, rfl, rfl⟩, (), failIf_eq_ok_iff.mpr ?_, rfl⟩
    rw [artifact.identified, not_not]

theorem mapM_artifactOf_eq_ok_iff {fields : List (((Str × Str) × Str) × Str)}
    {artifacts : List LosslessArtifact} :
    fields.mapM artifactOf = .ok artifacts ↔ fields = artifacts.map artifactTexts := by
  rw [mapM_eq_ok_iff]
  simp only [artifactOf_eq_ok_iff]
  rw [← forall₂_map_right_iff, forall₂_eq_eq_eq]

section Groups

variable {items : List (StrSlice × StrSlice)} {values : FieldMap}

/-- Artifacts are the combination of the four lists, position by position. -/
theorem parseArtifacts_eq_ok_iff (h : Groups items values) {artifacts : List LosslessArtifact} :
    parseArtifacts values = .ok artifacts ↔
      ∀ row ∈ artifactRows artifacts, valuesOf row.1 items = row.2 := by
  rw [parseArtifacts, check_bind_eq_ok_iff, failIf_eq_ok_iff, mapM_artifactOf_eq_ok_iff]
  simp only [valuesAt_eq h, artifactRows, forall_mem_cons, not_mem_nil,
    IsEmpty.forall_iff, implies_true, and_true, not_or, not_not]
  constructor
  · intro h
    obtain ⟨⟨hmediaTypes, hids, hencoded⟩, hzip⟩ := h
    have hfourth := congrArg (List.map Prod.snd) hzip
    have hfirst := congrArg (List.map Prod.fst) hzip
    rw [map_snd_zip (by simp only [length_zip]; omega), map_map] at hfourth
    rw [map_fst_zip (by simp only [length_zip]; omega), map_map] at hfirst
    have hthird := congrArg (List.map Prod.snd) hfirst
    have hsecond := congrArg (List.map Prod.fst) hfirst
    rw [map_snd_zip (by simp only [length_zip]; omega), map_map] at hthird
    rw [map_fst_zip (by simp only [length_zip]; omega), map_map] at hsecond
    have hkinds := congrArg (List.map Prod.fst) hsecond
    have hmedia := congrArg (List.map Prod.snd) hsecond
    rw [map_fst_zip (by omega), map_map] at hkinds
    rw [map_snd_zip (by omega), map_map] at hmedia
    exact ⟨hkinds, hmedia, hthird, hfourth⟩
  · intro h
    obtain ⟨hkinds, hmediaTypes, hids, hencoded⟩ := h
    rw [hkinds, hmediaTypes, hids, hencoded, zip_map', zip_map', zip_map']
    simp only [length_map, and_self, true_and]
    rfl

def effectiveText (name : Option Str) : Str := name.getD unavailableText

theorem validName_of_isValidName {name : Str} (h : Agent.isValidName name = true) :
    validName name = true := by
  rw [Agent.isValidName, validNameOf, Bool.and_eq_true, decide_eq_true_eq, all_eq_true] at h
  rw [validName, validNameOf, Bool.and_eq_true, decide_eq_true_eq, all_eq_true]
  refine ⟨by omega, fun c hc => ?_⟩
  have hidentity := h.2 c hc
  simp only [Agent.identityChar, Bool.or_eq_true, Bool.and_eq_true, decide_eq_true_eq] at hidentity
  simp only [Char.isAlphanum, isAlpha_eq, isLower_eq, Char.isDigit, Bool.or_eq_true,
    Bool.and_eq_true, decide_eq_true_eq]
  tauto

/-- A reported name is read as it is written, unless it is the word for a missing one. -/
theorem effective_eq_ok (h : Groups items values) {legacyTestFixture : Bool} {key legacy : Str}
    {name : Option Str} (hvalid : Agent.validOptionalName name)
    (hword : name ≠ some unavailableText) (hreported : valuesOf key items = [effectiveText name]) :
    effective values legacyTestFixture key legacy = .ok name := by
  rw [effective, valuesAt_eq h, hreported]
  cases name with
  | none => rfl
  | some name =>
      have hne : name ≠ unavailableText := fun heq => hword (congrArg some heq)
      change (if name = unavailableText then _ else
        if validName name = true then Except.ok (some name) else _) = _
      rw [if_neg hne, if_pos (validName_of_isValidName (hvalid name rfl))]

theorem effective_reported (h : Groups items values) {legacyTestFixture : Bool}
    {key legacy : Str} {name : Option Str}
    (heffective : effective values legacyTestFixture key legacy = .ok name) :
    (valuesOf key items).head? = some (effectiveText name) ∨
      legacyTestFixture = true ∧ valuesOf key items = [] := by
  rw [effective, valuesAt_eq h] at heffective
  cases hvalues : valuesOf key items with
  | nil =>
      right
      cases legacyTestFixture with
      | false =>
          rw [hvalues] at heffective
          cases heffective
      | true => exact ⟨rfl, rfl⟩
  | cons reported rest =>
      left
      rw [hvalues] at heffective
      change (if reported = unavailableText then _ else _) = _ at heffective
      by_cases hword : reported = unavailableText
      · rw [if_pos hword] at heffective
        obtain rfl := ok.inj heffective
        rw [hword]
        rfl
      · rw [if_neg hword] at heffective
        split_ifs at heffective
        obtain rfl := ok.inj heffective
        rfl

end Groups

/-! ## Token quantities -/

/-- What an accepted preflight says about the request. -/
structure Attested (request : ProviderRequest) (preflight : Preflight) : Prop where
  noSession : preflight.noSession = request.noSession
  ceiling : preflight.ceiling = request.hardTotalTokenCeiling
  requested : ∀ requested ∈ request.maxOutputTokens, preflight.maxOutput = some requested
  unbounded : preflight.ceiling = none → preflight.maxOutput = none ∧ preflight.complete = none
  uncounted : preflight.maxOutput = none → preflight.complete = none
  counted : ∀ ceiling ∈ preflight.ceiling, ∀ maximum ∈ preflight.maxOutput,
    ∃ input, preflight.input = some input ∧ preflight.complete = some (input + maximum) ∧
      input + maximum ≤ ceiling

/-- The token counts that a result may report. -/
@[mk_iff]
structure Admissible (preflight : Preflight) (input output : Option ℕ) : Prop where
  expected : ∀ expected ∈ preflight.input, input = some expected
  fits : ∀ used ∈ input, ∀ produced ∈ output, used + produced < 2 ^ 64
  budget : ∀ ceiling ∈ preflight.ceiling, ∃ used produced, input = some used ∧
    output = some produced ∧ used + produced ≤ ceiling ∧
      ∀ maximum ∈ preflight.maxOutput, produced ≤ maximum

theorem zipSome_eq_false_iff {first : Option ℕ} {second : ℕ} {test : ℕ → ℕ → Bool} :
    zipSome first (some second) test = false ↔ ∀ value ∈ first, test value second = false := by
  cases first with
  | none => simp [zipSome]
  | some value => simp [zipSome]

variable {preflight : Preflight} {request : ProviderRequest}

/-- The checks when both counts are reported. -/
theorem checkTokens_reported {used produced : ℕ} :
    checkTokens preflight (some used) (some produced) = .ok () ↔ used + produced < 2 ^ 64 ∧
      (∀ maximum ∈ preflight.maxOutput, produced ≤ maximum) ∧
      (∀ expected ∈ preflight.input, used = expected) ∧
      (∀ complete ∈ preflight.complete, used + produced ≤ complete) ∧
      ∀ ceiling ∈ preflight.ceiling, used + produced ≤ ceiling := by
  have hpresent : ¬((preflight.input.isSome || preflight.complete.isSome ||
        preflight.ceiling.isSome) && (some used).isNone ||
      (preflight.maxOutput.isSome || preflight.complete.isSome || preflight.ceiling.isSome) &&
        (some produced).isNone) = true := by simp
  rw [checkTokens, check_bind_eq_ok_iff, failIf_eq_ok_iff, bind_eq_ok_iff]
  constructor
  · intro h
    obtain ⟨_, total, htotal, h⟩ := h
    obtain ⟨sum, hsum, htotal⟩ := bind_eq_ok_iff.mp htotal
    obtain ⟨hfits, rfl⟩ := checkedAdd_eq_ok_iff.mp hsum
    obtain rfl := ok.inj htotal
    rw [failIf_eq_ok_iff, Bool.not_eq_true] at h
    simp only [Bool.or_eq_false_iff, zipSome_eq_false_iff, decide_eq_false_iff_not, not_lt,
      not_not] at h
    obtain ⟨⟨⟨hmaximum, hexpected⟩, hcomplete⟩, hceiling⟩ := h
    exact ⟨hfits, hmaximum, hexpected, hcomplete, hceiling⟩
  · intro h
    obtain ⟨hfits, hmaximum, hexpected, hcomplete, hceiling⟩ := h
    refine ⟨hpresent, some (used + produced),
      bind_eq_ok_iff.mpr ⟨_, checkedAdd_eq_ok hfits, rfl⟩, ?_⟩
    rw [failIf_eq_ok_iff, Bool.not_eq_true]
    simp only [Bool.or_eq_false_iff, zipSome_eq_false_iff, decide_eq_false_iff_not, not_lt,
      not_not]
    exact ⟨⟨⟨hmaximum, hexpected⟩, hcomplete⟩, hceiling⟩

/-- A missing count is refused when something fixes it. -/
theorem checkTokens_missing {input output : Option ℕ} (hmissing : input = none ∨ output = none) :
    checkTokens preflight input output = .ok () ↔ preflight.ceiling = none ∧
      preflight.complete = none ∧ (input = none → preflight.input = none) ∧
      (output = none → preflight.maxOutput = none) ∧
      (∀ maximum ∈ preflight.maxOutput, ∀ produced ∈ output, produced ≤ maximum) ∧
      ∀ expected ∈ preflight.input, ∀ used ∈ input, used = expected := by
  obtain ⟨id, noSession, expected, maxOutput, complete, ceiling⟩ := preflight
  cases input with
  | none =>
      cases output with
      | none | some produced =>
          cases ceiling <;> cases complete <;> cases maxOutput <;>
            simp [checkTokens, actualTotal, zipSome, check_bind_eq_ok_iff]
  | some used =>
      cases output with
      | none =>
          cases ceiling <;> cases complete <;> cases expected <;>
            simp [checkTokens, actualTotal, zipSome, check_bind_eq_ok_iff]
      | some produced => simp at hmissing

/-- The reported counts are checked against all that the preflight fixes. -/
theorem checkTokens_eq_ok_iff (h : Attested request preflight) {input output : Option ℕ} :
    checkTokens preflight input output = .ok () ↔ Admissible preflight input output := by
  by_cases hmissing : input = none ∨ output = none
  · rw [checkTokens_missing hmissing]
    constructor
    · intro hchecked
      obtain ⟨hceiling, hcomplete, hinput, houtput, hmaximum, hexpected⟩ := hchecked
      refine ⟨fun expected hmem => ?_, fun used hused produced hproduced => ?_, ?_⟩
      · cases input with
        | none => rw [hinput rfl] at hmem; cases hmem
        | some used => rw [hexpected expected hmem used rfl]
      · rw [hused, hproduced] at hmissing
        simp at hmissing
      · rw [hceiling]
        intro ceiling hnone
        cases hnone
    · intro hadmissible
      have hceiling : preflight.ceiling = none := by
        cases hceiling : preflight.ceiling with
        | none => rfl
        | some ceiling =>
            obtain ⟨used, produced, hinput, houtput, _⟩ := hadmissible.budget ceiling hceiling
            rw [hinput, houtput] at hmissing
            simp at hmissing
      obtain ⟨hmaximum, hcomplete⟩ := h.unbounded hceiling
      refine ⟨hceiling, hcomplete, fun hinput => ?_, fun _ => hmaximum, ?_, ?_⟩
      · cases hexpected : preflight.input with
        | none => rfl
        | some expected =>
            rw [hadmissible.expected expected hexpected] at hinput
            cases hinput
      · rw [hmaximum]
        intro maximum hnone
        cases hnone
      · intro expected hexpected used hused
        rw [hadmissible.expected expected hexpected] at hused
        exact (some.inj hused).symm
  · obtain ⟨used, rfl⟩ := Option.ne_none_iff_exists'.mp fun hnone => hmissing (.inl hnone)
    obtain ⟨produced, rfl⟩ := Option.ne_none_iff_exists'.mp fun hnone => hmissing (.inr hnone)
    rw [checkTokens_reported]
    constructor
    · intro hchecked
      obtain ⟨hfits, hmaximum, hexpected, hcomplete, hceiling⟩ := hchecked
      refine ⟨fun expected hmem => ?_, fun _ hused _ hproduced => ?_, fun ceiling hmem => ?_⟩
      · rw [hexpected expected hmem]
      · cases hused
        cases hproduced
        exact hfits
      · exact ⟨used, produced, rfl, rfl, hceiling ceiling hmem, hmaximum⟩
    · intro hadmissible
      have hexpected : ∀ expected ∈ preflight.input, used = expected := fun expected hmem =>
        some.inj (hadmissible.expected expected hmem)
      -- A complete count stands only beside a ceiling and a maximum.
      have hcounted : ∀ complete ∈ preflight.complete, ∃ ceiling ∈ preflight.ceiling,
          ∃ maximum ∈ preflight.maxOutput, complete = used + maximum := by
        intro complete hcomplete
        cases hceiling : preflight.ceiling with
        | none => rw [(h.unbounded hceiling).2] at hcomplete; cases hcomplete
        | some ceiling =>
            cases hmaximum : preflight.maxOutput with
            | none => rw [h.uncounted hmaximum] at hcomplete; cases hcomplete
            | some maximum =>
                obtain ⟨input, hinput, htotal, _⟩ := h.counted ceiling hceiling maximum hmaximum
                rw [htotal] at hcomplete
                rw [hexpected input hinput]
                exact ⟨ceiling, rfl, maximum, rfl, (some.inj hcomplete).symm⟩
      have hmaximum : ∀ maximum ∈ preflight.maxOutput, produced ≤ maximum := by
        intro maximum hmem
        cases hceiling : preflight.ceiling with
        | none => rw [(h.unbounded hceiling).1] at hmem; cases hmem
        | some ceiling =>
            obtain ⟨_, _, _, hproduced, _, hbound⟩ := hadmissible.budget ceiling hceiling
            rw [some.inj hproduced]
            exact hbound maximum hmem
      refine ⟨hadmissible.fits used rfl produced rfl, hmaximum, hexpected, fun complete hmem => ?_,
        fun ceiling hmem => ?_⟩
      · obtain ⟨_, _, maximum, hfound, rfl⟩ := hcounted complete hmem
        exact Nat.add_le_add_left (hmaximum maximum hfound) used
      · obtain ⟨_, _, hused, hproduced, htotal, _⟩ := hadmissible.budget ceiling hmem
        rw [some.inj hused, some.inj hproduced]
        exact htotal

/-! ## What a preflight says -/

theorem preflightTokens_eq_ok {values : FieldMap} {ceiling maxOutput input complete : Option ℕ}
    (h : preflightTokens values ceiling maxOutput = .ok (input, complete)) :
    (ceiling = none → maxOutput = none ∧ complete = none) ∧ (maxOutput = none → complete = none) ∧
      ∀ limit ∈ ceiling, ∀ maximum ∈ maxOutput, ∃ counted, input = some counted ∧
        complete = some (counted + maximum) ∧ counted + maximum ≤ limit := by
  cases ceiling with
  | none =>
      simp only [preflightTokens, bind_eq_ok_iff] at h
      obtain ⟨_, hmaximum, _, _, _, _, _, _, h⟩ := h
      rw [failIf_eq_ok_iff, not_not] at hmaximum
      cases h
      refine ⟨fun _ => ⟨hmaximum, rfl⟩, fun _ => rfl, fun limit hlimit => ?_⟩
      cases hlimit
  | some ceiling =>
      cases maxOutput with
      | none =>
          simp only [preflightTokens, bind_eq_ok_iff] at h
          obtain ⟨_, _, _, _, _, _, h⟩ := h
          cases h
          refine ⟨fun hnone => ?_, fun _ => rfl, fun _ _ maximum hmaximum => ?_⟩
          · cases hnone
          · cases hmaximum
      | some maxOutput =>
          simp only [preflightTokens, bind_eq_ok_iff, checkedAdd_eq_ok_iff] at h
          obtain ⟨counted, _, total, _, _, _, _, ⟨_, rfl⟩, _, htotal, h⟩ := h
          rw [failIf_eq_ok_iff, not_or, not_not, Nat.not_lt] at htotal
          cases h
          refine ⟨fun hnone => ?_, fun hnone => ?_, fun limit hlimit maximum hmaximum => ?_⟩
          · cases hnone
          · cases hnone
          · cases hlimit
            cases hmaximum
            exact ⟨counted.1, rfl, by rw [htotal.1], htotal.1 ▸ htotal.2⟩

theorem preflightOf_attested {values : FieldMap} {account : SafeAccountReference} {digest : Str}
    {legacyTestFixture : Bool}
    (h : preflightOf values request account digest legacyTestFixture = .ok preflight) :
    Attested request preflight := by
  simp only [preflightOf, bind_eq_ok_iff] at h
  obtain ⟨_, _, _, _, _, _, _, _, _, _, _, _, _, _, _, _, _, _, _, _, _, _, id, _, _, _,
    maxOutput, _, ceiling, _, _, hrequest, ⟨input, complete⟩, htokens, h⟩ := h
  rw [failIf_eq_ok_iff, not_or, not_not] at hrequest
  obtain ⟨hunbounded, huncounted, hcounted⟩ := preflightTokens_eq_ok htokens
  obtain rfl := ok.inj h
  refine ⟨rfl, hrequest.1, fun requested hrequested => ?_, hunbounded, huncounted, hcounted⟩
  by_contra hne
  exact hrequest.2 ⟨requested, hrequested, hne⟩

theorem parsePreflight_attested {payload : List UInt8} {account : SafeAccountReference}
    {digest : Str} {legacyTestFixture : Bool}
    (h : parsePreflight payload request account digest legacyTestFixture = .ok preflight) :
    Attested request preflight := by
  obtain ⟨values, _, h⟩ := bind_eq_ok_iff.mp h
  exact preflightOf_attested h

end Bran.Adapters.Provider
