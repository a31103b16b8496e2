import Bran.Adapters.HostResult

/-!
# Host results are bound to their requests

An accepted result repeats what the request and the preflight say and holds nothing but the output
that is returned; an output that a host may deliver is read back from its fields in any order of
the keys; and no payload makes the reader panic.
-/

namespace Bran.Adapters.Provider

open Validation Text List
open Except (ok.inj)
open Agent (ProviderRequest ProviderOutput ProviderClaim ProviderExecutionEvidence
  LosslessArtifact ResultId hexByte)

/-! ## What a result says -/

/-- An output is built from its parts, all of which it keeps. -/
theorem outputOf_eq_ok_iff {preflight : Preflight} {answer providerRunId : Str}
    {citations : List Str}
    {effectiveProfile effectiveProvider effectiveModel effectiveReasoning : Option Str}
    {input output : Option Word} {claims : List ProviderClaim} {artifacts : List LosslessArtifact}
    {result : ProviderOutput} :
    outputOf preflight answer citations providerRunId effectiveProfile effectiveProvider
        effectiveModel effectiveReasoning input output claims artifacts = .ok result ↔
      result.answer = answer ∧ result.citations = citations ∧ result.claims = claims ∧
        result.providerRunId = some providerRunId ∧ result.effectiveModel = effectiveModel ∧
        result.effectiveReasoning = effectiveReasoning ∧
        result.effectiveProfile = effectiveProfile ∧
        result.effectiveProvider = effectiveProvider ∧
        result.actualInputTokens = input.map Subtype.val ∧
        result.actualOutputTokens = output.map Subtype.val ∧
        result.enforcedTokenCeiling = preflight.ceiling ∧ result.artifacts = artifacts := by
  obtain ⟨id, noSession, expected, maxOutput, complete, ceiling⟩ := preflight
  constructor
  · intro h
    rw [outputOf] at h
    simp only [bind_eq_ok_iff] at h
    obtain ⟨evidence, hevidence, built, hbuilt, claimed, hclaims, hattested⟩ := h
    rw [ProviderExecutionEvidence.new] at hevidence
    split_ifs at hevidence
    obtain rfl := ok.inj hevidence
    obtain ⟨plain, hplain, hbuilt⟩ := bind_eq_ok_iff.mp hbuilt
    rw [ProviderOutput.new] at hplain
    split_ifs at hplain
    obtain rfl := ok.inj hplain
    obtain rfl := ok.inj hbuilt
    rw [ProviderOutput.withClaims] at hclaims
    split_ifs at hclaims
    obtain rfl := ok.inj hclaims
    cases ceiling with
    | none =>
        obtain rfl := ok.inj hattested
        exact ⟨rfl, rfl, rfl, rfl, rfl, rfl, rfl, rfl, rfl, rfl, rfl, rfl⟩
    | some ceiling =>
        change ProviderOutput.withTokenBudgetAttestation _ ceiling = _ at hattested
        rw [ProviderOutput.withTokenBudgetAttestation] at hattested
        split_ifs at hattested
        obtain rfl := ok.inj hattested
        exact ⟨rfl, rfl, rfl, rfl, rfl, rfl, rfl, rfl, rfl, rfl, rfl, rfl⟩
  · intro h
    obtain ⟨answer', citations', claims', providerRunId', effectiveModel', effectiveReasoning',
      effectiveProfile', effectiveProvider', actualInputTokens', actualOutputTokens', ceiling',
      artifacts', validAnswer, validCitations, validClaims, validNames, words, validCeiling,
      validArtifacts⟩ := result
    obtain ⟨rfl, rfl, rfl, rfl, rfl, rfl, rfl, rfl, rfl, rfl, rfl, rfl⟩ := h
    obtain ⟨hrunId, hmodel, hreasoning, hprofile, hprovider⟩ := validNames
    rw [outputOf, ProviderExecutionEvidence.new,
      dif_pos ⟨hprofile, hprovider, hmodel, hreasoning⟩, ok_bind]
    dsimp only
    rw [ProviderOutput.withEffectiveExecution, ProviderOutput.new, dif_pos validAnswer,
      dif_pos validCitations, dif_pos ⟨hrunId, hmodel, hreasoning⟩, dif_pos validArtifacts, ok_bind]
    refine bind_eq_ok_iff.mpr ⟨_, rfl, bind_eq_ok_iff.mpr ⟨_, dif_pos validClaims, ?_⟩⟩
    cases ceiling' with
    | none => rfl
    | some ceiling => exact dif_pos (validCeiling ceiling rfl)

/-- The rows that the request and the preflight fix. -/
def echoRows (request : ProviderRequest) (account : SafeAccountReference) (digest : Str)
    (preflight : Preflight) : List (Str × List Str) :=
  [("stage".toList, ["result".toList]), ("status".toList, ["complete".toList]),
    ("request_digest".toList, [digest]), ("preflight_id".toList, [preflight.id]),
    ("provider".toList, [request.provider]), ("model".toList, [request.model]),
    ("reasoning".toList, [request.requested.asStr]),
    ("tool_policy".toList, [toolPolicy request]), ("account_ref".toList, [account.text]),
    ("no_session".toList, [boolText preflight.noSession]),
    ("input_tokens".toList, [optionalNumber preflight.input]),
    ("max_output_tokens".toList, [optionalNumber preflight.maxOutput]),
    ("exact_complete_tokens".toList, [optionalNumber preflight.complete]),
    ("hard_total_token_ceiling".toList, [optionalNumber preflight.ceiling])]

def outputRows (output : ProviderOutput) : List (Str × List Str) :=
  [("actual_input_tokens".toList, [optionalNumber output.actualInputTokens]),
    ("actual_output_tokens".toList, [optionalNumber output.actualOutputTokens]),
    ("answer".toList, [output.answer]), ("citation".toList, output.citations)] ++
  claimRows output.claims ++
  [("provider_run_id".toList, output.providerRunId.toList),
    ("effective_provider".toList, [effectiveText output.effectiveProvider]),
    ("effective_model".toList, [effectiveText output.effectiveModel]),
    ("effective_reasoning".toList, [effectiveText output.effectiveReasoning])] ++
  artifactRows output.artifacts

def resultRows (request : ProviderRequest) (account : SafeAccountReference) (digest : Str)
    (preflight : Preflight) (output : ProviderOutput) : List (Str × List Str) :=
  echoRows request account digest preflight ++ outputRows output

theorem resultRows_names (request : ProviderRequest) (account : SafeAccountReference)
    (digest : Str) (preflight : Preflight) (output : ProviderOutput) :
    (resultRows request account digest preflight output).map Prod.fst = resultNames := rfl

section Groups

variable {items : List (StrSlice × StrSlice)} {values : FieldMap} {request : ProviderRequest}
  {account : SafeAccountReference} {digest : Str} {preflight : Preflight}

theorem sameIfPresent_eq_ok_iff (h : Groups items values) {key expected : Str} :
    sameIfPresent values key expected = .ok () ↔
      (valuesOf key items).head? = some expected ∨ valuesOf key items = [] := by
  rw [sameIfPresent]
  by_cases hpresent : values.contains key = true
  · have hne := (contains_eq_true_iff h).mp hpresent
    rw [if_pos hpresent, same_eq_ok_iff h]
    exact ⟨.inl, fun hfound => hfound.resolve_right hne⟩
  · have hempty : valuesOf key items = [] := by
      by_contra hne
      exact hpresent ((contains_eq_true_iff h).mpr hne)
    rw [if_neg hpresent]
    exact ⟨fun _ => .inr hempty, fun _ => rfl⟩

/-- Every echoed field has the value of the request or of the preflight. -/
theorem repeats_eq_ok_iff (h : Groups items values) {allowed required : List Str}
    (hstrict : Strict allowed required repeatedNames items) :
    repeats values request account digest preflight = .ok () ↔
      ∀ row ∈ echoRows request account digest preflight, valuesOf row.1 items = row.2 ∨
        row.1 = "no_session".toList ∧ valuesOf row.1 items = [] := by
  simp (disch := decide) only [repeats, check_bind_eq_ok_iff, same_eq_ok_iff h,
    sameIfPresent_eq_ok_iff h, hstrict.head?_eq_some_iff, echoRows, forall_mem_cons]
  simp

end Groups

/-- The names that only the fixture mode of the tests lets a host leave out. -/
def fixtureNames : List Str :=
  ["no_session", "effective_provider", "effective_model", "effective_reasoning"].map String.toList

/-- The fields are those of some rows, with the keys in any order. -/
structure Written (legacyTestFixture : Bool) (rows : List (Str × List Str))
    (items : List (StrSlice × StrSlice)) : Prop where
  said : ∀ row ∈ rows, valuesOf row.1 items = row.2 ∨
    legacyTestFixture = true ∧ row.1 ∈ fixtureNames ∧ valuesOf row.1 items = []
  named : ∀ item ∈ items, item.1.text ∈ rows.map Prod.fst

/-- An output is bound to the request, to the preflight and to the fields it is read from. -/
structure Bound (request : ProviderRequest) (account : SafeAccountReference) (digest : Str)
    (preflight : Preflight) (effectiveProfile : Option Str) (legacyTestFixture : Bool)
    (output : ProviderOutput) (items : List (StrSlice × StrSlice)) : Prop where
  written : Written legacyTestFixture (resultRows request account digest preflight output) items
  identified : output.providerRunId ≠ none ∧ output.effectiveProfile = effectiveProfile
  sized : byteLen output.answer ≤ request.maxOutputBytes
  claims : ∀ row ∈ claimRows output.claims, valuesOf row.1 items = row.2
  artifacts : ∀ row ∈ artifactRows output.artifacts, valuesOf row.1 items = row.2
  tokens : Admissible preflight output.actualInputTokens output.actualOutputTokens
  attested : output.enforcedTokenCeiling = request.hardTotalTokenCeiling
  budget : ∀ ceiling ∈ request.hardTotalTokenCeiling, ∃ used produced,
    output.actualInputTokens = some used ∧ output.actualOutputTokens = some produced ∧
      used + produced ≤ ceiling ∧ ∀ maximum ∈ preflight.maxOutput, produced ≤ maximum
  requested : ∀ requested ∈ request.maxOutputTokens, preflight.maxOutput = some requested

/-- The outputs that a host may deliver for a request. -/
structure Deliverable (request : ProviderRequest) (preflight : Preflight)
    (output : ProviderOutput) : Prop where
  sized : byteLen output.answer ≤ request.maxOutputBytes
  counts : output.citations.length ≤ 64 ∧ output.claims.length ≤ 64
  tokens : Admissible preflight output.actualInputTokens output.actualOutputTokens
  attested : output.enforcedTokenCeiling = preflight.ceiling

/-- The outputs that the fields can name: with a run identifier, and with no effective name that is
the word for a missing one. -/
structure Nameable (output : ProviderOutput) : Prop where
  run : output.providerRunId ≠ none
  provider : output.effectiveProvider ≠ some unavailableText
  model : output.effectiveModel ≠ some unavailableText
  reasoning : output.effectiveReasoning ≠ some unavailableText

section Results

variable {items : List (StrSlice × StrSlice)} {values : FieldMap} {request : ProviderRequest}
  {account : SafeAccountReference} {digest : Str} {preflight : Preflight}
  {effectiveProfile : Option Str} {legacyTestFixture : Bool} {output : ProviderOutput}

/-- An effective name is said by its row, or is missing in fixture mode. -/
theorem effective_said (h : Groups items values)
    (hstrict : Strict resultNames (requiredNames legacyTestFixture) repeatedNames items)
    {key legacy : Str} {name : Option Str} (hfixture : key ∈ fixtureNames)
    (hkey : key ∉ repeatedNames)
    (heffective : effective values legacyTestFixture key legacy = .ok name) :
    valuesOf key items = [effectiveText name] ∨
      legacyTestFixture = true ∧ key ∈ fixtureNames ∧ valuesOf key items = [] := by
  obtain hfound | ⟨hlegacy, hempty⟩ := effective_reported h heffective
  · exact .inl ((hstrict.head?_eq_some_iff hkey).mp hfound)
  · exact .inr ⟨hlegacy, hfixture, hempty⟩

theorem resultOf_bound (h : Groups items values) (hattested : Attested request preflight)
    (hok : resultOf values request account digest preflight effectiveProfile legacyTestFixture =
      .ok output) :
    Bound request account digest preflight effectiveProfile legacyTestFixture output items := by
  simp only [resultOf, bind_eq_ok_iff] at hok
  obtain ⟨_, hstrict, _, hrepeats, input, hinput, produced, hproduced, _, htokens, answer, hanswer,
    _, hsized, claims, hclaims, artifacts, hartifacts, provider, hprovider, model, hmodel,
    reasoning, hreasoning, runId, hrunId, hbuilt⟩ := hok
  have hstrict := (strict_eq_ok_iff h).mp hstrict
  have hrepeats := (repeats_eq_ok_iff h hstrict).mp hrepeats
  rw [optionalCount_eq_ok_iff h, hstrict.head?_eq_some_iff (by decide)] at hinput hproduced
  rw [value_eq_ok_iff h, hstrict.head?_eq_some_iff (by decide)] at hanswer hrunId
  rw [checkTokens_eq_ok_iff hattested] at htokens
  rw [failIf_eq_ok_iff, Nat.not_lt] at hsized
  rw [parseClaims_eq_ok_iff h] at hclaims
  rw [parseArtifacts_eq_ok_iff h] at hartifacts
  have hprovider := effective_said h hstrict (by decide) (by decide) hprovider
  have hmodel := effective_said h hstrict (by decide) (by decide) hmodel
  have hreasoning := effective_said h hstrict (by decide) (by decide) hreasoning
  rw [mapError_eq_ok_iff, outputOf_eq_ok_iff, valuesAt_eq h] at hbuilt
  obtain ⟨rfl, hcitations, rfl, hrun, rfl, rfl, rfl, rfl, hused, hmade, hceiling, rfl⟩ := hbuilt
  rw [← hused, ← hmade] at htokens
  rw [← hused] at hinput
  rw [← hmade] at hproduced
  refine ⟨⟨?_, ?_⟩, ⟨by rw [hrun]; simp, rfl⟩, hsized, hclaims, hartifacts, htokens,
    hceiling.trans hattested.ceiling, ?_, hattested.requested⟩
  · rw [resultRows, forall_mem_append]
    refine ⟨fun row hrow => ?_, ?_⟩
    · obtain hsaid | ⟨hsession, hempty⟩ := hrepeats row hrow
      · exact .inl hsaid
      · right
        cases legacyTestFixture with
        | true => exact ⟨rfl, by rw [hsession]; decide, hempty⟩
        | false =>
            have hone := hstrict.present row.1 (by rw [hsession]; decide)
            rw [hempty] at hone
            cases hone
    · simp only [outputRows, forall_mem_append, forall_mem_cons]
      refine ⟨⟨⟨⟨.inl hinput, .inl hproduced, .inl hanswer, .inl hcitations.symm, by simp⟩,
        fun row hrow => .inl (hclaims row hrow)⟩, .inl ?_, hprovider, hmodel, hreasoning,
        by simp⟩, fun row hrow => .inl (hartifacts row hrow)⟩
      rw [hrunId, hrun]
      rfl
  · rw [resultRows_names]
    exact hstrict.named
  · rw [← hattested.ceiling]
    exact htokens.budget

/-- A field that may not be repeated has one value, and no field has more than sixty-four. -/
theorem resultRows_lengths (hcounts : output.citations.length ≤ 64 ∧ output.claims.length ≤ 64)
    (hrun : output.providerRunId ≠ none) :
    ∀ row ∈ resultRows request account digest preflight output,
      row.2.length ≤ 64 ∧ (row.1 ∉ repeatedNames → row.2.length = 1) := by
  have hsingle : ∀ {key text : Str},
      [text].length ≤ 64 ∧ (key ∉ repeatedNames → [text].length = 1) := by
    intro key text
    exact ⟨by simp, fun _ => rfl⟩
  have hmany : ∀ {key : Str} {texts : List Str}, key ∈ repeatedNames → texts.length ≤ 64 →
      texts.length ≤ 64 ∧ (key ∉ repeatedNames → texts.length = 1) := by
    intro key texts hkey hlength
    exact ⟨hlength, fun hnot => absurd hkey hnot⟩
  have hclaims : ∀ row ∈ claimRows output.claims,
      row.2.length ≤ 64 ∧ (row.1 ∉ repeatedNames → row.2.length = 1) := by
    intro row hrow
    have hlength : row.2.length = output.claims.length := by
      revert row
      simp [claimRows]
    refine hmany ?_ (hlength ▸ hcounts.2)
    have hname := mem_map_of_mem hrow (f := Prod.fst)
    revert hname
    generalize row.1 = key
    simp only [claimRows, map_cons, map_nil]
    revert key
    decide
  have hartifacts : ∀ row ∈ artifactRows output.artifacts,
      row.2.length ≤ 64 ∧ (row.1 ∉ repeatedNames → row.2.length = 1) := by
    intro row hrow
    have hlength : row.2.length = output.artifacts.length := by
      revert row
      simp [artifactRows]
    refine hmany ?_ (hlength ▸ output.validArtifacts)
    have hname := mem_map_of_mem hrow (f := Prod.fst)
    revert hname
    generalize row.1 = key
    simp only [artifactRows, map_cons, map_nil]
    revert key
    decide
  obtain ⟨run, hrun⟩ := Option.ne_none_iff_exists'.mp hrun
  simp only [resultRows, echoRows, outputRows, hrun, Option.toList_some, forall_mem_append,
    forall_mem_cons]
  refine ⟨⟨hsingle, hsingle, hsingle, hsingle, hsingle, hsingle, hsingle, hsingle, hsingle, hsingle,
    hsingle, hsingle, hsingle, hsingle, by simp⟩, ⟨⟨⟨hsingle, hsingle, hsingle,
    hmany (by decide) hcounts.1, by simp⟩, hclaims⟩, hsingle, hsingle, hsingle, hsingle, by simp⟩,
    hartifacts⟩

/-- Fields with all the rows of a deliverable output pass the shape check. -/
theorem strict_of_said (hdeliverable : Deliverable request preflight output)
    (hrun : output.providerRunId ≠ none)
    (hsaid : ∀ row ∈ resultRows request account digest preflight output,
      valuesOf row.1 items = row.2)
    (hnamed : ∀ item ∈ items, item.1.text ∈ resultNames) :
    Strict resultNames (requiredNames legacyTestFixture) repeatedNames items := by
  have hlengths : ∀ key ∈ resultNames, (valuesOf key items).length ≤ 64 ∧
      (key ∉ repeatedNames → (valuesOf key items).length = 1) := by
    intro key hkey
    rw [← resultRows_names request account digest preflight output] at hkey
    obtain ⟨row, hrow, rfl⟩ := mem_map.mp hkey
    rw [hsaid row hrow]
    exact resultRows_lengths hdeliverable.counts hrun row hrow
  have hrequired : ∀ key ∈ requiredNames legacyTestFixture,
      key ∈ resultNames ∧ key ∉ repeatedNames := by
    cases legacyTestFixture with
    | false => decide +kernel
    | true => decide +kernel
  have hrepeated : ∀ key ∈ repeatedNames, key ∈ resultNames := by decide +kernel
  refine ⟨hnamed, fun key hkey => ?_, fun key hkey => ?_, fun key hkey => ?_⟩
  · exact (hlengths key (hrequired key hkey).1).2 (hrequired key hkey).2
  · exact (hlengths key (hrepeated key hkey)).1
  · by_cases hname : key ∈ resultNames
    · exact ((hlengths key hname).2 hkey).le
    · have hempty : valuesOf key items = [] := by
        by_contra hne
        obtain ⟨item, hitem, rfl⟩ := valuesOf_ne_nil_iff.mp hne
        exact hname (hnamed item hitem)
      simp [hempty]

theorem exists_words {count : Option ℕ} (h : ∀ tokens ∈ count, tokens < 2 ^ 64) :
    ∃ word : Option Word, word.map Subtype.val = count := by
  cases count with
  | none => exact ⟨none, rfl⟩
  | some count => exact ⟨some ⟨count, h count rfl⟩, rfl⟩

/-- A deliverable output is read back from its rows. -/
theorem resultOf_eq_ok (h : Groups items values) (hattested : Attested request preflight)
    (hdeliverable : Deliverable request preflight output) (hnameable : Nameable output)
    (hwritten : Written false (resultRows request account digest preflight output) items) :
    resultOf values request account digest preflight output.effectiveProfile legacyTestFixture =
      .ok output := by
  have hsaid : ∀ row ∈ resultRows request account digest preflight output,
      valuesOf row.1 items = row.2 := fun row hrow =>
    (hwritten.said row hrow).resolve_right fun hfixture => absurd hfixture.1 (by decide)
  have hnamed := hwritten.named
  rw [resultRows_names] at hnamed
  have hstrict : Strict resultNames (requiredNames legacyTestFixture) repeatedNames items :=
    strict_of_said hdeliverable hnameable.run hsaid hnamed
  rw [resultRows, forall_mem_append] at hsaid
  obtain ⟨hecho, hrows⟩ := hsaid
  simp only [outputRows, forall_mem_append, forall_mem_cons] at hrows
  obtain ⟨⟨⟨⟨hinput, hproduced, hanswer, hcitations, _⟩, hclaims⟩, hrun, hprovider, hmodel,
    hreasoning, _⟩, hartifacts⟩ := hrows
  obtain ⟨input, hused⟩ := exists_words output.words.1
  obtain ⟨produced, hmade⟩ := exists_words output.words.2
  obtain ⟨run, hidentified⟩ := Option.ne_none_iff_exists'.mp hnameable.run
  obtain ⟨_, hvalidModel, hvalidReasoning, _, hvalidProvider⟩ := output.validNames
  rw [← hused, ← hstrict.head?_eq_some_iff (by decide), ← optionalCount_eq_ok_iff h] at hinput
  rw [← hmade, ← hstrict.head?_eq_some_iff (by decide), ← optionalCount_eq_ok_iff h] at hproduced
  rw [← hstrict.head?_eq_some_iff (by decide), ← value_eq_ok_iff h] at hanswer
  rw [hidentified, Option.toList_some, ← hstrict.head?_eq_some_iff (by decide),
    ← value_eq_ok_iff h] at hrun
  have htokens := (checkTokens_eq_ok_iff hattested).mpr hdeliverable.tokens
  rw [← hused, ← hmade] at htokens
  have hsized : failIf (request.maxOutputBytes < byteLen output.answer) invalidResult = .ok () :=
    failIf_eq_ok_iff.mpr (Nat.not_lt.mpr hdeliverable.sized)
  rw [resultOf, (strict_eq_ok_iff h).mpr hstrict, ok_bind,
    (repeats_eq_ok_iff h hstrict).mpr fun row hrow => .inl (hecho row hrow), ok_bind, hinput,
    ok_bind, hproduced, ok_bind, htokens, ok_bind, hanswer, ok_bind, hsized, ok_bind,
    (parseClaims_eq_ok_iff h).mpr hclaims, ok_bind, (parseArtifacts_eq_ok_iff h).mpr hartifacts,
    ok_bind, effective_eq_ok h hvalidProvider hnameable.provider hprovider, ok_bind,
    effective_eq_ok h hvalidModel hnameable.model hmodel, ok_bind,
    effective_eq_ok h hvalidReasoning hnameable.reasoning hreasoning, ok_bind, hrun, ok_bind,
    mapError_eq_ok_iff, outputOf_eq_ok_iff, valuesAt_eq h]
  exact ⟨rfl, hcitations.symm, rfl, hidentified, rfl, rfl, rfl, rfl, hused.symm, hmade.symm,
    hdeliverable.attested, rfl⟩

end Results

/-! ## Every index is in range -/

section Graceful

variable {α β : Type}

/-- The outcome is not a panic. -/
def Graceful (outcome : Except HostError α) : Prop := outcome ≠ .error .panicked

theorem graceful_ok (value : α) : Graceful (.ok value) := by
  intro h
  cases h

theorem Graceful.bind {first : Except HostError α} {next : α → Except HostError β}
    (h : Graceful first) (hnext : ∀ value, first = .ok value → Graceful (next value)) :
    Graceful (first >>= next) := by
  intro hpanic
  obtain hpanic | ⟨value, hvalue, hpanic⟩ := bind_eq_error_iff.mp hpanic
  · exact h hpanic
  · exact hnext value hvalue hpanic

theorem graceful_failIf {condition : Prop} [Decidable condition] {error : Agent.ProviderError} :
    Graceful (failIf condition (.provider error)) := by
  intro h
  rw [failIf_eq_error_iff] at h
  cases h.2

theorem graceful_mapError {ε : Type} {outcome : Except ε α} :
    Graceful (outcome.mapError fun _ => invalidResult) := by
  intro h
  obtain ⟨_, _, h⟩ := mapError_eq_error_iff.mp h
  cases h

theorem graceful_mapM {f : α → Except HostError β} {items : List α}
    (h : ∀ item ∈ items, Graceful (f item)) : Graceful (items.mapM f) := by
  induction items with
  | nil => exact graceful_ok []
  | cons item rest ih =>
      rw [mapM_cons]
      refine (h item mem_cons_self).bind fun result _ => ?_
      refine (ih fun other hother => h other (mem_cons_of_mem _ hother)).bind fun others _ => ?_
      exact graceful_ok (result :: others)

theorem graceful_parseValues (payload : List UInt8) : Graceful (parseValues payload) := by
  intro h
  obtain ⟨fault, hfault, h⟩ := mapError_eq_error_iff.mp h
  rw [parse_error hfault] at h
  cases h

theorem graceful_numberWord (text : Str) : Graceful (numberWord text) := by
  rw [numberWord]
  split
  · exact graceful_ok _
  · rename_i fault hfault
    rw [number_error hfault]
    intro h
    cases h

variable (values : FieldMap)

theorem graceful_value (key : Str) : Graceful (value values key) := by
  rw [value]
  split
  · exact graceful_ok _
  · intro h
    cases h

theorem graceful_same (key expected : Str) : Graceful (same values key expected) :=
  (graceful_value values key).bind fun _ _ => graceful_failIf

theorem graceful_sameIfPresent (key expected : Str) :
    Graceful (sameIfPresent values key expected) := by
  rw [sameIfPresent]
  split
  · exact graceful_same values key expected
  · exact graceful_ok ()

theorem graceful_optionalCount (key : Str) : Graceful (optionalCount values key) := by
  refine (graceful_value values key).bind fun text _ => ?_
  split
  · exact graceful_ok none
  · exact (graceful_numberWord text).bind fun count _ => graceful_ok (some count)

/-- The six lists are as long as the first, over whose positions the claims run. -/
theorem graceful_parseClaims : Graceful (parseClaims values) := by
  have hitem : ∀ {items : List Str} {index : ℕ}, index < items.length →
      Graceful (itemAt items index) := by
    intro items index hindex
    rw [itemAt, getElem?_eq_getElem hindex]
    exact graceful_ok _
  have hmaterial : ∀ text, Graceful (materialOf text) := by
    intro text
    rw [materialOf]
    split_ifs
    · exact graceful_ok true
    · exact graceful_ok false
    · intro h
      cases h
  refine graceful_failIf.bind fun _ hlengths => graceful_mapM fun index hindex => ?_
  rw [failIf_eq_ok_iff] at hlengths
  simp only [not_exists, not_and, not_not, forall_mem_cons] at hlengths
  obtain ⟨_, htexts, hmaterials, hlocators, hdigests, hsupports, _⟩ := hlengths
  have hindex := mem_range.mp hindex
  refine ((hitem (by rwa [hmaterials])).bind fun text _ => hmaterial text).bind fun _ _ => ?_
  refine (hitem hindex).bind fun _ _ => (hitem (by rwa [htexts])).bind fun _ _ => ?_
  refine (hitem (by rwa [hlocators])).bind fun _ _ => (hitem (by rwa [hdigests])).bind fun _ _ => ?_
  exact (hitem (by rwa [hsupports])).bind fun _ _ => graceful_mapError

theorem graceful_decodeHex (text : Str) : Graceful (decodeHex text) := by
  have hdigit : ∀ c, Graceful (digit c) := by
    intro c
    rw [digit]
    split_ifs
    · exact graceful_ok _
    · exact graceful_ok _
    · intro h
      cases h
  have hchunks : Graceful (decodeChunks text) := by
    fun_induction decodeChunks text with
    | case1 high low rest ih =>
        refine (hdigit high).bind fun _ _ => (hdigit low).bind fun _ _ => ?_
        exact ih.bind fun decoded _ => graceful_ok _
    | case2 c | case3 => exact graceful_ok []
  exact graceful_failIf.bind fun _ _ => hchunks

theorem graceful_parseArtifacts : Graceful (parseArtifacts values) := by
  refine graceful_failIf.bind fun _ _ => graceful_mapM fun item _ => ?_
  have hkind : Graceful (artifactKind item.1.1.1) := by
    rw [artifactKind]
    split_ifs
    · exact graceful_ok _
    · exact graceful_ok _
    · exact graceful_ok _
    · exact graceful_ok _
    · intro h
      cases h
  refine hkind.bind fun _ _ => (graceful_decodeHex _).bind fun _ _ => ?_
  exact graceful_mapError.bind fun _ _ => graceful_failIf.bind fun _ _ => graceful_ok _

theorem graceful_effective (legacyTestFixture : Bool) (key legacy : Str) :
    Graceful (effective values legacyTestFixture key legacy) := by
  rw [effective]
  split
  · intro h
    cases h
  · split_ifs
    · exact graceful_ok none
    · exact graceful_ok _
    · intro h
      cases h

theorem graceful_checkTokens (preflight : Preflight) (input output : Option ℕ) :
    Graceful (checkTokens preflight input output) := by
  have htotal : Graceful (actualTotal input output) := by
    rw [actualTotal.eq_def]
    split
    · refine Graceful.bind ?_ fun sum _ => graceful_ok (some sum)
      rw [checkedAdd]
      split_ifs
      · exact graceful_ok _
      · intro h
        cases h
    · exact graceful_ok none
  exact graceful_failIf.bind fun _ _ => htotal.bind fun _ _ => graceful_failIf

/-- No payload makes the reader of results panic. -/
theorem graceful_parseResult (payload : List UInt8) (request : ProviderRequest)
    (account : SafeAccountReference) (digest : Str) (preflight : Preflight)
    (effectiveProfile : Option Str) (legacyTestFixture : Bool) :
    Graceful (parseResult payload request account digest preflight effectiveProfile
      legacyTestFixture) := by
  refine (graceful_parseValues payload).bind fun values _ => ?_
  have hrepeats : Graceful (repeats values request account digest preflight) := by
    repeat refine (graceful_same values _ _).bind fun _ _ => ?_
    refine (graceful_sameIfPresent values _ _).bind fun _ _ => ?_
    repeat refine (graceful_same values _ _).bind fun _ _ => ?_
    exact graceful_same values _ _
  refine graceful_failIf.bind fun _ _ => hrepeats.bind fun _ _ => ?_
  refine (graceful_optionalCount values _).bind fun _ _ => ?_
  refine (graceful_optionalCount values _).bind fun _ _ => ?_
  refine (graceful_checkTokens preflight _ _).bind fun _ _ => ?_
  refine (graceful_value values _).bind fun _ _ => graceful_failIf.bind fun _ _ => ?_
  refine (graceful_parseClaims values).bind fun _ _ => ?_
  refine (graceful_parseArtifacts values).bind fun _ _ => ?_
  refine (graceful_effective values _ _ _).bind fun _ _ => ?_
  refine (graceful_effective values _ _ _).bind fun _ _ => ?_
  refine (graceful_effective values _ _ _).bind fun _ _ => ?_
  exact (graceful_value values _).bind fun _ _ => graceful_mapError

end Graceful

/-! ## Results are bound to their requests -/

/-- A list of fields is read back as its groups. -/
theorem parseValues_fields {items : List (StrSlice × StrSlice)}
    (h : ∀ item ∈ items, validKey item.1.text = true) :
    parseValues (fields items) = .ok (pushAll OrdMap.empty items) := by
  rw [parseValues, parse_eq_ok.mpr ⟨items, h, rfl, rfl⟩]
  rfl

theorem validKey_of_resultNames : ∀ key ∈ resultNames, validKey key = true := by
  decide +kernel

/-- The fields of a deliverable output are read back as the output. -/
theorem parseResult_eq_ok {request : ProviderRequest} {account : SafeAccountReference}
    {digest : Str} {preflight : Preflight} {legacyTestFixture : Bool} {output : ProviderOutput}
    {items : List (StrSlice × StrSlice)} (hattested : Attested request preflight)
    (hdeliverable : Deliverable request preflight output) (hnameable : Nameable output)
    (hwritten : Written false (resultRows request account digest preflight output) items) :
    parseResult (fields items) request account digest preflight output.effectiveProfile
      legacyTestFixture = .ok output := by
  have hvalid : ∀ item ∈ items, validKey item.1.text = true := by
    intro item hitem
    have hname := hwritten.named item hitem
    rw [resultRows_names] at hname
    exact validKey_of_resultNames _ hname
  rw [parseResult, parseValues_fields hvalid, ok_bind]
  exact resultOf_eq_ok (groups_pushAll items) hattested hdeliverable hnameable hwritten

/-- A result that is accepted is bound to the request and the preflight, what a host may deliver
and can name is accepted in any order of the fields and returned as it is, and no payload makes the
reader panic. -/
theorem parseResult_bound {first : List UInt8} {request : ProviderRequest}
    {account : SafeAccountReference} {digest : Str} {legacyTestFixture : Bool}
    {preflight : Preflight}
    (h : parsePreflight first request account digest legacyTestFixture = .ok preflight) :
    (∀ payload effectiveProfile output,
      parseResult payload request account digest preflight effectiveProfile legacyTestFixture =
        .ok output →
      ∃ items, payload = fields items ∧ Bound request account digest preflight effectiveProfile
        legacyTestFixture output items) ∧
    (∀ output items, Deliverable request preflight output → Nameable output →
      Written false (resultRows request account digest preflight output) items →
      parseResult (fields items) request account digest preflight output.effectiveProfile
        legacyTestFixture = .ok output) ∧
    ∀ payload effectiveProfile,
      parseResult payload request account digest preflight effectiveProfile legacyTestFixture ≠
        .error .panicked := by
  have hattested := parsePreflight_attested h
  refine ⟨fun payload effectiveProfile output hok => ?_,
    fun output items hdeliverable hnameable hwritten =>
      parseResult_eq_ok hattested hdeliverable hnameable hwritten,
    fun payload effectiveProfile => graceful_parseResult _ _ _ _ _ _ _⟩
  obtain ⟨values, hvalues, hok⟩ := bind_eq_ok_iff.mp hok
  obtain ⟨items, _, hpayload, rfl⟩ := parse_eq_ok.mp (mapError_eq_ok_iff.mp hvalues)
  exact ⟨items, hpayload, resultOf_bound (groups_pushAll items) hattested hok⟩

/-- A field, where its texts can be strings. -/
def fieldOf (key text : Str) : StrSlice × StrSlice :=
  if h : byteLen key ≤ usizeMax ∧ byteLen text ≤ usizeMax then (⟨key, h.1⟩, ⟨text, h.2⟩)
  else (⟨[], by decide⟩, ⟨[], by decide⟩)

/-- The fields of some rows, one row after the other. -/
def fieldsOf (rows : List (Str × List Str)) : List (StrSlice × StrSlice) :=
  rows.flatMap fun row => row.2.map (fieldOf row.1)

/-- A request without token limits. -/
def plainRequest : ProviderRequest where
  provider := ['p']
  model := ['m']
  requested := .low
  toolPolicy := ⟨∅, ∅⟩
  prompt := ['q']
  maxOutputBytes := 1
  noSession := false
  hardTotalTokenCeiling := none
  maxOutputTokens := none
  delegationDepth := 0

def plainAccount : SafeAccountReference := ⟨['a'], rfl⟩

/-- A preflight that counts nothing. -/
def plainPreflight : Preflight := ⟨['x'], false, none, none, none, none⟩

theorem toolPolicy_plainRequest : toolPolicy plainRequest = "allow:;deny:".toList := by
  have hallowed : plainRequest.toolPolicy.allowed = [] := Finset.sort_empty _
  have hdenied : plainRequest.toolPolicy.denied = [] := Finset.sort_empty _
  unfold toolPolicy
  rw [hallowed, hdenied]
  rfl

/-- What a host answers to it. -/
def plainPreflightRows : List (Str × List Str) :=
  [("stage".toList, ["preflight-result".toList]), ("status".toList, ["supported".toList]),
    ("provider".toList, [['p']]), ("model".toList, [['m']]), ("reasoning".toList, ["low".toList]),
    ("tool_policy".toList, ["allow:;deny:".toList]), ("account_ref".toList, [['a']]),
    ("request_digest".toList, [['d']]), ("preflight_id".toList, [['x']]),
    ("no_session".toList, ["false".toList]), ("input_tokens".toList, [unavailableText]),
    ("max_output_tokens".toList, [unavailableText]),
    ("exact_complete_tokens".toList, [unavailableText]),
    ("hard_total_token_ceiling".toList, [unavailableText])]

theorem parsePreflight_plain :
    parsePreflight (fields (fieldsOf plainPreflightRows)) plainRequest plainAccount ['d'] false =
      .ok plainPreflight := by
  rw [parsePreflight, parseValues_fields (by decide +kernel), ok_bind]
  unfold preflightOf
  rw [toolPolicy_plainRequest]
  decide +kernel

theorem parseResult_bound_plain :
    (∀ payload effectiveProfile output,
      parseResult payload plainRequest plainAccount ['d'] plainPreflight effectiveProfile false =
        .ok output →
      ∃ items, payload = fields items ∧ Bound plainRequest plainAccount ['d'] plainPreflight
        effectiveProfile false output items) ∧
    (∀ output items, Deliverable plainRequest plainPreflight output → Nameable output →
      Written false (resultRows plainRequest plainAccount ['d'] plainPreflight output) items →
      parseResult (fields items) plainRequest plainAccount ['d'] plainPreflight
        output.effectiveProfile false = .ok output) ∧
    ∀ payload effectiveProfile,
      parseResult payload plainRequest plainAccount ['d'] plainPreflight effectiveProfile false ≠
        .error .panicked :=
  parseResult_bound parsePreflight_plain

/-- An output that names no provider, model or reasoning level. -/
def plainOutput : ProviderOutput where
  answer := ['y']
  citations := []
  claims := []
  providerRunId := some ['r']
  effectiveModel := none
  effectiveReasoning := none
  effectiveProfile := none
  effectiveProvider := none
  actualInputTokens := none
  actualOutputTokens := none
  enforcedTokenCeiling := none
  artifacts := []
  validAnswer := by decide
  validCitations := Agent.noCitations
  validClaims := Agent.noClaims
  validNames := by decide +kernel
  words := Agent.noTokens
  validCeiling := Agent.noCeiling
  validArtifacts := Agent.noArtifacts

/-- The output of a model that is called `unavailable`. -/
def wordOutput : ProviderOutput :=
  { plainOutput with
    effectiveModel := some unavailableText
    validNames := by decide +kernel }

/-- An output of a model with this name is read back as one that names no model. -/
theorem not_parseResult_returns_word :
    ¬ ∀ first request account digest legacyTestFixture preflight,
      parsePreflight first request account digest legacyTestFixture = .ok preflight →
      ∀ output items, Deliverable request preflight output →
        Written false (resultRows request account digest preflight output) items →
        parseResult (fields items) request account digest preflight output.effectiveProfile
          legacyTestFixture = .ok output := by
  intro h
  have htokens : Admissible plainPreflight none none := by
    rw [admissible_iff]
    simp [plainPreflight]
  have hwritten : Written false
      (resultRows plainRequest plainAccount ['d'] plainPreflight wordOutput)
      (fieldsOf (resultRows plainRequest plainAccount ['d'] plainPreflight wordOutput)) := by
    have hvalues : (∀ row ∈ resultRows plainRequest plainAccount ['d'] plainPreflight wordOutput,
        valuesOf row.1 (fieldsOf (resultRows plainRequest plainAccount ['d'] plainPreflight
          wordOutput)) = row.2) ∧
        ∀ item ∈ fieldsOf (resultRows plainRequest plainAccount ['d'] plainPreflight wordOutput),
          item.1.text ∈ (resultRows plainRequest plainAccount ['d'] plainPreflight
            wordOutput).map Prod.fst := by
      rw [resultRows, echoRows, toolPolicy_plainRequest]
      decide +kernel
    exact ⟨fun row hrow => .inl (hvalues.1 row hrow), hvalues.2⟩
  have hword := h _ _ _ _ _ _ parsePreflight_plain wordOutput _
    ⟨by decide, by decide, htokens, rfl⟩ hwritten
  have hplain : parseResult
      (fields (fieldsOf (resultRows plainRequest plainAccount ['d'] plainPreflight wordOutput)))
      plainRequest plainAccount ['d'] plainPreflight plainOutput.effectiveProfile false =
      .ok plainOutput :=
    parseResult_eq_ok (parsePreflight_attested parsePreflight_plain)
      ⟨by decide, by decide, htokens, rfl⟩ ⟨by decide, by decide, by decide, by decide⟩ hwritten
  have hsame : wordOutput = plainOutput := Except.ok.inj (hword.symm.trans hplain)
  exact absurd (congrArg ProviderOutput.effectiveModel hsame) (by decide)

end Bran.Adapters.Provider
