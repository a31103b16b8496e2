import Bran.Library.Encoding
import Bran.Library.Utf8
import Bran.Library.Validation
import Bran.Scan.Digest
import Mathlib.Data.Prod.Lex

/-!
# Rebuilt artifacts

`rebuild` and `input_digest` of `derived_state.rs`.  A rebuilt artifact depends on the set of its
inputs alone.  The digest counts an input as often as it is listed, and its records, like the entries
of a snapshot, can be told apart only while no separator stands in a key or a value.
-/

namespace Bran.Repair

open Text Scan Validation List

/-! ## Inputs -/

inductive DerivedArtifactKind
  | index
  | cache
  | snapshot
  | report
  | generatedValidator
  deriving DecidableEq

def DerivedArtifactKind.asStr : DerivedArtifactKind → Str
  | .index => "index".toList
  | .cache => "cache".toList
  | .snapshot => "snapshot".toList
  | .report => "report".toList
  | .generatedValidator => "generated-validator".toList

/-- The refusals of `rebuild`. -/
inductive DerivedRebuildRefusal
  | invalidInputs (kind : DerivedArtifactKind) (reason : Str)
  | conflictingInput (key : Str)
  deriving DecidableEq

abbrev RebuildInput := Str × List UInt8

/-- The order of `sort_by`: by key, and by value where the keys are equal. -/
def inputOrder (input : RebuildInput) : Str ×ₗ List ℕ :=
  toLex (input.1, input.2.map UInt8.toNat)

/-- The loop that drops repeated inputs; `deduped` holds the inputs before it. -/
def dedupe : List RebuildInput → List RebuildInput →
    Except DerivedRebuildRefusal (List RebuildInput)
  | deduped, [] => .ok deduped
  | deduped, (key, value) :: rest =>
      match deduped.getLast? with
      | some (previousKey, previousValue) =>
          if previousKey = key then
            if previousValue ≠ value then .error (.conflictingInput key) else dedupe deduped rest
          else dedupe (deduped ++ [(key, value)]) rest
      | none => dedupe (deduped ++ [(key, value)]) rest

/-! ## Artifacts -/

/-- The lanes of an identity as `{:016x}-{:016x}-{:016x}`. -/
def lanesText (identity : ContentIdentity) : Str :=
  hexadecimal 16 identity.lanes.1.toNat ++ '-' :: (hexadecimal 16 identity.lanes.2.1.toNat ++
    '-' :: hexadecimal 16 identity.lanes.2.2.toNat)

/-- How many bytes at the front of a text belong together, and whether they are a scalar value;
the others are the longest beginning of one. -/
def utf8Front : List UInt8 → ℕ × Bool
  | [] => (0, true)
  | first :: rest =>
      let continues (low high : UInt8) (at_ : ℕ) : Bool :=
        rest[at_]?.any fun byte => low ≤ byte && byte ≤ high
      if first < 0x80 then (1, true)
      else if 0xC2 ≤ first && first ≤ 0xDF then
        if continues 0x80 0xBF 0 then (2, true) else (1, false)
      else if 0xE0 ≤ first && first ≤ 0xEF then
        if !continues (if first = 0xE0 then 0xA0 else 0x80)
            (if first = 0xED then 0x9F else 0xBF) 0 then (1, false)
        else if continues 0x80 0xBF 1 then (3, true) else (2, false)
      else if 0xF0 ≤ first && first ≤ 0xF4 then
        if !continues (if first = 0xF0 then 0x90 else 0x80)
            (if first = 0xF4 then 0x8F else 0xBF) 0 then (1, false)
        else if !continues 0x80 0xBF 1 then (2, false)
        else if continues 0x80 0xBF 2 then (4, true) else (3, false)
      else (1, false)

/-- `String::from_utf8_lossy`, as the bytes of the string; `fuel` exceeds the length. -/
def fromUtf8Lossy : ℕ → List UInt8 → List UInt8
  | 0, _ => []
  | _ + 1, [] => []
  | fuel + 1, text =>
      let (size, valid) := utf8Front text
      (if valid then text.take size else [0xEF, 0xBF, 0xBD]) ++ fromUtf8Lossy fuel (text.drop size)

/-- The line of an index or a cache. -/
def indexEntry (input : RebuildInput) : List UInt8 :=
  bytes input.1 ++ 0x09 :: (bytes (lanesText (.fromBytes input.2)) ++ [0x0A])

def snapshotEntry (input : RebuildInput) : List UInt8 :=
  bytes input.1 ++ 0x0A :: (bytes (decimal input.2.length) ++ 0x0A :: (input.2 ++ [0x0A]))

def reportValue (value : List UInt8) : List UInt8 :=
  if value.length > 128 then
    fromUtf8Lossy (value.length + 1) (value.take 128) ++
      bytes ("...(".toList ++ decimal value.length ++ " bytes)".toList)
  else fromUtf8Lossy (value.length + 1) value

def reportEntry (input : RebuildInput) : List UInt8 :=
  bytes input.1 ++ (bytes ": ".toList ++ (reportValue input.2 ++ [0x0A]))

def validatorEntry (input : RebuildInput) : List UInt8 :=
  bytes input.1 ++ 0x0A :: (input.2 ++ [0x0A])

def derivedRebuildSchemaVersion : Str := "1.0.0".toList

/-- The artifact of inputs without repetition. -/
def artifact (kind : DerivedArtifactKind) (deduped : List RebuildInput) : List UInt8 :=
  match kind with
  | .index | .cache => deduped.flatMap indexEntry
  | .snapshot => deduped.flatMap snapshotEntry
  | .report =>
      bytes ("# BRAN Derived ".toList ++ kind.asStr ++ "\nschema: ".toList ++
        derivedRebuildSchemaVersion ++ "\n\n".toList) ++ deduped.flatMap reportEntry
  | .generatedValidator =>
      let out := deduped.flatMap validatorEntry
      out ++ bytes ("\n--validator-footer:".toList ++ lanesText (.fromBytes out) ++ ['\n'])

def rebuild (kind : DerivedArtifactKind) (inputs : List RebuildInput) :
    Except DerivedRebuildRefusal (List UInt8) := do
  if inputs = [] then
    .error (.invalidInputs kind "no inputs supplied for deterministic rebuild".toList)
  else
    let deduped ← dedupe [] (sortBy inputOrder inputs)
    return artifact kind deduped

/-- What `input_digest` hashes for one input. -/
def inputRecord (input : RebuildInput) : List UInt8 := bytes input.1 ++ 0 :: (input.2 ++ [0])

/-- What `input_digest` hashes. -/
def combined (inputs : List RebuildInput) : List UInt8 :=
  (sortBy Prod.fst inputs).flatMap inputRecord

def inputDigest (inputs : List RebuildInput) : Str := lanesText (.fromBytes (combined inputs))

/-! ## Repeated inputs -/

/-- Some key occurs with two different values. -/
def Conflicting (inputs : List RebuildInput) : Prop :=
  ∃ first ∈ inputs, ∃ second ∈ inputs, first.1 = second.1 ∧ first.2 ≠ second.2

def Increasing (inputs : List RebuildInput) : Prop :=
  inputs.Pairwise fun first second => first.1 < second.1

theorem key_le_of_inputOrder_le {first second : RebuildInput}
    (h : inputOrder first ≤ inputOrder second) : first.1 ≤ second.1 := by
  rcases Prod.Lex.toLex_le_toLex.mp h with hlt | ⟨heq, _⟩
  · exact hlt.le
  · exact heq.le

variable {first inputs second : List RebuildInput}

/-- Of inputs with increasing keys, the key decides. -/
theorem Increasing.eq_of_key_eq (h : Increasing inputs) {first second : RebuildInput}
    (hfirst : first ∈ inputs) (hsecond : second ∈ inputs) (hkey : first.1 = second.1) :
    first = second := by
  have hnodup : (inputs.map Prod.fst).Nodup := (pairwise_map.mpr h).imp ne_of_lt
  exact inj_on_of_nodup_map hnodup hfirst hsecond hkey

theorem Increasing.not_conflicting (h : Increasing inputs) :
    ¬Conflicting inputs := by
  intro hconflict
  obtain ⟨first, hfirst, second, hsecond, hkey, hvalue⟩ := hconflict
  exact hvalue (congrArg Prod.snd (h.eq_of_key_eq hfirst hsecond hkey))

/-- An input behind all keys before it. -/
theorem Increasing.snoc {inputs : List RebuildInput} (h : Increasing inputs) {input : RebuildInput}
    (hlast : ∀ before ∈ inputs, before.1 < input.1) : Increasing (inputs ++ [input]) := by
  rw [Increasing, pairwise_append]
  refine ⟨h, pairwise_singleton _ _, fun before hbefore other hother => ?_⟩
  rw [mem_singleton] at hother
  rw [hother]
  exact hlast before hbefore

theorem conflicting_congr (h : ∀ input, input ∈ first ↔ input ∈ second) :
    Conflicting first ↔ Conflicting second := by
  simp only [Conflicting, h]

/-- The loop refuses exactly the conflicting inputs, and otherwise keeps each input once. -/
theorem dedupe_spec (rest : List RebuildInput) : ∀ deduped : List RebuildInput,
    (deduped ++ rest).Pairwise (fun first second => inputOrder first ≤ inputOrder second) →
    Increasing deduped →
    match dedupe deduped rest with
    | .ok result => Increasing result ∧ ∀ input, input ∈ result ↔ input ∈ deduped ++ rest
    | .error refusal => Conflicting (deduped ++ rest) ∧ ∃ key, refusal = .conflictingInput key := by
  induction rest with
  | nil =>
      intro deduped _ hincreasing
      rw [dedupe, append_nil]
      exact ⟨hincreasing, fun _ => Iff.rfl⟩
  | cons input rest ih =>
      intro deduped hsorted hincreasing
      obtain ⟨key, value⟩ := input
      have happend : deduped ++ (key, value) :: rest = (deduped ++ [(key, value)]) ++ rest := by
        rw [append_assoc, singleton_append]
      have hmore (hlast : ∀ before ∈ deduped, before.1 < key) :=
        ih (deduped ++ [(key, value)]) (happend ▸ hsorted) (hincreasing.snoc hlast)
      rw [dedupe]
      rcases eq_nil_or_concat' deduped with rfl | ⟨front, previous, rfl⟩
      · rw [getLast?_nil, happend]
        exact hmore fun _ h => absurd h not_mem_nil
      · obtain ⟨previousKey, previousValue⟩ := previous
        rw [getLast?_concat]
        dsimp only
        have hprevious : (previousKey, previousValue) ∈ front ++ [(previousKey, previousValue)] :=
          mem_append_right _ mem_cons_self
        by_cases hkey : previousKey = key
        · subst hkey
          rw [if_pos rfl]
          by_cases hvalue : previousValue = value
          · subst hvalue
            rw [if_neg (not_not.mpr rfl)]
            have hmem : ∀ input, input ∈ (front ++ [(previousKey, previousValue)]) ++
                (previousKey, previousValue) :: rest ↔
                  input ∈ (front ++ [(previousKey, previousValue)]) ++ rest := by
              intro input
              simp only [mem_append, mem_cons]
              tauto
            have hrun := ih (front ++ [(previousKey, previousValue)])
              (hsorted.sublist ((sublist_cons_self _ _).append_left _)) hincreasing
            cases hdedupe : dedupe (front ++ [(previousKey, previousValue)]) rest with
            | ok result =>
                rw [hdedupe] at hrun
                exact ⟨hrun.1, fun input => (hrun.2 input).trans (hmem input).symm⟩
            | error refusal =>
                rw [hdedupe] at hrun
                exact ⟨(conflicting_congr hmem).mpr hrun.1, hrun.2⟩
          · rw [if_pos hvalue]
            exact ⟨⟨_, mem_append_left _ hprevious, _,
              mem_append_right _ mem_cons_self, rfl, hvalue⟩, _, rfl⟩
        · rw [if_neg hkey, happend]
          apply hmore
          -- the keys before are at most the last one, which is less than the key
          have hle : ∀ before ∈ front ++ [(previousKey, previousValue)], before.1 ≤ key := by
            intro before hbefore
            have hall := (pairwise_append.mp hsorted).2.2
            exact key_le_of_inputOrder_le (hall before hbefore _ mem_cons_self)
          have hlast : previousKey < key := lt_of_le_of_ne (hle _ hprevious) hkey
          intro before hbefore
          rcases mem_append.mp hbefore with hfront | hsame
          · have hless := (pairwise_append.mp hincreasing).2.2 before hfront _
              mem_cons_self
            exact hless.trans hlast
          · rw [mem_singleton.mp hsame]
            exact hlast

/-- The inputs that a rebuild works on. -/
theorem dedupe_sorted_spec (inputs : List RebuildInput) :
    match dedupe [] (sortBy inputOrder inputs) with
    | .ok result => Increasing result ∧ ∀ input, input ∈ result ↔ input ∈ inputs
    | .error refusal => Conflicting inputs ∧ ∃ key, refusal = .conflictingInput key := by
  have hrun := dedupe_spec (sortBy inputOrder inputs) [] (pairwise_sortBy _ _) List.Pairwise.nil
  rw [nil_append] at hrun
  cases hdedupe : dedupe [] (sortBy inputOrder inputs) with
  | ok result =>
      rw [hdedupe] at hrun
      exact ⟨hrun.1, fun input => (hrun.2 input).trans mem_sortBy⟩
  | error refusal =>
      rw [hdedupe] at hrun
      exact ⟨(conflicting_congr fun _ => mem_sortBy).mp hrun.1, hrun.2⟩

/-- A rebuild is refused for a conflict exactly when there is one. -/
theorem rebuild_conflicting_iff (kind : DerivedArtifactKind) (inputs : List RebuildInput) :
    (∃ key, rebuild kind inputs = .error (.conflictingInput key)) ↔ Conflicting inputs := by
  rw [rebuild]
  by_cases hempty : inputs = []
  · subst hempty
    constructor
    · intro h
      obtain ⟨key, hkey⟩ := h
      cases hkey
    · intro h
      obtain ⟨first, hfirst, _⟩ := h
      exact absurd hfirst not_mem_nil
  · rw [if_neg hempty]
    have hspec := dedupe_sorted_spec inputs
    cases hdedupe : dedupe [] (sortBy inputOrder inputs) with
    | ok result =>
        rw [hdedupe] at hspec
        constructor
        · intro h
          obtain ⟨key, hkey⟩ := h
          cases hkey
        · intro h
          exact absurd ((conflicting_congr hspec.2).mpr h) hspec.1.not_conflicting
    | error refusal =>
        rw [hdedupe] at hspec
        obtain ⟨hconflict, key, rfl⟩ := hspec
        exact ⟨fun _ => hconflict, fun _ => ⟨key, rfl⟩⟩

/-- A successful rebuild writes the inputs once each, in the order of their keys. -/
theorem rebuild_eq_ok {kind : DerivedArtifactKind} {out : List UInt8}
    (h : rebuild kind inputs = .ok out) :
    ∃ deduped, Increasing deduped ∧ (∀ input, input ∈ deduped ↔ input ∈ inputs) ∧
      out = artifact kind deduped := by
  rw [rebuild] at h
  split_ifs at h
  obtain ⟨deduped, hdedupe, h⟩ := bind_eq_ok_iff.mp h
  have hspec := dedupe_sorted_spec inputs
  rw [hdedupe] at hspec
  exact ⟨deduped, hspec.1, hspec.2, (Except.ok.inj h).symm⟩

/-! ## Two lists of inputs -/

/-- Two lists hold the same inputs, in any order and number. -/
def SameSet (first second : List RebuildInput) : Prop := ∀ input, input ∈ first ↔ input ∈ second

/-- The identities of two lists are equal exactly when the lists hold the same inputs. -/
structure Faithful (kind : DerivedArtifactKind) (first second : List RebuildInput)
    (out out' : List UInt8) : Prop where
  same : SameSet first second → out = out' ∧ inputDigest first = inputDigest second
  different : ¬SameSet first second →
    combined first ≠ combined second ∧ (kind = .snapshot → out ≠ out')

/-- Lists with the same inputs repeat them equally often, and in other lists no separator stands in
a key or a value. -/
structure Separable (kind : DerivedArtifactKind) (first second : List RebuildInput) : Prop where
  counts : SameSet first second → first.Perm second
  records : ¬SameSet first second → ∀ input ∈ first ++ second,
    0 ∉ bytes input.1 ∧ 0 ∉ input.2
  entries : ¬SameSet first second → kind = .snapshot → ∀ input ∈ first ++ second,
    0x0A ∉ bytes input.1

/-- Inputs with increasing keys are determined by their set. -/
theorem Increasing.eq_of_sameSet (hfirst : Increasing first) (hsecond : Increasing second)
    (h : SameSet first second) : first = second := by
  have hnodup {inputs : List RebuildInput} (h : Increasing inputs) : inputs.Nodup :=
    h.imp fun hlt heq => absurd (congrArg Prod.fst heq) (ne_of_lt hlt)
  have hperm := (perm_ext_iff_of_nodup (hnodup hfirst) (hnodup hsecond)).mpr h
  exact hperm.eq_of_pairwise (fun a b _ _ hab hba => absurd hab (not_lt.mpr hba.le)) hfirst hsecond

/-- Lists without a conflict that are permutations are hashed alike. -/
theorem combined_eq_of_perm (hconflict : ¬Conflicting first) (h : first.Perm second) :
    combined first = combined second := by
  have hsorted : sortBy Prod.fst first = sortBy Prod.fst second := by
    refine List.Perm.eq_of_pairwise ?_ (pairwise_sortBy _ first) (pairwise_sortBy _ second)
      ((sortBy_perm _ first).trans (h.trans (sortBy_perm _ second).symm))
    intro a b ha hb hab hba
    by_contra hne
    have hkey : a.1 = b.1 := le_antisymm hab hba
    exact hconflict ⟨a, mem_sortBy.mp ha, b, h.mem_iff.mpr (mem_sortBy.mp hb), hkey,
      fun hvalue => hne (Prod.ext hkey hvalue)⟩
  rw [combined, combined, hsorted]

/-- A record without other zero bytes can be read off. -/
theorem inputRecord_readOff {first second : RebuildInput} {rest rest' : List UInt8}
    (hfirst : 0 ∉ bytes first.1 ∧ 0 ∉ first.2) (hsecond : 0 ∉ bytes second.1 ∧ 0 ∉ second.2)
    (h : inputRecord first ++ rest = inputRecord second ++ rest') :
    first = second ∧ rest = rest' := by
  have hsplit : bytes first.1 ++ 0 :: (first.2 ++ 0 :: rest) =
      bytes second.1 ++ 0 :: (second.2 ++ 0 :: rest') := by
    simpa [inputRecord] using h
  obtain ⟨hkey, hvalue⟩ := Encoding.append_cons_readOff hfirst.1 hsecond.1 hsplit
  obtain ⟨hvalue, hrest⟩ := Encoding.append_cons_readOff hfirst.2 hsecond.2 hvalue
  exact ⟨Prod.ext (bytes_injective hkey) hvalue, hrest⟩

theorem newline_notMem_decimal (n : ℕ) : 0x0A ∉ bytes (decimal n) := by
  have hdigits : ∀ c ∈ decimal n, 48 ≤ c.toNat ∧ c.toNat ≤ 57 := fun c hc =>
    Char.isDigit_iff_toNat.mp (Nat.isDigit_of_mem_toDigits (by omega) (by omega) hc)
  intro h
  rw [bytes_ascii fun c hc => by have := hdigits c hc; omega] at h
  obtain ⟨c, hc, hbyte⟩ := mem_map.mp h
  have hcode : c.toNat % 256 = 10 := congrArg UInt8.toNat hbyte
  have hbounds := hdigits c hc
  omega

/-- An entry of a snapshot whose key has no line break can be read off. -/
theorem snapshotEntry_readOff {first second : RebuildInput} {rest rest' : List UInt8}
    (hfirst : 0x0A ∉ bytes first.1) (hsecond : 0x0A ∉ bytes second.1)
    (h : snapshotEntry first ++ rest = snapshotEntry second ++ rest') :
    first = second ∧ rest = rest' := by
  have hsplit : bytes first.1 ++ 0x0A :: (bytes (decimal first.2.length) ++
        0x0A :: (first.2 ++ 0x0A :: rest)) =
      bytes second.1 ++ 0x0A :: (bytes (decimal second.2.length) ++
        0x0A :: (second.2 ++ 0x0A :: rest')) := by
    simpa [snapshotEntry] using h
  obtain ⟨hkey, hsplit⟩ := Encoding.append_cons_readOff hfirst hsecond hsplit
  obtain ⟨hlength, hsplit⟩ := Encoding.append_cons_readOff (newline_notMem_decimal _)
    (newline_notMem_decimal _) hsplit
  have hlength := Encoding.decimal_injective (bytes_injective hlength)
  obtain ⟨hvalue, hrest⟩ := List.append_inj hsplit hlength
  exact ⟨Prod.ext (bytes_injective hkey) hvalue, (List.cons.inj hrest).2⟩

theorem notMem_of_separated {Clean : RebuildInput → Prop}
    (h : ∀ input ∈ first ++ second, Clean input) :
    (∀ input ∈ first, Clean input) ∧ ∀ input ∈ second, Clean input :=
  ⟨fun input hinput => h input (mem_append_left _ hinput),
    fun input hinput => h input (mem_append_right _ hinput)⟩

/-- Lists without zero bytes are hashed alike exactly when they are permutations. -/
theorem combined_eq_iff (hconflict : ¬Conflicting first)
    (h : ∀ input ∈ first ++ second, 0 ∉ bytes input.1 ∧ 0 ∉ input.2) :
    combined first = combined second ↔ first.Perm second := by
  constructor
  · intro hcombined
    obtain ⟨hfirst, hsecond⟩ := notMem_of_separated h
    have hsorted : sortBy Prod.fst first = sortBy Prod.fst second :=
      Encoding.flatMap_readOff (fun _ _ _ _ => inputRecord_readOff)
        (fun _ hnil => cons_ne_nil _ _ (append_eq_nil_iff.mp hnil).2)
        (fun input hinput => hfirst input (mem_sortBy.mp hinput))
        (fun input hinput => hsecond input (mem_sortBy.mp hinput)) hcombined
    exact (sortBy_perm Prod.fst first).symm.trans (hsorted ▸ sortBy_perm Prod.fst second)
  · exact combined_eq_of_perm hconflict

/-- Whether a rebuild is refused depends on the conflicts alone, the identities of separable lists
that can be rebuilt are equal exactly when the lists hold the same inputs, and lists without zero
bytes are hashed alike only when they repeat the inputs equally often. -/
theorem rebuild_faithful {kind : DerivedArtifactKind} {first second : List RebuildInput}
    {out out' : List UInt8} (hout : rebuild kind first = .ok out)
    (hout' : rebuild kind second = .ok out') :
    (∀ kind inputs, (∃ key, rebuild kind inputs = .error (.conflictingInput key)) ↔
      Conflicting inputs) ∧
    (Separable kind first second → Faithful kind first second out out') ∧
    ((∀ input ∈ first ++ second, 0 ∉ bytes input.1 ∧ 0 ∉ input.2) →
      (combined first = combined second ↔ first.Perm second)) := by
  obtain ⟨deduped, hincreasing, hmem, rfl⟩ := rebuild_eq_ok hout
  obtain ⟨deduped', hincreasing', hmem', rfl⟩ := rebuild_eq_ok hout'
  have hconflict : ¬Conflicting first := fun hconflict =>
    hincreasing.not_conflicting ((conflicting_congr hmem).mpr hconflict)
  refine ⟨rebuild_conflicting_iff, fun h => ⟨?_, ?_⟩, combined_eq_iff hconflict⟩
  · intro hsame
    have hdeduped : deduped = deduped' := hincreasing.eq_of_sameSet hincreasing' fun input =>
      (hmem input).trans ((hsame input).trans (hmem' input).symm)
    refine ⟨by rw [hdeduped], ?_⟩
    rw [inputDigest, inputDigest, combined_eq_of_perm hconflict (h.counts hsame)]
  · intro hdifferent
    refine ⟨fun hcombined => ?_, ?_⟩
    · have hperm := (combined_eq_iff hconflict (h.records hdifferent)).mp hcombined
      exact hdifferent fun input => hperm.mem_iff
    · intro hkind hartifact
      subst hkind
      obtain ⟨hfirst, hsecond⟩ := notMem_of_separated (h.entries hdifferent rfl)
      have hdeduped : deduped = deduped' :=
        Encoding.flatMap_readOff (fun _ _ _ _ => snapshotEntry_readOff)
          (fun _ hnil => cons_ne_nil _ _ (append_eq_nil_iff.mp hnil).2)
          (fun input hinput => hfirst input ((hmem input).mp hinput))
          (fun input hinput => hsecond input ((hmem' input).mp hinput)) hartifact
      apply hdifferent
      intro input
      rw [← hmem, ← hmem', hdeduped]

theorem rebuild_faithful_pair :
    (∀ kind inputs, (∃ key, rebuild kind inputs = .error (.conflictingInput key)) ↔
      Conflicting inputs) ∧
    (Separable .snapshot [(['a'], [1])] [(['b'], [1])] →
      Faithful .snapshot [(['a'], [1])] [(['b'], [1])] [97, 10, 49, 10, 1, 10]
        [98, 10, 49, 10, 1, 10]) ∧
    ((∀ input ∈ [((['a'], [1]) : RebuildInput)] ++ [(['b'], [1])],
        0 ∉ bytes input.1 ∧ 0 ∉ input.2) →
      (combined [(['a'], [1])] = combined [(['b'], [1])] ↔
        [((['a'], [1]) : RebuildInput)].Perm [(['b'], [1])])) :=
  rebuild_faithful rfl rfl

/-- One empty file. -/
def listedOnce : List RebuildInput := [(['a'], [])]

def listedTwice : List RebuildInput := [(['a'], []), (['a'], [])]

def twoFiles : List RebuildInput := [(['a'], []), (['b'], [])]

/-- A file that holds the separators and the name of a second one. -/
def zeroInside : List RebuildInput := [(['a'], [0, 98, 0])]

/-- A name that holds the rest of an entry. -/
def lineInside : List RebuildInput := [("a\n0\n\nb".toList, [])]

/-- A repeated input changes the digest, a zero byte makes two lists hashed alike, and a line break
in a name makes two snapshots equal. -/
theorem not_rebuild_faithful :
    (∃ out out', rebuild .index listedOnce = .ok out ∧ rebuild .index listedTwice = .ok out' ∧
      ¬Faithful .index listedOnce listedTwice out out') ∧
    (∃ out out', rebuild .index zeroInside = .ok out ∧ rebuild .index twoFiles = .ok out' ∧
      ¬Faithful .index zeroInside twoFiles out out') ∧
    ∃ out out', rebuild .snapshot lineInside = .ok out ∧ rebuild .snapshot twoFiles = .ok out' ∧
      ¬Faithful .snapshot lineInside twoFiles out out' := by
  refine ⟨⟨_, _, rfl, rfl, fun h => ?_⟩, ⟨_, _, rfl, rfl, fun h => ?_⟩,
    ⟨_, _, rfl, rfl, fun h => ?_⟩⟩
  · have hdigest := (h.same fun input => by simp [listedOnce, listedTwice]).2
    exact absurd hdigest (by decide +kernel)
  · have hdifferent : ¬SameSet zeroInside twoFiles := fun hsame =>
      absurd ((hsame (['b'], [])).mpr (by decide)) (by decide)
    exact (h.different hdifferent).1 (by decide +kernel)
  · have hdifferent : ¬SameSet lineInside twoFiles := fun hsame =>
      absurd ((hsame (['b'], [])).mpr (by decide)) (by decide)
    exact (h.different hdifferent).2 rfl (by decide +kernel)

end Bran.Repair
