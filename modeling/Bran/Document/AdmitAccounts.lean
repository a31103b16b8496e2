import Bran.Document.Admit

/-!
# Admitted envelopes are valid and accounted for

What an envelope that admission built and checked says about the projection it was built from:
which anchors it holds, how many anchors and bytes it left out, and that no string of it carries
what must not be emitted.
-/

namespace Bran.Document

open Text Validation Export Scanner List Option OrdMap

/-! ## What an envelope should say -/

/-- A string somewhere inside a value. -/
inductive Json.HasString : Json → Str → Prop
  | str (text : Str) : HasString (.str text) text
  | arr {items : List Json} {item : Json} {text : Str} (hitem : item ∈ items)
      (h : HasString item text) : HasString (.arr items) text
  | obj {entries : List (Str × Json)} {entry : Str × Json} {text : Str} (hentry : entry ∈ entries)
      (h : HasString entry.2 text) : HasString (.obj entries) text

/-- A text without secret markers, canaries or the name of the important boundary. -/
structure Clean (text : Str) : Prop where
  marker : ∀ marker ∈ secretMarkers, ¬ marker <:+: text
  canary : ∀ line ∈ lines publicBoundaryCanaryFixture, line ≠ [] → ¬ line <:+: text
  boundary : ¬ "important_boundary".toList <:+: text

/-- The value at the end of a path of keys. -/
def Json.follow (value : Json) : List String → Option Json
  | [] => some value
  | key :: rest => (value.get key.toList).bind (follow · rest)

/-- An object without one of its keys. -/
def Json.without (key : Str) : Json → Json
  | .obj entries => .obj (entries.filter fun entry => entry.1 ≠ key)
  | value => value

/-- The longest prefix of a text of at most so many bytes, in whole characters. -/
structure LongestPrefix (max : ℕ) (text found : Str) : Prop where
  isPrefix : found <+: text
  length_le : byteLen found ≤ max
  longest : ∀ other, other <+: text → byteLen other ≤ max → byteLen other ≤ byteLen found

/-- The anchors that count: those with a text. -/
def withText (anchors : List EvidenceAnchor) : List EvidenceAnchor :=
  anchors.filter fun anchor => !isBlank anchor.text

/-- The anchors that fit. -/
def fitting (anchors : List EvidenceAnchor) : List EvidenceAnchor :=
  anchors.filter fun anchor => !isBlank anchor.text && byteLen anchor.text ≤ maxTextBytes

def textBytes (anchors : List EvidenceAnchor) : ℕ :=
  (anchors.map fun anchor => byteLen anchor.text).sum

/-- Anchors are the first of others by identity: some are left out only when there are as many as
the budget allows, and none that is left out comes before one that is kept. -/
def FirstById (kept others : List EvidenceAnchor) : Prop :=
  ∃ rest, (kept ++ rest).Perm others ∧ (rest ≠ [] → kept.length = maxAnchors) ∧
    ∀ anchor ∈ kept, ∀ omitted ∈ rest, anchor.id ≤ omitted.id

/-- What an envelope says about the anchors of a projection. -/
structure Accounted (format : Format) (projected kept : List EvidenceAnchor) (envelope : Json) :
    Prop where
  anchors : envelope.follow ["anchors"] = some (.arr (kept.map (anchorJson format)))
  increasing : (kept.map EvidenceAnchor.id).Pairwise (· < ·)
  length_le : kept.length ≤ maxAnchors
  admissible : ∀ anchor ∈ kept, isBlank anchor.text = false ∧ byteLen anchor.text ≤ maxTextBytes ∧
    anchor.textDigest = sha256Hex (bytes anchor.text)
  first : FirstById kept (fitting projected)
  /-- How many anchors with a text were omitted. -/
  omittedAnchors : ∃ omitted : ℕ, omitted + kept.length = (withText projected).length ∧
    envelope.follow ["receipts", "truncation", "omitted_anchor_count"] = some (.int omitted)
  /-- The normalized text, the bytes that were omitted or cut, and whether any were. -/
  text : ∃ (normalized : Str) (omitted : ℕ) (truncated : Bool),
    envelope.follow ["normalized", "content", "text"] = some (.str normalized) ∧
    LongestPrefix maxTextBytes (join ['\n'] (kept.map EvidenceAnchor.text)) normalized ∧
    envelope.follow ["receipts", "truncation", "omitted_bytes"] = some (.int omitted) ∧
    omitted + textBytes kept + byteLen normalized =
      textBytes (withText projected) + byteLen (join ['\n'] (kept.map EvidenceAnchor.text)) ∧
    envelope.follow ["receipts", "truncation", "truncated"] = some (.bool truncated) ∧
    (truncated = true ↔ kept.length ≠ (withText projected).length ∨
      normalized ≠ join ['\n'] (kept.map EvidenceAnchor.text))
  clean : ∀ text, envelope.HasString text → Clean text
  digest : envelope.follow ["envelope_digest"] =
    some (.str (sha256Hex (envelope.without "envelope_digest".toList).toBytes))

/-! ## Cutting a text -/

theorem lastBoundary_front (text : Str) (stop : ℕ) : lastBoundary text stop <+: text := by
  induction stop with
  | zero => exact nil_prefix
  | succ stop ih =>
      rw [lastBoundary]
      cases htake : takeBytes text (stop + 1) with
      | none => exact ih
      | some front =>
          obtain ⟨rest, rfl, -⟩ := takeBytes_eq_some htake
          exact prefix_append _ _

theorem byteLen_lastBoundary_le (text : Str) (stop : ℕ) :
    byteLen (lastBoundary text stop) ≤ stop := by
  induction stop with
  | zero => exact Nat.le_refl 0
  | succ stop ih =>
      rw [lastBoundary]
      cases htake : takeBytes text (stop + 1) with
      | none => exact Nat.le_succ_of_le ih
      | some front =>
          obtain ⟨rest, -, hlength⟩ := takeBytes_eq_some htake
          exact le_of_eq hlength

theorem le_byteLen_lastBoundary {text front : Str} {stop : ℕ} (hfront : front <+: text)
    (hle : byteLen front ≤ stop) : byteLen front ≤ byteLen (lastBoundary text stop) := by
  induction stop with
  | zero => exact le_trans hle (Nat.zero_le _)
  | succ stop ih =>
      rw [lastBoundary]
      cases htake : takeBytes text (stop + 1) with
      | some found =>
          obtain ⟨rest, -, hlength⟩ := takeBytes_eq_some htake
          rw [getD_some, hlength]
          exact hle
      | none =>
          obtain ⟨rest, rfl⟩ := hfront
          -- a prefix of just that many bytes would be a place to stop
          have hne : byteLen front ≠ stop + 1 := by
            intro heq
            have hsome := takeBytes_append front rest
            rw [heq, htake] at hsome
            cases hsome
          exact ih (by omega)

theorem longestPrefix_truncateBytes (text : Str) (max : ℕ) :
    LongestPrefix max text (truncateBytes text max) := by
  rw [truncateBytes]
  split
  · next hle =>
    refine ⟨prefix_rfl, hle, fun other hother _ => ?_⟩
    obtain ⟨rest, rfl⟩ := hother
    rw [byteLen_append]
    omega
  · exact ⟨lastBoundary_front text max, byteLen_lastBoundary_le text max,
      fun _ hother hle => le_byteLen_lastBoundary hother hle⟩

theorem eq_of_prefix_of_byteLen {front text : Str} (h : front <+: text)
    (hlength : byteLen front = byteLen text) : front = text := by
  obtain ⟨rest, rfl⟩ := h
  rw [byteLen_append] at hlength
  cases rest with
  | nil => rw [append_nil]
  | cons c rest =>
      rw [byteLen_cons] at hlength
      have := c.utf8Size_pos
      omega

/-! ## The budgets -/

@[simp] theorem textBytes_cons (anchor : EvidenceAnchor) (rest : List EvidenceAnchor) :
    textBytes (anchor :: rest) = byteLen anchor.text + textBytes rest := rfl

@[simp] theorem textBytes_append (first rest : List EvidenceAnchor) :
    textBytes (first ++ rest) = textBytes first + textBytes rest := by
  rw [textBytes, map_append, sum_append, ← textBytes, ← textBytes]

theorem textBytes_perm {first second : List EvidenceAnchor} (h : first.Perm second) :
    textBytes first = textBytes second := (h.map _).sum_nat

/-- The `retain` keeps what fits and counts the rest of what has a text. -/
theorem foldl_retainStep (items kept : List EvidenceAnchor) (omittedAnchors omittedBytes : ℕ) :
    ∃ moreAnchors moreBytes,
      items.foldl retainStep (kept, omittedAnchors, omittedBytes) =
        (kept ++ fitting items, omittedAnchors + moreAnchors, omittedBytes + moreBytes) ∧
      moreAnchors + (fitting items).length = (withText items).length ∧
      moreBytes + textBytes (fitting items) = textBytes (withText items) := by
  induction items generalizing kept omittedAnchors omittedBytes with
  | nil => exact ⟨0, 0, by simp [fitting], rfl, rfl⟩
  | cons anchor rest ih =>
      rw [foldl_cons, retainStep]
      by_cases hblank : isBlank anchor.text = true
      · have hfitting : fitting (anchor :: rest) = fitting rest := by simp [fitting, hblank]
        have hwith : withText (anchor :: rest) = withText rest := by simp [withText, hblank]
        rw [if_pos hblank, hfitting, hwith]
        exact ih kept omittedAnchors omittedBytes
      · rw [if_neg hblank]
        rw [Bool.not_eq_true] at hblank
        have hwith : withText (anchor :: rest) = anchor :: withText rest := by
          simp [withText, hblank]
        by_cases hlong : maxTextBytes < byteLen anchor.text
        · have hfitting : fitting (anchor :: rest) = fitting rest := by
            simp [fitting, Nat.not_le.mpr hlong]
          obtain ⟨moreAnchors, moreBytes, hfold, hanchors, hbytes⟩ :=
            ih kept (omittedAnchors + 1) (omittedBytes + byteLen anchor.text)
          refine ⟨moreAnchors + 1, byteLen anchor.text + moreBytes, ?_, ?_, ?_⟩
          · rw [if_pos hlong, hfold, hfitting, Nat.add_assoc, Nat.add_assoc, Nat.add_comm 1]
          · rw [hfitting, hwith, length_cons]
            omega
          · rw [hfitting, hwith, textBytes_cons]
            omega
        · have hfitting : fitting (anchor :: rest) = anchor :: fitting rest := by
            simp [fitting, hblank, Nat.not_lt.mp hlong]
          obtain ⟨moreAnchors, moreBytes, hfold, hanchors, hbytes⟩ :=
            ih (kept ++ [anchor]) omittedAnchors omittedBytes
          refine ⟨moreAnchors, moreBytes, ?_, ?_, ?_⟩
          · rw [if_neg hlong, hfold, hfitting, append_assoc, singleton_append]
          · rw [hfitting, hwith, length_cons, length_cons]
            omega
          · rw [hfitting, hwith, textBytes_cons, textBytes_cons]
            omega

theorem foldl_drainStep (items : List EvidenceAnchor) (omittedAnchors omittedBytes : ℕ) :
    items.foldl drainStep (omittedAnchors, omittedBytes) =
      (omittedAnchors + items.length, omittedBytes + textBytes items) := by
  induction items generalizing omittedAnchors omittedBytes with
  | nil => rfl
  | cons anchor rest ih =>
      rw [foldl_cons, drainStep, ih, length_cons, textBytes_cons]
      congr 1 <;> omega

/-- What the budgets keep, and that what they count is what they leave out. -/
structure Budgeted (projected kept : List EvidenceAnchor) (omittedAnchors omittedBytes : ℕ) :
    Prop where
  length_le : kept.length ≤ maxAnchors
  first : FirstById kept (fitting projected)
  anchors : omittedAnchors + kept.length = (withText projected).length
  bytes : omittedBytes + textBytes kept = textBytes (withText projected)

theorem budgeted_applyAnchorBudgets {projected kept : List EvidenceAnchor}
    {omittedAnchors omittedBytes : ℕ}
    (h : applyAnchorBudgets projected = (kept, omittedAnchors, omittedBytes)) :
    Budgeted projected kept omittedAnchors omittedBytes := by
  have hperm := sortBy_perm EvidenceAnchor.id projected
  have hsorted : (fitting (sortBy EvidenceAnchor.id projected)).Pairwise
      fun left right => left.id ≤ right.id :=
    (pairwise_sortBy EvidenceAnchor.id projected).filter _
  have hfitting : (fitting (sortBy EvidenceAnchor.id projected)).Perm (fitting projected) :=
    hperm.filter _
  have hwith : (withText (sortBy EvidenceAnchor.id projected)).Perm (withText projected) :=
    hperm.filter _
  obtain ⟨moreAnchors, moreBytes, hfold, hanchors, hbytes⟩ :=
    foldl_retainStep (sortBy EvidenceAnchor.id projected) [] 0 0
  rw [hwith.length_eq] at hanchors
  rw [textBytes_perm hwith] at hbytes
  rw [nil_append, Nat.zero_add, Nat.zero_add] at hfold
  rw [applyAnchorBudgets] at h
  dsimp only at h
  rw [hfold] at h
  dsimp only at h
  generalize fitting (sortBy EvidenceAnchor.id projected) = fits at *
  split at h
  · next hmany =>
    rw [foldl_drainStep] at h
    obtain ⟨rfl, hcounts⟩ := Prod.mk.inj h
    obtain ⟨rfl, rfl⟩ := Prod.mk.inj hcounts
    have hsplit := take_append_drop maxAnchors fits
    have hlength := congrArg List.length hsplit
    have hsum := congrArg textBytes hsplit
    rw [length_append] at hlength
    rw [textBytes_append] at hsum
    refine ⟨by rw [length_take]; omega, ?_, by omega, by omega⟩
    refine ⟨fits.drop maxAnchors, ?_, fun _ => ?_, ?_⟩
    · rw [hsplit]
      exact hfitting
    · rw [length_take]
      omega
    · rw [← hsplit] at hsorted
      exact (pairwise_append.mp hsorted).2.2
  · next hfew =>
    obtain ⟨rfl, hcounts⟩ := Prod.mk.inj h
    obtain ⟨rfl, rfl⟩ := Prod.mk.inj hcounts
    refine ⟨Nat.not_lt.mp hfew, ⟨[], ?_, fun hne => absurd rfl hne, ?_⟩, hanchors, hbytes⟩
    · rw [append_nil]
      exact hfitting
    · exact fun _ _ _ hmem => absurd hmem not_mem_nil

/-- What is kept has a text that fits. -/
theorem Budgeted.fits {projected kept : List EvidenceAnchor} {omittedAnchors omittedBytes : ℕ}
    (h : Budgeted projected kept omittedAnchors omittedBytes) {anchor : EvidenceAnchor}
    (hanchor : anchor ∈ kept) :
    anchor ∈ projected ∧ isBlank anchor.text = false ∧ byteLen anchor.text ≤ maxTextBytes := by
  obtain ⟨rest, hperm, -, -⟩ := h.first
  have hmem := hperm.mem_iff.mp (mem_append_left rest hanchor)
  rw [fitting, mem_filter, Bool.and_eq_true, Bool.not_eq_true', decide_eq_true_eq] at hmem
  exact hmem

/-! ## Strings that may be emitted -/

theorem validateLocator_eq_ok {text : Str} (h : validateLocator text = .ok ()) :
    validateEmittedString text = .ok () ∧ ¬ secretMarkers.any (containsStr text) = true := by
  unfold validateLocator at h
  cases hemitted : validateEmittedString text with
  | error error =>
      rw [hemitted] at h
      cases error <;> cases h
  | ok =>
      rw [hemitted] at h
      dsimp only at h
      rw [failIf_eq_ok_iff] at h
      exact ⟨rfl, h⟩

theorem clean_of_validateLocator {text : Str} (h : validateLocator text = .ok ()) : Clean text := by
  obtain ⟨hemitted, hmarkers⟩ := validateLocator_eq_ok h
  rw [validateEmittedString, check_bind_eq_ok_iff, failIf_eq_ok_iff, failIf_eq_ok_iff] at hemitted
  obtain ⟨hcanary, hboundary⟩ := hemitted
  refine ⟨fun marker hmarker hinside => ?_, fun line hline hne hinside => ?_, fun hinside => ?_⟩
  · exact hmarkers (List.any_eq_true.mpr ⟨marker, hmarker, decide_eq_true hinside⟩)
  · refine hcanary (List.any_eq_true.mpr ⟨line, hline, ?_⟩)
    rw [containsStr, decide_eq_true hinside, Bool.and_true, Bool.not_eq_true',
      isEmpty_eq_false_iff]
    exact hne
  · exact hboundary (decide_eq_true hinside)

theorem checkItems_eq_ok {items : List Json} (h : checkItems items = .ok ()) :
    ∀ item ∈ items, checkStrings item = .ok () := by
  induction items with
  | nil => exact fun _ hitem => absurd hitem not_mem_nil
  | cons item rest ih =>
      rw [checkItems, check_bind_eq_ok_iff] at h
      rw [forall_mem_cons]
      exact ⟨h.2, ih h.1⟩

theorem checkEntries_eq_ok {entries : List (Str × Json)} (h : checkEntries entries = .ok ()) :
    ∀ entry ∈ entries, checkStrings entry.2 = .ok () := by
  induction entries with
  | nil => exact fun _ hentry => absurd hentry not_mem_nil
  | cons entry rest ih =>
      rw [checkEntries, check_bind_eq_ok_iff] at h
      rw [forall_mem_cons]
      exact ⟨h.2, ih h.1⟩

theorem clean_of_checkStrings {value : Json} {text : Str} (h : checkStrings value = .ok ())
    (htext : value.HasString text) : Clean text := by
  induction htext with
  | str text =>
      rw [checkStrings] at h
      exact clean_of_validateLocator h
  | arr hitem _ ih =>
      rw [checkStrings] at h
      exact ih (checkItems_eq_ok h _ hitem)
  | obj hentry _ ih =>
      rw [checkStrings] at h
      exact ih (checkEntries_eq_ok h _ hentry)

/-! ## The fields of the envelope -/

theorem nodup_toList_of_nodup {entries : List (String × Json)}
    (hnodup : (entries.map Prod.fst).Nodup) :
    ((entries.map fun entry => (entry.1.toList, entry.2)).map Prod.fst).Nodup := by
  have hmap := hnodup.map (f := String.toList) fun _ _ heq => String.toList_inj.mp heq
  rw [List.map_map] at hmap ⊢
  exact hmap

theorem Json.get_object {entries : List (String × Json)} (hnodup : (entries.map Prod.fst).Nodup)
    {key : String} {value : Json} (h : (key, value) ∈ entries) :
    (Json.object entries).get key.toList = some value :=
   (find?_ofList (nodup_toList_of_nodup hnodup)).mpr
    (List.mem_map.mpr ⟨(key, value), h, rfl⟩)

/-- The fields of an envelope with the digest of the rest. -/
def sealed (fields : OrdMap Str Json) : Json :=
  Json.ofMap (fields.insert "envelope_digest".toList (.str (sha256Hex (Json.ofMap fields).toBytes)))

def fieldMap (fields : List (String × Json)) : OrdMap Str Json :=
  OrdMap.ofList (fields.map fun field => (field.1.toList, field.2))

theorem follow_sealed {fields : List (String × Json)} (hnodup : (fields.map Prod.fst).Nodup)
    {key : String} {value : Json} (hkey : key ≠ "envelope_digest") (h : (key, value) ∈ fields) :
    (sealed (fieldMap fields)).get key.toList = some value := by
  have hne : "envelope_digest".toList ≠ key.toList := fun heq => hkey (String.toList_inj.mp heq).symm
  have hfield : (fieldMap fields).find? key.toList = some value := Json.get_object hnodup h
  rw [← hfield]
  exact find?_insert_of_ne _ _ hne

theorem digest_sealed {fields : OrdMap Str Json}
    (hfresh : fields.find? "envelope_digest".toList = none) :
    (sealed fields).follow ["envelope_digest"] =
      some (.str (sha256Hex ((sealed fields).without "envelope_digest".toList).toBytes)) := by
  have herase : (fields.insert "envelope_digest".toList
      (.str (sha256Hex (Json.ofMap fields).toBytes))).erase "envelope_digest".toList = fields := by
    apply ext_find?
    intro key
    rw [find?_erase]
    split
    · next heq =>
      subst heq
      exact hfresh.symm
    · next hne => exact find?_insert_of_ne _ _ hne
  have hwithout : (sealed fields).without "envelope_digest".toList = Json.ofMap fields := by
    refine Eq.trans ?_ (congrArg Json.ofMap herase)
    refine congrArg Json.obj (filter_congr fun entry _ => ?_)
    exact decide_eq_decide.mpr Iff.rfl
  rw [hwithout]
  exact congrArg (Option.bind · some) (find?_insert_self _ _ _)

theorem envelopeFields_keys {content : List UInt8} {format : Format} {locator : Str}
    {anchors : List EvidenceAnchor} {fidelity : Json} {processor : String} {normalizedText : Str}
    {cuts : Cuts} :
    (envelopeFields content format locator anchors fidelity processor normalizedText cuts).map
      Prod.fst = ["admission", "anchors", "assets", "evidence_id", "fidelity", "hazards",
        "normalized", "original", "parser", "policy", "receipts", "relations", "schema_version",
        "source"] := rfl

theorem fresh_envelopeFields {content : List UInt8} {format : Format} {locator : Str}
    {anchors : List EvidenceAnchor} {fidelity : Json} {processor : String} {normalizedText : Str}
    {cuts : Cuts} :
    (fieldMap (envelopeFields content format locator anchors fidelity processor normalizedText
      cuts)).find? "envelope_digest".toList = none := by
  have hnodup : ((envelopeFields content format locator anchors fidelity processor normalizedText
      cuts).map Prod.fst).Nodup := by
    rw [envelopeFields_keys]
    decide
  have hkeys := nodup_toList_of_nodup hnodup
  rw [eq_none_iff_forall_ne_some]
  intro value hvalue
  obtain ⟨field, hfield, heq⟩ := List.mem_map.mp ((find?_ofList hkeys).mp hvalue)
  have hkey : field.1 = "envelope_digest" := String.toList_inj.mp (Prod.mk.inj heq).1
  have hmem : field.1 ∈ _ := List.mem_map_of_mem hfield
  rw [envelopeFields_keys, hkey] at hmem
  exact absurd hmem (by decide)

/-! ## What the check of the envelope says -/

theorem strField_anchorJson (format : Format) (anchor : EvidenceAnchor) :
    strField (anchorJson format anchor) "id" = some anchor.id := by
  have hnodup : (["family", "id", "locator", "role", "text", "text_digest"] : List String).Nodup := by
    decide
  have hget : (anchorJson format anchor).get "id".toList = some (.str anchor.id) := by
    refine Json.get_object ?_ (mem_cons_of_mem _ mem_cons_self)
    exact hnodup
  rw [strField, hget]

/-- Behind a check of the anchors their identities increase. -/
theorem increasing_of_checkAnchors {format : Format} {previous : Str}
    {anchors : List EvidenceAnchor}
    (h : checkAnchors format previous (anchors.map (anchorJson format)) = .ok ()) :
    (previous :: anchors.map EvidenceAnchor.id).Pairwise (· < ·) := by
  induction anchors generalizing previous with
  | nil => exact pairwise_singleton _ _
  | cons anchor rest ih =>
      rw [map_cons, checkAnchors, bind_eq_ok_iff] at h
      obtain ⟨id, hid, hrest⟩ := h
      rw [checkAnchor] at hid
      rw [strField_anchorJson, orRefuse, ok_bind, check_bind_eq_ok_iff, failIf_eq_ok_iff,
        not_or, not_le, bind_eq_ok_iff] at hid
      obtain ⟨⟨-, hlt⟩, role, -, hid⟩ := hid
      rw [check_bind_eq_ok_iff, bind_eq_ok_iff] at hid
      obtain ⟨-, locator, -, hid⟩ := hid
      rw [check_bind_eq_ok_iff] at hid
      obtain rfl := Except.ok.inj hid.2
      have hincreasing := ih hrest
      rw [map_cons, pairwise_cons]
      refine ⟨fun other hother => ?_, hincreasing⟩
      rcases mem_cons.mp hother with rfl | hmem
      · exact hlt
      · exact lt_trans hlt ((pairwise_cons.mp hincreasing).1 other hmem)

theorem orRefuse_eq_ok {α : Type} {refusal : Refusal} {found : Option α} {value : α}
    (h : orRefuse refusal found = .ok value) : found = some value := by
  cases found with
  | none => cases h
  | some other => rw [Except.ok.inj h]

theorem checks_of_validateBuiltEnvelope {envelope : Json} {format : Format}
    (h : validateBuiltEnvelope envelope format = .ok ()) :
    (∃ items, envelope.get "anchors".toList = some (.arr items) ∧
      checkAnchors format [] items = .ok ()) ∧ checkStrings envelope = .ok () := by
  rw [validateBuiltEnvelope, check_bind_eq_ok_iff, bind_eq_ok_iff] at h
  obtain ⟨-, original, -, h⟩ := h
  rw [check_bind_eq_ok_iff, bind_eq_ok_iff] at h
  obtain ⟨-, truncation, -, h⟩ := h
  rw [check_bind_eq_ok_iff, bind_eq_ok_iff] at h
  obtain ⟨-, items, hitems, h⟩ := h
  rw [check_bind_eq_ok_iff, bind_eq_ok_iff] at h
  obtain ⟨hcheck, fidelity, -, h⟩ := h
  rw [check_bind_eq_ok_iff, check_bind_eq_ok_iff] at h
  obtain ⟨-, -, hstrings⟩ := h
  refine ⟨⟨items, ?_, hcheck⟩, hstrings⟩
  obtain ⟨found, hfound, harr⟩ := bind_eq_some_iff.mp (orRefuse_eq_ok hitems)
  cases found with
  | arr others =>
      obtain rfl := Option.some.inj harr
      exact hfound
  | null | bool _ | int _ | str _ | obj _ => cases harr

/-! ## The construction -/

/-- The receipt of the cuts that `construct` writes. -/
def cutsOf (omittedAnchors omittedBytes : ℕ) (joined normalized : Str) : Cuts where
  omittedAnchors := omittedAnchors
  omittedBytes :=
    if decide (byteLen normalized ≠ byteLen joined ∨ 0 < omittedAnchors) = true ∧
        byteLen normalized ≠ byteLen joined then
      omittedBytes + (byteLen joined - byteLen normalized)
    else omittedBytes
  truncated := decide (byteLen normalized ≠ byteLen joined ∨ 0 < omittedAnchors)

/-- The texts of the anchors with a line break between two of them. -/
def joinedText (anchors : List EvidenceAnchor) : Str :=
  join ['\n'] (anchors.map EvidenceAnchor.text)

/-- The envelope that `construct` seals. -/
def builtEnvelope (content : List UInt8) (format : Format) (locator : Str)
    (anchors : List EvidenceAnchor) (fidelity : Json) (processor : String) (cuts : Cuts) : Json :=
  sealed (fieldMap (envelopeFields content format locator anchors fidelity processor
    (truncateBytes (joinedText anchors) maxTextBytes) cuts))

theorem construct_eq_ok {content : List UInt8} {format : Format} {locator : Str}
    {projected : List EvidenceAnchor} {fidelity : Json} {processor : String} {admitted : Admitted}
    (h : construct content format locator projected fidelity processor = .ok admitted) :
    ∃ omittedAnchors omittedBytes,
      applyAnchorBudgets projected = (admitted.anchors, omittedAnchors, omittedBytes) ∧
      validateBuiltEnvelope admitted.envelope format = .ok () ∧
      admitted.envelope = builtEnvelope content format locator admitted.anchors fidelity processor
        (cutsOf omittedAnchors omittedBytes (joinedText admitted.anchors)
          (truncateBytes (joinedText admitted.anchors) maxTextBytes)) := by
  rcases hbudgets : applyAnchorBudgets projected with ⟨anchors, omittedAnchors, omittedBytes⟩
  rw [construct, hbudgets] at h
  dsimp only at h
  rw [check_bind_eq_ok_iff, check_bind_eq_ok_iff, check_bind_eq_ok_iff] at h
  obtain ⟨-, -, hvalid, hadmitted⟩ := h
  obtain rfl := Except.ok.inj hadmitted
  exact ⟨omittedAnchors, omittedBytes, rfl, hvalid, rfl⟩

section Accounts

variable {content : List UInt8} {format : Format} {locator : Str}
  {anchors : List EvidenceAnchor} {fidelity : Json} {processor : String} {cuts : Cuts}

theorem follow_builtEnvelope {key : String} {value : Json} {path : List String}
    (hkey : key ≠ "envelope_digest")
    (h : (key, value) ∈ envelopeFields content format locator anchors fidelity processor
      (truncateBytes (joinedText anchors) maxTextBytes) cuts) :
    (builtEnvelope content format locator anchors fidelity processor cuts).follow (key :: path) =
      value.follow path := by
  have hnodup : ((envelopeFields content format locator anchors fidelity processor
      (truncateBytes (joinedText anchors) maxTextBytes) cuts).map Prod.fst).Nodup := by
    rw [envelopeFields_keys]
    decide
  rw [Json.follow, builtEnvelope, follow_sealed hnodup hkey h, bind_some]

theorem follow_object {entries : List (String × Json)} (hnodup : (entries.map Prod.fst).Nodup)
    {key : String} {value : Json} {path : List String} (h : (key, value) ∈ entries) :
    (Json.object entries).follow (key :: path) = value.follow path := by
  rw [Json.follow, Json.get_object hnodup h, bind_some]

end Accounts

/-- The receipt of the cuts is where the envelope says. -/
theorem follow_truncation {content : List UInt8} {format : Format} {locator : Str}
    {anchors : List EvidenceAnchor} {fidelity : Json} {processor : String} {cuts : Cuts}
    {key : String} {value : Json}
    (h : (key, value) ∈ [("omitted_anchor_count", .int cuts.omittedAnchors),
      ("omitted_bytes", .int cuts.omittedBytes),
      ("reason", if cuts.truncated then Json.text "envelope-budget" else .null),
      ("truncated", .bool cuts.truncated)]) :
    (builtEnvelope content format locator anchors fidelity processor cuts).follow
      ["receipts", "truncation", key] = some value := by
  have hreceipts : (["malformed_input", "truncation", "unavailable"] : List String).Nodup := by
    decide
  have hcuts : (["omitted_anchor_count", "omitted_bytes", "reason", "truncated"] :
      List String).Nodup := by decide
  have hmember : ("receipts", Json.object
      [("malformed_input", Json.object [("present", .bool false), ("reason", .null)]),
        ("truncation", truncationJson cuts),
        ("unavailable", Json.object
          [("features", .arr ((unsupportedFeatures fidelity).map .str)),
            ("parser_attestation", .bool true), ("revision", .bool true)])]) ∈
      envelopeFields content format locator anchors fidelity processor
        (truncateBytes (joinedText anchors) maxTextBytes) cuts := by
    simp [envelopeFields]
  refine (follow_builtEnvelope (by decide) hmember).trans ?_
  refine (follow_object ?_ (.tail _ (.head _))).trans ?_
  · exact hreceipts
  refine (follow_object ?_ h).trans ?_
  · exact hcuts
  · rw [Json.follow]

theorem follow_text {content : List UInt8} {format : Format} {locator : Str}
    {anchors : List EvidenceAnchor} {fidelity : Json} {processor : String} {cuts : Cuts} :
    (builtEnvelope content format locator anchors fidelity processor cuts).follow
      ["normalized", "content", "text"] =
        some (.str (truncateBytes (joinedText anchors) maxTextBytes)) := by
  have hnormalized : (["content", "digest"] : List String).Nodup := by decide
  have hcontent : (["family", "language", "text"] : List String).Nodup := by decide
  have hmember : ("normalized", Json.object
      [("content", contentJson format (truncateBytes (joinedText anchors) maxTextBytes)),
        ("digest", .str (sha256Hex
          (contentJson format (truncateBytes (joinedText anchors) maxTextBytes)).toBytes))]) ∈
      envelopeFields content format locator anchors fidelity processor
        (truncateBytes (joinedText anchors) maxTextBytes) cuts := by
    simp [envelopeFields]
  refine (follow_builtEnvelope (by decide) hmember).trans ?_
  refine (follow_object ?_ (.head _)).trans ?_
  · exact hnormalized
  refine (follow_object ?_ (.tail _ (.tail _ (.head _)))).trans ?_
  · exact hcontent
  · rw [Json.follow]

theorem follow_anchors {content : List UInt8} {format : Format} {locator : Str}
    {anchors : List EvidenceAnchor} {fidelity : Json} {processor : String} {cuts : Cuts} :
    (builtEnvelope content format locator anchors fidelity processor cuts).follow ["anchors"] =
      some (.arr (anchors.map (anchorJson format))) := by
  rw [follow_builtEnvelope (by decide) (.tail _ (.head _)), Json.follow]

section Cuts

variable {projected kept : List EvidenceAnchor} {omittedAnchors omittedBytes : ℕ}
  {normalized : Str} (hlongest : LongestPrefix maxTextBytes (joinedText kept) normalized)
  (hbudgeted : Budgeted projected kept omittedAnchors omittedBytes)
include hlongest hbudgeted

/-- The bytes counted are those of the anchors left out and those cut from the joined text. -/
theorem bytes_cutsOf :
    (cutsOf omittedAnchors omittedBytes (joinedText kept) normalized).omittedBytes +
        textBytes kept + byteLen normalized =
      textBytes (withText projected) + byteLen (joinedText kept) := by
  have hle : byteLen normalized ≤ byteLen (joinedText kept) := by
    obtain ⟨rest, hrest⟩ := hlongest.isPrefix
    rw [← hrest, byteLen_append]
    omega
  have hbytes := hbudgeted.bytes
  rw [cutsOf]
  dsimp only
  by_cases hcut : byteLen normalized ≠ byteLen (joinedText kept)
  · rw [if_pos ⟨decide_eq_true (Or.inl hcut), hcut⟩]
    omega
  · rw [if_neg fun h => hcut h.2]
    omega

theorem truncated_cutsOf :
    (cutsOf omittedAnchors omittedBytes (joinedText kept) normalized).truncated = true ↔
      kept.length ≠ (withText projected).length ∨ normalized ≠ joinedText kept := by
  have hanchors := hbudgeted.anchors
  have hcut : byteLen normalized ≠ byteLen (joinedText kept) ↔ normalized ≠ joinedText kept :=
    not_congr ⟨eq_of_prefix_of_byteLen hlongest.isPrefix, fun heq => by rw [heq]⟩
  have homitted : 0 < omittedAnchors ↔ kept.length ≠ (withText projected).length := by omega
  rw [cutsOf]
  dsimp only
  rw [decide_eq_true_iff, hcut, homitted, or_comm]

end Cuts

/-- What `construct` admits is accounted for. -/
theorem accounted_of_construct {content : List UInt8} {format : Format} {locator : Str}
    {projected : List EvidenceAnchor} {fidelity : Json} {processor : String} {admitted : Admitted}
    (hdigested : Digested projected)
    (h : construct content format locator projected fidelity processor = .ok admitted) :
    Accounted format projected admitted.anchors admitted.envelope := by
  obtain ⟨omittedAnchors, omittedBytes, hbudgets, hvalid, hbuilt⟩ := construct_eq_ok h
  obtain ⟨⟨items, hitems, hcheck⟩, hstrings⟩ := checks_of_validateBuiltEnvelope hvalid
  have hbudgeted := budgeted_applyAnchorBudgets hbudgets
  have hanchors : admitted.envelope.follow ["anchors"] =
      some (.arr (admitted.anchors.map (anchorJson format))) := by
    rw [hbuilt]
    exact follow_anchors
  have hincreasing : (admitted.anchors.map EvidenceAnchor.id).Pairwise (· < ·) := by
    rw [Json.follow, hitems, bind_some, Json.follow] at hanchors
    obtain rfl := Json.arr.inj (Option.some.inj hanchors)
    exact (pairwise_cons.mp (increasing_of_checkAnchors hcheck)).2
  have hlongest := longestPrefix_truncateBytes (joinedText admitted.anchors) maxTextBytes
  refine ⟨hanchors, hincreasing, hbudgeted.length_le, ?_, hbudgeted.first, ?_, ?_, ?_, ?_⟩
  · intro anchor hanchor
    obtain ⟨hmem, hblank, hfits⟩ := hbudgeted.fits hanchor
    exact ⟨hblank, hfits, hdigested anchor hmem⟩
  · refine ⟨omittedAnchors, hbudgeted.anchors, ?_⟩
    rw [hbuilt]
    exact follow_truncation (.head _)
  · let cuts := cutsOf omittedAnchors omittedBytes (joinedText admitted.anchors)
      (truncateBytes (joinedText admitted.anchors) maxTextBytes)
    refine ⟨truncateBytes (joinedText admitted.anchors) maxTextBytes, cuts.omittedBytes,
      cuts.truncated, ?_, hlongest, ?_, ?_, ?_, ?_⟩
    · rw [hbuilt]
      exact follow_text
    · rw [hbuilt]
      exact follow_truncation (.tail _ (.head _))
    · exact bytes_cutsOf hlongest hbudgeted
    · rw [hbuilt]
      exact follow_truncation (.tail _ (.tail _ (.tail _ (.head _))))
    · exact truncated_cutsOf hlongest hbudgeted
  · exact fun text htext => clean_of_checkStrings hstrings htext
  · rw [hbuilt]
    exact digest_sealed fresh_envelopeFields

/-- A cell with the text `x`. -/
def cellAnchor : EvidenceAnchor :=
  evidence "a".toList "cell".toList
    (Json.object [("family", Json.text "grid"), ("sheet", Json.text "S"), ("row", .int 1),
      ("column", .int 1)]) "x".toList .embedded

def gridFidelity : Json :=
  Json.object [("text", Json.text "exact"), ("sheets", Json.text "exact"),
    ("cells", Json.text "exact"), ("formulas", Json.text "normalized"),
    ("charts", Json.text "unsupported"), ("macros", Json.text "unsupported")]

/-- One cell with a text is admitted. -/
theorem accounted_of_construct_cell : ∃ admitted,
    construct [80] .xlsx "a.xlsx".toList [cellAnchor] gridFidelity xlsxProjection = .ok admitted ∧
      Accounted .xlsx [cellAnchor] admitted.anchors admitted.envelope := by
  have hdigested : Digested [cellAnchor] := by
    intro anchor hanchor
    obtain rfl := mem_singleton.mp hanchor
    exact textDigest_evidence _ _ _ _ _
  have hsome : (construct [80] .xlsx "a.xlsx".toList [cellAnchor] gridFidelity
      xlsxProjection).toOption.isSome = true := by
    simp only [construct, sha256Hex, Agent.sha256Value_eq_windowValue]
    decide +kernel
  cases hconstruct : construct [80] .xlsx "a.xlsx".toList [cellAnchor] gridFidelity
      xlsxProjection with
  | error failure =>
      rw [hconstruct] at hsome
      exact absurd hsome Bool.false_ne_true
  | ok admitted => exact ⟨admitted, rfl, accounted_of_construct hdigested hconstruct⟩

/-! ## Admission -/

/-- What the import of an admitted document has answered, and the anchors read from it. -/
structure Imported.Answered (imported : Imported) (format : Format)
    (projected : List EvidenceAnchor) : Prop where
  unflagged : "dlp-findings".toList ∉ imported.receipt ∧
    "public-boundary-violation".toList ∉ imported.receipt
  read : ∃ projection fidelity processor, Json.parse imported.canonical = .ok projection ∧
    readProjection format projection = some (projected, fidelity, processor)

/-- Whatever an adapter answers, a document is refused or its envelope is sealed over clean strings and
over anchors that were read from the answer, each with the digest of its text. -/
theorem admitBytes_sound (importOf : Format → List UInt8 → Except Refusal Imported)
    (content : List UInt8) (format : Format) (locator : Str) :
    (∃ refusal, admitBytes importOf content format locator = .error refusal) ∨
      ∃ admitted imported projected,
        admitBytes importOf content format locator = .ok admitted ∧
        importOf format content = .ok imported ∧ imported.Answered format projected ∧
        FirstById admitted.anchors (fitting projected) ∧ admitted.anchors.length ≤ maxAnchors ∧
        (∀ anchor ∈ admitted.anchors,
          anchor ∈ projected ∧ anchor.textDigest = sha256Hex (bytes anchor.text)) ∧
        admitted.envelope.follow ["anchors"] =
          some (.arr (admitted.anchors.map (anchorJson format))) ∧
        (∀ text, admitted.envelope.HasString text → Clean text) ∧
        admitted.envelope.follow ["envelope_digest"] =
          some (.str (sha256Hex (admitted.envelope.without "envelope_digest".toList).toBytes)) := by
  cases hadmit : admitBytes importOf content format locator with
  | error refusal => exact Or.inl ⟨refusal, rfl⟩
  | ok admitted =>
      have h := hadmit
      rw [admitBytes, check_bind_eq_ok_iff] at h
      obtain ⟨-, h⟩ := h
      obtain ⟨-, -, h⟩ := bind_eq_ok_iff.mp h
      obtain ⟨imported, himported, h⟩ := bind_eq_ok_iff.mp h
      rw [check_bind_eq_ok_iff, check_bind_eq_ok_iff] at h
      obtain ⟨hfindings, hboundary, h⟩ := h
      obtain ⟨projection, hparsed, h⟩ := bind_eq_ok_iff.mp h
      obtain ⟨⟨projected, fidelity, processor⟩, hread, h⟩ := bind_eq_ok_iff.mp h
      have hread := orRefuse_eq_ok hread
      obtain ⟨omittedAnchors, omittedBytes, hbudgets, hvalid, hbuilt⟩ := construct_eq_ok h
      have hbudgeted := budgeted_applyAnchorBudgets hbudgets
      refine Or.inr ⟨admitted, imported, projected, rfl, himported, ⟨⟨failIf_eq_ok_iff.mp hfindings,
        failIf_eq_ok_iff.mp hboundary⟩, projection, fidelity, processor,
        mapError_eq_ok_iff.mp hparsed, hread⟩, hbudgeted.first, hbudgeted.length_le,
        fun anchor hanchor => ?_, ?_, fun text htext => ?_, ?_⟩
      · have hmem := (hbudgeted.fits hanchor).1
        exact ⟨hmem, digested_readProjection hread anchor hmem⟩
      · rw [hbuilt]
        exact follow_anchors
      · exact clean_of_checkStrings (checks_of_validateBuiltEnvelope hvalid).2 htext
      · rw [hbuilt]
        exact digest_sealed fresh_envelopeFields

end Bran.Document
