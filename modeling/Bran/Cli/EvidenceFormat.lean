import Bran.Cli.EvidenceStore

/-!
# Stored evidence is read back

The lines of a store are read back field by field, as long as each field is within the bound that
only the reader checks.
-/

namespace Bran.Cli

open Text Validation List
open Except (ok.injEq ok.inj)

/-! ## Fields -/

/-- A field that the reader accepts. -/
def FieldFits (value : Str) : Prop := byteLen value ≤ maxEvidenceFieldBytes

/-- Every text of a ranking is within the bound. -/
def QueryEvidenceRanking.Fits (ranking : QueryEvidenceRanking) : Prop :=
  FieldFits ranking.bundle ∧ FieldFits ranking.locator ∧ FieldFits ranking.matchReason ∧
    FieldFits ranking.freshness

/-- Every text of a record is within the bound. -/
structure QueryEvidenceRecord.Fits (record : QueryEvidenceRecord) : Prop where
  roots : ∀ root ∈ record.requestedRoots, FieldFits root
  matched : ∀ term ∈ record.matched, FieldFits term
  unmatched : ∀ term ∈ record.unmatched, FieldFits term
  rankings : ∀ ranking ∈ record.rankings, ranking.Fits

theorem unescapeChars_cons {c : Char} (h : c ≠ '\\') (rest : Str) :
    unescapeChars (c :: rest) = (unescapeChars rest).map (c :: ·) := by
  rw [unescapeChars.eq_def]
  split
  · rename_i heq
    cases heq
  all_goals
    rename_i heq
    first
      | exact absurd (List.cons.inj heq).1 h
      | skip
  obtain ⟨rfl, rfl⟩ := List.cons.inj heq
  rw [if_neg h]

theorem unescapeChars_escape (value : Str) : unescapeChars (evidenceEscape value) = some value := by
  induction value with
  | nil => rfl
  | cons c rest ih =>
      rw [evidenceEscape, flatMap_cons, ← evidenceEscape]
      split_ifs with hslash hline hreturn htab
      · rw [cons_append, cons_append, nil_append, unescapeChars, ih, hslash]
        rfl
      · rw [cons_append, cons_append, nil_append, unescapeChars, ih, hline]
        rfl
      · rw [cons_append, cons_append, nil_append, unescapeChars, ih, hreturn]
        rfl
      · rw [cons_append, cons_append, nil_append, unescapeChars, ih, htab]
        rfl
      · rw [cons_append, nil_append, unescapeChars_cons hslash, ih]
        rfl

variable {value : Str} {record : QueryEvidenceRecord}

/-- An escaped field is read back within the bound and refused above it. -/
theorem evidenceUnescape_escape_eq_ok_iff {out : Str} :
    evidenceUnescape (evidenceEscape value) = .ok out ↔ FieldFits value ∧ out = value := by
  rw [evidenceUnescape, unescapeChars_escape, FieldFits]
  dsimp only
  split_ifs with hlong
  · exact ⟨fun h => (nomatch h), fun h => absurd h.1 (not_le.mpr hlong)⟩
  · rw [ok.injEq]
    exact ⟨fun h => ⟨not_lt.mp hlong, h.symm⟩, fun h => h.2.symm⟩

theorem unescape_bind_eq_ok_iff {α : Type} {f : Str → α} {out : α} :
    (do let text ← evidenceUnescape (evidenceEscape value); return f text) = .ok out ↔
      FieldFits value ∧ out = f value := by
  rw [bind_eq_ok_iff]
  constructor
  · rintro ⟨text, htext, hout⟩
    obtain ⟨hfits, rfl⟩ := evidenceUnescape_escape_eq_ok_iff.mp htext
    exact ⟨hfits, (ok.inj hout).symm⟩
  · rintro ⟨hfits, rfl⟩
    exact ⟨value, evidenceUnescape_escape_eq_ok_iff.mpr ⟨hfits, rfl⟩, rfl⟩

/-- An escaped field has none of the characters that end it. -/
theorem not_mem_evidenceEscape (value : Str) :
    '\n' ∉ evidenceEscape value ∧ '\r' ∉ evidenceEscape value ∧ '\t' ∉ evidenceEscape value := by
  induction value with
  | nil => exact ⟨not_mem_nil, not_mem_nil, not_mem_nil⟩
  | cons c rest ih =>
      obtain ⟨hline, hreturn, htab⟩ := ih
      rw [evidenceEscape, flatMap_cons, ← evidenceEscape]
      simp only [mem_append, not_or]
      split_ifs with hslash hfeed hcarriage hstop
      iterate 4 exact ⟨⟨by decide, hline⟩, ⟨by decide, hreturn⟩, ⟨by decide, htab⟩⟩
      · simp only [mem_singleton]
        exact ⟨⟨Ne.symm hfeed, hline⟩, ⟨Ne.symm hcarriage, hreturn⟩, ⟨Ne.symm hstop, htab⟩⟩

/-! ## Numbers -/

theorem parseNumber_decimal {bound n : ℕ} (h : n < bound) :
    parseNumber bound (decimal n) = .ok n := by
  rw [parseNumber, CharCode.parseInteger_decimal h]

/-! ## Rankings -/

def rankingParts (ranking : QueryEvidenceRanking) : List Str :=
  [decimal ranking.rank.toNat, evidenceEscape ranking.bundle, evidenceEscape ranking.locator,
    evidenceEscape ranking.matchReason, decimal ranking.exact_.toNat,
    decimal ranking.partial_.toNat, decimal ranking.active.toNat, decimal ranking.canonical.toNat,
    decimal ranking.publicSafe.toNat, decimal ranking.confidence.toNat,
    evidenceEscape ranking.freshness]

theorem not_mem_rankingParts (ranking : QueryEvidenceRanking) :
    ∀ part ∈ rankingParts ranking, '\n' ∉ part ∧ '\r' ∉ part ∧ '\t' ∉ part := by
  have hnumber : ∀ n, '\n' ∉ decimal n ∧ '\r' ∉ decimal n ∧ '\t' ∉ decimal n := fun n =>
    ⟨not_mem_decimal (by decide) n, not_mem_decimal (by decide) n, not_mem_decimal (by decide) n⟩
  intro part hpart
  simp only [rankingParts, mem_cons, not_mem_nil, or_false] at hpart
  rcases hpart with rfl | rfl | rfl | rfl | rfl | rfl | rfl | rfl | rfl | rfl | rfl
  all_goals first | exact hnumber _ | exact not_mem_evidenceEscape _

theorem splitOn_rankingParts (ranking : QueryEvidenceRanking) :
    (join ['\t'] (rankingParts ranking)).splitOn '\t' = rankingParts ranking :=
  splitOn_intercalate _ (fun part hpart => (not_mem_rankingParts ranking part hpart).2.2)
    (cons_ne_nil _ _)

theorem parseEvidenceRank_eq_ok_iff {ranking out : QueryEvidenceRanking} :
    parseEvidenceRank (join ['\t'] (rankingParts ranking)) = .ok out ↔
      ranking.Fits ∧ out = ranking := by
  rw [parseEvidenceRank, splitOn_rankingParts, rankingParts]
  dsimp only
  rw [parseNumber_decimal ranking.rank.toNat_lt, parseNumber_decimal ranking.exact_.toNat_lt,
    parseNumber_decimal ranking.partial_.toNat_lt, parseNumber_decimal ranking.active.toNat_lt,
    parseNumber_decimal ranking.canonical.toNat_lt,
    parseNumber_decimal ranking.publicSafe.toNat_lt,
    parseNumber_decimal ranking.confidence.toNat_lt]
  simp only [ok_bind, bind_eq_ok_iff, evidenceUnescape_escape_eq_ok_iff]
  constructor
  · rintro ⟨_, ⟨hbundle, rfl⟩, _, ⟨hlocator, rfl⟩, _, ⟨hreason, rfl⟩, _, ⟨hfresh, rfl⟩, hout⟩
    obtain rfl := ok.inj hout
    refine ⟨⟨hbundle, hlocator, hreason, hfresh⟩, ?_⟩
    simp
  · rintro ⟨⟨hbundle, hlocator, hreason, hfresh⟩, rfl⟩
    refine ⟨_, ⟨hbundle, rfl⟩, _, ⟨hlocator, rfl⟩, _, ⟨hreason, rfl⟩, _, ⟨hfresh, rfl⟩, ?_⟩
    show Except.ok _ = _
    simp

/-! ## Lines -/

theorem fieldLine_ne_rule (key value : Str) : fieldLine key value ≠ "---".toList := by
  intro heq
  have htab : '\t' ∈ fieldLine key value :=
    mem_append_right _ mem_cons_self
  rw [heq] at htab
  exact absurd htab (by decide)

/-- A line with a key is a field of the record that is being read. -/
theorem line_field {key : Str} (hkey : '\t' ∉ key) (records : List QueryEvidenceRecord)
    (current : OpenRecord) (value : Str) :
    StoreState.line ⟨records, some current⟩ (fieldLine key value) =
      (current.field key value).map fun next => ⟨records, some next⟩ := by
  rw [StoreState.line, if_neg (fieldLine_ne_rule key value), fieldLine, splitOnce_append hkey]
  dsimp only
  cases current.field key value <;> rfl

theorem line_eq_ok_iff {key : Str} (hkey : '\t' ∉ key) {records : List QueryEvidenceRecord}
    {current : OpenRecord} {next : StoreState} :
    StoreState.line ⟨records, some current⟩ (fieldLine key value) = .ok next ↔
      ∃ record, current.field key value = .ok record ∧ next = ⟨records, some record⟩ := by
  rw [line_field hkey, map_eq_ok_iff]
  exact exists_congr fun record => and_congr_right fun _ => eq_comm

section Lines

variable {records : List QueryEvidenceRecord} {current : OpenRecord} {next : StoreState}

/-- The lines of a list of items that join those of the record one after the other. -/
theorem foldlM_items {α : Type} {line : α → Str} {fits : α → Prop} {put : List α → OpenRecord}
    (hstep : ∀ before item next,
      StoreState.line ⟨records, some (put before)⟩ (line item) = .ok next ↔
        fits item ∧ next = ⟨records, some (put (before ++ [item]))⟩) (before items : List α) :
    (items.map line).foldlM StoreState.line ⟨records, some (put before)⟩ = .ok next ↔
      (∀ item ∈ items, fits item) ∧ next = ⟨records, some (put (before ++ items))⟩ := by
  induction items generalizing before with
  | nil =>
      rw [map_nil, foldlM_nil, append_nil]
      show Except.ok _ = _ ↔ _
      rw [ok.injEq]
      exact ⟨fun h => ⟨fun _ hmem => (nomatch hmem), h.symm⟩, fun h => h.2.symm⟩
  | cons item rest ih =>
      rw [map_cons, foldlM_cons, bind_eq_ok_iff, forall_mem_cons, append_cons]
      constructor
      · rintro ⟨state, hitem, hrest⟩
        obtain ⟨hfits, rfl⟩ := (hstep before item state).mp hitem
        obtain ⟨hall, hnext⟩ := (ih _).mp hrest
        exact ⟨⟨hfits, hall⟩, hnext⟩
      · rintro ⟨⟨hfits, hall⟩, hnext⟩
        exact ⟨_, (hstep before item _).mpr ⟨hfits, rfl⟩, (ih _).mpr ⟨hall, hnext⟩⟩

theorem foldlM_items_bind {α β : Type} {line : α → Str} {fits : α → Prop}
    {put : List α → OpenRecord} {f : StoreState → Except EvidenceError β} {out : β}
    (hstep : ∀ before item next,
      StoreState.line ⟨records, some (put before)⟩ (line item) = .ok next ↔
        fits item ∧ next = ⟨records, some (put (before ++ [item]))⟩) (before items : List α) :
    (items.map line).foldlM StoreState.line ⟨records, some (put before)⟩ >>= f = .ok out ↔
      (∀ item ∈ items, fits item) ∧ f ⟨records, some (put (before ++ items))⟩ = .ok out := by
  rw [bind_eq_ok_iff]
  constructor
  · rintro ⟨state, hstate, hout⟩
    obtain ⟨hfits, rfl⟩ := (foldlM_items hstep before items).mp hstate
    exact ⟨hfits, hout⟩
  · rintro ⟨hfits, hout⟩
    exact ⟨_, (foldlM_items hstep before items).mpr ⟨hfits, rfl⟩, hout⟩

variable {request outcome : Str} {roots matched unmatched : List Str}
  {rankings : List QueryEvidenceRanking} {seenRequest seenOutcome : Bool}

theorem line_root (before : List Str) (root : Str) (next : StoreState) :
    StoreState.line ⟨records, some ⟨⟨request, before, outcome, matched, unmatched, rankings⟩,
        seenRequest, seenOutcome⟩⟩ (fieldLine "root".toList (evidenceEscape root)) = .ok next ↔
      FieldFits root ∧ next = ⟨records, some ⟨⟨request, before ++ [root], outcome, matched, unmatched,
        rankings⟩, seenRequest, seenOutcome⟩⟩ := by
  rw [line_eq_ok_iff (by decide), OpenRecord.field, if_neg fun h => absurd h.1 (by decide),
    if_pos rfl]
  simp only [unescape_bind_eq_ok_iff, and_assoc, exists_and_left, exists_eq_left]

theorem line_matched (before : List Str) (term : Str) (next : StoreState) :
    StoreState.line ⟨records, some ⟨⟨request, roots, outcome, before, unmatched, rankings⟩,
        seenRequest, seenOutcome⟩⟩ (fieldLine "matched".toList (evidenceEscape term)) = .ok next ↔
      FieldFits term ∧ next = ⟨records, some ⟨⟨request, roots, outcome, before ++ [term], unmatched,
        rankings⟩, seenRequest, seenOutcome⟩⟩ := by
  rw [line_eq_ok_iff (by decide), OpenRecord.field, if_neg fun h => absurd h.1 (by decide),
    if_neg (by decide), if_neg fun h => absurd h.1 (by decide), if_pos rfl]
  simp only [unescape_bind_eq_ok_iff, and_assoc, exists_and_left, exists_eq_left]

theorem line_unmatched (before : List Str) (term : Str) (next : StoreState) :
    StoreState.line ⟨records, some ⟨⟨request, roots, outcome, matched, before, rankings⟩,
        seenRequest, seenOutcome⟩⟩ (fieldLine "unmatched".toList (evidenceEscape term)) = .ok next ↔
      FieldFits term ∧ next = ⟨records, some ⟨⟨request, roots, outcome, matched, before ++ [term],
        rankings⟩, seenRequest, seenOutcome⟩⟩ := by
  rw [line_eq_ok_iff (by decide), OpenRecord.field, if_neg fun h => absurd h.1 (by decide),
    if_neg (by decide), if_neg fun h => absurd h.1 (by decide), if_neg (by decide), if_pos rfl]
  simp only [unescape_bind_eq_ok_iff, and_assoc, exists_and_left, exists_eq_left]

theorem line_ranking (before : List QueryEvidenceRanking) (ranking : QueryEvidenceRanking)
    (next : StoreState) :
    StoreState.line ⟨records, some ⟨⟨request, roots, outcome, matched, unmatched, before⟩,
        seenRequest, seenOutcome⟩⟩ (rankingLine ranking) = .ok next ↔
      ranking.Fits ∧ next = ⟨records, some ⟨⟨request, roots, outcome, matched, unmatched,
        before ++ [ranking]⟩, seenRequest, seenOutcome⟩⟩ := by
  rw [rankingLine, ← rankingParts, line_eq_ok_iff (by decide), OpenRecord.field,
    if_neg fun h => absurd h.1 (by decide), if_neg (by decide),
    if_neg fun h => absurd h.1 (by decide), if_neg (by decide), if_neg (by decide), if_pos rfl]
  simp only [bind_eq_ok_iff, parseEvidenceRank_eq_ok_iff]
  constructor
  · rintro ⟨_, ⟨_, ⟨hfits, rfl⟩, hrecord⟩, rfl⟩
    exact ⟨hfits, by rw [← ok.inj hrecord]⟩
  · rintro ⟨hfits, rfl⟩
    exact ⟨_, ⟨_, ⟨hfits, rfl⟩, rfl⟩, rfl⟩

theorem line_request (record : QueryEvidenceRecord) (seenOutcome : Bool) {request : Str}
    (hrequest : byteLen request ≤ maxEvidenceRequestBytes) :
    StoreState.line ⟨records, some ⟨record, false, seenOutcome⟩⟩
      (fieldLine "request".toList (evidenceEscape request)) =
      .ok ⟨records, some ⟨{ record with request := request }, true, seenOutcome⟩⟩ := by
  rw [line_eq_ok_iff (by decide), OpenRecord.field, if_pos ⟨rfl, rfl⟩]
  refine ⟨_, bind_eq_ok_iff.mpr ⟨request, ?_, ?_⟩, rfl⟩
  · exact evidenceUnescape_escape_eq_ok_iff.mpr ⟨hrequest, rfl⟩
  · exact check_bind_eq_ok_iff.mpr ⟨failIf_eq_ok_iff.mpr (not_lt.mpr hrequest), rfl⟩

theorem line_outcome (record : QueryEvidenceRecord) (seenRequest : Bool) {outcome : Str}
    (houtcome : FieldFits outcome) :
    StoreState.line ⟨records, some ⟨record, seenRequest, false⟩⟩
      (fieldLine "outcome".toList (evidenceEscape outcome)) =
      .ok ⟨records, some ⟨{ record with outcome := outcome }, seenRequest, true⟩⟩ := by
  rw [line_eq_ok_iff (by decide), OpenRecord.field, if_neg fun h => absurd h.1 (by decide),
    if_neg (by decide), if_pos ⟨rfl, rfl⟩]
  exact ⟨_, unescape_bind_eq_ok_iff.mpr ⟨houtcome, rfl⟩, rfl⟩

structure QueryEvidenceRecord.Storable (record : QueryEvidenceRecord) : Prop where
  roots : record.requestedRoots ≠ []
  outcome : record.outcome ∈ queryOutcomes
  size : ¬ record.Oversized

theorem fieldFits_outcome {outcome : Str} (h : outcome ∈ queryOutcomes) : FieldFits outcome := by
  have hall : ∀ outcome ∈ queryOutcomes, byteLen outcome ≤ maxEvidenceFieldBytes := by decide
  exact hall outcome h

/-- The lines of a record are read into the record, within the bound of its fields. -/
theorem recordLines_eq_ok_iff {record : QueryEvidenceRecord} (hrecord : record.Storable)
    {state : StoreState} (hclose : state.close = .ok records)
    (hcount : records.length ≤ maxEvidenceRecords) :
    (recordLines record).foldlM StoreState.line state = .ok next ↔
      record.Fits ∧ next = ⟨records, some ⟨record, true, true⟩⟩ := by
  have hrule : state.line "---".toList = .ok ⟨records, some .new⟩ := by
    rw [StoreState.line, if_pos rfl, hclose]
    exact check_bind_eq_ok_iff.mpr ⟨failIf_eq_ok_iff.mpr (not_lt.mpr hcount), rfl⟩
  have hrequest : byteLen record.request ≤ maxEvidenceRequestBytes :=
    not_lt.mp fun h => hrecord.size (.inl h)
  have houtcome := fieldFits_outcome hrecord.outcome
  simp only [recordLines, foldlM_append, bind_assoc, foldlM_cons, foldlM_nil,
    pure_bind, hrule, ok_bind, OpenRecord.new, line_request _ _ hrequest]
  rw [foldlM_items_bind line_root, line_outcome _ _ houtcome, ok_bind,
    foldlM_items_bind line_matched, foldlM_items_bind line_unmatched, foldlM_items line_ranking]
  simp only [nil_append]
  constructor
  · rintro ⟨hroots, hmatched, hunmatched, hrankings, rfl⟩
    exact ⟨⟨hroots, hmatched, hunmatched, hrankings⟩, rfl⟩
  · rintro ⟨hfits, rfl⟩
    exact ⟨hfits.roots, hfits.matched, hfits.unmatched, hfits.rankings, rfl⟩

end Lines

/-! ## What the reader accepts -/

theorem fieldFits_of_evidenceUnescape {out : Str} (h : evidenceUnescape value = .ok out) :
    FieldFits out := by
  rw [evidenceUnescape] at h
  cases hchars : unescapeChars value with
  | none =>
      rw [hchars] at h
      cases h
  | some text =>
      rw [hchars] at h
      dsimp only at h
      split_ifs at h with hlong
      obtain rfl := ok.inj h
      exact not_lt.mp hlong

theorem fits_of_parseEvidenceRank {ranking : QueryEvidenceRanking}
    (h : parseEvidenceRank value = .ok ranking) : ranking.Fits := by
  rw [parseEvidenceRank.eq_def] at h
  split at h
  · simp only [bind_eq_ok_iff] at h
    obtain ⟨_, _, _, hbundle, _, hlocator, _, hreason, _, _, _, _, _, _, _, _, _, _, _, _, _, hfresh,
      hranking⟩ := h
    obtain rfl := ok.inj hranking
    exact ⟨fieldFits_of_evidenceUnescape hbundle, fieldFits_of_evidenceUnescape hlocator,
      fieldFits_of_evidenceUnescape hreason, fieldFits_of_evidenceUnescape hfresh⟩
  · cases h

/-- A record that is being read is within the bounds. -/
structure OpenRecord.Sound (current : OpenRecord) : Prop where
  fits : current.record.Fits
  request : byteLen current.record.request ≤ maxEvidenceRequestBytes

theorem OpenRecord.sound_new : OpenRecord.new.Sound :=
  ⟨⟨fun _ hmem => (nomatch hmem), fun _ hmem => (nomatch hmem), fun _ hmem => (nomatch hmem),
    fun _ hmem => (nomatch hmem)⟩, Nat.zero_le _⟩

theorem forall_mem_append_singleton {α : Type} {fits : α → Prop} {items : List α} {item : α}
    (hitems : ∀ other ∈ items, fits other) (hitem : fits item) :
    ∀ other ∈ items ++ [item], fits other := by
  intro other hmem
  rcases mem_append.mp hmem with hmem | hmem
  · exact hitems other hmem
  · rwa [mem_singleton.mp hmem]

/-- A field keeps a record within the bounds. -/
theorem OpenRecord.Sound.field {current next : OpenRecord} (h : current.Sound) {key : Str}
    (hfield : current.field key value = .ok next) : next.Sound := by
  obtain ⟨⟨hroots, hmatched, hunmatched, hrankings⟩, hrequest⟩ := h
  rw [OpenRecord.field] at hfield
  split_ifs at hfield
  · obtain ⟨request, _, hchecked⟩ := bind_eq_ok_iff.mp hfield
    obtain ⟨hsize, hnext⟩ := check_bind_eq_ok_iff.mp hchecked
    obtain rfl := ok.inj hnext
    exact ⟨⟨hroots, hmatched, hunmatched, hrankings⟩, not_lt.mp (failIf_eq_ok_iff.mp hsize)⟩
  · obtain ⟨root, hroot, hnext⟩ := bind_eq_ok_iff.mp hfield
    obtain rfl := ok.inj hnext
    have hfits := fieldFits_of_evidenceUnescape hroot
    exact ⟨⟨forall_mem_append_singleton hroots hfits, hmatched, hunmatched, hrankings⟩, hrequest⟩
  · obtain ⟨outcome, _, hnext⟩ := bind_eq_ok_iff.mp hfield
    obtain rfl := ok.inj hnext
    exact ⟨⟨hroots, hmatched, hunmatched, hrankings⟩, hrequest⟩
  · obtain ⟨term, hterm, hnext⟩ := bind_eq_ok_iff.mp hfield
    obtain rfl := ok.inj hnext
    have hfits := fieldFits_of_evidenceUnescape hterm
    exact ⟨⟨hroots, forall_mem_append_singleton hmatched hfits, hunmatched, hrankings⟩, hrequest⟩
  · obtain ⟨term, hterm, hnext⟩ := bind_eq_ok_iff.mp hfield
    obtain rfl := ok.inj hnext
    have hfits := fieldFits_of_evidenceUnescape hterm
    exact ⟨⟨hroots, hmatched, forall_mem_append_singleton hunmatched hfits, hrankings⟩, hrequest⟩
  · obtain ⟨ranking, hranking, hnext⟩ := bind_eq_ok_iff.mp hfield
    obtain rfl := ok.inj hnext
    have hfits := fits_of_parseEvidenceRank hranking
    exact ⟨⟨hroots, hmatched, hunmatched, forall_mem_append_singleton hrankings hfits⟩, hrequest⟩

theorem OpenRecord.Sound.finish {current : OpenRecord} (h : current.Sound)
    (hfinish : current.finish = .ok record) :
    record.Storable ∧ record.Fits := by
  rw [OpenRecord.finish] at hfinish
  split_ifs at hfinish with hbad
  obtain rfl := ok.inj hfinish
  simp only [Bool.or_eq_true, Bool.not_eq_true', decide_eq_true_eq, List.isEmpty_iff, not_or,
    contains_iff_mem, Bool.not_eq_false] at hbad
  obtain ⟨⟨⟨⟨_, hroots⟩, hroom⟩, hranked⟩, houtcome⟩ := hbad
  refine ⟨⟨hroots, by simpa using houtcome, ?_⟩, h.fits⟩
  rintro (hlong | hlong | hlong)
  · exact absurd h.request (not_le.mpr hlong)
  · exact hroom hlong
  · exact hranked hlong

/-- The records that were read, and the one that is being read, are within the bounds. -/
structure StoreState.Sound (state : StoreState) : Prop where
  records : ∀ record ∈ state.records, record.Storable ∧ record.Fits
  current : ∀ current, state.current = some current → current.Sound

theorem StoreState.Sound.close {state : StoreState} (h : state.Sound)
    {records : List QueryEvidenceRecord} (hclose : state.close = .ok records) :
    ∀ record ∈ records, record.Storable ∧ record.Fits := by
  rw [StoreState.close] at hclose
  cases hcurrent : state.current with
  | none =>
      rw [hcurrent] at hclose
      obtain rfl := ok.inj hclose
      exact h.records
  | some current =>
      rw [hcurrent] at hclose
      obtain ⟨record, hfinish, hrecords⟩ := bind_eq_ok_iff.mp hclose
      obtain rfl := ok.inj hrecords
      exact forall_mem_append_singleton h.records ((h.current current hcurrent).finish hfinish)

theorem StoreState.Sound.line {state next : StoreState} (h : state.Sound) {line : Str}
    (hline : state.line line = .ok next) : next.Sound := by
  rw [StoreState.line] at hline
  split_ifs at hline
  · obtain ⟨records, hclose, hchecked⟩ := bind_eq_ok_iff.mp hline
    obtain ⟨_, hnext⟩ := check_bind_eq_ok_iff.mp hchecked
    obtain rfl := ok.inj hnext
    exact ⟨h.close hclose, fun current hcurrent => Option.some.inj hcurrent ▸ OpenRecord.sound_new⟩
  · split at hline
    · rename_i current key value hcurrent _
      obtain ⟨record, hfield, hnext⟩ := bind_eq_ok_iff.mp hline
      obtain rfl := ok.inj hnext
      refine ⟨h.records, fun other hother => ?_⟩
      obtain rfl := Option.some.inj hother
      exact (h.current current hcurrent).field hfield
    · cases hline

theorem StoreState.Sound.lines {lines : List Str} {state next : StoreState} (h : state.Sound)
    (hlines : lines.foldlM StoreState.line state = .ok next) : next.Sound := by
  induction lines generalizing state with
  | nil => exact ok.inj hlines ▸ h
  | cons line rest ih =>
      rw [foldlM_cons] at hlines
      obtain ⟨middle, hline, hrest⟩ := bind_eq_ok_iff.mp hlines
      exact ih (h.line hline) hrest

/-- The reader accepts at most so many records, each within its bounds. -/
theorem parseEvidenceStore_sound {stored : List UInt8} {records : List QueryEvidenceRecord}
    (h : parseEvidenceStore stored = .ok records) : records.length ≤ maxEvidenceRecords ∧
      ∀ record ∈ records, record.Storable ∧ record.Fits := by
  rw [parseEvidenceStore] at h
  cases htext : fromUtf8 stored with
  | none =>
      rw [htext] at h
      cases h
  | some text =>
      rw [htext] at h
      dsimp only at h
      cases hlines : lines text with
      | nil =>
          rw [hlines] at h
          cases h
      | cons version rest =>
          rw [hlines] at h
          obtain ⟨_, hrest⟩ := check_bind_eq_ok_iff.mp h
          obtain ⟨state, hstate, hclosed⟩ := bind_eq_ok_iff.mp hrest
          obtain ⟨found, hfound, hchecked⟩ := bind_eq_ok_iff.mp hclosed
          obtain ⟨hcount, hrecords⟩ := check_bind_eq_ok_iff.mp hchecked
          obtain rfl := ok.inj hrecords
          have hstart : (StoreState.mk [] none).Sound :=
            ⟨fun _ hmem => (nomatch hmem), fun _ hcurrent => (nomatch hcurrent)⟩
          exact ⟨not_lt.mp (failIf_eq_ok_iff.mp hcount), (hstart.lines hstate).close hfound⟩

/-! ## The store -/

/-- A record that is complete is finished. -/
theorem finish_eq_ok (h : record.Storable) :
    OpenRecord.finish ⟨record, true, true⟩ = .ok record := by
  have hroots : record.requestedRoots.isEmpty = false := isEmpty_eq_false_iff.mpr h.roots
  have hroom : ¬ record.requestedRoots.length > maxEvidenceRoots := fun hlong => h.size (.inr (.inl hlong))
  have hranked : ¬ record.rankings.length > queryResultLimit := fun hlong => h.size (.inr (.inr hlong))
  rw [OpenRecord.finish, if_neg]
  simp [hroots, hroom, hranked, h.outcome]

/-- The lines of records behind those that were read. -/
theorem records_lines_eq_ok_iff {records done out : List QueryEvidenceRecord} {state : StoreState}
    (hclose : state.close = .ok done) (hcount : (done ++ records).length ≤ maxEvidenceRecords)
    (hrecords : ∀ record ∈ records, record.Storable) :
    ((records.flatMap recordLines).foldlM StoreState.line state >>= StoreState.close) = .ok out ↔
      (∀ record ∈ records, record.Fits) ∧ out = done ++ records := by
  induction records generalizing done state with
  | nil =>
      rw [flatMap_nil, foldlM_nil, pure_bind, hclose, ok.injEq, append_nil]
      exact ⟨fun h => ⟨fun _ hmem => (nomatch hmem), h.symm⟩, fun h => h.2.symm⟩
  | cons record rest ih =>
      obtain ⟨hrecord, hrest⟩ := forall_mem_cons.mp hrecords
      have hdone : done.length ≤ maxEvidenceRecords := by
        rw [length_append] at hcount
        omega
      have hnext : (StoreState.mk done (some ⟨record, true, true⟩)).close = .ok (done ++ [record]) := by
        rw [StoreState.close]
        dsimp only
        rw [finish_eq_ok hrecord]
        rfl
      have hstep := @ih (done ++ [record]) ⟨done, some ⟨record, true, true⟩⟩ hnext
        (by rwa [append_assoc, singleton_append]) hrest
      rw [append_assoc, singleton_append] at hstep
      rw [flatMap_cons, foldlM_append, bind_assoc, bind_eq_ok_iff, forall_mem_cons]
      constructor
      · rintro ⟨state', hlines, hclosed⟩
        obtain ⟨hfits, rfl⟩ := (recordLines_eq_ok_iff hrecord hclose hdone).mp hlines
        obtain ⟨hall, hout⟩ := hstep.mp hclosed
        exact ⟨⟨hfits, hall⟩, hout⟩
      · rintro ⟨⟨hfits, hall⟩, hout⟩
        exact ⟨_, (recordLines_eq_ok_iff hrecord hclose hdone).mpr ⟨hfits, rfl⟩,
          hstep.mpr ⟨hall, hout⟩⟩

/-- What is written for records. -/
def storeText (records : List QueryEvidenceRecord) : Str :=
  terminated (evidenceStoreVersion :: records.flatMap recordLines)

theorem encodeRecords_eq_ok_iff {records : List QueryEvidenceRecord} {before out : Str}
    (hbefore : byteLen before ≤ maxEvidenceFileBytes) :
    encodeRecords before records = .ok out ↔ (∀ record ∈ records, ¬ record.Oversized) ∧
      out = before ++ terminated (records.flatMap recordLines) ∧
      byteLen out ≤ maxEvidenceFileBytes := by
  induction records generalizing before with
  | nil =>
      rw [encodeRecords, ok.injEq, flatMap_nil, terminated, flatMap_nil,
        append_nil]
      constructor
      · rintro rfl
        exact ⟨fun _ hmem => (nomatch hmem), rfl, hbefore⟩
      · exact fun h => h.2.1.symm
  | cons record rest ih =>
      have hsplit : before ++ terminated ((record :: rest).flatMap recordLines) =
          before ++ terminated (recordLines record) ++ terminated (rest.flatMap recordLines) := by
        rw [flatMap_cons, terminated, flatMap_append, ← append_assoc]
        rfl
      rw [encodeRecords, check_bind_eq_ok_iff, check_bind_eq_ok_iff, failIf_eq_ok_iff,
        failIf_eq_ok_iff, not_lt, forall_mem_cons, hsplit]
      constructor
      · rintro ⟨hsize, hroom, hrest⟩
        obtain ⟨hall, hout, hlength⟩ := (ih hroom).mp hrest
        exact ⟨⟨hsize, hall⟩, hout, hlength⟩
      · rintro ⟨⟨hsize, hall⟩, hout, hlength⟩
        have hroom : byteLen (before ++ terminated (recordLines record)) ≤ maxEvidenceFileBytes := by
          rw [hout, byteLen_append] at hlength
          omega
        exact ⟨hsize, hroom, (ih hroom).mpr ⟨hall, hout, hlength⟩⟩

theorem encodeEvidenceStore_eq_ok_iff {records : List QueryEvidenceRecord} {out : List UInt8} :
    encodeEvidenceStore records = .ok out ↔ records.length ≤ maxEvidenceRecords ∧
      (∀ record ∈ records, ¬ record.Oversized) ∧
      byteLen (storeText records) ≤ maxEvidenceFileBytes ∧ out = bytes (storeText records) := by
  have hstart : terminated [evidenceStoreVersion] ++ terminated (records.flatMap recordLines) =
      storeText records := rfl
  rw [encodeEvidenceStore, check_bind_eq_ok_iff, failIf_eq_ok_iff, not_lt, bind_eq_ok_iff]
  refine and_congr_right fun _ => ?_
  constructor
  · rintro ⟨text, htext, hout⟩
    obtain ⟨hsizes, rfl, hlength⟩ := (encodeRecords_eq_ok_iff (by decide)).mp htext
    obtain ⟨_, hbytes⟩ := check_bind_eq_ok_iff.mp hout
    exact ⟨hsizes, hlength, (ok.inj hbytes).symm⟩
  · rintro ⟨hsizes, hlength, rfl⟩
    refine ⟨_, (encodeRecords_eq_ok_iff (by decide)).mpr ⟨hsizes, rfl, hlength⟩, ?_⟩
    exact check_bind_eq_ok_iff.mpr ⟨failIf_eq_ok_iff.mpr (not_lt.mpr hlength), rfl⟩

theorem not_mem_fieldLine {c : Char} {key : Str} (htab : c ≠ '\t') (hkey : c ∉ key)
    (hvalue : c ∉ value) : c ∉ fieldLine key value := by
  intro hmem
  rcases mem_append.mp hmem with hmem | hmem
  · exact hkey hmem
  · exact (mem_cons.mp hmem).elim htab hvalue

theorem not_mem_rankingLine (ranking : QueryEvidenceRanking) :
    '\n' ∉ rankingLine ranking ∧ '\r' ∉ rankingLine ranking :=
  ⟨not_mem_fieldLine (by decide) (by decide) (not_mem_join (by decide) fun part hpart =>
      (not_mem_rankingParts ranking part hpart).1),
    not_mem_fieldLine (by decide) (by decide) (not_mem_join (by decide) fun part hpart =>
      (not_mem_rankingParts ranking part hpart).2.1)⟩

/-- A line of a record ends where it is terminated. -/
theorem plain_of_mem_recordLines {line : Str} (h : line ∈ recordLines record) :
    '\n' ∉ line ∧ '\r' ∉ line := by
  have hfield : ∀ key value : Str, '\n' ∉ key → '\r' ∉ key →
      '\n' ∉ fieldLine key (evidenceEscape value) ∧ '\r' ∉ fieldLine key (evidenceEscape value) :=
    fun key value hfeed hreturn =>
      ⟨not_mem_fieldLine (by decide) hfeed (not_mem_evidenceEscape value).1,
        not_mem_fieldLine (by decide) hreturn (not_mem_evidenceEscape value).2.1⟩
  simp only [recordLines, mem_append, mem_cons, mem_map, not_mem_nil,
    or_false] at h
  obtain ((((hline | ⟨root, _, rfl⟩) | rfl) | ⟨term, _, rfl⟩) | ⟨term, _, rfl⟩) | ⟨ranking, _, rfl⟩ := h
  · rcases hline with rfl | rfl
    · exact ⟨by decide, by decide⟩
    · exact hfield _ _ (by decide) (by decide)
  · exact hfield _ _ (by decide) (by decide)
  · exact hfield _ _ (by decide) (by decide)
  · exact hfield _ _ (by decide) (by decide)
  · exact hfield _ _ (by decide) (by decide)
  · exact not_mem_rankingLine ranking

/-- Stored records are read back exactly when their fields are within the bound of the reader. -/
theorem parseEvidenceStore_encode_iff {records out : List QueryEvidenceRecord} {stored : List UInt8}
    (hrecords : ∀ record ∈ records, record.requestedRoots ≠ [] ∧ record.outcome ∈ queryOutcomes)
    (hstored : encodeEvidenceStore records = .ok stored) :
    parseEvidenceStore stored = .ok out ↔ (∀ record ∈ records, record.Fits) ∧ out = records := by
  obtain ⟨hcount, hsizes, _, rfl⟩ := encodeEvidenceStore_eq_ok_iff.mp hstored
  have hstorable : ∀ record ∈ records, record.Storable := fun record hmem =>
    ⟨(hrecords record hmem).1, (hrecords record hmem).2, hsizes record hmem⟩
  have hlines : lines (storeText records) =
      evidenceStoreVersion :: records.flatMap recordLines := by
    refine lines_flatMap (forall_mem_cons.mpr ⟨by decide, fun line hline => ?_⟩)
    obtain ⟨record, _, hmem⟩ := mem_flatMap.mp hline
    obtain ⟨hfeed, hreturn⟩ := plain_of_mem_recordLines hmem
    exact ⟨hfeed, fun hlast => hreturn (mem_of_getLast? hlast)⟩
  have hread := @records_lines_eq_ok_iff records [] out ⟨[], none⟩ rfl hcount hstorable
  rw [nil_append] at hread
  rw [parseEvidenceStore, fromUtf8_bytes]
  dsimp only
  rw [hlines]
  dsimp only
  rw [check_bind_eq_ok_iff, failIf_eq_ok_iff, ne_eq, not_not, and_iff_right rfl, ← bind_assoc,
    bind_eq_ok_iff]
  constructor
  · rintro ⟨found, hfound, hout⟩
    obtain ⟨_, hpure⟩ := check_bind_eq_ok_iff.mp hout
    obtain rfl := ok.inj hpure
    exact hread.mp hfound
  · intro hall
    have hfound := hread.mpr hall
    rw [hall.2] at hfound ⊢
    exact ⟨_, hfound, check_bind_eq_ok_iff.mpr ⟨failIf_eq_ok_iff.mpr (not_lt.mpr hcount), rfl⟩⟩

end Bran.Cli
