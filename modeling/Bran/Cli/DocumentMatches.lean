import Bran.Adapters.Sqz
import Bran.Cli.QueryRecord
import Bran.Document.AdmitAccounts

/-!
# Document evidence within a budget

The anchors that a query matches are ranked and cited with excerpts.  In a packet the excerpts are
paid from what its payload leaves.
-/

namespace Bran.Cli

open Text Validation Document Adapters Packet List Option

/-! ## The matches -/

def maxMatches : ℕ := 32

/-- `Candidate`. -/
structure MatchCandidate where
  bundle : Str
  path : Str
  digest : Str
  anchor : EvidenceAnchor
  score : ℕ

/-- The bundle, the path and the anchor of a candidate. -/
def matchKey (candidate : MatchCandidate) : Str ×ₗ Str ×ₗ Str :=
  toLex (candidate.bundle, toLex (candidate.path, candidate.anchor.id))

/-- The order of the embedded matches. -/
def scoreKey (candidate : MatchCandidate) : ℕᵒᵈ ×ₗ Str ×ₗ Str ×ₗ Str :=
  toLex (OrderDual.toDual candidate.score, matchKey candidate)

def embeddedMatches (candidates : List MatchCandidate) : List MatchCandidate :=
  candidates.filter fun candidate => candidate.score ≠ 0 ∧ candidate.anchor.derivation ≠ .ocr

/-- The candidates from OCR that match. -/
def derivedMatches (candidates : List MatchCandidate) : List MatchCandidate :=
  candidates.filter fun candidate => candidate.score ≠ 0 ∧ candidate.anchor.derivation = .ocr

/-- `rank_matches`, with the candidates in place of their indices. -/
def rankMatches (candidates : List MatchCandidate) : List (MatchCandidate × Option ℕ) × ℕ :=
  let embedded := sortBy scoreKey (embeddedMatches candidates)
  let derived := sortBy matchKey (derivedMatches candidates)
  let ordered := embedded.zipIdx.map (fun entry => (entry.1, some (entry.2 + 1))) ++
    derived.map fun candidate => (candidate, none)
  (ordered.take maxMatches, ordered.length - maxMatches)

/-! ## The excerpts -/

/-- The terms that a text holds. -/
def termsIn (text : Str) (terms : Terms) : List Str :=
  terms.keys.filter fun term => containsStr (toAsciiLowercase text) term

/-- `Source`. -/
structure DocumentSource where
  bundle : Str
  path : Str
  digest : Str
  admitted : Admitted

/-- The candidates of the sources, in the order of the sources; the score is `term_score`. -/
def matchCandidates (terms : Terms) (sources : List DocumentSource) : List MatchCandidate :=
  (sortBy (fun source => toLex (source.bundle, source.path)) sources).flatMap fun source =>
    source.admitted.anchors.map fun anchor =>
      ⟨source.bundle, source.path, source.digest, anchor, (termsIn anchor.text terms).length⟩

structure ExcerptBudget where
  remainingBytes : ℕ
  perExcerptBytes : ℕ

structure DocumentMatch where
  candidate : MatchCandidate
  rank : Option ℕ
  excerpt : Option Str

/-- `DocumentEvidence`, with the matches of its JSON. -/
structure DocumentEvidence where
  cited : List DocumentMatch
  omittedMatches : ℕ
  matchedTerms : Terms
  excerptBytes : ℕ
  truncated : Bool

/-- One turn of the loop over the matches; `none` is the underflow of its subtraction. -/
def citeMatch (terms : Terms) (state : Option ExcerptBudget × DocumentEvidence)
    (ranked : MatchCandidate × Option ℕ) : Option (Option ExcerptBudget × DocumentEvidence) :=
  let (excerpts, evidence) := state
  let (candidate, rank) := ranked
  let text := candidate.anchor.text
  let matchedTerms := evidence.matchedTerms.extend (termsIn text terms)
  match excerpts with
  | none => some (none, { evidence with
      cited := evidence.cited ++ [⟨candidate, rank, none⟩], matchedTerms })
  | some budget =>
      let excerpt := lastBoundary text
        (min (min (byteLen text) budget.remainingBytes) budget.perExcerptBytes)
      if budget.remainingBytes < byteLen excerpt then none
      else some (some { budget with remainingBytes := budget.remainingBytes - byteLen excerpt },
        { evidence with
          cited := evidence.cited ++ [⟨candidate, rank, some excerpt⟩]
          matchedTerms
          excerptBytes := evidence.excerptBytes + byteLen excerpt
          truncated := evidence.truncated || byteLen excerpt < byteLen text })

/-- `document_evidence_json` behind the admission of the files: `none` is an underflow, and no
evidence is given where no document was found. -/
def documentEvidenceJson (terms : Terms) (sources : List DocumentSource)
    (refusals unsupported : List (Str × Str × Str)) (excerpts : Option ExcerptBudget) :
    Option (Option DocumentEvidence) :=
  if sources = [] ∧ refusals = [] ∧ unsupported = [] then some none
  else
    let (ordered, omittedMatches) := rankMatches (matchCandidates terms sources)
    (ordered.foldlM (citeMatch terms) (excerpts, ⟨[], omittedMatches, .empty, 0, false⟩)).map
      fun state => some state.2

/-! ## The packet -/

/-- The limits of `do_packet`. -/
def packetLimits (tokenCeiling : Option ℕ) : PacketLimits := ⟨256, 4 * 1024 * 1024, tokenCeiling⟩

/-- What `do_packet` reports of its bytes. -/
structure PacketBytes where
  rawBytes : ℕ
  encodedPacketBytes : ℕ
  estimatedTokens : ℕ
  truncated : Bool

/-- The bytes that `do_packet` leaves to the excerpts. -/
def remainingBytes (limits : PacketLimits) (evaluation : SqzEvaluation) : ℕ :=
  let encoded := byteLen evaluation.packet.payload
  min (limits.maxBytes - max encoded evaluation.receipt.rawBytes)
    (limits.runtimeTokenCeiling.elim (2 ^ 64 - 1) fun ceiling =>
      min (ceiling * 4) (2 ^ 64 - 1) - encoded)

/-- The report of `do_packet` on a compressed packet and its documents. -/
def packetBytes (evaluation : SqzEvaluation) (documents : Option DocumentEvidence) :
    PacketBytes :=
  let documentBytes := documents.elim 0 DocumentEvidence.excerptBytes
  let encoded := byteLen evaluation.packet.payload + documentBytes
  { rawBytes := evaluation.receipt.rawBytes + documentBytes
    encodedPacketBytes := encoded
    estimatedTokens := (encoded + 3) / 4
    truncated := evaluation.packet.receipt.truncated ||
      documents.elim false DocumentEvidence.truncated }

/-- `do_packet` from the assembly of its packet on, with a compressor that answers as it likes; it
reports nothing where an error or an underflow ends it. -/
def doPacket {S : Type} (policy : SqzPolicy) (port : SqzPort S) (session : SqzSession S)
    (request : PacketAssemblyRequest) (tokenCeiling excerptBytes : Option ℕ)
    (documents : Option ExcerptBudget → Option (Option DocumentEvidence)) :
    Option PacketBytes := do
  let limits := packetLimits tokenCeiling
  let packet ← (← assemble { request with limits }).toOption
  let adapter : SqzAdapter := ⟨⟨policy, .approved, limits.maxBytes, []⟩⟩
  let evaluation ← (adapter.evaluate port packet limits.maxBytes session).1.toOption
  let found ← if evaluation.receipt.status = .failed then none
    else documents (some ⟨remainingBytes limits evaluation, excerptBytes.getD 8192⟩)
  return packetBytes evaluation found

/-! ## The order of the matches -/

/-- One candidate comes before another by its bundle, its path and its anchor. -/
def Below (left right : MatchCandidate) : Prop :=
  left.bundle < right.bundle ∨ left.bundle = right.bundle ∧
    (left.path < right.path ∨ left.path = right.path ∧ left.anchor.id < right.anchor.id)

/-- The matches are in order, ranked and counted. -/
structure Ranked (candidates : List MatchCandidate) (embedded derived : List MatchCandidate)
    (result : List (MatchCandidate × Option ℕ) × ℕ) : Prop where
  mem_embedded : ∀ candidate, candidate ∈ embedded ↔ candidate ∈ candidates ∧ 0 < candidate.score ∧
    candidate.anchor.derivation ≠ .ocr
  mem_derived : ∀ candidate, candidate ∈ derived ↔ candidate ∈ candidates ∧ 0 < candidate.score ∧
    candidate.anchor.derivation = .ocr
  byScore : embedded.Pairwise fun left right => right.score < left.score ∨
    left.score = right.score ∧ Below left right
  byKey : derived.Pairwise Below
  ordered : result.1 = ((embedded.zipIdx 1).map (fun entry : MatchCandidate × ℕ =>
    (entry.1, some entry.2)) ++ derived.map fun candidate => (candidate, none)).take 32
  omitted : result.2 + result.1.length = embedded.length + derived.length

theorem below_iff {left right : MatchCandidate} :
    Below left right ↔ matchKey left < matchKey right := by
  simp only [Below, matchKey, Prod.Lex.toLex_lt_toLex]

variable {candidates other : List MatchCandidate}

theorem nodup_scoreKey (h : (candidates.map matchKey).Nodup) :
    (candidates.map scoreKey).Nodup := by
  have hkeys : candidates.map matchKey =
      (candidates.map scoreKey).map fun key => (ofLex key).2 := by
    rw [List.map_map]
    rfl
  rw [hkeys] at h
  exact h.of_map

theorem ranked_rankMatches (h : (candidates.map matchKey).Nodup) :
    ∃ embedded derived, Ranked candidates embedded derived (rankMatches candidates) := by
  have hfilter (keep : MatchCandidate → Bool) : ((candidates.filter keep).map matchKey).Nodup :=
    h.sublist (filter_sublist.map matchKey)
  refine ⟨sortBy scoreKey (embeddedMatches candidates), sortBy matchKey (derivedMatches candidates),
    fun candidate => ?_, fun candidate => ?_, ?_, ?_, ?_, ?_⟩
  · rw [mem_sortBy, embeddedMatches, mem_filter, decide_eq_true_iff, Nat.pos_iff_ne_zero]
  · rw [mem_sortBy, derivedMatches, mem_filter, decide_eq_true_iff, Nat.pos_iff_ne_zero]
  · refine (pairwise_map.mp (pairwise_lt_sortBy (nodup_scoreKey (hfilter _)))).imp ?_
    intro left right hlt
    rw [scoreKey, scoreKey, Prod.Lex.toLex_lt_toLex, OrderDual.toDual_lt_toDual,
      OrderDual.toDual_inj] at hlt
    exact hlt.imp_right fun hsame => ⟨hsame.1, below_iff.mpr hsame.2⟩
  · exact (pairwise_map.mp (pairwise_lt_sortBy (hfilter _))).imp below_iff.mpr
  · rw [List.zipIdx_succ, List.map_map]
    rfl
  · rw [rankMatches]
    dsimp only
    rw [length_take, length_append, length_map, List.length_zipIdx, length_map]
    omega

/-- The matches do not depend on the order of the candidates. -/
theorem rankMatches_perm (hperm : other.Perm candidates) (h : (candidates.map matchKey).Nodup) :
    rankMatches other = rankMatches candidates := by
  have hfilter (keep : MatchCandidate → Bool) : ((other.filter keep).map matchKey).Nodup :=
    ((hperm.map matchKey).nodup_iff.mpr h).sublist (filter_sublist.map matchKey)
  have hembedded : sortBy scoreKey (embeddedMatches other) =
      sortBy scoreKey (embeddedMatches candidates) :=
    sortBy_eq_of_perm (hperm.filter _) (nodup_scoreKey (hfilter _))
  have hderived : sortBy matchKey (derivedMatches other) =
      sortBy matchKey (derivedMatches candidates) :=
    sortBy_eq_of_perm (hperm.filter _) (hfilter _)
  rw [rankMatches, hembedded, hderived, rankMatches]

/-! ## The excerpts that are paid -/

/-- The excerpts of the cited matches are paid from a budget of which so much is left. -/
structure Paid (budget : ExcerptBudget) (ordered : List (MatchCandidate × Option ℕ)) (left : ℕ)
    (evidence : DocumentEvidence) : Prop where
  cited : evidence.cited.map (fun cited => (cited.candidate, cited.rank)) = ordered
  excerpts : ∀ cited ∈ evidence.cited, ∃ excerpt, cited.excerpt = some excerpt ∧
    excerpt <+: cited.candidate.anchor.text ∧ byteLen excerpt ≤ budget.perExcerptBytes
  bytes : evidence.excerptBytes =
    (evidence.cited.map fun cited => byteLen (cited.excerpt.getD [])).sum
  paid : evidence.excerptBytes + left = budget.remainingBytes
  truncated : evidence.truncated = true ↔ ∃ cited ∈ evidence.cited,
    byteLen (cited.excerpt.getD []) < byteLen cited.candidate.anchor.text

variable {terms : Terms} {budget : ExcerptBudget} {left : ℕ} {evidence : DocumentEvidence}
  {ordered rest : List (MatchCandidate × Option ℕ)}

theorem citeMatch_paid (ranked : MatchCandidate × Option ℕ) (h : Paid budget ordered left evidence) :
    ∃ left' evidence', citeMatch terms (some ⟨left, budget.perExcerptBytes⟩, evidence) ranked =
        some (some ⟨left', budget.perExcerptBytes⟩, evidence') ∧
      evidence'.omittedMatches = evidence.omittedMatches ∧
      Paid budget (ordered ++ [ranked]) left' evidence' := by
  obtain ⟨candidate, rank⟩ := ranked
  let excerpt := lastBoundary candidate.anchor.text
    (min (min (byteLen candidate.anchor.text) left) budget.perExcerptBytes)
  have hle : byteLen excerpt ≤ min (min (byteLen candidate.anchor.text) left)
      budget.perExcerptBytes := byteLen_lastBoundary_le _ _
  have hpaid := h.paid
  -- the excerpt is cut to what is left, so the subtraction does not underflow
  have hfits : ¬ left < byteLen excerpt := by omega
  refine ⟨left - byteLen excerpt, _, if_neg hfits, rfl, ?_, ?_, ?_, ?_, ?_⟩
  · rw [map_append, h.cited]
    rfl
  · refine forall_mem_append.mpr ⟨h.excerpts, forall_mem_singleton.mpr ?_⟩
    exact ⟨excerpt, rfl, lastBoundary_front _ _, by omega⟩
  · rw [map_append, sum_append, ← h.bytes]
    rfl
  · show evidence.excerptBytes + byteLen excerpt + (left - byteLen excerpt) = _
    omega
  · show (evidence.truncated || decide (byteLen excerpt < byteLen candidate.anchor.text)) = true ↔ _
    rw [Bool.or_eq_true, h.truncated, decide_eq_true_iff]
    simp only [mem_append, mem_singleton, or_and_right, exists_or, exists_eq_left,
      getD_some]
    rfl

/-- The whole loop, by induction on the matches that are left. -/
theorem citeMatches_paid (h : Paid budget ordered left evidence) :
    ∃ left' evidence', rest.foldlM (citeMatch terms)
        (some ⟨left, budget.perExcerptBytes⟩, evidence) =
          some (some ⟨left', budget.perExcerptBytes⟩, evidence') ∧
      evidence'.omittedMatches = evidence.omittedMatches ∧
      Paid budget (ordered ++ rest) left' evidence' := by
  induction rest generalizing ordered left evidence with
  | nil => exact ⟨left, evidence, rfl, rfl, by rwa [append_nil]⟩
  | cons ranked rest ih =>
      obtain ⟨next, cited, hcite, homitted, hpaid⟩ := @citeMatch_paid terms _ _ _ _ ranked h
      obtain ⟨left', evidence', hrest, homitted', hpaid'⟩ := ih hpaid
      refine ⟨left', evidence', ?_, homitted'.trans homitted, ?_⟩
      · rw [foldlM_cons, hcite]
        exact hrest
      · rwa [append_assoc] at hpaid'

theorem documentEvidenceJson_paid (sources : List DocumentSource)
    (refusals unsupported : List (Str × Str × Str)) :
    ∃ documents, documentEvidenceJson terms sources refusals unsupported (some budget) =
        some documents ∧ ∀ evidence ∈ documents, ∃ left,
      Paid budget (rankMatches (matchCandidates terms sources)).1 left evidence ∧
        evidence.omittedMatches = (rankMatches (matchCandidates terms sources)).2 := by
  unfold documentEvidenceJson
  split_ifs with hnone
  · exact ⟨none, rfl, fun _ h => (nomatch h)⟩
  · obtain ⟨left, evidence, hloop, homitted, hpaid⟩ := @citeMatches_paid terms budget
      budget.remainingBytes ⟨[], (rankMatches (matchCandidates terms sources)).2, .empty, 0, false⟩ []
      (rankMatches (matchCandidates terms sources)).1 ⟨rfl, by simp, rfl, Nat.zero_add _, by simp⟩
    refine ⟨some evidence, ?_, fun _ h => ?_⟩
    · dsimp only
      rw [hloop]
      rfl
    · obtain rfl := mem_some_iff.mp h
      exact ⟨left, hpaid, homitted⟩

/-! ## The packet that is reported -/

/-- A report is within the bounds of a packet. -/
structure PacketBytes.Within (report : PacketBytes) (tokenCeiling : Option ℕ) : Prop where
  raw : report.rawBytes ≤ (packetLimits tokenCeiling).maxBytes
  encoded : report.encodedPacketBytes ≤ (packetLimits tokenCeiling).maxBytes
  tokens : report.estimatedTokens = (report.encodedPacketBytes + 3) / 4 ∧
    ∀ ceiling, tokenCeiling = some ceiling → report.estimatedTokens ≤ ceiling

/-- Compression reports the bytes of the packet and makes it no longer. -/
theorem evaluate_le {S : Type} {adapter : SqzAdapter} {port : SqzPort S} {session : SqzSession S}
    {packet : ContextPacket} {requested : ℕ} {evaluation : SqzEvaluation}
    (h : (adapter.evaluate port packet requested session).1 = .ok evaluation) :
    evaluation.receipt.rawBytes = byteLen packet.payload ∧
      byteLen evaluation.packet.payload ≤ byteLen packet.payload := by
  -- a failure hands the packet back as it came
  have hfailed {identity latency candidate failure}
      (hok : adapter.failed packet requested identity latency candidate failure = .ok evaluation) :
      evaluation.receipt.rawBytes = byteLen packet.payload ∧
        byteLen evaluation.packet.payload ≤ byteLen packet.payload := by
    unfold SqzAdapter.failed at hok
    dsimp only at hok
    split_ifs at hok
    obtain rfl := Except.ok.inj hok
    exact ⟨rfl, le_rfl⟩
  obtain ⟨outcome, hearly, hrun⟩ | ⟨_, answer, latency, _, hrun⟩ :=
    SqzAdapter.evaluate_cases adapter port packet requested session
  · rw [hrun] at h
    obtain ⟨failure, rfl, _⟩ | ⟨_, _, rfl⟩ := SqzAdapter.early_cases hearly
    · exact hfailed h
    · obtain rfl := Except.ok.inj h
      exact ⟨rfl, le_rfl⟩
  · rw [hrun] at h
    obtain ⟨_, _, failure, hjudge, _⟩ | ⟨output, _, _, ⟨_, hjudge⟩ | ⟨hless, hjudge⟩⟩ :=
      SqzAdapter.judge_cases adapter packet requested latency answer
    · exact hfailed (hjudge.symm.trans h)
    · obtain rfl := Except.ok.inj (hjudge.symm.trans h)
      exact ⟨rfl, le_rfl⟩
    · obtain rfl := Except.ok.inj (hjudge.symm.trans h)
      exact ⟨rfl, hless.le⟩

/-- An assembled packet is within the limits. -/
theorem assemble_within {request : PacketAssemblyRequest} {packet : ContextPacket}
    (h : assemble request = some (.ok packet)) :
    byteLen packet.payload ≤ request.limits.maxBytes ∧
      ∀ ceiling, request.limits.runtimeTokenCeiling = some ceiling →
        (byteLen packet.payload + 3) / 4 ≤ ceiling := by
  obtain ⟨_, _, _, _, outcome, _, _, hlimits, _, hadmission, rfl⟩ := assemble_spec h
  obtain rfl := effectiveLimits_eq_ok hlimits
  obtain ⟨_, hbytes, htokens⟩ := admitted_within (Admission.admits_of_admitAll hadmission)
  have hpayload : byteLen (contextStateOf outcome).payload = contextBytes outcome.admitted := by
    show byteLen (outcome.admitted.map encodeItem).flatten = _
    rw [byteLen_flatten, List.map_map]
    rfl
  rw [hpayload, ← Packet.estimateTokens_eq]
  exact ⟨hbytes.trans (min_le_left _ _), htokens⟩

section Report

variable {S : Type} {policy : SqzPolicy} {port : SqzPort S} {session : SqzSession S}
  {request : PacketAssemblyRequest} {tokenCeiling excerptBytes : Option ℕ}
  {sources : List DocumentSource} {refusals unsupported : List (Str × Str × Str)}
  {report : PacketBytes}

/-- The excerpts cost no more than the packet leaves. -/
theorem doPacket_within (h : doPacket policy port session request tokenCeiling excerptBytes
    (documentEvidenceJson terms sources refusals unsupported) = some report) :
    report.Within tokenCeiling := by
  unfold doPacket at h
  obtain ⟨assembled, hassembled, h⟩ := bind_eq_some_iff.mp h
  obtain ⟨packet, hpacket, h⟩ := bind_eq_some_iff.mp h
  obtain ⟨evaluation, hevaluation, h⟩ := bind_eq_some_iff.mp h
  dsimp only at h
  split_ifs at h
  · cases h
  obtain ⟨documents, hdocuments, h⟩ := bind_eq_some_iff.mp h
  obtain rfl := Option.some.inj h
  obtain ⟨hbytes, htokens⟩ := assemble_within
    (hassembled.trans (congrArg some (toOption_eq_some_iff.mp hpacket)))
  obtain ⟨hraw, hencoded⟩ := evaluate_le (toOption_eq_some_iff.mp hevaluation)
  -- no documents cost nothing, and the excerpts of some are paid from the budget
  have hpaid : documents.elim 0 DocumentEvidence.excerptBytes ≤
      remainingBytes (packetLimits tokenCeiling) evaluation := by
    obtain ⟨found, hfound, hevidence⟩ := @documentEvidenceJson_paid terms
      ⟨remainingBytes (packetLimits tokenCeiling) evaluation, excerptBytes.getD 8192⟩
      sources refusals unsupported
    obtain rfl := Option.some.inj (hdocuments.symm.trans hfound)
    cases documents with
    | none => exact Nat.zero_le _
    | some evidence =>
        obtain ⟨left, hleft, _⟩ := hevidence evidence rfl
        exact Nat.le.intro hleft.paid
  unfold remainingBytes at hpaid
  dsimp only [packetLimits] at hbytes htokens hpaid
  refine ⟨?_, ?_, rfl, fun ceiling hceiling => ?_⟩
  · show evaluation.receipt.rawBytes + _ ≤ 4 * 1024 * 1024
    omega
  · show byteLen evaluation.packet.payload + _ ≤ 4 * 1024 * 1024
    omega
  · have hceil := htokens ceiling hceiling
    rw [hceiling, elim_some] at hpaid
    show (byteLen evaluation.packet.payload + _ + 3) / 4 ≤ ceiling
    omega

end Report

/-- Document evidence is ranked, paid from its budget and within the bounds of its packet. -/
theorem documentEvidence_bounded :
    (∀ candidates : List MatchCandidate, (candidates.map matchKey).Nodup →
      (∃ embedded derived, Ranked candidates embedded derived (rankMatches candidates)) ∧
      ∀ other, other.Perm candidates → rankMatches other = rankMatches candidates) ∧
    (∀ terms sources refusals unsupported budget, ∃ documents,
      documentEvidenceJson terms sources refusals unsupported (some budget) = some documents ∧
      ∀ evidence ∈ documents, ∃ left,
        Paid budget (rankMatches (matchCandidates terms sources)).1 left evidence ∧
        evidence.omittedMatches = (rankMatches (matchCandidates terms sources)).2) ∧
    ∀ (S : Type) policy (port : SqzPort S) session request tokenCeiling excerptBytes terms sources
      refusals unsupported report, doPacket policy port session request tokenCeiling excerptBytes
        (documentEvidenceJson terms sources refusals unsupported) = some report →
      report.Within tokenCeiling :=
  ⟨fun _ h => ⟨ranked_rankMatches h, fun _ hperm => rankMatches_perm hperm h⟩,
    fun _ sources refusals unsupported _ => documentEvidenceJson_paid sources refusals unsupported,
    fun _ _ _ _ _ _ _ _ _ _ _ _ h => doPacket_within h⟩

end Bran.Cli
