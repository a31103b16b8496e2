import Bran.Adapters.Connected

/-!
# Grounded responses

`Grounded` says which responses `validate` accepts: the loops count to zero exactly for them.  From
it follows what a run returns, with the calls of the SQZ port reconstructed from its receipt.
-/

namespace Bran.Adapters

open Bran.Agent Bran.Graph Bran.Packet Text Validation List Exchange ConnectedCoordinator
open Bool (and_eq_true not_eq_true' not_eq_false)

/-! ## The responses that are accepted -/

/-- A citation that passes the tests of its own fields. -/
structure WellFormedCitation (citation : ConnectedCitation) : Prop where
  id : validId citation.id = true
  claimId : validId citation.claimId = true
  nodeId : validField citation.nodeId = true
  locator : validField citation.locator = true
  contentDigest : isDigest citation.contentDigest = true

/-- A usage that passes the tests of its own fields. -/
structure WellFormedUsage (usage : ConnectedUsage) : Prop where
  id : validId usage.id = true
  support : isBlank usage.support = false
  supportBytes : byteLen usage.support ≤ maxText
  nodeId : validField usage.nodeId = true
  locator : validField usage.locator = true
  contentDigest : isDigest usage.contentDigest = true

/-- An item that was read, with its locator and digest. -/
def NamesItem (packet : StructuralPacket) (nodeId locator contentDigest : Str) : Prop :=
  ∃ item ∈ packet.items, item.nodeId = nodeId ∧ item.locatorOnly = false ∧
    item.locator = locator ∧ item.contentDigest = contentDigest

def ConnectedResponse.ids (response : ConnectedResponse) : List Str :=
  (response.claims.map fun claim => claim.id) ++ (response.citations.map fun citation => citation.id) ++
    response.usages.map fun usage => usage.id

/-- Distinct acknowledgements that hold every required one. -/
structure Acknowledges (given required : List Str) : Prop where
  distinct : given.Nodup
  fields : ∀ value ∈ given, validField value = true
  complete : ∀ value ∈ required, value ∈ given

/-- The responses that are grounded in a packet. -/
structure Grounded (packet : StructuralPacket) (response : ConnectedResponse) : Prop where
  sizes : oversized response = false
  nonempty : response.claims ≠ []
  claims : ∀ claim ∈ response.claims, validId claim.id = true ∧ validField claim.text = true
  cited : ∀ claim ∈ response.claims, claim.material = true →
    ∃ citation ∈ response.citations, citation.claimId = claim.id
  citations : ∀ citation ∈ response.citations, WellFormedCitation citation
  cites : ∀ citation ∈ response.citations,
    NamesItem packet citation.nodeId citation.locator citation.contentDigest ∧
      ∃ claim ∈ response.claims, claim.id = citation.claimId
  usages : ∀ usage ∈ response.usages, WellFormedUsage usage
  uses : ∀ usage ∈ response.usages, NamesItem packet usage.nodeId usage.locator usage.contentDigest
  distinct : response.ids.Nodup
  conflicts : Acknowledges response.conflicts packet.receipt.conflictIds
  missing : Acknowledges response.missingEvidence (missing packet)

variable {packet : StructuralPacket} {response : ConnectedResponse} {tally : Tally}

theorem names_iff (h : (packet.items.map StructuralPacketItem.nodeId).Nodup)
    {nodeId locator contentDigest : Str} :
    names packet nodeId locator contentDigest = true ↔
      NamesItem packet nodeId locator contentDigest := by
  have hkeys : ((packet.items.map fun item => (item.nodeId, item)).map Prod.fst).Nodup := by
    rw [map_map]
    exact h
  have hfind : ∀ item, (admitted packet).find? nodeId = some item ↔
      item ∈ packet.items ∧ item.nodeId = nodeId := by
    intro item
    rw [admitted, OrdMap.find?_ofList hkeys, mem_map]
    constructor
    · intro hentry
      obtain ⟨other, hother, heq⟩ := hentry
      obtain ⟨rfl, rfl⟩ := Prod.mk.inj heq
      exact ⟨hother, rfl⟩
    · intro hitem
      obtain ⟨hitem, rfl⟩ := hitem
      exact ⟨item, hitem, rfl⟩
  rw [names]
  constructor
  · intro hnames
    split at hnames
    · rename_i item hitem
      simp only [and_eq_true, not_eq_true', beq_iff_eq] at hnames
      obtain ⟨hmem, hid⟩ := (hfind item).mp hitem
      exact ⟨item, hmem, hid, hnames.1.1, hnames.1.2, hnames.2⟩
    · cases hnames
  · intro hitem
    obtain ⟨item, hmem, hid, honly, hlocator, hdigest⟩ := hitem
    rw [(hfind item).mpr ⟨hmem, hid⟩]
    simp [honly, hlocator, hdigest]

/-! ## The count of bad entries -/

section Count

variable {α : Type} {step : Tally → α → Tally} {id : α → Str} {good : α → Prop}

/-- A loop body that leaves the count at zero exactly for good entries of a fresh identity. -/
structure Counts (step : Tally → α → Tally) (id : α → Str) (good : α → Prop) : Prop where
  bad : ∀ tally entry, (step tally entry).bad = 0 ↔
    tally.bad = 0 ∧ good entry ∧ id entry ∉ tally.ids
  ids : ∀ tally entry, good entry → (step tally entry).ids = insert (id entry) tally.ids

theorem Counts.foldl_ids (h : Counts step id good) {entries : List α} {tally : Tally}
    (hgood : ∀ entry ∈ entries, good entry) (value : Str) :
    value ∈ (entries.foldl step tally).ids ↔ value ∈ tally.ids ∨ value ∈ entries.map id := by
  induction entries generalizing tally with
  | nil => simp
  | cons entry rest ih =>
      rw [forall_mem_cons] at hgood
      rw [foldl_cons, ih hgood.2, h.ids tally entry hgood.1, Finset.mem_insert,
        map_cons, mem_cons]
      tauto

theorem Counts.foldl_bad (h : Counts step id good) {entries : List α} {tally : Tally} :
    (entries.foldl step tally).bad = 0 ↔ tally.bad = 0 ∧ (∀ entry ∈ entries, good entry) ∧
      (entries.map id).Nodup ∧ ∀ value ∈ entries.map id, value ∉ tally.ids := by
  induction entries generalizing tally with
  | nil => simp
  | cons entry rest ih =>
      rw [foldl_cons, ih, h.bad, forall_mem_cons, map_cons, nodup_cons,
        forall_mem_cons]
      constructor
      · intro hall
        obtain ⟨⟨hzero, hgood, hfresh⟩, hrest, hnodup, hother⟩ := hall
        rw [h.ids tally entry hgood] at hother
        refine ⟨hzero, ⟨hgood, hrest⟩, ⟨fun hmem => ?_, hnodup⟩, hfresh, fun value hvalue hmem => ?_⟩
        · exact hother _ hmem (Finset.mem_insert_self _ _)
        · exact hother value hvalue (Finset.mem_insert_of_mem hmem)
      · intro hall
        obtain ⟨hzero, ⟨hgood, hrest⟩, ⟨hnew, hnodup⟩, hfresh, hother⟩ := hall
        refine ⟨⟨hzero, hgood, hfresh⟩, hrest, hnodup, fun value hvalue hmem => ?_⟩
        rw [h.ids tally entry hgood, Finset.mem_insert] at hmem
        rcases hmem with rfl | hmem
        · exact hnew hvalue
        · exact hother value hvalue hmem

theorem foldl_uncited (h : ∀ tally entry, (step tally entry).uncited = tally.uncited)
    (entries : List α) (tally : Tally) : (entries.foldl step tally).uncited = tally.uncited := by
  induction entries generalizing tally with
  | nil => rfl
  | cons entry rest ih => rw [foldl_cons, ih, h]

end Count

theorem insertId_fst {wellFormed : Bool} {id : Str} :
    (tally.insertId wellFormed id).1 = true ↔ wellFormed = true ∧ id ∉ tally.ids := by
  rw [Tally.insertId]
  cases wellFormed with
  | true => simp
  | false => simp

theorem insertId_bad {wellFormed : Bool} {id : Str} :
    (tally.insertId wellFormed id).2.bad = tally.bad := by
  rw [Tally.insertId]
  split_ifs <;> rfl

theorem insertId_uncited {wellFormed : Bool} {id : Str} :
    (tally.insertId wellFormed id).2.uncited = tally.uncited := by
  rw [Tally.insertId]
  split_ifs <;> rfl

theorem insertId_ids {id : Str} : (tally.insertId true id).2.ids = insert id tally.ids := rfl

theorem count_bad {test : Bool} :
    (tally.count test).bad = 0 ↔ tally.bad = 0 ∧ test = true := by
  rw [Tally.count]
  cases test with
  | true => simp
  | false => simp

theorem counts_claims : Counts (checkClaim response) (fun claim => claim.id)
    fun claim => validId claim.id = true ∧ validField claim.text = true where
  bad := by
    intro tally claim
    have hbad : (checkClaim response tally claim).bad =
        ((tally.insertId (validId claim.id && validField claim.text) claim.id).2.count
          (tally.insertId (validId claim.id && validField claim.text) claim.id).1).bad := rfl
    rw [hbad, count_bad, insertId_bad, insertId_fst, and_eq_true]
  ids := by
    intro tally claim hgood
    have hids : (checkClaim response tally claim).ids =
        (tally.insertId (validId claim.id && validField claim.text) claim.id).2.ids := rfl
    rw [hids, hgood.1, hgood.2]
    rfl

theorem uncited_claims {claims : List ConnectedClaim} {tally : Tally} :
    (claims.foldl (checkClaim response) tally).uncited = 0 ↔ tally.uncited = 0 ∧
      ∀ claim ∈ claims, claim.material = true →
        ∃ citation ∈ response.citations, citation.claimId = claim.id := by
  induction claims generalizing tally with
  | nil => simp
  | cons claim rest ih =>
      have hstep : (checkClaim response tally claim).uncited =
          (tally.insertId (validId claim.id && validField claim.text) claim.id).2.uncited +
            if claim.material && !response.citations.any fun citation =>
              citation.claimId == claim.id then 1 else 0 := rfl
      rw [foldl_cons, ih, hstep, insertId_uncited, forall_mem_cons, Nat.add_eq_zero_iff,
        and_assoc]
      refine and_congr_right fun _ => and_congr_left fun _ => ?_
      split_ifs with h
      · simp only [and_eq_true, not_eq_true', any_eq_false, beq_iff_eq] at h
        constructor
        · intro hzero
          cases hzero
        · intro hcited
          obtain ⟨citation, hcitation, hid⟩ := hcited h.1
          exact absurd hid (h.2 citation hcitation)
      · refine iff_of_true rfl fun hmaterial => ?_
        rw [hmaterial, Bool.true_and, not_eq_true', not_eq_false, any_eq_true] at h
        obtain ⟨citation, hcitation, hid⟩ := h
        exact ⟨citation, hcitation, beq_iff_eq.mp hid⟩

theorem wellFormedCitation_iff {citation : ConnectedCitation} :
    (validId citation.id && validId citation.claimId && validField citation.nodeId &&
      validField citation.locator && isDigest citation.contentDigest) = true ↔
      WellFormedCitation citation := by
  simp only [and_eq_true]
  constructor
  · intro h
    exact ⟨h.1.1.1.1, h.1.1.1.2, h.1.1.2, h.1.2, h.2⟩
  · intro h
    exact ⟨⟨⟨⟨h.id, h.claimId⟩, h.nodeId⟩, h.locator⟩, h.contentDigest⟩

theorem wellFormedUsage_iff {usage : ConnectedUsage} :
    (validId usage.id && !isBlank usage.support && decide (byteLen usage.support ≤ maxText) &&
      validField usage.nodeId && validField usage.locator && isDigest usage.contentDigest) = true ↔
      WellFormedUsage usage := by
  simp only [and_eq_true, not_eq_true', decide_eq_true_eq]
  constructor
  · intro h
    exact ⟨h.1.1.1.1.1, h.1.1.1.1.2, h.1.1.1.2, h.1.1.2, h.1.2, h.2⟩
  · intro h
    exact ⟨⟨⟨⟨⟨h.id, h.support⟩, h.supportBytes⟩, h.nodeId⟩, h.locator⟩, h.contentDigest⟩

/-- A loop body that admits an identity and then makes one more test. -/
theorem counts_of_insertId {α : Type} {step : Tally → α → Tally} {id : α → Str} {good : α → Prop}
    (wellFormed test : α → Bool)
    (hstep : ∀ tally entry, step tally entry =
      if (tally.insertId (wellFormed entry) (id entry)).1 then
        (tally.insertId (wellFormed entry) (id entry)).2.count (test entry)
      else (tally.insertId (wellFormed entry) (id entry)).2.count false)
    (hgood : ∀ entry, good entry ↔ wellFormed entry = true ∧ test entry = true) :
    Counts step id good where
  bad := by
    intro tally entry
    rw [hstep, hgood]
    split_ifs with hfresh
    · rw [count_bad, insertId_bad]
      rw [insertId_fst] at hfresh
      tauto
    · rw [count_bad, insertId_bad]
      rw [insertId_fst] at hfresh
      simp only [Bool.false_eq_true, and_false, false_iff]
      tauto
  ids := by
    intro tally entry hentry
    have hcount : ∀ (tally : Tally) (test : Bool), (tally.count test).ids = tally.ids := fun _ _ => rfl
    rw [hstep, ((hgood entry).mp hentry).1]
    split_ifs
    · rw [hcount, insertId_ids]
    · rw [hcount, insertId_ids]

theorem counts_citations (h : (packet.items.map StructuralPacketItem.nodeId).Nodup) :
    Counts (checkCitation packet response) (fun citation => citation.id) fun citation =>
      WellFormedCitation citation ∧
        NamesItem packet citation.nodeId citation.locator citation.contentDigest ∧
        ∃ claim ∈ response.claims, claim.id = citation.claimId := by
  refine counts_of_insertId
    (fun citation => validId citation.id && validId citation.claimId &&
      validField citation.nodeId && validField citation.locator && isDigest citation.contentDigest)
    (fun citation => names packet citation.nodeId citation.locator citation.contentDigest &&
      response.claims.any fun claim => claim.id == citation.claimId) (fun _ _ => rfl) fun citation => ?_
  rw [wellFormedCitation_iff, and_eq_true, names_iff h, any_eq_true]
  simp only [beq_iff_eq]

theorem counts_usages (h : (packet.items.map StructuralPacketItem.nodeId).Nodup) :
    Counts (checkUsage packet) (fun usage => usage.id) fun usage =>
      WellFormedUsage usage ∧
        NamesItem packet usage.nodeId usage.locator usage.contentDigest := by
  refine counts_of_insertId
    (fun usage => validId usage.id && !isBlank usage.support &&
      decide (byteLen usage.support ≤ maxText) && validField usage.nodeId &&
      validField usage.locator && isDigest usage.contentDigest)
    (fun usage => names packet usage.nodeId usage.locator usage.contentDigest) (fun _ _ => rfl)
    fun usage => ?_
  rw [wellFormedUsage_iff, names_iff h]

theorem uncited_of_insertId {wellFormed test : Bool} {id : Str} :
    (if (tally.insertId wellFormed id).1 then (tally.insertId wellFormed id).2.count test
      else (tally.insertId wellFormed id).2.count false).uncited = tally.uncited := by
  have hcount : ∀ (tally : Tally) (test : Bool), (tally.count test).uncited = tally.uncited :=
    fun _ _ => rfl
  split_ifs
  · rw [hcount, insertId_uncited]
  · rw [hcount, insertId_uncited]

theorem acknowledged_bad {given required : List Str} :
    (checkAcknowledged given required tally).bad = 0 ↔
      tally.bad = 0 ∧ Acknowledges given required := by
  have hbad : (checkAcknowledged given required tally).bad =
      (tally.count (decide given.Nodup && given.all validField)).bad +
        (required.filter fun value => decide (value ∉ given)).length := rfl
  rw [hbad, Nat.add_eq_zero_iff, count_bad, and_eq_true, decide_eq_true_eq,
    all_eq_true, length_eq_zero_iff, filter_eq_nil_iff]
  simp only [decide_eq_true_eq, not_not]
  constructor
  · intro h
    exact ⟨h.1.1, h.1.2.1, h.1.2.2, h.2⟩
  · intro h
    exact ⟨⟨h.1, h.2.distinct, h.2.fields⟩, h.2.complete⟩

theorem uncited_citations (citations : List ConnectedCitation) (tally : Tally) :
    (citations.foldl (checkCitation packet response) tally).uncited = tally.uncited := by
  refine foldl_uncited (fun tally citation => ?_) citations tally
  unfold checkCitation
  dsimp only
  rw [uncited_of_insertId]

theorem uncited_usages (usages : List ConnectedUsage) (tally : Tally) :
    (usages.foldl (checkUsage packet) tally).uncited = tally.uncited := by
  refine foldl_uncited (fun tally usage => ?_) usages tally
  unfold checkUsage
  dsimp only
  rw [uncited_of_insertId]

/-- `validate` accepts the grounded responses. -/
theorem validate_iff (h : (packet.items.map StructuralPacketItem.nodeId).Nodup) :
    (validate packet response).valid = true ↔ Grounded packet response := by
  have huncited : ∀ (given required : List Str) (tally : Tally),
      (checkAcknowledged given required tally).uncited = tally.uncited := fun _ _ _ => rfl
  rw [validate]
  dsimp only
  rw [and_eq_true, and_eq_true, decide_eq_true_eq, decide_eq_true_eq,
    not_eq_true', isEmpty_eq_false_iff, acknowledged_bad, acknowledged_bad,
    (counts_usages h).foldl_bad, (counts_citations h).foldl_bad, counts_claims.foldl_bad, huncited,
    huncited, uncited_usages, uncited_citations, uncited_claims]
  constructor
  · intro hall
    obtain ⟨⟨⟨⟨⟨⟨⟨hsizes, hclaims, hclaimIds, _⟩, hcitations, hcitationIds, hcitationNew⟩, husages,
      husageIds, husageNew⟩, hconflicts⟩, hmissing⟩, _, hcited⟩, hnonempty⟩ := hall
    refine ⟨?_, hnonempty, hclaims, hcited, fun citation hmem => (hcitations citation hmem).1,
      fun citation hmem => (hcitations citation hmem).2, fun usage hmem => (husages usage hmem).1,
      fun usage hmem => (husages usage hmem).2, ?_, hconflicts, hmissing⟩
    · by_contra hoversized
      rw [not_eq_false] at hoversized
      rw [if_pos hoversized] at hsizes
      cases hsizes
    · simp only [(counts_citations h).foldl_ids hcitations, counts_claims.foldl_ids hclaims] at husageNew
      simp only [counts_claims.foldl_ids hclaims] at hcitationNew
      rw [ConnectedResponse.ids, nodup_append', nodup_append']
      refine ⟨⟨hclaimIds, hcitationIds, fun id hclaim hcitation => ?_⟩, husageIds,
        fun id hid husage => ?_⟩
      · exact hcitationNew id hcitation (.inr hclaim)
      · rcases mem_append.mp hid with hclaim | hcitation
        · exact husageNew id husage (.inl (.inr hclaim))
        · exact husageNew id husage (.inr hcitation)
  · intro hgrounded
    obtain ⟨⟨hclaimIds, hcitationIds, hfirst⟩, husageIds, hsecond⟩ := by
      have hdistinct := hgrounded.distinct
      rw [ConnectedResponse.ids, nodup_append', nodup_append'] at hdistinct
      exact hdistinct
    have hcitations := fun citation hmem =>
      And.intro (hgrounded.citations citation hmem) (hgrounded.cites citation hmem)
    have husages := fun usage hmem =>
      And.intro (hgrounded.usages usage hmem) (hgrounded.uses usage hmem)
    refine ⟨⟨⟨⟨⟨⟨⟨?_, hgrounded.claims, hclaimIds, ?_⟩, hcitations, hcitationIds, ?_⟩, husages,
      husageIds, ?_⟩, hgrounded.conflicts⟩, hgrounded.missing⟩, rfl, hgrounded.cited⟩,
      hgrounded.nonempty⟩
    · rw [hgrounded.sizes]
      rfl
    · intro id _
      exact Finset.notMem_empty id
    · intro id hcitation hmem
      rw [counts_claims.foldl_ids hgrounded.claims] at hmem
      rcases hmem with hmem | hclaim
      · exact Finset.notMem_empty id hmem
      · exact hfirst hclaim hcitation
    · intro id husage hmem
      rw [(counts_citations h).foldl_ids hcitations, counts_claims.foldl_ids hgrounded.claims] at hmem
      rcases hmem with (hmem | hclaim) | hcitation
      · exact Finset.notMem_empty id hmem
      · exact hsecond (mem_append_left _ hclaim) husage
      · exact hsecond (mem_append_right _ hcitation) husage

/-! ## What a run returns -/

/-- What the text of a response relies on: the items of the packet have identities of their own,
without the separator of the fields. -/
structure Addressable (packet : StructuralPacket) : Prop where
  nodeIds : (packet.items.map StructuralPacketItem.nodeId).Nodup
  plain : ∀ item ∈ packet.items, '|' ∉ item.nodeId

section Calls

variable {S : Type} {adapter : SqzAdapter} {context : ContextPacket} {requested : ℕ}

/-- The receipt of a failure counts a call when there was a candidate or the port refused. -/
theorem sqzPortCalls_failed {identity : Option SqzIdentity} {latency : ℕ}
    {candidate : Option Candidate} {failure : SqzAdapter.Failure} :
    sqzPortCalls (SqzAdapter.receiptOf (adapter.failed context requested identity latency candidate
      failure)) = 1 ↔ candidate.isSome = true ∨ ∃ code, failure.reason = .portUnavailable code := by
  have hreceipt : SqzAdapter.receiptOf (adapter.failed context requested identity latency candidate
      failure) = adapter.failedReceipt context requested identity latency candidate failure := by
    rw [SqzAdapter.failed]
    split_ifs <;> rfl
  have hbytes : (adapter.failedReceipt context requested identity latency candidate
      failure).candidateCompressedBytes = candidate.map fun candidate => candidate.2.1 := rfl
  have hreason : (adapter.failedReceipt context requested identity latency candidate
      failure).failureReason = some failure.reason := rfl
  rw [hreceipt, sqzPortCalls, hbytes, hreason, Option.isSome_map]
  cases candidate with
  | some candidate => simp
  | none =>
      cases failure.reason with
      | portUnavailable code => simp
      | _ => simp

theorem sqzPortCalls_le_one (receipt : SqzReceipt) : sqzPortCalls receipt ≤ 1 := by
  rw [sqzPortCalls]
  split
  · exact le_rfl
  · split
    · exact le_rfl
    · exact Nat.zero_le 1

/-- The receipt counts the calls of the port, and an applied output holds every anchor. -/
theorem evaluate_counted (port : SqzPort S) (session : SqzSession S) :
    ∃ answers, (adapter.evaluate port context requested session).2.calls =
        session.calls ++ answers ∧
      answers.length =
        sqzPortCalls (SqzAdapter.receiptOf (adapter.evaluate port context requested session).1) ∧
      ∀ evaluation, (adapter.evaluate port context requested session).1 = .ok evaluation →
        evaluation.receipt.status = .applied → ∃ output,
          answers = [(context.payload, .ok output)] ∧
          evaluation.packet.payload = output.payload ∧
          ∀ anchor ∈ adapter.allAnchors context, anchor.value <:+: output.payload := by
  rcases SqzAdapter.evaluate_cases adapter port context requested session with
    ⟨outcome, hearly, hrun⟩ | ⟨hearly, answer, latency, after, hrun⟩
  · refine ⟨[], ?_, ?_, ?_⟩
    · rw [hrun, append_nil]
    · rw [hrun, length_nil]
      rcases SqzAdapter.early_cases hearly with ⟨failure, rfl, _, hreason⟩ | ⟨_, _, rfl⟩
      · have hnone := @sqzPortCalls_failed adapter context requested none 0 none failure
        have hle := sqzPortCalls_le_one (SqzAdapter.receiptOf (adapter.failed context requested
          none 0 none failure))
        have hne : sqzPortCalls (SqzAdapter.receiptOf (adapter.failed context requested none 0
            none failure)) ≠ 1 := by
          intro hone
          rcases hnone.mp hone with hsome | ⟨code, hcode⟩
          · cases hsome
          · exact hreason code hcode
        dsimp only
        omega
      · rfl
    · intro evaluation hok happlied
      rw [hrun] at hok
      rcases SqzAdapter.early_cases hearly with ⟨failure, rfl, _, _⟩ | ⟨_, _, rfl⟩
      · rw [SqzAdapter.failed] at hok
        split_ifs at hok
        cases hok
        cases happlied
      · cases hok
        cases happlied
  · refine ⟨[(context.payload, answer)], ?_, ?_, ?_⟩
    · rw [hrun]
    · rw [hrun, length_singleton]
      rcases SqzAdapter.judge_cases adapter context requested latency answer with
        ⟨identity, candidate, failure, hjudge, _, hreason⟩ |
          ⟨output, rfl, _, ⟨_, hjudge⟩ | ⟨_, hjudge⟩⟩
      · rw [hjudge]
        refine (sqzPortCalls_failed.mpr ?_).symm
        cases candidate with
        | none => exact .inr (hreason rfl)
        | some candidate => exact .inl rfl
      · rw [hjudge]
        rfl
      · rw [hjudge]
        rfl
    · intro evaluation hok happlied
      rw [hrun] at hok
      have hpromised := @SqzAdapter.promised_judge adapter context requested
        (SqzAdapter.screened_of_early hearly).2 latency answer
      obtain ⟨output, hanswer, hpacket, _, _, hanchors, _⟩ :=
        hpromised.applied evaluation hok happlied
      obtain rfl := Option.some.inj hanswer
      exact ⟨output, rfl, by rw [hpacket], hanchors⟩

end Calls

theorem groundedText_eq_ok {original : List UInt8} {text : Str} :
    groundedText original = .ok text ↔ fromUtf8 original = some text := by
  rw [groundedText]
  cases fromUtf8 original with
  | none => simp
  | some found => simp

theorem anchors_values {original : List UInt8} {found : List PreservationAnchor}
    (h : anchors packet response original = .ok found) :
    found.map PreservationAnchor.value = (anchorEntries packet response).map Prod.snd := by
  obtain ⟨text, _, hfound⟩ := bind_eq_ok_iff.mp h
  have hentry : ∀ {entry : Str × Str} {anchor : PreservationAnchor},
      pushAnchor text entry = .ok anchor → anchor.value = entry.2 := by
    intro entry anchor hpush
    rw [pushAnchor] at hpush
    split at hpush
    · cases hpush
    · rename_i made hmade
      split_ifs at hpush
      obtain rfl := Except.ok.inj hpush
      rw [PreservationAnchor.new] at hmade
      split_ifs at hmade
      cases hmade
      rfl
  clear h
  generalize anchorEntries packet response = entries at hfound
  induction entries generalizing found with
  | nil =>
      cases hfound
      rfl
  | cons entry rest ih =>
      rw [mapM_cons] at hfound
      obtain ⟨anchor, hanchor, hrest⟩ := bind_eq_ok_iff.mp hfound
      obtain ⟨tail, htail, hcons⟩ := bind_eq_ok_iff.mp hrest
      cases hcons
      rw [map_cons, map_cons, hentry hanchor, ih htail]

section Run

variable {C S : Type} (coordinator : ConnectedCoordinator)

/-- What a run that ends well has done and what it returns. -/
structure GroundedRun (packet : StructuralPacket) (query : Str) (before after : ConnectedSession C S)
    (outcome : ConnectedOutcome) : Prop where
  connected : after.connectedCalls =
    before.connectedCalls ++ [(⟨packet, query, .deniedAll⟩, .ok outcome.response)]
  accepted : outcome.grounding.status = .accepted ↔ Grounded packet outcome.response
  rejected : outcome.grounding.status = .rejected → after.sqz = before.sqz ∧ outcome.bytes = []
  original : outcome.originalBytes = canonical packet outcome.response
  digests : outcome.grounding.originalDigest = digest outcome.originalBytes ∧
    outcome.grounding.returnedDigest = digest outcome.bytes
  calls : outcome.grounding.connectedCalls = 1 ∧ ∃ answers,
    after.sqz.calls = before.sqz.calls ++ answers ∧ answers.length = outcome.grounding.sqzCalls
  returned : outcome.grounding.status = .accepted → outcome.bytes = outcome.originalBytes ∨
    ∃ input output, after.sqz.calls = before.sqz.calls ++ [(input, .ok output)] ∧
      bytes input = outcome.originalBytes ∧ outcome.bytes = bytes output.payload ∧
      (∀ anchor ∈ coordinator.sqz.config.fidelityAnchors, anchor.value <:+: output.payload) ∧
      ∀ entry ∈ anchorEntries packet outcome.response, entry.2 <:+: output.payload

variable {coordinator} {connected : ConnectedPort C} {port : SqzPort S}
  {requestDebug : ConnectedRequest → Str} {query : Str} {before after : ConnectedSession C S}
  {outcome : ConnectedOutcome}

/-- The parts of a run that ends well. -/
theorem run_cases (h : coordinator.run connected port requestDebug packet query before =
    (.ok outcome, after)) :
    ∃ response middle,
      middle.connectedCalls =
        before.connectedCalls ++ [(⟨packet, query, .deniedAll⟩, .ok response)] ∧
      middle.sqz = before.sqz ∧
      (((validate packet response).valid = false ∧ after = middle ∧
        outcome = rejectedOutcome requestDebug ⟨packet, query, .deniedAll⟩
          response) ∨
      ((validate packet response).valid = true ∧ ∃ found payload,
        anchors packet response (canonical packet response) = .ok found ∧
        groundedText (canonical packet response) = .ok payload ∧
        after = { middle with sqz := (coordinator.sqz.evaluateWithAnchors port
          (sqzPacket payload) coordinator.maxOutputBytes found
          middle.sqz).2 } ∧
        outcome = acceptedOutcome requestDebug ⟨packet, query, .deniedAll⟩
          response (coordinator.sqz.evaluateWithAnchors port
            (sqzPacket payload) coordinator.maxOutputBytes found
            middle.sqz).1)) := by
  obtain ⟨_, started, hquery, hrest⟩ := bind_eq_ok.mp h
  obtain ⟨_, rfl⟩ := ofExcept_eq_ok.mp hquery
  obtain ⟨response, middle, hsynthesize, hrest⟩ := bind_eq_ok.mp hrest
  have hanswer := congrArg Prod.fst hsynthesize
  have hmiddle := congrArg Prod.snd hsynthesize
  dsimp only [synthesize, attempt] at hanswer hmiddle
  refine ⟨response, middle, ?_, ?_, ?_⟩
  · rw [← hmiddle, hanswer]
  · rw [← hmiddle]
  · by_cases hvalid : (validate packet response).valid = false
    · rw [if_pos hvalid, pure_apply] at hrest
      cases hrest
      exact .inl ⟨hvalid, rfl, rfl⟩
    · rw [if_neg hvalid, deliver] at hrest
      obtain ⟨found, state, hanchors, hrest⟩ := bind_eq_ok.mp hrest
      obtain ⟨hfound, rfl⟩ := ofExcept_eq_ok.mp hanchors
      obtain ⟨payload, state, htext, hrest⟩ := bind_eq_ok.mp hrest
      obtain ⟨hpayload, rfl⟩ := ofExcept_eq_ok.mp htext
      obtain ⟨evaluated, state, hevaluated, hrest⟩ := bind_eq_ok.mp hrest
      rw [evaluateSqz, Exchange.step, Prod.mk.injEq, Except.ok.injEq]
        at hevaluated
      rw [pure_apply, Prod.mk.injEq, Except.ok.injEq] at hrest
      rw [not_eq_false] at hvalid
      obtain ⟨rfl, rfl⟩ := hevaluated
      obtain ⟨rfl, rfl⟩ := hrest
      exact .inr ⟨hvalid, found, payload, hfound, hpayload, rfl, rfl⟩

/-- What a rejected outcome says. -/
theorem rejectedOutcome_spec {request : ConnectedRequest} {response : ConnectedResponse}
    (hinvalid : (validate request.packet response).valid = false) :
    (rejectedOutcome requestDebug request response).response = response ∧
      (rejectedOutcome requestDebug request response).bytes = [] ∧
      (rejectedOutcome requestDebug request response).originalBytes =
        canonical request.packet response ∧
      (rejectedOutcome requestDebug request
        response).grounding.status = .rejected ∧
      (rejectedOutcome requestDebug request
        response).grounding.originalDigest = digest (canonical request.packet response) ∧
      (rejectedOutcome requestDebug request
        response).grounding.returnedDigest = digest [] ∧
      (rejectedOutcome requestDebug request
        response).grounding.connectedCalls = 1 ∧
      (rejectedOutcome requestDebug request
        response).grounding.sqzCalls = 0 := by
  have hstatus : (groundingReceipt requestDebug request response).status =
      .rejected := by
    unfold groundingReceipt
    dsimp only
    rw [hinvalid]
    rfl
  unfold rejectedOutcome
  dsimp only
  exact ⟨rfl, rfl, rfl, hstatus, rfl, rfl, rfl, rfl⟩

/-- What an accepted outcome says whatever the adapter returned. -/
theorem acceptedOutcome_spec {request : ConnectedRequest} {response : ConnectedResponse}
    (hvalid : (validate request.packet response).valid = true)
    (evaluated : Except SqzError SqzEvaluation) :
    (acceptedOutcome requestDebug request response evaluated).response =
        response ∧
      (acceptedOutcome requestDebug request response
        evaluated).originalBytes = canonical request.packet response ∧
      (acceptedOutcome requestDebug request response
        evaluated).grounding.status = .accepted ∧
      (acceptedOutcome requestDebug request response
        evaluated).grounding.originalDigest = digest (canonical request.packet response) ∧
      (acceptedOutcome requestDebug request response
        evaluated).grounding.returnedDigest = digest
          (acceptedOutcome requestDebug request response evaluated).bytes ∧
      (acceptedOutcome requestDebug request response
        evaluated).grounding.connectedCalls = 1 ∧
      (acceptedOutcome requestDebug request response
        evaluated).grounding.sqzCalls = sqzPortCalls (SqzAdapter.receiptOf evaluated) := by
  have hstatus : (groundingReceipt requestDebug request response).status =
      .accepted := if_pos hvalid
  unfold acceptedOutcome
  cases evaluated with
  | error error | ok evaluation =>
      dsimp only
      exact ⟨rfl, rfl, hstatus, rfl, rfl, rfl, rfl⟩

/-- An accepted outcome returns the original or an applied output. -/
theorem acceptedOutcome_bytes (request : ConnectedRequest) (response : ConnectedResponse)
    (evaluated : Except SqzError SqzEvaluation) :
    (acceptedOutcome requestDebug request response evaluated).bytes =
        canonical request.packet response ∨
      ∃ evaluation, evaluated = .ok evaluation ∧ evaluation.receipt.status = .applied ∧
        (acceptedOutcome requestDebug request response evaluated).bytes =
          bytes evaluation.packet.payload := by
  unfold acceptedOutcome
  cases evaluated with
  | error error =>
      dsimp only
      exact .inl rfl
  | ok evaluation =>
      dsimp only
      by_cases happlied : evaluation.receipt.status = .applied
      · exact .inr ⟨evaluation, rfl, happlied, if_pos happlied⟩
      · exact .inl (if_neg happlied)

theorem groundedRun (haddressable : Addressable packet)
    (h : coordinator.run connected port requestDebug packet query before = (.ok outcome, after)) :
    GroundedRun coordinator packet query before after outcome := by
  obtain ⟨response, middle, hconnected, hsqz, ⟨hinvalid, rfl, rfl⟩ |
    ⟨hvalid, found, payload, hfound, hpayload, rfl, rfl⟩⟩ := run_cases h
  · obtain ⟨hresponse, hbytes, horiginal, hstatus, hfirst, hsecond, hone, hnone⟩ :=
      @rejectedOutcome_spec requestDebug ⟨packet, query, .deniedAll⟩ response hinvalid
    refine ⟨?_, ?_, fun _ => ⟨hsqz, hbytes⟩, ?_, ⟨?_, ?_⟩, ⟨hone, [], ?_, hnone.symm⟩, ?_⟩
    · rw [hresponse]
      exact hconnected
    · rw [hstatus, hresponse, ← validate_iff haddressable.nodeIds, hinvalid]
      constructor
      · intro haccepted
        cases haccepted
      · intro haccepted
        cases haccepted
    · rw [horiginal, hresponse]
    · rw [hfirst, horiginal]
    · rw [hsecond, hbytes]
    · rw [hsqz, append_nil]
    · intro haccepted
      rw [hstatus] at haccepted
      cases haccepted
  · -- the adapter works on the text of the response, with the anchors next to its own
    have htext := fromUtf8_eq_some_iff.mp (groundedText_eq_ok.mp hpayload)
    obtain ⟨answers, hcalls, hcount, happlied⟩ := @evaluate_counted S
      ⟨{ coordinator.sqz.config with
        fidelityAnchors := coordinator.sqz.config.fidelityAnchors ++ found }⟩
      (sqzPacket payload) coordinator.maxOutputBytes port middle.sqz
    rw [hsqz] at hcalls
    have hevaluated : coordinator.sqz.evaluateWithAnchors port
        (sqzPacket payload) coordinator.maxOutputBytes found middle.sqz =
          SqzAdapter.evaluate ⟨{ coordinator.sqz.config with
            fidelityAnchors := coordinator.sqz.config.fidelityAnchors ++ found }⟩ port
            (sqzPacket payload) coordinator.maxOutputBytes middle.sqz := rfl
    rw [hevaluated, hsqz]
    rw [hsqz] at hcount happlied
    generalize SqzAdapter.evaluate _ port (sqzPacket payload)
      coordinator.maxOutputBytes before.sqz = evaluated at *
    obtain ⟨evaluated, session⟩ := evaluated
    obtain ⟨hresponse, horiginal, hstatus, hfirst, hsecond, hone, hsqzCalls⟩ :=
      @acceptedOutcome_spec requestDebug ⟨packet, query, .deniedAll⟩ response hvalid evaluated
    refine ⟨?_, ?_, ?_, ?_, ⟨?_, hsecond⟩, ⟨hone, answers, hcalls, ?_⟩, fun _ => ?_⟩
    · rw [hresponse]
      exact hconnected
    · rw [hstatus, hresponse, ← validate_iff haddressable.nodeIds, hvalid]
      exact iff_of_true rfl rfl
    · intro hrejected
      rw [hstatus] at hrejected
      cases hrejected
    · rw [horiginal, hresponse]
    · rw [hfirst, horiginal]
    · rw [hsqzCalls]
      exact hcount
    · rw [horiginal, hresponse]
      rcases acceptedOutcome_bytes ⟨packet, query, .deniedAll⟩ response evaluated with
        hbytes | ⟨evaluation, hok, hstatus, hbytes⟩
      · exact .inl hbytes
      · obtain ⟨output, rfl, houtput, hvalues⟩ := happlied evaluation hok hstatus
        refine .inr ⟨_, output, hcalls, htext, by rw [hbytes, houtput], ?_, ?_⟩
        · intro anchor hanchor
          exact hvalues anchor (mem_append_left _ (mem_append_left _ hanchor))
        · intro entry hentry
          have hvalue : entry.2 ∈ found.map PreservationAnchor.value := by
            rw [anchors_values hfound]
            exact mem_map_of_mem hentry
          obtain ⟨anchor, hanchor, heq⟩ := mem_map.mp hvalue
          rw [← heq]
          exact hvalues anchor (mem_append_left _ (mem_append_right _ hanchor))

end Run

end Bran.Adapters
