import Bran.Database.Evidence

/-!
# Extraction is bounded and leaks nothing

What holds of an extraction for every engine and every course of the flags.  The rows that the
callback keeps are those that fit at the moment they arrive; they are a prefix of what was
streamed unless the engine goes on after a row that did not fit with one that does.
-/

namespace Bran.Database.Evidence

open Packet List Exchange

/-! ## Rows that fit -/

/-- Rows that the limits admit together. -/
def Within (limits : EvidenceLimits) (rows : List (List Cell)) : Prop :=
  rows.length ≤ limits.maxRows ∧ (rows.map rowSize).sum ≤ limits.maxBytes

instance (limits : EvidenceLimits) (rows : List (List Cell)) : Decidable (Within limits rows) :=
  inferInstanceAs (Decidable (_ ∧ _))

/-- A row kept when it fits behind the rows kept so far. -/
def keepRow (limits : EvidenceLimits) (kept : List (List Cell)) (row : List Cell) :
    List (List Cell) :=
  if Within limits (kept ++ [row]) then kept ++ [row] else kept

def keptRows (limits : EvidenceLimits) (streamed : List (List Cell)) : List (List Cell) :=
  streamed.foldl (keepRow limits) []

/-- The stream has a part that fits, and no row behind it would fit after that part. -/
def BoundedPrefix (limits : EvidenceLimits) (streamed : List (List Cell)) : Prop :=
  ∃ kept rest, streamed = kept ++ rest ∧ Within limits kept ∧
    ∀ row ∈ rest, ¬ Within limits (kept ++ [row])

section Rows

variable {limits : EvidenceLimits}

theorem within_nil : Within limits [] := ⟨Nat.zero_le _, Nat.zero_le _⟩

theorem Within.of_append {first second : List (List Cell)}
    (h : Within limits (first ++ second)) : Within limits first := by
  obtain ⟨hcount, hbytes⟩ := h
  rw [length_append] at hcount
  rw [map_append, sum_append] at hbytes
  exact ⟨by omega, by omega⟩

theorem within_keepRow {kept : List (List Cell)} (h : Within limits kept) (row : List Cell) :
    Within limits (keepRow limits kept row) := by
  unfold keepRow
  split
  · assumption
  · exact h

theorem within_foldl {kept : List (List Cell)} (h : Within limits kept)
    (rows : List (List Cell)) : Within limits (rows.foldl (keepRow limits) kept) := by
  induction rows generalizing kept with
  | nil => exact h
  | cons row rest ih => exact ih (within_keepRow h row)

theorem keptRows_concat (streamed : List (List Cell)) (row : List Cell) :
    keptRows limits (streamed ++ [row]) = keepRow limits (keptRows limits streamed) row := by
  rw [keptRows, foldl_append]
  rfl

theorem length_keptRows_le (streamed : List (List Cell)) :
    (keptRows limits streamed).length ≤ streamed.length := by
  induction streamed using List.reverseRecOn with
  | nil => exact le_rfl
  | append_singleton streamed row ih =>
      rw [keptRows_concat, keepRow, length_append]
      split
      · rw [length_append]
        omega
      · omega

/-- Rows that all fit are kept as they are. -/
theorem foldl_of_within {kept rows : List (List Cell)} (h : Within limits (kept ++ rows)) :
    rows.foldl (keepRow limits) kept = kept ++ rows := by
  induction rows generalizing kept with
  | nil => rw [foldl_nil, append_nil]
  | cons row rest ih =>
      rw [append_cons] at h
      rw [foldl_cons, keepRow, if_pos h.of_append, ih h, append_assoc,
        singleton_append]

theorem foldl_of_refused {kept rows : List (List Cell)}
    (h : ∀ row ∈ rows, ¬ Within limits (kept ++ [row])) :
    rows.foldl (keepRow limits) kept = kept := by
  induction rows with
  | nil => rfl
  | cons row rest ih =>
      rw [foldl_cons, keepRow, if_neg (h row (by simp))]
      exact ih fun other hother => h other (mem_cons_of_mem _ hother)

theorem exists_foldl_eq (kept rows : List (List Cell)) :
    ∃ more, rows.foldl (keepRow limits) kept = kept ++ more := by
  induction rows generalizing kept with
  | nil => exact ⟨[], (append_nil kept).symm⟩
  | cons row rest ih =>
      rw [foldl_cons, keepRow]
      split
      · obtain ⟨more, hmore⟩ := ih (kept ++ [row])
        exact ⟨row :: more, by rw [hmore, append_assoc, singleton_append]⟩
      · exact ih kept

/-- When the kept rows begin the stream, nothing behind them fits any more. -/
theorem refused_of_kept {kept pre rest : List (List Cell)} (hkept : Within limits kept)
    (h : (pre ++ rest).foldl (keepRow limits) kept = kept ++ pre) :
    ∀ row ∈ rest, ¬ Within limits (kept ++ pre ++ [row]) := by
  induction pre generalizing kept with
  | nil =>
      rw [nil_append, append_nil] at h
      rw [append_nil]
      induction rest with
      | nil => intro row hrow; cases hrow
      | cons row rest ih =>
          rw [foldl_cons] at h
          by_cases hfits : Within limits (kept ++ [row])
          · -- a kept row would make the result longer
            rw [keepRow, if_pos hfits] at h
            obtain ⟨more, hmore⟩ := @exists_foldl_eq limits (kept ++ [row]) rest
            rw [hmore] at h
            have hlength := congrArg List.length h
            simp only [length_append, length_cons, length_nil] at hlength
            omega
          · rw [keepRow, if_neg hfits] at h
            intro other hother
            rcases mem_cons.mp hother with rfl | hother
            · exact hfits
            · exact ih h other hother
  | cons row pre ih =>
      rw [cons_append, foldl_cons] at h
      have hfits : Within limits (kept ++ [row]) := by
        have hall := within_foldl (within_keepRow hkept row) (pre ++ rest)
        rw [h, append_cons] at hall
        exact hall.of_append
      rw [keepRow, if_pos hfits] at h
      rw [append_cons] at h ⊢
      exact ih hfits (by simpa using h)

/-- The kept rows begin the stream exactly when it has a bounded prefix of this kind. -/
theorem keptRows_prefix_iff {streamed : List (List Cell)} :
    keptRows limits streamed <+: streamed ↔ BoundedPrefix limits streamed := by
  constructor
  · intro h
    obtain ⟨rest, hrest⟩ := h
    refine ⟨keptRows limits streamed, rest, hrest.symm, within_foldl within_nil streamed, ?_⟩
    have hfold : (keptRows limits streamed ++ rest).foldl (keepRow limits) [] =
        [] ++ keptRows limits streamed := by
      rw [hrest]
      rfl
    exact refused_of_kept within_nil hfold
  · intro h
    obtain ⟨kept, rest, rfl, hwithin, hrefused⟩ := h
    have hkept : kept.foldl (keepRow limits) [] = kept := foldl_of_within hwithin
    rw [keptRows, foldl_append, hkept, foldl_of_refused hrefused]
    exact prefix_append kept rest

end Rows

/-! ## The callback -/

/-- An outcome that ends a collection early: it is refused, and not for its content. -/
def Interim (outcome : EvidenceOutcome) : Prop :=
  outcome.admitted = false ∧ outcome ≠ .dlpRejected

theorem interrupted_refused {flags : Flags} {now : ℕ} {outcome : EvidenceOutcome}
    (h : flags.interrupted now = some outcome) : Interim outcome := by
  unfold Flags.interrupted at h
  split at h
  · cases h
    exact ⟨rfl, by simp⟩
  · split at h
    · cases h
      exact ⟨rfl, by simp⟩
    · cases h

/-- What the callback remembers of the rows streamed so far, as long as it was not stopped. -/
structure Remembers (limits : EvidenceLimits) (streamed : List (List Cell)) (sink : Sink) :
    Prop where
  bytes : sink.bytes = (sink.rows.map rowSize).sum
  rows : sink.stopped = none → sink.rows = keptRows limits streamed
  truncated : sink.stopped = none →
    (sink.truncated = true ↔ sink.rows.length < streamed.length)
  within : Within limits sink.rows

theorem Remembers.accept {limits : EvidenceLimits} {streamed : List (List Cell)} {sink : Sink}
    (h : Remembers limits streamed sink) (flags : Flags) (now : ℕ) (row : List Cell) :
    Remembers limits (streamed ++ [row]) (sink.accept flags limits now row).2 := by
  obtain ⟨hbytes, hrows, htruncated, hwithin⟩ := h
  unfold Sink.accept
  cases hpoll : flags.interrupted now with
  | some outcome => exact ⟨hbytes, fun h => (nomatch h), fun h => (nomatch h), hwithin⟩
  | none =>
      have hfull : (sink.rows.length = limits.maxRows ∨
          sink.bytes + rowSize row > limits.maxBytes) ↔ ¬ Within limits (sink.rows ++ [row]) := by
        obtain ⟨hcount, _⟩ := hwithin
        rw [Within, length_append, map_append, sum_append, ← hbytes,
          length_singleton, map_singleton, sum_singleton]
        omega
      have hstep (hstopped : sink.stopped = none) : keptRows limits (streamed ++ [row]) =
          keepRow limits sink.rows row := by
        rw [keptRows_concat, hrows hstopped]
      dsimp only
      split
      · rename_i hrefused
        have hnot := hfull.mp hrefused
        refine ⟨hbytes, ?_, ?_, hwithin⟩
        · intro hstopped
          rw [hstep hstopped, keepRow, if_neg hnot]
        · intro hstopped
          have hlength := @length_keptRows_le limits streamed
          rw [← hrows hstopped] at hlength
          have hless : sink.rows.length < (streamed ++ [row]).length := by
            rw [length_append, length_singleton]
            omega
          exact ⟨fun _ => hless, fun _ => rfl⟩
      · rename_i haccepted
        have hfits : Within limits (sink.rows ++ [row]) := not_not.mp fun hnot =>
          haccepted (hfull.mpr hnot)
        refine ⟨?_, ?_, ?_, hfits⟩
        · rw [map_append, sum_append, ← hbytes, map_singleton, sum_singleton]
        · intro hstopped
          rw [hstep hstopped, keepRow, if_pos hfits]
        · intro hstopped
          rw [htruncated hstopped, length_append, length_append, length_singleton]
          omega

theorem Remembers.drain {σ : Type} {limits : EvidenceLimits} {flags : Flags}
    {stream : RowStream σ} {now : ℕ} {sink : Sink} {streamed : List (List Cell)}
    (h : Remembers limits streamed sink) :
    Remembers limits (drain flags limits stream now sink streamed).streamed
      (drain flags limits stream now sink streamed).sink := by
  induction stream generalizing now sink streamed with
  | done result elapsed state => exact h
  | emit elapsed row next ih =>
      rw [Evidence.drain]
      exact ih _ (h.accept flags (now + elapsed) row)

/-- What has stopped the callback, if anything has, is an interruption. -/
theorem interim_drain {σ : Type} {limits : EvidenceLimits} {flags : Flags}
    {stream : RowStream σ} {now : ℕ} {sink : Sink} {streamed : List (List Cell)}
    (h : ∀ outcome, sink.stopped = some outcome → Interim outcome) :
    ∀ outcome, (drain flags limits stream now sink streamed).sink.stopped = some outcome →
      Interim outcome := by
  induction stream generalizing now sink streamed with
  | done result elapsed state => exact h
  | emit elapsed row next ih =>
      rw [Evidence.drain]
      apply ih
      intro outcome houtcome
      unfold Sink.accept at houtcome
      cases hpoll : flags.interrupted (now + elapsed) with
      | some found =>
          rw [hpoll] at houtcome
          cases houtcome
          exact interrupted_refused hpoll
      | none =>
          rw [hpoll] at houtcome
          dsimp only at houtcome
          split at houtcome
          · exact h outcome houtcome
          · exact h outcome houtcome

/-! ## Collecting -/

section Collect

variable {σ : Type} {engine : EvidenceEngine σ} {flags : Flags} {request : ExtractionRequest}

theorem failure_refused (error : EngineFailure) : Interim (failure error) := by
  cases error <;> exact ⟨rfl, by simp [failure]⟩

/-- Every early return of `collect` is refused. -/
abbrev Refusing {α : Type} (program : Collecting σ α) : Prop :=
  program.FailsWith Interim

theorem refusing_poll : Refusing (poll flags : Collecting σ Unit) := by
  intro before outcome after h
  unfold poll at h
  cases hpoll : flags.interrupted before.now with
  | none =>
      rw [hpoll] at h
      cases h
  | some found =>
      rw [hpoll] at h
      cases h
      exact interrupted_refused hpoll

theorem refusing_callEngine {α : Type} (call : σ → Reply σ α)
    (record : α → Progress σ → Progress σ) : Refusing (callEngine call record) := by
  intro before outcome after h
  unfold callEngine at h
  dsimp only at h
  split at h
  · cases h
  · cases h
    exact failure_refused _

theorem refusing_callSnapshot : Refusing (callSnapshot engine) :=
  (refusing_callEngine _ _).bind fun _ => failsWith_pure _

theorem refusing_keep (change : Run → Run) : Refusing (keep change : Collecting σ Unit) :=
  failsWith_step _

theorem refusing_checkPinned (pinned observed : Option Str) :
    Refusing (checkPinned pinned observed : Collecting σ Unit) := by
  unfold checkPinned
  split
  · exact failsWith_fail ⟨rfl, by simp⟩
  · exact failsWith_pure _

theorem rowsOutcome_refused {drained : Drained σ}
    (hstopped : ∀ outcome, drained.sink.stopped = some outcome → Interim outcome)
    (h : (rowsOutcome flags drained).admitted = false) : Interim (rowsOutcome flags drained) := by
  refine ⟨h, ?_⟩
  unfold rowsOutcome
  cases hfound : drained.sink.stopped.or (flags.interrupted drained.returned) with
  | some outcome =>
      rcases Option.or_eq_some_iff.mp hfound with hsink | ⟨-, hpoll⟩
      · exact (hstopped outcome hsink).2
      · exact (interrupted_refused hpoll).2
  | none =>
      cases drained.result with
      | error error => exact (failure_refused error).2
      | ok _ =>
          dsimp only
          split
          · simp
          · simp

theorem refusing_collectRows (limits : EvidenceLimits) (query : GatedQuery) :
    Refusing (collectRows engine flags limits query) := by
  intro before outcome after h
  unfold collectRows at h
  dsimp only at h
  split at h
  · cases h
  · rename_i hrefused
    cases h
    exact rowsOutcome_refused (interim_drain (by intro _ hnone; cases hnone)) (by simpa using hrefused)

theorem refusing_collect (query : Option GatedQuery) :
    Refusing (collect engine flags request query) := by
  apply refusing_poll.bind
  intro _
  apply refusing_callSnapshot.bind
  intro first
  apply (refusing_keep _).bind
  intro _
  apply refusing_poll.bind
  intro _
  apply (refusing_checkPinned _ _).bind
  intro _
  apply (refusing_callEngine _ _).bind
  intro catalog
  apply (refusing_keep _).bind
  intro _
  apply refusing_poll.bind
  intro _
  apply (refusing_keep _).bind
  intro _
  apply FailsWith.bind
  · cases query with
    | none => exact failsWith_pure _
    | some query => exact refusing_collectRows _ query
  · intro outcome
    apply refusing_callSnapshot.bind
    intro last
    apply refusing_poll.bind
    intro _
    split
    · exact failsWith_pure _
    · exact failsWith_fail ⟨rfl, by simp⟩

variable {after before : Progress σ} {outcome : EvidenceOutcome}

theorem poll_eq_ok {answer : Unit} (h : poll flags before = (.ok answer, after)) :
    flags.interrupted before.now = none ∧ after = { before with now := before.now + 2 } := by
  unfold poll at h
  cases hpoll : flags.interrupted before.now with
  | none =>
      rw [hpoll] at h
      cases h
      exact ⟨rfl, rfl⟩
  | some found =>
      rw [hpoll] at h
      cases h

/-- A call that answers returns at the instant that is logged. -/
theorem callEngine_eq_ok {α : Type} {call : σ → Reply σ α} {record : α → Progress σ → Progress σ}
    {answer : α} (h : callEngine call record before = (.ok answer, after)) :
    ∃ state returned, after = record answer { before with
      engine := state
      now := returned
      log := { before.log with calls := before.log.calls + 1, returned := returned } } := by
  unfold callEngine at h
  dsimp only at h
  split at h
  · cases h
    exact ⟨_, _, rfl⟩
  · cases h

theorem callSnapshot_eq_ok {snapshot : Option Str}
    (h : callSnapshot engine before = (.ok snapshot, after)) :
    ∃ raw, snapshot = raw.map sealedSnapshot ∧
      after.log.snapshots = before.log.snapshots ++ [raw] ∧ after.now = after.log.returned ∧
      after.run = before.run ∧ after.log.streamed = before.log.streamed := by
  obtain ⟨raw, middle, hcall, hpure⟩ := bind_eq_ok.mp h
  cases hpure
  obtain ⟨state, returned, rfl⟩ := callEngine_eq_ok hcall
  exact ⟨raw, rfl, rfl, rfl, rfl, rfl⟩

/-- What the rows of an admitted collection are. -/
structure Collected (limits : EvidenceLimits) (run : Run) (streamed : List (List Cell)) :
    Prop where
  rows : run.rows = keptRows limits streamed
  truncated : run.truncated = true ↔ run.rows.length < streamed.length
  within : Within limits run.rows

/-- An admitted row stream was not stopped. -/
theorem stopped_of_admitted {drained : Drained σ}
    (hstopped : ∀ outcome, drained.sink.stopped = some outcome → Interim outcome)
    (h : (rowsOutcome flags drained).admitted = true) : drained.sink.stopped = none := by
  by_contra hsome
  obtain ⟨found, hfound⟩ := Option.ne_none_iff_exists'.mp hsome
  rw [rowsOutcome, hfound, Option.some_or] at h
  rw [(hstopped found hfound).1] at h
  cases h

theorem collectRows_eq_ok {limits : EvidenceLimits} {query : GatedQuery}
    (hrows : before.run.rows = []) (htruncated : before.run.truncated = false)
    (h : collectRows engine flags limits query before = (.ok outcome, after)) :
    outcome.admitted = true ∧ Collected limits after.run after.log.streamed ∧
      after.run.catalog = before.run.catalog ∧ after.run.snapshot = before.run.snapshot ∧
      after.log.snapshots = before.log.snapshots := by
  have hremembers : Remembers limits [] ⟨before.run.rows, before.run.truncated, none, 0⟩ := by
    rw [hrows, htruncated]
    exact ⟨rfl, fun _ => rfl, fun _ => by simp, within_nil⟩
  unfold collectRows at h
  dsimp only at h
  split at h
  · rename_i hadmitted
    cases h
    have hdrained := @Remembers.drain σ limits flags (engine.rows before.engine query) before.now
      _ _ hremembers
    have hstopped := stopped_of_admitted (interim_drain (by intro _ hnone; cases hnone)) hadmitted
    exact ⟨hadmitted, ⟨hdrained.rows hstopped, hdrained.truncated hstopped, hdrained.within⟩,
      rfl, rfl, rfl⟩
  · cases h

theorem collectOutcome_eq_ok {limits : EvidenceLimits} {query : Option GatedQuery}
    (hrows : before.run.rows = []) (htruncated : before.run.truncated = false)
    (hstreamed : before.log.streamed = [])
    (h : collectOutcome engine flags limits query before = (.ok outcome, after)) :
    outcome.admitted = true ∧ Collected limits after.run after.log.streamed ∧
      after.run.catalog = before.run.catalog ∧ after.run.snapshot = before.run.snapshot ∧
      after.log.snapshots = before.log.snapshots := by
  cases query with
  | none =>
      cases h
      refine ⟨rfl, ⟨?_, ?_, ?_⟩, rfl, rfl, rfl⟩
      · rw [hrows, hstreamed]
        rfl
      · rw [hrows, htruncated, hstreamed]
        simp
      · rw [hrows]
        exact within_nil
  | some query => exact collectRows_eq_ok hrows htruncated h

/-- No flag has been raised at a poll that lets the collection go on, nor before it. -/
theorem unflagged_of_poll {now : ℕ} (h : flags.interrupted now = none) :
    ∀ instant ≤ now, flags.cancelled instant = false ∧ flags.expired instant = false := by
  intro instant hle
  unfold Flags.interrupted at h
  split at h
  · cases h
  · rename_i hcancelled
    split at h
    · cases h
    · rename_i hexpired
      constructor
      · by_contra hraised
        exact hcancelled (flags.cancelled_stays hle (by simpa using hraised))
      · by_contra hraised
        exact hexpired (flags.expired_stays (show instant ≤ now + 1 by omega) (by simpa using hraised))

/-- What an admitted collection has done. -/
theorem collect_eq_ok {query : Option GatedQuery} (hrows : before.run.rows = [])
    (htruncated : before.run.truncated = false) (hstreamed : before.log.streamed = [])
    (hsnapshots : before.log.snapshots = [])
    (h : collect engine flags request query before = (.ok outcome, after)) :
    outcome.admitted = true ∧ Collected request.source.limits after.run after.log.streamed ∧
      flags.interrupted after.log.returned = none ∧
      ∃ first last, after.log.snapshots = [first, last] ∧
        first.map sealedSnapshot = last.map sealedSnapshot ∧
        ∀ pinned, request.source.snapshot = some pinned →
          first.map sealedSnapshot = some pinned := by
  simp only [collect, bind_eq_ok] at h
  obtain ⟨_, polled, hpoll, sealed, seen, hfirst, _, kept, hkeep, _, admitted, hpollFirst, _,
    checked, hpinned, catalog, listed, hcatalog, _, noted, hnoted, _, screened, hpollCatalog, _,
    sorted, hsorted, outcome', drained, houtcome, sealed', closed, hlast, _, ended, hpollLast,
    hend⟩ := h
  obtain ⟨-, rfl⟩ := poll_eq_ok hpoll
  obtain ⟨first, hsealed, hlog, -, hrun, hlogStreamed⟩ := callSnapshot_eq_ok hfirst
  cases hkeep
  obtain ⟨-, rfl⟩ := poll_eq_ok hpollFirst
  unfold checkPinned at hpinned
  split at hpinned
  · cases hpinned
  · rename_i hagrees
    cases hpinned
    obtain ⟨state, returned, rfl⟩ := callEngine_eq_ok hcatalog
    cases hnoted
    obtain ⟨-, rfl⟩ := poll_eq_ok hpollCatalog
    cases hsorted
    obtain ⟨hadmitted, hcollected, -, -, hdrained⟩ := collectOutcome_eq_ok (by simp [hrun, hrows])
      (by simp [hrun, htruncated]) (by simp [hlogStreamed, hstreamed]) houtcome
    obtain ⟨last, hsealed', hlog', hnow, hrun', hstreamed'⟩ := callSnapshot_eq_ok hlast
    obtain ⟨hquiet, rfl⟩ := poll_eq_ok hpollLast
    split at hend
    · rename_i hsame
      cases hend
      refine ⟨hadmitted, ?_, ?_, first, last, ?_, ?_, ?_⟩
      · dsimp only
        rwa [hrun', hstreamed']
      · rwa [← hnow]
      · dsimp only
        rw [hlog', hdrained]
        dsimp only
        rw [hlog, hsnapshots]
        rfl
      · rw [← hsealed, ← hsealed', hsame]
      · intro pinned hpin
        rw [hpin, not_and_or, not_not] at hagrees
        rcases hagrees with hnone | heq
        · exact absurd rfl hnone
        · rw [← hsealed, heq]
    · cases hend

end Collect

/-! ## Extraction -/

/-- Why policy refuses a request. -/
def Refused (request : ExtractionRequest) : Prop :=
  ∃ rows, request.rows = some rows ∧
    (request.source.access = .introspection ∨
      (∃ relation columns rejection, rows = .projection relation columns ∧
        project relation columns request.source.relations = .error rejection) ∨
      (∃ sql rejection, rows = .sql sql ∧ gate sql request.source.relations = .error rejection) ∨
      ∃ sql query, rows = .sql sql ∧ gate sql request.source.relations = .ok query ∧
        query.digest ∉ request.source.queries)

/-- What admitted evidence promises of the run that led to it. -/
structure Admitted {σ : Type} (request : ExtractionRequest) (flags : Flags)
    (evidence : DatabaseEvidence) (after : Progress σ) : Prop where
  unflagged : ∀ instant ≤ after.log.returned,
    flags.cancelled instant = false ∧ flags.expired instant = false
  snapshots : ∃ first last, after.log.snapshots = [first, last] ∧
    first.map sealedSnapshot = last.map sealedSnapshot ∧
    ∀ pinned, request.source.snapshot = some pinned → first.map sealedSnapshot = some pinned
  screened : request.dlp (dlpText after.run) ≠ .findings
  kept : ∃ query, admitRequest request = .ok query ∧ evidence =
    sealEvidence request query evidence.outcome (request.dlp (dlpText after.run)) after.run
  within : Within request.source.limits evidence.rows
  prefixed : evidence.rows <+: after.log.streamed
  truncated : evidence.truncated = true ↔ evidence.rows.length < after.log.streamed.length

/-- What evidence that is not admitted keeps to itself: it is sealed from the request, the outcome,
the adapter and the snapshot alone. -/
structure Withheld {σ : Type} (request : ExtractionRequest) (evidence : DatabaseEvidence)
    (after : Progress σ) : Prop where
  rows : evidence.rows = []
  truncated : evidence.truncated = false
  sealed : ∃ query, admitRequest request = .ok query ∧ evidence =
    sealEvidence request query evidence.outcome
      (if evidence.outcome = .dlpRejected then .findings else .notEvaluated)
      ⟨after.run.adapter, after.run.snapshot, [], [], false⟩
  packet : ∀ priority, packetEvidence evidence priority = .error evidence.outcome

def Contract {σ : Type} (engine : Option (EvidenceEngine σ)) (state : σ) (flags : Flags) (now : ℕ)
    (request : ExtractionRequest) : Prop :=
  ((∃ refusal, (extract engine state flags now request).1 = .error refusal) ↔ Refused request) ∧
  (∀ refusal, (extract engine state flags now request).1 = .error refusal →
    (extract engine state flags now request).2 = Progress.start state now) ∧
  ∀ evidence, (extract engine state flags now request).1 = .ok evidence →
    (evidence.outcome.admitted = true →
      Admitted request flags evidence (extract engine state flags now request).2) ∧
    (evidence.outcome.admitted = false →
      Withheld request evidence (extract engine state flags now request).2)

theorem admitRequest_eq_error_iff {request : ExtractionRequest} :
    (∃ refusal, admitRequest request = .error refusal) ↔ Refused request := by
  unfold admitRequest Refused
  cases request.rows with
  | none => simp
  | some rows =>
      by_cases haccess : request.source.access = .introspection
      · simp [haccess]
      · cases rows with
        | projection relation columns =>
            cases hproject : project relation columns request.source.relations with
            | ok query | error rejection => simp [haccess, hproject]
        | sql sql =>
            cases hgate : gate sql request.source.relations with
            | error rejection => simp [haccess, hgate]
            | ok query =>
                by_cases hmem : query.digest ∈ request.source.queries
                · simp [haccess, hgate, hmem]
                · simp [haccess, hgate, hmem]

section Extract

variable {σ : Type} {engine : Option (EvidenceEngine σ)} {state : σ} {flags : Flags} {now : ℕ}
  {request : ExtractionRequest}

theorem sealEvidence_outcome (query : Option GatedQuery) (outcome : EvidenceOutcome)
    (dlp : DlpStatus) (run : Run) :
    (sealEvidence request query outcome dlp run).outcome = outcome := rfl

/-- Evidence that is not admitted is sealed from a cleared run. -/
theorem withheld_of_finish {query : Option GatedQuery} {outcome : EvidenceOutcome}
    {after : Progress σ} (hquery : admitRequest request = .ok query)
    (houtcome : outcome ≠ .dlpRejected)
    (h : (finish request query outcome after.run).outcome.admitted = false) :
    Withheld request (finish request query outcome after.run) after := by
  have hsealed : ∃ refused dlp, finish request query outcome after.run =
      sealEvidence request query refused dlp after.run.cleared ∧
      dlp = (if refused = .dlpRejected then .findings else .notEvaluated) := by
    unfold finish at h ⊢
    split at h
    · rename_i hadmitted
      rw [if_pos hadmitted]
      cases hdlp : request.dlp (dlpText after.run) with
      | findings => exact ⟨.dlpRejected, .findings, rfl, rfl⟩
      | notEvaluated | passed =>
          rw [hdlp] at h
          rw [sealEvidence_outcome, hadmitted] at h
          cases h
    · rename_i hadmitted
      rw [if_neg hadmitted]
      exact ⟨outcome, .notEvaluated, rfl, by rw [if_neg houtcome]⟩
  obtain ⟨refused, dlp, hfinish, hdlp⟩ := hsealed
  rw [hfinish] at h ⊢
  refine ⟨rfl, rfl, ⟨query, hquery, ?_⟩, ?_⟩
  · rw [sealEvidence_outcome, ← hdlp]
    rfl
  · intro priority
    rw [packetEvidence, h]
    rfl

/-- Evidence that is admitted is sealed from what the run has kept. -/
theorem finish_of_admitted {query : Option GatedQuery} {outcome : EvidenceOutcome} {run : Run}
    (h : (finish request query outcome run).outcome.admitted = true) :
    outcome.admitted = true ∧ request.dlp (dlpText run) ≠ .findings ∧
      finish request query outcome run =
        sealEvidence request query outcome (request.dlp (dlpText run)) run := by
  unfold finish at h ⊢
  split at h
  · rename_i hadmitted
    rw [if_pos hadmitted]
    cases hdlp : request.dlp (dlpText run) with
    | findings =>
        rw [hdlp] at h
        cases h
    | notEvaluated | passed => exact ⟨hadmitted, by simp, rfl⟩
  · rename_i hadmitted
    exact absurd h hadmitted

/-- A request that policy admits is answered with evidence, from a collection if there is an
engine. -/
theorem extract_eq_ok {evidence : DatabaseEvidence}
    (h : (extract engine state flags now request).1 = .ok evidence) :
    ∃ query outcome, admitRequest request = .ok query ∧ outcome ≠ .dlpRejected ∧
      evidence = finish request query outcome (extract engine state flags now request).2.run ∧
      (outcome.admitted = true →
        Collected request.source.limits (extract engine state flags now request).2.run
          (extract engine state flags now request).2.log.streamed ∧
        flags.interrupted (extract engine state flags now request).2.log.returned = none ∧
        ∃ first last, (extract engine state flags now request).2.log.snapshots = [first, last] ∧
          first.map sealedSnapshot = last.map sealedSnapshot ∧
          ∀ pinned, request.source.snapshot = some pinned →
            first.map sealedSnapshot = some pinned) := by
  unfold extract at h ⊢
  cases hpolicy : admitRequest request with
  | error refusal =>
      rw [hpolicy] at h
      cases h
  | ok query =>
      rw [hpolicy] at h
      cases engine with
      | none =>
          cases h
          exact ⟨query, .unavailable, rfl, by simp, rfl, fun h => nomatch h⟩
      | some engine =>
          dsimp only at h ⊢
          rcases hcollect : collect engine flags request query
              { Progress.start state now with run :=
                { (Progress.start state now).run with adapter := some (engine.adapter state) } }
            with ⟨outcome | outcome, after⟩
          · rw [hcollect] at h
            cases h
            have hrefused := refusing_collect query _ outcome after hcollect
            refine ⟨query, outcome, rfl, hrefused.2, rfl, ?_⟩
            intro hadmitted
            rw [hrefused.1] at hadmitted
            cases hadmitted
          · rw [hcollect] at h
            cases h
            obtain ⟨hadmitted, hfacts⟩ := collect_eq_ok rfl rfl rfl rfl hcollect
            refine ⟨query, outcome, rfl, ?_, rfl, fun _ => hfacts⟩
            intro hdlp
            rw [hdlp] at hadmitted
            cases hadmitted

theorem extract_eq_error {refusal : ExtractionRefusal}
    (h : (extract engine state flags now request).1 = .error refusal) :
    (extract engine state flags now request).2 = Progress.start state now := by
  unfold extract at h ⊢
  cases hpolicy : admitRequest request with
  | error found => rfl
  | ok query =>
      rw [hpolicy] at h
      cases engine with
      | none => cases h
      | some engine => cases h

theorem extract_refused_iff :
    (∃ refusal, (extract engine state flags now request).1 = .error refusal) ↔
      Refused request := by
  rw [← admitRequest_eq_error_iff]
  unfold extract
  cases hpolicy : admitRequest request with
  | error refusal => simp
  | ok query =>
      cases engine with
      | none => simp
      | some engine => simp

/-- The rows of admitted evidence are those of the stream that fit when they arrived. -/
theorem rows_of_admitted {evidence : DatabaseEvidence}
    (h : (extract engine state flags now request).1 = .ok evidence)
    (hadmitted : evidence.outcome.admitted = true) :
    evidence.rows = keptRows request.source.limits
      (extract engine state flags now request).2.log.streamed := by
  obtain ⟨query, outcome, -, -, hevidence, hfacts⟩ := extract_eq_ok h
  rw [hevidence] at hadmitted
  obtain ⟨houtcome, -, hsealed⟩ := finish_of_admitted hadmitted
  rw [hevidence, hsealed]
  exact (hfacts houtcome).1.rows

/-- An extraction meets its contract exactly when the rows it was streamed, if it is admitted, are
a part that fits and rows that no longer fit behind it. -/
theorem extract_contract_iff {σ : Type} (engine : Option (EvidenceEngine σ)) (state : σ)
    (flags : Flags) (now : ℕ) (request : ExtractionRequest) :
    Contract engine state flags now request ↔
      ∀ evidence, (extract engine state flags now request).1 = .ok evidence →
        evidence.outcome.admitted = true →
        BoundedPrefix request.source.limits
          (extract engine state flags now request).2.log.streamed := by
  constructor
  · intro h evidence hevidence hadmitted
    have hprefixed := ((h.2.2 evidence hevidence).1 hadmitted).prefixed
    rwa [rows_of_admitted hevidence hadmitted, keptRows_prefix_iff] at hprefixed
  · intro h
    refine ⟨extract_refused_iff, fun refusal => extract_eq_error, ?_⟩
    intro evidence hevidence
    obtain ⟨query, outcome, hquery, houtcome, hfinish, hfacts⟩ := extract_eq_ok hevidence
    constructor
    · intro hadmitted
      have hrows := rows_of_admitted hevidence hadmitted
      have hprefixed := keptRows_prefix_iff.mpr (h evidence hevidence hadmitted)
      rw [← hrows] at hprefixed
      rw [hfinish] at hadmitted
      obtain ⟨hcollected, hscreened, hsealed⟩ := finish_of_admitted hadmitted
      obtain ⟨hkept, hquiet, hsnapshots⟩ := hfacts hcollected
      have heq := hfinish.trans hsealed
      refine ⟨unflagged_of_poll hquiet, hsnapshots, hscreened, ⟨query, hquery, ?_⟩, ?_, hprefixed,
        ?_⟩
      · rw [heq, sealEvidence_outcome]
      · rw [heq]
        exact hkept.within
      · rw [heq]
        exact hkept.truncated
    · intro hrefused
      rw [hfinish] at hrefused ⊢
      exact withheld_of_finish hquery houtcome hrefused

end Extract

/-! ## An engine that goes on -/

theorem valid_orders : validPart "main".toList = true ∧ validPart "orders".toList = true := by
  decide

/-- A source of eight bytes of rows. -/
def smallSource : EvidenceSourceDescriptor where
  id := "orders".toList
  engine := .sqlite
  database := "orders.sqlite".toList
  credential := none
  access := .boundedRows
  relations := [⟨"main".toList, "orders".toList, valid_orders⟩]
  queries := []
  snapshot := none
  limits := ⟨10, 8, 1000, by decide⟩
  validId := by decide
  validDatabase := by decide
  validRelations := by simp
  validQueries := by simp
  validSnapshot := by simp

/-- A long row and, whatever the callback says, a short one. -/
def insistentEngine : EvidenceEngine Unit where
  adapter _ := "insistent/1".toList
  snapshot _ := ⟨.ok none, 0, ()⟩
  catalog _ _ := ⟨.ok [], 0, ()⟩
  rows _ _ := .emit 0 [.text "a long row".toList] fun _ =>
    .emit 0 [.integer 1] fun _ => .done (.ok ()) 0 ()

def quietFlags : Flags := ⟨fun _ => false, fun _ => false, fun _ h => h, fun _ h => h⟩

def smallRequest : ExtractionRequest where
  source := smallSource
  rows := some (.projection ⟨"main".toList, "orders".toList, valid_orders⟩ ["id".toList])
  extractedAt := "2026-09-29T00:00:00Z".toList
  dlp := fun _ => .passed

/-- The long row does not fit, the short one behind it does, and the kept row is not the first. -/
theorem not_extract_contract :
    ¬ Contract (some insistentEngine) () quietFlags 0 smallRequest := by
  intro h
  have hresult : (extract (some insistentEngine) () quietFlags 0 smallRequest).1.toOption.map
      (fun evidence => (evidence.outcome, evidence.rows)) =
        some (.truncated, [[.integer 1]]) := by decide +kernel
  have hstreamed : (extract (some insistentEngine) () quietFlags 0 smallRequest).2.log.streamed =
      [[.text "a long row".toList], [.integer 1]] := by decide +kernel
  cases hextract : (extract (some insistentEngine) () quietFlags 0 smallRequest).1 with
  | error refusal =>
      rw [hextract] at hresult
      cases hresult
  | ok evidence =>
      rw [hextract] at hresult
      obtain ⟨houtcome, hrows⟩ := Prod.mk.inj (Option.some.inj hresult)
      have hadmitted : evidence.outcome.admitted = true := by
        rw [houtcome]
        rfl
      have hprefixed := ((h.2.2 evidence hextract).1 hadmitted).prefixed
      rw [hrows, hstreamed] at hprefixed
      have hfirst := (cons_prefix_cons.mp hprefixed).1
      simp at hfirst

end Bran.Database.Evidence
