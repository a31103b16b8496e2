import Bran.Cli.HeadlessReceipt

/-!
# A retry is not billed

The loop of the command takes another turn only when the receipt shows that the input stage failed,
and such an invocation has asked neither the provider nor for a batch to be stored.  So only the
last turn is billed.
-/

namespace Bran.Cli

open Text Validation Adapters Agent Program List

variable {K : Type} {request grounded : DelegationRequest} {cancellable : Bool}
  {authority : AgentRuntimeAuthority} {profiles : AgentProfileRegistry} {nowTick : ℕ}
  {controls : ExperimentalControls} {trace : List (HeadlessEvent K)}

/-! ## Calls of the ports -/

/-- A count of the calls of the coordinator, as one of the calls of the command. -/
def onAgent (counts : AgentCall K → Bool) : HeadlessCall K → Bool
  | .agent call => counts call
  | _ => false

/-- The call is none of the ports. -/
def HeadlessCall.Outside : HeadlessCall K → Prop
  | .agent _ => False
  | _ => True

theorem HeadlessCall.Outside.onAgent {counts : AgentCall K → Bool} :
    ∀ call : HeadlessCall K, call.Outside → onAgent counts call = false
  | .agent _, h => absurd h id
  | .descriptor, _ | .configuration _ _, _ | .openResults, _ | .wallTick, _
  | .groundedRequest _ _, _ | .isCancelled, _ | .cancelledReceipt _ _, _ => rfl

/-- No cancellation is seen in the run. -/
def Uncancelled (trace : List (HeadlessEvent K)) : Prop :=
  (⟨.isCancelled, true⟩ : HeadlessEvent K) ∉ trace

variable {ε : Type} {events : List (HeadlessEvent K)}

theorem asksOnly_askCancelled :
    AsksOnly HeadlessCall.Outside (askCancelled cancellable : Headless K ε Bool) := by
  cases cancellable with
  | true => exact asksOnly_call trivial
  | false => exact asksOnly_pure

theorem asksOnly_askGroundedRequest :
    AsksOnly HeadlessCall.Outside
      (askGroundedRequest request controls : Headless K ConnectedSetupFailure _) :=
  asksOnly_call_bind trivial fun _ => asksOnly_ofExcept

/-- In an uncancelled run no check for a cancellation finds one. -/
theorem cancelled_eq_false {cancelled : Bool}
    (h : Runs (askCancelled cancellable : Headless K ε Bool) trace (.ok cancelled))
    (huncancelled : Uncancelled trace) : cancelled = false := by
  cases cancellable with
  | true =>
      obtain ⟨answer, rfl, hanswer⟩ := runs_call.mp h
      cases hanswer
      cases cancelled with
      | false => rfl
      | true => exact absurd mem_cons_self huncancelled
  | false =>
      cases (runs_pure.mp h).2
      rfl

theorem not_fails_call {asked : HeadlessCall K} {error : ε} :
    ¬ Runs (Program.call asked) events (.error error) := by
  intro h
  obtain ⟨_, _, herror⟩ := runs_call.mp h
  cases herror

theorem not_fails_askCancelled {error : ε} :
    ¬ Runs (askCancelled cancellable) events (.error error) := by
  intro h
  cases cancellable with
  | true => exact not_fails_call h
  | false => cases (runs_pure.mp h).2

/-- The ports answer every call. -/
theorem not_fails_runtimePorts (call : AgentCall K) (error : ε) :
    ¬ Runs (runtimePorts cancellable call) events (.error error) := by
  intro h
  cases call with
  | putBatch payloads tick =>
      rcases runs_bind.mp h with ⟨_, hruns, hsame⟩ | ⟨before, cancelled, after, rfl, _, hrest⟩
      · cases hsame
        exact not_fails_askCancelled hruns
      · cases cancelled with
        | true => cases (runs_pure.mp hrest).2
        | false => exact not_fails_call hrest
  | _ => exact not_fails_call h

/-- What the ports ask for a call is counted as that call. -/
theorem asksAtMost_runtimePorts (counts : AgentCall K → Bool) (call : AgentCall K) :
    AsksAtMost (onAgent counts) (if counts call then 1 else 0)
      (runtimePorts cancellable call : Headless K ε _) := by
  have hcall {asked : AgentCall K} : AsksAtMost (onAgent counts) (if counts asked then 1 else 0)
      (Program.call (A := HeadlessCall K) (.agent asked) : Headless K ε _) := by
    intro trace outcome h
    obtain ⟨answer, rfl, _⟩ := runs_call.mp h
    rw [countOf_cons, countOf_nil, Nat.zero_add]
    exact le_rfl
  cases call with
  | putBatch payloads tick =>
      refine (asksOnly_askCancelled.mono HeadlessCall.Outside.onAgent).bind_atMost fun cancelled =>
        ?_
      cases cancelled with
      | true =>
          intro trace outcome h
          rw [(runs_pure.mp h).1]
          exact Nat.zero_le _
      | false => exact hcall
  | _ => exact hcall

/-! ## One turn -/

/-- A run of `invokeRuntime` is one of the coordinator. -/
theorem exists_invoke {outcome : Except ConnectedSetupFailure DelegationReceipt}
    (h : Runs (invokeRuntime cancellable authority profiles nowTick grounded) trace outcome) :
    ∃ source ended, Runs (invoke ⟨true, 8, bounded_max⟩ grounded authority profiles nowTick) source
      ended ∧ outcome = ended.mapError (fun _ => .runtimeInvariant) ∧
        ∀ counts : AgentCall K → Bool, countOf (onAgent counts) trace ≤ countOf counts source := by
  obtain ⟨ended, hended, houtcome⟩ := runs_conclude.mp h
  obtain ⟨source, hsource, hthrough⟩ :=
    runs_through (fun call _ error => not_fails_runtimePorts call error) hended
  exact ⟨source, ended, hsource, houtcome, fun counts =>
    hthrough.countOf_le (asksAtMost_runtimePorts counts)⟩

/-- An invocation asks the provider at most once and stores at most one batch. -/
theorem countOf_invokeRuntime {outcome : Except ConnectedSetupFailure DelegationReceipt}
    (h : Runs (invokeRuntime cancellable authority profiles nowTick grounded) trace outcome) :
    countOf (onAgent AgentCall.isProvider) trace ≤ 1 ∧
      countOf (onAgent AgentCall.isPutBatch) trace ≤ 1 := by
  obtain ⟨source, ended, hsource, _, hcounts⟩ := exists_invoke h
  exact ⟨(hcounts _).trans (asksAtMost_invoke countsBilled_isProvider _ _ hsource),
    (hcounts _).trans (asksAtMost_invoke countsBilled_isPutBatch _ _ hsource)⟩

/-- An invocation whose input stage failed does neither. -/
theorem countOf_of_failedInput {receipt : DelegationReceipt}
    (h : Runs (invokeRuntime cancellable authority profiles nowTick grounded) trace (.ok receipt))
    (hfailed : FailedInput receipt) :
    countOf (onAgent AgentCall.isProvider) trace = 0 ∧
      countOf (onAgent AgentCall.isPutBatch) trace = 0 := by
  obtain ⟨source, ended, hsource, hended, hcounts⟩ := exists_invoke h
  obtain rfl : ended = .ok receipt := mapError_eq_ok_iff.mp hended.symm
  have hunbilled := unbilled_of_failedInput hsource hfailed
  have hzero {counts : AgentCall K → Bool} {provider putBatch : ℕ}
      (hbilled : CountsBilled counts provider putBatch) : countOf (onAgent counts) trace = 0 := by
    have hsource : countOf counts source = 0 := countOf_eq_zero.mpr fun event hevent =>
      hbilled.unbilled _ (hunbilled event hevent)
    have hle := hcounts counts
    omega
  exact ⟨hzero countsBilled_isProvider, hzero countsBilled_isPutBatch⟩

theorem asksOnly_nextChangedGroundedRequest (receipt : DelegationReceipt)
    (controls : ExperimentalControls) : AsksOnly HeadlessCall.Outside
      (nextChangedGroundedRequest request receipt grounded controls :
        Headless K ConnectedSetupFailure _) := by
  rw [nextChangedGroundedRequest]
  split
  · exact asksOnly_pure
  · rename_i nextLimit hnext
    have hfewer := (nextSqzFidelitySourceLimit_eq_some hnext).2.1
    refine asksOnly_bind asksOnly_askGroundedRequest fun nextGrounded => ?_
    split
    · exact asksOnly_pure
    · exact asksOnly_bind
        (asksOnly_nextChangedGroundedRequest receipt (controls.withEffective nextLimit)) fun _ =>
          asksOnly_pure
termination_by controls.maxSourcesOf

/-- Another turn is taken only when the receipt says that the input stage failed. -/
theorem failedInput_of_next {receipt : DelegationReceipt}
    {next : NextTurn controls.maxSourcesOf grounded}
    (h : Runs (nextChangedGroundedRequest request receipt grounded controls) trace
      (.ok (some next))) : FailedInput receipt := by
  rw [nextChangedGroundedRequest] at h
  split at h
  · cases (runs_pure.mp h).2
  · rename_i nextLimit hnext
    exact (nextSqzFidelitySourceLimit_eq_some hnext).2.2

/-- The request of another turn was grounded by a call, with the controls of that turn. -/
theorem grounded_of_next (receipt : DelegationReceipt) (controls : ExperimentalControls)
    {trace : List (HeadlessEvent K)} {next : NextTurn controls.maxSourcesOf grounded}
    (h : Runs (nextChangedGroundedRequest request receipt grounded controls) trace
      (.ok (some next))) :
    (⟨.groundedRequest request next.controls, Except.ok next.request⟩ : HeadlessEvent K) ∈ trace
    := by
  rw [nextChangedGroundedRequest] at h
  split at h
  · cases (runs_pure.mp h).2
  · rename_i nextLimit hnext
    have hfewer := (nextSqzFidelitySourceLimit_eq_some hnext).2.1
    obtain ⟨before, nextGrounded, after, rfl, hasked, hrest⟩ := runs_bind_ok.mp h
    split at hrest
    · obtain ⟨answered, rest, rfl, hanswered⟩ := runs_call_bind_ok.mp hasked
      obtain ⟨rfl, hok⟩ := runs_ofExcept.mp hanswered
      cases (runs_pure.mp hrest).2
      rw [← hok]
      exact mem_append_left _ mem_cons_self
    · obtain ⟨search, found, last, rfl, hfound, hresult⟩ := runs_bind_ok.mp hrest
      obtain ⟨later, rfl, rfl⟩ := Option.map_eq_some_iff.mp
        (Except.ok.inj (runs_pure.mp hresult).2).symm
      have hlater := grounded_of_next receipt (controls.withEffective nextLimit) hfound
      simp [NextTurn.weaken, hlater]
termination_by controls.maxSourcesOf

/-! ## All turns -/

/-- A turn of the loop: what it starts with, and its invocation. -/
structure Turn (K : Type) where
  controls : ExperimentalControls
  grounded : DelegationRequest
  invoked : List (HeadlessEvent K)
  outcome : Except ConnectedSetupFailure DelegationReceipt

/-- A turn after another one: fewer sources, but at least one, and another prompt. -/
structure Turn.Follows (earlier later : Turn K) : Prop where
  positive : 1 ≤ later.controls.maxSourcesOf
  fewer : later.controls.maxSourcesOf < earlier.controls.maxSourcesOf
  changed : later.grounded.prompt ≠ earlier.grounded.prompt

def portCalls (trace : List (HeadlessEvent K)) : List (HeadlessEvent K) :=
  trace.filter fun event => onAgent (fun _ => true) event.1

theorem portCalls_append (first second : List (HeadlessEvent K)) :
    portCalls (first ++ second) = portCalls first ++ portCalls second := filter_append _ _

theorem portCalls_eq_nil (h : ∀ event ∈ trace, HeadlessCall.Outside event.1) :
    portCalls trace = [] := by
  rw [portCalls, filter_eq_nil_iff]
  intro event hevent
  rw [HeadlessCall.Outside.onAgent _ (h event hevent)]
  exact Bool.false_ne_true

theorem countOf_outside {counts : AgentCall K → Bool}
    (h : ∀ event ∈ trace, HeadlessCall.Outside event.1) : countOf (onAgent counts) trace = 0 :=
  countOf_eq_zero.mpr fun event hevent => HeadlessCall.Outside.onAgent _ (h event hevent)

section Turns

variable (cancellable : Bool) (authority : AgentRuntimeAuthority)
  (profiles : AgentProfileRegistry) (nowTick : ℕ) (request : DelegationRequest)

/-- What a run has done that starts with some controls and a grounded request: all calls of the
ports belong to its turns, the provider is asked at most once and at most one batch is stored, and
the result is that of the last turn. -/
structure BilledOnce (controls : ExperimentalControls) (grounded : DelegationRequest)
    (trace : List (HeadlessEvent K))
    (outcome : Except ConnectedSetupFailure (DelegationReceipt × ExperimentalControls))
    (turns : List (Turn K)) : Prop where
  invoked : ∀ turn ∈ turns,
    Runs (invokeRuntime cancellable authority profiles nowTick turn.grounded) turn.invoked
      turn.outcome
  calls : portCalls trace = turns.flatMap fun turn => portCalls turn.invoked
  provider : countOf (onAgent AgentCall.isProvider) trace ≤ 1
  putBatch : countOf (onAgent AgentCall.isPutBatch) trace ≤ 1
  first : ∀ turn ∈ turns.head?, turn.controls = controls ∧ turn.grounded = grounded
  regrounded : ∀ turn ∈ turns.tail,
    (⟨.groundedRequest request turn.controls, Except.ok turn.grounded⟩ : HeadlessEvent K) ∈ trace
  chain : turns.IsChain Turn.Follows
  bounded : turns.length ≤ max 1 controls.maxSourcesOf
  last : ∀ receipt final, outcome = .ok (receipt, final) →
    ∃ turn, turns.getLast? = some turn ∧ turn.outcome = .ok receipt ∧ turn.controls = final

end Turns

section Steps

variable {outcome : Except ConnectedSetupFailure (DelegationReceipt × ExperimentalControls)}

/-- A run that ends before its first turn. -/
theorem billedOnce_nil {error : ConnectedSetupFailure}
    (houtside : ∀ event ∈ trace, HeadlessCall.Outside event.1) :
    BilledOnce cancellable authority profiles nowTick request controls grounded trace
      (.error error) [] where
  invoked turn hturn := nomatch hturn
  calls := portCalls_eq_nil houtside
  provider := by rw [countOf_outside houtside]; exact Nat.zero_le _
  putBatch := by rw [countOf_outside houtside]; exact Nat.zero_le _
  first turn hturn := nomatch hturn
  regrounded turn hturn := nomatch hturn
  chain := .nil
  bounded := Nat.zero_le _
  last receipt final h := nomatch h

/-- A run of a single turn. -/
theorem billedOnce_single {ended : Except ConnectedSetupFailure DelegationReceipt}
    {invoked after : List (HeadlessEvent K)}
    (hruns : Runs (invokeRuntime cancellable authority profiles nowTick grounded) invoked ended)
    (houtside : ∀ event ∈ after, HeadlessCall.Outside event.1)
    (hlast : ∀ receipt final, outcome = .ok (receipt, final) →
      ended = .ok receipt ∧ controls = final) :
    BilledOnce cancellable authority profiles nowTick request controls grounded (invoked ++ after)
      outcome [⟨controls, grounded, invoked, ended⟩] where
  invoked turn hturn := by
    rw [mem_singleton.mp hturn]
    exact hruns
  calls := by simp [portCalls_append, portCalls_eq_nil houtside]
  provider := by
    rw [countOf_append, countOf_outside houtside]
    exact (countOf_invokeRuntime hruns).1
  putBatch := by
    rw [countOf_append, countOf_outside houtside]
    exact (countOf_invokeRuntime hruns).2
  first turn hturn := by
    cases hturn
    exact ⟨rfl, rfl⟩
  regrounded turn hturn := nomatch hturn
  chain := .singleton _
  bounded := le_max_left _ _
  last receipt final h := ⟨_, rfl, hlast receipt final h⟩

/-- Another turn in front of a run whose first turn follows it. -/
theorem BilledOnce.cons {receipt : DelegationReceipt}
    {invoked between rest : List (HeadlessEvent K)}
    {next : NextTurn controls.maxSourcesOf grounded} {turn : Turn K} {turns : List (Turn K)}
    (hruns : Runs (invokeRuntime cancellable authority profiles nowTick grounded) invoked
      (.ok receipt)) (hfailed : FailedInput receipt)
    (houtside : ∀ event ∈ between, HeadlessCall.Outside event.1)
    (hnext : (⟨.groundedRequest request next.controls, Except.ok next.request⟩ :
      HeadlessEvent K) ∈ between)
    (h : BilledOnce cancellable authority profiles nowTick request next.controls next.request rest
      outcome (turn :: turns)) :
    BilledOnce cancellable authority profiles nowTick request controls grounded
      (invoked ++ (between ++ rest)) outcome
      (⟨controls, grounded, invoked, .ok receipt⟩ :: turn :: turns) := by
  obtain ⟨hprovider, hputBatch⟩ := countOf_of_failedInput hruns hfailed
  obtain ⟨hcontrols, hgrounded⟩ := h.first turn rfl
  constructor
  · intro other hother
    rcases mem_cons.mp hother with rfl | hother
    · exact hruns
    · exact h.invoked other hother
  · rw [portCalls_append, portCalls_append, portCalls_eq_nil houtside, h.calls]
    simp
  · rw [countOf_append, countOf_append, hprovider, countOf_outside houtside, Nat.zero_add,
      Nat.zero_add]
    exact h.provider
  · rw [countOf_append, countOf_append, hputBatch, countOf_outside houtside, Nat.zero_add,
      Nat.zero_add]
    exact h.putBatch
  · intro other hother
    cases hother
    exact ⟨rfl, rfl⟩
  · intro other hother
    rcases mem_cons.mp hother with rfl | hother
    · rw [hcontrols, hgrounded]
      simp [hnext]
    · simp [h.regrounded other hother]
  · refine .cons_cons ⟨?_, ?_, ?_⟩ h.chain
    · rw [hcontrols]
      exact next.positive
    · rw [hcontrols]
      exact next.fewer
    · rw [hgrounded]
      exact next.changed
  · have hbounded := h.bounded
    have hfewer := next.fewer
    have hpositive := next.positive
    rw [length_cons]
    omega
  · intro final last houtcome
    obtain ⟨ending, hlast, hending⟩ := h.last final last houtcome
    refine ⟨ending, ?_, hending⟩
    rw [getLast?_cons_cons]
    exact hlast

/-- Events in front of a run that are none of the ports. -/
theorem BilledOnce.after {setup : List (HeadlessEvent K)} {turns : List (Turn K)}
    (houtside : ∀ event ∈ setup, HeadlessCall.Outside event.1)
    (h : BilledOnce cancellable authority profiles nowTick request controls grounded trace outcome
      turns) :
    BilledOnce cancellable authority profiles nowTick request controls grounded (setup ++ trace)
      outcome turns where
  invoked := h.invoked
  calls := by rw [portCalls_append, portCalls_eq_nil houtside, nil_append, h.calls]
  provider := by
    rw [countOf_append, countOf_outside houtside, Nat.zero_add]
    exact h.provider
  putBatch := by
    rw [countOf_append, countOf_outside houtside, Nat.zero_add]
    exact h.putBatch
  first := h.first
  regrounded turn hturn := mem_append_right _ (h.regrounded turn hturn)
  chain := h.chain
  bounded := h.bounded
  last := h.last

end Steps

theorem Uncancelled.of_subset {part : List (HeadlessEvent K)} (h : Uncancelled trace)
    (hsub : ∀ event ∈ part, event ∈ trace) : Uncancelled part :=
  fun hevent => h (hsub _ hevent)

/-- The loop, turn by turn. -/
theorem headlessLoop_billedOnce (controls : ExperimentalControls) (grounded : DelegationRequest)
    {trace : List (HeadlessEvent K)}
    {outcome : Except ConnectedSetupFailure (DelegationReceipt × ExperimentalControls)}
    (h : Runs (headlessLoop request cancellable authority profiles nowTick controls grounded) trace
      outcome) (huncancelled : Uncancelled trace) :
    ∃ turn turns, BilledOnce cancellable authority profiles nowTick request controls grounded trace
      outcome (turn :: turns) := by
  rw [headlessLoop] at h
  rcases runs_bind.mp h with ⟨error, hruns, rfl⟩ | ⟨invoked, receipt, later, rfl, hruns, h₁⟩
  · -- the invocation has no receipt
    rw [← append_nil trace]
    exact ⟨_, [], billedOnce_single hruns (forall_mem_nil _) fun _ _ h => nomatch h⟩
  rcases runs_bind.mp h₁ with ⟨error, hasked, _⟩ | ⟨asked, cancelled, rest, rfl, hasked, h₂⟩
  · exact absurd hasked not_fails_askCancelled
  have houtside := asksOnly_askCancelled _ _ hasked
  obtain rfl : cancelled = false := cancelled_eq_false hasked <|
    huncancelled.of_subset fun event hevent => by simp [hevent]
  rw [if_neg (by simp)] at h₂
  rcases runs_bind.mp h₂ with ⟨error, hsearch, rfl⟩ | ⟨search, found, last, rfl, hsearch, h₃⟩
  · -- the repository cannot be grounded again
    have hsearched := asksOnly_nextChangedGroundedRequest _ _ _ _ hsearch
    exact ⟨_, [], billedOnce_single hruns (forall_mem_append.mpr ⟨houtside, hsearched⟩)
      fun _ _ h => nomatch h⟩
  have hsearched := asksOnly_nextChangedGroundedRequest _ _ _ _ hsearch
  cases found with
  | none =>
      -- the receipt is that of this turn
      obtain ⟨rfl, rfl⟩ := runs_pure.mp h₃
      rw [append_nil]
      refine ⟨_, [], billedOnce_single hruns (forall_mem_append.mpr ⟨houtside, hsearched⟩)
        fun receipt final hlast => ?_⟩
      cases hlast
      exact ⟨rfl, rfl⟩
  | some next =>
      have hfewer := next.fewer
      obtain ⟨turn, turns, hbilled⟩ := headlessLoop_billedOnce next.controls next.request h₃ <|
        huncancelled.of_subset fun event hevent => by simp [hevent]
      have hgrounded := grounded_of_next _ _ hsearch
      rw [← append_assoc asked]
      exact ⟨_, _, hbilled.cons hruns (failedInput_of_next hsearch)
        (forall_mem_append.mpr ⟨houtside, hsearched⟩) (mem_append_right _ hgrounded)⟩
termination_by controls.maxSourcesOf

/-! ## A request from the command line -/

theorem asksOnly_connect {settings : Option Settings} {trustCurrentRoot allowTuiSelection : Bool} :
    AsksOnly HeadlessCall.Outside (connect request settings trustCurrentRoot allowTuiSelection
      controls : Headless K ConnectedSetupFailure _) := by
  refine asksOnly_bind asksOnly_ofExcept fun settings => asksOnly_bind asksOnly_ofExcept fun _ => ?_
  have hdescriptor : AsksOnly HeadlessCall.Outside
      (askDescriptor : Headless K ConnectedSetupFailure _) :=
    asksOnly_call_bind trivial fun _ => asksOnly_ofExcept
  refine asksOnly_bind hdescriptor fun descriptor => ?_
  refine asksOnly_bind asksOnly_ofExcept fun profile => ?_
  have hconfiguration : AsksOnly HeadlessCall.Outside
      (askConfiguration profile settings.sqz : Headless K ConnectedSetupFailure _) :=
    asksOnly_call_bind trivial fun _ => asksOnly_ofExcept
  have hresults : AsksOnly HeadlessCall.Outside
      (askOpenResults : Headless K ConnectedSetupFailure _) :=
    asksOnly_call_bind trivial fun _ => asksOnly_ofExcept
  refine asksOnly_bind hconfiguration fun _ => asksOnly_bind hresults fun _ => ?_
  refine asksOnly_call_bind trivial fun _ => asksOnly_bind asksOnly_askGroundedRequest fun _ => ?_
  exact asksOnly_pure

/-- The first request was grounded by a call too. -/
theorem grounded_of_connect {settings : Option Settings}
    {trustCurrentRoot allowTuiSelection : Bool} {connected : Connected}
    (h : Runs (connect request settings trustCurrentRoot allowTuiSelection controls) trace
      (.ok connected)) :
    (⟨.groundedRequest request controls, Except.ok connected.grounded⟩ : HeadlessEvent K) ∈ trace
    := by
  unfold connect at h
  obtain ⟨settings, _, h₁⟩ := runs_ofExcept_bind_ok.mp h
  obtain ⟨_, h₂⟩ := runs_failIf_bind_ok.mp h₁
  obtain ⟨first, descriptor, rest₁, rfl, _, h₃⟩ := runs_bind_ok.mp h₂
  obtain ⟨profile, _, h₄⟩ := runs_ofExcept_bind_ok.mp h₃
  obtain ⟨second, _, rest₂, rfl, _, h₅⟩ := runs_bind_ok.mp h₄
  obtain ⟨third, _, rest₃, rfl, _, h₆⟩ := runs_bind_ok.mp h₅
  obtain ⟨nowTick, rest₄, rfl, h₇⟩ := runs_call_bind_ok.mp h₆
  obtain ⟨fourth, grounded, rest₅, rfl, hasked, h₈⟩ := runs_bind_ok.mp h₇
  obtain ⟨answered, rest₆, rfl, hanswered⟩ := runs_call_bind_ok.mp hasked
  obtain ⟨rfl, hok⟩ := runs_ofExcept.mp hanswered
  cases (runs_pure.mp h₈).2
  rw [← hok]
  simp

/-- An uncancelled request from the command line is billed at most once, however often it is
grounded again. -/
theorem headless_billedOnce {offline : Bool} {settings : Option Settings}
    {trustCurrentRoot allowTuiSelection : Bool}
    {outcome : Except ConnectedSetupFailure (DelegationReceipt × ExperimentalControls)}
    (h : Runs (productionHeadlessReceiptAt request offline settings trustCurrentRoot
      allowTuiSelection cancellable controls) trace outcome) (huncancelled : Uncancelled trace) :
    ∃ cancellable authority profiles nowTick grounded turns,
      BilledOnce cancellable authority profiles nowTick request controls grounded trace outcome
        turns ∧
      (turns ≠ [] → offline = true ∧ grounded = request ∨
        (⟨.groundedRequest request controls, Except.ok grounded⟩ : HeadlessEvent K) ∈ trace) := by
  cases offline with
  | true =>
      rcases runs_bind.mp h with ⟨error, hruns, rfl⟩ | ⟨invoked, receipt, after, rfl, hruns, hrest⟩
      · rw [← append_nil trace]
        exact ⟨_, _, _, _, _, _, billedOnce_single hruns (forall_mem_nil _)
          fun _ _ h => (nomatch h), fun _ => .inl ⟨rfl, rfl⟩⟩
      · obtain ⟨rfl, rfl⟩ := runs_pure.mp hrest
        refine ⟨_, _, _, _, _, _, billedOnce_single hruns (forall_mem_nil _)
          fun receipt final hlast => ?_, fun _ => .inl ⟨rfl, rfl⟩⟩
        cases hlast
        exact ⟨rfl, rfl⟩
  | false =>
      rcases runs_bind.mp h with ⟨error, hsetup, rfl⟩ |
        ⟨setup, connected, rest, rfl, hsetup, hloop⟩
      · exact ⟨cancellable, ⟨false, trustCurrentRoot, false⟩, offlineRegistry request, 0, request,
          [], billedOnce_nil (asksOnly_connect _ _ hsetup), fun hne => absurd rfl hne⟩
      · obtain ⟨turn, turns, hbilled⟩ := headlessLoop_billedOnce _ _ hloop <|
          huncancelled.of_subset fun event hevent => mem_append_right _ hevent
        exact ⟨_, _, _, _, _, _, hbilled.after (asksOnly_connect _ _ hsetup), fun _ =>
          .inr (mem_append_left _ (grounded_of_connect hsetup))⟩

/-! ## A request that is grounded twice -/

def longRequest : DelegationRequest :=
  { noteRequest with
    prompt := "count again".toList
    validPrompt := by decide +kernel }

/-- The receipt of an input stage that has lost the anchor of a source. -/
def lostReceipt (payload : Str) (maxOutputBytes : ℕ) : SqzReceipt :=
  { offReceipt payload maxOutputBytes [] with
    failureReason := some .missingFidelityAnchors
    missingFidelityAnchorIds := ["source-1".toList] }

/-- A stage that loses the anchor of a source. -/
def lostStage (payload : Str) (maxOutputBytes : ℕ) : Except AgentSqzError AgentSqzOutput :=
  if h : isBlank payload = false ∧ byteLen payload ≤ 1048576 then
    .ok ⟨payload, lostReceipt payload maxOutputBytes, h⟩
  else .error ⟨.invalidOutput, none⟩

/-- Ports whose input stage loses an anchor when the request is grounded with 32 sources. -/
def retryPorts : (call : HeadlessCall Unit) → call.Answer
  | .descriptor => Except.ok readerProfile
  | .configuration _ _ => Except.ok ()
  | .openResults => Except.ok ()
  | .wallTick => (0 : ℕ)
  | .groundedRequest _ controls =>
      Except.ok (if controls.maxSourcesOf = 32 then longRequest else noteRequest)
  | .isCancelled => false
  | .cancelledReceipt _ _ => Except.error .runtimeInvariant
  | .agent (.evaluateWithAnchors _ payload maxOutputBytes anchors) =>
      if payload = longRequest.prompt then lostStage payload maxOutputBytes
      else offStage payload maxOutputBytes anchors
  | .agent call => notePorts call

/-- The run of the request with these ports. -/
def retryRun : List (HeadlessEvent Unit) ×
    Except ConnectedSetupFailure (DelegationReceipt × ExperimentalControls) :=
  (productionHeadlessReceiptAt longRequest false (some ⟨.connectedAgent, true⟩) true false true
    ⟨none, none, none, none, none⟩).record retryPorts

/-- The number of sources that a run ends with. -/
def limitOf : Except ConnectedSetupFailure (DelegationReceipt × ExperimentalControls) → Option ℕ
  | .ok (_, controls) => some controls.maxSourcesOf
  | .error _ => none

theorem uncancelled_retryRun : Uncancelled retryRun.1 := by
  have hanswers : ∀ call : HeadlessCall Unit,
      (⟨call, retryPorts call⟩ : HeadlessEvent Unit) ≠ ⟨.isCancelled, true⟩ := by
    intro call heq
    cases call with
    | _ => cases heq
  intro hevent
  exact forall_mem_record (P := fun event => event ≠ ⟨.isCancelled, true⟩) hanswers _ _ hevent rfl

/-- A request that loses an anchor, is grounded with half of the sources, and is billed once. -/
theorem headless_billedOnce_retry : limitOf retryRun.2 = some 16 ∧
    ∃ cancellable authority profiles nowTick grounded turns,
      BilledOnce cancellable authority profiles nowTick longRequest ⟨none, none, none, none, none⟩
        grounded retryRun.1 retryRun.2 turns ∧
      (turns ≠ [] → false = true ∧ grounded = longRequest ∨
        (⟨.groundedRequest longRequest ⟨none, none, none, none, none⟩, Except.ok grounded⟩ :
          HeadlessEvent Unit) ∈ retryRun.1) :=
  ⟨by decide +kernel, headless_billedOnce (runs_record retryPorts _) uncancelled_retryRun⟩

end Bran.Cli
