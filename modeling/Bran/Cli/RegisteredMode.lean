import Bran.Cli.Dispatch

/-!
# Registered-root mode

With a registry every call of the dispatch is confined to registered roots, and a request that is
refused is refused without a call, with an output that only the command and the reason decide.
-/

namespace Bran.Cli

open Text Agent Program Validation List Option

/-! ## Requests and rules -/

/-- What a request of a registered command asks for. -/
structure Request where
  roots : List Str
  text : Str
  record : Bool
  policyStdin : Bool

def QueryRequest.request (request : QueryRequest) : Request :=
  ⟨request.root :: request.added, request.text, request.record, false⟩

def PacketRequest.request (request : PacketRequest) : Request :=
  ⟨[request.root], request.text, false, false⟩

def CheckRequest.request : CheckRequest → Request
  | .policyStdin _ => ⟨[], [], false, true⟩
  | .ofRoot root _ => ⟨[root], [], false, false⟩

/-- The request that the arguments of a command spell. -/
def readRequest (command : Str) (arguments : List OsStr) : Except UsageFailure Request :=
  if command = "query".toList then (readQuery arguments).map QueryRequest.request
  else if command = "packet".toList then (readPacket arguments).map PacketRequest.request
  else
    match arguments.mapM fromUtf8 with
    | none => .error .invalidUtf8
    | some arguments => (readCheck arguments).map CheckRequest.request

/-- A root is spelled as one of the registered ones. -/
def RegisteredRoots.Registered (registered : RegisteredRoots) (root : Str) : Prop :=
  bytes root ∈ registered.roots

instance (registered : RegisteredRoots) (root : Str) : Decidable (registered.Registered root) :=
  inferInstanceAs (Decidable (_ ∈ registered.roots))

/-- The rules of registered-root mode for a request. -/
inductive Rule
  | recording
  | policy
  | root
  | oversized
  | dlp
  deriving DecidableEq

def Request.Breaks (registered : RegisteredRoots) (request : Request) : Rule → Prop
  | .recording => request.record = true
  | .policy => request.policyStdin = true
  | .root => ∃ root ∈ request.roots, ¬ registered.Registered root
  | .oversized => byteLen request.text > maxRegisteredRequestBytes
  | .dlp => isPublicDlpSafe request.text = false

instance (registered : RegisteredRoots) (request : Request) :
    DecidablePred (request.Breaks registered)
  | .recording => inferInstanceAs (Decidable (request.record = true))
  | .policy => inferInstanceAs (Decidable (request.policyStdin = true))
  | .root => inferInstanceAs (Decidable (∃ root ∈ request.roots, ¬ registered.Registered root))
  | .oversized => inferInstanceAs (Decidable (byteLen request.text > maxRegisteredRequestBytes))
  | .dlp => inferInstanceAs (Decidable (isPublicDlpSafe request.text = false))

def Request.firstBroken (registered : RegisteredRoots) (request : Request) : Option Rule :=
  [Rule.recording, .policy, .root, .oversized, .dlp].find? fun rule =>
    decide (request.Breaks registered rule)

theorem firstBroken_eq_none_iff {registered : RegisteredRoots} {request : Request} :
    request.firstBroken registered = none ↔ ∀ rule, ¬ request.Breaks registered rule := by
  rw [Request.firstBroken, find?_eq_none]
  constructor
  · intro h rule
    have hrule : rule ∈ [Rule.recording, .policy, .root, .oversized, .dlp] := by
      cases rule <;> decide
    exact fun hbreaks => h rule hrule (decide_eq_true hbreaks)
  · exact fun h rule _ hbreaks => h rule (of_decide_eq_true hbreaks)

/-- Why a request is refused. -/
inductive Refusal
  | missingCommand
  | nonUtf8Command
  | registry
  | command
  | usage (failure : UsageFailure)
  | rule (rule : Rule)
  deriving DecidableEq

/-- The reason for which the request of a registered command is refused, if it is. -/
def requestRefusal (roots : RegisteredRoots) (command : Str) (arguments : List OsStr) :
    Option Refusal :=
  match readRequest command arguments with
  | .error failure => some (.usage failure)
  | .ok request => (request.firstBroken roots).map .rule

/-- The reason for which a request is refused, if it is. -/
def refusal (canonicalDirectory : OsStr → Bool) (registry : OsStr) (arguments : List OsStr) :
    Option Refusal :=
  match arguments with
  | [] => some .missingCommand
  | first :: rest =>
      match fromUtf8 first with
      | none => some .nonUtf8Command
      | some command =>
          match RegisteredRoots.parse canonicalDirectory registry with
          | .error _ => some .registry
          | .ok roots =>
              if command ∉ registeredCommands then some .command
              else requestRefusal roots command rest

/-- The command of the arguments, if it is one of registered-root mode. -/
def commandName (arguments : List OsStr) : Option Str :=
  (arguments.head?.bind fromUtf8).filter fun command => command ∈ registeredCommands

/-! ## Refusals -/

def Rule.failure : Rule → ModeFailure
  | .recording => .unavailable
  | .policy => .unavailable
  | .root => .rootNotRegistered
  | .oversized => .requestOversized
  | .dlp => .requestDlpRejected

/-- The output for a reason, which no text of the request takes part in. -/
def rejection (command : Option Str) : Refusal → CliResult
  | .missingCommand => .usage missingCommandError
  | .nonUtf8Command => .usage unknownCommandError
  | .registry => .operation (makeRegisteredModeError .registeredRootsInvalid)
  | .command => .usage (makeRegisteredModeError .unavailable)
  | .usage failure =>
      if command = some "check".toList ∧ failure = .invalidUtf8 then .usage unknownCommandError
      else .usage (errorEnvelope (command.getD []) failure.detail)
  | .rule rule => .usage (errorEnvelope (command.getD []) rule.failure.detail)

theorem parse_eq_error {canonicalDirectory : OsStr → Bool} {registry : OsStr}
    {failure : ModeFailure}
    (h : RegisteredRoots.parse canonicalDirectory registry = .error failure) :
    failure = .registeredRootsInvalid := by
  rw [RegisteredRoots.parse] at h
  split_ifs at h
  exact (Except.error.inj h).symm

section Admission

variable {registered : RegisteredRoots}

theorem admitRoot_eq (root : Str) :
    registered.admitRoot root =
      if registered.Registered root then .ok () else .error .rootNotRegistered := by
  rw [RegisteredRoots.admitRoot]
  refine ite_congr (propext ?_) (fun _ => rfl) fun _ => rfl
  rw [List.any_eq_true, RegisteredRoots.Registered]
  constructor
  · rintro ⟨entry, hentry, heq⟩
    exact of_decide_eq_true heq ▸ hentry
  · exact fun hmem => ⟨_, hmem, decide_eq_true rfl⟩

theorem forEach_admitRoot_eq (roots : List Str) :
    forEach registered.admitRoot roots =
      if ∃ root ∈ roots, ¬ registered.Registered root then .error .rootNotRegistered
      else .ok () := by
  induction roots with
  | nil => simp [forEach]
  | cons root rest ih =>
      rw [forEach, admitRoot_eq, ih]
      by_cases hroot : registered.Registered root
      · simp [hroot]
      · simp [hroot]
        rfl

theorem admitRegisteredRequest_eq (text : Str) :
    admitRegisteredRequest text =
      if byteLen text > maxRegisteredRequestBytes then .error .requestOversized
      else if isPublicDlpSafe text = false then .error .requestDlpRejected else .ok () := by
  rw [admitRegisteredRequest]
  cases isPublicDlpSafe text <;> rfl

/-- The admission of roots and a text finds the first broken rule. -/
theorem admit_eq {request : Request} (hrecord : request.record = false)
    (hpolicy : request.policyStdin = false) :
    (forEach registered.admitRoot request.roots >>= fun _ => admitRegisteredRequest request.text) =
      match request.firstBroken registered with
      | none => .ok ()
      | some rule => .error rule.failure := by
  rw [forEach_admitRoot_eq, admitRegisteredRequest_eq, Request.firstBroken]
  have hrecord' : ¬ request.Breaks registered .recording := by simp [Request.Breaks, hrecord]
  have hpolicy' : ¬ request.Breaks registered .policy := by simp [Request.Breaks, hpolicy]
  have hfind : ∀ rule rest, (rule :: rest).find? (fun rule =>
      decide (request.Breaks registered rule)) =
        if request.Breaks registered rule then some rule
        else rest.find? fun rule => decide (request.Breaks registered rule) := by
    intro rule rest
    rw [find?_cons]
    by_cases hbreaks : request.Breaks registered rule <;> simp [hbreaks]
  rw [hfind, if_neg hrecord', hfind, if_neg hpolicy', hfind]
  by_cases hroot : ∃ root ∈ request.roots, ¬ registered.Registered root
  · rw [if_pos hroot, if_pos (show request.Breaks registered .root from hroot)]
    rfl
  rw [if_neg hroot, if_neg (show ¬ request.Breaks registered .root from hroot), ok_bind, hfind]
  by_cases hsize : byteLen request.text > maxRegisteredRequestBytes
  · rw [if_pos hsize, if_pos (show request.Breaks registered .oversized from hsize)]
    rfl
  rw [if_neg hsize, if_neg (show ¬ request.Breaks registered .oversized from hsize), hfind]
  by_cases hdlp : isPublicDlpSafe request.text = false
  · rw [if_pos hdlp, if_pos (show request.Breaks registered .dlp from hdlp)]
    rfl
  rw [if_neg hdlp, if_neg (show ¬ request.Breaks registered .dlp from hdlp)]
  rfl

theorem admitQuery_eq (request : QueryRequest) :
    admitQuery registered request =
      match request.request.firstBroken registered with
      | none => .ok ()
      | some rule => .error rule.failure := by
  rw [admitQuery]
  cases hrecord : request.record with
  | true =>
      have hbroken : request.request.firstBroken registered = some .recording := by
        have hbreaks : request.request.Breaks registered .recording := hrecord
        rw [Request.firstBroken, find?_cons, decide_eq_true hbreaks]
      rw [hbroken]
      rfl
  | false =>
      rw [if_neg (by decide)]
      exact @admit_eq registered request.request hrecord rfl

theorem admitPacket_eq (request : PacketRequest) :
    admitPacket registered request =
      match request.request.firstBroken registered with
      | none => .ok ()
      | some rule => .error rule.failure := by
  rw [← @admit_eq registered request.request rfl rfl, admitPacket]
  show _ = (forEach registered.admitRoot [request.root] >>= _)
  rw [forEach, forEach]
  cases registered.admitRoot request.root <;> rfl

theorem admitRoot_eq_firstBroken (root profile : Str) :
    registered.admitRoot root =
      match (CheckRequest.ofRoot root profile).request.firstBroken registered with
      | none => .ok ()
      | some rule => .error rule.failure := by
  rw [← @admit_eq registered (CheckRequest.ofRoot root profile).request rfl rfl]
  show _ = (forEach registered.admitRoot [root] >>= fun _ => admitRegisteredRequest [])
  have htext : admitRegisteredRequest [] = .ok () := by decide
  rw [forEach, forEach, htext]
  cases registered.admitRoot root <;> rfl

end Admission

section Refused

variable {P : Type} {roots : RegisteredRoots} {arguments : List OsStr} {reason : Refusal}

theorem runQuery_refused (h : requestRefusal roots "query".toList arguments = some reason) :
    (runQuery (some roots) arguments : CliProgram P CliResult) =
      pure (rejection (some "query".toList) reason) := by
  rw [requestRefusal, readRequest, if_pos rfl] at h
  rw [runQuery]
  cases hread : readQuery arguments with
  | error failure =>
      rw [hread] at h
      obtain rfl := Option.some.inj h
      rw [rejection, if_neg fun hcheck => absurd hcheck.1 (by decide)]
      rfl
  | ok request =>
      rw [hread] at h
      obtain ⟨rule, hrule, rfl⟩ := map_eq_some_iff.mp h
      dsimp only [elim_some]
      rw [admitQuery_eq, hrule]
      rfl

theorem runPacket_refused (h : requestRefusal roots "packet".toList arguments = some reason) :
    (runPacket (some roots) arguments : CliProgram P CliResult) =
      pure (rejection (some "packet".toList) reason) := by
  rw [requestRefusal, readRequest, if_neg (by decide), if_pos rfl] at h
  rw [runPacket]
  cases hread : readPacket arguments with
  | error failure =>
      rw [hread] at h
      obtain rfl := Option.some.inj h
      rw [rejection, if_neg fun hcheck => absurd hcheck.1 (by decide)]
      rfl
  | ok request =>
      rw [hread] at h
      obtain ⟨rule, hrule, rfl⟩ := map_eq_some_iff.mp h
      dsimp only [elim_some]
      rw [admitPacket_eq, hrule]
      rfl

theorem readCheck_ne_invalidUtf8 {texts : List Str} : readCheck texts ≠ .error .invalidUtf8 := by
  intro h
  rw [readCheck.eq_def] at h
  dsimp only at h
  split_ifs at h with hflag
  · cases h
  · cases texts with
    | nil => cases h
    | cons first rest =>
        dsimp only at h
        split_ifs at h
        cases rest with
        | nil => cases h
        | cons profile rest => cases rest <;> cases h

theorem runCheck_refused (h : requestRefusal roots "check".toList arguments = some reason) :
    (runCheck (some roots) arguments : CliProgram P CliResult) =
      pure (rejection (some "check".toList) reason) := by
  rw [requestRefusal, readRequest, if_neg (by decide), if_neg (by decide)] at h
  rw [runCheck]
  cases hutf8 : arguments.mapM fromUtf8 with
  | none =>
      rw [hutf8] at h
      obtain rfl := Option.some.inj h
      rfl
  | some texts =>
      rw [hutf8] at h
      dsimp only at h ⊢
      cases hread : readCheck texts with
      | error failure =>
          rw [hread] at h
          obtain rfl := Option.some.inj h
          rw [rejection, if_neg fun hcheck => readCheck_ne_invalidUtf8 (hread.trans (by rw [hcheck.2]))]
          rfl
      | ok request =>
          rw [hread] at h
          obtain ⟨rule, hrule, rfl⟩ := map_eq_some_iff.mp h
          cases request with
          | policyStdin rest =>
              have hpolicy : (CheckRequest.policyStdin rest).request.firstBroken roots =
                  some .policy := rfl
              obtain rfl := Option.some.inj (hpolicy.symm.trans hrule)
              rfl
          | ofRoot root profile =>
              dsimp only [elim_some]
              rw [admitRoot_eq_firstBroken root profile, hrule]
              rfl

theorem runCommand_refused {command : Str} (hcommand : command ∈ registeredCommands)
    (h : requestRefusal roots command arguments = some reason) :
    (runCommand (some roots) command arguments : CliProgram P CliResult) =
      pure (rejection (some command) reason) := by
  rw [runCommand]
  rcases mem_cons.mp hcommand with rfl | hcommand
  · rw [if_neg (by decide), if_neg (by decide), if_pos rfl]
    exact runCheck_refused h
  rcases mem_cons.mp hcommand with rfl | hcommand
  · rw [if_pos rfl]
    exact runQuery_refused h
  · obtain rfl := mem_singleton.mp hcommand
    rw [if_neg (by decide), if_pos rfl]
    exact runPacket_refused h

end Refused

/-- A request that is refused is answered at once, from its command and the reason. -/
theorem runInner_refused {P : Type} {canonicalDirectory : OsStr → Bool} {registry : OsStr}
    {arguments : List OsStr} {reason : Refusal}
    (h : refusal canonicalDirectory registry arguments = some reason) :
    (runInner canonicalDirectory arguments (some registry) : CliProgram P CliResult) =
      pure (rejection (commandName arguments) reason) := by
  cases arguments with
  | nil =>
      obtain rfl := Option.some.inj h
      rfl
  | cons first rest =>
      rw [refusal] at h
      rw [runInner, commandName, head?_cons, bind_some]
      cases hfirst : fromUtf8 first with
      | none =>
          rw [hfirst] at h
          obtain rfl := Option.some.inj h
          rfl
      | some command =>
          rw [hfirst] at h
          dsimp only at h ⊢
          cases hparse : RegisteredRoots.parse canonicalDirectory registry with
          | error failure =>
              rw [hparse] at h
              obtain rfl := Option.some.inj h
              rw [parse_eq_error hparse]
              rfl
          | ok roots =>
              rw [hparse] at h
              dsimp only at h ⊢
              split_ifs at h ⊢ with hcommand
              · rw [runCommand_refused hcommand h]
                have hname : (some command).filter (fun command =>
                    decide (command ∈ registeredCommands)) = some command := by
                  rw [filter_some, if_pos (decide_eq_true hcommand)]
                rw [hname]
              · obtain rfl := Option.some.inj h
                rfl

/-! ## Confinement -/

/-- A text that may be asked with. -/
def Fits (text : Str) : Prop :=
  byteLen text ≤ maxRegisteredRequestBytes ∧ isPublicDlpSafe text = true

/-- A call of a run with registered roots: it names registered roots only, it does not record, its
text fits, and a policy was loaded from the root that it is for. -/
def Confined {P : Type} (registered : RegisteredRoots) (trace : List (Event (CliCall P) CliAnswer)) :
    CliCall P → Prop
  | .sourceRevision root => registered.Registered root
  | .doQuery root text record => registered.Registered root ∧ record = false ∧ Fits text
  | .doQueryMulti roots text record =>
      (∀ root ∈ roots, registered.Registered root) ∧ record = false ∧ Fits text
  | .doPacket root text _ => registered.Registered root ∧ Fits text
  | .loadPolicy root => registered.Registered root
  | .doCheck root _ policy source => registered.Registered root ∧
      source = "repository-file".toList ∧ ∃ event ∈ trace, event = ⟨.loadPolicy root, .ok policy⟩
  | .policyFromStdin => False
  | .other _ _ => False

section Confinement

variable {P : Type} {roots : RegisteredRoots} {trace : List (Event (CliCall P) CliAnswer)}

theorem asksOnly_revisionEntries {A : CliCall P → Prop} (names : List Str)
    (h : ∀ root ∈ names, A (.sourceRevision root)) :
    AsksOnly A (revisionEntries names : CliProgram P (List Str)) := by
  induction names with
  | nil => exact asksOnly_pure
  | cons root rest ih =>
      obtain ⟨hroot, hrest⟩ := forall_mem_cons.mp h
      exact asksOnly_call_bind hroot fun _ => asksOnly_bind (ih hrest) fun _ => asksOnly_pure

theorem asksOnly_sourceRevisions {A : CliCall P → Prop} (registered : Option RegisteredRoots)
    (names : List Str) (h : ∀ root ∈ names, A (.sourceRevision root)) :
    AsksOnly A (sourceRevisions registered names : CliProgram P (Option Str)) := by
  cases registered with
  | none => exact asksOnly_pure
  | some roots => exact asksOnly_bind (asksOnly_revisionEntries names h) fun _ => asksOnly_pure

theorem fits_of_not_breaks {request : Request} (hsize : ¬ request.Breaks roots .oversized)
    (hdlp : ¬ request.Breaks roots .dlp) : Fits request.text :=
  ⟨not_lt.mp hsize, by simpa [Request.Breaks] using hdlp⟩

theorem registered_of_not_breaks {request : Request} (h : ¬ request.Breaks roots .root) :
    ∀ root ∈ request.roots, roots.Registered root := by
  intro root hroot
  by_contra hregistered
  exact h ⟨root, hroot, hregistered⟩

theorem runQuery_confined {arguments : List OsStr}
    (h : requestRefusal roots "query".toList arguments = none) :
    AsksOnly (Confined roots trace) (runQuery (some roots) arguments : CliProgram P CliResult) := by
  rw [requestRefusal, readRequest, if_pos rfl] at h
  rw [runQuery]
  cases hread : readQuery arguments with
  | error failure => exact asksOnly_pure
  | ok request =>
      rw [hread] at h
      have hnone := map_eq_none_iff.mp h
      have hkept := firstBroken_eq_none_iff.mp hnone
      have hroots : ∀ root ∈ request.root :: request.added, roots.Registered root :=
        registered_of_not_breaks (hkept .root)
      have hrecord : request.record = false := Bool.eq_false_iff.mpr (hkept .recording)
      have hfits : Fits request.text := fits_of_not_breaks (hkept .oversized) (hkept .dlp)
      dsimp only [elim_some]
      rw [admitQuery_eq, hnone]
      refine asksOnly_bind (asksOnly_sourceRevisions _ _ hroots) fun revisions => ?_
      refine asksOnly_bind ?_ fun answer => ?_
      · rw [askQuery]
        split_ifs
        · exact asksOnly_call ⟨hroots _ mem_cons_self, hrecord, hfits⟩
        · exact asksOnly_call ⟨hroots, hrecord, hfits⟩
      · cases answer <;> exact asksOnly_pure

theorem runPacket_confined {arguments : List OsStr}
    (h : requestRefusal roots "packet".toList arguments = none) :
    AsksOnly (Confined roots trace)
      (runPacket (some roots) arguments : CliProgram P CliResult) := by
  rw [requestRefusal, readRequest, if_neg (by decide), if_pos rfl] at h
  rw [runPacket]
  cases hread : readPacket arguments with
  | error failure => exact asksOnly_pure
  | ok request =>
      rw [hread] at h
      have hnone := map_eq_none_iff.mp h
      have hkept := firstBroken_eq_none_iff.mp hnone
      have hroots : ∀ root ∈ [request.root], roots.Registered root :=
        registered_of_not_breaks (hkept .root)
      have hfits : Fits request.text := fits_of_not_breaks (hkept .oversized) (hkept .dlp)
      dsimp only [elim_some]
      rw [admitPacket_eq, hnone]
      refine asksOnly_bind (asksOnly_sourceRevisions _ _ hroots) fun revisions => ?_
      refine asksOnly_call_bind ⟨hroots _ mem_cons_self, hfits⟩ fun answer => ?_
      cases answer <;> exact asksOnly_pure

/-- The end of a check keeps to its root, once its policy was loaded. -/
theorem finishCheck_confined {root profile : Str} {policy : P} (hroot : roots.Registered root)
    (hloaded : ∃ event ∈ trace, event = ⟨.loadPolicy root, .ok policy⟩) :
    AsksOnly (Confined roots trace) (finishCheck (some roots) root profile policy
      "repository-file".toList : CliProgram P CliResult) := by
  refine asksOnly_bind (asksOnly_sourceRevisions _ _ (forall_mem_singleton.mpr hroot))
    fun revisions => ?_
  refine asksOnly_call_bind ⟨hroot, rfl, hloaded⟩ fun answer => ?_
  cases answer <;> exact asksOnly_pure

theorem checkWithFile_confined {root profile : Str} (hroot : roots.Registered root)
    {outcome : Except Empty CliResult}
    (h : Runs (checkWithFile (some roots) root profile : CliProgram P CliResult) trace outcome) :
    ∀ event ∈ trace, Confined roots trace event.1 := by
  obtain ⟨answer, rest, htrace, hrest⟩ := runs_ask.mp h
  intro event hevent
  rcases mem_cons.mp (htrace ▸ hevent) with rfl | hevent
  · exact hroot
  · cases answer with
    | error detail =>
        have hasks : AsksOnly (Confined roots trace) (sourceRevisions (some roots) [root] >>=
            fun revisions => pure (.usage (operationError "check".toList detail revisions)) :
              CliProgram P CliResult) :=
          asksOnly_bind (asksOnly_sourceRevisions _ _ (forall_mem_singleton.mpr hroot))
            fun _ => asksOnly_pure
        exact hasks rest outcome hrest event hevent
    | ok policy =>
        have hloaded : ∃ event ∈ trace, event = ⟨.loadPolicy root, .ok policy⟩ :=
          ⟨_, htrace ▸ mem_cons_self, rfl⟩
        exact finishCheck_confined hroot hloaded rest outcome hrest event hevent

theorem runCheck_confined {arguments : List OsStr}
    (h : requestRefusal roots "check".toList arguments = none) {outcome : Except Empty CliResult}
    (hrun : Runs (runCheck (some roots) arguments : CliProgram P CliResult) trace outcome) :
    ∀ event ∈ trace, Confined roots trace event.1 := by
  rw [requestRefusal, readRequest, if_neg (by decide), if_neg (by decide)] at h
  rw [runCheck] at hrun
  cases hutf8 : arguments.mapM fromUtf8 with
  | none =>
      rw [hutf8] at h
      cases h
  | some texts =>
      rw [hutf8] at h hrun
      dsimp only at h hrun
      cases hread : readCheck texts with
      | error failure =>
          rw [hread] at h
          cases h
      | ok request =>
          rw [hread] at h hrun
          have hnone := map_eq_none_iff.mp h
          have hkept := firstBroken_eq_none_iff.mp hnone
          cases request with
          | policyStdin rest => exact absurd rfl (hkept .policy)
          | ofRoot root profile =>
              have hroot := registered_of_not_breaks (hkept .root) root mem_cons_self
              dsimp only [elim_some] at hrun
              rw [admitRoot_eq_firstBroken root profile, hnone] at hrun
              exact checkWithFile_confined hroot hrun

end Confinement

/-- Every call of a request that is not refused is confined. -/
theorem runInner_confined {P : Type} {canonicalDirectory : OsStr → Bool} {registry : OsStr}
    {arguments : List OsStr} (h : refusal canonicalDirectory registry arguments = none)
    {trace : List (Event (CliCall P) CliAnswer)} {outcome : Except Empty CliResult}
    (hrun : Runs (runInner canonicalDirectory arguments (some registry)) trace outcome) :
    ∃ roots, RegisteredRoots.parse canonicalDirectory registry = .ok roots ∧
      ∀ event ∈ trace, Confined roots trace event.1 := by
  cases arguments with
  | nil => cases h
  | cons first rest =>
      rw [refusal] at h
      rw [runInner] at hrun
      cases hfirst : fromUtf8 first with
      | none =>
          rw [hfirst] at h
          cases h
      | some command =>
          rw [hfirst] at h hrun
          dsimp only at h hrun
          cases hparse : RegisteredRoots.parse canonicalDirectory registry with
          | error failure =>
              rw [hparse] at h
              cases h
          | ok roots =>
              rw [hparse] at h hrun
              dsimp only at h hrun
              split_ifs at h hrun with hcommand
              refine ⟨roots, rfl, ?_⟩
              rw [runCommand] at hrun
              rcases mem_cons.mp hcommand with rfl | hcommand
              · rw [if_neg (by decide), if_neg (by decide), if_pos rfl] at hrun
                exact runCheck_confined h hrun
              rcases mem_cons.mp hcommand with rfl | hcommand
              · rw [if_pos rfl] at hrun
                exact runQuery_confined h trace outcome hrun
              · obtain rfl := mem_singleton.mp hcommand
                rw [if_neg (by decide), if_pos rfl] at hrun
                exact runPacket_confined h trace outcome hrun

/-- A request breaks a rule of registered-root mode: its registry does not parse, its command is
not one of the mode, or what it asks for breaks a rule. -/
def BreaksMode (canonicalDirectory : OsStr → Bool) (registry : OsStr) (arguments : List OsStr) :
    Prop :=
  RegisteredRoots.parse canonicalDirectory registry = .error .registeredRootsInvalid ∨
    commandName arguments = none ∨
    ∃ roots command request rule, RegisteredRoots.parse canonicalDirectory registry = .ok roots ∧
      commandName arguments = some command ∧ readRequest command arguments.tail = .ok request ∧
      request.Breaks roots rule

theorem commandName_cons {first : OsStr} {rest : List OsStr} {command : Str}
    (h : fromUtf8 first = some command) :
    commandName (first :: rest) = if command ∈ registeredCommands then some command else none := by
  rw [commandName, head?_cons, bind_some, h, filter_some]
  simp only [decide_eq_true_eq]

/-- A request that breaks a rule is refused. -/
theorem refusal_of_breaksMode {canonicalDirectory : OsStr → Bool} {registry : OsStr}
    {arguments : List OsStr} (h : BreaksMode canonicalDirectory registry arguments) :
    ∃ reason, refusal canonicalDirectory registry arguments = some reason := by
  cases arguments with
  | nil => exact ⟨_, rfl⟩
  | cons first rest =>
      rw [refusal]
      cases hfirst : fromUtf8 first with
      | none => exact ⟨_, rfl⟩
      | some command =>
          dsimp only
          rw [BreaksMode, commandName_cons hfirst] at h
          cases hparse : RegisteredRoots.parse canonicalDirectory registry with
          | error failure => exact ⟨_, rfl⟩
          | ok roots =>
              dsimp only
              by_cases hcommand : command ∈ registeredCommands
              · rw [if_pos hcommand] at h
                rw [if_neg (not_not.mpr hcommand)]
                rcases h with hfailed | hnone | ⟨roots', command', request, rule, hroots, hname,
                  hread, hbreaks⟩
                · rw [hparse] at hfailed
                  cases hfailed
                · cases hnone
                · obtain rfl := Except.ok.inj (hparse.symm.trans hroots)
                  obtain rfl := Option.some.inj hname
                  rw [tail_cons] at hread
                  rw [requestRefusal, hread]
                  dsimp only
                  cases hbroken : request.firstBroken roots with
                  | none => exact absurd hbreaks (firstBroken_eq_none_iff.mp hbroken rule)
                  | some first => exact ⟨_, rfl⟩
              · exact ⟨_, if_pos hcommand⟩

end Bran.Cli
