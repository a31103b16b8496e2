import Bran.Library.Validation

/-!
# Programs over calls

A `Program` makes calls, goes on with what they answer, and ends with a result or an error.  `Runs`
says what a program can do when every call may be answered by anything, and `through` makes a
program over other calls of it, where every call is itself a program.
-/

universe u

/-- A program that makes calls and goes on with their answers. -/
inductive Program (A : Type) (Answer : A → Type) (ε α : Type) where
  | done (result : α)
  | fail (error : ε)
  | ask (call : A) (next : Answer call → Program A Answer ε α)

namespace Program

open List Validation

variable {A : Type} {Answer : A → Type} {ε ε' α β : Type}

/-- One program after another. -/
def bind : Program A Answer ε α → (α → Program A Answer ε β) → Program A Answer ε β
  | .done result, next => next result
  | .fail error, _ => .fail error
  | .ask call rest, next => .ask call fun answer => (rest answer).bind next

instance : Monad (Program A Answer ε) where
  pure := .done
  bind := bind

def call (a : A) : Program A Answer ε (Answer a) := .ask a .done

/-- The outcome of a computation without calls. -/
def ofExcept : Except ε α → Program A Answer ε α
  | .ok result => .done result
  | .error error => .fail error

/-- The outcome of a program, passed through a function. -/
def conclude (f : Except ε α → Except ε' β) : Program A Answer ε α → Program A Answer ε' β
  | .done result => ofExcept (f (.ok result))
  | .fail error => ofExcept (f (.error error))
  | .ask call next => .ask call fun answer => (next answer).conclude f

/-- `?` on an `Option`. -/
def ofOption (value : Option α) : Program A Answer Unit α :=
  match value with
  | some result => .done result
  | none => .fail ()

/-! ## Runs -/

/-- A call with its answer. -/
abbrev Event (A : Type) (Answer : A → Type) := Sigma Answer

/-- What a program can do when its calls are answered by anything. -/
inductive Runs : Program A Answer ε α → List (Event A Answer) → Except ε α → Prop
  | done (result : α) : Runs (.done result) [] (.ok result)
  | fail (error : ε) : Runs (.fail error) [] (.error error)
  | ask {call : A} {next : Answer call → Program A Answer ε α} {answer : Answer call}
      {trace : List (Event A Answer)} {outcome : Except ε α}
      (h : Runs (next answer) trace outcome) : Runs (.ask call next) (⟨call, answer⟩ :: trace) outcome

variable {trace : List (Event A Answer)} {outcome : Except ε α}

theorem runs_pure {result : α} :
    Runs (pure result : Program A Answer ε α) trace outcome ↔ trace = [] ∧ outcome = .ok result := by
  constructor
  · intro h
    cases h
    exact ⟨rfl, rfl⟩
  · intro h
    obtain ⟨rfl, rfl⟩ := h
    exact .done result

theorem runs_fail {error : ε} :
    Runs (.fail error : Program A Answer ε α) trace outcome ↔
      trace = [] ∧ outcome = .error error := by
  constructor
  · intro h
    cases h
    exact ⟨rfl, rfl⟩
  · intro h
    obtain ⟨rfl, rfl⟩ := h
    exact .fail error

theorem runs_ask {call : A} {next : Answer call → Program A Answer ε α} :
    Runs (.ask call next) trace outcome ↔
      ∃ answer rest, trace = ⟨call, answer⟩ :: rest ∧ Runs (next answer) rest outcome := by
  constructor
  · intro h
    cases h with
    | ask h => exact ⟨_, _, rfl, h⟩
  · intro h
    obtain ⟨answer, rest, rfl, h⟩ := h
    exact .ask h

theorem runs_call {a : A} {outcome : Except ε (Answer a)} :
    Runs (call a : Program A Answer ε (Answer a)) trace outcome ↔
      ∃ answer, trace = [⟨a, answer⟩] ∧ outcome = .ok answer := by
  rw [call, runs_ask]
  constructor
  · intro h
    obtain ⟨answer, rest, rfl, h⟩ := h
    obtain ⟨rfl, rfl⟩ := runs_pure.mp h
    exact ⟨answer, rfl, rfl⟩
  · intro h
    obtain ⟨answer, rfl, rfl⟩ := h
    exact ⟨answer, [], rfl, .done answer⟩

theorem runs_ofExcept {computed : Except ε α} :
    Runs (ofExcept computed : Program A Answer ε α) trace outcome ↔
      trace = [] ∧ outcome = computed := by
  cases computed with
  | ok result => exact runs_pure
  | error error => exact runs_fail

/-- A sequence ends with an error of its beginning or goes on after it. -/
theorem runs_bind {first : Program A Answer ε α} {next : α → Program A Answer ε β}
    {outcome : Except ε β} : Runs (first >>= next) trace outcome ↔
      (∃ error, Runs first trace (.error error) ∧ outcome = .error error) ∨
        ∃ before result after, trace = before ++ after ∧ Runs first before (.ok result) ∧
          Runs (next result) after outcome := by
  change Runs (first.bind next) trace outcome ↔ _
  induction first generalizing trace with
  | done result =>
      constructor
      · intro h
        exact .inr ⟨[], result, trace, rfl, .done result, h⟩
      · intro h
        rcases h with ⟨error, h, _⟩ | ⟨before, result', after, rfl, h, hnext⟩
        · cases h
        · cases h
          exact hnext
  | fail error =>
      constructor
      · intro h
        obtain ⟨rfl, rfl⟩ := runs_fail.mp h
        exact .inl ⟨error, .fail error, rfl⟩
      · intro h
        rcases h with ⟨error', h, rfl⟩ | ⟨before, result', after, rfl, h, _⟩
        · cases h
          exact .fail error
        · cases h
  | ask call rest ih =>
      constructor
      · intro h
        obtain ⟨answer, tail, rfl, htail⟩ := runs_ask.mp h
        rcases (ih answer).mp htail with ⟨error, hrest, rfl⟩ |
          ⟨before, result, after, rfl, hrest, hnext⟩
        · exact .inl ⟨error, .ask hrest, rfl⟩
        · exact .inr ⟨_, result, after, rfl, .ask hrest, hnext⟩
      · intro h
        rcases h with ⟨error, hfirst, rfl⟩ | ⟨before, result, after, rfl, hfirst, hnext⟩
        · obtain ⟨answer, tail, rfl, hrest⟩ := runs_ask.mp hfirst
          exact .ask ((ih answer).mpr (.inl ⟨error, hrest, rfl⟩))
        · obtain ⟨answer, tail, rfl, hrest⟩ := runs_ask.mp hfirst
          exact .ask ((ih answer).mpr (.inr ⟨tail, result, after, rfl, hrest, hnext⟩))

theorem runs_bind_ok {first : Program A Answer ε α} {next : α → Program A Answer ε β} {result : β} :
    Runs (first >>= next) trace (.ok result) ↔
      ∃ before middle after, trace = before ++ after ∧ Runs first before (.ok middle) ∧
        Runs (next middle) after (.ok result) := by
  rw [runs_bind]
  constructor
  · intro h
    rcases h with ⟨error, _, herror⟩ | h
    · cases herror
    · exact h
  · intro h
    exact .inr h

theorem runs_conclude {f : Except ε α → Except ε' β} {program : Program A Answer ε α}
    {outcome : Except ε' β} : Runs (program.conclude f) trace outcome ↔
      ∃ ended, Runs program trace ended ∧ outcome = f ended := by
  induction program generalizing trace with
  | done result =>
      rw [conclude, runs_ofExcept]
      constructor
      · intro h
        obtain ⟨rfl, rfl⟩ := h
        exact ⟨_, .done result, rfl⟩
      · intro h
        obtain ⟨ended, h, rfl⟩ := h
        cases h
        exact ⟨rfl, rfl⟩
  | fail error =>
      rw [conclude, runs_ofExcept]
      constructor
      · intro h
        obtain ⟨rfl, rfl⟩ := h
        exact ⟨_, .fail error, rfl⟩
      · intro h
        obtain ⟨ended, h, rfl⟩ := h
        cases h
        exact ⟨rfl, rfl⟩
  | ask call next ih =>
      rw [conclude, runs_ask]
      constructor
      · intro h
        obtain ⟨answer, rest, rfl, hrest⟩ := h
        obtain ⟨ended, hended, rfl⟩ := (ih answer).mp hrest
        exact ⟨ended, .ask hended, rfl⟩
      · intro h
        obtain ⟨ended, hended, rfl⟩ := h
        obtain ⟨answer, rest, rfl, hrest⟩ := runs_ask.mp hended
        exact ⟨answer, rest, rfl, (ih answer).mpr ⟨ended, hrest, rfl⟩⟩

theorem runs_ofOption_ok {value : Option α} {result : α} :
    Runs (ofOption value : Program A Answer Unit α) trace (.ok result) ↔
      trace = [] ∧ value = some result := by
  cases value with
  | none =>
      constructor
      · intro h
        cases h
      · intro h
        cases h.2
  | some found =>
      constructor
      · intro h
        cases h
        exact ⟨rfl, rfl⟩
      · intro h
        obtain ⟨rfl, hvalue⟩ := h
        rw [hvalue]
        exact .done result

theorem runs_call_bind_ok {a : A} {next : Answer a → Program A Answer ε β} {result : β} :
    Runs (call a >>= next) trace (.ok result) ↔
      ∃ answer rest, trace = ⟨a, answer⟩ :: rest ∧ Runs (next answer) rest (.ok result) :=
  runs_ask

theorem runs_ofExcept_bind_ok {computed : Except ε α} {next : α → Program A Answer ε β}
    {result : β} : Runs (ofExcept computed >>= next) trace (.ok result) ↔
      ∃ value, computed = .ok value ∧ Runs (next value) trace (.ok result) := by
  rw [runs_bind_ok]
  constructor
  · intro h
    obtain ⟨before, value, after, rfl, hcomputed, hnext⟩ := h
    obtain ⟨rfl, hvalue⟩ := runs_ofExcept.mp hcomputed
    exact ⟨value, hvalue.symm, hnext⟩
  · intro h
    obtain ⟨value, hvalue, hnext⟩ := h
    exact ⟨[], value, trace, rfl, runs_ofExcept.mpr ⟨rfl, hvalue.symm⟩, hnext⟩

theorem runs_failIf_bind_ok {condition : Prop} [Decidable condition] {error : ε}
    {next : Unit → Program A Answer ε β} {result : β} :
    Runs (ofExcept (failIf condition error) >>= next) trace (.ok result) ↔
      ¬ condition ∧ Runs (next ()) trace (.ok result) := by
  rw [runs_ofExcept_bind_ok]
  constructor
  · intro h
    obtain ⟨value, hvalue, hnext⟩ := h
    exact ⟨failIf_eq_ok_iff.mp hvalue, hnext⟩
  · intro h
    exact ⟨(), failIf_eq_ok_iff.mpr h.1, h.2⟩

theorem runs_conclude_mapError_ok {program : Program A Answer ε α} {f : ε → ε'} {result : α} :
    Runs (program.conclude fun outcome => outcome.mapError f) trace (.ok result) ↔
      Runs program trace (.ok result) := by
  rw [runs_conclude]
  constructor
  · intro h
    obtain ⟨ended, hended, hresult⟩ := h
    cases ended with
    | error error => cases hresult
    | ok value =>
        cases hresult
        exact hended
  · intro h
    exact ⟨.ok result, h, rfl⟩

theorem runs_ofOption_bind_ok {value : Option α} {next : α → Program A Answer Unit β}
    {result : β} : Runs (ofOption value >>= next) trace (.ok result) ↔
      ∃ found, value = some found ∧ Runs (next found) trace (.ok result) := by
  rw [runs_bind_ok]
  constructor
  · intro h
    obtain ⟨before, found, after, rfl, hvalue, hnext⟩ := h
    obtain ⟨rfl, hfound⟩ := runs_ofOption_ok.mp hvalue
    exact ⟨found, hfound, hnext⟩
  · intro h
    obtain ⟨found, hfound, hnext⟩ := h
    exact ⟨[], found, trace, rfl, runs_ofOption_ok.mpr ⟨rfl, hfound⟩, hnext⟩

/-! ## Errors -/

/-- What the errors of a program satisfy, in the runs whose events satisfy `E`. -/
def FailsWith (E : Event A Answer → Prop) (P : ε → Prop) (program : Program A Answer ε α) : Prop :=
  ∀ trace error, (∀ event ∈ trace, E event) → Runs program trace (.error error) → P error

section FailsWith

variable {E : Event A Answer → Prop} {P : ε → Prop}

theorem failsWith_pure {result : α} : FailsWith E P (pure result : Program A Answer ε α) := by
  intro trace error _ h
  obtain ⟨_, h⟩ := runs_pure.mp h
  cases h

theorem failsWith_ofExcept {computed : Except ε α}
    (h : ∀ error, computed = .error error → P error) :
    FailsWith E P (ofExcept computed : Program A Answer ε α) := by
  intro trace error _ hruns
  exact h error (runs_ofExcept.mp hruns).2.symm

theorem failsWith_bind {first : Program A Answer ε α} {next : α → Program A Answer ε β}
    (hfirst : FailsWith E P first)
    (hnext : ∀ trace result, (∀ event ∈ trace, E event) → Runs first trace (.ok result) →
      FailsWith E P (next result)) :
    FailsWith E P (first >>= next) := by
  intro trace error hevents h
  rcases runs_bind.mp h with ⟨failure, hruns, herror⟩ | ⟨before, result, after, rfl, hruns, hrest⟩
  · cases herror
    exact hfirst trace error hevents hruns
  · exact hnext before result
      (fun event hevent => hevents event (mem_append_left _ hevent)) hruns after error
      (fun event hevent => hevents event (mem_append_right _ hevent)) hrest

theorem failsWith_call_bind {a : A} {next : Answer a → Program A Answer ε β}
    (h : ∀ answer, E ⟨a, answer⟩ → FailsWith E P (next answer)) :
    FailsWith E P (call a >>= next) := by
  intro trace error hevents hruns
  obtain ⟨answer, rest, rfl, hrest⟩ := runs_ask.mp hruns
  exact h answer (hevents _ mem_cons_self) rest error
    (fun event hevent => hevents event (mem_cons_of_mem _ hevent)) hrest

theorem failsWith_ofExcept_bind {computed : Except ε α} {next : α → Program A Answer ε β}
    (herror : ∀ error, computed = .error error → P error)
    (hnext : ∀ value, computed = .ok value → FailsWith E P (next value)) :
    FailsWith E P (ofExcept computed >>= next) :=
  failsWith_bind (failsWith_ofExcept herror) fun _ value _ h =>
    hnext value (runs_ofExcept.mp h).2.symm

theorem failsWith_failIf_bind {condition : Prop} [Decidable condition] {error : ε}
    {next : Unit → Program A Answer ε β} (herror : P error)
    (hnext : ¬ condition → FailsWith E P (next ())) :
    FailsWith E P (ofExcept (failIf condition error) >>= next) := by
  refine failsWith_ofExcept_bind (fun failure h => ?_) fun _ h =>
    hnext (failIf_eq_ok_iff.mp h)
  rw [failIf_eq_error_iff] at h
  rw [h.2]
  exact herror

theorem failsWith_conclude_mapError {program : Program A Answer ε' α} {f : ε' → ε}
    (h : ∀ error, P (f error)) :
    FailsWith E P (program.conclude fun outcome => outcome.mapError f) := by
  intro trace error _ hruns
  obtain ⟨ended, _, herror⟩ := runs_conclude.mp hruns
  cases ended with
  | error failure =>
      cases herror
      exact h failure
  | ok value => cases herror

end FailsWith

/-! ## Calls -/

/-- The calls of a program in every run satisfy `P`. -/
def AsksOnly (P : A → Prop) (program : Program A Answer ε α) : Prop :=
  ∀ trace outcome, Runs program trace outcome → ∀ event ∈ trace, P event.1

section AsksOnly

variable {P : A → Prop}

theorem asksOnly_pure {result : α} : AsksOnly P (pure result : Program A Answer ε α) := by
  intro trace outcome h event hevent
  rw [(runs_pure.mp h).1] at hevent
  cases hevent

theorem asksOnly_ofExcept {computed : Except ε α} :
    AsksOnly P (ofExcept computed : Program A Answer ε α) := by
  intro trace outcome h event hevent
  rw [(runs_ofExcept.mp h).1] at hevent
  cases hevent

theorem asksOnly_ofOption {value : Option α} :
    AsksOnly P (ofOption value : Program A Answer Unit α) := by
  intro trace outcome h event hevent
  cases value with
  | none =>
      rw [(runs_fail.mp h).1] at hevent
      cases hevent
  | some result =>
      rw [(runs_pure.mp h).1] at hevent
      cases hevent

theorem asksOnly_bind {first : Program A Answer ε α} {next : α → Program A Answer ε β}
    (hfirst : AsksOnly P first) (hnext : ∀ result, AsksOnly P (next result)) :
    AsksOnly P (first >>= next) := by
  intro trace outcome h event hevent
  rcases runs_bind.mp h with ⟨failure, hruns, _⟩ | ⟨before, result, after, rfl, hruns, hrest⟩
  · exact hfirst trace _ hruns event hevent
  · rcases mem_append.mp hevent with hevent | hevent
    · exact hfirst before _ hruns event hevent
    · exact hnext result after outcome hrest event hevent

theorem asksOnly_call_bind {a : A} {next : Answer a → Program A Answer ε β} (ha : P a)
    (hnext : ∀ answer, AsksOnly P (next answer)) : AsksOnly P (call a >>= next) := by
  intro trace outcome h event hevent
  obtain ⟨answer, rest, rfl, hrest⟩ := runs_ask.mp h
  rcases mem_cons.mp hevent with rfl | hevent
  · exact ha
  · exact hnext answer rest outcome hrest event hevent

theorem asksOnly_call {a : A} (ha : P a) :
    AsksOnly P (call a : Program A Answer ε (Answer a)) := by
  intro trace outcome h event hevent
  obtain ⟨answer, rfl, _⟩ := runs_call.mp h
  rw [mem_singleton.mp hevent]
  exact ha

theorem asksOnly_conclude {program : Program A Answer ε α} {f : Except ε α → Except ε' β}
    (h : AsksOnly P program) : AsksOnly P (program.conclude f) := by
  intro trace outcome hruns event hevent
  obtain ⟨ended, hended, _⟩ := runs_conclude.mp hruns
  exact h trace ended hended event hevent

theorem AsksOnly.mono {Q : A → Prop} {program : Program A Answer ε α} (h : AsksOnly P program)
    (hPQ : ∀ call, P call → Q call) : AsksOnly Q program := by
  intro trace outcome hruns event hevent
  exact hPQ _ (h trace outcome hruns event hevent)

end AsksOnly

/-! ## Counted calls -/

/-- The events whose call satisfies `counts`. -/
def countOf (counts : A → Bool) (trace : List (Event A Answer)) : ℕ :=
  trace.countP fun event => counts event.1

/-- In every run at most `limit` calls satisfy `counts`. -/
def AsksAtMost (counts : A → Bool) (limit : ℕ) (program : Program A Answer ε α) : Prop :=
  ∀ trace outcome, Runs program trace outcome → countOf counts trace ≤ limit

section Counted

variable {counts : A → Bool} {limit limit' : ℕ}

@[simp] theorem countOf_nil : countOf counts ([] : List (Event A Answer)) = 0 := rfl

@[simp] theorem countOf_append (first second : List (Event A Answer)) :
    countOf counts (first ++ second) = countOf counts first + countOf counts second :=
  countP_append

theorem countOf_cons (event : Event A Answer) (rest : List (Event A Answer)) :
    countOf counts (event :: rest) = countOf counts rest + if counts event.1 then 1 else 0 :=
  countP_cons

theorem countOf_eq_zero {trace : List (Event A Answer)} :
    countOf counts trace = 0 ↔ ∀ event ∈ trace, counts event.1 = false := by
  rw [countOf, countP_eq_zero]
  simp

theorem AsksOnly.atMost {program : Program A Answer ε α}
    (h : AsksOnly (fun call => counts call = false) program) : AsksAtMost counts 0 program := by
  intro trace outcome hruns
  exact (countOf_eq_zero.mpr (h trace outcome hruns)).le

theorem asksAtMost_bind {first : Program A Answer ε α} {next : α → Program A Answer ε β}
    (hfirst : AsksAtMost counts limit first)
    (hnext : ∀ result, AsksAtMost counts limit' (next result)) :
    AsksAtMost counts (limit + limit') (first >>= next) := by
  intro trace outcome h
  rcases runs_bind.mp h with ⟨failure, hruns, _⟩ | ⟨before, result, after, rfl, hruns, hrest⟩
  · exact (hfirst trace _ hruns).trans (Nat.le_add_right _ _)
  · rw [countOf_append]
    exact Nat.add_le_add (hfirst before _ hruns) (hnext result after outcome hrest)

/-- Calls that are not counted, before a program. -/
theorem AsksOnly.bind_atMost {first : Program A Answer ε α} {next : α → Program A Answer ε β}
    (hfirst : AsksOnly (fun call => counts call = false) first)
    (hnext : ∀ result, AsksAtMost counts limit (next result)) :
    AsksAtMost counts limit (first >>= next) := by
  have h := asksAtMost_bind hfirst.atMost hnext
  rwa [Nat.zero_add] at h

theorem asksAtMost_call_bind {a : A} {next : Answer a → Program A Answer ε β} {cost : ℕ}
    (hcost : (if counts a then 1 else 0) ≤ cost)
    (hnext : ∀ answer, AsksAtMost counts limit (next answer)) :
    AsksAtMost counts (cost + limit) (call a >>= next) := by
  intro trace outcome h
  obtain ⟨answer, rest, rfl, hrest⟩ := runs_ask.mp h
  rw [countOf_cons, Nat.add_comm]
  exact Nat.add_le_add hcost (hnext answer rest outcome hrest)

theorem asksAtMost_conclude {program : Program A Answer ε α} {f : Except ε α → Except ε' β}
    (h : AsksAtMost counts limit program) : AsksAtMost counts limit (program.conclude f) := by
  intro trace outcome hruns
  obtain ⟨ended, hended, _⟩ := runs_conclude.mp hruns
  exact h trace ended hended

end Counted

/-! ## Calls that are programs -/

section Through

variable {B : Type} {AnswerB : B → Type}

/-- The program with a program in the place of every call. -/
def through (handler : (a : A) → Program B AnswerB ε (Answer a)) :
    Program A Answer ε α → Program B AnswerB ε α
  | .done result => .done result
  | .fail error => .fail error
  | .ask call next => (handler call).bind fun answer => (next answer).through handler

/-- The events of the calls that are made in the place of others. -/
inductive Through (handler : (a : A) → Program B AnswerB ε (Answer a)) :
    List (Event A Answer) → List (Event B AnswerB) → Prop
  | nil : Through handler [] []
  | cons {a : A} {answer : Answer a} {events : List (Event B AnswerB)}
      {source : List (Event A Answer)} {rest : List (Event B AnswerB)}
      (hevents : Runs (handler a) events (.ok answer)) (hrest : Through handler source rest) :
      Through handler (⟨a, answer⟩ :: source) (events ++ rest)

variable {handler : (a : A) → Program B AnswerB ε (Answer a)}

/-- A run of the new program comes from a run of the old one, when the programs in the place of its
calls do not fail. -/
theorem runs_through (hhandler : ∀ a events error, ¬ Runs (handler a) events (.error error))
    {program : Program A Answer ε α} {events : List (Event B AnswerB)} {outcome : Except ε α}
    (h : Runs (program.through handler) events outcome) :
    ∃ source, Runs program source outcome ∧ Through handler source events := by
  induction program generalizing events with
  | done result =>
      cases h
      exact ⟨[], .done result, .nil⟩
  | fail error =>
      cases h
      exact ⟨[], .fail error, .nil⟩
  | ask call next ih =>
      rcases runs_bind.mp h with ⟨error, hfails, _⟩ | ⟨before, answer, after, rfl, hcall, hrest⟩
      · exact absurd hfails (hhandler call _ error)
      · obtain ⟨source, hsource, hthrough⟩ := ih answer hrest
        exact ⟨_, .ask hsource, .cons hcall hthrough⟩

/-- Calls of the new program are counted as those of the old one that they stand for. -/
theorem Through.countOf_le {counts : A → Bool} {countsB : B → Bool}
    (hhandler : ∀ a, AsksAtMost countsB (if counts a then 1 else 0) (handler a))
    {source : List (Event A Answer)} {events : List (Event B AnswerB)}
    (h : Through handler source events) : countOf countsB events ≤ countOf counts source := by
  induction h with
  | nil => exact le_rfl
  | cons hevents _ ih =>
      rw [countOf_append, countOf_cons, Nat.add_comm]
      exact Nat.add_le_add ih (hhandler _ _ _ hevents)

end Through

/-! ## Handlers -/

/-- The run of a program whose calls a handler answers. -/
def record (handler : (a : A) → Answer a) :
    Program A Answer ε α → List (Event A Answer) × Except ε α
  | .done result => ([], .ok result)
  | .fail error => ([], .error error)
  | .ask call next =>
      let rest := (next (handler call)).record handler
      (⟨call, handler call⟩ :: rest.1, rest.2)

theorem runs_record (handler : (a : A) → Answer a) (program : Program A Answer ε α) :
    Runs program (program.record handler).1 (program.record handler).2 := by
  induction program with
  | done result => exact .done result
  | fail error => exact .fail error
  | ask call next ih => exact .ask (ih (handler call))

/-- Every event of a handled run is one of the handler's answers. -/
theorem forall_mem_record {handler : (a : A) → Answer a} {P : Event A Answer → Prop}
    (h : ∀ a, P ⟨a, handler a⟩) (program : Program A Answer ε α) :
    ∀ event ∈ (program.record handler).1, P event := by
  induction program with
  | done result | fail error => intro event hevent; cases hevent
  | ask call next ih =>
      intro event hevent
      rcases mem_cons.mp hevent with rfl | hrest
      · exact h call
      · exact ih (handler call) event hrest

end Program
