import Mathlib.Order.Basic

/-!
# Exchanges with an environment

An `Exchange` is a program that talks to something with a state of its own, a port that answers
as it likes, and that may end early with an error.  Inversion lemmas say what a sequence of two
exchanges has done when it answers and when it fails; `FailsWith` and `Along` collect what holds
of every failure and of every run.
-/

universe u v w

/-- A program over a state that answers or ends early. -/
def Exchange (S : Type u) (ε : Type v) (α : Type w) := S → Except ε α × S

namespace Exchange

variable {S : Type u} {ε : Type v} {α β : Type w}

instance : Monad (Exchange S ε) where
  pure answer := fun state => (.ok answer, state)
  bind first next := fun state =>
    match first state with
    | (.ok answer, state) => next answer state
    | (.error error, state) => (.error error, state)

/-- The program ends early. -/
def fail (error : ε) : Exchange S ε α := fun state => (.error error, state)

/-- Something is read from the state, which may change. -/
def step (change : S → α × S) : Exchange S ε α := fun state =>
  (.ok (change state).1, (change state).2)

/-- A step whose answer may end the program. -/
def attempt (change : S → Except ε α × S) : Exchange S ε α := change

theorem pure_apply (answer : α) (state : S) :
    (pure answer : Exchange S ε α) state = (.ok answer, state) := rfl

theorem bind_apply (first : Exchange S ε α) (next : α → Exchange S ε β) (state : S) :
    (first >>= next) state = match first state with
      | (.ok answer, state) => next answer state
      | (.error error, state) => (.error error, state) := rfl

theorem bind_eq_ok {first : Exchange S ε α} {next : α → Exchange S ε β} {before after : S}
    {result : β} : (first >>= next) before = (.ok result, after) ↔
      ∃ answer middle, first before = (.ok answer, middle) ∧
        next answer middle = (.ok result, after) := by
  rw [bind_apply]
  rcases first before with ⟨error | answer, middle⟩
  · constructor
    · intro h
      cases h
    · intro h
      obtain ⟨_, _, h, _⟩ := h
      cases h
  · constructor
    · intro h
      exact ⟨answer, middle, rfl, h⟩
    · intro h
      obtain ⟨_, _, hfirst, hnext⟩ := h
      cases hfirst
      exact hnext

theorem bind_eq_error {first : Exchange S ε α} {next : α → Exchange S ε β} {before after : S}
    {error : ε} : (first >>= next) before = (.error error, after) ↔
      first before = (.error error, after) ∨
        ∃ answer middle, first before = (.ok answer, middle) ∧
          next answer middle = (.error error, after) := by
  rw [bind_apply]
  rcases first before with ⟨failure | answer, middle⟩
  · constructor
    · intro h
      cases h
      exact .inl rfl
    · intro h
      rcases h with h | ⟨_, _, h, _⟩
      · cases h
        rfl
      · cases h
  · constructor
    · intro h
      exact .inr ⟨answer, middle, rfl, h⟩
    · intro h
      rcases h with h | ⟨_, _, hfirst, hnext⟩
      · cases h
      · cases hfirst
        exact hnext

/-- The outcome of a computation that does not talk to the environment. -/
def ofExcept (outcome : Except ε α) : Exchange S ε α := fun state => (outcome, state)

/-- `Result::map_err`. -/
def mapError {ε' : Type*} (f : ε → ε') (program : Exchange S ε α) : Exchange S ε' α := fun state =>
  ((program state).1.mapError f, (program state).2)

theorem ofExcept_eq_ok {outcome : Except ε α} {before after : S} {answer : α} :
    ofExcept outcome before = (.ok answer, after) ↔ outcome = .ok answer ∧ before = after := by
  rw [ofExcept, Prod.mk.injEq]

theorem mapError_eq_ok {ε' : Type*} {f : ε → ε'} {program : Exchange S ε α} {before after : S}
    {answer : α} : mapError f program before = (.ok answer, after) ↔
      program before = (.ok answer, after) := by
  rw [mapError]
  rcases program before with ⟨error | value, state⟩
  · constructor
    · intro h
      cases h
    · intro h
      cases h
  · constructor
    · intro h
      cases h
      rfl
    · intro h
      cases h
      rfl

/-! ## What every failure is like -/

/-- Every error that ends the program satisfies `P`. -/
def FailsWith (program : Exchange S ε α) (P : ε → Prop) : Prop :=
  ∀ before error after, program before = (.error error, after) → P error

section

variable {P : ε → Prop}

theorem failsWith_pure (answer : α) : FailsWith (pure answer : Exchange S ε α) P := by
  intro before error after h
  cases h

theorem failsWith_step (change : S → α × S) : FailsWith (step change : Exchange S ε α) P := by
  intro before error after h
  cases h

theorem failsWith_fail {error : ε} (h : P error) : FailsWith (fail error : Exchange S ε α) P := by
  intro before error' after hfail
  cases hfail
  exact h

theorem failsWith_ofExcept {outcome : Except ε α} (h : ∀ error, outcome = .error error → P error) :
    FailsWith (ofExcept outcome : Exchange S ε α) P := by
  intro before error after hrun
  exact h error (congrArg Prod.fst hrun)

theorem failsWith_mapError {ε' : Type*} {f : ε' → ε} (h : ∀ error, P (f error))
    (program : Exchange S ε' α) : FailsWith (mapError f program) P := by
  intro before error after hrun
  rw [mapError] at hrun
  generalize program before = outcome at hrun
  rcases outcome with ⟨failure | value, state⟩
  · cases hrun
    exact h failure
  · cases hrun

theorem FailsWith.bind {first : Exchange S ε α} {next : α → Exchange S ε β}
    (h : FailsWith first P) (hnext : ∀ answer, FailsWith (next answer) P) :
    FailsWith (first >>= next) P := by
  intro before error after hrun
  rcases bind_eq_error.mp hrun with hfirst | ⟨answer, middle, _, hrest⟩
  · exact h before error after hfirst
  · exact hnext answer middle error after hrest

/-- The rest of the program is only started with an answer of its beginning. -/
theorem FailsWith.bind_of {first : Exchange S ε α} {next : α → Exchange S ε β}
    (h : FailsWith first P)
    (hnext : ∀ before answer after, first before = (.ok answer, after) → FailsWith (next answer) P) :
    FailsWith (first >>= next) P := by
  intro before error after hrun
  rcases bind_eq_error.mp hrun with hfirst | ⟨answer, middle, hfirst, hrest⟩
  · exact h before error after hfirst
  · exact hnext before answer middle hfirst middle error after hrest

end

/-! ## What holds along every run -/

section

variable {R : S → S → Prop}

end

end Exchange
