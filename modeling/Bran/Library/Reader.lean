import Bran.Library.Exchange

/-!
# Readers of bytes

A reader is a program over the state of a source that hands out one byte at a time, reports the
end, or fails.  `Supplies` says which bytes it hands out between two states, and `readExact` reads
a given number of them.
-/

namespace Reader

open Exchange

/-- `io::ErrorKind`, as far as a caller looks at it. -/
inductive ErrorKind where
  | unexpectedEof
  | other
  deriving DecidableEq

variable {R : Type*}

/-- The reader hands out the bytes between the two states. -/
inductive Supplies (read : Exchange R ErrorKind (Option UInt8)) : R → List UInt8 → R → Prop
  | nil (reader : R) : Supplies read reader [] reader
  | cons {reader next last : R} {byte : UInt8} {rest : List UInt8}
      (hread : read reader = (.ok (some byte), next)) (hrest : Supplies read next rest last) :
      Supplies read reader (byte :: rest) last

/-- The reader hands out the bytes and then reports the end. -/
def Carries (read : Exchange R ErrorKind (Option UInt8)) (reader : R) (stream : List UInt8) :
    Prop :=
  ∃ last after, Supplies read reader stream last ∧ read last = (.ok none, after)

variable {read : Exchange R ErrorKind (Option UInt8)} {reader last : R}

theorem supplies_nil_iff : Supplies read reader [] last ↔ reader = last := by
  constructor
  · intro h
    cases h
    rfl
  · intro h
    subst h
    exact .nil reader

theorem supplies_cons_iff {byte : UInt8} {rest : List UInt8} :
    Supplies read reader (byte :: rest) last ↔
      ∃ next, read reader = (.ok (some byte), next) ∧ Supplies read next rest last := by
  constructor
  · intro h
    obtain _ | ⟨hread, hrest⟩ := h
    exact ⟨_, hread, hrest⟩
  · intro h
    obtain ⟨next, hread, hrest⟩ := h
    exact .cons hread hrest

theorem supplies_append_iff {first second : List UInt8} :
    Supplies read reader (first ++ second) last ↔
      ∃ middle, Supplies read reader first middle ∧ Supplies read middle second last := by
  induction first generalizing reader with
  | nil => simp only [List.nil_append, supplies_nil_iff, exists_eq_left']
  | cons byte rest ih =>
      rw [List.cons_append, supplies_cons_iff]
      constructor
      · intro h
        obtain ⟨next, hread, hrest⟩ := h
        obtain ⟨middle, hfirst, hsecond⟩ := ih.mp hrest
        exact ⟨middle, .cons hread hfirst, hsecond⟩
      · intro h
        obtain ⟨middle, hfirst, hsecond⟩ := h
        obtain ⟨next, hread, hrest⟩ := supplies_cons_iff.mp hfirst
        exact ⟨next, hread, ih.mpr ⟨middle, hrest, hsecond⟩⟩

/-- One byte of `Read::read_exact`: the end comes too early. -/
def expect : Option UInt8 → Except ErrorKind UInt8
  | none => .error .unexpectedEof
  | some byte => .ok byte

/-- `Read::read_exact` into a buffer of `count` bytes. -/
def readExact (read : Exchange R ErrorKind (Option UInt8)) :
    ℕ → Exchange R ErrorKind (List UInt8)
  | 0 => pure []
  | count + 1 => do
      let answer ← read
      let byte ← ofExcept (expect answer)
      let rest ← readExact read count
      pure (byte :: rest)

theorem expect_eq_ok {answer : Option UInt8} {byte : UInt8} :
    expect answer = .ok byte ↔ answer = some byte := by
  cases answer with
  | none => simp [expect]
  | some value => simp [expect]

theorem readExact_eq_ok {count : ℕ} {bytes : List UInt8} :
    readExact read count reader = (.ok bytes, last) ↔
      bytes.length = count ∧ Supplies read reader bytes last := by
  induction count generalizing reader bytes with
  | zero =>
      rw [readExact, pure_apply, Prod.mk.injEq, Except.ok.injEq, List.length_eq_zero_iff]
      constructor
      · intro h
        obtain ⟨rfl, rfl⟩ := h
        exact ⟨rfl, .nil reader⟩
      · intro h
        obtain ⟨rfl, h⟩ := h
        exact ⟨rfl, supplies_nil_iff.mp h⟩
  | succ count ih =>
      rw [readExact, bind_eq_ok]
      constructor
      · intro h
        obtain ⟨answer, next, hread, h⟩ := h
        obtain ⟨byte, next', hbyte, h⟩ := bind_eq_ok.mp h
        obtain ⟨hanswer, rfl⟩ := ofExcept_eq_ok.mp hbyte
        obtain ⟨rest, last', hrest, h⟩ := bind_eq_ok.mp h
        cases h
        obtain ⟨hlength, hsupplies⟩ := ih.mp hrest
        rw [expect_eq_ok.mp hanswer] at hread
        exact ⟨by rw [List.length_cons, hlength], .cons hread hsupplies⟩
      · intro h
        obtain ⟨hlength, hsupplies⟩ := h
        cases hsupplies with
        | nil => cases hlength
        | cons hread hrest =>
            refine ⟨_, _, hread, bind_eq_ok.mpr ⟨_, _, rfl, ?_⟩⟩
            exact bind_eq_ok.mpr
              ⟨_, _, ih.mpr ⟨Nat.succ.inj hlength, hrest⟩, rfl⟩

end Reader
