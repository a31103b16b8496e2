import Bran.Library.Words

/-!
# Exact decoders

A decoder takes a value off the front of its input.  It is exact when it accepts the encodings of
the good values and nothing else, whatever follows them: then every input it accepts is what the
encoder writes, and a sequence of exact decoders is exact again.
-/

namespace Decoding

open Validation Words List

variable {α β : Type} {χ ε : Type}

/-- The decoder takes the encodings of the good values off the front, and only these. -/
def Exact (Good : α → Prop) (encode : α → List χ) (decode : List χ → Except ε (α × List χ)) :
    Prop :=
  ∀ input value rest, decode input = .ok (value, rest) ↔
    Good value ∧ input = encode value ++ rest

/-- A decoder made `count` times. -/
def repeated (decode : List χ → Except ε (α × List χ)) :
    ℕ → List χ → Except ε (List α × List χ)
  | 0, input => .ok ([], input)
  | count + 1, input => do
      let (value, input) ← decode input
      let (values, input) ← repeated decode count input
      .ok (value :: values, input)

variable {Good : α → Prop} {encode : α → List χ} {decode : List χ → Except ε (α × List χ)}

/-- An exact decoder in front of a computation. -/
theorem Exact.bind_eq_ok_iff (h : Exact Good encode decode) {input : List χ}
    {next : α × List χ → Except ε β} {result : β} :
    (decode input >>= next) = .ok result ↔
      ∃ value rest, (Good value ∧ input = encode value ++ rest) ∧
        next (value, rest) = .ok result := by
  rw [Validation.bind_eq_ok_iff]
  constructor
  · intro hbind
    obtain ⟨⟨value, rest⟩, hdecode, hnext⟩ := hbind
    exact ⟨value, rest, (h input value rest).mp hdecode, hnext⟩
  · intro hbind
    obtain ⟨value, rest, hinput, hnext⟩ := hbind
    exact ⟨(value, rest), (h input value rest).mpr hinput, hnext⟩

theorem Exact.repeated (h : Exact Good encode decode) (count : ℕ) :
    Exact (fun values => values.length = count ∧ ∀ value ∈ values, Good value)
      (fun values => values.flatMap encode) (repeated decode count) := by
  induction count with
  | zero =>
      intro input values rest
      rw [Decoding.repeated, Except.ok.injEq, Prod.mk.injEq]
      constructor
      · intro hempty
        obtain ⟨rfl, rfl⟩ := hempty
        exact ⟨⟨rfl, by simp⟩, rfl⟩
      · intro hempty
        obtain ⟨⟨hlength, -⟩, rfl⟩ := hempty
        obtain rfl := length_eq_zero_iff.mp hlength
        exact ⟨rfl, rfl⟩
  | succ count ih =>
      intro input values rest
      rw [Decoding.repeated, h.bind_eq_ok_iff]
      constructor
      · intro hread
        obtain ⟨value, middle, ⟨hgood, rfl⟩, hread⟩ := hread
        dsimp only at hread
        rw [ih.bind_eq_ok_iff] at hread
        obtain ⟨others, last, ⟨⟨hlength, hothers⟩, rfl⟩, hvalues⟩ := hread
        cases hvalues
        refine ⟨⟨congrArg (· + 1) hlength, forall_mem_cons.mpr ⟨hgood, hothers⟩⟩, ?_⟩
        simp only [flatMap_cons, append_assoc]
      · intro hread
        obtain ⟨⟨hlength, hgood⟩, rfl⟩ := hread
        cases values with
        | nil => cases hlength
        | cons value others =>
            obtain ⟨hvalue, hothers⟩ := forall_mem_cons.mp hgood
            have hcount : others.length = count := Nat.succ.inj hlength
            refine ⟨value, others.flatMap encode ++ rest, ⟨hvalue, ?_⟩,
              ih.bind_eq_ok_iff.mpr ⟨others, rest, ⟨⟨hcount, hothers⟩, rfl⟩, rfl⟩⟩
            simp only [flatMap_cons, append_assoc]

/-- A repeated decoder stops the program only where one turn of it does. -/
theorem safe_repeated {decode : List χ → Checked ε (α × List χ)} (h : ∀ input, Safe (decode input))
    (count : ℕ) (input : List χ) : Safe (repeated decode count input) := by
  induction count generalizing input with
  | zero => exact safe_ok
  | succ count ih => exact safe_bind (h input) fun _ _ => safe_bind (ih _) fun _ _ => safe_ok

end Decoding
