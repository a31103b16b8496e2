import Bran.Library.Text

/-!
# Texts inside byte strings

The stored form of a text is self-synchronising: the byte a character starts with starts no other,
and no later byte of a character starts one.  A text stored at the front of another is a prefix of
it, and bytes between two characters are whole characters.
-/

namespace Utf8

open Text List

/-- A byte inside a stored character, not its first. -/
def isContinuation (byte : UInt8) : Bool := 0x80 ≤ byte && byte < 0xC0

@[simp] theorem bytes_nil : bytes [] = [] := rfl

@[simp] theorem bytes_cons (c : Char) (rest : Str) :
    bytes (c :: rest) = String.utf8EncodeChar c ++ bytes rest := flatMap_cons

@[simp] theorem bytes_append (first second : Str) :
    bytes (first ++ second) = bytes first ++ bytes second := flatMap_append

theorem encode_ascii {c : Char} (h : c.toNat < 128) : String.utf8EncodeChar c = [c.toUInt8] := by
  have hbytes : bytes [c] = [c].map Char.toUInt8 := bytes_ascii (by simpa using h)
  rwa [bytes_cons, bytes_nil, append_nil] at hbytes

theorem bytes_cons_ascii {c : Char} {s : Str} (hc : c.toNat < 128) :
    bytes (c :: s) = c.toUInt8 :: bytes s := by
  rw [bytes_cons, encode_ascii hc]
  rfl

theorem isContinuation_iff {byte : UInt8} :
    isContinuation byte = true ↔ 128 ≤ byte.toNat ∧ byte.toNat < 192 := by
  rw [isContinuation, Bool.and_eq_true, decide_eq_true_iff, decide_eq_true_iff,
    UInt8.le_iff_toNat_le, UInt8.lt_iff_toNat_lt]
  exact Iff.rfl

theorem isContinuation_ofNat {n : ℕ} (h : n < 256) :
    isContinuation (UInt8.ofNat n) = true ↔ 128 ≤ n ∧ n < 192 := by
  rw [isContinuation_iff, UInt8.toNat_ofNat', Nat.mod_eq_of_lt h]

theorem toNat_lt (c : Char) : c.toNat < 0x110000 := by
  rcases c.valid with h | h
  · exact lt_trans h (by decide)
  · exact h.2

/-- A stored character is a first byte and continuation bytes. -/
theorem encode_eq_cons (c : Char) : ∃ first rest, String.utf8EncodeChar c = first :: rest ∧
    isContinuation first = false ∧ ∀ byte ∈ rest, isContinuation byte = true := by
  have hlt := toNat_lt c
  have hcode : c.val.toNat = c.toNat := rfl
  have hcont (n : ℕ) : isContinuation (UInt8.ofNat (n % 64 + 128)) = true :=
    (isContinuation_ofNat (by omega)).mpr (by omega)
  unfold String.utf8EncodeChar
  dsimp only
  rw [hcode]
  split_ifs
  all_goals
    refine ⟨_, _, rfl, ?_, ?_⟩
    · rw [Bool.eq_false_iff, ne_eq, isContinuation_ofNat (by omega)]
      omega
    · simp only [forall_mem_cons, hcont, true_and, not_mem_nil, false_implies,
        implies_true]

theorem encode_append_inj {c d : Char} {first second : List UInt8}
    (h : String.utf8EncodeChar c ++ first = String.utf8EncodeChar d ++ second) :
    c = d ∧ first = second := by
  have hdecode (c : Char) (tail : List UInt8) : ByteArray.utf8DecodeChar?
      (String.utf8EncodeChar c ++ tail).toByteArray 0 = some c := by
    rw [toByteArray_append]
    exact ByteArray.utf8DecodeChar?_utf8EncodeChar_append
  have hchar : c = d := Option.some.inj ((hdecode c first).symm.trans (h ▸ hdecode d second))
  subst hchar
  exact ⟨rfl, append_cancel_left h⟩

/-- A text stored at the front of another is a prefix of it. -/
theorem exists_of_bytes_eq_append {whole front : Str} {tail : List UInt8}
    (h : bytes whole = bytes front ++ tail) : ∃ rest, whole = front ++ rest ∧ tail = bytes rest := by
  induction front generalizing whole with
  | nil => exact ⟨whole, rfl, h.symm⟩
  | cons c front ih =>
      cases whole with
      | nil =>
          obtain ⟨first, rest, hencode, -⟩ := encode_eq_cons c
          rw [bytes_cons, hencode] at h
          cases h
      | cons d whole =>
          rw [bytes_cons, bytes_cons, append_assoc] at h
          obtain ⟨rfl, hrest⟩ := encode_append_inj h
          obtain ⟨rest, rfl, rfl⟩ := ih hrest
          exact ⟨rest, rfl, rfl⟩

/-- A text whose bytes start with an ASCII byte starts with that character. -/
theorem exists_of_bytes_eq_cons {whole : Str} {c : Char} (hc : c.toNat < 128) {tail : List UInt8}
    (h : bytes whole = c.toUInt8 :: tail) : ∃ rest, whole = c :: rest ∧ tail = bytes rest := by
  have hfront : bytes whole = bytes [c] ++ tail := by
    rw [h, bytes_cons, encode_ascii hc]
    rfl
  exact exists_of_bytes_eq_append hfront

/-- The bytes of a character outside ASCII all have the highest bit. -/
theorem le_of_mem_encode {c : Char} (hc : 128 ≤ c.toNat) {byte : UInt8}
    (h : byte ∈ String.utf8EncodeChar c) : 128 ≤ byte.toNat := by
  have hcode : c.val.toNat = c.toNat := rfl
  have hlt := toNat_lt c
  unfold String.utf8EncodeChar at h
  dsimp only at h
  rw [hcode] at h
  split_ifs at h with hone
  · omega
  all_goals
    simp only [mem_cons, not_mem_nil, or_false] at h
    rcases h with rfl | rfl | rfl | rfl <;> rw [UInt8.toNat_ofNat'] <;> omega

end Utf8
