import Bran.Document.XlsxWorkbook
import Bran.Library.Scanner

/-!
# `ST_Xstring` escapes

What `decode_xstring` makes of what `encode_xstring` writes.  The encoder asks of the text whether
an underscore starts an escape, and writes escapes of its own behind it.  So four digits behind `_x`
become an escape when the character behind them is written as one.
-/

namespace Bran.Document.Xlsx

open Text CharCode Scanner List Option

variable {c : Char} {rest : Str}

/-! ## Escapes -/

/-- `_x`, with which an escape starts. -/
def mark : Str := "_x".toList

/-- The characters that are written as escapes: what XML 1.0 cannot carry, but for surrogates. -/
def isEncoded (c : Char) : Prop :=
  (c.toNat < 0x20 ∧ c ≠ '\t' ∧ c ≠ '\n' ∧ c ≠ '\r') ∨ c.toNat = 0xFFFE ∨ c.toNat = 0xFFFF

instance (c : Char) : Decidable (isEncoded c) := inferInstanceAs (Decidable (_ ∨ _))

def xstringEscape (c : Char) : Str := mark ++ (upperHexadecimal 4 c.toNat ++ ['_'])

/-- Four hexadecimal digits spell a character. -/
def Spells (hex : Str) (c : Char) : Prop :=
  hex.length = 4 ∧ hex.all isHexDigit = true ∧ fromU32 (hexNumber hex) = some c

/-- An escape is `_x`, four digits and an underscore. -/
theorem xstringEscapeAt_eq_some_iff {value : Str} :
    xstringEscapeAt value = some c ↔
      ∃ hex rest, value = mark ++ (hex ++ '_' :: rest) ∧ Spells hex c := by
  constructor
  · intro h
    rw [xstringEscapeAt.eq_def] at h
    split at h
    · next x y z w rest =>
      split at h
      · next hhex => exact ⟨[x, y, z, w], rest, rfl, rfl, hhex, h⟩
      · cases h
    · cases h
  · intro h
    obtain ⟨hex, rest, rfl, hfour, hhex, hc⟩ := h
    obtain ⟨x, y, z, w, rfl⟩ := length_eq_four.mp hfour
    exact (if_pos hhex).trans hc

theorem xstringEscapeAt_of_ne (hc : c ≠ '_') :
    xstringEscapeAt (c :: rest) = none := by
  rw [eq_none_iff_forall_ne_some]
  intro d h
  obtain ⟨hex, tail, heq, -⟩ := xstringEscapeAt_eq_some_iff.mp h
  exact hc (List.cons.inj heq).1

/-! ## Reading one character -/

/-- The characters of an escape are passed over. -/
theorem decodeXstringFrom_append (passed rest : Str) :
    decodeXstringFrom passed.length (passed ++ rest) = decodeXstringFrom 0 rest := by
  induction passed with
  | nil => rfl
  | cons c passed ih => exact ih

theorem decodeXstring_escape {hex : Str} (h : Spells hex c) :
    decodeXstring (mark ++ (hex ++ '_' :: rest)) = c :: decodeXstring rest := by
  have hescape : xstringEscapeAt ('_' :: ('x' :: hex ++ ['_'] ++ rest)) = some c :=
    xstringEscapeAt_eq_some_iff.mpr ⟨hex, rest, by simp [mark], h⟩
  have hsix : ('x' :: hex ++ ['_']).length = 6 := by
    rw [length_append, length_cons, h.1]
    rfl
  have hsplit : mark ++ (hex ++ '_' :: rest) = '_' :: ('x' :: hex ++ ['_'] ++ rest) := by
    simp [mark]
  rw [hsplit, decodeXstring, decodeXstringFrom, hescape]
  dsimp only
  rw [← hsix, decodeXstringFrom_append]
  rfl

/-- A character at which no escape starts is kept. -/
theorem decodeXstring_cons (h : xstringEscapeAt (c :: rest) = none) :
    decodeXstring (c :: rest) = c :: decodeXstring rest := by
  rw [decodeXstring, decodeXstringFrom, h]
  rfl

/-- The walk over the characters is the loop of the source, which looks for the next mark. -/
theorem decodeXstring_eq_loop (value : Str) : decodeXstring value =
    match splitOnceStr mark value with
    | none => value
    | some (before, after) =>
        match xstringEscapeAt (mark ++ after) with
        | some c => before ++ c :: decodeXstring (after.drop 5)
        | none => before ++ (mark ++ decodeXstring after) := by
  induction value with
  | nil => rfl
  | cons c rest ih =>
      rw [splitOnceStr]
      cases hstrip : stripStart mark (c :: rest) with
      | none =>
          have hnone : xstringEscapeAt (c :: rest) = none := by
            rw [eq_none_iff_forall_ne_some]
            intro d hd
            obtain ⟨hex, tail, heq, -⟩ := xstringEscapeAt_eq_some_iff.mp hd
            rw [stripStart_eq_some_iff.mpr heq] at hstrip
            cases hstrip
          rw [decodeXstring_cons hnone, ih]
          cases splitOnceStr mark rest with
          | none => rfl
          | some halves =>
              dsimp only [map_some]
              cases xstringEscapeAt (mark ++ halves.2) <;> rfl
      | some after =>
          obtain ⟨rfl, rfl⟩ := List.cons.inj (stripStart_eq_some_iff.mp hstrip)
          dsimp only
          change decodeXstring (mark ++ after) = _
          cases hescape : xstringEscapeAt (mark ++ after) with
          | none =>
              -- the `x` behind the underscore starts no escape of its own
              exact (decodeXstring_cons hescape).trans
                (congrArg _ (decodeXstring_cons (xstringEscapeAt_of_ne (by decide))))
          | some c =>
              obtain ⟨hex, tail, heq, hspells⟩ := xstringEscapeAt_eq_some_iff.mp hescape
              obtain rfl := append_cancel_left heq
              have hfive : (hex ++ ['_']).length = 5 := by
                rw [length_append, hspells.1]
                rfl
              have hdrop : (hex ++ '_' :: tail).drop 5 = tail := by
                rw [append_cons, ← hfive, drop_left]
              dsimp only
              rw [decodeXstring_escape hspells, hdrop]
              rfl

/-! ## What is written -/

theorem encodeXstring_cons_eq (c : Char) (rest : Str) : encodeXstring (c :: rest) =
    (if c = '_' ∧ (xstringEscapeAt (c :: rest)).isSome then "_x005F_".toList
      else if isEncoded c then xstringEscape c else [c]) ++ encodeXstring rest := by
  rw [xstringEscape, mark, ← append_assoc]
  rfl

/-- The escape of a character that XML cannot carry spells it. -/
theorem spells_of_isEncoded (h : isEncoded c) :
    Spells (upperHexadecimal 4 c.toNat) c := by
  have hlow : ∀ n < 0x20, (upperHexadecimal 4 n).length = 4 ∧
      (upperHexadecimal 4 n).all isHexDigit = true ∧
      hexNumber (upperHexadecimal 4 n) = n := by decide
  have hhigh : ∀ n ∈ [0xFFFE, 0xFFFF], (upperHexadecimal 4 n).length = 4 ∧
      (upperHexadecimal 4 n).all isHexDigit = true ∧
      hexNumber (upperHexadecimal 4 n) = n := by decide
  have hspec : (upperHexadecimal 4 c.toNat).length = 4 ∧
      (upperHexadecimal 4 c.toNat).all isHexDigit = true ∧
      hexNumber (upperHexadecimal 4 c.toNat) = c.toNat := by
    rcases h with ⟨hlt, -⟩ | heq | heq
    · exact hlow _ hlt
    · exact hhigh _ (by rw [heq]; decide)
    · exact hhigh _ (by rw [heq]; decide)
  exact ⟨hspec.1, hspec.2.1, by rw [hspec.2.2, fromU32_toNat]⟩

theorem spells_underscore : Spells "005F".toList '_' := by
  refine ⟨rfl, rfl, ?_⟩
  decide

/-- A text starts with a `_x`, four digits that spell a character and a character that is written
as an escape. -/
def Swallowed (s : Str) : Prop :=
  ∃ hex c d rest, s = mark ++ (hex ++ d :: rest) ∧ Spells hex c ∧ isEncoded d

theorem isEncoded_of_hex (h : isHexDigit c = true) :
    c ≠ '_' ∧ ¬ isEncoded c := by
  have hall : ∀ n < 128, isHexDigit (Char.ofNat n) = true →
      Char.ofNat n ≠ '_' ∧ ¬ isEncoded (Char.ofNat n) := by decide +kernel
  have hc := hall c.toNat (toNat_lt_of_isHexDigit h)
  rw [Char.ofNat_toNat] at hc
  exact hc h

/-- A character that starts no escape and needs none is written as it is. -/
theorem encodeXstring_cons (hc : xstringEscapeAt (c :: rest) = none) (hplain : ¬ isEncoded c) :
    encodeXstring (c :: rest) = c :: encodeXstring rest := by
  rw [encodeXstring_cons_eq, if_neg (by rw [hc]; exact fun h => Bool.false_ne_true h.2), if_neg hplain]
  rfl

theorem encodeXstring_hex {hex : Str} (h : hex.all isHexDigit = true) :
    encodeXstring (hex ++ rest) = hex ++ encodeXstring rest := by
  induction hex with
  | nil => rfl
  | cons c hex ih =>
      rw [all_cons, Bool.and_eq_true] at h
      have hc := isEncoded_of_hex h.1
      rw [cons_append, encodeXstring_cons (xstringEscapeAt_of_ne hc.1) hc.2, ih h.2]
      rfl

theorem encodeXstring_encoded (h : isEncoded c) :
    encodeXstring (c :: rest) = xstringEscape c ++ encodeXstring rest := by
  have hc : c ≠ '_' := by
    rintro rfl
    exact absurd h (by decide)
  rw [encodeXstring_cons_eq, if_neg fun hmark => hc hmark.1, if_pos h]

/-- What is written starts with an underscore, or with the first character of the text. -/
theorem encodeXstring_eq_cons {s tail : Str} (h : encodeXstring s = c :: tail) :
    ∃ d rest, s = d :: rest ∧
      ((c = d ∧ tail = encodeXstring rest) ∨ (c = '_' ∧ (d = '_' ∨ isEncoded d))) := by
  cases s with
  | nil => cases h
  | cons d rest =>
      refine ⟨d, rest, rfl, ?_⟩
      rw [encodeXstring_cons_eq] at h
      split at h
      · next hmark => exact Or.inr ⟨(List.cons.inj h).1.symm, Or.inl hmark.1⟩
      split at h
      · next hd => exact Or.inr ⟨(List.cons.inj h).1.symm, Or.inr hd⟩
      · obtain ⟨rfl, rfl⟩ := List.cons.inj h
        exact Or.inl ⟨rfl, rfl⟩

/-- Digits that were written were in the text. -/
theorem encodeXstring_eq_append {hex s tail : Str} (hhex : ∀ c ∈ hex, c ≠ '_')
    (h : encodeXstring s = hex ++ tail) : ∃ rest, s = hex ++ rest ∧ encodeXstring rest = tail := by
  induction hex generalizing s with
  | nil => exact ⟨s, rfl, h⟩
  | cons c hex ih =>
      obtain ⟨hc, hhex⟩ := forall_mem_cons.mp hhex
      obtain ⟨d, rest, rfl, ⟨rfl, htail⟩ | ⟨hmark, -⟩⟩ := encodeXstring_eq_cons h
      · obtain ⟨rest', rfl, hrest⟩ := ih hhex htail.symm
        exact ⟨rest', rfl, hrest⟩
      · exact absurd hmark hc

theorem ne_underscore_of_hex {hex : Str} (h : hex.all isHexDigit = true) : ∀ c ∈ hex, c ≠ '_' :=
  fun c hc => (isEncoded_of_hex (List.all_eq_true.mp h c hc)).1

/-- Behind an underscore that starts no escape nothing is written that makes it start one, unless
four digits and an escape stand there. -/
theorem xstringEscapeAt_encode (h : xstringEscapeAt ('_' :: rest) = none)
    (hswallowed : ¬ Swallowed ('_' :: rest)) :
    xstringEscapeAt ('_' :: encodeXstring rest) = none := by
  rw [eq_none_iff_forall_ne_some]
  intro c hc
  obtain ⟨hex, tail, heq, hspells⟩ := xstringEscapeAt_eq_some_iff.mp hc
  have hwritten : encodeXstring rest = ('x' :: hex) ++ '_' :: tail := (List.cons.inj heq).2
  have hplain : ∀ c ∈ 'x' :: hex, c ≠ '_' :=
    forall_mem_cons.mpr ⟨by decide, ne_underscore_of_hex hspells.2.1⟩
  obtain ⟨rest', rfl, hrest'⟩ := encodeXstring_eq_append hplain hwritten
  obtain ⟨d, rest'', rfl, hd⟩ := encodeXstring_eq_cons hrest'
  have hunderscore : d = '_' ∨ isEncoded d := by
    rcases hd with ⟨hd, -⟩ | ⟨-, hd⟩
    · exact Or.inl hd.symm
    · exact hd
  rcases hunderscore with rfl | hd
  · have hescape : xstringEscapeAt (mark ++ (hex ++ '_' :: rest'')) = some c :=
      xstringEscapeAt_eq_some_iff.mpr ⟨hex, rest'', rfl, hspells⟩
    exact (nomatch hescape.symm.trans h)
  · exact hswallowed ⟨hex, c, d, rest'', rfl, hspells, hd⟩

/-! ## The round trip -/

/-- One character is read back, unless it is the start of a swallowed escape. -/
theorem decodeXstring_encode_cons (h : ¬ Swallowed (c :: rest)) :
    decodeXstring (encodeXstring (c :: rest)) = c :: decodeXstring (encodeXstring rest) := by
  by_cases hencoded : isEncoded c
  · rw [encodeXstring_encoded hencoded, xstringEscape, append_assoc, append_assoc]
    exact decodeXstring_escape (spells_of_isEncoded hencoded)
  cases hescape : xstringEscapeAt (c :: rest) with
  | some d =>
      obtain ⟨hex, tail, heq, -⟩ := xstringEscapeAt_eq_some_iff.mp hescape
      obtain rfl : c = '_' := (List.cons.inj heq).1
      rw [encodeXstring_cons_eq, if_pos ⟨rfl, by rw [hescape]; rfl⟩]
      exact decodeXstring_escape spells_underscore
  | none =>
      rw [encodeXstring_cons hescape hencoded]
      apply decodeXstring_cons
      by_cases hc : c = '_'
      · subst hc
        exact xstringEscapeAt_encode hescape h
      · exact xstringEscapeAt_of_ne hc

/-- A swallowed escape is not read back. -/
theorem decodeXstring_swallowed {s : Str} (h : Swallowed s) :
    decodeXstring (encodeXstring s) ≠ s := by
  obtain ⟨hex, c, d, rest, rfl, hspells, hd⟩ := h
  have hnone : xstringEscapeAt (mark ++ (hex ++ d :: rest)) = none := by
    rw [eq_none_iff_forall_ne_some]
    intro e he
    obtain ⟨hex', rest', heq, hspells'⟩ := xstringEscapeAt_eq_some_iff.mp he
    have hlength : hex.length = hex'.length := hspells.1.trans hspells'.1.symm
    obtain ⟨-, htail⟩ := List.append_inj (append_cancel_left heq) hlength
    obtain rfl := (List.cons.inj htail).1
    exact absurd hd (by decide)
  have hspelled := spells_of_isEncoded hd
  have hwritten : encodeXstring (mark ++ (hex ++ d :: rest)) =
      mark ++ (hex ++ '_' :: ('x' :: (upperHexadecimal 4 d.toNat ++
        '_' :: encodeXstring rest))) := by
    have hx : encodeXstring ('x' :: (hex ++ d :: rest)) =
        'x' :: encodeXstring (hex ++ d :: rest) :=
      encodeXstring_cons (xstringEscapeAt_of_ne (by decide)) (by decide)
    calc encodeXstring (mark ++ (hex ++ d :: rest))
        = '_' :: encodeXstring ('x' :: (hex ++ d :: rest)) := encodeXstring_cons hnone (by decide)
      _ = mark ++ encodeXstring (hex ++ d :: rest) := by rw [hx]; rfl
      _ = mark ++ (hex ++ (xstringEscape d ++ encodeXstring rest)) := by
          rw [encodeXstring_hex hspells.2.1, encodeXstring_encoded hd]
      _ = _ := by rw [xstringEscape, append_assoc, append_assoc]; rfl
  -- the digits of the escape are read as text
  have hread {digits tail : Str} (hdigits : ∀ c ∈ digits, c ≠ '_') :
      decodeXstring (digits ++ tail) = digits ++ decodeXstring tail := by
    induction digits with
    | nil => rfl
    | cons e digits ih =>
        obtain ⟨he, hdigits⟩ := forall_mem_cons.mp hdigits
        rw [cons_append, decodeXstring_cons (xstringEscapeAt_of_ne he), ih hdigits]
        rfl
  intro hround
  rw [hwritten, decodeXstring_escape hspells, decodeXstring_cons (xstringEscapeAt_of_ne (by decide)),
    hread (ne_underscore_of_hex hspelled.2.1)] at hround
  have hcons : c :: 'x' :: ((upperHexadecimal 4 d.toNat) ++
      decodeXstring ('_' :: encodeXstring rest)) = '_' :: 'x' :: (hex ++ d :: rest) := hround
  obtain ⟨rfl, htail⟩ := List.cons.inj hcons
  have hlength : (upperHexadecimal 4 d.toNat).length = hex.length :=
    hspelled.1.trans hspells.1.symm
  obtain ⟨hsame, -⟩ := List.append_inj (List.cons.inj htail).2 hlength
  rw [hsame] at hspelled
  obtain rfl := Option.some.inj (hspelled.2.2.symm.trans hspells.2.2)
  exact absurd hd (by decide)

theorem not_isEncoded_of_mem {s : Str} (hc : c ∈ encodeXstring s) : ¬ isEncoded c := by
  induction s with
  | nil => exact absurd hc not_mem_nil
  | cons d rest ih =>
      rw [encodeXstring_cons_eq, mem_append] at hc
      refine hc.elim (fun hhead => ?_) ih
      split at hhead
      · have hall : ∀ c ∈ "_x005F_".toList, ¬ isEncoded c := by decide
        exact hall c hhead
      split at hhead
      · next hd =>
        have hspelled := spells_of_isEncoded hd
        have hmark : ∀ c ∈ mark ++ ['_'], ¬ isEncoded c := by decide
        rcases mem_append.mp hhead with hfront | hbehind
        · exact hmark c (mem_append_left _ hfront)
        · exact (mem_append.mp hbehind).elim
            (fun hdigit => (isEncoded_of_hex (List.all_eq_true.mp hspelled.2.1 c hdigit)).2)
            fun hlast => hmark c (mem_append_right _ hlast)
      · next hd =>
        obtain rfl := mem_singleton.mp hhead
        exact hd

/-- A text is read back, and written without the characters that XML cannot carry, exactly when
nowhere in it a character that is written as an escape stands behind `_x` and four digits that
spell a character. -/
theorem xstring_round_trip_iff (s : Str) :
    (decodeXstring (encodeXstring s) = s ∧ ∀ c ∈ encodeXstring s, ¬ isEncoded c) ↔
      ∀ suffix, suffix <:+ s → ¬ Swallowed suffix := by
  have hclean : ∀ c ∈ encodeXstring s, ¬ isEncoded c :=
    fun c hc => not_isEncoded_of_mem hc
  rw [and_iff_left hclean]
  clear hclean
  induction s with
  | nil =>
      refine iff_of_true rfl fun suffix hsuffix hswallowed => ?_
      obtain rfl := suffix_nil.mp hsuffix
      obtain ⟨hex, c, d, rest, heq, -⟩ := hswallowed
      cases heq
  | cons c rest ih =>
      simp only [suffix_cons_iff, forall_eq_or_imp]
      by_cases hhead : Swallowed (c :: rest)
      · exact iff_of_false (decodeXstring_swallowed hhead) fun h => h.1 hhead
      · rw [decodeXstring_encode_cons hhead]
        simp only [List.cons.injEq, true_and]
        exact ih.trans (and_iff_right hhead).symm

/-- A bell behind `_x0041`. -/
def bell : Str := "_x0041".toList ++ [Char.ofNat 7]

/-- The bell makes the text in front of it an escape. -/
theorem not_xstring_round_trip :
    decodeXstring (encodeXstring bell) = "Ax0007_".toList ∧
      decodeXstring (encodeXstring bell) ≠ bell := by
  decide

end Bran.Document.Xlsx
