import Mathlib.Algebra.Group.Int.Defs
import Mathlib.Algebra.GroupWithZero.Nat
import Mathlib.Data.List.DropRight
import Mathlib.Data.List.Infix
import Mathlib.Data.Char
import Mathlib.Data.List.Chain

/-!
# Strings as lists of Unicode scalars

A Rust `str` is a sequence of Unicode scalar values stored as UTF-8.  It is kept
here as the list of its scalars: the order of two strings is the same in both
representations, and `byteLen` and `bytes` give the stored form where the
program looks at it.  The functions carry the names of the standard library
functions they stand for.
-/

/-- A string, as the list of its Unicode scalar values. -/
abbrev Str := List Char

namespace Text

open List
open Option (some.inj)

/-! What holds of the characters or the bytes of a string is decided along the string, and not
along all characters or bytes there are. -/

instance (s : Str) (p : Char → Prop) [DecidablePred p] : Decidable (∀ c ∈ s, p c) :=
  List.decidableBAll p s

instance (s : Str) (p : Char → Prop) [DecidablePred p] : Decidable (∃ c ∈ s, p c) :=
  List.decidableBEx p s

instance decidableForallBytes (bytes : List UInt8) (p : UInt8 → Prop) [DecidablePred p] :
    Decidable (∀ b ∈ bytes, p b) :=
  List.decidableBAll p bytes

instance decidableForallFirst (first : Option Char) (p : Char → Prop) [DecidablePred p] :
    Decidable (∀ c ∈ first, p c) :=
  Option.decidableForallMem first

/-! The proofs behind comparisons of strings carry names, so that all modules share them. -/

instance lawfulBEqStr : LawfulBEq Str := inferInstance
instance lawfulBEqFirst : LawfulBEq (Option Char) := inferInstance
instance isTransStr : IsTrans Str (· ≤ ·) := inferInstance
instance antisymmStr : @Std.Antisymm Str (· ≤ ·) := inferInstance
instance totalStr : @Std.Total Str (· ≤ ·) := inferInstance

theorem isLower_eq (c : Char) : c.isLower = (c.val ≥ 'a'.val && c.val ≤ 'z'.val) := rfl
theorem isUpper_eq (c : Char) : c.isUpper = decide (c.val ≥ 'A'.val ∧ c.val ≤ 'Z'.val) := rfl
theorem isAlpha_eq (c : Char) : c.isAlpha = (c.isUpper || c.isLower) := rfl

/-- `str::len`: the number of UTF-8 bytes. -/
def byteLen (s : Str) : ℕ := (s.map Char.utf8Size).sum

/-- `str::as_bytes`. -/
def bytes (s : Str) : List UInt8 := s.flatMap String.utf8EncodeChar

/-- `str::from_utf8`. -/
def fromUtf8 (bytes : List UInt8) : Option Str :=
  (String.fromUTF8? ⟨bytes.toArray⟩).map String.toList

/-- `char::is_whitespace`: the Unicode property `White_Space`. -/
def isWhitespace (c : Char) : Bool :=
  let n := c.toNat
  (9 ≤ n && n ≤ 13) || n = 0x20 || n = 0x85 || n = 0xA0 || n = 0x1680 ||
    (0x2000 ≤ n && n ≤ 0x200A) || n = 0x2028 || n = 0x2029 || n = 0x202F || n = 0x205F ||
    n = 0x3000

/-- `str::trim_start`. -/
def trimStart (s : Str) : Str := s.dropWhile isWhitespace

/-- `str::trim_end`. -/
def trimEnd (s : Str) : Str := s.rdropWhile isWhitespace

/-- `str::trim`. -/
def trim (s : Str) : Str := trimEnd (trimStart s)

/-- `value.trim().is_empty()`. -/
def isBlank (s : Str) : Bool := (trim s).isEmpty

/-- `str::contains` for a string pattern. -/
def containsStr (s pattern : Str) : Bool := decide (pattern <:+: s)

/-- `str::strip_prefix`. -/
def stripStart (pattern s : Str) : Option Str := List.isPrefixOf? pattern s

/-- `str::strip_suffix`. -/
def stripEnd (pattern s : Str) : Option Str := List.isSuffixOf? pattern s

/-- `str::split_once` at a character. -/
def splitOnce (c : Char) : Str → Option (Str × Str)
  | [] => none
  | x :: rest =>
      if x = c then some ([], rest)
      else (splitOnce c rest).map fun halves => (x :: halves.1, halves.2)

/-- `str::split_once` at a string. -/
def splitOnceStr (pattern : Str) : Str → Option (Str × Str)
  | [] => if pattern = [] then some ([], []) else none
  | x :: rest =>
      match stripStart pattern (x :: rest) with
      | some after => some ([], after)
      | none => (splitOnceStr pattern rest).map fun halves => (x :: halves.1, halves.2)

/-- `str::rsplit_once` at a character. -/
def rsplitOnce (c : Char) (s : Str) : Option (Str × Str) :=
  (splitOnce c s.reverse).map fun halves => (halves.2.reverse, halves.1.reverse)

/-- The text before each occurrence of `c`: `&s[..index]` over `s.match_indices(c)`. -/
def beforeEach (c : Char) : Str → List Str
  | [] => []
  | x :: rest =>
      if x = c then [] :: (beforeEach c rest).map (x :: ·) else (beforeEach c rest).map (x :: ·)

/-- The text after each occurrence of `c`: `&s[index + 1..]` over `s.match_indices(c)`. -/
def afterEach (c : Char) : Str → List Str
  | [] => []
  | x :: rest => if x = c then rest :: afterEach c rest else afterEach c rest

/-- `[_]::join`. -/
def join (separator : Str) (parts : List Str) : Str := separator.intercalate parts

/-- One line of `str::lines`, without the carriage return of its terminator. -/
def dropCarriageReturn (line : Str) : Str := (stripEnd ['\r'] line).getD line

/-- `str::lines`: a final line without a terminator keeps a carriage return, and
nothing follows a final terminator. -/
def lines (s : Str) : List Str :=
  let pieces := s.splitOn '\n'
  pieces.dropLast.map dropCarriageReturn ++ pieces.getLast?.toList.filter fun line => !line.isEmpty

/-- `str::to_ascii_lowercase`. -/
def toAsciiLowercase (s : Str) : Str :=
  s.map fun c => if 'A' ≤ c ∧ c ≤ 'Z' then Char.ofNat (c.toNat + 32) else c

/-- The decimal digits of a number, as `{}` formats it. -/
def decimal (n : ℕ) : Str := Nat.toDigits 10 n

theorem not_mem_decimal {c : Char} (h : c.isDigit = false) (n : ℕ) : c ∉ decimal n := by
  intro hmem
  rw [Nat.isDigit_of_mem_toDigits (by decide) (by decide) hmem] at h
  cases h

/-- A lowercase hexadecimal digit, as `{:x}` formats it. -/
def hexDigit (n : ℕ) : Char := if n < 10 then Char.ofNat (48 + n) else Char.ofNat (87 + n)

def hexValue (c : Char) : ℕ := if c.toNat < 58 then c.toNat - 48 else c.toNat - 87

/-- A number of at most `width` hexadecimal digits with leading zeros. -/
def hexadecimal : ℕ → ℕ → Str
  | 0, _ => []
  | width + 1, n => hexDigit (n / 16 ^ width % 16) :: hexadecimal width n

theorem hexValue_hexDigit {n : ℕ} (hn : n < 16) : hexValue (hexDigit n) = n := by
  have hall : ∀ n < 16, hexValue (hexDigit n) = n := by decide
  exact hall n hn

/-- A digit or a letter from `a` to `f`. -/
def isLowerHex (c : Char) : Bool := ('0' ≤ c && c ≤ '9') || ('a' ≤ c && c ≤ 'f')

theorem hexDigit_spec {n : ℕ} (hn : n < 16) :
    (hexDigit n).utf8Size = 1 ∧ isLowerHex (hexDigit n) = true := by
  have hall : ∀ n < 16, (hexDigit n).utf8Size = 1 ∧ isLowerHex (hexDigit n) = true := by decide
  exact hall n hn

theorem hexadecimal_spec (width n : ℕ) :
    byteLen (hexadecimal width n) = width ∧ (hexadecimal width n).all isLowerHex = true := by
  induction width with
  | zero => exact ⟨rfl, rfl⟩
  | succ width ih =>
      obtain ⟨hlen, hall⟩ := ih
      obtain ⟨hsize, hhex⟩ := hexDigit_spec (Nat.mod_lt (n / 16 ^ width) (show 0 < 16 by decide))
      rw [byteLen] at hlen ⊢
      rw [hexadecimal, map_cons, sum_cons, hlen, hsize, all_cons, hhex, hall]
      exact ⟨Nat.add_comm _ _, rfl⟩

theorem byteLen_append (first second : Str) :
    byteLen (first ++ second) = byteLen first + byteLen second := by
  rw [byteLen, map_append, sum_append, byteLen, byteLen]

/-! ## Trimming -/

variable {c : Char} {rest s : Str}

theorem trimStart_cons (h : isWhitespace c = false) (s : Str) :
    trimStart (c :: s) = c :: s := by
  rw [trimStart, dropWhile_cons_of_neg (by simp [h])]

theorem trimStart_cons_whitespace (h : isWhitespace c = true) (s : Str) :
    trimStart (c :: s) = trimStart s := by
  rw [trimStart, dropWhile_cons_of_pos h, trimStart]

theorem trimEnd_concat_whitespace (h : isWhitespace c = true) (s : Str) :
    trimEnd (s ++ [c]) = trimEnd s := by
  rw [trimEnd, rdropWhile_concat_pos _ _ _ h, trimEnd]

theorem trim_cons_whitespace (h : isWhitespace c = true) (s : Str) :
    trim (c :: s) = trim s := by
  rw [trim, trimStart_cons_whitespace h, trim]

theorem trimStart_replicate (count : ℕ) (s : Str) :
    trimStart (List.replicate count ' ' ++ s) = trimStart s := by
  induction count with
  | zero => rfl
  | succ count ih =>
      rw [replicate_succ, cons_append, trimStart_cons_whitespace (by decide), ih]

/-- A text that trimming leaves alone begins and ends with other characters. -/
theorem trimmed_iff : trim s = s ↔
    (∀ c ∈ s.head?, isWhitespace c = false) ∧ ∀ c ∈ s.getLast?, isWhitespace c = false := by
  cases s with
  | nil => simp [trim, trimStart, trimEnd]
  | cons x rest =>
      cases hx : isWhitespace x with
      | true =>
          constructor
          · intro h
            exfalso
            have hlen : (trim (x :: rest)).length ≤ rest.length := by
              rw [trim_cons_whitespace hx, trim]
              calc (trimEnd (trimStart rest)).length ≤ (trimStart rest).length :=
                    (List.rdropWhile_prefix _ _).length_le
                _ ≤ rest.length := (dropWhile_suffix _).length_le
            rw [h, length_cons] at hlen
            omega
          · intro h
            have hfalse := h.1 x rfl
            rw [hx] at hfalse
            cases hfalse
      | false =>
          rw [trim, trimStart_cons hx, trimEnd, rdropWhile_eq_self_iff]
          constructor
          · intro h
            refine ⟨?_, ?_⟩
            · intro c hc
              obtain rfl : x = c := by simpa using hc
              exact hx
            · intro c hc
              have hlast := h (cons_ne_nil x rest)
              rw [getLast?_eq_some_getLast (cons_ne_nil x rest)] at hc
              obtain rfl := some.inj hc
              simpa using hlast
          · intro h hne
            have hlast := h.2 _ (getLast?_eq_some_getLast hne)
            simp [hlast]

theorem trimEnd_of_getLast? (h : ∀ c ∈ s.getLast?, isWhitespace c = false) :
    trimEnd s = s := by
  rw [trimEnd, rdropWhile_eq_self_iff]
  intro hne
  simp [h _ (getLast?_eq_some_getLast hne)]

theorem trimStart_of_head? (h : ∀ c ∈ s.head?, isWhitespace c = false) :
    trimStart s = s := by
  cases s with
  | nil => rfl
  | cons x rest => exact trimStart_cons (h x rfl) rest

theorem head_trim (s : Str) : ∀ c ∈ (trim s).head?, isWhitespace c = false := by
  intro c hc
  have hstart : ∀ c ∈ (trimStart s).head?, isWhitespace c = false := by
    intro c hc
    have hnot := head?_dropWhile_not isWhitespace s
    rw [trimStart] at hc
    rw [hc] at hnot
    exact hnot
  apply hstart
  obtain ⟨tail, htail⟩ : trim s <+: trimStart s := rdropWhile_prefix _ _
  rw [← htail]
  cases htrim : trim s with
  | nil =>
      rw [htrim] at hc
      cases hc
  | cons x rest =>
      rw [htrim] at hc
      exact hc

theorem last_trim (s : Str) : ∀ c ∈ (trim s).getLast?, isWhitespace c = false := by
  intro c hc
  have hne : trim s ≠ [] := by
    intro hnil
    rw [hnil] at hc
    cases hc
  have hlast := rdropWhile_last_not isWhitespace (trimStart s) hne
  rw [getLast?_eq_some_getLast hne] at hc
  obtain rfl := some.inj hc
  exact Bool.eq_false_iff.mpr hlast

@[simp] theorem trim_trim (s : Str) : trim (trim s) = trim s :=
  trimmed_iff.mpr ⟨head_trim s, last_trim s⟩

theorem trimEnd_eq_nil (h : trim s = []) : trimEnd s = [] := by
  rw [trim, trimEnd, rdropWhile_eq_nil_iff, trimStart] at h
  have hdrop : s.dropWhile isWhitespace = [] := by
    cases hcons : s.dropWhile isWhitespace with
    | nil => rfl
    | cons x rest =>
        have hnot := head?_dropWhile_not isWhitespace s
        rw [hcons] at hnot h
        have hx := h x (by simp)
        dsimp only [head?_cons] at hnot
        rw [hx] at hnot
        cases hnot
  rw [trimEnd, rdropWhile_eq_nil_iff]
  exact dropWhile_eq_nil_iff.mp hdrop

theorem rdropWhile_append {α : Type*} {p : α → Bool} {tail : List α} (h : ∀ x ∈ tail, p x = true)
    (head : List α) : (head ++ tail).rdropWhile p = head.rdropWhile p := by
  induction tail using List.reverseRecOn with
  | nil => rw [append_nil]
  | append_singleton tail x ih =>
      rw [← append_assoc, rdropWhile_concat_pos _ _ _ (h x (by simp))]
      exact ih fun y hy => h y (mem_append_left _ hy)

/-- Trimming at the end first gives the same text. -/
theorem trimStart_trimEnd (hne : trim s ≠ []) :
    trimStart (trimEnd s) = trim s ∧ byteLen (trimEnd s) + byteLen (trimStart s) =
      byteLen s + byteLen (trim s) := by
  have hlead : s.takeWhile isWhitespace ++ trimStart s = s := takeWhile_append_dropWhile
  have htrail : trim s ++ (trimStart s).rtakeWhile isWhitespace = trimStart s :=
    rdropWhile_append_rtakeWhile
  generalize s.takeWhile isWhitespace = lead at hlead
  have hspaces : ∀ c ∈ (trimStart s).rtakeWhile isWhitespace, isWhitespace c = true :=
    fun c hc => mem_rtakeWhile_imp hc
  generalize (trimStart s).rtakeWhile isWhitespace = trail at htrail hspaces
  have hend : trimEnd s = lead ++ trim s := by
    conv_lhs => rw [← hlead, ← htrail]
    rw [← append_assoc, trimEnd, rdropWhile_append hspaces]
    apply trimEnd_of_getLast?
    intro c hc
    rw [getLast?_append_of_ne_nil _ hne] at hc
    exact last_trim s c hc
  constructor
  · have hdrop : trimStart (trimEnd s) ++ trail = trimStart s := by
      have hboth : trimEnd s ++ trail = s := by rw [hend, append_assoc, htrail, hlead]
      conv_rhs => rw [← hboth, trimStart]
      rw [trimStart, dropWhile_append]
      split
      · rename_i hnil
        exfalso
        apply hne
        rw [List.isEmpty_iff, dropWhile_eq_nil_iff] at hnil
        have hmem : ∀ c ∈ trim s, isWhitespace c = true := by
          intro c hc
          apply hnil c
          rw [hend]
          exact mem_append_right _ hc
        obtain ⟨x, rest, hcons⟩ := exists_cons_of_ne_nil hne
        have hx := hmem x (by rw [hcons]; simp)
        rw [head_trim s x (by rw [hcons]; rfl)] at hx
        cases hx
      · rfl
    rw [← htrail] at hdrop
    exact append_cancel_right hdrop
  · have hlen : byteLen s = byteLen lead + byteLen (trimStart s) := by
      conv_lhs => rw [← hlead]
      rw [byteLen_append]
    rw [hend, byteLen_append]
    omega

/-! ## Splitting -/

/-- A run of characters is taken off up to the first one that does not belong to it. -/
theorem span_append {p : Char → Bool} {run after : Str} (hrun : ∀ c ∈ run, p c = true)
    (hafter : ∀ c ∈ after.head?, p c = false) :
    (run ++ after).takeWhile p = run ∧ (run ++ after).dropWhile p = after := by
  rw [takeWhile_append_of_pos hrun, dropWhile_append_of_pos hrun]
  cases after with
  | nil => exact ⟨append_nil run, rfl⟩
  | cons c rest =>
      have hc := hafter c rfl
      rw [takeWhile_cons_of_neg (by rw [hc]; decide),
        dropWhile_cons_of_neg (by rw [hc]; decide)]
      exact ⟨append_nil run, rfl⟩

theorem splitOnce_append {head : Str} (h : c ∉ head) (rest : Str) :
    splitOnce c (head ++ c :: rest) = some (head, rest) := by
  induction head with
  | nil => rw [nil_append, splitOnce, if_pos rfl]
  | cons x head ih =>
      rw [mem_cons, not_or] at h
      rw [cons_append, splitOnce, if_neg (Ne.symm h.1), ih h.2]
      rfl

theorem splitOnce_eq_some {head : Str} (h : splitOnce c s = some (head, rest)) :
    s = head ++ c :: rest ∧ c ∉ head := by
  induction s generalizing head with
  | nil => cases h
  | cons x tail ih =>
      rw [splitOnce] at h
      split_ifs at h with hx
      · cases h
        rw [hx]
        exact ⟨rfl, not_mem_nil⟩
      · cases hsplit : splitOnce c tail with
        | none =>
            rw [hsplit] at h
            cases h
        | some halves =>
            rw [hsplit] at h
            cases h
            obtain ⟨htail, hnot⟩ := ih hsplit
            refine ⟨congrArg (x :: ·) htail, ?_⟩
            rw [mem_cons, not_or]
            exact ⟨Ne.symm hx, hnot⟩

theorem stripStart_eq_some_iff {pattern : Str} :
    stripStart pattern s = some rest ↔ s = pattern ++ rest := by
  rw [stripStart, isPrefixOf?_eq_some_iff_append_eq, eq_comm]

theorem splitOnceStr_eq_none {pattern : Str} (h : ¬ pattern <:+: s) :
    splitOnceStr pattern s = none := by
  induction s with
  | nil =>
      rw [splitOnceStr, if_neg]
      rintro rfl
      exact h infix_rfl
  | cons x rest ih =>
      have hrest : ¬ pattern <:+: rest := fun hoccurs => h (hoccurs.trans (suffix_cons x rest).isInfix)
      rw [splitOnceStr]
      cases hstrip : stripStart pattern (x :: rest) with
      | some after =>
          exfalso
          apply h
          rw [stripStart_eq_some_iff.mp hstrip]
          exact (prefix_append pattern after).isInfix
      | none =>
          rw [ih hrest]
          rfl

/-- A pattern does not start within a text that its first character does not occur in. -/
theorem splitOnceStr_append {pattern head : Str} (h : c ∉ head) (rest : Str) :
    splitOnceStr (c :: pattern) (head ++ rest) =
      (splitOnceStr (c :: pattern) rest).map fun halves => (head ++ halves.1, halves.2) := by
  induction head with
  | nil => exact Option.map_id'.symm
  | cons x head ih =>
      rw [mem_cons, not_or] at h
      have hstrip : stripStart (c :: pattern) (x :: (head ++ rest)) = none := by
        rw [Option.eq_none_iff_forall_ne_some]
        intro after hafter
        have heq := stripStart_eq_some_iff.mp hafter
        exact h.1 (List.cons.inj heq).1.symm
      rw [cons_append, splitOnceStr, hstrip]
      dsimp only
      rw [ih h.2, Option.map_map]
      rfl

theorem splitOnceStr_of_infix {pattern : Str} (h : pattern <:+: s) :
    ∃ head tail, splitOnceStr pattern s = some (head, tail) ∧ s = head ++ pattern ++ tail := by
  induction s with
  | nil =>
      obtain rfl := infix_nil.mp h
      exact ⟨[], [], rfl, rfl⟩
  | cons x rest ih =>
      rw [splitOnceStr]
      cases hstrip : stripStart pattern (x :: rest) with
      | some after =>
          exact ⟨[], after, rfl, stripStart_eq_some_iff.mp hstrip⟩
      | none =>
          obtain hstart | hrest := infix_cons_iff.mp h
          · obtain ⟨after, hafter⟩ := hstart
            rw [stripStart_eq_some_iff.mpr hafter.symm] at hstrip
            cases hstrip
          · obtain ⟨head, tail, hsplit, heq⟩ := ih hrest
            refine ⟨x :: head, tail, by rw [hsplit]; rfl, ?_⟩
            rw [heq]
            simp

theorem not_mem_join {separator : Str} {parts : List Str} (hseparator : c ∉ separator)
    (h : ∀ part ∈ parts, c ∉ part) : c ∉ join separator parts := by
  induction parts with
  | nil => simp [join]
  | cons part rest ih =>
      rw [join] at ih ⊢
      have hrest := ih fun other hother => h other (mem_cons_of_mem _ hother)
      by_cases hne : rest = []
      · rw [hne, intercalate_singleton]
        exact h part (by simp)
      · rw [intercalate_cons_of_ne_nil hne, mem_append, mem_append, not_or, not_or]
        exact ⟨⟨h part (by simp), hseparator⟩, hrest⟩

/-- A pair of neighbouring characters. -/
theorem pair_infix_iff {x y : Char} :
    ¬ [x, y] <:+: s ↔ s.IsChain fun a b => ¬ (a = x ∧ b = y) := by
  rw [isChain_iff_forall_rel_of_append_cons_cons]
  constructor
  · intro h a b before after hs hpair
    obtain ⟨rfl, rfl⟩ := hpair
    exact h ⟨before, after, by simp [hs]⟩
  · intro h hoccurs
    obtain ⟨before, after, hs⟩ := hoccurs
    have hsplit : s = before ++ x :: y :: after := by simp [← hs]
    exact h hsplit ⟨rfl, rfl⟩

/-! ## Lines -/

theorem dropCarriageReturn_eq_self {line : Str} (h : line.getLast? ≠ some '\r') :
    dropCarriageReturn line = line := by
  have hnone : stripEnd ['\r'] line = none := by
    rw [stripEnd, Option.eq_none_iff_forall_ne_some]
    intro rest hrest
    rw [isSuffixOf?_eq_some_iff_append_eq] at hrest
    apply h
    rw [← hrest]
    simp
  rw [dropCarriageReturn, hnone]
  rfl

theorem lines_cons {first : Str} (h : '\n' ∉ first) (after : Str) :
    lines (first ++ '\n' :: after) = dropCarriageReturn first :: lines after := by
  have hne : after.splitOn '\n' ≠ [] := splitOn_ne_nil _ _
  rw [lines, splitOn_append_cons_self_of_not_mem h, lines, dropLast_cons_of_ne_nil hne,
    getLast?_cons_of_ne_nil hne]
  rfl

/-- The lines before a line feed and those after it. -/
theorem lines_append_cons (first after : Str) :
    lines (first ++ '\n' :: after) = lines (first ++ ['\n']) ++ lines after := by
  by_cases hmem : '\n' ∈ first
  · obtain ⟨line, rest, hfirst, hline⟩ := eq_append_cons_of_mem hmem
    have hshorter : rest.length < first.length := by
      rw [hfirst, length_append, length_cons]
      omega
    rw [hfirst, append_assoc, append_assoc, cons_append, cons_append,
      lines_cons hline, lines_cons hline, lines_append_cons rest after, cons_append]
  · rw [lines_cons hmem, lines_cons hmem]
    rfl
termination_by first.length

theorem lines_single {text : Str} (h : '\n' ∉ text) (hne : text ≠ []) : lines text = [text] := by
  rw [lines, splitOn_eq_singleton h]
  simp [hne]

/-- Lines written with their terminators are read back. -/
theorem lines_flatMap {all : List Str} (h : ∀ line ∈ all, '\n' ∉ line ∧ line.getLast? ≠ some '\r') :
    lines (all.flatMap (· ++ ['\n'])) = all := by
  have hjoin : all.flatMap (· ++ ['\n']) = ['\n'].intercalate (all ++ [[]]) := by
    clear h
    induction all with
    | nil => rfl
    | cons line rest ih =>
        have hne : rest ++ [[]] ≠ [] := by simp
        rw [flatMap_cons, ih, cons_append, intercalate_cons_of_ne_nil hne]
  have hsplit : (['\n'].intercalate (all ++ [[]])).splitOn '\n' = all ++ [[]] := by
    apply splitOn_intercalate
    · intro line hline
      rw [mem_append, mem_singleton] at hline
      obtain hline | rfl := hline
      · exact (h line hline).1
      · simp
    · simp
  have hmap : all.map dropCarriageReturn = all := by
    conv_rhs => rw [← map_id all]
    apply map_congr_left
    intro line hline
    exact dropCarriageReturn_eq_self (h line hline).2
  rw [lines, hjoin, hsplit]
  simp [hmap]

/-- Lines with a terminator between two of them are read back, unless the last one is empty. -/
theorem lines_intercalate {all : List Str} {last : Str}
    (h : ∀ line ∈ all ++ [last], '\n' ∉ line ∧ line.getLast? ≠ some '\r') (hlast : last ≠ []) :
    lines (['\n'].intercalate (all ++ [last])) = all ++ [last] := by
  have hsplit : (['\n'].intercalate (all ++ [last])).splitOn '\n' = all ++ [last] := by
    apply splitOn_intercalate
    · intro line hline
      exact (h line hline).1
    · simp
  have hmap : all.map dropCarriageReturn = all := by
    conv_rhs => rw [← map_id all]
    apply map_congr_left
    intro line hline
    exact dropCarriageReturn_eq_self (h line (mem_append_left _ hline)).2
  rw [lines, hsplit]
  simp [hmap, hlast]

/-- Lines with terminators between them are read back. -/
theorem lines_join {all : List Str} (hne : all ≠ [])
    (h : ∀ line ∈ all, '\n' ∉ line ∧ line.getLast? ≠ some '\r' ∧ line ≠ []) :
    lines (join ['\n'] all) = all := by
  rw [← dropLast_append_getLast hne] at h ⊢
  refine lines_intercalate (fun line hline => ?_) (h _ (by simp)).2.2
  obtain ⟨hbreak, hreturn, _⟩ := h line hline
  exact ⟨hbreak, hreturn⟩

/-! ## Reading lines back -/

/-- A text is read up to the first occurrence of a character. -/
theorem append_cons_inj {first second rest' : Str} (hfirst : c ∉ first) (hsecond : c ∉ second)
    (h : first ++ c :: rest = second ++ c :: rest') :
    first = second ∧ rest = rest' := by
  have hsplit : some (first, rest) = some (second, rest') := by
    rw [← splitOnce_append hfirst rest, h, splitOnce_append hsecond rest']
  exact Prod.mk.inj (some.inj hsplit)

/-- Lines are read one after the other up to a text that starts differently. -/
theorem flatMap_lines_inj {starts : Char → Bool} {first second : List Str} {rest' : Str}
    (hfirst : ∀ line ∈ first, '\n' ∉ line ∧ line.head?.any starts = true)
    (hsecond : ∀ line ∈ second, '\n' ∉ line ∧ line.head?.any starts = true)
    (hrest : rest.head?.any starts = false) (hrest' : rest'.head?.any starts = false)
    (h : first.flatMap (· ++ ['\n']) ++ rest = second.flatMap (· ++ ['\n']) ++ rest') :
    first = second ∧ rest = rest' := by
  have hstart : ∀ {line : Str} {lines : List Str} {text : Str}, line.head?.any starts = true →
      (((line :: lines).flatMap (· ++ ['\n']) ++ text).head?.any starts) = true := by
    intro line lines text hline
    cases line with
    | nil => cases hline
    | cons c line => exact hline
  induction first generalizing second with
  | nil =>
      cases second with
      | nil => exact ⟨rfl, h⟩
      | cons line second =>
          rw [flatMap_nil, nil_append] at h
          rw [h, hstart (hsecond line mem_cons_self).2] at hrest
          cases hrest
  | cons line first ih =>
      cases second with
      | nil =>
          rw [flatMap_nil, nil_append] at h
          rw [← h, hstart (hfirst line mem_cons_self).2] at hrest'
          cases hrest'
      | cons line' second =>
          rw [forall_mem_cons] at hfirst hsecond
          rw [flatMap_cons, flatMap_cons, append_assoc, append_assoc,
            append_assoc, append_assoc, singleton_append, singleton_append] at h
          obtain ⟨rfl, htail⟩ := append_cons_inj hfirst.1.1 hsecond.1.1 h
          obtain ⟨rfl, hend⟩ := ih hfirst.2 hsecond.2 htail
          exact ⟨rfl, hend⟩

/-- The last line is read back to the line break before it. -/
theorem append_line_inj {front front' line line' : Str} (hline : '\n' ∉ line)
    (hline' : '\n' ∉ line') (hfront : front.getLast? = some '\n')
    (hfront' : front'.getLast? = some '\n')
    (h : front ++ (line ++ ['\n']) = front' ++ (line' ++ ['\n'])) : front = front' ∧ line = line' := by
  obtain ⟨init, rfl⟩ := getLast?_eq_some_iff.mp hfront
  obtain ⟨init', rfl⟩ := getLast?_eq_some_iff.mp hfront'
  have hreverse := congrArg List.reverse h
  simp only [reverse_append, reverse_singleton, singleton_append] at hreverse
  obtain ⟨hline, hinit⟩ := append_cons_inj (by simpa using hline) (by simpa using hline')
    (List.cons.inj hreverse).2
  rw [reverse_inj] at hline hinit
  exact ⟨by rw [hinit], hline⟩

theorem prefix_of_prefix_append {start text : Str} (h : c ∉ start)
    (hstarts : start <+: text ++ c :: rest) : start <+: text := by
  have hlong : text ++ [c] <+: text ++ c :: rest := ⟨rest, by simp⟩
  rcases prefix_or_prefix_of_prefix hstarts hlong with hshort | hshort
  · rcases prefix_concat_iff.mp hshort with heq | hstart
    · rw [heq] at h
      exact absurd (mem_append_right _ (mem_singleton_self c)) h
    · exact hstart
  · exact absurd (hshort.subset (mem_append_right _ (mem_singleton_self c))) h

/-- A block that starts with a marker ends where a line starts with the marker again. -/
theorem append_block_inj {marker block block' rest' : Str} (hmarker : '\n' ∉ marker)
    (hblock : ¬ '\n' :: marker <:+: block) (hblock' : ¬ '\n' :: marker <:+: block')
    (hrest : rest = [] ∨ marker <+: rest) (hrest' : rest' = [] ∨ marker <+: rest')
    (h : block ++ '\n' :: rest = block' ++ '\n' :: rest') : block = block' ∧ rest = rest' := by
  -- the longer block would go on with the marker that the shorter one is followed by
  have hlonger : ∀ {short long more after after' : Str}, ¬ '\n' :: marker <:+: long →
      (after = [] ∨ marker <+: after) → long = short ++ more →
      '\n' :: after = more ++ '\n' :: after' → long = short ∧ after = after' := by
    intro short long more after after' hlong hafter heq htail
    cases more with
    | nil => exact ⟨by rw [heq, append_nil], (List.cons.inj htail).2⟩
    | cons c more =>
        rw [cons_append, List.cons.injEq] at htail
        obtain ⟨rfl, hsuffix⟩ := htail
        rcases hafter with rfl | hafter
        · simp at hsuffix
        · rw [hsuffix] at hafter
          obtain ⟨tail, rfl⟩ := prefix_of_prefix_append hmarker hafter
          exact absurd ⟨short, tail, by rw [heq]; simp⟩ hlong
  rcases append_eq_append_iff.mp h with ⟨more, heq, htail⟩ | ⟨more, heq, htail⟩
  · obtain ⟨hsame, hafter⟩ := hlonger hblock' hrest heq htail
    exact ⟨hsame.symm, hafter⟩
  · obtain ⟨hsame, hafter⟩ := hlonger hblock hrest' heq htail
    exact ⟨hsame, hafter.symm⟩

/-- Blocks that start with a marker are read one after the other. -/
theorem flatMap_blocks_inj {marker : Str} (hmarker : '\n' ∉ marker) {first second : List Str}
    (hfirst : ∀ block ∈ first, marker <+: block ∧ ¬ '\n' :: marker <:+: block)
    (hsecond : ∀ block ∈ second, marker <+: block ∧ ¬ '\n' :: marker <:+: block)
    (h : first.flatMap (· ++ ['\n']) = second.flatMap (· ++ ['\n'])) : first = second := by
  have hstart : ∀ {blocks : List Str}, (∀ block ∈ blocks, marker <+: block ∧
      ¬ '\n' :: marker <:+: block) →
      blocks.flatMap (· ++ ['\n']) = [] ∨ marker <+: blocks.flatMap (· ++ ['\n']) := by
    intro blocks hblocks
    cases blocks with
    | nil => exact .inl rfl
    | cons block rest =>
        obtain ⟨tail, rfl⟩ := (hblocks block mem_cons_self).1
        right
        exact ⟨tail ++ ['\n'] ++ rest.flatMap (· ++ ['\n']), by simp⟩
  induction first generalizing second with
  | nil =>
      cases second with
      | nil => rfl
      | cons block second => simp at h
  | cons block first ih =>
      cases second with
      | nil => simp at h
      | cons block' second =>
          rw [forall_mem_cons] at hfirst hsecond
          rw [flatMap_cons, flatMap_cons, append_assoc, append_assoc,
            singleton_append, singleton_append] at h
          obtain ⟨rfl, hrest⟩ := append_block_inj hmarker hfirst.1.2 hsecond.1.2
            (hstart hfirst.2) (hstart hsecond.2) h
          rw [ih hfirst.2 hsecond.2 hrest]

/-! ## The stored form -/

theorem utf8Encode_eq (s : Str) : s.utf8Encode = ⟨(bytes s).toArray⟩ := by
  rw [List.utf8Encode, bytes]
  ext1
  simp

theorem fromUtf8_bytes (s : Str) : fromUtf8 (bytes s) = some s := by
  have hvalid : ByteArray.IsValidUTF8 ⟨(bytes s).toArray⟩ := ⟨s, (utf8Encode_eq s).symm⟩
  rw [fromUtf8, String.fromUTF8?, dif_pos hvalid, Option.map_some]
  have hstring : String.fromUTF8 ⟨(bytes s).toArray⟩ hvalid = String.ofList s := by
    rw [← String.toByteArray_inj, String.toByteArray_ofList, utf8Encode_eq]
    rfl
  rw [hstring, String.toList_ofList]

theorem fromUtf8_eq_some_iff {input : List UInt8} :
    fromUtf8 input = some s ↔ bytes s = input := by
  constructor
  · intro h
    by_cases hvalid : ByteArray.IsValidUTF8 ⟨input.toArray⟩
    · obtain ⟨chars, hchars⟩ := hvalid
      have hinput : bytes chars = input := by
        rw [utf8Encode_eq] at hchars
        simpa using hchars.symm
      rw [← hinput, fromUtf8_bytes] at h
      rw [← some.inj h, hinput]
    · rw [fromUtf8, String.fromUTF8?, dif_neg hvalid] at h
      cases h
  · intro h
    rw [← h, fromUtf8_bytes]

theorem bytes_injective : Function.Injective bytes := by
  intro first second h
  have hsome : some first = some second := by rw [← fromUtf8_bytes first, h, fromUtf8_bytes]
  exact some.inj hsome

theorem length_bytes (s : Str) : (bytes s).length = byteLen s := by
  rw [bytes, byteLen, length_flatMap]
  simp

theorem byteLen_eq_zero (h : byteLen s = 0) : s = [] := by
  cases s with
  | nil => rfl
  | cons c rest =>
      have hsize := c.utf8Size_pos
      rw [byteLen, map_cons, sum_cons] at h
      omega

theorem length_le_byteLen (s : Str) : s.length ≤ byteLen s := by
  induction s with
  | nil => exact le_rfl
  | cons c rest ih =>
      have hsize := c.utf8Size_pos
      rw [byteLen] at ih ⊢
      rw [map_cons, sum_cons, length_cons]
      omega

/-- A byte of a stored character is its code or has the highest bit. -/
theorem toNat_of_mem_utf8EncodeChar {byte : UInt8} (h : byte ∈ String.utf8EncodeChar c) :
    byte.toNat = c.toNat ∨ 128 ≤ byte.toNat := by
  unfold String.utf8EncodeChar at h
  dsimp only at h
  have hcode : c.val.toNat = c.toNat := rfl
  rw [hcode] at h
  split_ifs at h with hone
  · left
    obtain rfl := mem_singleton.mp h
    rw [UInt8.toNat_ofNat']
    omega
  all_goals
    right
    simp only [mem_cons, not_mem_nil, or_false] at h
    rcases h with rfl | rfl | rfl | rfl <;> rw [UInt8.toNat_ofNat'] <;> omega

/-- An ASCII text is stored as the codes of its characters. -/
theorem bytes_ascii (h : ∀ c ∈ s, c.toNat < 128) : bytes s = s.map Char.toUInt8 := by
  induction s with
  | nil => rfl
  | cons c rest ih =>
      have hsize : c.utf8Size = 1 := by
        rw [Char.utf8Size_eq_one_iff]
        have := h c mem_cons_self
        rw [UInt32.le_iff_toNat_le]
        exact Nat.le_of_lt_succ this
      rw [bytes, flatMap_cons, String.utf8EncodeChar_eq_singleton hsize, ← bytes,
        ih fun other hother => h other (mem_cons_of_mem _ hother)]
      rfl

end Text
