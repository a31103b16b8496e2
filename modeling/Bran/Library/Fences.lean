import Mathlib.Data.List.Infix

/-!
# Words and the pieces of a text

When a word of known characters occurs in a text that was put together from pieces.  A character the
word does not have is a fence that no occurrence crosses, so that a text whose pieces are fenced off
has the word only where a piece has it.  An escape that replaces characters by a fence and a letter
adds no occurrence of a word that does not start with that letter.
-/

namespace Fences

open List

variable {α β : Type*} {word : List α}

/-- An occurrence does not cross a character that the word does not have. -/
theorem infix_append_cons {first rest : List α} {fence : α} (hfence : fence ∉ word)
    (h : word <:+: first ++ fence :: rest) : word <:+: first ∨ word <:+: rest := by
  induction first with
  | nil =>
      rcases infix_cons_iff.mp h with hstart | hrest
      · cases word with
        | nil => exact .inl infix_rfl
        | cons c word =>
            obtain rfl := (cons_prefix_cons.mp hstart).1
            exact absurd mem_cons_self hfence
      · exact .inr hrest
  | cons c first ih =>
      rcases infix_cons_iff.mp h with hstart | htail
      · -- an occurrence at the start ends before the fence
        left
        have hstart : word <+: (c :: first) ++ fence :: rest := hstart
        rcases prefix_or_prefix_of_prefix hstart (prefix_append _ _) with h | ⟨tail, rfl⟩
        · exact h.isInfix
        · cases tail with
          | nil => exact ⟨[], [], by simp⟩
          | cons d tail =>
              have htail := (prefix_append_right_inj (c :: first)).mp hstart
              obtain rfl := (cons_prefix_cons.mp htail).1
              exact absurd (by simp) hfence
      · rcases ih htail with hfirst | hrest
        · exact .inl (hfirst.trans (suffix_cons c first).isInfix)
        · exact .inr hrest

section Fence

variable {p : α → Bool}

theorem not_mem_of_class (hword : ∀ c ∈ word, p c = true) {fence : α} (hfence : p fence = false) :
    fence ∉ word := by
  intro hmem
  rw [hword fence hmem] at hfence
  cases hfence

/-- Two pieces with a fence between them. -/
theorem not_infix_fence (hword : ∀ c ∈ word, p c = true) {first fence rest : List α}
    (hne : fence ≠ []) (hfence : ∀ c ∈ fence, p c = false) (hfirst : ¬ word <:+: first)
    (hrest : ¬ word <:+: rest) : ¬ word <:+: first ++ (fence ++ rest) := by
  induction fence generalizing first with
  | nil => exact absurd rfl hne
  | cons c fence ih =>
      obtain ⟨hc, hall⟩ := forall_mem_cons.mp hfence
      intro hoccurs
      rcases infix_append_cons (not_mem_of_class hword hc) hoccurs with h | h
      · exact hfirst h
      · by_cases hlast : fence = []
        · rw [hlast] at h
          exact hrest h
        · have hnil : ¬ word <:+: [] := fun hnil => hfirst (hnil.trans nil_infix)
          exact ih hlast hall hnil h

/-- Pieces of which each ends in a fence. -/
theorem not_infix_flatMap (hword : ∀ c ∈ word, p c = true) {items : List β} {piece : β → List α}
    {rest : List α} {fence : α} (hfence : p fence = false)
    (hpieces : ∀ item ∈ items, ¬ word <:+: piece item) (hrest : ¬ word <:+: rest) :
    ¬ word <:+: items.flatMap (fun item => piece item ++ [fence]) ++ rest := by
  induction items with
  | nil => exact hrest
  | cons item items ih =>
      obtain ⟨hitem, hitems⟩ := forall_mem_cons.mp hpieces
      rw [flatMap_cons, append_assoc, append_assoc, singleton_append]
      intro hoccurs
      rcases infix_append_cons (not_mem_of_class hword hfence) hoccurs with h | h
      · exact hitem h
      · exact ih hitems h

end Fence

/-! ## Escapes -/

section Escape

variable {escape : α → List α} {fence : α} {letters : List α}

/-- Each character is kept, or replaced by the fence and a letter. -/
def Escapes (escape : α → List α) (fence : α) (letters : List α) : Prop :=
  ∀ c, escape c = [c] ∨ ∃ letter ∈ letters, escape c = [fence, letter]

theorem prefix_of_prefix_escape (hescape : Escapes escape fence letters) {start value : List α}
    (hfence : fence ∉ start) (h : start <+: value.flatMap escape) : start <+: value := by
  induction value generalizing start with
  | nil => exact h
  | cons c rest ih =>
      cases start with
      | nil => exact nil_prefix
      | cons d start =>
          rw [flatMap_cons] at h
          rcases hescape c with hkept | ⟨letter, _, hreplaced⟩
          · rw [hkept, singleton_append] at h
            obtain ⟨rfl, hstart⟩ := cons_prefix_cons.mp h
            exact cons_prefix_cons.mpr
              ⟨rfl, ih (fun hmem => hfence (mem_cons_of_mem _ hmem)) hstart⟩
          · rw [hreplaced] at h
            obtain ⟨rfl, _⟩ := cons_prefix_cons.mp h
            exact absurd mem_cons_self hfence

/-- Escaping a text adds no occurrence of a word that starts with none of the letters. -/
theorem infix_of_infix_escape (hescape : Escapes escape fence letters) (hfence : fence ∉ word)
    (hletters : ∀ c ∈ word.head?, c ∉ letters) {value : List α}
    (h : word <:+: value.flatMap escape) : word <:+: value := by
  induction value with
  | nil => exact h
  | cons c rest ih =>
      rw [flatMap_cons] at h
      rcases hescape c with hkept | ⟨letter, hletter, hreplaced⟩
      · rw [hkept, singleton_append] at h
        rcases infix_cons_iff.mp h with hstart | hrest
        · refine (prefix_of_prefix_escape hescape hfence ?_).isInfix
          rw [flatMap_cons, hkept]
          exact hstart
        · exact (ih hrest).trans (suffix_cons c rest).isInfix
      · rw [hreplaced] at h
        have hsplit : word <:+: [] ∨ word <:+: letter :: rest.flatMap escape :=
          infix_append_cons hfence h
        rcases hsplit with hnil | hrest
        · exact hnil.trans nil_infix
        · rcases infix_cons_iff.mp hrest with hstart | hrest
          · cases word with
            | nil => exact nil_infix
            | cons d word =>
                obtain ⟨rfl, _⟩ := cons_prefix_cons.mp hstart
                exact absurd hletter (hletters _ rfl)
          · exact (ih hrest).trans (suffix_cons c rest).isInfix

end Escape

end Fences
