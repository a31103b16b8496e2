import Mathlib.Algebra.GroupWithZero.Nat
import Mathlib.Algebra.Order.BigOperators.Group.List

/-!
# Prefixes within two bounds

A list is taken from the front for as long as both the number of its members and the sum of their
costs stay within a bound.  What is taken is the longest prefix within the bounds, and a larger bound
takes no less.
-/

universe u

namespace BoundedPrefix

open List

variable {α : Type u}

structure Within (cost : α → ℕ) (maxItems maxCost : ℕ) (items : List α) : Prop where
  length : items.length ≤ maxItems
  cost : (items.map cost).sum ≤ maxCost

theorem Within.nil (cost : α → ℕ) (maxItems maxCost : ℕ) : Within cost maxItems maxCost [] :=
  ⟨Nat.zero_le _, Nat.zero_le _⟩

theorem within_cons_iff {cost : α → ℕ} {maxItems maxCost : ℕ} {item : α} {rest : List α} :
    Within cost maxItems maxCost (item :: rest) ↔
      0 < maxItems ∧ cost item ≤ maxCost ∧
        Within cost (maxItems - 1) (maxCost - cost item) rest := by
  constructor
  · intro h
    have hlength := h.length
    have hcost := h.cost
    rw [length_cons] at hlength
    rw [map_cons, sum_cons] at hcost
    exact ⟨by omega, by omega, by omega, by omega⟩
  · intro h
    obtain ⟨hpos, hitem, hlength, hcost⟩ := h
    refine ⟨?_, ?_⟩
    · rw [length_cons]
      omega
    · rw [map_cons, sum_cons]
      omega

/-- Larger bounds hold what smaller ones hold. -/
theorem Within.mono {cost : α → ℕ} {maxItems maxItems' maxCost maxCost' : ℕ} {items : List α}
    (h : Within cost maxItems maxCost items) (hitems : maxItems ≤ maxItems')
    (hcost : maxCost ≤ maxCost') : Within cost maxItems' maxCost' items :=
  ⟨h.length.trans hitems, h.cost.trans hcost⟩

/-- The members at the front of a list that the bounds leave room for. -/
def takeWithin (cost : α → ℕ) : ℕ → ℕ → List α → List α
  | _, _, [] => []
  | 0, _, _ :: _ => []
  | maxItems + 1, maxCost, item :: rest =>
      if cost item ≤ maxCost then item :: takeWithin cost maxItems (maxCost - cost item) rest
      else []

variable {cost : α → ℕ} {maxItems maxCost : ℕ} {items : List α}

@[simp] theorem takeWithin_nil : takeWithin cost maxItems maxCost [] = [] := by
  cases maxItems <;> rfl

theorem takeWithin_cons_of_within {item : α} {rest : List α} (hpos : 0 < maxItems)
    (hitem : cost item ≤ maxCost) :
    takeWithin cost maxItems maxCost (item :: rest) =
      item :: takeWithin cost (maxItems - 1) (maxCost - cost item) rest := by
  cases maxItems with
  | zero => exact absurd hpos (Nat.lt_irrefl 0)
  | succ maxItems => exact if_pos hitem

theorem takeWithin_cons_of_full {item : α} {rest : List α}
    (h : maxItems = 0 ∨ maxCost < cost item) :
    takeWithin cost maxItems maxCost (item :: rest) = [] := by
  cases maxItems with
  | zero => rfl
  | succ maxItems =>
      rcases h with h | h
      · exact absurd h (Nat.succ_ne_zero _)
      · exact if_neg (not_le.mpr h)

theorem takeWithin_isPrefix : takeWithin cost maxItems maxCost items <+: items := by
  induction items generalizing maxItems maxCost with
  | nil =>
      simp
  | cons item rest ih =>
      by_cases h : 0 < maxItems ∧ cost item ≤ maxCost
      · rw [takeWithin_cons_of_within h.1 h.2]
        exact cons_prefix_cons.mpr ⟨rfl, ih⟩
      · rw [takeWithin_cons_of_full (by omega)]
        exact nil_prefix

theorem within_takeWithin :
    Within cost maxItems maxCost (takeWithin cost maxItems maxCost items) := by
  induction items generalizing maxItems maxCost with
  | nil =>
      rw [takeWithin_nil]
      exact .nil _ _ _
  | cons item rest ih =>
      by_cases h : 0 < maxItems ∧ cost item ≤ maxCost
      · rw [takeWithin_cons_of_within h.1 h.2, within_cons_iff]
        exact ⟨h.1, h.2, ih⟩
      · rw [takeWithin_cons_of_full (by omega)]
        exact .nil _ _ _

theorem isPrefix_takeWithin {other : List α} (hother : other <+: items)
    (h : Within cost maxItems maxCost other) :
    other <+: takeWithin cost maxItems maxCost items := by
  induction items generalizing maxItems maxCost other with
  | nil =>
      rw [prefix_nil.mp hother]
      exact nil_prefix
  | cons item rest ih =>
      cases other with
      | nil => exact nil_prefix
      | cons first other =>
          obtain ⟨rfl, hrest⟩ := cons_prefix_cons.mp hother
          obtain ⟨hpos, hitem, hwithin⟩ := within_cons_iff.mp h
          rw [takeWithin_cons_of_within hpos hitem]
          exact cons_prefix_cons.mpr ⟨rfl, ih hrest hwithin⟩

/-- Larger bounds take at least as much. -/
theorem takeWithin_mono {maxItems' maxCost' : ℕ} (hitems : maxItems ≤ maxItems')
    (hcost : maxCost ≤ maxCost') :
    takeWithin cost maxItems maxCost items <+: takeWithin cost maxItems' maxCost' items :=
  isPrefix_takeWithin takeWithin_isPrefix (within_takeWithin.mono hitems hcost)

end BoundedPrefix
