import Mathlib.Data.Finset.Sort

/-!
# The smallest members of a set

A set of bounded size into which members are put one after the other, where the largest goes out
when there are too many.  What stays are the smallest members of all that were put in: the front of
their order.
-/

namespace Smallest

open Finset

variable {α : Type*} [LinearOrder α]

/-- Without the largest member. -/
def popLast (s : Finset α) : Finset α := if h : s.Nonempty then s.erase (s.max' h) else s

/-- Puts a member in and takes the largest out when there are more than `limit`. -/
def put (limit : ℕ) (s : Finset α) (x : α) : Finset α :=
  if limit < (insert x s).card then popLast (insert x s) else insert x s

/-- `kept` are the smallest members of `all`, and as many of them as `limit` allows. -/
structure Of (limit : ℕ) (all kept : Finset α) : Prop where
  subset : kept ⊆ all
  card : kept.card = min limit all.card
  below : ∀ x ∈ kept, ∀ y ∈ all, y ∉ kept → x < y

variable {limit : ℕ} {all kept : Finset α} {x : α}

theorem Of.empty (limit : ℕ) : Of limit (∅ : Finset α) ∅ where
  subset := Finset.Subset.refl _
  card := (Nat.min_zero limit).symm
  below := fun _ hx => absurd hx (notMem_empty _)

/-- Nothing is left out while the limit is not reached. -/
theorem Of.eq (h : Of limit all kept) (hcard : all.card ≤ limit) : kept = all := by
  refine eq_of_subset_of_card_le h.subset ?_
  rw [h.card, min_eq_right hcard]

theorem put_subset : put limit kept x ⊆ insert x kept := by
  unfold put popLast
  split_ifs
  · exact erase_subset _ _
  · exact Finset.Subset.refl _
  · exact Finset.Subset.refl _

/-- While there is room a member stays. -/
theorem Of.put_of_card_le (h : Of limit all kept) (hroom : (insert x kept).card ≤ limit) :
    Of limit (insert x all) (insert x kept) := by
  by_cases hx : x ∈ kept
  · rw [insert_eq_of_mem hx, insert_eq_of_mem (h.subset hx)]
    exact h
  · rw [card_insert_of_notMem hx] at hroom
    have hall : kept = all := by
      refine h.eq ?_
      have hcard := h.card
      omega
    rw [← hall]
    exact ⟨Finset.Subset.refl _, (min_eq_right (by rwa [card_insert_of_notMem hx])).symm,
      fun _ _ y hy hnot => absurd hy hnot⟩

/-- When there is no room the largest member goes. -/
theorem Of.put_of_lt_card (h : Of limit all kept) (hfull : limit < (insert x kept).card) :
    Of limit (insert x all) (popLast (insert x kept)) := by
  have hne : (insert x kept).Nonempty := insert_nonempty x kept
  have hkept : kept.card ≤ limit := h.card.trans_le (min_le_left _ _)
  have hx : x ∉ kept := by
    intro hx
    rw [insert_eq_of_mem hx] at hfull
    omega
  have hcard := card_insert_of_notMem hx
  have hsubset : insert x kept ⊆ insert x all := insert_subset_insert x h.subset
  have hlargest : ∀ a ∈ insert x kept,
      a ≠ (insert x kept).max' hne → a < (insert x kept).max' hne :=
    fun a ha hneq => lt_of_le_of_ne (le_max' _ a ha) hneq
  rw [popLast, dif_pos hne]
  refine ⟨(erase_subset _ _).trans hsubset, ?_, ?_⟩
  · have hle := card_le_card hsubset
    rw [card_erase_of_mem (max'_mem _ hne)]
    omega
  · intro a ha y hy hnot
    obtain ⟨hneq, ha⟩ := mem_erase.mp ha
    by_cases hlast : y = (insert x kept).max' hne
    · rw [hlast]
      exact hlargest a ha hneq
    · have hy' : y ∉ insert x kept := fun hmem => hnot (mem_erase.mpr ⟨hlast, hmem⟩)
      rw [mem_insert, not_or] at hy'
      have hall : y ∈ all := (mem_insert.mp hy).resolve_left hy'.1
      rcases mem_insert.mp ha with rfl | ha
      · -- the new member is below the largest, which was there before
        have hmax := hlargest a (mem_insert_self _ _) hneq
        have hbefore : (insert a kept).max' hne ∈ kept :=
          (mem_insert.mp (max'_mem _ hne)).resolve_left (Ne.symm hneq)
        exact hmax.trans (h.below _ hbefore y hall hy'.2)
      · exact h.below a ha y hall hy'.2

theorem Of.put (h : Of limit all kept) : Of limit (insert x all) (put limit kept x) := by
  unfold Smallest.put
  split_ifs with hfull
  · exact h.put_of_lt_card hfull
  · exact h.put_of_card_le (not_lt.mp hfull)

/-- A member goes exactly when the limit is passed, be it now or before. -/
theorem Of.lt_card_iff (h : Of limit all kept) :
    limit < (insert x all).card ↔ limit < all.card ∨ limit < (insert x kept).card := by
  constructor
  · intro hlt
    by_contra hnot
    rw [not_or, not_lt, not_lt] at hnot
    rw [h.eq hnot.1] at hnot
    omega
  · intro hor
    have hall := card_le_card (subset_insert x all)
    have hkept := card_le_card (insert_subset_insert x h.subset)
    omega

/-- What is kept is the front of the order of all. -/
theorem Of.sort_eq (h : Of limit all kept) : kept.sort = all.sort.take limit := by
  have hsplit : all.sort = kept.sort ++ (all \ kept).sort := by
    have hperm : (kept.sort ++ (all \ kept).sort).Perm all.sort := by
      refine (List.perm_ext_iff_of_nodup ?_ (sort_nodup all _)).mpr fun y => ?_
      · refine List.Nodup.append (sort_nodup kept _) (sort_nodup _ _) ?_
        intro y hy hy'
        rw [mem_sort] at hy hy'
        exact (mem_sdiff.mp hy').2 hy
      · rw [List.mem_append, mem_sort, mem_sort, mem_sort, mem_sdiff]
        constructor
        · intro hy
          exact hy.elim (fun hy => h.subset hy) fun hy => hy.1
        · intro hy
          by_cases hmem : y ∈ kept
          · exact Or.inl hmem
          · exact Or.inr ⟨hy, hmem⟩
    have hsorted : (kept.sort ++ (all \ kept).sort).Pairwise (· ≤ ·) := by
      refine List.pairwise_append.mpr ⟨pairwise_sort _ _, pairwise_sort _ _, ?_⟩
      intro y hy z hz
      rw [mem_sort] at hy hz
      obtain ⟨hz, hnot⟩ := mem_sdiff.mp hz
      exact (h.below y hy z hz hnot).le
    exact (hperm.eq_of_pairwise' hsorted (pairwise_sort _ _)).symm
  have hlength : kept.sort.length = min limit all.card := (length_sort _).trans h.card
  rcases le_total limit all.card with hle | hle
  · rw [min_eq_left hle] at hlength
    rw [hsplit, ← hlength, List.take_left]
  · rw [h.eq hle, List.take_of_length_le]
    rwa [length_sort]

end Smallest
