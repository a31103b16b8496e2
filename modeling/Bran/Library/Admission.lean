import Bran.Library.Validation

/-!
# Greedy admission

A list of items is gone through once.  Each item is judged against the items
admitted before it: it is admitted, left out for a reason, or refused with an
error that ends the pass.  `Admits` is the course of a successful pass; what a
pass keeps and what it drops is derived from it by induction on its steps.
-/

namespace Admission

open List Validation

universe u

variable {α β : Type u} {ε : Type*}

/-- The items admitted and the items left out so far, in order. -/
structure Outcome (α β : Type u) where
  admitted : List α
  omitted : List (α × β)

/-- The outcome before the first item. -/
def Outcome.empty : Outcome α β := ⟨[], []⟩

/-- The outcome after one more item was judged. -/
def Outcome.add (outcome : Outcome α β) (item : α) : Option β → Outcome α β
  | none => { outcome with admitted := outcome.admitted ++ [item] }
  | some reason => { outcome with omitted := outcome.omitted ++ [(item, reason)] }

/-- The pass; `judge` sees the items admitted so far and returns the reason to leave an item
out, if there is one. -/
def admitAll (judge : List α → α → Except ε (Option β)) :
    List α → Outcome α β → Except ε (Outcome α β)
  | [], outcome => .ok outcome
  | item :: rest, outcome => do
      let reason ← judge outcome.admitted item
      admitAll judge rest (outcome.add item reason)

variable {judge : List α → α → Except ε (Option β)}

theorem admitAll_append (first second : List α) (outcome : Outcome α β) :
    admitAll judge (first ++ second) outcome =
      admitAll judge first outcome >>= admitAll judge second := by
  induction first generalizing outcome with
  | nil => rfl
  | cons item rest ih =>
      rw [cons_append, admitAll, admitAll, bind_assoc]
      exact bind_congr fun reason => ih _

/-- The course of a successful pass over `items`. -/
inductive Admits (judge : List α → α → Except ε (Option β)) : List α → Outcome α β → Prop
  | start : Admits judge [] .empty
  | accept {items : List α} {outcome : Outcome α β} {item : α} :
      Admits judge items outcome → judge outcome.admitted item = .ok none →
      Admits judge (items ++ [item]) (outcome.add item none)
  | leave {items : List α} {outcome : Outcome α β} {item : α} {reason : β} :
      Admits judge items outcome → judge outcome.admitted item = .ok (some reason) →
      Admits judge (items ++ [item]) (outcome.add item (some reason))

theorem admits_of_admitAll_from {done items : List α} {before after : Outcome α β}
    (hdone : Admits judge done before) (h : admitAll judge items before = .ok after) :
    Admits judge (done ++ items) after := by
  induction items generalizing done before with
  | nil =>
      obtain rfl := Except.ok.inj h
      rw [append_nil]
      exact hdone
  | cons item rest ih =>
      rw [admitAll, bind_eq_ok_iff] at h
      obtain ⟨reason, hjudge, hrest⟩ := h
      have hassoc : done ++ item :: rest = done ++ [item] ++ rest := by simp
      rw [hassoc]
      cases reason with
      | none => exact ih (hdone.accept hjudge) hrest
      | some reason => exact ih (hdone.leave hjudge) hrest

/-- A successful pass has a course. -/
theorem admits_of_admitAll {items : List α} {outcome : Outcome α β}
    (h : admitAll judge items .empty = .ok outcome) : Admits judge items outcome :=
  admits_of_admitAll_from .start h

namespace Admits

variable {items : List α} {outcome : Outcome α β}

/-- Every item ends up in exactly one of the two lists. -/
theorem perm (h : Admits judge items outcome) :
    (outcome.admitted ++ outcome.omitted.map Prod.fst).Perm items := by
  induction h with
  | start => exact List.Perm.refl _
  | @accept items outcome item _ _ ih =>
      have hswap : (outcome.admitted ++ [item] ++ outcome.omitted.map Prod.fst).Perm
          (outcome.admitted ++ outcome.omitted.map Prod.fst ++ [item]) := by
        rw [append_assoc, append_assoc]
        exact List.Perm.append_left _ perm_append_comm
      exact hswap.trans (ih.append_right [item])
  | @leave items outcome item reason _ _ ih =>
      have hassoc : (outcome.add item (some reason)).admitted ++
          (outcome.add item (some reason)).omitted.map Prod.fst =
          outcome.admitted ++ outcome.omitted.map Prod.fst ++ [item] := by
        simp [Outcome.add]
      rw [hassoc]
      exact ih.append_right [item]

/-- The admitted items keep their order. -/
theorem sublist (h : Admits judge items outcome) : outcome.admitted.Sublist items := by
  induction h with
  | start => exact List.Sublist.refl _
  | accept _ _ ih => exact ih.append (List.Sublist.refl _)
  | leave _ _ ih => exact ih.trans (sublist_append_left _ _)

/-- What an admission preserves holds of the admitted items. -/
theorem invariant {P : List α → Prop} (h : Admits judge items outcome) (hstart : P [])
    (hstep : ∀ admitted, ∀ item ∈ items, P admitted → judge admitted item = .ok none →
      P (admitted ++ [item])) : P outcome.admitted := by
  induction h with
  | start => exact hstart
  | accept _ hjudge ih =>
      refine hstep _ _ (by simp) (ih ?_) hjudge
      exact fun admitted item hitem => hstep admitted item (mem_append_left _ hitem)
  | leave _ _ ih =>
      exact ih fun admitted item hitem => hstep admitted item (mem_append_left _ hitem)

/-- An item that was left out was judged against the admitted items in front of it. -/
theorem omitted_spec (h : Admits judge items outcome) {item : α} {reason : β}
    (hitem : (item, reason) ∈ outcome.omitted) :
    ∃ before after, outcome.admitted = before ++ after ∧
      judge before item = .ok (some reason) ∧ (before ++ item :: after).Sublist items := by
  induction h with
  | start => exact absurd hitem not_mem_nil
  | @accept items outcome other _ _ ih =>
      obtain ⟨before, after, hadmitted, hjudge, hsublist⟩ := ih hitem
      refine ⟨before, after ++ [other], ?_, hjudge, ?_⟩
      · rw [← append_assoc, ← hadmitted]
        rfl
      · rw [← cons_append, ← append_assoc]
        exact hsublist.append (List.Sublist.refl _)
  | @leave items outcome other _ hcourse hjudged ih =>
      rcases mem_append.mp hitem with hold | hnew
      · obtain ⟨before, after, hadmitted, hjudge, hsublist⟩ := ih hold
        exact ⟨before, after, hadmitted, hjudge, hsublist.trans (sublist_append_left _ _)⟩
      · obtain ⟨rfl, rfl⟩ := Prod.mk.inj (mem_singleton.mp hnew)
        refine ⟨outcome.admitted, [], (append_nil _).symm, hjudged, ?_⟩
        exact hcourse.sublist.append (List.Sublist.refl _)

/-- An item that is never left out is admitted. -/
theorem mem_admitted (h : Admits judge items outcome) {item : α} (hitem : item ∈ items)
    (hkept : ∀ admitted reason, judge admitted item ≠ .ok (some reason)) :
    item ∈ outcome.admitted := by
  rcases mem_append.mp (h.perm.mem_iff.mpr hitem) with hadmitted | homitted
  · exact hadmitted
  · obtain ⟨⟨_, reason⟩, hmem, rfl⟩ := mem_map.mp homitted
    obtain ⟨before, _, _, hjudge, _⟩ := h.omitted_spec hmem
    exact absurd hjudge (hkept before reason)

/-- An admitted item was judged after the items in front of it in the list. -/
theorem admitted_spec (h : Admits judge items outcome) {item : α}
    (hitem : item ∈ outcome.admitted) :
    ∃ before after middle, items = before ++ item :: after ∧ Admits judge before middle ∧
      judge middle.admitted item = .ok none := by
  induction h with
  | start => exact absurd hitem not_mem_nil
  | @accept items outcome other hcourse hjudged ih =>
      rcases mem_append.mp hitem with hold | hnew
      · obtain ⟨before, after, middle, rfl, hmiddle, hjudge⟩ := ih hold
        exact ⟨before, after ++ [other], middle, by simp, hmiddle, hjudge⟩
      · obtain rfl := mem_singleton.mp hnew
        exact ⟨items, [], outcome, rfl, hcourse, hjudged⟩
  | @leave items outcome other reason _ _ ih =>
      obtain ⟨before, after, middle, rfl, hmiddle, hjudge⟩ := ih hitem
      exact ⟨before, after ++ [other], middle, by simp, hmiddle, hjudge⟩

/-- The pass follows its course. -/
theorem admitAll_eq (h : Admits judge items outcome) :
    admitAll judge items .empty = .ok outcome := by
  induction h with
  | start => rfl
  | accept _ hjudge ih | leave _ hjudge ih =>
      rw [admitAll_append, ih, ok_bind, admitAll, hjudge]
      rfl

end Admits

/-- Items stay admitted. -/
theorem prefix_of_admitAll {items : List α} {before after : Outcome α β}
    (h : admitAll judge items before = .ok after) : before.admitted <+: after.admitted := by
  induction items generalizing before with
  | nil =>
      obtain rfl := Except.ok.inj h
      exact prefix_refl _
  | cons item rest ih =>
      rw [admitAll, bind_eq_ok_iff] at h
      obtain ⟨reason, _, hrest⟩ := h
      refine List.IsPrefix.trans ?_ (ih hrest)
      cases reason with
      | none => exact prefix_append _ _
      | some reason => exact prefix_refl _

/-- An item that is judged to fit after the items in front of it is admitted. -/
theorem mem_admitted_of_judge {before after : List α} {item : α} {middle outcome : Outcome α β}
    (hbefore : admitAll judge before .empty = .ok middle)
    (hjudge : judge middle.admitted item = .ok none)
    (h : admitAll judge (before ++ item :: after) .empty = .ok outcome) :
    item ∈ outcome.admitted := by
  rw [admitAll_append, hbefore, ok_bind, admitAll, hjudge, ok_bind] at h
  exact (prefix_of_admitAll h).subset (by simp [Outcome.add])

end Admission
