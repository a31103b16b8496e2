import Mathlib.Algebra.Group.Int.Defs
import Mathlib.Algebra.GroupWithZero.Nat
import Mathlib.Data.Finset.Insert
import Mathlib.Data.List.Sort

/-!
# Fallible passes and canonical lists

Two things that constructors of validated records are made of.  A fallible
computation is a sequence of checks in `Except`, of which the first that fails
decides; `bind_eq_ok_iff` and `forEach_eq_ok_iff` take such a sequence apart.  A
collection without an order of its own is kept as a strictly increasing list;
`normalize` brings any list into that form, and two lists of the same members
into the same one.
-/

universe u

namespace Validation

open List

variable {α β : Type u} {ε : Type*}

variable {error : ε} {first : Except ε α}

/-! ## Fallible computations -/

@[simp] theorem ok_bind {value : α} {next : α → Except ε β} :
    (Except.ok value >>= next) = next value := rfl

theorem error_bind {next : α → Except ε β} :
    (Except.error error >>= next) = .error error := rfl

/-- A sequence of two computations succeeds when both do. -/
theorem bind_eq_ok_iff {next : α → Except ε β} {result : β} :
    (first >>= next) = .ok result ↔ ∃ value, first = .ok value ∧ next value = .ok result := by
  cases first with
  | error error | ok value => simp [bind, Except.bind]

theorem map_eq_ok_iff {f : α → β} {result : β} :
    first.map f = .ok result ↔ ∃ value, first = .ok value ∧ f value = result := by
  cases first with
  | error error => simp [Except.map]
  | ok value => simp [Except.map]

theorem bind_eq_error_iff {next : α → Except ε β} :
    (first >>= next) = .error error ↔
      first = .error error ∨ ∃ value, first = .ok value ∧ next value = .error error := by
  cases first with
  | error failure =>
      rw [error_bind, Except.error.injEq, Except.error.injEq]
      constructor
      · intro h
        exact .inl h
      · intro h
        obtain h | ⟨_, h, _⟩ := h
        · exact h
        · cases h
  | ok value =>
      constructor
      · intro h
        exact .inr ⟨value, rfl, h⟩
      · intro h
        obtain h | ⟨_, h, hnext⟩ := h
        · cases h
        · cases h
          exact hnext

theorem check_bind_eq_ok_iff {β : Type} {check : Except ε Unit} {next : Except ε β} {result : β} :
    (check >>= fun _ => next) = .ok result ↔ check = .ok () ∧ next = .ok result := by
  rw [bind_eq_ok_iff]
  constructor
  · rintro ⟨⟨⟩, hcheck, hnext⟩
    exact ⟨hcheck, hnext⟩
  · rintro ⟨hcheck, hnext⟩
    exact ⟨(), hcheck, hnext⟩

/-- Two continuations that agree on what the first computation returns. -/
theorem bind_congr_ok {next next' : α → Except ε β}
    (h : ∀ value, first = .ok value → next value = next' value) :
    (first >>= next) = (first >>= next') := by
  cases first with
  | error error => rfl
  | ok value => exact h value rfl

/-- A loop over a list that stops at the first failed check. -/
def forEach (check : α → Except ε Unit) : List α → Except ε Unit
  | [] => .ok ()
  | item :: rest => do
      check item
      forEach check rest

@[simp] theorem forEach_eq_ok_iff {check : α → Except ε Unit} {items : List α} :
    forEach check items = .ok () ↔ ∀ item ∈ items, check item = .ok () := by
  induction items with
  | nil => simp [forEach]
  | cons item rest ih =>
      rw [forEach, check_bind_eq_ok_iff, ih, forall_mem_cons]

/-- Returns early with an error when a condition holds. -/
def failIf (condition : Prop) [Decidable condition] (error : ε) : Except ε Unit :=
  if condition then .error error else .ok ()

@[simp] theorem failIf_eq_ok_iff {condition : Prop} [Decidable condition] :
    failIf condition error = .ok () ↔ ¬ condition := by
  unfold failIf
  split_ifs with h <;> simp [h]

theorem failIf_bind_eq {β : Type} {condition : Prop} [Decidable condition]
    {next : Unit → Except ε β} (h : ¬ condition) : (failIf condition error >>= next) = next () := by
  rw [failIf_eq_ok_iff.mpr h]
  rfl

theorem failIf_eq_error_iff {condition : Prop} [Decidable condition] {failure : ε} :
    failIf condition error = .error failure ↔ condition ∧ failure = error := by
  unfold failIf
  by_cases h : condition
  · rw [if_pos h, Except.error.injEq]
    exact ⟨fun heq => ⟨h, heq.symm⟩, fun heq => heq.2.symm⟩
  · rw [if_neg h]
    exact ⟨fun heq => (by cases heq), fun heq => absurd heq.1 h⟩

/-- What every error of a sequence satisfies. -/
theorem forall_error_bind {next : α → Except ε β} {P : ε → Prop}
    (hfirst : ∀ error, first = .error error → P error)
    (hnext : ∀ value, first = .ok value → ∀ error, next value = .error error → P error) :
    ∀ error, (first >>= next) = .error error → P error := by
  intro error h
  rcases bind_eq_error_iff.mp h with h | ⟨value, hvalue, h⟩
  · exact hfirst error h
  · exact hnext value hvalue error h

theorem forall_error_failIf {condition : Prop} [Decidable condition] {failure : ε} {P : ε → Prop}
    (h : P failure) : ∀ error, failIf condition failure = .error error → P error := by
  intro error herror
  rw [(failIf_eq_error_iff.mp herror).2]
  exact h

theorem mapError_eq_ok_iff {ε' : Type*} {f : ε → ε'} {result : α} :
    first.mapError f = .ok result ↔ first = .ok result := by
  cases first with
  | error error | ok value => simp [Except.mapError]

theorem mapError_eq_error_iff {ε' : Type*} {f : ε → ε'} {error : ε'} :
    first.mapError f = .error error ↔ ∃ failure, first = .error failure ∧ error = f failure := by
  cases first with
  | error failure => simp [Except.mapError, eq_comm]
  | ok value => simp [Except.mapError]

theorem toOption_eq_some_iff {outcome : Except ε α} {result : α} :
    outcome.toOption = some result ↔ outcome = .ok result := by
  cases outcome with
  | error error => exact ⟨fun h => (nomatch h), fun h => (nomatch h)⟩
  | ok value => exact ⟨fun h => (by cases h; rfl), fun h => (by cases h; rfl)⟩

/-- Returns early with an error about an item that was found. -/
def refuse {γ : Type*} (found : Option γ) (error : γ → ε) : Except ε Unit :=
  match found with
  | some item => .error (error item)
  | none => .ok ()

@[simp] theorem refuse_eq_ok_iff {γ : Type*} {found : Option γ} {error : γ → ε} :
    refuse found error = .ok () ↔ found = none := by
  cases found <;> simp [refuse]

/-- A pass in `Option` that succeeds on every element succeeds. -/
theorem mapM_spec {α β : Type} {f : α → Option β} {R : α → β → Prop} {items : List α}
    (h : ∀ item ∈ items, ∃ value, f item = some value ∧ R item value) :
    ∃ values, items.mapM f = some values ∧ List.Forall₂ R items values := by
  induction items with
  | nil => exact ⟨[], rfl, .nil⟩
  | cons item rest ih =>
      obtain ⟨value, hvalue, hR⟩ := h item mem_cons_self
      obtain ⟨values, hvalues, hrest⟩ := ih fun other hother => h other (mem_cons_of_mem _ hother)
      refine ⟨value :: values, ?_, .cons hR hrest⟩
      rw [mapM_cons, hvalue, hvalues]
      rfl

/-- A pass in `Option` whose results carry the key of the element they come from. -/
theorem mapM_key_spec {α β : Type} {γ : Type*} {f : α → Option β} {key : α → γ}
    {resultKey : β → γ} {P : β → Prop} {items : List α}
    (h : ∀ item ∈ items, ∃ value, f item = some value ∧ resultKey value = key item ∧ P value) :
    ∃ values, items.mapM f = some values ∧ values.map resultKey = items.map key ∧
      ∀ value ∈ values, P value := by
  obtain ⟨values, hvalues, hrelated⟩ := mapM_spec h
  refine ⟨values, hvalues, ?_⟩
  clear h hvalues
  induction hrelated with
  | nil => exact ⟨rfl, by simp⟩
  | cons hvalue _ ih =>
      obtain ⟨hkeys, hall⟩ := ih
      exact ⟨by rw [map_cons, map_cons, hvalue.1, hkeys],
        forall_mem_cons.mpr ⟨hvalue.2, hall⟩⟩

/-- A pass in `Except` is made element by element. -/
theorem mapM_eq_ok_iff {α β : Type} {f : α → Except ε β} {items : List α} {results : List β} :
    items.mapM f = .ok results ↔
      List.Forall₂ (fun item result => f item = .ok result) items results := by
  induction items generalizing results with
  | nil =>
      rw [mapM_nil, forall₂_nil_left_iff]
      exact ⟨fun h => (Except.ok.inj h).symm, fun h => congrArg Except.ok h.symm⟩
  | cons item rest ih =>
      rw [mapM_cons, bind_eq_ok_iff, forall₂_cons_left_iff]
      constructor
      · intro h
        obtain ⟨result, hresult, h⟩ := h
        obtain ⟨others, hothers, h⟩ := bind_eq_ok_iff.mp h
        exact ⟨result, others, hresult, ih.mp hothers, (Except.ok.inj h).symm⟩
      · intro h
        obtain ⟨result, others, hresult, hothers, rfl⟩ := h
        exact ⟨result, hresult, bind_eq_ok_iff.mpr ⟨others, ih.mpr hothers, rfl⟩⟩

/-- `usize::checked_add` on 64 bits. -/
def checkedAdd (left right : ℕ) (error : ε) : Except ε ℕ :=
  if left + right < 2 ^ 64 then .ok (left + right) else .error error

theorem checkedAdd_eq_ok_iff {left right value : ℕ} :
    checkedAdd left right error = .ok value ↔ left + right < 2 ^ 64 ∧ left + right = value := by
  unfold checkedAdd
  by_cases h : left + right < 2 ^ 64
  · rw [if_pos h, Except.ok.injEq]
    exact ⟨fun heq => ⟨h, heq⟩, fun heq => heq.2⟩
  · rw [if_neg h]
    exact ⟨fun heq => (by cases heq), fun heq => absurd heq.1 h⟩

theorem checkedAdd_eq_ok {left right : ℕ} (h : left + right < 2 ^ 64) :
    checkedAdd left right error = .ok (left + right) := if_pos h

/-- Collects the items of a list into a set; each is checked first, and a repeated one is
an error. -/
def collectDistinct {α : Type} [DecidableEq α] (check : α → Except ε Unit) (duplicate : α → ε) :
    List α → Finset α → Except ε (Finset α)
  | [], seen => .ok seen
  | item :: rest, seen => do
      check item
      failIf (item ∈ seen) (duplicate item)
      collectDistinct check duplicate rest (insert item seen)

theorem collectDistinct_eq_ok_iff {α : Type} [DecidableEq α] {check : α → Except ε Unit}
    {duplicate : α → ε} {items : List α} {seen result : Finset α} :
    collectDistinct check duplicate items seen = .ok result ↔
      (∀ item ∈ items, check item = .ok ()) ∧ items.Nodup ∧ (∀ item ∈ items, item ∉ seen) ∧
        (∀ item, item ∈ result ↔ item ∈ seen ∨ item ∈ items) := by
  induction items generalizing seen with
  | nil =>
      rw [collectDistinct, Except.ok.injEq, Finset.ext_iff]
      simp [iff_comm]
  | cons item rest ih =>
      rw [collectDistinct, check_bind_eq_ok_iff, check_bind_eq_ok_iff, failIf_eq_ok_iff, ih,
        forall_mem_cons, nodup_cons, forall_mem_cons]
      have hresult : (∀ other, other ∈ result ↔ other ∈ insert item seen ∨ other ∈ rest) ↔
          ∀ other, other ∈ result ↔ other ∈ seen ∨ other ∈ item :: rest := by
        refine forall_congr' fun other => ?_
        rw [Finset.mem_insert, mem_cons]
        tauto
      have hseen : (∀ other ∈ rest, other ∉ insert item seen) ↔
          item ∉ rest ∧ ∀ other ∈ rest, other ∉ seen := by
        simp only [Finset.mem_insert, not_or]
        constructor
        · intro h
          exact ⟨fun hitem => (h item hitem).1 rfl, fun other hother => (h other hother).2⟩
        · rintro ⟨hitem, h⟩ other hother
          exact ⟨fun heq => hitem (heq ▸ hother), h other hother⟩
      rw [hresult, hseen]
      tauto

/-! ## Canonical lists -/

section Canonical

variable [LinearOrder α]

/-- Drops the elements that repeat the last one kept. -/
def dedupAfter (last : α) : List α → List α
  | [] => []
  | item :: rest => if item = last then dedupAfter last rest else item :: dedupAfter item rest

/-- `Vec::dedup`. -/
def dedup : List α → List α
  | [] => []
  | item :: rest => item :: dedupAfter item rest

/-- `sort` followed by `dedup`. -/
def normalize (items : List α) : List α := dedup (items.insertionSort (· ≤ ·))

/-- Every element is below the next: no pair of `windows(2)` has `pair[0] >= pair[1]`. -/
def strictlySorted : List α → Bool
  | [] => true
  | [_] => true
  | first :: second :: rest => decide (first < second) && strictlySorted (second :: rest)

theorem strictlySorted_iff {items : List α} :
    strictlySorted items = true ↔ items.Pairwise (· < ·) := by
  induction items with
  | nil => simp [strictlySorted]
  | cons first rest ih =>
      cases rest with
      | nil => simp [strictlySorted]
      | cons second rest =>
          rw [strictlySorted, Bool.and_eq_true, decide_eq_true_iff, ih, pairwise_cons (a := first)]
          constructor
          · rintro ⟨hlt, hpairwise⟩
            refine ⟨fun item hitem => ?_, hpairwise⟩
            rcases mem_cons.mp hitem with rfl | hitem
            · exact hlt
            · exact hlt.trans ((pairwise_cons.mp hpairwise).1 item hitem)
          · rintro ⟨hfirst, hpairwise⟩
            exact ⟨hfirst second mem_cons_self, hpairwise⟩

theorem dedupAfter_spec {last : α} {items : List α} (hsorted : (last :: items).Pairwise (· ≤ ·)) :
    (last :: dedupAfter last items).Pairwise (· < ·) ∧
      ∀ item, item ∈ last :: dedupAfter last items ↔ item ∈ last :: items := by
  induction items generalizing last with
  | nil => simp [dedupAfter]
  | cons next rest ih =>
      rw [pairwise_cons] at hsorted
      obtain ⟨hlast, hrest⟩ := hsorted
      rw [dedupAfter]
      split_ifs with heq
      · subst heq
        obtain ⟨hpairwise, hmem⟩ := ih hrest
        refine ⟨hpairwise, fun item => ?_⟩
        rw [hmem]
        simp
      · obtain ⟨hpairwise, hmem⟩ := ih hrest
        have hlt : last < next :=
          lt_of_le_of_ne (hlast next mem_cons_self) (Ne.symm heq)
        refine ⟨?_, fun item => ?_⟩
        · rw [pairwise_cons]
          refine ⟨fun item hitem => ?_, hpairwise⟩
          rcases mem_cons.mp hitem with rfl | hitem
          · exact hlt
          · exact hlt.trans ((pairwise_cons.mp hpairwise).1 item hitem)
        · rw [mem_cons, hmem, ← mem_cons]

theorem normalize_spec (items : List α) :
    (normalize items).Pairwise (· < ·) ∧ ∀ item, item ∈ normalize items ↔ item ∈ items := by
  have hsorted := pairwise_insertionSort (· ≤ ·) items
  have hmem : ∀ item, item ∈ items.insertionSort (· ≤ ·) ↔ item ∈ items := fun item =>
    mem_insertionSort _
  unfold normalize
  generalize items.insertionSort (· ≤ ·) = sorted at hsorted hmem
  cases sorted with
  | nil => simpa [dedup] using hmem
  | cons first rest =>
      obtain ⟨hpairwise, hsame⟩ := dedupAfter_spec hsorted
      exact ⟨hpairwise, fun item => (hsame item).trans (hmem item)⟩

@[simp] theorem mem_normalize {items : List α} {item : α} : item ∈ normalize items ↔ item ∈ items :=
  (normalize_spec items).2 item

/-- Strictly increasing lists of the same members are equal. -/
theorem eq_of_pairwise_of_mem_iff {first second : List α} (hfirst : first.Pairwise (· < ·))
    (hsecond : second.Pairwise (· < ·)) (hmem : ∀ item, item ∈ first ↔ item ∈ second) :
    first = second := by
  have hperm : first.Perm second :=
    (perm_ext_iff_of_nodup (hfirst.imp ne_of_lt) (hsecond.imp ne_of_lt)).mpr hmem
  exact hperm.eq_of_pairwise (fun a b _ _ hab hba => absurd hab (not_lt.mpr hba.le))
    hfirst hsecond

theorem normalize_eq_of_perm {first second : List α} (hperm : first.Perm second) :
    normalize first = normalize second :=
  eq_of_pairwise_of_mem_iff (normalize_spec first).1 (normalize_spec second).1 fun item => by
    rw [mem_normalize, mem_normalize, hperm.mem_iff]

end Canonical

/-! ## Sorting records by an identity -/

section SortBy

variable {K : Type*} [LinearOrder K]

/-- `sort_by` on a key: a stable sort. -/
def sortBy (key : α → K) (items : List α) : List α :=
  items.insertionSort fun left right => key left ≤ key right

theorem sortBy_perm (key : α → K) (items : List α) : (sortBy key items).Perm items :=
  perm_insertionSort _ _

@[simp] theorem mem_sortBy {key : α → K} {items : List α} {item : α} :
    item ∈ sortBy key items ↔ item ∈ items :=
  (sortBy_perm key items).mem_iff

@[simp] theorem length_sortBy (key : α → K) (items : List α) :
    (sortBy key items).length = items.length :=
  (sortBy_perm key items).length_eq

theorem pairwise_sortBy (key : α → K) (items : List α) :
    (sortBy key items).Pairwise fun left right => key left ≤ key right := by
  have : Std.Total fun left right : α => key left ≤ key right := ⟨fun a b => le_total _ _⟩
  have : IsTrans α fun left right => key left ≤ key right := ⟨fun a b c => le_trans⟩
  exact pairwise_insertionSort _ items

/-- Without repeated keys the sorted list increases strictly. -/
theorem pairwise_lt_sortBy {key : α → K} {items : List α} (hnodup : (items.map key).Nodup) :
    ((sortBy key items).map key).Pairwise (· < ·) := by
  have hle : ((sortBy key items).map key).Pairwise (· ≤ ·) :=
    pairwise_map.mpr (pairwise_sortBy key items)
  have hne : ((sortBy key items).map key).Pairwise (· ≠ ·) :=
    ((sortBy_perm key items).map key).nodup_iff.mpr hnodup
  exact (hle.and hne).imp fun h => lt_of_le_of_ne h.1 h.2

/-- Without repeated keys the sorted list does not depend on the order it came in. -/
theorem sortBy_eq_of_perm {key : α → K} {first second : List α} (hperm : first.Perm second)
    (hnodup : (first.map key).Nodup) : sortBy key first = sortBy key second := by
  have hsorted : ∀ items : List α, (items.map key).Nodup →
      (sortBy key items).Pairwise fun left right => key left < key right := fun items h =>
    pairwise_map.mp (pairwise_lt_sortBy h)
  exact List.Perm.eq_of_pairwise (fun a b _ _ hab hba => absurd hab (not_lt.mpr hba.le))
    (hsorted first hnodup) (hsorted second ((hperm.map key).nodup_iff.mp hnodup))
    ((sortBy_perm key first).trans (hperm.trans (sortBy_perm key second).symm))

end SortBy

end Validation
