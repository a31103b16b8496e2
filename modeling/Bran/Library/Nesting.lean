import Mathlib.Data.List.Infix

/-!
# Nested brackets in a list

Some members of a list open a group, some close one and the others are leaves.  `Content` is a list
in which every group is closed, built in the order in which a reader appends to it, and `Partway` is
what such a reader holds while groups are open.
-/

namespace Nesting

open List

/-- What a member does to the nesting. -/
inductive Role where
  | opening
  | closing
  | leaf
  deriving DecidableEq

variable {α : Type*} (role : α → Role)

/-- Every group of the list is closed in it. -/
inductive Content : List α → Prop
  | nil : Content []
  | leaf {l : List α} {x : α} (h : Content l) (hx : role x = .leaf) : Content (l ++ [x])
  | group {l inner : List α} {x y : α} (h : Content l) (hinner : Content inner)
      (hx : role x = .opening) (hy : role y = .closing) : Content (l ++ x :: (inner ++ [y]))

/-- A row of groups, with nothing between them. -/
inductive Groups : ℕ → List α → Prop
  | nil : Groups 0 []
  | group {n : ℕ} {l inner : List α} {x y : α} (h : Groups n l) (hinner : Content role inner)
      (hx : role x = .opening) (hy : role y = .closing) : Groups (n + 1) (l ++ x :: (inner ++ [y]))

/-- A row of `n` groups of which the last may still be open, and `depth` groups are. -/
inductive Partway : ℕ → ℕ → List α → Prop
  | closed {n : ℕ} {l : List α} (h : Groups role n l) : Partway n 0 l
  | outer {n : ℕ} {l inner : List α} {x : α} (h : Groups role n l) (hx : role x = .opening)
      (hinner : Content role inner) : Partway (n + 1) 1 (l ++ x :: inner)
  | inner {n depth : ℕ} {l inner : List α} {x : α} (h : Partway n (depth + 1) l)
      (hx : role x = .opening) (hinner : Content role inner) :
      Partway n (depth + 2) (l ++ x :: inner)

variable {role} {n depth : ℕ} {l m inner : List α} {x y : α}

/-! ## Closed lists -/

theorem Content.append (hl : Content role l) (hm : Content role m) : Content role (l ++ m) := by
  induction hm with
  | nil =>
      rw [append_nil]
      exact hl
  | leaf h hx ih =>
      rw [← append_assoc]
      exact ih.leaf hx
  | group h hinner hx hy ih =>
      rw [← append_assoc]
      exact ih.group hinner hx hy

theorem Content.singleton (hx : role x = .leaf) : Content role [x] := Content.nil.leaf hx

/-- The last leaf can be taken off. -/
theorem Content.of_append_leaf (h : Content role (l ++ [x])) (hx : role x = .leaf) :
    Content role l := by
  generalize hwhole : l ++ [x] = whole at h
  cases h with
  | nil => exact absurd hwhole (append_ne_nil_of_right_ne_nil _ (cons_ne_nil _ _))
  | leaf h _ =>
      obtain ⟨rfl, -⟩ := append_inj' hwhole rfl
      exact h
  | @group l' inner' x' y' h hinner hx' hy' =>
      have hlast : l ++ [x] = (l' ++ x' :: inner') ++ [y'] := by
        rw [hwhole, append_assoc]
        rfl
      obtain ⟨-, hxy⟩ := append_inj' hlast rfl
      obtain rfl := (List.cons.inj hxy).1
      rw [hx] at hy'
      cases hy'

/-- Only the roles of the members matter. -/
theorem Content.of_map_eq (h : Content role l) (hmap : m.map role = l.map role) :
    Content role m := by
  induction h generalizing m with
  | nil =>
      obtain rfl := map_eq_nil_iff.mp hmap
      exact .nil
  | leaf h hx ih =>
      rw [map_append] at hmap
      obtain ⟨front, last, rfl, hfront, hlast⟩ := map_eq_append_iff.mp hmap
      obtain ⟨x', rfl, hx'⟩ := map_eq_singleton_iff.mp hlast
      exact (ih hfront).leaf (hx'.trans hx)
  | group h hinner hx hy ih ihinner =>
      rw [map_append, map_cons, map_append] at hmap
      obtain ⟨front, whole, rfl, hfront, hwhole⟩ := map_eq_append_iff.mp hmap
      obtain ⟨x', behind, rfl, hx', hbehind⟩ := map_eq_cons_iff.mp hwhole
      obtain ⟨inner', last, rfl, hinner', hlast⟩ := map_eq_append_iff.mp hbehind
      obtain ⟨y', rfl, hy'⟩ := map_eq_singleton_iff.mp hlast
      exact (ih hfront).group (ihinner hinner') (hx'.trans hx) (hy'.trans hy)

/-! ## Appending to a list with open groups -/

theorem Partway.open_outer (h : Partway role n 0 l) (hx : role x = .opening) :
    Partway role (n + 1) 1 (l ++ [x]) := by
  cases h with
  | closed h => exact .outer h hx .nil

theorem Partway.open_inner (h : Partway role n (depth + 1) l) (hx : role x = .opening) :
    Partway role n (depth + 2) (l ++ [x]) :=
  .inner h hx .nil

theorem Partway.append (h : Partway role n (depth + 1) l) (hm : Content role m) :
    Partway role n (depth + 1) (l ++ m) := by
  cases h with
  | outer h hx hinner =>
      rw [append_assoc, cons_append]
      exact .outer h hx (hinner.append hm)
  | inner h hx hinner =>
      rw [append_assoc, cons_append]
      exact .inner h hx (hinner.append hm)

theorem Partway.close (h : Partway role n (depth + 1) l) (hy : role y = .closing) :
    Partway role n depth (l ++ [y]) := by
  cases h with
  | outer h hx hinner =>
      rw [append_assoc, cons_append]
      exact .closed (h.group hinner hx hy)
  | inner h hx hinner =>
      rw [append_assoc, cons_append]
      exact h.append (Content.nil.group hinner hx hy)

theorem Partway.of_append_leaf (h : Partway role n (depth + 1) (l ++ [x])) (hx : role x = .leaf) :
    Partway role n (depth + 1) l := by
  have split : ∀ {front : List α} {z : α} {inner : List α}, role z = .opening →
      l ++ [x] = front ++ z :: inner →
      ∃ inner', inner = inner' ++ [x] ∧ l = front ++ z :: inner' := by
    intro front z inner hz heq
    rcases eq_nil_or_concat' inner with rfl | ⟨inner', last, rfl⟩
    · obtain ⟨-, hlast⟩ := append_inj' heq rfl
      rw [(List.cons.inj hlast).1, hz] at hx
      cases hx
    · have hwhole : l ++ [x] = (front ++ z :: inner') ++ [last] := by
        rw [heq, append_assoc, cons_append]
      obtain ⟨rfl, hlast⟩ := append_inj' hwhole rfl
      rw [(List.cons.inj hlast).1]
      exact ⟨inner', rfl, rfl⟩
  generalize hwhole : l ++ [x] = whole at h
  cases h with
  | outer h hz hinner =>
      obtain ⟨inner', rfl, rfl⟩ := split hz hwhole
      exact .outer h hz (hinner.of_append_leaf hx)
  | inner h hz hinner =>
      obtain ⟨inner', rfl, rfl⟩ := split hz hwhole
      exact .inner h hz (hinner.of_append_leaf hx)

/-- One closed group. -/
theorem Partway.eq_group (h : Partway role 1 0 l) : ∃ x inner y, role x = .opening ∧
    role y = .closing ∧ Content role inner ∧ l = x :: (inner ++ [y]) := by
  cases h with
  | closed h =>
      cases h with
      | group h hinner hx hy =>
          cases h
          exact ⟨_, _, _, hx, hy, hinner, rfl⟩

/-! ## Counting -/

variable (role) in
/-- How many groups a list opens. -/
def opens (l : List α) : ℕ := l.countP (role · = .opening)

variable (role) in
/-- How many groups a list closes. -/
def closes (l : List α) : ℕ := l.countP (role · = .closing)

theorem opens_append : opens role (l ++ m) = opens role l + opens role m := countP_append

theorem closes_append : closes role (l ++ m) = closes role l + closes role m := countP_append

theorem opens_cons : opens role (x :: l) = (if role x = .opening then 1 else 0) + opens role l := by
  rw [opens, countP_cons, Nat.add_comm]
  simp [opens]

theorem closes_cons :
    closes role (x :: l) = (if role x = .closing then 1 else 0) + closes role l := by
  rw [closes, countP_cons, Nat.add_comm]
  simp [closes]

/-- A closed list closes as many groups as it opens. -/
theorem Content.balance (h : Content role l) : opens role l = closes role l := by
  induction h with
  | nil => rfl
  | leaf h hx ih =>
      rw [opens_append, closes_append, opens_cons, closes_cons, hx, ih]
      rfl
  | group h hinner hx hy ih ihinner =>
      simp only [opens_append, closes_append, opens_cons, closes_cons, hx, hy, ih, ihinner,
        reduceCtorEq, if_true, if_false]
      simp only [opens, closes, countP_nil]
      omega

variable (role) in
/-- No prefix closes more groups than it opens, or has more than `most` of them open. -/
def Within (most : ℕ) (l : List α) : Prop :=
  ∀ front, front <+: l → closes role front ≤ opens role front ∧
    opens role front ≤ closes role front + most

theorem Within.nil (most : ℕ) : Within role most [] := by
  intro front hfront
  rw [prefix_nil.mp hfront]
  exact ⟨le_rfl, Nat.zero_le _⟩

theorem Within.concat {most : ℕ} (h : Within role most l)
    (hx : closes role (l ++ [x]) ≤ opens role (l ++ [x]) ∧
      opens role (l ++ [x]) ≤ closes role (l ++ [x]) + most) : Within role most (l ++ [x]) := by
  intro front hfront
  rcases prefix_concat_iff.mp hfront with rfl | hfront
  · exact hx
  · exact h front hfront

/-! ## The group behind an opening member -/

variable (role) in
/-- Behind every opening member stands what closes its group. -/
def Matched (l : List α) : Prop :=
  ∀ front x rest, l = front ++ x :: rest → role x = .opening →
    ∃ inner y tail, Content role inner ∧ role y = .closing ∧ rest = inner ++ y :: tail

theorem Matched.append (hl : Matched role l) (hm : Matched role m) : Matched role (l ++ m) := by
  intro front x rest heq hx
  rcases append_eq_append_iff.mp heq with ⟨between, rfl, hm'⟩ | ⟨between, hl', hrest⟩
  · exact hm _ _ _ hm' hx
  · cases between with
    | nil => exact hm [] x rest hrest.symm hx
    | cons z between =>
        obtain ⟨rfl, rfl⟩ := List.cons.inj hrest
        obtain ⟨inner, y, tail, hinner, hy, rfl⟩ := hl _ _ _ hl' hx
        exact ⟨inner, y, tail ++ m, hinner, hy, by simp⟩

theorem Matched.of_not_opening (hx : role x ≠ .opening) : Matched role [x] := by
  intro front z rest heq hz
  rcases cons_eq_append_iff.mp heq with ⟨rfl, hz'⟩ | ⟨front', -, hnil⟩
  · rw [(List.cons.inj hz').1] at hz
    exact absurd hz hx
  · exact absurd hnil.symm (append_ne_nil_of_right_ne_nil _ (cons_ne_nil _ _))

theorem Matched.group (hcontent : Content role inner) (hinner : Matched role inner)
    (hy : role y = .closing) : Matched role (x :: (inner ++ [y])) := by
  have hlast : Matched role [y] := .of_not_opening (by rw [hy]; exact nofun)
  intro front z rest heq hz
  rcases cons_eq_append_iff.mp heq with ⟨rfl, hz'⟩ | ⟨front', rfl, hrest⟩
  · obtain ⟨-, rfl⟩ := List.cons.inj hz'
    exact ⟨inner, y, [], hcontent, hy, rfl⟩
  · exact hinner.append hlast front' z rest hrest hz

theorem Content.matched (h : Content role l) : Matched role l := by
  induction h with
  | nil =>
      intro front x rest heq
      exact absurd heq.symm (append_ne_nil_of_right_ne_nil _ (cons_ne_nil _ _))
  | leaf h hx ih => exact ih.append (.of_not_opening (by rw [hx]; exact nofun))
  | group h hinner hx hy ih ihinner => exact ih.append (.group hinner ihinner hy)

end Nesting
