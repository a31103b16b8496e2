import Mathlib.Data.Finset.Lattice.Fold
import Mathlib.Data.Finset.Max

/-!
# Queues that make room by dropping the oldest

A bounded store of ranked items: putting an item that is held changes nothing, and any other item
is written at a rank of its own after the lowest ranks have been dropped, as few as will do.  An
item stays as long as it fits together with everything behind it.  What a list of items leaves held
can then be read off the items held at the start; `stays_of_condition` and `condition_of_stays` say
when all of the list is held in the end.
-/

namespace AgeQueue

open Finset

variable {α K : Type*} [LinearOrder K]

/-- The items that are held, their ranks, and the items written since the start. -/
structure State (α K : Type*) where
  held : Finset α
  rank : α → K
  written : Finset α

/-- What is held at this rank or above. -/
def State.behind (state : State α K) (rank : K) : Finset α :=
  state.held.filter fun x => rank ≤ state.rank x

theorem State.behind_anti {state : State α K} {rank rank' : K} (h : rank ≤ rank') :
    state.behind rank' ⊆ state.behind rank := by
  intro x hx
  obtain ⟨hheld, hrank⟩ := mem_filter.mp hx
  exact mem_filter.mpr ⟨hheld, h.trans hrank⟩

variable [DecidableEq α]

section Runs

variable (Fits : Finset α → Prop) (late : K → Prop) (start : State α K)

/-- A rank that new items get: above the items of the start, but for the late ones. -/
structure NewRank (rank : K) : Prop where
  now : ¬ late rank
  above : ∀ x ∈ start.held, ¬ late (start.rank x) → start.rank x < rank

/-- One item is put. -/
inductive Step : State α K → α → State α K → Prop
  | present {state : State α K} {x : α} (h : x ∈ state.held) : Step state x state
  | stored {state next : State α K} {x : α} (habsent : x ∉ state.held)
      (hheld : ∀ y, y ∈ next.held ↔
        y = x ∨ (y ∈ state.held ∧ Fits (insert x (state.behind (state.rank y)))))
      (hrank : ∀ y ∈ next.held, y ≠ x → next.rank y = state.rank y)
      (hnew : NewRank late start (next.rank x)) (hwritten : next.written = insert x state.written) :
      Step state x next

/-- Items are put one after the other. -/
inductive Run : List α → State α K → Prop
  | nil : Run [] start
  | snoc {front : List α} {x : α} {state next : State α K} (h : Run front state)
      (hstep : Step Fits late start state x next) : Run (front ++ [x]) next

/-- What is held between two puts: the items written, and those of the start that fit together with
the items written and with everything behind them. -/
structure Kept (state : State α K) : Prop where
  mem_held : ∀ x, x ∈ state.held ↔ x ∈ state.written ∨
    (x ∉ state.written ∧ x ∈ start.held ∧
      Fits (start.behind (start.rank x) ∪ state.written))
  rank_old : ∀ x ∈ state.held, x ∉ state.written → state.rank x = start.rank x
  rank_new : ∀ x ∈ state.written, NewRank late start (state.rank x)

end Runs

variable {Fits : Finset α → Prop} {late : K → Prop} {start : State α K}

/-- Behind what is written there are only late items of the start and other items written. -/
theorem Kept.behind_subset {state : State α K} (h : Kept Fits late start state) {rank : K}
    (hrank : ∀ x ∈ start.held, ¬ late (start.rank x) → start.rank x < rank) [DecidablePred late] :
    state.behind rank ⊆ (start.held.filter fun x => late (start.rank x)) ∪ state.written := by
  intro x hx
  obtain ⟨hheld, hle⟩ := mem_filter.mp hx
  rw [mem_union, mem_filter]
  obtain hwritten | ⟨hold, hstart, -⟩ := (h.mem_held x).mp hheld
  · exact .inr hwritten
  · refine .inl ⟨hstart, ?_⟩
    rw [h.rank_old x hheld hold] at hle
    by_contra hnot
    exact absurd (hrank x hstart hnot) (not_lt.mpr hle)

section Kept

variable (hfits : ∀ ⦃small large⦄, small ⊆ large → Fits large → Fits small)
  (hlate : ∀ ⦃low high⦄, low ≤ high → late low → late high)
include hfits hlate

/-- A put keeps the description of what is held, when the late items leave room. -/
theorem Kept.step [DecidablePred late] {state next : State α K} {x : α} {all : Finset α}
    (hroom : Fits ((start.held.filter fun y => late (start.rank y)) ∪ all))
    (hall : state.written ⊆ all) (hx : x ∈ all) (h : Kept Fits late start state)
    (hstep : Step Fits late start state x next) : Kept Fits late start next := by
  cases hstep with
  | present _ => exact h
  | stored habsent hheld hrank hnew hwritten =>
      have hinsert : insert x state.written ⊆ all := insert_subset hx hall
      have hsame : ∀ y ∈ start.held, y ∉ state.written → y ∈ state.held →
          state.rank y = start.rank y := fun y _ hold hy => h.rank_old y hy hold
      refine ⟨?_, ?_, ?_⟩
      · intro y
        rw [hheld, hwritten, mem_insert]
        by_cases hyx : y = x
        · simp [hyx]
        by_cases hyw : y ∈ state.written
        · -- what is written fits with the late items and the other written ones
          have hbehind := h.behind_subset (h.rank_new y hyw).above
          have hroomy : Fits (insert x (state.behind (state.rank y))) := by
            refine hfits ?_ hroom
            refine insert_subset (mem_union_right _ hx) ?_
            exact hbehind.trans (union_subset_union_right hall)
          simp [hyw, (h.mem_held y).mpr (.inl hyw), hroomy]
        have hold : y ∉ insert x state.written := by simp [hyx, hyw]
        have hiff : (y ∈ state.held ∧ Fits (insert x (state.behind (state.rank y)))) ↔
            y ∈ start.held ∧ Fits (start.behind (start.rank y) ∪ insert x state.written) := by
          constructor
          · intro hy
            obtain ⟨hyheld, hyfits⟩ := hy
            obtain hyw' | ⟨-, hystart, hybefore⟩ := (h.mem_held y).mp hyheld
            · exact absurd hyw' hyw
            refine ⟨hystart, ?_⟩
            by_cases hylate : late (start.rank y)
            · refine hfits (union_subset_union ?_ hinsert) hroom
              intro z hz
              obtain ⟨hzstart, hzrank⟩ := mem_filter.mp hz
              exact mem_filter.mpr ⟨hzstart, hlate hzrank hylate⟩
            · refine hfits ?_ hyfits
              rw [hsame y hystart hyw hyheld, union_insert]
              refine insert_subset_insert x ?_
              intro z hz
              rcases mem_union.mp hz with hz | hz
              · obtain ⟨hzstart, hzrank⟩ := mem_filter.mp hz
                by_cases hzw : z ∈ state.written
                · exact mem_filter.mpr ⟨(h.mem_held z).mpr (.inl hzw),
                    ((h.rank_new z hzw).above y hystart hylate).le⟩
                · have hzheld : z ∈ state.held := (h.mem_held z).mpr (.inr ⟨hzw, hzstart,
                    hfits (union_subset_union_left (State.behind_anti hzrank)) hybefore⟩)
                  refine mem_filter.mpr ⟨hzheld, ?_⟩
                  rw [hsame z hzstart hzw hzheld]
                  exact hzrank
              · exact mem_filter.mpr ⟨(h.mem_held z).mpr (.inl hz),
                  ((h.rank_new z hz).above y hystart hylate).le⟩
          · intro hy
            obtain ⟨hystart, hyfits⟩ := hy
            have hyheld : y ∈ state.held := by
              refine (h.mem_held y).mpr (.inr ⟨hyw, hystart, hfits ?_ hyfits⟩)
              exact union_subset_union_right (subset_insert x _)
            refine ⟨hyheld, hfits ?_ hyfits⟩
            rw [union_insert]
            refine insert_subset_insert x ?_
            intro z hz
            obtain ⟨hzheld, hzrank⟩ := mem_filter.mp hz
            rw [mem_union]
            obtain hzw | ⟨hzw, hzstart, -⟩ := (h.mem_held z).mp hzheld
            · exact .inr hzw
            · refine .inl (mem_filter.mpr ⟨hzstart, ?_⟩)
              rw [hsame y hystart hyw hyheld, hsame z hzstart hzw hzheld] at hzrank
              exact hzrank
        rw [or_iff_right hyx, hiff]
        simp [hyx, hyw]
      · intro y hy hold
        rw [hwritten, mem_insert, not_or] at hold
        have hyheld : y ∈ state.held := by
          rcases (hheld y).mp hy with hyx | ⟨hyheld, -⟩
          · exact absurd hyx hold.1
          · exact hyheld
        rw [hrank y hy hold.1, h.rank_old y hyheld hold.2]
      · intro y hy
        rw [hwritten, mem_insert] at hy
        by_cases hyx : y = x
        · rw [hyx]
          exact hnew
        · have hyw : y ∈ state.written := hy.resolve_left hyx
          have hbehind := h.behind_subset (h.rank_new y hyw).above
          have hynext : y ∈ next.held := by
            refine (hheld y).mpr (.inr ⟨(h.mem_held y).mpr (.inl hyw), hfits ?_ hroom⟩)
            refine insert_subset (mem_union_right _ hx) ?_
            exact hbehind.trans (union_subset_union_right hall)
          rw [hrank y hynext hyx]
          exact h.rank_new y hyw

theorem Run.kept [DecidablePred late] (hempty : start.written = ∅) (hheld : Fits start.held)
    {all : Finset α} (hroom : Fits ((start.held.filter fun y => late (start.rank y)) ∪ all))
    {front : List α} {state : State α K} (h : Run Fits late start front state)
    (hall : front.toFinset ⊆ all) :
    Kept Fits late start state ∧ state.written ⊆ front.toFinset := by
  induction h with
  | nil =>
      refine ⟨⟨?_, fun _ _ _ => rfl, ?_⟩, ?_⟩
      · intro x
        have hself : Fits (start.behind (start.rank x)) := hfits (filter_subset _ _) hheld
        simp [hempty, hself]
      · intro x hx
        simp [hempty] at hx
      · simp [hempty]
  | @snoc front x state next h hstep ih =>
      rw [List.toFinset_append, List.toFinset_cons, List.toFinset_nil] at hall ⊢
      obtain ⟨hkept, hwritten⟩ := ih (union_subset_left hall)
      have hx : x ∈ all := hall (by simp)
      refine ⟨hkept.step hfits hlate hroom (hwritten.trans (union_subset_left hall)) hx
        hstep, ?_⟩
      cases hstep with
      | present _ => exact hwritten.trans subset_union_left
      | stored _ _ _ _ hnext =>
          rw [hnext]
          refine insert_subset (by simp) (hwritten.trans subset_union_left)

end Kept

/-- An item that was written was not held at one of its turns. -/
theorem Run.turn {items : List α} {final : State α K} (h : Run Fits late start items final)
    (hempty : start.written = ∅) {x : α} (hx : x ∈ final.written) :
    ∃ front rest state, items = front ++ x :: rest ∧ Run Fits late start front state ∧
      x ∉ state.held := by
  induction h with
  | nil => simp [hempty] at hx
  | @snoc front y state next h hstep ih =>
      have hearlier (hx : x ∈ state.written) : ∃ before rest middle, front ++ [y] =
          before ++ x :: rest ∧ Run Fits late start before middle ∧ x ∉ middle.held := by
        obtain ⟨before, rest, middle, rfl, hrun, habsent⟩ := ih hx
        exact ⟨before, rest ++ [y], middle, by simp, hrun, habsent⟩
      cases hstep with
      | present _ => exact hearlier hx
      | stored habsent _ _ _ hwritten =>
          rw [hwritten, mem_insert] at hx
          obtain rfl | hx := hx
          · exact ⟨front, [], state, rfl, h, habsent⟩
          · exact hearlier hx

/-! ## When all of a list stays -/

/-- The item stays where it is through the whole list. -/
def Stays (Fits : Finset α → Prop) (start : State α K) (items : List α) (x : α) : Prop :=
  x ∈ start.held ∧ Fits (start.behind (start.rank x) ∪ items.toFinset)

/-- Each item that is held at the start has been dropped when its turn comes, or it stays through
the whole list and lasts. -/
def Condition (Fits : Finset α → Prop) (start : State α K) (items : List α) (Lasts : α → Prop) :
    Prop :=
  ∀ front x rest, items = front ++ x :: rest → x ∉ front → x ∈ start.held →
    ¬ Fits (start.behind (start.rank x) ∪ front.toFinset) ∨
      (Lasts x ∧ Fits (start.behind (start.rank x) ∪ items.toFinset))

section Lists

variable (hfits : ∀ ⦃small large⦄, small ⊆ large → Fits large → Fits small)
  (hlate : ∀ ⦃low high⦄, low ≤ high → late low → late high) (hempty : start.written = ∅)
  (hheld : Fits start.held) {items : List α} {final : State α K} {Lasts : α → Prop}
  [DecidablePred late]
  (hroom : Fits ((start.held.filter fun y => late (start.rank y)) ∪ items.toFinset))
include hfits hlate hempty hheld hroom

/-- Under the condition the items written are the ones that do not stay where they are. -/
theorem mem_written_iff (hcond : Condition Fits start items Lasts) {front : List α}
    {state : State α K} (h : Run Fits late start front state) :
    ∀ rest, items = front ++ rest →
      ∀ x, x ∈ state.written ↔ x ∈ front ∧ ¬ Stays Fits start items x := by
  induction h with
  | nil =>
      intro rest _ x
      simp [hempty]
  | @snoc front y state next h hstep ih =>
      intro rest hitems x
      rw [List.append_assoc, List.singleton_append] at hitems
      have hwritten := ih (y :: rest) hitems
      have hfront : front.toFinset ⊆ items.toFinset := by
        rw [hitems, List.toFinset_append]
        exact subset_union_left
      obtain ⟨hkept, hsubset⟩ := h.kept hfits hlate hempty hheld hroom hfront
      -- an item that stays is found at its turn, and any other one is not, if it is new
      have hstays (hy : Stays Fits start items y) : y ∈ state.held := by
        refine (hkept.mem_held y).mpr (.inr ⟨fun hw => ((hwritten y).mp hw).2 hy, hy.1, ?_⟩)
        exact hfits (union_subset_union_right (hsubset.trans hfront)) hy.2
      have hdropped (hnew : y ∉ front) (hy : ¬ Stays Fits start items y) : y ∉ state.held := by
        intro hyheld
        have hyw : y ∉ state.written := fun hw => hnew ((hwritten y).mp hw).1
        obtain hw | ⟨-, hystart, hyfits⟩ := (hkept.mem_held y).mp hyheld
        · exact hyw hw
        obtain hnot | ⟨-, hall⟩ := hcond front y rest hitems hnew hystart
        · apply hnot
          by_cases hlow : ∃ z ∈ front, Stays Fits start items z ∧ start.rank z < start.rank y
          · obtain ⟨z, -, ⟨-, hz⟩, hlt⟩ := hlow
            exact hfits (union_subset_union (State.behind_anti hlt.le) hfront) hz
          · refine hfits (union_subset subset_union_left ?_) hyfits
            intro z hz
            rw [List.mem_toFinset] at hz
            by_cases hzw : z ∈ state.written
            · exact mem_union_right _ hzw
            · have hzstays : Stays Fits start items z := by
                by_contra hnot
                exact hzw ((hwritten z).mpr ⟨hz, hnot⟩)
              refine mem_union_left _ (mem_filter.mpr ⟨hzstays.1, ?_⟩)
              by_contra hlt
              exact hlow ⟨z, hz, hzstays, not_le.mp hlt⟩
        · exact hy ⟨hystart, hall⟩
      rw [List.mem_append, List.mem_singleton]
      cases hstep with
      | present hpresent =>
          rw [hwritten]
          constructor
          · intro hx
            exact ⟨.inl hx.1, hx.2⟩
          · intro hx
            obtain ⟨hx | rfl, hnot⟩ := hx
            · exact ⟨hx, hnot⟩
            · by_cases hnew : x ∈ front
              · exact ⟨hnew, hnot⟩
              · exact absurd hpresent (hdropped hnew hnot)
      | stored habsent _ _ _ hnext =>
          have hy : ¬ Stays Fits start items y := fun hy => habsent (hstays hy)
          rw [hnext, mem_insert, hwritten]
          constructor
          · intro hx
            obtain rfl | hx := hx
            · exact ⟨.inr rfl, hy⟩
            · exact ⟨.inl hx.1, hx.2⟩
          · intro hx
            obtain ⟨hx | rfl, hnot⟩ := hx
            · exact .inr ⟨hx, hnot⟩
            · exact .inl rfl

/-- Under the condition all of the list is held in the end. -/
theorem stays_of_condition (hcond : Condition Fits start items Lasts)
    (h : Run Fits late start items final) :
    ∀ x ∈ items, x ∈ final.held ∧ (x ∈ final.written ∨ Lasts x) := by
  intro x hx
  have hwritten := mem_written_iff hfits hlate hempty hheld hroom hcond h [] (by simp)
  obtain ⟨hkept, hsubset⟩ := h.kept hfits hlate hempty hheld hroom subset_rfl
  by_cases hstays : Stays Fits start items x
  · have hold : x ∉ final.written := fun hw => ((hwritten x).mp hw).2 hstays
    refine ⟨(hkept.mem_held x).mpr (.inr ⟨hold, hstays.1, ?_⟩), .inr ?_⟩
    · exact hfits (union_subset_union_right hsubset) hstays.2
    · obtain ⟨front, rest, hitems, hnew⟩ := List.eq_append_cons_of_mem hx
      obtain hnot | ⟨hlasts, -⟩ := hcond front x rest hitems hnew hstays.1
      · refine absurd (hfits (union_subset_union_right ?_) hstays.2) hnot
        rw [hitems, List.toFinset_append]
        exact subset_union_left
      · exact hlasts
  · have hnew := (hwritten x).mpr ⟨hx, hstays⟩
    exact ⟨(hkept.mem_held x).mpr (.inl hnew), .inl hnew⟩

/-- Without repeated items the condition is needed. -/
theorem condition_of_stays (hnodup : items.Nodup) (h : Run Fits late start items final)
    (hall : ∀ x ∈ items, x ∈ final.held ∧ (x ∈ final.written ∨ Lasts x)) :
    Condition Fits start items Lasts := by
  intro front x rest hitems hnew hstart
  obtain ⟨hkept, hsubset⟩ := h.kept hfits hlate hempty hheld hroom subset_rfl
  have hx : x ∈ items := by simp [hitems]
  by_cases hw : x ∈ final.written
  · obtain ⟨before, after, state, hturn, hrun, habsent⟩ := h.turn hempty hw
    rw [hturn, List.nodup_middle, List.nodup_cons, List.mem_append, not_or] at hnodup
    obtain ⟨⟨hbefore, hafter⟩, -⟩ := hnodup
    have hfront : before = front :=
      ((List.append_cons_inj_of_notMem hbefore hafter).mp (hturn.symm.trans hitems)).1
    subst hfront
    have hbefore : before.toFinset ⊆ items.toFinset := by
      rw [hitems, List.toFinset_append]
      exact subset_union_left
    obtain ⟨hkeptThen, hsubsetThen⟩ := hrun.kept hfits hlate hempty hheld hroom hbefore
    refine .inl fun hfitting => habsent ((hkeptThen.mem_held x).mpr (.inr ⟨?_, hstart, ?_⟩))
    · intro hwritten
      exact habsent ((hkeptThen.mem_held x).mpr (.inl hwritten))
    · exact hfits (union_subset_union_right hsubsetThen) hfitting
  · have hlasts : Lasts x := (hall x hx).2.resolve_left hw
    refine .inr ⟨hlasts, ?_⟩
    -- of the items that were not written, the one of the lowest rank
    obtain ⟨least, hleast, hmin⟩ := (items.toFinset \ final.written).exists_min_image start.rank
      ⟨x, by simp [hx, hw]⟩
    rw [mem_sdiff, List.mem_toFinset] at hleast
    obtain hwritten | ⟨-, -, hfitting⟩ := (hkept.mem_held least).mp (hall least hleast.1).1
    · exact absurd hwritten hleast.2
    refine hfits ?_ hfitting
    have hxleast := hmin x (by simp [hx, hw])
    refine union_subset ((State.behind_anti hxleast).trans subset_union_left) ?_
    intro y hy
    by_cases hyw : y ∈ final.written
    · exact mem_union_right _ hyw
    · obtain hwritten | ⟨-, hystart, -⟩ := (hkept.mem_held y).mp (hall y (by simpa using hy)).1
      · exact absurd hwritten hyw
      · exact mem_union_left _ (mem_filter.mpr
          ⟨hystart, hmin y (mem_sdiff.mpr ⟨hy, hyw⟩)⟩)

end Lists

end AgeQueue
