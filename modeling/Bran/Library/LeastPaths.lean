import Mathlib.Data.List.Lex
import Mathlib.Data.Prod.Lex
import Mathlib.Data.List.Nodup
import Mathlib.Data.List.Perm.Subperm

/-!
# Breadth-first search finds least paths

A path is written as the labels of its steps.  Paths are compared by their length first and label by
label then (`rank`), so that a least path is a shortest one and the first of the shortest ones.

A breadth-first search that looks at the steps of a vertex in the order of their labels finds every
vertex on its least path.  `LeastFrontier` is the invariant: the vertices that have been taken from
the queue, those that are in it, each with the path on which it was found, and the steps that are
still to be looked at.  It is preserved by taking a vertex from the queue (`LeastFrontier.pop`), by
passing over a step (`LeastFrontier.close`) and by finding a vertex (`LeastFrontier.push`).
-/

namespace LeastPaths

open List

variable {V L : Type*}

/-! ## Paths -/

/-- A path with its labels. -/
inductive Path (step : V → L → V → Prop) (source : V) : List L → V → Prop
  | nil : Path step source [] source
  | snoc {labels : List L} {label : L} {u w : V} (h : Path step source labels u)
      (hstep : step u label w) : Path step source (labels ++ [label]) w

section Rank

variable [LinearOrder L]

/-- What paths are compared by. -/
def rank (labels : List L) : ℕ ×ₗ List L := toLex (labels.length, labels)

theorem rank_injective : Function.Injective (rank : List L → ℕ ×ₗ List L) :=
  fun _ _ h => congrArg (fun r => (ofLex r).2) h

variable {first second : List L}

theorem rank_lt_iff :
    rank first < rank second ↔
      first.length < second.length ∨ first.length = second.length ∧ first < second :=
  Prod.Lex.toLex_lt_toLex

theorem rank_le_iff :
    rank first ≤ rank second ↔
      first.length < second.length ∨ first.length = second.length ∧ first ≤ second :=
  Prod.Lex.toLex_le_toLex

theorem append_lt_append_iff {a b : L} (hlength : first.length = second.length) :
    first ++ [a] < second ++ [b] ↔ first < second ∨ first = second ∧ a < b := by
  induction first generalizing second with
  | nil =>
      obtain rfl := length_eq_zero_iff.mp hlength.symm
      simp [cons_lt_cons_iff]
  | cons x first ih =>
      obtain ⟨y, second, rfl⟩ := exists_cons_of_length_eq_add_one hlength.symm
      rw [cons_append, cons_append, cons_lt_cons_iff, cons_lt_cons_iff,
        ih (Nat.succ.inj hlength), List.cons.injEq]
      tauto

/-- One more step is compared after the steps before it. -/
theorem rank_snoc_lt_iff {a b : L} :
    rank (first ++ [a]) < rank (second ++ [b]) ↔
      rank first < rank second ∨ first = second ∧ a < b := by
  rw [rank_lt_iff, rank_lt_iff, length_append, length_append, length_singleton,
    length_singleton, Nat.add_lt_add_iff_right, Nat.add_right_cancel_iff]
  constructor
  · intro h
    rcases h with hlt | ⟨heq, hlt⟩
    · exact .inl (.inl hlt)
    · rcases (append_lt_append_iff heq).mp hlt with hfirst | hlast
      · exact .inl (.inr ⟨heq, hfirst⟩)
      · exact .inr hlast
  · intro h
    rcases h with (hlt | ⟨heq, hfirst⟩) | ⟨rfl, hlast⟩
    · exact .inl hlt
    · exact .inr ⟨heq, (append_lt_append_iff heq).mpr (.inl hfirst)⟩
    · exact .inr ⟨rfl, (append_lt_append_iff rfl).mpr (.inr ⟨rfl, hlast⟩)⟩

theorem rank_snoc_le (h : rank first ≤ rank second) (a : L) :
    rank (first ++ [a]) ≤ rank (second ++ [a]) := by
  rcases h.lt_or_eq with hlt | heq
  · exact (rank_snoc_lt_iff.mpr (.inl hlt)).le
  · rw [rank_injective heq]

theorem rank_lt_snoc (labels : List L) (a : L) : rank labels < rank (labels ++ [a]) :=
  rank_lt_iff.mpr (.inl (by rw [length_append, length_singleton]; omega))

theorem length_le_of_rank_le (h : rank first ≤ rank second) :
    first.length ≤ second.length := by
  rcases rank_le_iff.mp h with hlt | ⟨heq, _⟩
  · exact hlt.le
  · exact heq.le

end Rank

/-! ## The invariant -/

variable [LinearOrder L] {step : V → L → V → Prop} {source : V}

/-- What holds of a search between two inspections of a step.  `Open` are the steps from vertices
taken from the queue that are still to be looked at; `Cut` says that steps were passed over at a
depth. -/
structure LeastFrontier (step : V → L → V → Prop) (source : V) (done queue : List (V × List L))
    (Open : V → L → Prop) (Cut : ℕ → Prop) : Prop where
  nodup : ((done ++ queue).map Prod.fst).Nodup
  paths : ∀ e ∈ done ++ queue, Path step source e.2 e.1
  sorted : (done ++ queue).Pairwise fun e f => rank e.2 < rank f.2
  source : (source, []) ∈ done ++ queue
  window : ∀ e ∈ queue, ∀ f ∈ done ++ queue, ∀ label, rank f.2 < rank (e.2 ++ [label])
  closed : ∀ e ∈ done, ∀ label w, step e.1 label w → Open e.1 label ∨
    (∃ f ∈ done ++ queue, f.1 = w ∧ rank f.2 ≤ rank (e.2 ++ [label])) ∨ Cut e.2.length

namespace LeastFrontier

variable {done queue : List (V × List L)} {Open : V → L → Prop} {Cut : ℕ → Prop}

/-- A search starts at its source. -/
theorem init : LeastFrontier step source [] [(source, [])] (fun _ _ => False) Cut := by
  refine ⟨nodup_singleton _, ?_, pairwise_singleton _ _, mem_singleton_self _, ?_,
    fun _ h => (nomatch h)⟩
  · intro e he
    obtain rfl := mem_singleton.mp he
    exact .nil
  · intro e he f hf label
    obtain rfl := mem_singleton.mp he
    obtain rfl := mem_singleton.mp hf
    exact rank_lt_snoc [] label

theorem mono (h : LeastFrontier step source done queue Open Cut) {Open' : V → L → Prop}
    {Cut' : ℕ → Prop} (hopen : ∀ e ∈ done, ∀ label, Open e.1 label → Open' e.1 label)
    (hcut : ∀ k, Cut k → Cut' k) : LeastFrontier step source done queue Open' Cut' :=
  { h with closed := fun e he label w hstep =>
      (h.closed e he label w hstep).imp (hopen e he label) (Or.imp_right (hcut _)) }

theorem eq_of_fst_eq (h : LeastFrontier step source done queue Open Cut) {e f : V × List L}
    (he : e ∈ done ++ queue) (hf : f ∈ done ++ queue) (heq : e.1 = f.1) : e = f :=
  inj_on_of_nodup_map h.nodup he hf heq

/-- Taking the front of the queue opens its steps. -/
theorem pop {front : V × List L}
    (h : LeastFrontier step source done (front :: queue) (fun _ _ => False) Cut) :
    LeastFrontier step source (done ++ [front]) queue (fun u _ => u = front.1) Cut := by
  have hassoc : done ++ [front] ++ queue = done ++ front :: queue := by simp
  refine ⟨?_, ?_, ?_, ?_, ?_, ?_⟩
  · rw [hassoc]
    exact h.nodup
  · rw [hassoc]
    exact h.paths
  · rw [hassoc]
    exact h.sorted
  · rw [hassoc]
    exact h.source
  · rw [hassoc]
    exact fun e he => h.window e (mem_cons_of_mem _ he)
  · rw [hassoc]
    intro e he label w hstep
    rcases mem_append.mp he with hold | hfront
    · rcases h.closed e hold label w hstep with hopen | hrest
      · exact hopen.elim
      · exact .inr hrest
    · obtain rfl := mem_singleton.mp hfront
      exact .inl rfl

/-- Passing over a step to a vertex that is found already, or that is cut off. -/
theorem close (h : LeastFrontier step source done queue Open Cut) {front : V × List L} {label : L}
    (hfront : front ∈ done)
    (hpassed : ∀ w, step front.1 label w →
      (∃ f ∈ done ++ queue, f.1 = w ∧ rank f.2 ≤ rank (front.2 ++ [label])) ∨
        Cut front.2.length) :
    LeastFrontier step source done queue
      (fun u other => Open u other ∧ ¬ (u = front.1 ∧ other = label)) Cut := by
  refine { h with closed := ?_ }
  intro e he other w hstep
  rcases h.closed e he other w hstep with hopen | hrest
  · by_cases hsame : e.1 = front.1 ∧ other = label
    · obtain ⟨hvertex, rfl⟩ := hsame
      obtain rfl := h.eq_of_fst_eq (mem_append_left _ he) (mem_append_left _ hfront)
        hvertex
      exact .inr (hpassed w hstep)
    · exact .inl ⟨hopen, hsame⟩
  · exact .inr hrest

/-- Finding a new vertex behind a vertex that was taken from the queue. -/
theorem push (h : LeastFrontier step source done queue Open Cut) {front : V × List L} {label : L}
    {w : V} (hfront : front ∈ done) (hstep : step front.1 label w)
    (hnew : w ∉ (done ++ queue).map Prod.fst)
    (hbound : ∀ f ∈ done ++ queue, rank f.2 < rank (front.2 ++ [label])) :
    LeastFrontier step source done (queue ++ [(w, front.2 ++ [label])]) Open Cut := by
  have hassoc : done ++ (queue ++ [(w, front.2 ++ [label])]) =
      (done ++ queue) ++ [(w, front.2 ++ [label])] := (append_assoc _ _ _).symm
  have hbehind : ∀ e ∈ queue, rank front.2 < rank e.2 := fun e he =>
    (pairwise_append.mp h.sorted).2.2 front hfront e he
  refine ⟨?_, ?_, ?_, ?_, ?_, ?_⟩
  · rw [hassoc, map_append, nodup_append]
    refine ⟨h.nodup, nodup_singleton _, ?_⟩
    intro a ha b hb heq
    obtain rfl := mem_singleton.mp hb
    exact hnew (heq ▸ ha)
  · rw [hassoc]
    intro e he
    rcases mem_append.mp he with hold | hlast
    · exact h.paths e hold
    · obtain rfl := mem_singleton.mp hlast
      exact (h.paths front (mem_append_left _ hfront)).snoc hstep
  · rw [hassoc, pairwise_append]
    refine ⟨h.sorted, pairwise_singleton _ _, ?_⟩
    intro e he f hf
    obtain rfl := mem_singleton.mp hf
    exact hbound e he
  · rw [hassoc]
    exact mem_append_left _ h.source
  · rw [hassoc]
    intro e he f hf other
    rcases mem_append.mp he with hold | hlast
    · rcases mem_append.mp hf with hfold | hflast
      · exact h.window e hold f hfold other
      · obtain rfl := mem_singleton.mp hflast
        exact rank_snoc_lt_iff.mpr (.inl (hbehind e hold))
    · obtain rfl := mem_singleton.mp hlast
      rcases mem_append.mp hf with hfold | hflast
      · exact (hbound f hfold).trans (rank_lt_snoc _ _)
      · obtain rfl := mem_singleton.mp hflast
        exact rank_lt_snoc _ _
  · rw [hassoc]
    intro e he other x hother
    refine (h.closed e he other x hother).imp_right (Or.imp_left ?_)
    intro hfound
    obtain ⟨f, hf, hrest⟩ := hfound
    exact ⟨f, mem_append_left _ hf, hrest⟩

/-! ## What a search has found -/

/-- A path leads to a vertex that was found on a path no greater, or else it goes through the queue,
through an open step or through a cut. -/
theorem found_or_pending (h : LeastFrontier step source done queue Open Cut) {labels : List L}
    {w : V} (hpath : Path step source labels w) :
    (∃ f ∈ done ++ queue, f.1 = w ∧ rank f.2 ≤ rank labels) ∨
      (∃ e ∈ queue, ∃ label, rank (e.2 ++ [label]) ≤ rank labels) ∨
      (∃ e ∈ done, ∃ label w, step e.1 label w ∧ Open e.1 label ∧
        rank (e.2 ++ [label]) ≤ rank labels) ∨ ∃ k < labels.length, Cut k := by
  induction hpath with
  | nil => exact .inl ⟨(source, []), h.source, rfl, le_rfl⟩
  | @snoc labels label u w _ hstep ih =>
      have hlonger : rank labels ≤ rank (labels ++ [label]) := (rank_lt_snoc _ _).le
      rcases ih with ⟨f, hf, rfl, hle⟩ | ⟨e, he, other, hle⟩ | ⟨e, he, other, x, hother, hopen, hle⟩ |
        ⟨k, hk, hcut⟩
      · have hstepped := rank_snoc_le hle label
        rcases mem_append.mp hf with hdone | hqueue
        · rcases h.closed f hdone label w hstep with hopen | ⟨g, hg, rfl, hgle⟩ | hcut
          · exact .inr (.inr (.inl ⟨f, hdone, label, w, hstep, hopen, hstepped⟩))
          · exact .inl ⟨g, hg, rfl, hgle.trans hstepped⟩
          · refine .inr (.inr (.inr ⟨f.2.length, ?_, hcut⟩))
            have hlength := length_le_of_rank_le hle
            rw [length_append, length_singleton]
            omega
        · exact .inr (.inl ⟨f, hqueue, label, hstepped⟩)
      · exact .inr (.inl ⟨e, he, other, hle.trans hlonger⟩)
      · exact .inr (.inr (.inl ⟨e, he, other, x, hother, hopen, hle.trans hlonger⟩))
      · refine .inr (.inr (.inr ⟨k, ?_, hcut⟩))
        rw [length_append]
        omega

/-- A vertex that is about to be found is found on its least path, if no step with a smaller label is
open and nothing was cut off. -/
theorem least (h : LeastFrontier step source done queue Open fun _ => False)
    {front : V × List L} {label : L} {w : V} (hfront : front ∈ done)
    (hnew : w ∉ (done ++ queue).map Prod.fst)
    (hopen : ∀ e ∈ done, ∀ other x, step e.1 other x → Open e.1 other →
      e = front ∧ label ≤ other)
    {labels : List L} (hpath : Path step source labels w) :
    rank (front.2 ++ [label]) ≤ rank labels := by
  rcases h.found_or_pending hpath with ⟨f, hf, rfl, _⟩ | ⟨e, he, other, hle⟩ |
    ⟨e, he, other, x, hother, hwaiting, hle⟩ | ⟨_, _, hcut⟩
  · exact absurd (mem_map_of_mem hf) hnew
  · have hbehind := (pairwise_append.mp h.sorted).2.2 front hfront e he
    exact (rank_snoc_lt_iff.mpr (.inl hbehind)).le.trans hle
  · obtain ⟨rfl, hlabel⟩ := hopen e he other x hother hwaiting
    refine le_trans ?_ hle
    rcases hlabel.lt_or_eq with hlt | rfl
    · exact (rank_snoc_lt_iff.mpr (.inr ⟨rfl, hlt⟩)).le
    · exact le_rfl
  · exact hcut.elim

/-- The search never holds more vertices than there are. -/
theorem length_le (h : LeastFrontier step source done queue Open Cut) {vertices : List V}
    (huniverse : ∀ labels v, Path step source labels v → v ∈ vertices) :
    done.length + queue.length ≤ vertices.length := by
  have hsubset : (done ++ queue).map Prod.fst ⊆ vertices := by
    intro v hv
    obtain ⟨e, he, rfl⟩ := mem_map.mp hv
    exact huniverse e.2 e.1 (h.paths e he)
  have hle := (h.nodup.subperm hsubset).length_le
  rwa [length_map, length_append] at hle

end LeastFrontier

end LeastPaths
