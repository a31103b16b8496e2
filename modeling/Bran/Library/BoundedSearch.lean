import Mathlib.Data.Finset.Sort

/-!
# Breadth-first search up to a depth limit

A breadth-first search keeps the vertices it has expanded (`done`) and the
vertices it still has to expand (`queue`), each with the depth at which it was
found.  `Frontier` is the invariant of such a search between two inspections of
an edge.  It is stated for an arbitrary step relation and an arbitrary set of
sources, and it is preserved by the only two things a search does:

* `Frontier.push` finds a new vertex one step behind the vertex in front of the
  queue;
* `Frontier.retire` drops the vertex in front once its successors are accounted
  for.

The search may refuse to go on from a vertex.  `Cut k` says that this has
happened at depth `k`; a search without a cut-off takes `Cut` to be empty.

A vertex is found at its distance from the sources
(`Frontier.isDistance`), and what is not found is explained by the queue or by a
cut (`Frontier.found_or_pending`).
-/

namespace BoundedSearch

open List

variable {V : Type*}

/-! ## Walks -/

/-- A walk of `n` steps. -/
inductive Walk (step : V → V → Prop) : ℕ → V → V → Prop
  | nil (u : V) : Walk step 0 u u
  | snoc {n : ℕ} {u v w : V} : Walk step n u v → step v w → Walk step (n + 1) u w

variable {step : V → V → Prop}

theorem Walk.reflTransGen {n : ℕ} {u v : V} (h : Walk step n u v) :
    Relation.ReflTransGen step u v := by
  induction h with
  | nil => exact .refl
  | snoc _ hstep ih => exact ih.tail hstep

theorem exists_walk_iff {u v : V} :
    (∃ n, Walk step n u v) ↔ Relation.ReflTransGen step u v := by
  constructor
  · rintro ⟨n, hwalk⟩
    exact hwalk.reflTransGen
  · intro h
    induction h with
    | refl => exact ⟨0, .nil u⟩
    | tail _ hstep ih =>
        obtain ⟨n, hwalk⟩ := ih
        exact ⟨n + 1, hwalk.snoc hstep⟩

/-- `v` is `n` steps away from some source. -/
def ReachedIn (step : V → V → Prop) (source : V → Prop) (n : ℕ) (v : V) : Prop :=
  ∃ s, source s ∧ Walk step n s v

/-- `n` is the length of a shortest walk from a source to `v`. -/
def IsDistance (step : V → V → Prop) (source : V → Prop) (n : ℕ) (v : V) : Prop :=
  ReachedIn step source n v ∧ ∀ m, ReachedIn step source m v → n ≤ m

variable {source : V → Prop}

theorem ReachedIn.snoc {n : ℕ} {v w : V} (h : ReachedIn step source n v) (hstep : step v w) :
    ReachedIn step source (n + 1) w := by
  obtain ⟨s, hs, hwalk⟩ := h
  exact ⟨s, hs, hwalk.snoc hstep⟩

theorem IsDistance.unique {m n : ℕ} {v : V} (hm : IsDistance step source m v)
    (hn : IsDistance step source n v) : m = n :=
  le_antisymm (hm.2 n hn.1) (hn.2 m hm.1)

/-! ## The invariant -/

/-- What holds of a breadth-first search between two inspections of an edge. -/
structure Frontier (step : V → V → Prop) (source : V → Prop) (limit : ℕ)
    (done queue : List (V × ℕ)) (Cut : ℕ → Prop) : Prop where
  nodup : ((done ++ queue).map Prod.fst).Nodup
  sound : ∀ p ∈ done ++ queue, ReachedIn step source p.2 p.1
  within : ∀ p ∈ done ++ queue, p.2 ≤ limit
  sorted : (done ++ queue).Pairwise fun p q => p.2 ≤ q.2
  window : ∀ p ∈ queue, ∀ q ∈ done ++ queue, q.2 ≤ p.2 + 1
  sources : ∀ s, source s → (s, 0) ∈ done ++ queue
  closed : ∀ p ∈ done, ∀ w, step p.1 w →
    (∃ k ≤ p.2 + 1, (w, k) ∈ done ++ queue) ∨ Cut p.2

namespace Frontier

variable {limit : ℕ} {done queue : List (V × ℕ)} {Cut : ℕ → Prop}

/-- A search starts with its sources at depth `0`. -/
theorem init {sources : List V} (hnodup : sources.Nodup)
    (hsource : ∀ s, source s ↔ s ∈ sources) :
    Frontier step source limit [] (sources.map fun s => (s, 0)) Cut := by
  refine ⟨?_, ?_, ?_, ?_, ?_, ?_, ?_⟩
  · simpa [map_map, Function.comp_def] using hnodup
  · rintro p hp
    obtain ⟨s, hs, rfl⟩ := mem_map.mp hp
    exact ⟨s, (hsource s).mpr hs, .nil s⟩
  · rintro p hp
    obtain ⟨s, _, rfl⟩ := mem_map.mp hp
    exact Nat.zero_le _
  · rw [nil_append, pairwise_map]
    exact pairwise_of_forall fun _ _ => le_rfl
  · rintro p _ q hq
    obtain ⟨s, _, rfl⟩ := mem_map.mp hq
    exact Nat.zero_le _
  · intro s hs
    exact mem_map.mpr ⟨s, (hsource s).mp hs, rfl⟩
  · simp

theorem depth_unique (h : Frontier step source limit done queue Cut) {v : V} {k l : ℕ}
    (hk : (v, k) ∈ done ++ queue) (hl : (v, l) ∈ done ++ queue) : k = l :=
  congrArg Prod.snd (inj_on_of_nodup_map h.nodup hk hl rfl)

/-- Nothing in the queue is shallower than its front. -/
theorem front_le {front : V × ℕ} (h : Frontier step source limit done (front :: queue) Cut)
    {p : V × ℕ} (hp : p ∈ front :: queue) : front.2 ≤ p.2 := by
  rcases mem_cons.mp hp with rfl | hp
  · exact le_rfl
  · have hsorted := (pairwise_append.mp h.sorted).2.1
    exact (pairwise_cons.mp hsorted).1 p hp

/-- Raising a cut-off keeps the invariant. -/
theorem mono_cut {Cut' : ℕ → Prop} (h : Frontier step source limit done queue Cut)
    (hcut : ∀ k, Cut k → Cut' k) : Frontier step source limit done queue Cut' :=
  { h with closed := fun p hp w hstep => (h.closed p hp w hstep).imp_right (hcut _) }

/-- Finding a new vertex one step behind the front of the queue. -/
theorem push {front : V × ℕ} (h : Frontier step source limit done (front :: queue) Cut)
    {w : V} (hstep : step front.1 w) (hlimit : front.2 < limit)
    (hnew : w ∉ (done ++ front :: queue).map Prod.fst) :
    Frontier step source limit done (front :: queue ++ [(w, front.2 + 1)]) Cut := by
  have hfront : front ∈ done ++ front :: queue := by simp
  have hassoc : done ++ (front :: queue ++ [(w, front.2 + 1)]) =
      done ++ front :: queue ++ [(w, front.2 + 1)] := by simp
  refine ⟨?_, ?_, ?_, ?_, ?_, ?_, ?_⟩
  · rw [hassoc, map_append, nodup_append]
    refine ⟨h.nodup, by simp, ?_⟩
    rintro a ha b hb rfl
    rw [map_singleton, mem_singleton] at hb
    rw [hb] at ha
    exact hnew ha
  · intro p hp
    rw [hassoc, mem_append, mem_singleton] at hp
    rcases hp with hp | rfl
    · exact h.sound p hp
    · exact (h.sound front hfront).snoc hstep
  · intro p hp
    rw [hassoc, mem_append, mem_singleton] at hp
    rcases hp with hp | rfl
    · exact h.within p hp
    · exact hlimit
  · rw [hassoc, pairwise_append]
    refine ⟨h.sorted, by simp, ?_⟩
    intro p hp q hq
    rw [mem_singleton] at hq
    subst hq
    exact h.window front (by simp) p hp
  · intro p hp q hq
    have hle : front.2 ≤ p.2 := by
      rcases mem_append.mp hp with hp | hp
      · exact h.front_le hp
      · rw [mem_singleton] at hp
        subst hp
        exact Nat.le_succ _
    rw [hassoc, mem_append, mem_singleton] at hq
    rcases hq with hq | rfl
    · exact (h.window front (by simp) q hq).trans (Nat.succ_le_succ hle)
    · exact Nat.succ_le_succ hle
  · intro s hs
    rw [hassoc]
    exact mem_append_left _ (h.sources s hs)
  · intro p hp x hx
    rcases h.closed p hp x hx with ⟨k, hk, hmem⟩ | hcut
    · exact Or.inl ⟨k, hk, by rw [hassoc]; exact mem_append_left _ hmem⟩
    · exact Or.inr hcut

/-- Dropping the front of the queue once every successor is found or cut off. -/
theorem retire {front : V × ℕ} (h : Frontier step source limit done (front :: queue) Cut)
    (hclosed : ∀ w, step front.1 w →
      w ∈ (done ++ front :: queue).map Prod.fst ∨ Cut front.2) :
    Frontier step source limit (done ++ [front]) queue Cut := by
  have hassoc : done ++ [front] ++ queue = done ++ front :: queue := by simp
  refine ⟨?_, ?_, ?_, ?_, ?_, ?_, ?_⟩
  · rw [hassoc]; exact h.nodup
  · rw [hassoc]; exact h.sound
  · rw [hassoc]; exact h.within
  · rw [hassoc]; exact h.sorted
  · rw [hassoc]
    exact fun p hp => h.window p (mem_cons_of_mem _ hp)
  · rw [hassoc]; exact h.sources
  · rw [hassoc]
    intro p hp w hstep
    rcases mem_append.mp hp with hp | hp
    · exact h.closed p hp w hstep
    · rw [mem_singleton] at hp
      subst hp
      refine (hclosed w hstep).imp_left fun hmem => ?_
      obtain ⟨q, hq, rfl⟩ := mem_map.mp hmem
      exact ⟨q.2, h.window p (by simp) q hq, hq⟩

/-! ## What a search has found -/

/-- A walk that ends outside the search passes a vertex still in the queue or a
cut. -/
theorem found_or_pending (h : Frontier step source limit done queue Cut) {n : ℕ} {s w : V}
    (hs : source s) (hwalk : Walk step n s w) :
    (∃ k ≤ n, (w, k) ∈ done ++ queue) ∨ (∃ p ∈ queue, p.2 < n) ∨ ∃ k < n, Cut k := by
  induction hwalk with
  | nil u => exact Or.inl ⟨0, le_rfl, h.sources u hs⟩
  | @snoc n _ v w _ hstep ih =>
      rcases ih hs with ⟨k, hk, hmem⟩ | ⟨p, hp, hlt⟩ | ⟨k, hk, hcut⟩
      · rcases mem_append.mp hmem with hdone | hqueue
        · rcases h.closed _ hdone w hstep with ⟨l, hl, hfound⟩ | hcut
          · exact Or.inl ⟨l, hl.trans (Nat.succ_le_succ hk), hfound⟩
          · exact Or.inr (Or.inr ⟨k, Nat.lt_succ_of_le hk, hcut⟩)
        · exact Or.inr (Or.inl ⟨_, hqueue, Nat.lt_succ_of_le hk⟩)
      · exact Or.inr (Or.inl ⟨p, hp, hlt.trans (Nat.lt_succ_self _)⟩)
      · exact Or.inr (Or.inr ⟨k, hk.trans (Nat.lt_succ_self _), hcut⟩)

/-- A vertex is found at its distance from the sources. -/
theorem isDistance (h : Frontier step source limit done queue Cut)
    (hcut : ∀ k, Cut k → limit ≤ k) {v : V} {k : ℕ} (hmem : (v, k) ∈ done ++ queue) :
    IsDistance step source k v := by
  refine ⟨h.sound _ hmem, ?_⟩
  rintro n ⟨s, hs, hwalk⟩
  rcases h.found_or_pending hs hwalk with ⟨l, hl, hfound⟩ | ⟨p, hp, hlt⟩ | ⟨l, hl, hc⟩
  · exact (h.depth_unique hmem hfound).trans_le hl
  · exact (h.window p hp _ hmem).trans hlt
  · exact (h.within _ hmem).trans ((hcut l hc).trans hl.le)

/-- Every vertex no deeper than what is left in the queue is found. -/
theorem found_of_le (h : Frontier step source limit done queue Cut)
    (hcut : ∀ k, Cut k → limit ≤ k) {n : ℕ} {v : V} (hreached : ReachedIn step source n v)
    (hlimit : n ≤ limit) (hqueue : ∀ p ∈ queue, n ≤ p.2) : ∃ k ≤ n, (v, k) ∈ done ++ queue := by
  obtain ⟨s, hs, hwalk⟩ := hreached
  rcases h.found_or_pending hs hwalk with hfound | ⟨p, hp, hlt⟩ | ⟨k, hk, hc⟩
  · exact hfound
  · exact absurd (hqueue p hp) (not_le.mpr hlt)
  · exact absurd (hcut k hc) (not_le.mpr (hk.trans_le hlimit))

/-- A search that ends without a cut has found everything. -/
theorem found_of_complete (h : Frontier step source limit done [] Cut) (hcut : ∀ k, ¬ Cut k)
    {n : ℕ} {v : V} (hreached : ReachedIn step source n v) : ∃ k ≤ n, (v, k) ∈ done := by
  obtain ⟨s, hs, hwalk⟩ := hreached
  rcases h.found_or_pending hs hwalk with hfound | ⟨p, hp, _⟩ | ⟨k, _, hc⟩
  · simpa using hfound
  · simp at hp
  · exact absurd hc (hcut k)

/-- The search never holds more vertices than there are. -/
theorem length_le (h : Frontier step source limit done queue Cut) {vertices : List V}
    (huniverse : ∀ n v, ReachedIn step source n v → v ∈ vertices) :
    done.length + queue.length ≤ vertices.length := by
  have hsubset : (done ++ queue).map Prod.fst ⊆ vertices := by
    intro v hv
    obtain ⟨p, hp, rfl⟩ := mem_map.mp hv
    exact huniverse p.2 p.1 (h.sound p hp)
  simpa using (h.nodup.subperm hsubset).length_le

end Frontier

end BoundedSearch
