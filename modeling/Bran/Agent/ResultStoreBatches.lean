import Bran.Agent.ResultStoreRuns
import Bran.Library.AgeQueue
import Mathlib.Algebra.Order.BigOperators.Group.Finset

/-!
# Batches in the result store

The store as a queue by age: what it holds are byte strings ranked by tick and insertion order, and
a put drops the oldest as long as the limits ask for it.  From this one reads off when a batch that
the limits allow is stored and can be read until it expires.
-/

namespace Bran.Agent.MemoryResultStore

open AgeQueue Finset OrdMap

/-! ## The contents of a store -/

/-- The byte strings that the store holds. -/
def contents (store : MemoryResultStore) : Finset (List UInt8) :=
  (store.entries.values.map Entry.bytes).toFinset

/-- The key of a byte string in the age index. -/
def keyOf (store : MemoryResultStore) (bytes : List UInt8) : AgeKey :=
  match store.entries.find? (.sha256 bytes) with
  | some entry => ageKey entry.createdTick entry.order (.sha256 bytes)
  | none => ageKey 0 0 (.sha256 bytes)

/-- The limits allow these byte strings at the same time. -/
def Fits (limits : ResultStoreLimits) (items : Finset (List UInt8)) : Prop :=
  items.card ≤ limits.maxEntries ∧ ∑ bytes ∈ items, bytes.length ≤ limits.maxTotalBytes

/-- A key of a tick after this one. -/
def Late (now : ℕ) (key : AgeKey) : Prop := now < key.tick

instance (now : ℕ) : DecidablePred (Late now) := fun key =>
  inferInstanceAs (Decidable (now < key.tick))

/-- The store as a queue. -/
def view (store : MemoryResultStore) (written : Finset (List UInt8)) :
    State (List UInt8) AgeKey := ⟨contents store, keyOf store, written⟩

variable {limits : ResultStoreLimits} {used : Set (List UInt8)} {store : MemoryResultStore}

theorem Fits.mono {small large : Finset (List UInt8)} (hsubset : small ⊆ large)
    (h : Fits limits large) : Fits limits small :=
  ⟨(card_le_card hsubset).trans h.1, (sum_le_sum_of_subset hsubset).trans h.2⟩

theorem late_mono {now : ℕ} {low high : AgeKey} (hle : low ≤ high) (h : Late now low) :
    Late now high := by
  have hticks : low.tick ≤ high.tick := by
    rcases Prod.Lex.le_iff.mp hle with hlt | ⟨heq, -⟩
    · exact hlt.le
    · exact heq.le
  exact lt_of_lt_of_le h hticks

theorem keyOf_eq {entry : Entry} {bytes : List UInt8}
    (h : store.entries.find? (.sha256 bytes) = some entry) :
    keyOf store bytes = ageKey entry.createdTick entry.order (.sha256 bytes) := by
  rw [keyOf, h]

theorem Consistent.sha256_values (h : Consistent limits used store) :
    (store.entries.values.map Entry.bytes).map ResultId.sha256 = store.entries.keys := by
  rw [OrdMap.values, OrdMap.keys, List.map_map, List.map_map]
  refine List.map_congr_left fun pair hpair => ?_
  exact (h.items pair.1 pair.2 (mem_entries_iff.mp hpair)).2.1

theorem Consistent.nodup_values (h : Consistent limits used store) :
    (store.entries.values.map Entry.bytes).Nodup := by
  have hkeys := store.entries.keys_nodup
  rw [← h.sha256_values] at hkeys
  exact hkeys.of_map

theorem Consistent.mem_contents (h : Consistent limits used store) {bytes : List UInt8} :
    bytes ∈ contents store ↔
      ∃ entry, store.entries.find? (.sha256 bytes) = some entry ∧ entry.bytes = bytes := by
  rw [contents, List.mem_toFinset, List.mem_map]
  constructor
  · intro hmem
    obtain ⟨entry, hentry, rfl⟩ := hmem
    obtain ⟨pair, hpair, rfl⟩ := List.mem_map.mp hentry
    have hfind := mem_entries_iff.mp hpair
    refine ⟨pair.2, ?_, rfl⟩
    rw [(h.items pair.1 pair.2 hfind).2.1]
    exact hfind
  · intro hmem
    obtain ⟨entry, hfind, rfl⟩ := hmem
    exact ⟨entry, List.mem_map.mpr ⟨_, mem_entries_iff.mpr hfind, rfl⟩, rfl⟩

theorem Consistent.card_contents (h : Consistent limits used store) :
    (contents store).card = store.entries.keys.length := by
  rw [contents, List.toFinset_card_of_nodup h.nodup_values, ← h.sha256_values, List.length_map,
    List.length_map, List.length_map]

theorem Consistent.sum_contents (h : Consistent limits used store) :
    ∑ bytes ∈ contents store, bytes.length = store.totalBytes := by
  rw [contents, List.sum_toFinset _ h.nodup_values, h.total, OrdMap.total, List.map_map]
  simp only [OrdMap.values, OrdMap.mapValues, List.map_map]
  rfl

/-- A new byte string fits with all that the store holds when the loop of `put` ends. -/
theorem Consistent.fits_insert_iff (h : Consistent limits used store) {extra : List UInt8}
    (hextra : extra ∉ contents store) : Fits limits (insert extra (contents store)) ↔
      ¬ (store.limits.maxEntries ≤ store.entries.keys.length ∨
        store.limits.maxTotalBytes - store.totalBytes < extra.length) := by
  have hwithin := h.within
  rw [Fits, card_insert_of_notMem hextra, sum_insert hextra, h.card_contents,
    h.sum_contents, h.same]
  omega

/-! ## Making room -/

/-- The oldest entry stands in front of all that the store holds. -/
theorem Consistent.behind_oldest (h : Consistent limits used store) {key : AgeKey}
    (hfirst : store.ageOrder.keys.head? = some key) (written : Finset (List UInt8)) :
    (view store written).behind key = contents store := by
  obtain ⟨entry, hentry, hkey, hleast⟩ := h.oldest hfirst
  refine filter_true_of_mem fun bytes hbytes => ?_
  obtain ⟨other, hother, -⟩ := h.mem_contents.mp hbytes
  change key ≤ keyOf store bytes
  rw [keyOf_eq hother]
  exact hleast _ other hother

/-- What stands behind an entry stays there when the oldest entry is removed. -/
theorem behind_erase {less : MemoryResultStore} (h : Consistent limits used store)
    (hless : Consistent limits used less) {key : AgeKey}
    (hfirst : store.ageOrder.keys.head? = some key)
    (hfound : ∀ id, less.entries.find? id = if key.id = id then none else store.entries.find? id)
    {bytes : List UInt8} {entry : Entry} (hentry : store.entries.find? (.sha256 bytes) = some entry)
    (hne : key.id ≠ .sha256 bytes) :
    (view less ∅).behind (keyOf less bytes) = (view store ∅).behind (keyOf store bytes) := by
  obtain ⟨oldest, holdest, hkey, hleast⟩ := h.oldest hfirst
  have hkept : ∀ other, key.id ≠ .sha256 other → keyOf less other = keyOf store other := by
    intro other hother
    rw [keyOf, keyOf, hfound, if_neg hother]
  ext other
  rw [hkept bytes hne]
  change other ∈ (contents less).filter _ ↔ other ∈ (contents store).filter _
  rw [mem_filter, mem_filter, hless.mem_contents, h.mem_contents, hfound]
  by_cases hother : key.id = .sha256 other
  · -- the removed entry stands in front of every other
    rw [if_pos hother]
    constructor
    · intro hmem
      obtain ⟨⟨_, hnone, _⟩, -⟩ := hmem
      cases hnone
    · intro hmem
      obtain ⟨-, hle⟩ := hmem
      have hkeyOf : keyOf store other = key := by
        rw [hother] at holdest hkey
        exact (keyOf_eq holdest).trans hkey.symm
      change keyOf store bytes ≤ keyOf store other at hle
      rw [hkeyOf, keyOf_eq hentry] at hle
      have heq := le_antisymm (hleast _ entry hentry) hle
      exact absurd (congrArg AgeKey.id heq) hne
  · rw [if_neg hother]
    change _ ∧ keyOf store bytes ≤ keyOf less other ↔ _
    rw [hkept other hother]
    rfl

/-- The loop of `put` keeps what fits together with the new byte string and with everything behind
it, and nothing else. -/
theorem makeRoom_exact {extra : List UInt8} (fuel : ℕ) : ∀ (store next : MemoryResultStore),
    Consistent limits used store → extra ∉ contents store →
    makeRoom extra.length fuel store = some (true, next) → ∀ bytes entry,
      next.entries.find? (.sha256 bytes) = some entry ∧ entry.bytes = bytes ↔
        (store.entries.find? (.sha256 bytes) = some entry ∧ entry.bytes = bytes) ∧
          Fits limits (insert extra ((view store ∅).behind (keyOf store bytes))) := by
  induction fuel with
  | zero => intro store next _ _ h; cases h
  | succ fuel ih =>
      intro store next h hextra hroom bytes entry
      rw [makeRoom] at hroom
      by_cases hfits : Fits limits (insert extra (contents store))
      · rw [if_neg ((h.fits_insert_iff hextra).mp hfits)] at hroom
        cases hroom
        refine ⟨fun hentry => ⟨hentry, hfits.mono ?_⟩, fun hentry => hentry.1⟩
        exact insert_subset_insert _ (filter_subset _ _)
      · rw [if_pos (not_not.mp fun hnot => hfits ((h.fits_insert_iff hextra).mpr hnot))] at hroom
        cases hfirst : store.ageOrder.keys.head? with
        | none =>
            rw [MemoryResultStore.removeOldest, hfirst] at hroom
            cases hroom
        | some key =>
            obtain ⟨oldest, holdest, hkey, hleast⟩ := h.oldest hfirst
            obtain ⟨less, hremove, hless, hentries, -, -⟩ := h.removeId holdest
            rw [MemoryResultStore.removeOldest, hfirst] at hroom
            dsimp only at hroom
            rw [hremove] at hroom
            have hfound : ∀ id, less.entries.find? id =
                if key.id = id then none else store.entries.find? id := by
              intro id
              rw [hentries, find?_erase]
              by_cases hid : key.id = id
              · rw [if_pos hid, if_pos hid]
              · rw [if_neg hid, if_neg hid]
            have hextraLess : extra ∉ contents less := by
              intro hmem
              obtain ⟨other, hother, hbytes⟩ := hless.mem_contents.mp hmem
              rw [hfound] at hother
              split at hother
              · cases hother
              · exact hextra (h.mem_contents.mpr ⟨other, hother, hbytes⟩)
            rw [ih less next hless hextraLess hroom bytes entry, hfound]
            by_cases hsame : key.id = .sha256 bytes
            · rw [if_pos hsame]
              have hkeyOf : keyOf store bytes = key := by
                rw [hsame] at holdest hkey
                exact (keyOf_eq holdest).trans hkey.symm
              rw [hkeyOf, h.behind_oldest hfirst]
              simp [hfits]
            · rw [if_neg hsame]
              refine and_congr_right fun hentry => ?_
              rw [behind_erase h hless hfirst hfound hentry.1 hsame]

/-! ## A put as a step of the queue -/

/-- A byte string that is held by an entry that has not expired. -/
def Live (now : ℕ) (store : MemoryResultStore) (bytes : List UInt8) (entry : Entry) : Prop :=
  store.entries.find? (.sha256 bytes) = some entry ∧ entry.bytes = bytes ∧
    now - entry.createdTick < store.limits.maxAgeTicks

/-- The queue shows what the store holds that has not expired. -/
structure Shows (now : ℕ) (store : MemoryResultStore) (state : State (List UInt8) AgeKey) :
    Prop where
  held : ∀ bytes, bytes ∈ state.held ↔ ∃ entry, Live now store bytes entry
  rank : ∀ bytes entry, Live now store bytes entry →
    state.rank bytes = ageKey entry.createdTick entry.order (.sha256 bytes)
  written : ∀ bytes entry, bytes ∈ state.written → Live now store bytes entry →
    entry.createdTick = now

section Puts

variable {now : ℕ} {start state : State (List UInt8) AgeKey}

variable {expired : MemoryResultStore} {bytes : List UInt8}

theorem live_of_expired (h : Consistent limits used store) (hsame : expired.limits = limits)
    (hexpired : Expired now store expired) {entry : Entry} :
    Live now expired bytes entry ↔ Live now store bytes entry := by
  rw [Live, Live, hexpired.kept, hsame, h.same]
  tauto

theorem mem_contents_of_expired (hnext : Consistent limits used expired)
    (hexpired : Expired now store expired) :
    bytes ∈ contents expired ↔ ∃ entry, Live now store bytes entry := by
  rw [hnext.mem_contents]
  refine exists_congr fun entry => ?_
  rw [hexpired.kept, Live]
  tauto

/-- The queue and the store without its expired entries have the same items behind an item. -/
theorem Shows.behind_eq (hnext : Consistent limits used expired)
    (hexpired : Expired now store expired) (hshows : Shows now store state)
    (hbytes : bytes ∈ state.held) :
    (view expired ∅).behind (keyOf expired bytes) = state.behind (state.rank bytes) := by
  have hrank : ∀ other ∈ state.held, keyOf expired other = state.rank other := by
    intro other hother
    obtain ⟨entry, hlive⟩ := (hshows.held other).mp hother
    rw [hshows.rank other entry hlive]
    exact keyOf_eq ((hexpired.kept _ _).mpr ⟨hlive.1, hlive.2.2⟩)
  have hheld : contents expired = state.held := by
    ext other
    rw [mem_contents_of_expired hnext hexpired, hshows.held]
  rw [hrank bytes hbytes]
  change (contents expired).filter _ = state.held.filter _
  rw [hheld]
  refine filter_congr fun other hother => ?_
  change state.rank bytes ≤ keyOf expired other ↔ _
  rw [hrank other hother]

/-- What a store holds after a new entry has been written. -/
theorem find?_insert_iff {room next : MemoryResultStore} {payload : List UInt8} {order : ℕ}
    (habsent : room.entries.find? (.sha256 payload) = none)
    (hentries : next.entries = room.entries.insert (.sha256 payload) ⟨payload, now, order⟩)
    {entry : Entry} :
    (next.entries.find? (.sha256 bytes) = some entry ∧ entry.bytes = bytes) ↔
      (bytes = payload ∧ entry = ⟨payload, now, order⟩) ∨
        (bytes ≠ payload ∧ room.entries.find? (.sha256 bytes) = some entry ∧
          entry.bytes = bytes) := by
  rw [hentries, find?_insert]
  by_cases hsame : ResultId.sha256 payload = .sha256 bytes
  · rw [if_pos hsame, ← hsame, habsent, Option.some.injEq]
    constructor
    · intro h
      obtain ⟨rfl, hbytes⟩ := h
      exact .inl ⟨hbytes.symm, rfl⟩
    · intro h
      obtain ⟨rfl, rfl⟩ | ⟨-, hnone, -⟩ := h
      · exact ⟨rfl, rfl⟩
      · cases hnone
  · rw [if_neg hsame]
    have hne : bytes ≠ payload := fun heq => hsame (by rw [heq])
    simp [hne]

/-- Writing a new entry after room was made for it. -/
theorem stored_step {room next : MemoryResultStore} {payload : List UInt8} {fuel : ℕ}
    (hvalid : limits.Valid) (h : Consistent limits used store)
    (hconsistent : Consistent limits used expired) (hexpired : Expired now store expired)
    (hnext : Consistent limits used next) (hnone : expired.entries.find? (.sha256 payload) = none)
    (hroom : makeRoom payload.length fuel expired = some (true, room)) (hkept : ∀ id entry,
    room.entries.find? id = some entry → expired.entries.find? id = some entry) (hentries :
    next.entries = room.entries.insert (.sha256 payload) ⟨payload, now, store.nextOrder⟩)
    (hnew : ∀ id, NewRank (Late now) start (ageKey now store.nextOrder id))
    (hshows : Shows now store state) :
    Step (Fits limits) (Late now) start state payload (view next (insert payload state.written)) ∧
      Shows now next (view next (insert payload state.written)) := by
  have habsent : room.entries.find? (.sha256 payload) = none := by
    by_contra hsome
    obtain ⟨entry, hentry⟩ := Option.ne_none_iff_exists'.mp hsome
    rw [hkept _ _ hentry] at hnone
    cases hnone
  have hextra : payload ∉ contents expired := by
    intro hmem
    obtain ⟨entry, hentry, -⟩ := hconsistent.mem_contents.mp hmem
    rw [hnone] at hentry
    cases hentry
  have hlive : ∀ bytes entry, room.entries.find? (.sha256 bytes) = some entry →
      entry.bytes = bytes → Live now store bytes entry := by
    intro bytes entry hentry hbytes
    obtain ⟨hstored, hage⟩ := (hexpired.kept _ _).mp (hkept _ _ hentry)
    exact ⟨hstored, hbytes, hage⟩
  have hpayload : next.entries.find? (.sha256 payload) = some ⟨payload, now, store.nextOrder⟩ :=
    ((find?_insert_iff habsent hentries).mpr (.inl ⟨rfl, rfl⟩)).1
  refine ⟨.stored ?_ ?_ ?_ ?_ rfl, ?_, ?_, ?_⟩
  · rw [hshows.held, ← mem_contents_of_expired hconsistent hexpired]
    exact hextra
  · intro bytes
    change bytes ∈ contents next ↔ _
    rw [hnext.mem_contents]
    simp only [find?_insert_iff habsent hentries]
    by_cases hbytes : bytes = payload
    · simp [hbytes]
    simp only [hbytes, false_and, false_or, ne_eq, not_false_eq_true, true_and]
    by_cases hheld : bytes ∈ state.held
    · simp only [makeRoom_exact fuel expired room hconsistent hextra hroom,
        hshows.behind_eq hconsistent hexpired hheld, hheld, true_and]
      rw [exists_and_right]
      refine and_iff_right ?_
      rw [← hconsistent.mem_contents, mem_contents_of_expired hconsistent hexpired, ← hshows.held]
      exact hheld
    · simp only [hheld, false_and, iff_false, not_exists, not_and]
      intro entry hentry heq
      exact hheld ((hshows.held bytes).mpr ⟨entry, hlive bytes entry hentry heq⟩)
  · intro bytes hbytes hne
    obtain ⟨entry, hentry⟩ := hnext.mem_contents.mp hbytes
    obtain ⟨heq, -⟩ | ⟨-, hfound, hsame⟩ := (find?_insert_iff habsent hentries).mp hentry
    · exact absurd heq hne
    · rw [hshows.rank bytes entry (hlive bytes entry hfound hsame)]
      exact keyOf_eq hentry.1
  · change NewRank (Late now) start (keyOf next payload)
    rw [keyOf_eq hpayload]
    exact hnew _
  · intro bytes
    change bytes ∈ contents next ↔ _
    rw [hnext.mem_contents]
    refine exists_congr fun entry => ⟨fun hentry => ⟨hentry.1, hentry.2, ?_⟩, fun hentry =>
      ⟨hentry.1, hentry.2.1⟩⟩
    have hage := hvalid.2.2.2.1
    rw [hnext.same]
    obtain ⟨-, rfl⟩ | ⟨-, hfound, hsame⟩ := (find?_insert_iff habsent hentries).mp hentry
    · dsimp only
      omega
    · have hfresh := (hlive bytes entry hfound hsame).2.2
      rw [h.same] at hfresh
      exact hfresh
  · intro bytes entry hentry
    exact keyOf_eq hentry.1
  · intro bytes entry hwritten hentry
    obtain ⟨-, rfl⟩ | ⟨hne, hfound, hsame⟩ :=
      (find?_insert_iff habsent hentries).mp ⟨hentry.1, hentry.2.1⟩
    · rfl
    · refine hshows.written bytes entry ?_ (hlive bytes entry hfound hsame)
      exact (mem_insert.mp hwritten).resolve_left hne

/-- A put of a byte string that the limits allow is a step of the queue. -/
theorem put_step (hvalid : limits.Valid) (hcollision : Set.InjOn ResultId.sha256 used)
    (h : Consistent limits used store) {payload : List UInt8} (hused : payload ∈ used)
    (hne : payload ≠ []) (hitem : payload.length ≤ limits.maxItemBytes)
    (horder : store.nextOrder + 1 < 2 ^ 64)
    (hnew : ∀ id, NewRank (Late now) start (ageKey now store.nextOrder id))
    (hshows : Shows now store state) :
    ∃ next after, (∀ fuel, limits.maxEntries < fuel → store.put fuel payload now =
        some (.ok ⟨.sha256 payload, next.receipt⟩, next)) ∧
      Consistent limits used next ∧ store.nextOrder ≤ next.nextOrder ∧
      next.nextOrder ≤ store.nextOrder + 1 ∧
      Step (Fits limits) (Late now) start state payload after ∧ Shows now next after := by
  have hlarge : ¬ store.limits.maxItemBytes < payload.length := by
    rw [h.same]
    omega
  obtain ⟨expired, counts, hevict, hconsistent, hexpired⟩ := evictExpired_ends h now
  cases hfind : expired.entries.find? (.sha256 payload) with
  | some existing =>
      obtain ⟨-, hdigest, hexisting⟩ := hconsistent.items _ _ hfind
      have hsame : existing.bytes = payload := hcollision hexisting hused hdigest
      have hexpiredLive : ∀ bytes entry,
          Live now expired bytes entry ↔ Live now store bytes entry := fun _ _ =>
        live_of_expired h hconsistent.same hexpired
      have hpresent : payload ∈ state.held := by
        refine (hshows.held payload).mpr ⟨existing, ?_⟩
        obtain ⟨hkept, hage⟩ := (hexpired.kept _ _).mp hfind
        exact ⟨hkept, hsame, hage⟩
      refine ⟨expired, state, ?_, hconsistent, hexpired.order.ge, ?_, .present hpresent, ?_⟩
      · intro fuel hfuel
        rw [put, if_neg hne, if_neg hlarge, hevict fuel hfuel]
        simp only [hfind, ne_eq, hsame, not_true_eq_false, if_false]
      · rw [hexpired.order]
        omega
      · refine ⟨?_, ?_, ?_⟩
        · intro bytes
          simp only [hexpiredLive]
          exact hshows.held bytes
        · intro bytes entry hlive
          exact hshows.rank bytes entry ((hexpiredLive bytes entry).mp hlive)
        · intro bytes entry hwritten hlive
          exact hshows.written bytes entry hwritten ((hexpiredLive bytes entry).mp hlive)
  | none =>
      obtain ⟨room, hroom, hroomConsistent, hroomy⟩ :=
        makeRoom_ends hvalid hitem _ expired hconsistent rfl
      have hloop : ∀ fuel, limits.maxEntries < fuel →
          makeRoom payload.length fuel expired = some (true, room) := fun fuel hfuel =>
        hroom fuel (lt_of_le_of_lt hconsistent.count hfuel)
      have hroomOrder : room.nextOrder = store.nextOrder := hroomy.order.trans hexpired.order
      have hcount := hroomy.count
      have hbytes := hroomy.bytes
      rw [hroomConsistent.same] at hcount hbytes
      have habsent : room.entries.find? (.sha256 payload) = none := by
        by_contra hsome
        obtain ⟨entry, hentry⟩ := Option.ne_none_iff_exists'.mp hsome
        rw [hroomy.kept _ _ hentry] at hfind
        cases hfind
      obtain ⟨next, hinsert, hnext, hentries, hnextOrder⟩ := hroomConsistent.insertNew now hused
        hitem habsent hcount hbytes (by omega)
      rw [hroomOrder] at hentries hnextOrder
      obtain ⟨hstep, hnextShows⟩ := stored_step hvalid h hconsistent hexpired hnext hfind
        (hloop _ (Nat.lt_succ_self _)) hroomy.kept hentries hnew hshows
      refine ⟨next, _, ?_, hnext, by omega, by omega, hstep, hnextShows⟩
      intro fuel hfuel
      rw [put, if_neg hne, if_neg hlarge, hevict fuel hfuel]
      simp only [hfind, hloop fuel hfuel, hinsert]

/-- A batch of byte strings that the limits allow one by one is a run of the queue. -/
theorem stage_run (hvalid : limits.Valid) (hcollision : Set.InjOn ResultId.sha256 used)
    (rest : List (List UInt8)) : ∀ (front : List (List UInt8)) (store : MemoryResultStore)
    (state : State (List UInt8) AgeKey), Consistent limits used store →
    (∀ payload ∈ rest, payload ∈ used ∧ payload ≠ [] ∧ payload.length ≤ limits.maxItemBytes) →
    store.nextOrder + rest.length < 2 ^ 64 →
    (∀ order, store.nextOrder ≤ order → ∀ id, NewRank (Late now) start (ageKey now order id)) →
    Run (Fits limits) (Late now) start front state → Shows now store state →
    ∃ trial final, (∀ fuel, limits.maxEntries < fuel → stage fuel now rest store =
        some (.ok (rest.map ResultId.sha256, trial))) ∧
      Consistent limits used trial ∧ Run (Fits limits) (Late now) start (front ++ rest) final ∧
      Shows now trial final := by
  induction rest with
  | nil =>
      intro front store state h _ _ _ hrun hshows
      refine ⟨store, state, fun _ _ => rfl, h, ?_, hshows⟩
      rw [List.append_nil]
      exact hrun
  | cons payload rest ih =>
      intro front store state h hpayloads horder hnew hrun hshows
      obtain ⟨⟨hused, hne, hitem⟩, hothers⟩ := List.forall_mem_cons.mp hpayloads
      rw [List.length_cons] at horder
      obtain ⟨next, after, hput, hnext, hle, hsucc, hstep, hafter⟩ :=
        put_step hvalid hcollision h hused hne hitem (by omega) (hnew _ le_rfl) hshows
      obtain ⟨trial, final, hstage, htrial, hfinal, hfinalShows⟩ :=
        ih (front ++ [payload]) next after hnext hothers (by omega)
          (fun order horder' => hnew order (hle.trans horder')) (hrun.snoc hstep) hafter
      refine ⟨trial, final, ?_, htrial, ?_, hfinalShows⟩
      · intro fuel hfuel
        rw [stage, hput fuel hfuel]
        simp only [hstage fuel hfuel, List.map_cons]
      · rw [List.append_assoc] at hfinal
        exact hfinal

end Puts

/-! ## Reading what a batch has stored -/

/-- The byte string is held by an entry that lasts as long as one written now, as far as ticks are
64-bit words. -/
def Readable (limits : ResultStoreLimits) (now : ℕ) (store : MemoryResultStore)
    (payload : List UInt8) : Prop :=
  ∃ entry, store.entries.find? (.sha256 payload) = some entry ∧ entry.bytes = payload ∧
    (now ≤ entry.createdTick ∨ 2 ^ 64 ≤ entry.createdTick + limits.maxAgeTicks)

def ReadBefore (fuel stop : ℕ) (before after : MemoryResultStore) : Prop :=
  ∃ id tick result, tick < stop ∧ tick < 2 ^ 64 ∧ before.get fuel id tick = some (result, after)

section Reading

variable {now tick fuel : ℕ} {payload : List UInt8}

theorem Readable.get (hvalid : limits.Valid) (h : Consistent limits used store)
    (hread : Readable limits now store payload) (htick : tick < now + limits.maxAgeTicks)
    (hword : tick < 2 ^ 64) (hfuel : limits.maxEntries < fuel) (id : ResultId) :
    ∃ result after, store.get fuel id tick = some (result, after) ∧
      Consistent limits used after ∧ Readable limits now after payload ∧
      (id = .sha256 payload → result = .ok payload) := by
  obtain ⟨entry, hentry, hbytes, hlasts⟩ := hread
  obtain ⟨expired, hget, hexpired, hkept⟩ := get_ends h id tick
  have hage := hvalid.2.2.2.1
  have hstays : expired.entries.find? (.sha256 payload) = some entry := by
    refine (hkept.kept _ _).mpr ⟨hentry, ?_⟩
    rw [h.same]
    omega
  refine ⟨_, expired, hget fuel hfuel, hexpired, ⟨entry, hstays, hbytes, hlasts⟩, ?_⟩
  intro hid
  rw [hid, hstays]
  dsimp only
  rw [hbytes]

theorem Readable.reads (hvalid : limits.Valid) {later : MemoryResultStore}
    (h : Consistent limits used store) (hread : Readable limits now store payload)
    (hfuel : limits.maxEntries < fuel)
    (hreads : Relation.ReflTransGen (ReadBefore fuel (now + limits.maxAgeTicks)) store later) :
    Consistent limits used later ∧ Readable limits now later payload := by
  induction hreads with
  | refl => exact ⟨h, hread⟩
  | tail _ hstep ih =>
      obtain ⟨hmiddle, hreadMiddle⟩ := ih
      obtain ⟨id, tick, result, htick, hword, hget⟩ := hstep
      obtain ⟨_, after, hends, hafter, hreadAfter, -⟩ :=
        hreadMiddle.get hvalid hmiddle htick hword hfuel id
      rw [hends] at hget
      cases hget
      exact ⟨hafter, hreadAfter⟩

end Reading

/-! ## Batches -/

/-- What the store holds that has not expired. -/
def unexpired (store : MemoryResultStore) (now : ℕ) : Finset (List UInt8) :=
  (contents store).filter fun bytes => now - (keyOf store bytes).tick < store.limits.maxAgeTicks

/-- What stands at the key of a byte string or behind it. -/
def behind (store : MemoryResultStore) (now : ℕ) (bytes : List UInt8) : Finset (List UInt8) :=
  (unexpired store now).filter fun other => keyOf store bytes ≤ keyOf store other

/-- What was stored at ticks after this one. -/
def later (store : MemoryResultStore) (now : ℕ) : Finset (List UInt8) :=
  (unexpired store now).filter fun bytes => now < (keyOf store bytes).tick

/-- A batch that the limits allow. -/
structure Allowed (limits : ResultStoreLimits) (payloads : List (List UInt8)) : Prop where
  nonempty : payloads ≠ []
  items : ∀ payload ∈ payloads, payload ≠ [] ∧ payload.length ≤ limits.maxItemBytes
  fits : Fits limits payloads.toFinset

/-- The entry of a stored byte string lasts as long as one written now. -/
def Lasts (store : MemoryResultStore) (now : ℕ) (bytes : List UInt8) : Prop :=
  now ≤ (keyOf store bytes).tick ∨
    2 ^ 64 ≤ (keyOf store bytes).tick + store.limits.maxAgeTicks

/-- No member of the batch suffers from being stored already: the members in front of it have pushed
it out when its turn comes, or it lasts and the batch leaves it where it is. -/
def Undisturbed (store : MemoryResultStore) (now : ℕ) (payloads : List (List UInt8)) : Prop :=
  ∀ front payload rest, payloads = front ++ payload :: rest → payload ∉ front →
    payload ∈ unexpired store now →
    ¬ Fits store.limits (behind store now payload ∪ front.toFinset) ∨
      (Lasts store now payload ∧ Fits store.limits (behind store now payload ∪ payloads.toFinset))

/-- The batch is stored, and what it has stored can be read until it expires, whatever is read in
between. -/
def Honoured (fuel : ℕ) (store : MemoryResultStore) (payloads : List (List UInt8)) (now : ℕ) :
    Prop :=
  ∃ next, store.putBatch fuel payloads now = some (.ok (payloads.map ResultId.sha256), next) ∧
    ∀ later, Relation.ReflTransGen (ReadBefore fuel (now + store.limits.maxAgeTicks)) next later →
      ∀ payload ∈ payloads, ∀ tick, now ≤ tick → tick < now + store.limits.maxAgeTicks →
        tick < 2 ^ 64 →
        ∃ after, later.get fuel (.sha256 payload) tick = some (.ok payload, after)

/-- The queue in front of a batch. -/
def startState (store : MemoryResultStore) (now : ℕ) : State (List UInt8) AgeKey :=
  ⟨unexpired store now, keyOf store, ∅⟩

section Batches

variable {now fuel : ℕ} {payloads : List (List UInt8)}

theorem Consistent.mem_unexpired (h : Consistent limits used store) {bytes : List UInt8} :
    bytes ∈ unexpired store now ↔ ∃ entry, Live now store bytes entry := by
  rw [unexpired, mem_filter, h.mem_contents]
  constructor
  · intro hmem
    obtain ⟨⟨entry, hentry, hbytes⟩, hage⟩ := hmem
    rw [keyOf_eq hentry] at hage
    exact ⟨entry, hentry, hbytes, hage⟩
  · intro hmem
    obtain ⟨entry, hentry, hbytes, hage⟩ := hmem
    rw [keyOf_eq hentry]
    exact ⟨⟨entry, hentry, hbytes⟩, hage⟩

theorem Consistent.shows_start (h : Consistent limits used store) :
    Shows now store (startState store now) where
  held := fun _ => h.mem_unexpired
  rank := fun _ _ hlive => keyOf_eq hlive.1
  written := fun bytes _ hwritten => absurd hwritten (notMem_empty bytes)

theorem Consistent.newRank (h : Consistent limits used store) {order : ℕ}
    (horder : store.nextOrder ≤ order) (id : ResultId) :
    NewRank (Late now) (startState store now) (ageKey now order id) := by
  refine ⟨lt_irrefl now, ?_⟩
  intro bytes hbytes hnot
  obtain ⟨entry, hentry, -⟩ := h.mem_unexpired.mp hbytes
  have hbefore := h.orders _ entry hentry
  change ¬ now < (keyOf store bytes).tick at hnot
  change keyOf store bytes < ageKey now order id
  rw [keyOf_eq hentry] at hnot ⊢
  have hticks : entry.createdTick ≤ now := not_lt.mp hnot
  rw [ageKey, ageKey, Prod.Lex.toLex_lt_toLex, Prod.Lex.toLex_lt_toLex]
  dsimp only
  omega

variable (now) in
/-- What a batch that the limits allow leaves behind, as a run of the queue. -/
theorem batch_run (hvalid : limits.Valid) (hcollision : Set.InjOn ResultId.sha256 used)
    (h : Consistent limits used store) (hallowed : Allowed limits payloads)
    (hused : ∀ payload ∈ payloads, payload ∈ used)
    (horder : store.nextOrder + payloads.length < 2 ^ 64) :
    ∃ trial final, (∀ fuel, limits.maxEntries < fuel → stage fuel now payloads store =
        some (.ok (payloads.map ResultId.sha256, trial))) ∧
      Consistent limits used trial ∧
      Run (Fits limits) (Late now) (startState store now) payloads final ∧
      Shows now trial final :=
  stage_run hvalid hcollision payloads [] store (startState store now) h
    (fun payload hpayload => ⟨hused payload hpayload, hallowed.items payload hpayload⟩) horder
    (fun _ hle id => h.newRank hle id) .nil h.shows_start

theorem putBatch_of_stage {trial : MemoryResultStore} (hne : payloads ≠ [])
    (hstage : stage fuel now payloads store =
      some (.ok (payloads.map ResultId.sha256, trial)))
    (hall : ∀ payload ∈ payloads, trial.entries.contains (.sha256 payload) = true) :
    store.putBatch fuel payloads now = some (.ok (payloads.map ResultId.sha256), trial) := by
  have hids : payloads.map ResultId.sha256 ≠ [] := by simpa using hne
  have hany : ¬ ((payloads.map ResultId.sha256).any fun id =>
      !trial.entries.contains id) = true := by
    rw [List.any_eq_true]
    intro hmissing
    obtain ⟨id, hid, hnot⟩ := hmissing
    obtain ⟨payload, hpayload, rfl⟩ := List.mem_map.mp hid
    rw [hall payload hpayload] at hnot
    cases hnot
  rw [putBatch, hstage]
  dsimp only
  rw [if_neg hids, if_neg hany]

/-- The batch is honoured when the queue holds all of it in the end, written now or lasting. -/
theorem honoured_iff_held (hvalid : limits.Valid)
    (h : Consistent limits used store) (hallowed : Allowed limits payloads)
    (hfuel : limits.maxEntries < fuel) (hnow : now < 2 ^ 64)
    {trial : MemoryResultStore} {final : State (List UInt8) AgeKey}
    (hstage : stage fuel now payloads store =
      some (.ok (payloads.map ResultId.sha256, trial)))
    (htrial : Consistent limits used trial) (hshows : Shows now trial final)
    (hkept : Kept (Fits limits) (Late now) (startState store now) final) :
    Honoured fuel store payloads now ↔
      ∀ payload ∈ payloads, payload ∈ final.held ∧
        (payload ∈ final.written ∨ Lasts store now payload) := by
  have hage := hvalid.2.2.2.1
  have htick : ∀ payload entry, Live now trial payload entry → payload ∉ final.written →
      (keyOf store payload).tick = entry.createdTick := by
    intro payload entry hlive hold
    have hrank := hkept.rank_old payload ((hshows.held payload).mpr ⟨entry, hlive⟩) hold
    rw [hshows.rank payload entry hlive] at hrank
    change ageKey _ _ _ = keyOf store payload at hrank
    rw [← hrank]
    rfl
  unfold Honoured
  rw [h.same]
  constructor
  · intro hhonoured payload hpayload
    obtain ⟨next, hput, hreads⟩ := hhonoured
    have hnext : next = trial := by
      rw [putBatch, hstage] at hput
      dsimp only at hput
      split at hput
      · cases hput
      · split at hput
        · cases hput
        · cases hput
          rfl
    subst hnext
    -- the entry that answers at the tick of the batch
    have hanswer : ∀ tick, now ≤ tick → tick < now + limits.maxAgeTicks → tick < 2 ^ 64 →
        ∃ entry, next.entries.find? (.sha256 payload) = some entry ∧ entry.bytes = payload ∧
          tick - entry.createdTick < limits.maxAgeTicks := by
      intro tick hle hlt hword
      obtain ⟨after, hget⟩ := hreads next .refl payload hpayload tick hle hlt hword
      obtain ⟨expired, hends, -, hexpired⟩ := get_ends htrial (.sha256 payload) tick
      rw [hends fuel hfuel] at hget
      cases hfind : expired.entries.find? (.sha256 payload) with
      | none =>
          rw [hfind] at hget
          cases hget
      | some entry =>
          rw [hfind] at hget
          obtain ⟨hentry, hfresh⟩ := (hexpired.kept _ _).mp hfind
          rw [htrial.same] at hfresh
          have hpair := Option.some.inj hget
          exact ⟨entry, hentry, Except.ok.inj (congrArg Prod.fst hpair), hfresh⟩
    obtain ⟨entry, hentry, hbytes, hfresh⟩ := hanswer now le_rfl (by omega) hnow
    have hlive : Live now next payload entry := ⟨hentry, hbytes, by rwa [htrial.same]⟩
    refine ⟨(hshows.held payload).mpr ⟨entry, hlive⟩, ?_⟩
    by_cases hwritten : payload ∈ final.written
    · exact .inl hwritten
    · refine .inr ?_
      rw [Lasts, htick payload entry hlive hwritten, h.same]
      by_contra hnot
      rw [not_or, not_le, not_le] at hnot
      obtain ⟨other, hother, -, hlater⟩ := hanswer (entry.createdTick + limits.maxAgeTicks)
        (by omega) (by omega) hnot.2
      rw [hentry] at hother
      cases hother
      omega
  · intro hheld
    have hread : ∀ payload ∈ payloads, Readable limits now trial payload := by
      intro payload hpayload
      obtain ⟨hpresent, hlasts⟩ := hheld payload hpayload
      obtain ⟨entry, hlive⟩ := (hshows.held payload).mp hpresent
      refine ⟨entry, hlive.1, hlive.2.1, ?_⟩
      by_cases hwritten : payload ∈ final.written
      · exact .inl (hshows.written payload entry hwritten hlive).ge
      · have hlong := hlasts.resolve_left hwritten
        rw [Lasts, htick payload entry hlive hwritten, h.same] at hlong
        exact hlong
    refine ⟨trial, putBatch_of_stage hallowed.nonempty hstage ?_, ?_⟩
    · intro payload hpayload
      obtain ⟨entry, hentry, -⟩ := hread payload hpayload
      exact contains_iff.mpr (mem_keys_iff.mpr ⟨entry, hentry⟩)
    · intro later hreads payload hpayload tick _ hlt hword
      obtain ⟨hlater, hreadLater⟩ := (hread payload hpayload).reads hvalid htrial hfuel hreads
      obtain ⟨result, after, hget, -, -, hresult⟩ :=
        hreadLater.get hvalid hlater hlt hword hfuel (.sha256 payload)
      rw [hresult rfl] at hget
      exact ⟨after, hget⟩

theorem undisturbed_iff (hsame : store.limits = limits) : Undisturbed store now payloads ↔
    Condition (Fits limits) (startState store now) payloads (Lasts store now) := by
  rw [Undisturbed, hsame]
  rfl

theorem Consistent.fits_unexpired (h : Consistent limits used store) :
    Fits limits (unexpired store now) := by
  refine Fits.mono (filter_subset _ _) ⟨?_, ?_⟩
  · rw [h.card_contents]
    exact h.count
  · rw [h.sum_contents]
    exact h.within

theorem honoured_of_undisturbed (hvalid : limits.Valid)
    (hcollision : Set.InjOn ResultId.sha256 used) (h : Consistent limits used store)
    (hallowed : Allowed limits payloads) (hused : ∀ payload ∈ payloads, payload ∈ used)
    (hfuel : limits.maxEntries < fuel) (hnow : now < 2 ^ 64)
    (hlater : Fits limits (later store now ∪ payloads.toFinset))
    (horder : store.nextOrder + payloads.length < 2 ^ 64)
    (hundisturbed : Undisturbed store now payloads) : Honoured fuel store payloads now := by
  obtain ⟨trial, final, hstage, htrial, hrun, hshows⟩ :=
    batch_run now hvalid hcollision h hallowed hused horder
  obtain ⟨hkept, -⟩ := hrun.kept (fun _ _ => Fits.mono) (fun _ _ => late_mono) rfl
    h.fits_unexpired hlater subset_rfl
  rw [honoured_iff_held hvalid h hallowed hfuel hnow (hstage fuel hfuel) htrial
    hshows hkept]
  exact stays_of_condition (fun _ _ => Fits.mono) (fun _ _ => late_mono) rfl h.fits_unexpired hlater
    ((undisturbed_iff h.same).mp hundisturbed) hrun

theorem undisturbed_of_honoured (hvalid : limits.Valid)
    (hcollision : Set.InjOn ResultId.sha256 used) (h : Consistent limits used store)
    (hallowed : Allowed limits payloads) (hused : ∀ payload ∈ payloads, payload ∈ used)
    (hfuel : limits.maxEntries < fuel) (hnow : now < 2 ^ 64)
    (hlater : Fits limits (later store now ∪ payloads.toFinset))
    (horder : store.nextOrder + payloads.length < 2 ^ 64) (hnodup : payloads.Nodup)
    (hhonoured : Honoured fuel store payloads now) : Undisturbed store now payloads := by
  obtain ⟨trial, final, hstage, htrial, hrun, hshows⟩ :=
    batch_run now hvalid hcollision h hallowed hused horder
  obtain ⟨hkept, -⟩ := hrun.kept (fun _ _ => Fits.mono) (fun _ _ => late_mono) rfl
    h.fits_unexpired hlater subset_rfl
  rw [honoured_iff_held hvalid h hallowed hfuel hnow (hstage fuel hfuel) htrial
    hshows hkept] at hhonoured
  exact (undisturbed_iff h.same).mpr (condition_of_stays (fun _ _ => Fits.mono)
    (fun _ _ => late_mono) rfl h.fits_unexpired hlater hnodup hrun hhonoured)

end Batches

/-! ## When a batch is honoured -/

/-- One byte stored at a tick of its own. -/
def oneByte : MemoryResultStore where
  limits := smallLimits
  entries := OrdMap.empty.insert (.sha256 [1]) ⟨[1], 0, 0⟩
  ageOrder := OrdMap.empty.insert (ageKey 0 0 (.sha256 [1])) ()
  totalBytes := 1
  nextOrder := 1

theorem reachable_oneByte : Reachable smallLimits {[1]} oneByte := by
  have hstart : Reachable smallLimits {[1]} ⟨smallLimits, OrdMap.empty, OrdMap.empty, 0, 0⟩ :=
    .created rfl
  have hput : put 3 ⟨smallLimits, OrdMap.empty, OrdMap.empty, 0, 0⟩ [1] 0 =
      some (.ok ⟨.sha256 [1], ⟨1, 1⟩⟩, oneByte) := rfl
  exact hstart.put rfl (by decide) hput

theorem allowed_oneByte : Allowed smallLimits [[1]] := ⟨by decide, by decide, by decide, by decide⟩

theorem fits_oneByte (now : ℕ) (items : Finset (List UInt8)) (hitems : items ⊆ {[1]}) :
    Fits smallLimits (unexpired oneByte now ∪ items) := by
  have hcontents : contents oneByte = {[1]} := rfl
  have hsubset : unexpired oneByte now ∪ items ⊆ {[1]} :=
    union_subset ((filter_subset _ _).trans hcontents.subset) hitems
  exact Fits.mono hsubset ⟨by decide, by decide⟩

theorem keyOf_oneByte : (keyOf oneByte [1]).tick = 0 := by
  rw [keyOf_eq (find?_insert_self _ _ _)]
  rfl

theorem fits_oneByte_later (now : ℕ) :
    Fits smallLimits (later oneByte now ∪ [[1]].toFinset) :=
  Fits.mono (union_subset_union_left (filter_subset _ _))
    (fits_oneByte now _ (by decide))

end Bran.Agent.MemoryResultStore
