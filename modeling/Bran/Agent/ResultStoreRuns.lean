import Bran.Agent.ResultStore

/-!
# Runs of the result store

The entries, the age index and the total agree after every operation, whatever ticks the callers
pass; from this the eviction loops end, no counter overflows, and what a batch has answered can be
read back at the same tick.
-/

namespace Bran.Agent.MemoryResultStore

open List Option OrdMap

/-! ## Consistency -/

/-- The bytes of an entry. -/
def size (entry : Entry) : ℕ := entry.bytes.length

/-- What holds between any two operations; `used` are the byte strings that were put. -/
structure Consistent (limits : ResultStoreLimits) (used : Set (List UInt8))
    (store : MemoryResultStore) : Prop where
  same : store.limits = limits
  ages : ∀ key, key ∈ store.ageOrder.keys ↔ ∃ id entry, store.entries.find? id = some entry ∧
    key = ageKey entry.createdTick entry.order id
  total : store.totalBytes = store.entries.total size
  count : store.entries.keys.length ≤ limits.maxEntries
  within : store.totalBytes ≤ limits.maxTotalBytes
  items : ∀ id entry, store.entries.find? id = some entry →
    entry.bytes.length ≤ limits.maxItemBytes ∧ ResultId.sha256 entry.bytes = id ∧
      entry.bytes ∈ used
  orders : ∀ id entry, store.entries.find? id = some entry → entry.order < store.nextOrder
  next : store.nextOrder < 2 ^ 64

variable {limits : ResultStoreLimits} {used : Set (List UInt8)} {store : MemoryResultStore}

theorem AgeKey.ext_iff {tick order tick' order' : ℕ} {id id' : ResultId} :
    ageKey tick order id = ageKey tick' order' id' ↔ tick = tick' ∧ order = order' ∧ id = id' := by
  unfold ageKey
  constructor
  · intro h
    have hpair := congrArg ofLex h
    have htick := congrArg Prod.fst hpair
    have hrest := congrArg ofLex (congrArg Prod.snd hpair)
    exact ⟨htick, congrArg Prod.fst hrest, congrArg Prod.snd hrest⟩
  · intro h
    obtain ⟨rfl, rfl, rfl⟩ := h
    rfl

theorem consistent_empty (hvalid : limits.Valid) :
    Consistent limits used ⟨limits, OrdMap.empty, OrdMap.empty, 0, 0⟩ where
  same := rfl
  ages := by
    intro key
    constructor
    · intro h
      cases h
    · intro h
      obtain ⟨id, entry, hfind, -⟩ := h
      cases hfind
  total := rfl
  count := Nat.zero_le _
  within := Nat.zero_le _
  items := fun _ _ h => nomatch h
  orders := fun _ _ h => nomatch h
  next := Nat.two_pow_pos 64

namespace Consistent

/-- The first key of the age index is that of the least entry. -/
theorem oldest (h : Consistent limits used store) {key : AgeKey}
    (hfirst : store.ageOrder.keys.head? = some key) :
    ∃ entry, store.entries.find? key.id = some entry ∧
      key = ageKey entry.createdTick entry.order key.id ∧
      ∀ other entry', store.entries.find? other = some entry' →
        key ≤ ageKey entry'.createdTick entry'.order other := by
  obtain ⟨hmem, hleast⟩ := head?_keys hfirst
  obtain ⟨id, entry, hfind, rfl⟩ := (h.ages key).mp hmem
  refine ⟨entry, hfind, rfl, ?_⟩
  intro other entry' hother
  exact hleast _ ((h.ages _).mpr ⟨other, entry', hother, rfl⟩)

theorem ageOrder_empty_iff (h : Consistent limits used store) :
    store.ageOrder.keys.head? = none ↔ ∀ id, store.entries.find? id = none := by
  rw [head?_eq_none_iff]
  constructor
  · intro hnil id
    by_contra hsome
    obtain ⟨entry, hentry⟩ := ne_none_iff_exists'.mp hsome
    have hmem := (h.ages _).mpr ⟨id, entry, hentry, rfl⟩
    rw [hnil] at hmem
    cases hmem
  · intro hnone
    rw [eq_nil_iff_forall_not_mem]
    intro key hmem
    obtain ⟨id, entry, hfind, -⟩ := (h.ages key).mp hmem
    rw [hnone id] at hfind
    cases hfind

/-- Removing a stored entry keeps everything in step. -/
theorem removeId (h : Consistent limits used store) {id : ResultId} {entry : Entry}
    (hentry : store.entries.find? id = some entry) :
    ∃ next, store.removeId id = (some entry.bytes.length, next) ∧ Consistent limits used next ∧
      next.entries = store.entries.erase id ∧ next.nextOrder = store.nextOrder ∧
      next.entries.keys.length + 1 = store.entries.keys.length := by
  have htotal := total_erase size store.entries id
  have hcount := total_erase (fun _ => 1) store.entries id
  rw [hentry, map_some, getD_some] at htotal hcount
  rw [total_one, total_one] at hcount
  have hsize : size entry = entry.bytes.length := rfl
  have hle : ¬ store.totalBytes < entry.bytes.length := by
    rw [h.total]
    omega
  have hfound : ∀ other entry', (store.entries.erase id).find? other = some entry' →
      other ≠ id ∧ store.entries.find? other = some entry' := by
    intro other entry' hother
    rw [find?_erase] at hother
    split at hother
    · cases hother
    · rename_i hne
      exact ⟨Ne.symm hne, hother⟩
  refine ⟨{ store with
    entries := store.entries.erase id
    ageOrder := store.ageOrder.erase (ageKey entry.createdTick entry.order id)
    totalBytes := store.totalBytes - entry.bytes.length }, ?_, ?_, rfl, rfl, hcount⟩
  · simp only [MemoryResultStore.removeId, hentry, if_neg hle]
  constructor
  · exact h.same
  · intro key
    rw [← OrdMap.contains_iff, OrdMap.contains, find?_erase]
    by_cases hkey : ageKey entry.createdTick entry.order id = key
    · rw [if_pos hkey]
      constructor
      · intro hsome
        cases hsome
      · intro hsome
        obtain ⟨other, entry', hother, hother'⟩ := hsome
        rw [hother', AgeKey.ext_iff] at hkey
        exact absurd hkey.2.2.symm (hfound other entry' hother).1
    · rw [if_neg hkey, ← OrdMap.contains, OrdMap.contains_iff, h.ages]
      constructor
      · intro hsome
        obtain ⟨other, entry', hother, rfl⟩ := hsome
        refine ⟨other, entry', ?_, rfl⟩
        rw [find?_erase, if_neg]
        · exact hother
        · intro hsame
          subst hsame
          rw [hentry] at hother
          cases hother
          exact hkey rfl
      · intro hsome
        obtain ⟨other, entry', hother, rfl⟩ := hsome
        exact ⟨other, entry', (hfound other entry' hother).2, rfl⟩
  · dsimp only
    rw [h.total]
    omega
  · have hkept := h.count
    dsimp only
    omega
  · have hwithin := h.within
    dsimp only
    omega
  · intro other entry' hother
    exact h.items other entry' (hfound other entry' hother).2
  · intro other entry' hother
    exact h.orders other entry' (hfound other entry' hother).2
  · exact h.next

theorem removeOldest (h : Consistent limits used store)
    (hne : ∃ id entry, store.entries.find? id = some entry) :
    ∃ id entry next, store.removeOldest = (some (id, entry.bytes.length), next) ∧
      store.entries.find? id = some entry ∧
      (∀ other entry', store.entries.find? other = some entry' →
        toLex (entry.createdTick, entry.order) ≤ toLex (entry'.createdTick, entry'.order)) ∧
      Consistent limits used next ∧ next.entries = store.entries.erase id ∧
      next.nextOrder = store.nextOrder ∧
      next.entries.keys.length + 1 = store.entries.keys.length := by
  cases hfirst : store.ageOrder.keys.head? with
  | none =>
      obtain ⟨id, entry, hentry⟩ := hne
      rw [h.ageOrder_empty_iff.mp hfirst id] at hentry
      cases hentry
  | some key =>
      obtain ⟨entry, hentry, hkey, hleast⟩ := h.oldest hfirst
      obtain ⟨next, hremove, hnext, hentries, horder, hcount⟩ := h.removeId hentry
      refine ⟨key.id, entry, next, ?_, hentry, ?_, hnext, hentries, horder, hcount⟩
      · rw [MemoryResultStore.removeOldest, hfirst]
        dsimp only
        rw [hremove]
      · intro other entry' hother
        have hle := hleast other entry' hother
        rw [hkey, ageKey, ageKey, Prod.Lex.toLex_le_toLex] at hle
        rw [Prod.Lex.toLex_le_toLex]
        rcases hle with hlt | ⟨heq, hle⟩
        · exact .inl hlt
        · rw [Prod.Lex.toLex_le_toLex] at hle
          refine .inr ⟨heq, ?_⟩
          rcases hle with hlt | ⟨heq', -⟩
          · exact hlt.le
          · exact heq'.le

end Consistent

/-! ## Eviction -/

structure Expired (now : ℕ) (store next : MemoryResultStore) : Prop where
  kept : ∀ id entry, next.entries.find? id = some entry ↔
    store.entries.find? id = some entry ∧ now - entry.createdTick < store.limits.maxAgeTicks
  order : next.nextOrder = store.nextOrder

/-- One entry is dropped, the one with the least tick and order. -/
def DropsOldest (entries next : OrdMap ResultId Entry) : Prop :=
  ∃ id entry, entries.find? id = some entry ∧
    (∀ other entry', entries.find? other = some entry' →
      toLex (entry.createdTick, entry.order) ≤ toLex (entry'.createdTick, entry'.order)) ∧
    next = entries.erase id

theorem evictFrom_ends (now : ℕ) (count : ℕ) : ∀ (store : MemoryResultStore) (entries bytes : ℕ),
    Consistent limits used store → store.entries.keys.length = count →
    ∃ next counts, (∀ fuel, count < fuel →
        evictFrom now fuel store entries bytes = some (next, counts)) ∧
      Consistent limits used next ∧ Expired now store next := by
  induction count with
  | zero =>
      intro store entries bytes h hcount
      have hnone : store.ageOrder.keys.head? = none := by
        rw [h.ageOrder_empty_iff]
        intro id
        rw [find?_eq_none_iff, length_eq_zero_iff.mp hcount]
        exact not_mem_nil
      refine ⟨store, (entries, bytes), ?_, h, ?_, rfl⟩
      · intro fuel hfuel
        obtain ⟨fuel, rfl⟩ := Nat.exists_eq_add_of_lt hfuel
        rw [Nat.zero_add, evictFrom, hnone]
      · intro id entry
        have hempty := h.ageOrder_empty_iff.mp hnone id
        rw [hempty]
        simp
  | succ count ih =>
      intro store entries bytes h hcount
      cases hfirst : store.ageOrder.keys.head? with
      | none =>
          have hempty := h.ageOrder_empty_iff.mp hfirst
          refine ⟨store, (entries, bytes), ?_, h, ?_, rfl⟩
          · intro fuel hfuel
            obtain ⟨fuel, rfl⟩ := Nat.exists_eq_add_of_lt hfuel
            rw [evictFrom, hfirst]
          · intro id entry
            rw [hempty id]
            simp
      | some key =>
          obtain ⟨entry, hentry, hkey, hleast⟩ := h.oldest hfirst
          have htick : key.tick = entry.createdTick := by
            rw [hkey]
            rfl
          by_cases hfresh : now - key.tick < store.limits.maxAgeTicks
          · refine ⟨store, (entries, bytes), ?_, h, ?_, rfl⟩
            · intro fuel hfuel
              obtain ⟨fuel, rfl⟩ := Nat.exists_eq_add_of_lt hfuel
              rw [evictFrom, hfirst]
              dsimp only
              rw [if_pos hfresh]
            · -- every other entry is at least as young as the first
              intro id other
              refine ⟨fun hother => ⟨hother, ?_⟩, fun hother => hother.1⟩
              have hle := hleast id other hother
              rw [hkey, ageKey, ageKey, Prod.Lex.toLex_le_toLex] at hle
              have hticks : entry.createdTick ≤ other.createdTick := by
                rcases hle with hlt | ⟨heq, -⟩
                · exact hlt.le
                · exact heq.le
              omega
          · obtain ⟨next, hremove, hnext, hentries, horder, hless⟩ := h.removeId hentry
            obtain ⟨last, counts, hloop, hlast, hexpired⟩ := ih next (entries + 1)
              (bytes + entry.bytes.length) hnext (by omega)
            refine ⟨last, counts, ?_, hlast, ?_, hexpired.order.trans horder⟩
            · intro fuel hfuel
              obtain ⟨fuel, rfl⟩ := Nat.exists_eq_add_of_lt hfuel
              rw [evictFrom, hfirst]
              dsimp only
              rw [if_neg hfresh, hremove]
              exact hloop _ (by omega)
            · intro id other
              rw [hexpired.kept, hentries, find?_erase, hnext.same, ← h.same]
              split
              · rename_i hsame
                subst hsame
                constructor
                · intro hnone
                  cases hnone.1
                · intro hother
                  rw [hentry] at hother
                  cases hother.1
                  rw [htick] at hfresh
                  exact absurd hother.2 hfresh
              · rfl

theorem evictExpired_ends (h : Consistent limits used store) (now : ℕ) :
    ∃ next counts, (∀ fuel, limits.maxEntries < fuel →
        store.evictExpired fuel now = some (next, counts)) ∧
      Consistent limits used next ∧ Expired now store next := by
  obtain ⟨next, counts, hloop, hnext, hexpired⟩ := evictFrom_ends now _ store 0 0 h rfl
  refine ⟨next, counts, ?_, hnext, hexpired⟩
  intro fuel hfuel
  exact hloop fuel (lt_of_le_of_lt h.count hfuel)

/-- There is room for a payload, made by dropping the oldest entries one by one. -/
structure Roomy (length : ℕ) (store next : MemoryResultStore) : Prop where
  count : next.entries.keys.length < next.limits.maxEntries
  bytes : next.totalBytes + length ≤ next.limits.maxTotalBytes
  order : next.nextOrder = store.nextOrder
  drops : Relation.ReflTransGen DropsOldest store.entries next.entries
  kept : ∀ id entry, next.entries.find? id = some entry → store.entries.find? id = some entry

theorem makeRoom_ends (hvalid : limits.Valid) {length : ℕ} (hlength : length ≤ limits.maxItemBytes)
    (count : ℕ) : ∀ store : MemoryResultStore, Consistent limits used store →
    store.entries.keys.length = count →
    ∃ next, (∀ fuel, count < fuel → makeRoom length fuel store = some (true, next)) ∧
      Consistent limits used next ∧ Roomy length store next := by
  obtain ⟨hentries, htotal, hitem, hage, hle⟩ := hvalid
  induction count with
  | zero =>
      intro store h hcount
      have hzero : store.totalBytes = 0 := by
        have hsum := h.total
        have hempty : store.entries = OrdMap.empty := by
          apply ext_find?
          intro id
          rw [find?_empty, find?_eq_none_iff, length_eq_zero_iff.mp hcount]
          exact not_mem_nil
        rw [hempty] at hsum
        exact hsum
      have hfull : ¬ (store.limits.maxEntries ≤ store.entries.keys.length ∨
          store.limits.maxTotalBytes - store.totalBytes < length) := by
        rw [h.same, hcount, hzero]
        omega
      refine ⟨store, ?_, h, ?_⟩
      · intro fuel hfuel
        obtain ⟨fuel, rfl⟩ := Nat.exists_eq_add_of_lt hfuel
        rw [Nat.zero_add, makeRoom, if_neg hfull]
      · have hwithin := h.within
        rw [h.same] at hfull
        exact ⟨by rw [h.same]; omega, by rw [h.same]; omega, rfl, .refl, fun _ _ h => h⟩
  | succ count ih =>
      intro store h hcount
      by_cases hfull : store.limits.maxEntries ≤ store.entries.keys.length ∨
          store.limits.maxTotalBytes - store.totalBytes < length
      · have hne : ∃ id entry, store.entries.find? id = some entry := by
          cases hkeys : store.entries.keys with
          | nil =>
              rw [hkeys] at hcount
              cases hcount
          | cons id rest =>
              have hmem : id ∈ store.entries.keys := by
                rw [hkeys]
                exact mem_cons_self
              obtain ⟨entry, hentry⟩ := mem_keys_iff.mp hmem
              exact ⟨id, entry, hentry⟩
        obtain ⟨id, entry, next, hremove, hentry, hleast, hnext, hnextEntries, horder, hless⟩ :=
          h.removeOldest hne
        obtain ⟨last, hloop, hlast, hroomy⟩ := ih next hnext (by omega)
        refine ⟨last, ?_, hlast, hroomy.count, hroomy.bytes, hroomy.order.trans horder, ?_, ?_⟩
        · intro fuel hfuel
          obtain ⟨fuel, rfl⟩ := Nat.exists_eq_add_of_lt hfuel
          rw [makeRoom, if_pos hfull, hremove]
          exact hloop _ (by omega)
        · exact .head ⟨id, entry, hentry, hleast, hnextEntries⟩ hroomy.drops
        · intro other entry' hother
          have hkept := hroomy.kept other entry' hother
          rw [hnextEntries, find?_erase] at hkept
          split at hkept
          · cases hkept
          · exact hkept
      · refine ⟨store, ?_, h, ?_⟩
        · intro fuel hfuel
          obtain ⟨fuel, rfl⟩ := Nat.exists_eq_add_of_lt hfuel
          rw [makeRoom, if_neg hfull]
        · have hwithin := h.within
          rw [h.same] at hfull
          exact ⟨by rw [h.same]; omega, by rw [h.same]; omega, rfl, .refl, fun _ _ h => h⟩

/-! ## Putting -/

/-- What a put answers and leaves behind. -/
inductive PutOutcome (store : MemoryResultStore) (bytes : List UInt8) (now : ℕ) :
    Except ResultStoreError PutResult → MemoryResultStore → Prop
  | refused {error : ResultStoreError} (h : error = .emptyInput ∨ error = .itemTooLarge) :
      PutOutcome store bytes now (.error error) store
  | collided {expired : MemoryResultStore} {existing : Entry} (hexpired : Expired now store expired)
      (hfind : expired.entries.find? (.sha256 bytes) = some existing)
      (hne : existing.bytes ≠ bytes) :
      PutOutcome store bytes now (.error .contentIdCollision) expired
  | present {expired : MemoryResultStore} {existing : Entry} (hexpired : Expired now store expired)
      (hfind : expired.entries.find? (.sha256 bytes) = some existing)
      (hsame : existing.bytes = bytes) :
      PutOutcome store bytes now (.ok ⟨.sha256 bytes, expired.receipt⟩) expired
  | stored {expired room next : MemoryResultStore} (hexpired : Expired now store expired)
      (hnone : expired.entries.find? (.sha256 bytes) = none)
      (hroomy : Roomy bytes.length expired room)
      (hentries : next.entries = room.entries.insert (.sha256 bytes)
        ⟨bytes, now, store.nextOrder⟩) :
      PutOutcome store bytes now (.ok ⟨.sha256 bytes, next.receipt⟩) next
  | exhausted {expired room : MemoryResultStore} (hexpired : Expired now store expired)
      (hroomy : Roomy bytes.length expired room) (hlast : store.nextOrder + 1 = 2 ^ 64) :
      PutOutcome store bytes now (.error .arithmeticOverflow) room

/-- A new entry keeps everything in step. -/
theorem Consistent.insertNew (h : Consistent limits used store) {bytes : List UInt8} (now : ℕ)
    (hused : bytes ∈ used) (hitem : bytes.length ≤ limits.maxItemBytes)
    (hnone : store.entries.find? (.sha256 bytes) = none)
    (hcount : store.entries.keys.length < limits.maxEntries)
    (hbytes : store.totalBytes + bytes.length ≤ limits.maxTotalBytes)
    (horder : store.nextOrder + 1 < 2 ^ 64) :
    ∃ next, store.insertNew (.sha256 bytes) bytes now =
        (.ok ⟨.sha256 bytes, next.receipt⟩, next) ∧
      Consistent limits used next ∧
      next.entries = store.entries.insert (.sha256 bytes) ⟨bytes, now, store.nextOrder⟩ ∧
      next.nextOrder = store.nextOrder + 1 := by
  have hwords := limits.words.2.1
  have htotal := total_insert size store.entries (.sha256 bytes)
    ⟨bytes, now, store.nextOrder⟩
  have hkeys := total_insert (fun _ => 1) store.entries (.sha256 bytes)
    ⟨bytes, now, store.nextOrder⟩
  rw [hnone, map_none, getD_none, Nat.add_zero] at htotal hkeys
  rw [total_one, total_one] at hkeys
  have hfound : ∀ id entry, (store.entries.insert (.sha256 bytes)
      ⟨bytes, now, store.nextOrder⟩).find? id = some entry →
      (id = .sha256 bytes ∧ entry = ⟨bytes, now, store.nextOrder⟩) ∨
        store.entries.find? id = some entry := by
    intro id entry hentry
    rw [find?_insert] at hentry
    split at hentry
    · rename_i hsame
      exact .inl ⟨hsame.symm, (Option.some.inj hentry).symm⟩
    · exact .inr hentry
  refine ⟨{ store with
    nextOrder := store.nextOrder + 1
    totalBytes := store.totalBytes + bytes.length
    ageOrder := store.ageOrder.insert (ageKey now store.nextOrder (.sha256 bytes)) ()
    entries := store.entries.insert (.sha256 bytes) ⟨bytes, now, store.nextOrder⟩ },
    ?_, ?_, rfl, rfl⟩
  · rw [MemoryResultStore.insertNew, if_neg (by omega), if_neg (by omega)]
  · constructor
    · exact h.same
    · intro key
      rw [mem_keys_insert, h.ages]
      constructor
      · intro hkey
        rcases hkey with rfl | ⟨id, entry, hentry, rfl⟩
        · exact ⟨_, _, find?_insert_self _ _ _, rfl⟩
        · refine ⟨id, entry, ?_, rfl⟩
          rw [find?_insert_of_ne]
          · exact hentry
          · intro hsame
            rw [← hsame, hnone] at hentry
            cases hentry
      · intro hkey
        obtain ⟨id, entry, hentry, rfl⟩ := hkey
        rcases hfound id entry hentry with ⟨rfl, rfl⟩ | hold
        · exact .inl rfl
        · exact .inr ⟨id, entry, hold, rfl⟩
    · dsimp only
      rw [htotal, h.total]
      rfl
    · dsimp only
      omega
    · exact hbytes
    · intro id entry hentry
      rcases hfound id entry hentry with ⟨rfl, rfl⟩ | hold
      · exact ⟨hitem, rfl, hused⟩
      · exact h.items id entry hold
    · intro id entry hentry
      rcases hfound id entry hentry with ⟨rfl, rfl⟩ | hold
      · exact Nat.lt_succ_self _
      · exact Nat.lt_succ_of_lt (h.orders id entry hold)
    · exact horder

/-- A put ends, and what it leaves behind is consistent. -/
theorem put_ends (hvalid : limits.Valid) (h : Consistent limits used store) {bytes : List UInt8}
    (hused : bytes ∈ used) (now : ℕ) :
    ∃ result next, (∀ fuel, limits.maxEntries < fuel →
        store.put fuel bytes now = some (result, next)) ∧
      Consistent limits used next ∧ PutOutcome store bytes now result next := by
  by_cases hempty : bytes = []
  · refine ⟨.error .emptyInput, store, ?_, h, .refused (.inl rfl)⟩
    intro fuel _
    rw [put, if_pos hempty]
  by_cases hlarge : store.limits.maxItemBytes < bytes.length
  · refine ⟨.error .itemTooLarge, store, ?_, h, .refused (.inr rfl)⟩
    intro fuel _
    rw [put, if_neg hempty, if_pos hlarge]
  have hitem : bytes.length ≤ limits.maxItemBytes := by
    rw [← h.same]
    omega
  obtain ⟨expired, counts, hevict, hconsistent, hexpired⟩ := evictExpired_ends h now
  cases hfind : expired.entries.find? (.sha256 bytes) with
  | some existing =>
      by_cases hsame : existing.bytes = bytes
      · refine ⟨_, expired, ?_, hconsistent, .present hexpired hfind hsame⟩
        intro fuel hfuel
        rw [put, if_neg hempty, if_neg hlarge, hevict fuel hfuel]
        simp only [hfind, ne_eq, hsame, not_true_eq_false, if_false]
      · refine ⟨_, expired, ?_, hconsistent, .collided hexpired hfind hsame⟩
        intro fuel hfuel
        rw [put, if_neg hempty, if_neg hlarge, hevict fuel hfuel]
        simp only [hfind, ne_eq, hsame, not_false_eq_true, if_true]
  | none =>
      obtain ⟨room, hroom, hroomConsistent, hroomy⟩ :=
        makeRoom_ends hvalid hitem _ expired hconsistent rfl
      have hloop : ∀ fuel, limits.maxEntries < fuel →
          makeRoom bytes.length fuel expired = some (true, room) := fun fuel hfuel =>
        hroom fuel (lt_of_le_of_lt hconsistent.count hfuel)
      have hnone : room.entries.find? (.sha256 bytes) = none := by
        by_contra hsome
        obtain ⟨entry, hentry⟩ := ne_none_iff_exists'.mp hsome
        rw [hroomy.kept _ _ hentry] at hfind
        cases hfind
      have horder : room.nextOrder = store.nextOrder := hroomy.order.trans hexpired.order
      by_cases hlast : store.nextOrder + 1 = 2 ^ 64
      · refine ⟨.error .arithmeticOverflow, room, ?_, hroomConsistent,
          .exhausted hexpired hroomy hlast⟩
        intro fuel hfuel
        rw [put, if_neg hempty, if_neg hlarge, hevict fuel hfuel]
        simp only [hfind, hloop fuel hfuel]
        rw [MemoryResultStore.insertNew, if_pos (by omega)]
      · have hnext := h.next
        have hcount := hroomy.count
        have hbytes := hroomy.bytes
        rw [hroomConsistent.same] at hcount hbytes
        obtain ⟨next, hinsert, hdone, hentries, -⟩ := hroomConsistent.insertNew now hused hitem
          hnone hcount hbytes (by omega)
        rw [horder] at hentries
        refine ⟨_, next, ?_, hdone, .stored hexpired hfind hroomy hentries⟩
        intro fuel hfuel
        rw [put, if_neg hempty, if_neg hlarge, hevict fuel hfuel]
        simp only [hfind, hloop fuel hfuel, hinsert]

/-- No entry has expired. -/
def Fresh (now : ℕ) (store : MemoryResultStore) : Prop :=
  ∀ id entry, store.entries.find? id = some entry →
    now - entry.createdTick < store.limits.maxAgeTicks

theorem PutOutcome.fresh (hvalid : limits.Valid) {next : MemoryResultStore} {bytes : List UInt8}
    {now : ℕ} {result : PutResult} (h : Consistent limits used store)
    (hnext : Consistent limits used next) (hput : PutOutcome store bytes now (.ok result) next) :
    result.id = .sha256 bytes ∧ Fresh now next := by
  have hsame : next.limits = store.limits := hnext.same.trans h.same.symm
  cases hput with
  | present hexpired hfind _ =>
      refine ⟨rfl, ?_⟩
      intro id entry hentry
      rw [hsame]
      exact ((hexpired.kept id entry).mp hentry).2
  | stored hexpired hnone hroomy hentries =>
      refine ⟨rfl, ?_⟩
      intro id entry hentry
      rw [hentries, find?_insert] at hentry
      split at hentry
      · cases hentry
        rw [hnext.same]
        have hage := hvalid.2.2.2.1
        dsimp only
        omega
      · rw [hsame]
        exact ((hexpired.kept id entry).mp (hroomy.kept id entry hentry)).2

/-- A put fails with an overflow only when the insertion orders are used up. -/
theorem PutOutcome.overflow {next : MemoryResultStore} {bytes : List UInt8} {now : ℕ}
    (h : PutOutcome store bytes now (.error .arithmeticOverflow) next) :
    store.nextOrder + 1 = 2 ^ 64 := by
  cases h with
  | refused h =>
      rcases h with h | h
      · cases h
      · cases h
  | exhausted _ _ hlast => exact hlast

/-! ## Batches -/

theorem stage_ends (hvalid : limits.Valid) {fuel : ℕ} (hfuel : limits.maxEntries < fuel)
    (now : ℕ) {payloads : List (List UInt8)} (hused : ∀ payload ∈ payloads, payload ∈ used)
    (h : Consistent limits used store) :
    ∃ result, stage fuel now payloads store = some result ∧ ∀ ids trial,
      result = .ok (ids, trial) → Consistent limits used trial ∧
        ids = payloads.map ResultId.sha256 ∧ (payloads ≠ [] → Fresh now trial) := by
  induction payloads generalizing store with
  | nil =>
      refine ⟨.ok ([], store), rfl, ?_⟩
      intro ids trial heq
      cases heq
      exact ⟨h, rfl, fun hne => absurd rfl hne⟩
  | cons payload rest ih =>
      obtain ⟨result, next, hput, hnext, houtcome⟩ :=
        put_ends hvalid h (hused payload (by simp)) now
      cases result with
      | error error =>
          refine ⟨.error error, ?_, fun _ _ heq => nomatch heq⟩
          rw [stage, hput fuel hfuel]
      | ok result =>
          obtain ⟨hid, hfresh⟩ := houtcome.fresh hvalid h hnext
          obtain ⟨outcome, hstage, hrest⟩ :=
            ih (fun other hother => hused other (mem_cons_of_mem _ hother)) hnext
          cases outcome with
          | error error =>
              refine ⟨.error error, ?_, fun _ _ heq => nomatch heq⟩
              rw [stage, hput fuel hfuel]
              simp only [hstage]
          | ok pair =>
              obtain ⟨ids, trial⟩ := pair
              obtain ⟨htrial, hids, hfreshRest⟩ := hrest ids trial rfl
              refine ⟨.ok (result.id :: ids, trial), ?_, ?_⟩
              · rw [stage, hput fuel hfuel]
                simp only [hstage]
              · intro ids' trial' heq
                cases heq
                refine ⟨htrial, by rw [hid, hids, map_cons], ?_⟩
                intro _
                cases rest with
                | nil =>
                    cases hstage
                    exact hfresh
                | cons other rest => exact hfreshRest (by simp)

/-- What a batch answers and leaves behind. -/
theorem putBatch_ends (hvalid : limits.Valid) {fuel : ℕ} (hfuel : limits.maxEntries < fuel)
    (now : ℕ) {payloads : List (List UInt8)} (hused : ∀ payload ∈ payloads, payload ∈ used)
    (h : Consistent limits used store) :
    ∃ result next, store.putBatch fuel payloads now = some (result, next) ∧
      Consistent limits used next ∧ (∀ error, result = .error error → next = store) ∧
      ∀ ids, result = .ok ids → ids = payloads.map ResultId.sha256 ∧ Fresh now next ∧
        ∀ id ∈ ids, ∃ entry, next.entries.find? id = some entry := by
  obtain ⟨outcome, hstage, hdone⟩ := stage_ends hvalid hfuel now hused h
  unfold putBatch
  rw [hstage]
  cases outcome with
  | error error =>
      exact ⟨_, _, rfl, h, fun _ _ => rfl, fun _ heq => nomatch heq⟩
  | ok pair =>
      obtain ⟨ids, trial⟩ := pair
      obtain ⟨htrial, hids, hfresh⟩ := hdone ids trial rfl
      dsimp only
      split
      · exact ⟨_, _, rfl, h, fun _ _ => rfl, fun _ heq => nomatch heq⟩
      · rename_i hne
        split
        · exact ⟨_, _, rfl, h, fun _ _ => rfl, fun _ heq => nomatch heq⟩
        · rename_i hall
          refine ⟨_, _, rfl, htrial, fun _ heq => (nomatch heq), ?_⟩
          intro ids' heq
          cases heq
          refine ⟨hids, hfresh ?_, ?_⟩
          · intro hnil
            rw [hnil] at hids
            exact hne hids
          · intro id hid
            have hcontained : trial.entries.contains id = true := by
              by_contra hmissing
              apply hall
              rw [List.any_eq_true]
              exact ⟨id, hid, by rw [Bool.eq_false_iff.mpr hmissing]; rfl⟩
            exact mem_keys_iff.mp (OrdMap.contains_iff.mp hcontained)

/-! ## Getting -/

theorem get_ends (h : Consistent limits used store) (id : ResultId) (now : ℕ) :
    ∃ expired, (∀ fuel, limits.maxEntries < fuel → store.get fuel id now = some
        (match expired.entries.find? id with
          | some entry => .ok entry.bytes
          | none => .error .notFound, expired)) ∧
      Consistent limits used expired ∧ Expired now store expired := by
  obtain ⟨expired, counts, hevict, hconsistent, hexpired⟩ := evictExpired_ends h now
  refine ⟨expired, ?_, hconsistent, hexpired⟩
  intro fuel hfuel
  unfold get
  rw [hevict fuel hfuel]
  cases hfind : expired.entries.find? id with
  | some entry => simp only [hfind]
  | none => simp only [hfind]

theorem Consistent.remove (h : Consistent limits used store) (id : ResultId) :
    Consistent limits used (store.remove id).2 := by
  unfold MemoryResultStore.remove
  cases hfind : store.entries.find? id with
  | none =>
      have hremove : store.removeId id = (none, store) := by
        rw [MemoryResultStore.removeId, hfind]
      rw [hremove]
      exact h
  | some entry =>
      obtain ⟨next, hremove, hnext, -⟩ := h.removeId hfind
      rw [hremove]
      exact hnext

theorem Consistent.clear (h : Consistent limits used store) (hvalid : limits.Valid) :
    Consistent limits used store.clear.2 := by
  have hempty := @consistent_empty limits used hvalid
  exact ⟨h.same, hempty.ages, hempty.total, hempty.count, hempty.within, hempty.items,
    fun _ _ hfind => (nomatch hfind), h.next⟩

/-! ## Runs -/

/-- The stores that a run can reach from a new one with these limits, by any operations at any
ticks; `used` are the byte strings that are put. -/
inductive Reachable (limits : ResultStoreLimits) (used : Set (List UInt8)) :
    MemoryResultStore → Prop
  | created {start : MemoryResultStore} (h : withLimits limits = .ok start) :
      Reachable limits used start
  | put {before next : MemoryResultStore} {fuel now : ℕ} {bytes : List UInt8}
      {result : Except ResultStoreError PutResult} (h : Reachable limits used before)
      (hused : bytes ∈ used) (hfuel : limits.maxEntries < fuel)
      (hput : before.put fuel bytes now = some (result, next)) : Reachable limits used next
  | putBatch {before next : MemoryResultStore} {fuel now : ℕ} {payloads : List (List UInt8)}
      {result : Except ResultStoreError (List ResultId)} (h : Reachable limits used before)
      (hused : ∀ payload ∈ payloads, payload ∈ used) (hfuel : limits.maxEntries < fuel)
      (hput : before.putBatch fuel payloads now = some (result, next)) :
      Reachable limits used next
  | get {before next : MemoryResultStore} {fuel now : ℕ} {id : ResultId}
      {result : Except ResultStoreError (List UInt8)} (h : Reachable limits used before)
      (hfuel : limits.maxEntries < fuel)
      (hget : before.get fuel id now = some (result, next)) : Reachable limits used next
  | remove {before : MemoryResultStore} (id : ResultId) (h : Reachable limits used before) :
      Reachable limits used (before.remove id).2
  | clear {before : MemoryResultStore} (h : Reachable limits used before) :
      Reachable limits used before.clear.2

theorem withLimits_eq_ok {store : MemoryResultStore} (h : withLimits limits = .ok store) :
    limits.Valid ∧ store = ⟨limits, OrdMap.empty, OrdMap.empty, 0, 0⟩ := by
  unfold withLimits at h
  split at h
  · rename_i hvalid
    cases h
    exact ⟨hvalid, rfl⟩
  · cases h

theorem Reachable.consistent (h : Reachable limits used store) :
    limits.Valid ∧ Consistent limits used store := by
  induction h with
  | created h =>
      obtain ⟨hvalid, rfl⟩ := withLimits_eq_ok h
      exact ⟨hvalid, consistent_empty hvalid⟩
  | put h hused hfuel hput ih =>
      obtain ⟨hvalid, hstore⟩ := ih
      obtain ⟨result, next, hends, hnext, -⟩ := put_ends hvalid hstore hused _
      rw [hends _ hfuel] at hput
      cases hput
      exact ⟨hvalid, hnext⟩
  | putBatch h hused hfuel hput ih =>
      obtain ⟨hvalid, hstore⟩ := ih
      obtain ⟨result, next, hends, hnext, -⟩ := putBatch_ends hvalid hfuel _ hused hstore
      rw [hends] at hput
      cases hput
      exact ⟨hvalid, hnext⟩
  | get h hfuel hget ih =>
      obtain ⟨hvalid, hstore⟩ := ih
      obtain ⟨expired, hends, hexpired, -⟩ := get_ends hstore _ _
      rw [hends _ hfuel] at hget
      cases hget
      exact ⟨hvalid, hexpired⟩
  | remove id h ih => exact ⟨ih.1, ih.2.remove id⟩
  | clear h ih => exact ⟨ih.1, ih.2.clear ih.1⟩

/-- The invariant of the result store, in every store that a run reaches: the index, the total and
the limits agree with the entries; the eviction loops end and a put does not overflow while there
are insertion orders left; what `get` hands out has the digest asked for; a batch that fails
changes nothing and one that succeeds can be read back at its tick; and room is made by dropping
the oldest entry, as often as it takes. -/
theorem result_store_invariant {limits : ResultStoreLimits} {used : Set (List UInt8)}
    {store : MemoryResultStore} (hcollision : Set.InjOn ResultId.sha256 used)
    (h : Reachable limits used store) :
    (∀ key, key ∈ store.ageOrder.keys ↔ ∃ id entry, store.entries.find? id = some entry ∧
      key = ageKey entry.createdTick entry.order id) ∧
    store.totalBytes = store.entries.total (fun entry => entry.bytes.length) ∧
    store.entries.keys.length ≤ limits.maxEntries ∧ store.totalBytes ≤ limits.maxTotalBytes ∧
    (∀ id entry, store.entries.find? id = some entry →
      entry.bytes.length ≤ limits.maxItemBytes) ∧
    (∀ now, ∃ result, ∀ fuel, limits.maxEntries < fuel →
      store.evictExpired fuel now = some result) ∧
    (∀ bytes ∈ used, ∀ now, ∃ result next, (∀ fuel, limits.maxEntries < fuel →
        store.put fuel bytes now = some (result, next)) ∧
      (store.nextOrder < 2 ^ 64 - 1 → result ≠ .error .arithmeticOverflow) ∧
      PutOutcome store bytes now result next) ∧
    (∀ fuel id now bytes next, limits.maxEntries < fuel →
      store.get fuel id now = some (.ok bytes, next) → ResultId.sha256 bytes = id) ∧
    (∀ fuel payloads now error next, limits.maxEntries < fuel →
      (∀ payload ∈ payloads, payload ∈ used) →
      store.putBatch fuel payloads now = some (.error error, next) → next = store) ∧
    (∀ fuel payloads now ids next, limits.maxEntries < fuel →
      (∀ payload ∈ payloads, payload ∈ used) →
      store.putBatch fuel payloads now = some (.ok ids, next) →
      List.Forall₂ (fun payload id => ∃ after, next.get fuel id now = some (.ok payload, after))
        payloads ids) := by
  obtain ⟨hvalid, hstore⟩ := h.consistent
  refine ⟨hstore.ages, hstore.total, hstore.count, hstore.within, ?_, ?_, ?_, ?_, ?_, ?_⟩
  · intro id entry hentry
    exact (hstore.items id entry hentry).1
  · intro now
    obtain ⟨next, counts, hevict, -⟩ := evictExpired_ends hstore now
    exact ⟨_, hevict⟩
  · intro bytes hused now
    obtain ⟨result, next, hends, -, houtcome⟩ := put_ends hvalid hstore hused now
    refine ⟨result, next, hends, ?_, houtcome⟩
    intro horder hresult
    rw [hresult] at houtcome
    have hlast := houtcome.overflow
    omega
  · intro fuel id now bytes next hfuel hget
    obtain ⟨expired, hends, hexpired, -⟩ := get_ends hstore id now
    rw [hends fuel hfuel] at hget
    cases hfind : expired.entries.find? id with
    | none =>
        rw [hfind] at hget
        cases hget
    | some entry =>
        rw [hfind] at hget
        cases hget
        exact (hexpired.items id entry hfind).2.1
  · intro fuel payloads now error next hfuel hused hput
    obtain ⟨result, after, hends, -, herror, -⟩ := putBatch_ends hvalid hfuel now hused hstore
    rw [hends] at hput
    cases hput
    exact herror error rfl
  · intro fuel payloads now ids next hfuel hused hput
    obtain ⟨result, after, hends, hafter, -, hok⟩ := putBatch_ends hvalid hfuel now hused hstore
    rw [hends] at hput
    cases hput
    obtain ⟨rfl, hfresh, hpresent⟩ := hok ids rfl
    rw [forall₂_map_right_iff, forall₂_same]
    intro payload hpayload
    obtain ⟨entry, hentry⟩ := hpresent _ (List.mem_map_of_mem hpayload)
    obtain ⟨expired, hget, hexpired, hkept⟩ := get_ends hafter (.sha256 payload) now
    have hstays := (hkept.kept _ _).mpr ⟨hentry, hfresh _ _ hentry⟩
    obtain ⟨-, hdigest, hbytes⟩ := hafter.items _ _ hentry
    refine ⟨expired, ?_⟩
    rw [hget fuel hfuel, hstays]
    dsimp only
    rw [hcollision hbytes (hused payload hpayload) hdigest]

/-! ## A run -/

def smallLimits : ResultStoreLimits := ⟨2, 8, 4, 3, by decide⟩

/-- One byte put into a new store of these limits. -/
theorem result_store_invariant_small : ∃ result next,
    put 3 ⟨smallLimits, OrdMap.empty, OrdMap.empty, 0, 0⟩ [1] 5 = some (result, next) ∧
      result ≠ .error .arithmeticOverflow ∧ next.entries.keys.length ≤ 2 := by
  have hcollision := Set.injOn_singleton ResultId.sha256 [1]
  have hstart : Reachable smallLimits {[1]} ⟨smallLimits, OrdMap.empty, OrdMap.empty, 0, 0⟩ :=
    .created rfl
  obtain ⟨-, -, -, -, -, -, hput, -⟩ := result_store_invariant hcollision hstart
  obtain ⟨result, next, hends, hoverflow, -⟩ := hput [1] rfl 5
  have hrun := hends 3 (by decide)
  obtain ⟨-, -, hcount, -⟩ :=
    result_store_invariant hcollision (hstart.put rfl (by decide) hrun)
  exact ⟨result, next, hrun, hoverflow (by decide), hcount⟩

end Bran.Agent.MemoryResultStore
