import Bran.Agent.ResultId
import Bran.Library.OrdMap
import Mathlib.Data.Prod.Lex

/-!
# The result store

`MemoryResultStore` of `agent/result_store.rs`: content-addressed results with an index by age,
evicted when they expire and, oldest first, when room is needed.  The two eviction loops run with
a bound on their rounds, and `none` stands for a loop that has not ended within it.
-/

namespace Bran.Agent

theorem ResultId.value_injective : Function.Injective ResultId.value := by
  intro first second h
  cases first
  cases second
  exact (ResultId.mk.injEq _ _ _ _).mpr h

instance : LinearOrder ResultId := LinearOrder.lift' ResultId.value ResultId.value_injective

/-! ## Limits and failures -/

/-- `ResultStoreLimits`, in 64-bit words. -/
structure ResultStoreLimits where
  maxEntries : ℕ
  maxTotalBytes : ℕ
  maxItemBytes : ℕ
  maxAgeTicks : ℕ
  words : maxEntries < 2 ^ 64 ∧ maxTotalBytes < 2 ^ 64 ∧ maxItemBytes < 2 ^ 64 ∧
    maxAgeTicks < 2 ^ 64
  deriving DecidableEq

/-- The limits that `ResultStoreLimits::new` and `with_limits` accept. -/
def ResultStoreLimits.Valid (limits : ResultStoreLimits) : Prop :=
  limits.maxEntries ≠ 0 ∧ limits.maxTotalBytes ≠ 0 ∧ limits.maxItemBytes ≠ 0 ∧
    limits.maxAgeTicks ≠ 0 ∧ limits.maxItemBytes ≤ limits.maxTotalBytes

instance (limits : ResultStoreLimits) : Decidable limits.Valid :=
  inferInstanceAs (Decidable (_ ∧ _))

inductive ResultStoreError
  | invalidLimits
  | invalidId
  | unavailable
  | corrupt
  | emptyInput
  | itemTooLarge
  | notFound
  | contentIdCollision
  | arithmeticOverflow
  | batchCapacityExceeded
  deriving DecidableEq

structure ResultStoreReceipt where
  entryCount : ℕ
  totalBytes : ℕ
  deriving DecidableEq

structure PutResult where
  id : ResultId
  receipt : ResultStoreReceipt
  deriving DecidableEq

/-! ## The store -/

structure Entry where
  bytes : List UInt8
  createdTick : ℕ
  order : ℕ
  deriving DecidableEq

/-- A key of the age index: tick, insertion order, identifier. -/
abbrev AgeKey := ℕ ×ₗ ℕ ×ₗ ResultId

def ageKey (tick order : ℕ) (id : ResultId) : AgeKey := toLex (tick, toLex (order, id))

def AgeKey.tick (key : AgeKey) : ℕ := (ofLex key).1

def AgeKey.id (key : AgeKey) : ResultId := (ofLex (ofLex key).2).2

structure MemoryResultStore where
  limits : ResultStoreLimits
  entries : OrdMap ResultId Entry
  ageOrder : OrdSet AgeKey
  totalBytes : ℕ
  nextOrder : ℕ

namespace MemoryResultStore

def withLimits (limits : ResultStoreLimits) : Except ResultStoreError MemoryResultStore :=
  if limits.Valid then .ok ⟨limits, OrdMap.empty, OrdMap.empty, 0, 0⟩ else .error .invalidLimits

def receipt (store : MemoryResultStore) : ResultStoreReceipt :=
  ⟨store.entries.keys.length, store.totalBytes⟩

/-- `remove_id`; a subtraction that fails leaves the total as it was. -/
def removeId (store : MemoryResultStore) (id : ResultId) : Option ℕ × MemoryResultStore :=
  match store.entries.find? id with
  | none => (none, store)
  | some entry =>
      let removed := { store with
        entries := store.entries.erase id
        ageOrder := store.ageOrder.erase (ageKey entry.createdTick entry.order id) }
      if store.totalBytes < entry.bytes.length then (none, removed)
      else (some entry.bytes.length,
        { removed with totalBytes := store.totalBytes - entry.bytes.length })

def removeOldest (store : MemoryResultStore) : Option (ResultId × ℕ) × MemoryResultStore :=
  match store.ageOrder.keys.head? with
  | none => (none, store)
  | some key =>
      match store.removeId key.id with
      | (none, removed) => (none, removed)
      | (some bytes, removed) => (some (key.id, bytes), removed)

/-- The loop of `evict_expired`, with the counts of what it has removed. -/
def evictFrom (now : ℕ) : ℕ → MemoryResultStore → ℕ → ℕ → Option (MemoryResultStore × ℕ × ℕ)
  | 0, _, _, _ => none
  | fuel + 1, store, entries, bytes =>
      match store.ageOrder.keys.head? with
      | none => some (store, entries, bytes)
      | some key =>
          if now - key.tick < store.limits.maxAgeTicks then some (store, entries, bytes)
          else
            match store.removeId key.id with
            | (some removed, store) => evictFrom now fuel store (entries + 1) (bytes + removed)
            | (none, store) => evictFrom now fuel store entries bytes

def evictExpired (fuel : ℕ) (store : MemoryResultStore) (now : ℕ) :
    Option (MemoryResultStore × ℕ × ℕ) :=
  evictFrom now fuel store 0 0

/-- The loop of `put` that makes room for a payload; it fails when there is nothing to remove. -/
def makeRoom (length : ℕ) : ℕ → MemoryResultStore → Option (Bool × MemoryResultStore)
  | 0, _ => none
  | fuel + 1, store =>
      if store.limits.maxEntries ≤ store.entries.keys.length ∨
          store.limits.maxTotalBytes - store.totalBytes < length then
        match store.removeOldest with
        | (none, store) => some (false, store)
        | (some _, store) => makeRoom length fuel store
      else some (true, store)

/-- The last part of `put`: 64-bit counters, and the new entry. -/
def insertNew (store : MemoryResultStore) (id : ResultId) (bytes : List UInt8) (now : ℕ) :
    Except ResultStoreError PutResult × MemoryResultStore :=
  if 2 ^ 64 ≤ store.nextOrder + 1 then (.error .arithmeticOverflow, store)
  else
    let ordered := { store with nextOrder := store.nextOrder + 1 }
    if 2 ^ 64 ≤ store.totalBytes + bytes.length then (.error .arithmeticOverflow, ordered)
    else
      let next := { ordered with
        totalBytes := store.totalBytes + bytes.length
        ageOrder := store.ageOrder.insert (ageKey now store.nextOrder id) ()
        entries := store.entries.insert id ⟨bytes, now, store.nextOrder⟩ }
      (.ok ⟨id, next.receipt⟩, next)

def put (fuel : ℕ) (store : MemoryResultStore) (bytes : List UInt8) (now : ℕ) :
    Option (Except ResultStoreError PutResult × MemoryResultStore) :=
  if bytes = [] then some (.error .emptyInput, store)
  else if store.limits.maxItemBytes < bytes.length then some (.error .itemTooLarge, store)
  else
    match store.evictExpired fuel now with
    | none => none
    | some (store, _) =>
        match store.entries.find? (.sha256 bytes) with
        | some existing =>
            if existing.bytes ≠ bytes then some (.error .contentIdCollision, store)
            else some (.ok ⟨.sha256 bytes, store.receipt⟩, store)
        | none =>
            match makeRoom bytes.length fuel store with
            | none => none
            | some (false, store) => some (.error .arithmeticOverflow, store)
            | some (true, store) => some (store.insertNew (.sha256 bytes) bytes now)

/-- The loop of `put_batch` over the clone. -/
def stage (fuel now : ℕ) : List (List UInt8) → MemoryResultStore →
    Option (Except ResultStoreError (List ResultId × MemoryResultStore))
  | [], trial => some (.ok ([], trial))
  | payload :: rest, trial =>
      match trial.put fuel payload now with
      | none => none
      | some (.error error, _) => some (.error error)
      | some (.ok result, trial) =>
          match stage fuel now rest trial with
          | none => none
          | some (.error error) => some (.error error)
          | some (.ok (ids, trial)) => some (.ok (result.id :: ids, trial))

def putBatch (fuel : ℕ) (store : MemoryResultStore) (payloads : List (List UInt8)) (now : ℕ) :
    Option (Except ResultStoreError (List ResultId) × MemoryResultStore) :=
  match stage fuel now payloads store with
  | none => none
  | some (.error error) => some (.error error, store)
  | some (.ok (ids, trial)) =>
      if ids = [] then some (.error .emptyInput, store)
      else if ids.any fun id => !trial.entries.contains id then
        some (.error .batchCapacityExceeded, store)
      else some (.ok ids, trial)

def get (fuel : ℕ) (store : MemoryResultStore) (id : ResultId) (now : ℕ) :
    Option (Except ResultStoreError (List UInt8) × MemoryResultStore) :=
  match store.evictExpired fuel now with
  | none => none
  | some (store, _) =>
      match store.entries.find? id with
      | some entry => some (.ok entry.bytes, store)
      | none => some (.error .notFound, store)

def remove (store : MemoryResultStore) (id : ResultId) :
    Except ResultStoreError ResultStoreReceipt × MemoryResultStore :=
  match store.removeId id with
  | (none, store) => (.error .notFound, store)
  | (some _, store) => (.ok store.receipt, store)

def clear (store : MemoryResultStore) : ResultStoreReceipt × MemoryResultStore :=
  let cleared := { store with
    entries := OrdMap.empty, ageOrder := OrdMap.empty, totalBytes := 0 }
  (cleared.receipt, cleared)

end MemoryResultStore

end Bran.Agent
