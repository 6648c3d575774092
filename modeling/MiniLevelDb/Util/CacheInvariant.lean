import MiniLevelDb.Util.CacheLists
import MiniLevelDb.Util.HandleTableMap

/-!
# The invariant of a cache

Between two operations every entry is in order: it is counted for the handles of the
client and for the cache, it is in the list its count says, and its deleter has been
called exactly when nothing counts it any more. The charges of the cached entries add up
to the usage, as far as a `size_t` holds it. Inside an operation an entry can have
left the table, or not reached it yet, while the lists and the counts still say that it
is cached; such an entry is pending.
-/

namespace MiniLevelDb

open Foundation HandleTable

namespace LRUCache

variable {Value Deleter : Type} {cache : LRUCache Value Deleter}
  {cells cells' : CacheList → List HandleId} {ids : List HandleId}
  {pending pending' : Option HandleId} {client client' : CacheClient Value Deleter}
  {id : HandleId} {handle : LRUHandle Value Deleter}

/-- The entry is counted as cached. -/
def Cached (ids : List HandleId) (pending : Option HandleId) (id : HandleId) : Prop :=
  id ∈ ids ∨ pending = some id

/-- The deleter calls made for an entry. -/
def callsFor (log : List (DeleterCall Value Deleter)) (id : HandleId) :
    List (DeleterCall Value Deleter) :=
  log.filter fun call => call.handle = id

/-- What holds of a handle in memory. -/
structure LiveEntry (cells : CacheList → List HandleId) (cached : Prop) (held : Nat)
    (inserted : Option (Inserted Value Deleter)) (calls : List (DeleterCall Value Deleter))
    (id : HandleId) (handle : LRUHandle Value Deleter) : Prop where
  refs : handle.refs.toNat = held + if handle.inCache then 1 else 0
  positive : 0 < handle.refs.toNat
  cached : handle.inCache = true ↔ cached
  listed : ∀ list, id ∈ cells list ↔ handle.inCache = true ∧ (list = .lru ↔ handle.refs.toNat = 1)
  inserted : inserted = some handle.inserted
  calls : calls = []

/-- What holds of an address without a handle. -/
structure DeadEntry (cells : CacheList → List HandleId) (cached : Prop) (held : Nat)
    (inserted : Option (Inserted Value Deleter)) (calls : List (DeleterCall Value Deleter))
    (id : HandleId) : Prop where
  held : held = 0
  cached : ¬ cached
  listed : ∀ list, id ∉ cells list
  calls : calls = (inserted.map fun entry => entry.call id).toList

def EntryOk (cells : CacheList → List HandleId) (cached : Prop) (held : Nat)
    (inserted : Option (Inserted Value Deleter)) (calls : List (DeleterCall Value Deleter))
    (id : HandleId) : Option (LRUHandle Value Deleter) → Prop
  | none => DeadEntry cells cached held inserted calls id
  | some handle => LiveEntry cells cached held inserted calls id handle

/-- The invariant, with `cells` the lists, `ids` the table, and at most one entry in
between. -/
structure Inv (cache : LRUCache Value Deleter) (cells : CacheList → List HandleId)
    (ids : List HandleId) (pending : Option HandleId) (client : CacheClient Value Deleter) :
    Prop where
  rings : cache.heap.Rings cells
  tabled : Tabled cache.heap cache.table ids
  bounded : ∀ id, cache.heap.fresh ≤ id → cache.heap.handles id = none
  named : ∀ id handle, cache.heap.handles id = some handle → cache.heap.Named id
  entries : ∀ id, EntryOk cells (Cached ids pending id) (client.held id) (client.inserted id)
    (callsFor cache.deleted id) id (cache.heap.handles id)
  usage : cache.usage = BitVec.ofNat 64 ((pending.toList ++ ids).map client.chargeOf).sum
  pendingApart : ∀ id, pending = some id → id ∉ ids
  fresh : ∀ id, client.inserted id = none ↔ cache.heap.fresh ≤ id

namespace Inv

theorem live (inv : Inv cache cells ids pending client)
    (stored : cache.heap.handles id = some handle) :
    LiveEntry cells (Cached ids pending id) (client.held id) (client.inserted id)
      (callsFor cache.deleted id) id handle := by
  have entry := inv.entries id
  rwa [stored] at entry

theorem dead (inv : Inv cache cells ids pending client)
    (freed : cache.heap.handles id = none) :
    DeadEntry cells (Cached ids pending id) (client.held id) (client.inserted id)
      (callsFor cache.deleted id) id := by
  have entry := inv.entries id
  rwa [freed] at entry

/-- An entry that counts for something is in memory. -/
theorem stored_of_held (inv : Inv cache cells ids pending client) (held : 0 < client.held id) :
    ∃ handle, cache.heap.handles id = some handle := by
  cases stored : cache.heap.handles id with
  | none =>
      have := (inv.dead stored).held
      omega
  | some handle => exact ⟨handle, rfl⟩

theorem stored_of_cached (inv : Inv cache cells ids pending client)
    (cached : Cached ids pending id) : ∃ handle, cache.heap.handles id = some handle := by
  cases stored : cache.heap.handles id with
  | none => exact absurd cached (inv.dead stored).cached
  | some handle => exact ⟨handle, rfl⟩

theorem lt_fresh (inv : Inv cache cells ids pending client)
    (stored : cache.heap.handles id = some handle) : id < cache.heap.fresh := by
  by_contra beyond
  rw [inv.bounded id (Nat.le_of_not_lt beyond)] at stored
  cases stored

theorem readable (inv : Inv cache cells ids pending client) : Readable cache.heap ids where
  bounded := inv.bounded
  keyed := by
    intro id member
    obtain ⟨handle, stored⟩ := inv.stored_of_cached (.inl member)
    exact ⟨handle, stored, (inv.named id handle stored).keyOf stored⟩

/-- The list a cached entry is in. -/
theorem listed_in (inv : Inv cache cells ids pending client)
    (stored : cache.heap.handles id = some handle) (inCache : handle.inCache = true) :
    id ∈ cells (if handle.refs.toNat = 1 then .lru else .inUse) := by
  rw [(inv.live stored).listed]
  refine ⟨inCache, ?_⟩
  by_cases one : handle.refs.toNat = 1 <;> simp [one]

theorem unlisted (inv : Inv cache cells ids pending client)
    (stored : cache.heap.handles id = some handle) (outside : handle.inCache = false)
    (list : CacheList) : id ∉ cells list := by
  rw [(inv.live stored).listed, outside]
  simp

theorem inserted (inv : Inv cache cells ids pending client)
    (stored : cache.heap.handles id = some handle) :
    client.inserted id = some handle.inserted :=
  (inv.live stored).inserted

/-- A change of one entry, with the table as it is. -/
theorem rebuild (inv : Inv cache cells ids pending client) {after : LRUCache Value Deleter}
    (target : Option (LRUHandle Value Deleter))
    (handles : after.heap.handles = Function.update cache.heap.handles id target)
    (fresh : ∀ other, other ≠ id → (after.heap.fresh ≤ other ↔ cache.heap.fresh ≤ other))
    (within : id < after.heap.fresh) (isInserted : client'.inserted id ≠ none)
    (nextHash : ∀ other ∈ ids, after.heap.nextHash other = cache.heap.nextHash other)
    (table : after.table = cache.table)
    (known : id ∈ ids → client'.inserted id = client.inserted id)
    (rings : after.heap.Rings cells')
    (named : ∀ other, cache.heap.Named other → after.heap.Named other)
    (named_target : target.isSome → after.heap.Named id)
    (others : ∀ other, other ≠ id → (∀ list, other ∈ cells' list ↔ other ∈ cells list) ∧
      (Cached ids pending' other ↔ Cached ids pending other) ∧
      client'.held other = client.held other ∧ client'.inserted other = client.inserted other ∧
      callsFor after.deleted other = callsFor cache.deleted other)
    (entry : EntryOk cells' (Cached ids pending' id) (client'.held id) (client'.inserted id)
      (callsFor after.deleted id) id target)
    (usage : after.usage = BitVec.ofNat 64 ((pending'.toList ++ ids).map client'.chargeOf).sum)
    (pendingApart : ∀ id, pending' = some id → id ∉ ids) :
    Inv after cells' ids pending' client' where
  rings := rings
  tabled := by
    rw [table]
    refine inv.tabled.congr nextHash fun other member => ?_
    obtain ⟨old, was⟩ := inv.stored_of_cached (.inl member)
    by_cases same : other = id
    · subst same
      cases target with
      | none => exact absurd (.inl member) entry.cached
      | some new =>
          have agree : new.inserted = old.inserted :=
            Option.some.inj (entry.inserted.symm.trans ((known member).trans (inv.inserted was)))
          exact ⟨old, new, was, by rw [handles, Function.update_self],
            congrArg Inserted.key agree, congrArg Inserted.hash agree⟩
    · exact ⟨old, old, was, by rw [handles, Function.update_of_ne same, was], rfl, rfl⟩
  bounded := by
    intro other beyond
    have apart : other ≠ id := Nat.ne_of_gt (Nat.lt_of_lt_of_le within beyond)
    rw [handles, Function.update_of_ne apart]
    exact inv.bounded other ((fresh other apart).mp beyond)
  named := by
    intro other stored now
    rw [handles] at now
    by_cases same : other = id
    · subst same
      rw [Function.update_self] at now
      exact named_target (by rw [now]; rfl)
    · rw [Function.update_of_ne same] at now
      exact named other (inv.named other stored now)
  entries := by
    intro other
    rw [handles]
    by_cases same : other = id
    · subst same
      rwa [Function.update_self]
    · obtain ⟨lists, cached, held, inserted, calls⟩ := others other same
      rw [Function.update_of_ne same, held, inserted, calls]
      have entry := inv.entries other
      cases stored : cache.heap.handles other with
      | none =>
          rw [stored] at entry
          exact ⟨entry.held, fun now => entry.cached (cached.mp now),
            fun list now => entry.listed list ((lists list).mp now), entry.calls⟩
      | some handle =>
          rw [stored] at entry
          exact ⟨entry.refs, entry.positive, entry.cached.trans cached.symm,
            fun list => (lists list).trans (entry.listed list), entry.inserted, entry.calls⟩
  usage := usage
  pendingApart := pendingApart
  fresh := by
    intro other
    by_cases same : other = id
    · subst same
      exact ⟨fun missing => absurd missing isInserted,
        fun beyond => absurd within (Nat.not_lt_of_le beyond)⟩
    · rw [(others other same).2.2.2.1, inv.fresh, fresh other same]

end Inv

end LRUCache

end MiniLevelDb
