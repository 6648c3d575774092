import MiniLevelDb.Util.HandleTable

/-!
# The cache

An `LRUCache`: two circular lists of handles, a handle table, and a count of what the
cached entries are charged. The client owns the handles that `Insert` and `Lookup`
return until it releases them. The mutex is held throughout every operation, so an
operation is one step. The references to an entry are counted in a `uint32_t` and the
charges in a `size_t` of 64 bits, and both wrap around. A failed assertion or a bad read
leaves an operation without a result.
-/

namespace MiniLevelDb

variable {Value Deleter : Type}

namespace Heap

/-- The node may be read and written: a list head, or a handle that is not freed. -/
def isLive (heap : Heap Value Deleter) : ListNode → Bool
  | .head _ => true
  | .entry id => (heap.handles id).isSome

/-- `node->next`. -/
def readNext (heap : Heap Value Deleter) (node : ListNode) : Option (Option ListNode) :=
  if heap.isLive node then heap.next node else none

/-- `node->prev`. -/
def readPrev (heap : Heap Value Deleter) (node : ListNode) : Option (Option ListNode) :=
  if heap.isLive node then heap.prev node else none

/-- `node->next = target`. -/
def writeNext (heap : Heap Value Deleter) (node : ListNode) (target : Option ListNode) :
    Option (Heap Value Deleter) :=
  if heap.isLive node then some { heap with next := Function.update heap.next node (some target) }
  else none

/-- `node->prev = target`. -/
def writePrev (heap : Heap Value Deleter) (node : ListNode) (target : Option ListNode) :
    Option (Heap Value Deleter) :=
  if heap.isLive node then some { heap with prev := Function.update heap.prev node (some target) }
  else none

/-- The fields of a handle other than its pointers. -/
def setHandle (heap : Heap Value Deleter) (id : HandleId) (handle : LRUHandle Value Deleter) :
    Heap Value Deleter :=
  { heap with handles := Function.update heap.handles id (some handle) }

/-- `free`. -/
def free (heap : Heap Value Deleter) (id : HandleId) : Heap Value Deleter :=
  { heap with handles := Function.update heap.handles id none }

/-- `malloc`, and the fields `Insert` sets at once; the pointers are not set. -/
def malloc (heap : Heap Value Deleter) (handle : LRUHandle Value Deleter) :
    HandleId × Heap Value Deleter :=
  (heap.fresh,
    { handles := Function.update heap.handles heap.fresh (some handle)
      fresh := heap.fresh + 1
      next := Function.update heap.next (.entry heap.fresh) none
      prev := Function.update heap.prev (.entry heap.fresh) none
      nextHash := Function.update heap.nextHash heap.fresh none })

/-- `LRU_Remove`. -/
def lruRemove (heap : Heap Value Deleter) (id : HandleId) : Option (Heap Value Deleter) := do
  let next ← (← heap.readNext (.entry id))
  let heap ← heap.writePrev next (← heap.readPrev (.entry id))
  let prev ← (← heap.readPrev (.entry id))
  heap.writeNext prev (← heap.readNext (.entry id))

/-- `LRU_Append`. -/
def lruAppend (list : CacheList) (id : HandleId) (heap : Heap Value Deleter) :
    Option (Heap Value Deleter) := do
  let heap ← heap.writeNext (.entry id) (some (.head list))
  let heap ← heap.writePrev (.entry id) (← heap.readPrev (.head list))
  let prev ← (← heap.readPrev (.entry id))
  let heap ← heap.writeNext prev (some (.entry id))
  let next ← (← heap.readNext (.entry id))
  heap.writePrev next (some (.entry id))

/-- `Ref`. -/
def ref (heap : Heap Value Deleter) (id : HandleId) : Option (Heap Value Deleter) := do
  let handle ← heap.handles id
  if handle.refs = 1 ∧ handle.inCache then
    let heap ← (← heap.lruRemove id).lruAppend .inUse id
    some (heap.setHandle id { handle with refs := handle.refs + 1 })
  else
    some (heap.setHandle id { handle with refs := handle.refs + 1 })

end Heap

/-- A call of a deleter, with the handle it is made for. -/
structure DeleterCall (Value Deleter : Type) where
  handle : HandleId
  deleter : Deleter
  key : Slice
  value : Value
deriving DecidableEq, Repr

/-- An `LRUCache`, with the calls of deleters it has made. -/
structure LRUCache (Value Deleter : Type) where
  capacity : BitVec 64
  usage : BitVec 64
  heap : Heap Value Deleter
  table : HandleTable
  deleted : List (DeleterCall Value Deleter)

namespace LRUCache

/-- The constructor and `SetCapacity`. -/
def new (capacity : BitVec 64) : Option (LRUCache Value Deleter) := do
  let empty : ListNode → Option (Option ListNode)
    | .head list => some (some (.head list))
    | .entry _ => none
  let (heap, table) ← HandleTable.new ⟨fun _ => none, 0, empty, empty, fun _ => none⟩
  some ⟨capacity, 0, heap, table, []⟩

/-- `Unref`. -/
def unref (cache : LRUCache Value Deleter) (id : HandleId) :
    Option (LRUCache Value Deleter) := do
  let handle ← cache.heap.handles id
  if handle.refs = 0 then none
  else
    let heap := cache.heap.setHandle id { handle with refs := handle.refs - 1 }
    if handle.refs - 1 = 0 then
      if handle.inCache then none
      else
        let key ← heap.keyOf id
        some { cache with
          heap := heap.free id
          deleted := cache.deleted ++ [⟨id, handle.deleter, key, handle.value⟩] }
    else if handle.inCache ∧ handle.refs - 1 = 1 then
      some { cache with heap := ← (← heap.lruRemove id).lruAppend .lru id }
    else some { cache with heap := heap }

/-- `FinishErase`, for a handle already taken out of the table. -/
def finishErase (cache : LRUCache Value Deleter) :
    Option HandleId → Option (Bool × LRUCache Value Deleter)
  | none => some (false, cache)
  | some id => do
      let handle ← cache.heap.handles id
      if handle.inCache then
        let heap ← cache.heap.lruRemove id
        let cache ← unref
          { cache with
            heap := heap.setHandle id { handle with inCache := false }
            usage := cache.usage - handle.charge } id
        some (true, cache)
      else none

/-- `Lookup`. -/
def lookup (cache : LRUCache Value Deleter) (key : Slice) (hash : BitVec 32) :
    Option (Option HandleId × LRUCache Value Deleter) := do
  match ← HandleTable.lookup cache.heap cache.table key hash with
  | none => some (none, cache)
  | some id => some (some id, { cache with heap := ← cache.heap.ref id })

/-- `Release`. -/
def release (cache : LRUCache Value Deleter) (id : HandleId) : Option (LRUCache Value Deleter) :=
  cache.unref id

/-- `Erase`. -/
def erase (cache : LRUCache Value Deleter) (key : Slice) (hash : BitVec 32) :
    Option (LRUCache Value Deleter) := do
  let (removed, heap, table) ← HandleTable.remove cache.heap cache.table key hash
  let (_, cache) ← finishErase { cache with heap := heap, table := table } removed
  some cache

/-- The body of the loops that drop the oldest entry of `lru_`. -/
def dropOldest (cache : LRUCache Value Deleter) (oldest : Option ListNode) :
    Option (LRUCache Value Deleter) := do
  match oldest with
  | some (.entry old) =>
      let handle ← cache.heap.handles old
      if handle.refs = 1 then
        let (removed, heap, table) ←
          HandleTable.remove cache.heap cache.table (← cache.heap.keyOf old) handle.hash
        let (erased, cache) ← finishErase { cache with heap := heap, table := table } removed
        if erased then some cache else none
      else none
  | _ => none

/-- Drop the oldest entry of `lru_` as long as there is one and the cache is to shrink. -/
def dropLoop (shrink : LRUCache Value Deleter → Bool) :
    Nat → LRUCache Value Deleter → Option (LRUCache Value Deleter)
  | 0, _ => none
  | rounds + 1, cache => do
      let oldest ← cache.heap.readNext (.head .lru)
      if shrink cache ∧ oldest ≠ some (.head .lru) then
        dropLoop shrink rounds (← cache.dropOldest oldest)
      else some cache

/-- The last loop of `Insert`. -/
def evict (cache : LRUCache Value Deleter) : Option (LRUCache Value Deleter) :=
  dropLoop (fun cache => cache.usage > cache.capacity) (cache.heap.fresh + 1) cache

/-- `Prune`. -/
def prune (cache : LRUCache Value Deleter) : Option (LRUCache Value Deleter) :=
  dropLoop (fun _ => true) (cache.heap.fresh + 1) cache

/-- What `Insert` does with its new handle: cache it, or only set it up for `key()`. -/
def insertNew (cache : LRUCache Value Deleter) (id : HandleId)
    (handle : LRUHandle Value Deleter) : Option (LRUCache Value Deleter) := do
  if cache.capacity > 0 then
    let heap := cache.heap.setHandle id { handle with refs := handle.refs + 1, inCache := true }
    let heap ← heap.lruAppend .inUse id
    let (old, heap, table) ← HandleTable.insert heap cache.table id
    let (_, cache) ← finishErase
      { cache with heap := heap, table := table, usage := cache.usage + handle.charge } old
    some cache
  else
    some { cache with heap := ← cache.heap.writeNext (.entry id) none }

/-- `Insert`. -/
def insert (cache : LRUCache Value Deleter) (key : Slice) (hash : BitVec 32) (value : Value)
    (charge : BitVec 64) (deleter : Deleter) : Option (HandleId × LRUCache Value Deleter) := do
  let handle : LRUHandle Value Deleter :=
    { value, deleter, charge, key, inCache := false, refs := 1, hash }
  let (id, heap) := cache.heap.malloc handle
  let cache ← insertNew { cache with heap := heap } id handle
  some (id, ← evict cache)

/-- The loop of the destructor. -/
def destroyLoop : Nat → ListNode → LRUCache Value Deleter → Option (LRUCache Value Deleter)
  | _, .head .lru, cache => some cache
  | rounds + 1, .entry id, cache => do
      let next ← (← cache.heap.readNext (.entry id))
      let handle ← cache.heap.handles id
      if handle.inCache ∧ handle.refs = 1 then
        let heap := cache.heap.setHandle id { handle with inCache := false }
        destroyLoop rounds next (← unref { cache with heap := heap } id)
      else none
  | _, _, _ => none

/-- The destructor. -/
def destroy (cache : LRUCache Value Deleter) : Option (LRUCache Value Deleter) := do
  if (← cache.heap.readNext (.head .inUse)) = some (.head .inUse) then
    let first ← (← cache.heap.readNext (.head .lru))
    destroyLoop (cache.heap.fresh + 1) first cache
  else none

end LRUCache

/-- An operation of the client on a cache. -/
inductive CacheOp (Value Deleter : Type) where
  | insert (key : Slice) (hash : BitVec 32) (value : Value) (charge : BitVec 64)
    (deleter : Deleter)
  | lookup (key : Slice) (hash : BitVec 32)
  | release (id : HandleId)
  | erase (key : Slice) (hash : BitVec 32)
  | prune

/-- What the operation adds to the charges. -/
def CacheOp.charge : CacheOp Value Deleter → Nat
  | .insert _ _ _ charge _ => charge.toNat
  | _ => 0

/-- One operation: the handle it returns and the cache after it. -/
def LRUCache.step (cache : LRUCache Value Deleter) :
    CacheOp Value Deleter → Option (Option HandleId × LRUCache Value Deleter)
  | .insert key hash value charge deleter =>
      (cache.insert key hash value charge deleter).map fun result => (some result.1, result.2)
  | .lookup key hash => cache.lookup key hash
  | .release id => (cache.release id).map fun after => (none, after)
  | .erase key hash => (cache.erase key hash).map fun after => (none, after)
  | .prune => cache.prune.map fun after => (none, after)

/-- What an entry was inserted with. -/
structure Inserted (Value Deleter : Type) where
  key : Slice
  hash : BitVec 32
  value : Value
  charge : BitVec 64
  deleter : Deleter
deriving DecidableEq, Repr

/-- What a handle in memory was inserted with. -/
def LRUHandle.inserted (handle : LRUHandle Value Deleter) : Inserted Value Deleter :=
  ⟨handle.key, handle.hash, handle.value, handle.charge, handle.deleter⟩

/-- The call an entry's deleter is due. -/
def Inserted.call (entry : Inserted Value Deleter) (id : HandleId) : DeleterCall Value Deleter :=
  ⟨id, entry.deleter, entry.key, entry.value⟩

/-- What the client keeps account of: how many handles it has to each entry, and what it
inserted. -/
structure CacheClient (Value Deleter : Type) where
  held : HandleId → Nat
  inserted : HandleId → Option (Inserted Value Deleter)

namespace CacheClient

def start : CacheClient Value Deleter := ⟨fun _ => 0, fun _ => none⟩

/-- What an entry is charged. -/
def chargeOf (client : CacheClient Value Deleter) (id : HandleId) : Nat :=
  (client.inserted id).elim 0 fun entry => entry.charge.toNat

/-- A handle is released only while the client has it. -/
def Allows (client : CacheClient Value Deleter) : CacheOp Value Deleter → Prop
  | .release id => 0 < client.held id
  | _ => True

/-- The account after an operation that returned a handle or none. -/
def after (client : CacheClient Value Deleter) :
    CacheOp Value Deleter → Option HandleId → CacheClient Value Deleter
  | .insert key hash value charge deleter, some id =>
      { held := Function.update client.held id (client.held id + 1)
        inserted := Function.update client.inserted id (some ⟨key, hash, value, charge, deleter⟩) }
  | .lookup _ _, some id =>
      { client with held := Function.update client.held id (client.held id + 1) }
  | .release id, _ =>
      { client with held := Function.update client.held id (client.held id - 1) }
  | _, _ => client

end CacheClient

/-- The caches a client reaches by operations it is allowed, each of which suits the cache
it is called on, with its account of them. -/
inductive LRUCache.Reached (Suits : LRUCache Value Deleter → CacheOp Value Deleter → Prop)
    (capacity : BitVec 64) : LRUCache Value Deleter → CacheClient Value Deleter → Prop where
  | new {cache : LRUCache Value Deleter} (made : LRUCache.new capacity = some cache) :
      Reached Suits capacity cache CacheClient.start
  | step {cache after : LRUCache Value Deleter} {client : CacheClient Value Deleter}
      {op : CacheOp Value Deleter} {returned : Option HandleId}
      (reached : Reached Suits capacity cache client) (allowed : client.Allows op)
      (suits : Suits cache op) (stepped : cache.step op = some (returned, after)) :
      Reached Suits capacity after (client.after op returned)

namespace LRUCache

/-- Any operation suits any cache. -/
def Always (_ : LRUCache Value Deleter) (_ : CacheOp Value Deleter) : Prop := True

/-- No `uint32_t` overflows: a lookup finds no entry with the highest count of references,
and an entry under a new key finds less than `2 ^ 31` in the table, which can then still
be enlarged. -/
def CountsFit (cache : LRUCache Value Deleter) : CacheOp Value Deleter → Prop
  | .insert key hash _ _ _ => 0 < cache.capacity →
      HandleTable.lookup cache.heap cache.table key hash = some none →
      cache.table.elems < 2 ^ 31
  | .lookup key hash => ∀ id handle,
      HandleTable.lookup cache.heap cache.table key hash = some (some id) →
      cache.heap.handles id = some handle → handle.refs.toNat + 1 < 2 ^ 32
  | _ => True

/-- The new charge can be added to `usage_`. -/
def ChargeFits (cache : LRUCache Value Deleter) (op : CacheOp Value Deleter) : Prop :=
  cache.usage.toNat + op.charge < 2 ^ 64

instance (cache : LRUCache Value Deleter) (op : CacheOp Value Deleter) :
    Decidable (cache.ChargeFits op) :=
  inferInstanceAs (Decidable (_ < _))

/-- Neither counts nor charges overflow. -/
def NoOverflow (cache : LRUCache Value Deleter) (op : CacheOp Value Deleter) : Prop :=
  cache.CountsFit op ∧ cache.ChargeFits op

theorem Reached.mono {Suits Allowed : LRUCache Value Deleter → CacheOp Value Deleter → Prop}
    {capacity : BitVec 64} {cache : LRUCache Value Deleter} {client : CacheClient Value Deleter}
    (weaker : ∀ cache op, Suits cache op → Allowed cache op)
    (reached : Reached Suits capacity cache client) : Reached Allowed capacity cache client := by
  induction reached with
  | new made => exact .new made
  | step _ allowed suits stepped ih => exact .step ih allowed (weaker _ _ suits) stepped

end LRUCache

end MiniLevelDb
