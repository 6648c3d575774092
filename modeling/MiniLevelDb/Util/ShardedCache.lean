import MiniLevelDb.Util.Cache
import MiniLevelDb.Util.Hash

/-!
# The sharded cache

`ShardedLRUCache`: sixteen caches, and the high bits of a key's hash choose between
them. A handle belongs to the memory of the shard it was made in; `Release` finds the
shard again from the hash in the handle.
-/

namespace MiniLevelDb

def kNumShardBits : Nat := 4

def kNumShards : Nat := 1 <<< kNumShardBits

/-- A shard of the cache. -/
abbrev ShardIndex := Fin 16

/-- `HashSlice`. -/
def hashSlice (key : Slice) : BitVec 32 := hash key 0

/-- `Shard`. -/
def shardOf (hash : BitVec 32) : ShardIndex :=
  ⟨(hash >>> (32 - kNumShardBits)).toNat, by
    rw [BitVec.toNat_ushiftRight, Nat.shiftRight_eq_div_pow, kNumShardBits]
    omega⟩

/-- A `Cache::Handle*`, with the shard whose memory it points into. -/
structure ShardedHandle where
  shard : ShardIndex
  id : HandleId
deriving DecidableEq, Repr

structure ShardedLRUCache (Value Deleter : Type) where
  shard : ShardIndex → LRUCache Value Deleter

namespace ShardedLRUCache

variable {Value Deleter : Type}

/-- `per_shard`, in the arithmetic of `size_t`. -/
def perShard (capacity : BitVec 64) : BitVec 64 :=
  (capacity + BitVec.ofNat 64 (kNumShards - 1)) / BitVec.ofNat 64 kNumShards

/-- The constructor. -/
def new (capacity : BitVec 64) : Option (ShardedLRUCache Value Deleter) := do
  let lru ← LRUCache.new (perShard capacity)
  some ⟨fun _ => lru⟩

def setShard (cache : ShardedLRUCache Value Deleter) (index : ShardIndex)
    (lru : LRUCache Value Deleter) : ShardedLRUCache Value Deleter :=
  ⟨Function.update cache.shard index lru⟩

/-- `Insert`. -/
def insert (cache : ShardedLRUCache Value Deleter) (key : Slice) (value : Value)
    (charge : BitVec 64) (deleter : Deleter) :
    Option (ShardedHandle × ShardedLRUCache Value Deleter) := do
  let hash := hashSlice key
  let (id, lru) ← (cache.shard (shardOf hash)).insert key hash value charge deleter
  some (⟨shardOf hash, id⟩, cache.setShard (shardOf hash) lru)

/-- `Lookup`. -/
def lookup (cache : ShardedLRUCache Value Deleter) (key : Slice) :
    Option (Option ShardedHandle × ShardedLRUCache Value Deleter) := do
  let hash := hashSlice key
  let (found, lru) ← (cache.shard (shardOf hash)).lookup key hash
  some (found.map fun id => ⟨shardOf hash, id⟩, cache.setShard (shardOf hash) lru)

/-- `Release`. The shard that the hash leads to can do nothing with a handle of
another one. -/
def release (cache : ShardedLRUCache Value Deleter) (handle : ShardedHandle) :
    Option (ShardedLRUCache Value Deleter) := do
  let stored ← (cache.shard handle.shard).heap.handles handle.id
  if shardOf stored.hash = handle.shard then
    let lru ← (cache.shard (shardOf stored.hash)).release handle.id
    some (cache.setShard (shardOf stored.hash) lru)
  else none

/-- `Erase`. -/
def erase (cache : ShardedLRUCache Value Deleter) (key : Slice) :
    Option (ShardedLRUCache Value Deleter) := do
  let hash := hashSlice key
  let lru ← (cache.shard (shardOf hash)).erase key hash
  some (cache.setShard (shardOf hash) lru)

/-- `Value`. -/
def value (cache : ShardedLRUCache Value Deleter) (handle : ShardedHandle) : Option Value :=
  ((cache.shard handle.shard).heap.handles handle.id).map LRUHandle.value

/-- `Prune`. -/
def prune (cache : ShardedLRUCache Value Deleter) : Option (ShardedLRUCache Value Deleter) :=
  (List.finRange 16).foldlM (fun cache index => do
    let lru ← (cache.shard index).prune
    some (cache.setShard index lru)) cache

/-- `TotalCharge`. -/
def totalCharge (cache : ShardedLRUCache Value Deleter) : BitVec 64 :=
  (List.finRange 16).foldl (fun total index => total + (cache.shard index).usage) 0

end ShardedLRUCache

/-- An operation on a sharded cache. -/
inductive ShardedOp (Value Deleter : Type) where
  | insert (key : Slice) (value : Value) (charge : BitVec 64) (deleter : Deleter)
  | lookup (key : Slice)
  | release (handle : ShardedHandle)
  | erase (key : Slice)
  | prune

/-- The key an operation is on. -/
def ShardedOp.key? {Value Deleter : Type} : ShardedOp Value Deleter → Option Slice
  | .insert key _ _ _ => some key
  | .lookup key => some key
  | .erase key => some key
  | .release _ => none
  | .prune => none

namespace ShardedLRUCache

variable {Value Deleter : Type}

/-- One operation: the handle it returns and the cache after it. -/
def step (cache : ShardedLRUCache Value Deleter) :
    ShardedOp Value Deleter → Option (Option ShardedHandle × ShardedLRUCache Value Deleter)
  | .insert key value charge deleter =>
      (cache.insert key value charge deleter).map fun result => (some result.1, result.2)
  | .lookup key => cache.lookup key
  | .release handle => (cache.release handle).map fun after => (none, after)
  | .erase key => (cache.erase key).map fun after => (none, after)
  | .prune => cache.prune.map fun after => (none, after)

/-- A sequence of operations: the handles they return and the cache after them. -/
def run : List (ShardedOp Value Deleter) → ShardedLRUCache Value Deleter →
    Option (List (Option ShardedHandle) × ShardedLRUCache Value Deleter)
  | [], cache => some ([], cache)
  | op :: ops, cache => do
      let (returned, cache) ← cache.step op
      let (results, cache) ← run ops cache
      some (returned :: results, cache)

end ShardedLRUCache

end MiniLevelDb
