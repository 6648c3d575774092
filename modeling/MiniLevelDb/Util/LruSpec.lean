import MiniLevelDb.Util.ShardedCache

/-!
# The least recently used cache

What the sharded cache is for. A shard knows the entries that are cached, the newest
first, and which of them no handle is out for, in the order in which their last handle
was released. A key means its newest cached entry; inserting an entry replaces the one
of its key and then drops idle entries, the oldest release first, while the cached
entries are charged more than the capacity.
-/

namespace MiniLevelDb

variable {Value Deleter : Type}

structure LruShard (Value Deleter : Type) where
  fresh : HandleId
  client : CacheClient Value Deleter
  cached : List HandleId
  idle : List HandleId

namespace LruShard

def empty : LruShard Value Deleter := ⟨0, CacheClient.start, [], []⟩

def keyOf (shard : LruShard Value Deleter) (id : HandleId) : Option Slice :=
  (shard.client.inserted id).map Inserted.key

/-- The entry a key means. -/
def find (shard : LruShard Value Deleter) (key : Slice) : Option HandleId :=
  shard.cached.find? fun id => shard.keyOf id = some key

/-- What the cached entries are charged. -/
def usage (shard : LruShard Value Deleter) : Nat :=
  (shard.cached.map shard.client.chargeOf).sum

/-- An entry leaves the cache. -/
def remove (shard : LruShard Value Deleter) (id : HandleId) : LruShard Value Deleter :=
  { shard with cached := shard.cached.erase id, idle := shard.idle.erase id }

/-- The entry of a key leaves the cache, if there is one. -/
def erase (shard : LruShard Value Deleter) (key : Slice) : LruShard Value Deleter :=
  match shard.find key with
  | none => shard
  | some id => shard.remove id

/-- Drop idle entries, in order, while too much is in use. -/
def shrink (capacity : Nat) : List HandleId → LruShard Value Deleter → LruShard Value Deleter
  | [], shard => shard
  | oldest :: rest, shard =>
      if shard.usage > capacity then shrink capacity rest (shard.remove oldest) else shard

/-- The new entry, in the place of the one of its key; without a capacity it is not
cached. -/
def takeIn (capacity : Nat) (key : Slice) (value : Value) (charge : BitVec 64) (deleter : Deleter)
    (shard : LruShard Value Deleter) : LruShard Value Deleter :=
  let kept := if 0 < capacity then shard.erase key else shard
  { fresh := shard.fresh + 1
    client := shard.client.after (.insert key (hashSlice key) value charge deleter)
      (some shard.fresh)
    cached := if 0 < capacity then shard.fresh :: kept.cached else kept.cached
    idle := kept.idle }

def insert (capacity : Nat) (key : Slice) (value : Value) (charge : BitVec 64) (deleter : Deleter)
    (shard : LruShard Value Deleter) : LruShard Value Deleter :=
  let admitted := takeIn capacity key value charge deleter shard
  shrink capacity admitted.idle admitted

/-- The client gets a handle to the entry of a key, which is then not idle. -/
def lookup (shard : LruShard Value Deleter) (key : Slice) :
    Option HandleId × LruShard Value Deleter :=
  match shard.find key with
  | none => (none, shard)
  | some id =>
      (some id, { shard with
        client := shard.client.after (.lookup key (hashSlice key)) (some id)
        idle := shard.idle.erase id })

/-- The client gives a handle back; after its last handle a cached entry is idle. -/
def release (shard : LruShard Value Deleter) (id : HandleId) : LruShard Value Deleter :=
  { shard with
    client := shard.client.after (.release id) none
    idle := if id ∈ shard.cached ∧ shard.client.held id = 1 then shard.idle ++ [id]
      else shard.idle }

/-- A new entry of a key can be counted: in the table, if it is one more there, and by its
charge, which is added to those of the entries it does not replace. -/
def RoomFor (capacity : Nat) (key : Slice) (charge : BitVec 64) (shard : LruShard Value Deleter) :
    Prop :=
  0 < capacity → (shard.find key = none → shard.cached.length < 2 ^ 31) ∧
    (shard.erase key).usage + charge.toNat < 2 ^ 64

/-- One more handle to the entry of a key can be counted, besides the reference of the
cache. -/
def Countable (key : Slice) (shard : LruShard Value Deleter) : Prop :=
  ∀ id, shard.find key = some id → shard.client.held id + 2 < 2 ^ 32

/-- All idle entries leave the cache. -/
def prune (shard : LruShard Value Deleter) : LruShard Value Deleter :=
  { shard with cached := shard.cached.filter (fun id => id ∉ shard.idle), idle := [] }

end LruShard

/-- Sixteen of them. -/
structure LruSpec (Value Deleter : Type) where
  shard : ShardIndex → LruShard Value Deleter

namespace LruSpec

def empty : LruSpec Value Deleter := ⟨fun _ => LruShard.empty⟩

/-- The shard of a key. -/
def home (key : Slice) : ShardIndex := shardOf (hashSlice key)

def setShard (spec : LruSpec Value Deleter) (index : ShardIndex)
    (shard : LruShard Value Deleter) : LruSpec Value Deleter :=
  ⟨Function.update spec.shard index shard⟩

@[simp] theorem shard_setShard (spec : LruSpec Value Deleter) (index : ShardIndex)
    (shard : LruShard Value Deleter) : (spec.setShard index shard).shard index = shard :=
  Function.update_self ..

theorem shard_setShard_of_ne {spec : LruSpec Value Deleter} {index other : ShardIndex}
    {shard : LruShard Value Deleter} (ne : other ≠ index) :
    (spec.setShard index shard).shard other = spec.shard other :=
  Function.update_of_ne ne ..

/-- One operation, with a capacity for each shard: the handle it returns and the caches
after it. -/
def step (capacity : Nat) (spec : LruSpec Value Deleter) :
    ShardedOp Value Deleter → Option ShardedHandle × LruSpec Value Deleter
  | .insert key value charge deleter =>
      (some ⟨home key, (spec.shard (home key)).fresh⟩,
        spec.setShard (home key)
          ((spec.shard (home key)).insert capacity key value charge deleter))
  | .lookup key =>
      (((spec.shard (home key)).lookup key).1.map fun id => ⟨home key, id⟩,
        spec.setShard (home key) ((spec.shard (home key)).lookup key).2)
  | .release handle =>
      (none, spec.setShard handle.shard ((spec.shard handle.shard).release handle.id))
  | .erase key => (none, spec.setShard (home key) ((spec.shard (home key)).erase key))
  | .prune => (none, ⟨fun index => (spec.shard index).prune⟩)

def run (capacity : Nat) : List (ShardedOp Value Deleter) → LruSpec Value Deleter →
    List (Option ShardedHandle) × LruSpec Value Deleter
  | [], spec => ([], spec)
  | op :: ops, spec =>
      let (returned, spec) := spec.step capacity op
      let (results, spec) := run capacity ops spec
      (returned :: results, spec)

/-- A handle is released only while the client has it. -/
def Allows (spec : LruSpec Value Deleter) : ShardedOp Value Deleter → Prop
  | .release handle => 0 < (spec.shard handle.shard).client.held handle.id
  | _ => True

/-- Every operation of a sequence is allowed where it stands. -/
def Disciplined (capacity : Nat) : List (ShardedOp Value Deleter) → LruSpec Value Deleter → Prop
  | [], _ => True
  | op :: ops, spec => spec.Allows op ∧ Disciplined capacity ops (spec.step capacity op).2

/-- What all cached entries are charged. -/
def totalCharge (spec : LruSpec Value Deleter) : Nat :=
  ((List.finRange 16).map fun index => (spec.shard index).usage).sum

/-- The operation makes no count and no charge overflow. -/
def Fits (capacity : Nat) (spec : LruSpec Value Deleter) : ShardedOp Value Deleter → Prop
  | .insert key _ charge _ => (spec.shard (home key)).RoomFor capacity key charge
  | .lookup key => (spec.shard (home key)).Countable key
  | _ => True

/-- Every operation of a sequence fits where it stands, and in the end a `size_t` holds the
total charge. -/
def AllFit (capacity : Nat) : List (ShardedOp Value Deleter) → LruSpec Value Deleter → Prop
  | [], spec => spec.totalCharge < 2 ^ 64
  | op :: ops, spec => spec.Fits capacity op ∧ AllFit capacity ops (spec.step capacity op).2

end LruSpec

end MiniLevelDb
