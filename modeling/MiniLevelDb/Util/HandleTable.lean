import MiniLevelDb.Util.Slice
import Mathlib.Logic.Function.Basic

/-!
# The handle table

The hash table of the cache. Its entries are handles in memory, chained through their
`next_hash` pointers; a pointer to a pointer is a slot, a bucket of the array or the
`next_hash` field of a handle. A pointer field is not set, null or a handle. The counts
of the table are of type `uint32_t`, and wrap around. An operation that reads freed
memory or a field that was never set, fails an assertion, or exceeds the number of
steps its loop can take has no result.
-/

namespace MiniLevelDb

/-- An `LRUHandle*` that came from `malloc`. -/
abbrev HandleId := Nat

/-- The two lists of a cache, each with a head that is a handle of its own. -/
inductive CacheList where
  | lru
  | inUse
deriving DecidableEq, Repr

/-- An `LRUHandle*` other than `nullptr`. -/
inductive ListNode where
  | head (list : CacheList)
  | entry (id : HandleId)
deriving DecidableEq, Repr

/-- An `LRUHandle` without its pointers. -/
structure LRUHandle (Value Deleter : Type) where
  value : Value
  deleter : Deleter
  charge : BitVec 64
  key : Slice
  inCache : Bool
  refs : BitVec 32
  hash : BitVec 32
deriving DecidableEq, Repr

/-- The memory of the handles, with the pointers of each kind in a map of their own.
`fresh` is the next address `malloc` returns. -/
structure Heap (Value Deleter : Type) where
  handles : HandleId → Option (LRUHandle Value Deleter)
  fresh : HandleId
  next : ListNode → Option (Option ListNode)
  prev : ListNode → Option (Option ListNode)
  nextHash : HandleId → Option (Option HandleId)

/-- Both counts are below `2 ^ 32`. -/
structure HandleTable where
  length : Nat
  elems : Nat
  list : List (Option HandleId)
deriving DecidableEq, Repr

variable {Value Deleter : Type}

/-- `id->key()`, with its assertion that the handle is not an empty list. -/
def Heap.keyOf (heap : Heap Value Deleter) (id : HandleId) : Option Slice := do
  let handle ← heap.handles id
  let next ← heap.next (.entry id)
  if next = some (.entry id) then none else some handle.key

namespace HandleTable

/-- An `LRUHandle**`. -/
inductive Slot where
  | bucket (index : Nat)
  | nextHash (id : HandleId)
deriving DecidableEq, Repr

/-- `*slot`. -/
def read (heap : Heap Value Deleter) (table : HandleTable) : Slot → Option (Option HandleId)
  | .bucket index => table.list[index]?
  | .nextHash id => (heap.handles id).bind fun _ => heap.nextHash id

/-- `*slot = target`. -/
def write (heap : Heap Value Deleter) (table : HandleTable) (slot : Slot)
    (target : Option HandleId) : Option (Heap Value Deleter × HandleTable) :=
  match slot with
  | .bucket index =>
      if index < table.list.length then
        some (heap, { table with list := table.list.set index target })
      else none
  | .nextHash id =>
      (heap.handles id).map fun _ =>
        ({ heap with nextHash := Function.update heap.nextHash id (some target) }, table)

/-- `hash & (length - 1)`. -/
def bucketOf (length : Nat) (hash : BitVec 32) : Nat := hash.toNat &&& (length - 1)

/-- The loop of `FindPointer`. -/
def findPointerLoop (heap : Heap Value Deleter) (table : HandleTable) (key : Slice)
    (hash : BitVec 32) : Nat → Slot → Option Slot
  | 0, _ => none
  | rounds + 1, slot => do
      match ← read heap table slot with
      | none => some slot
      | some id =>
          let handle ← heap.handles id
          if handle.hash ≠ hash then findPointerLoop heap table key hash rounds (.nextHash id)
          else if Slice.beqSlice key (← heap.keyOf id) then some slot
          else findPointerLoop heap table key hash rounds (.nextHash id)

/-- `FindPointer`. A chain has at most as many handles as were ever allocated. -/
def findPointer (heap : Heap Value Deleter) (table : HandleTable) (key : Slice)
    (hash : BitVec 32) : Option Slot :=
  findPointerLoop heap table key hash (heap.fresh + 1) (.bucket (bucketOf table.length hash))

def lookup (heap : Heap Value Deleter) (table : HandleTable) (key : Slice) (hash : BitVec 32) :
    Option (Option HandleId) := do
  read heap table (← findPointer heap table key hash)

/-- The first loop of `Resize`: double until there is a bucket for every element. Beyond
`2 ^ 31` elements the length becomes zero, and stays so. -/
def growLength (elems : Nat) : Nat → Nat → Option Nat
  | 0, _ => none
  | rounds + 1, length =>
      if length < elems then growLength elems rounds (length * 2 % 2 ^ 32) else some length

/-- What the second loop of `Resize` changes. -/
structure Rehash (Value Deleter : Type) where
  heap : Heap Value Deleter
  newList : List (Option HandleId)
  count : Nat

/-- The inner loop of `Resize`: move the chain that starts at a handle. -/
def rehashChain (newLength : Nat) :
    Nat → Option HandleId → Rehash Value Deleter → Option (Rehash Value Deleter)
  | _, none, state => some state
  | 0, some _, _ => none
  | rounds + 1, some id, state => do
      let handle ← state.heap.handles id
      let next ← state.heap.nextHash id
      let index := bucketOf newLength handle.hash
      let first ← state.newList[index]?
      rehashChain newLength rounds next
        { heap := { state.heap with
            nextHash := Function.update state.heap.nextHash id (some first) }
          newList := state.newList.set index (some id)
          count := (state.count + 1) % 2 ^ 32 }

/-- `Resize`. -/
def resize (heap : Heap Value Deleter) (table : HandleTable) :
    Option (Heap Value Deleter × HandleTable) := do
  let newLength ← growLength table.elems (table.elems + 1) 4
  let moved ← (List.range table.length).foldlM
    (fun state index => do
      rehashChain newLength (heap.fresh + 1) (← table.list[index]?) state)
    ⟨heap, List.replicate newLength none, 0⟩
  if table.elems = moved.count then
    some (moved.heap, ⟨newLength, table.elems, moved.newList⟩)
  else none

/-- The constructor. -/
def new (heap : Heap Value Deleter) : Option (Heap Value Deleter × HandleTable) :=
  resize heap ⟨0, 0, []⟩

/-- `old == nullptr ? nullptr : old->next_hash`. -/
def successor (heap : Heap Value Deleter) (table : HandleTable) :
    Option HandleId → Option (Option HandleId)
  | none => some none
  | some old => read heap table (.nextHash old)

/-- `Insert`: the handle it replaces. -/
def insert (heap : Heap Value Deleter) (table : HandleTable) (id : HandleId) :
    Option (Option HandleId × Heap Value Deleter × HandleTable) := do
  let handle ← heap.handles id
  let slot ← findPointer heap table (← heap.keyOf id) handle.hash
  let old ← read heap table slot
  let (heap, table) ← write heap table (.nextHash id) (← successor heap table old)
  let (heap, table) ← write heap table slot (some id)
  match old with
  | some replaced => some (some replaced, heap, table)
  | none =>
      let table := { table with elems := (table.elems + 1) % 2 ^ 32 }
      if table.elems > table.length then (resize heap table).map fun result => (none, result)
      else some (none, heap, table)

/-- `Remove`: the handle it takes out. -/
def remove (heap : Heap Value Deleter) (table : HandleTable) (key : Slice) (hash : BitVec 32) :
    Option (Option HandleId × Heap Value Deleter × HandleTable) := do
  let slot ← findPointer heap table key hash
  match ← read heap table slot with
  | none => some (none, heap, table)
  | some id =>
      let (heap, table) ← write heap table slot (← read heap table (.nextHash id))
      some (some id, heap, { table with elems := (table.elems + (2 ^ 32 - 1)) % 2 ^ 32 })

end HandleTable

end MiniLevelDb
