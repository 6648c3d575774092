import MiniLevelDb.Db.MemTable
import MiniLevelDb.Foundation.Memory
import MiniLevelDb.Util.Arena

/-!
# The memtable in memory

Nodes and entries lie in memory that the arena hands out. A node is eight bytes of key, a
pointer to the entry's bytes, and eight bytes for each of its `next_` slots; the null pointer
is `0`. Memory holds whatever it held until it is written. A loop that runs out of the
rounds it is allowed, and a number that cannot be decoded, have no result.
-/

namespace MiniLevelDb

open Foundation

namespace StoredTable

open SkipList (kMaxHeight)

/-- The eight bytes at an address as a number. -/
def loadWord (memory : Memory (BitVec 8)) (address : Nat) : Nat :=
  (decodeFixed64 (memory.load address 8)).toNat

def storeWord (memory : Memory (BitVec 8)) (address value : Nat) : Memory (BitVec 8) :=
  memory.store address (encodeFixed64 (BitVec.ofNat 64 value))

/-- `GetVarint32Ptr(p, p + 5, &value)`: the number and where the bytes behind it are. -/
def varint32At (memory : Memory (BitVec 8)) (p : Nat) : Option (BitVec 32 × Nat) := do
  let (value, rest) ← getVarint32Ptr (memory.load p 5) 5
  some (value, p + (5 - rest.length))

/-- `GetLengthPrefixedSlice`. -/
def lengthPrefixedAt (memory : Memory (BitVec 8)) (data : Nat) : Option Slice := do
  let (length, p) ← varint32At memory data
  some (memory.load p length.toNat)

/-- A `const char*` that is compared: an address of this memory, or of the bytes of a lookup
key elsewhere. -/
inductive KeyPointer where
  | inside (address : Nat)
  | outside (bytes : Slice)

def KeyPointer.read (memory : Memory (BitVec 8)) : KeyPointer → Option Slice
  | inside address => lengthPrefixedAt memory address
  | outside bytes => MemTable.getLengthPrefixedSlice bytes

/-- `KeyComparator::operator()`. -/
def compareKeys (user : Comparator) (memory : Memory (BitVec 8)) (left right : KeyPointer) :
    Option Int := do
  InternalKeyComparator.compare user (← left.read memory) (← right.read memory)

/-- `sizeof(Node)`: the key and one slot. -/
def sizeofNode : Nat := 16

end StoredTable

/-- The members of `MemTable` and of its table that change, and the memory. -/
structure StoredTable where
  arena : Arena
  memory : Memory (BitVec 8)
  head : Nat
  maxHeight : Nat

namespace StoredTable

open SkipList (kMaxHeight)

/-- The address of `node->next_[level]`. -/
def slot (node level : Nat) : Nat := node + 8 + 8 * level

/-- `node->Next(level)`. -/
def next (table : StoredTable) (level node : Nat) : Nat := loadWord table.memory (slot node level)

/-- `node->SetNext(level, target)`. -/
def setNext (table : StoredTable) (level node target : Nat) : StoredTable :=
  { table with memory := storeWord table.memory (slot node level) target }

/-- `node->key`. -/
def key (table : StoredTable) (node : Nat) : Nat := loadWord table.memory node

section Operations

variable (heap : List Region → Nat → Nat) (user : Comparator)

/-- `NewNode`. -/
def newNode (table : StoredTable) (key height : Nat) : Nat × StoredTable :=
  let (node, arena) := table.arena.allocateAligned heap
    (sizeofNode + Arena.pointerSize * (height - 1))
  (node, { table with arena := arena, memory := storeWord table.memory node key })

/-- The constructor, in memory that holds anything. -/
def new (memory : Memory (BitVec 8)) : StoredTable :=
  let (head, table) := newNode heap ⟨Arena.new, memory, 0, 1⟩ 0 kMaxHeight
  (List.range kMaxHeight).foldl (fun table level => table.setNext level head 0)
    { table with head := head }

/-- `KeyIsAfterNode`. -/
def keyIsAfterNode (table : StoredTable) (key : KeyPointer) (node : Nat) : Option Bool :=
  if node = 0 then some false
  else (compareKeys user table.memory (.inside (table.key node)) key).map fun order =>
    decide (order < 0)

/-- `x != nullptr && Equal(key, x->key)`. -/
def equalsNode (table : StoredTable) (key : KeyPointer) (node : Nat) : Option Bool :=
  if node = 0 then some false
  else (compareKeys user table.memory key (.inside (table.key node))).map fun order =>
    decide (order = 0)

/-- The loop of `FindGreaterOrEqual`. -/
def findLoop (table : StoredTable) (key : KeyPointer) :
    Nat → Nat → Nat → Option (List (Option Nat)) → Option (Nat × Option (List (Option Nat)))
  | 0, _, _, _ => none
  | rounds + 1, x, level, prev => do
      let next := table.next level x
      if ← keyIsAfterNode user table key next then
        findLoop table key rounds next level prev
      else
        let prev ← SkipList.recordPrev level x prev
        match level with
        | 0 => some (next, prev)
        | level + 1 => findLoop table key rounds x level prev

/-- `FindGreaterOrEqual`. -/
def findGreaterOrEqual (table : StoredTable) (rounds : Nat) (key : KeyPointer)
    (prev : Option (List (Option Nat))) : Option (Nat × Option (List (Option Nat))) :=
  findLoop user table key rounds table.head (table.maxHeight - 1) prev

/-- The levels a taller node adds above the current maximum start at `head_`. -/
def raisePrev (head maxHeight height : Nat) (prev : List (Option Nat)) :
    Option (List (Option Nat)) :=
  if height > maxHeight then
    (List.range' maxHeight (height - maxHeight)).foldlM
      (fun prev level =>
        if level < prev.length then some (prev.set level (some head)) else none) prev
  else some prev

/-- One round of the last loop of `Insert`. -/
def splice (prev : List (Option Nat)) (x : Nat) (table : StoredTable) (level : Nat) :
    Option StoredTable := do
  let before ← prev[level]?.join
  let table := table.setNext level x (table.next level before)
  some (table.setNext level before x)

/-- `Insert` of the entry at an address, when `RandomHeight()` answers `height`. -/
def insert (table : StoredTable) (rounds key height : Nat) : Option StoredTable := do
  let (found, prev) ← findGreaterOrEqual user table rounds (.inside key)
    (some (List.replicate kMaxHeight none))
  let prev ← prev
  if ← equalsNode user table (.inside key) found then none
  else if height = 0 ∨ kMaxHeight < height then none
  else
    let prev ← raisePrev table.head table.maxHeight height prev
    let maxHeight := if height > table.maxHeight then height else table.maxHeight
    let (x, table) := newNode heap { table with maxHeight := maxHeight } key height
    (List.range height).foldlM (splice prev x) table

/-- `MemTable::Add`. -/
def add (table : StoredTable) (rounds : Nat) (sequence : SequenceNumber) (type : ValueType)
    (key value : Slice) (height : Nat) : Option StoredTable :=
  let internalKeySize := key.length + 8
  let encodedLen := varintLength (BitVec.ofNat 64 internalKeySize) + internalKeySize +
    varintLength (BitVec.ofNat 64 value.length) + value.length
  let (buf, arena) := table.arena.allocate heap encodedLen
  let keySize := encodeVarint32 (BitVec.ofNat 32 internalKeySize)
  let memory := table.memory.store buf keySize
  let p := buf + keySize.length
  let memory := memory.store p key
  let p := p + key.length
  let memory := memory.store p (encodeFixed64 (sequence <<< 8 ||| type.code))
  let p := p + 8
  let valueSize := encodeVarint32 (BitVec.ofNat 32 value.length)
  let memory := memory.store p valueSize
  let p := p + valueSize.length
  let memory := memory.store p value
  if p + value.length = buf + encodedLen then
    insert heap user { table with arena := arena, memory := memory } rounds buf height
  else none

/-- `MemTable::Get`: the answer and what is then in `*value` and `*s`. -/
def get (table : StoredTable) (rounds : Nat) (key : LookupKey) (value : Slice)
    (status : Status) : Option (Bool × Slice × Status) := do
  let (found, _) ← findGreaterOrEqual user table rounds (.outside key.memtableKey) none
  if found = 0 then some (false, value, status)
  else
    let (keyLength, keyPtr) ← varint32At table.memory (table.key found)
    if user.compare (table.memory.load keyPtr (keyLength - 8).toNat) key.userKey = 0 then
      let tag := decodeFixed64 (table.memory.load (keyPtr + keyLength.toNat - 8) 8)
      if tag &&& 0xff = ValueType.kTypeValue.code then
        let stored ← lengthPrefixedAt table.memory (keyPtr + keyLength.toNat)
        some (true, stored, status)
      else if tag &&& 0xff = ValueType.kTypeDeletion.code then
        some (true, value, .notFound "")
      else some (false, value, status)
    else some (false, value, status)

/-- `ApproximateMemoryUsage`. -/
def approximateMemoryUsage (table : StoredTable) : Nat := table.arena.memoryUsage

end Operations

end StoredTable

end MiniLevelDb
