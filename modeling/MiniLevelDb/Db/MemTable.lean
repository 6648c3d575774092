import MiniLevelDb.Db.DbFormat
import MiniLevelDb.Db.SkipListLayers
import MiniLevelDb.Util.Status

/-!
# The memtable

A memtable is a skip list of encoded entries. An entry is the length-prefixed
internal key of a version followed by its length-prefixed value; entries compare by
their internal keys. Only a string whose internal key can be read is an entry, so the
comparison of two entries is defined. What the arena does beyond handing out the
entry's bytes, and the reference count, play no part.
-/

namespace MiniLevelDb

open Foundation

namespace MemTable

/-- `Slice(p, size)`, of bytes that are there. -/
def bytesAt (p : Slice) (size : Nat) : Option Slice :=
  if size ≤ p.length then some (p.take size) else none

def getLengthPrefixedSlice (data : Slice) : Option Slice := do
  let (length, p) ← getVarint32Ptr data 5
  bytesAt p length.toNat

/-- `KeyComparator::operator()`. -/
def keyComparator (user : Comparator) (left right : Slice) : Option Int := do
  let leftKey ← getLengthPrefixedSlice left
  let rightKey ← getLengthPrefixedSlice right
  InternalKeyComparator.compare user leftKey rightKey

/-- A string in the table: an internal key with its user key can be read off it. -/
structure Entry where
  bytes : Slice
  readable : ((getLengthPrefixedSlice bytes).bind extractUserKey).isSome

namespace Entry

def ofBytes (bytes : Slice) : Option Entry :=
  if readable : ((getLengthPrefixedSlice bytes).bind extractUserKey).isSome then
    some ⟨bytes, readable⟩
  else none

def internalKey (entry : Entry) : Slice := (getLengthPrefixedSlice entry.bytes).getD []

def userKey (entry : Entry) : Slice := (extractUserKey entry.internalKey).getD []

def tag (entry : Entry) : Nat := (tagOf entry.internalKey).toNat

theorem read (entry : Entry) :
    getLengthPrefixedSlice entry.bytes = some entry.internalKey ∧
      extractUserKey entry.internalKey = some entry.userKey := by
  obtain ⟨bytes, readable⟩ := entry
  cases found : getLengthPrefixedSlice bytes with
  | none => simp [found] at readable
  | some internal =>
      simp only [found, Option.bind_some] at readable
      obtain ⟨user, extracted⟩ := Option.isSome_iff_exists.mp readable
      simp [userKey, internalKey, found, extracted]

theorem keyComparator_eq (user : Comparator) (left right : Entry) :
    keyComparator user left.bytes right.bytes =
      some (if user.compare left.userKey right.userKey = 0 then
        (if left.tag > right.tag then -1 else if left.tag < right.tag then 1 else 0)
      else user.compare left.userKey right.userKey) := by
  simp only [keyComparator, left.read.1, right.read.1, Option.bind_eq_bind, Option.bind_some]
  exact InternalKeyComparator.compare_eq user left.read.2 right.read.2

/-- The comparison of two entries, which never fails. -/
def compare (user : Comparator) (left right : Entry) : Int :=
  (keyComparator user left.bytes right.bytes).get (by rw [keyComparator_eq]; rfl)

theorem compare_eq (user : Comparator) (left right : Entry) :
    compare user left right =
      if user.compare left.userKey right.userKey = 0 then
        (if left.tag > right.tag then -1 else if left.tag < right.tag then 1 else 0)
      else user.compare left.userKey right.userKey := by
  simp only [compare, keyComparator_eq, Option.get_some]

theorem compare_threeWay {user : Comparator} (order : ThreeWay user.compare) :
    ThreeWay (compare user) := by
  have byKey : ThreeWay fun left right : Entry => user.compare left.userKey right.userKey :=
    order.comap
  have byTag : ThreeWay fun left right : Entry =>
      if left.tag > right.tag then -1 else if left.tag < right.tag then (1 : Int) else 0 :=
    ThreeWay.descending.comap
  have both := byKey.thenBy byTag
  have same : compare user = _ := funext fun left => funext fun right => compare_eq user left right
  rwa [same]

end Entry

end MemTable

abbrev MemTable := SkipList MemTable.Entry

namespace MemTable

/-- The bytes `Add` stores for an entry. -/
def encodeEntry (sequence : SequenceNumber) (type : ValueType) (key value : Slice) : Slice :=
  encodeVarint32 (BitVec.ofNat 32 (key.length + 8)) ++ key ++
    encodeFixed64 (sequence <<< 8 ||| type.code) ++
    encodeVarint32 (BitVec.ofNat 32 value.length) ++ value

/-- `Add`, when `RandomHeight()` answers `height`. -/
def add (user : Comparator) (table : MemTable) (sequence : SequenceNumber) (type : ValueType)
    (key value : Slice) (height : Nat) : Option MemTable := do
  let internalKeySize := key.length + 8
  let encodedLen := varintLength (BitVec.ofNat 64 internalKeySize) + internalKeySize +
    varintLength (BitVec.ofNat 64 value.length) + value.length
  let buf := encodeEntry sequence type key value
  if buf.length = encodedLen then
    let entry ← Entry.ofBytes buf
    SkipList.insert (Entry.compare user) table entry height
  else none

/-- What `Get` does with the entry its search stops at: the answer, `*value` and `*s`. -/
def getEntry (user : Comparator) (entry : Slice) (key : LookupKey) (value : Slice)
    (status : Status) : Option (Bool × Slice × Status) := do
  let (keyLength, keyPtr) ← getVarint32Ptr entry 5
  let userKey ← bytesAt keyPtr (keyLength - 8).toNat
  if user.compare userKey key.userKey = 0 then
    let tag := decodeFixed64 (keyPtr.drop (keyLength.toNat - 8))
    if tag &&& 0xff = ValueType.kTypeValue.code then
      let stored ← getLengthPrefixedSlice (keyPtr.drop keyLength.toNat)
      some (true, stored, status)
    else if tag &&& 0xff = ValueType.kTypeDeletion.code then
      some (true, value, .notFound "")
    else some (false, value, status)
  else some (false, value, status)

/-- `Get`: the answer and what is then in `*value` and `*s`. -/
def get (user : Comparator) (table : MemTable) (key : LookupKey) (value : Slice)
    (status : Status) : Option (Bool × Slice × Status) := do
  let target ← Entry.ofBytes key.memtableKey
  let (found, _) ← SkipList.findGreaterOrEqual (Entry.compare user) table target none
  match found with
  | none => some (false, value, status)
  | some node => getEntry user (← table.key node).bytes key value status

end MemTable

end MiniLevelDb
