import MiniLevelDb.Util.Coding
import MiniLevelDb.Util.Comparator
import MiniLevelDb.Foundation.ThreeWay

/-!
# Internal keys

An internal key is a user key followed by its tag, the sequence number and the value
type packed into eight bytes. Internal keys are ordered by user key, and the versions
of one user key from the newest to the oldest. A function that would fail an
assertion has no result.
-/

namespace MiniLevelDb

open Foundation

inductive ValueType where
  | kTypeDeletion
  | kTypeValue
deriving DecidableEq, Repr

/-- The number the enumerator stands for. -/
def ValueType.code : ValueType → BitVec 64
  | kTypeDeletion => 0x0
  | kTypeValue => 0x1

def kValueTypeForSeek : ValueType := .kTypeValue

abbrev SequenceNumber := BitVec 64

def kMaxSequenceNumber : SequenceNumber := (1#64 <<< 56) - 1

def packSequenceAndType (sequence : SequenceNumber) (type : ValueType) : Option (BitVec 64) :=
  if sequence ≤ kMaxSequenceNumber ∧ type.code ≤ kValueTypeForSeek.code then
    some (sequence <<< 8 ||| type.code)
  else none

def extractUserKey (internalKey : Slice) : Option Slice :=
  if internalKey.length ≥ 8 then some (internalKey.take (internalKey.length - 8)) else none

/-- The number in the last eight bytes. -/
def tagOf (internalKey : Slice) : BitVec 64 :=
  decodeFixed64 (internalKey.drop (internalKey.length - 8))

/-- `InternalKeyComparator::Compare`. -/
def InternalKeyComparator.compare (user : Comparator) (left right : Slice) : Option Int := do
  let result := user.compare (← extractUserKey left) (← extractUserKey right)
  if result = 0 then
    let leftTag := tagOf left
    let rightTag := tagOf right
    if leftTag > rightTag then some (-1) else if leftTag < rightTag then some 1 else some result
  else some result

/-- A lookup key: the bytes from `start_` to `end_`, and where `kstart_` is in them. -/
structure LookupKey where
  bytes : Slice
  kstart : Nat
deriving DecidableEq, Repr

namespace LookupKey

/-- The constructor. The buffer has thirteen bytes more than the user key. -/
def new (userKey : Slice) (sequence : SequenceNumber) : Option LookupKey := do
  let tag ← packSequenceAndType sequence kValueTypeForSeek
  let size := encodeVarint32 (BitVec.ofNat 32 (userKey.length + 8))
  let bytes := size ++ userKey ++ encodeFixed64 tag
  if bytes.length ≤ userKey.length + 13 then some ⟨bytes, size.length⟩ else none

def memtableKey (key : LookupKey) : Slice := key.bytes

def internalKey (key : LookupKey) : Slice := key.bytes.drop key.kstart

def userKey (key : LookupKey) : Slice :=
  key.internalKey.take (key.internalKey.length - 8)

end LookupKey

/-- The bytes of the internal key of a version. -/
def internalKeyOf (userKey : Slice) (tag : BitVec 64) : Slice :=
  userKey ++ encodeFixed64 tag

@[simp] theorem length_internalKeyOf (userKey : Slice) (tag : BitVec 64) :
    (internalKeyOf userKey tag).length = userKey.length + 8 := by
  simp [internalKeyOf]

@[simp] theorem extractUserKey_internalKeyOf (userKey : Slice) (tag : BitVec 64) :
    extractUserKey (internalKeyOf userKey tag) = some userKey := by
  simp [extractUserKey, internalKeyOf]

@[simp] theorem tagOf_internalKeyOf (userKey : Slice) (tag : BitVec 64) :
    tagOf (internalKeyOf userKey tag) = tag := by
  have := decodeFixed64_encodeFixed64 tag []
  rw [List.append_nil] at this
  simp [tagOf, internalKeyOf, this]

/-- The packed tag is the sequence number above the type. -/
theorem toNat_tag {sequence : SequenceNumber} (small : sequence ≤ kMaxSequenceNumber)
    (type : ValueType) :
    (sequence <<< 8 ||| type.code).toNat = sequence.toNat * 256 + type.code.toNat := by
  have bound : sequence.toNat ≤ 2 ^ 56 - 1 := small
  have shifted : (sequence <<< 8).toNat = sequence.toNat <<< 8 := by
    rw [BitVec.toNat_shiftLeft, Nat.shiftLeft_eq]
    omega
  have code : type.code.toNat < 2 ^ 8 := by cases type <;> decide
  rw [BitVec.toNat_or, shifted, ← Nat.shiftLeft_add_eq_or_of_lt code, Nat.shiftLeft_eq]

/-- The type is read back from the low byte of the tag. -/
theorem tag_and_255 {sequence : SequenceNumber} (small : sequence ≤ kMaxSequenceNumber)
    (type : ValueType) : (sequence <<< 8 ||| type.code) &&& 0xff = type.code := by
  apply BitVec.eq_of_toNat_eq
  have mask : (0xff : BitVec 64).toNat = 2 ^ 8 - 1 := rfl
  have code : type.code.toNat < 2 ^ 8 := by cases type <;> decide
  rw [BitVec.toNat_and, toNat_tag small, mask, Nat.and_two_pow_sub_one_eq_mod]
  omega

theorem packSequenceAndType_eq {sequence : SequenceNumber}
    (small : sequence ≤ kMaxSequenceNumber) (type : ValueType) :
    packSequenceAndType sequence type = some (sequence <<< 8 ||| type.code) := by
  rw [packSequenceAndType, if_pos ⟨small, by cases type <;> decide⟩]

/-- What a lookup key holds. -/
theorem LookupKey.new_spec (userKey : Slice) {sequence : SequenceNumber}
    (small : sequence ≤ kMaxSequenceNumber) :
    ∃ key, LookupKey.new userKey sequence = some key ∧
      key.memtableKey = encodeVarint32 (BitVec.ofNat 32 (userKey.length + 8)) ++
        internalKeyOf userKey (sequence <<< 8 ||| kValueTypeForSeek.code) ∧
      key.userKey = userKey := by
  have room := length_encodeVarint32_le (BitVec.ofNat 32 (userKey.length + 8))
  have fits : (encodeVarint32 (BitVec.ofNat 32 (userKey.length + 8)) ++ userKey ++
      encodeFixed64 (sequence <<< 8 ||| kValueTypeForSeek.code)).length ≤
        userKey.length + 13 := by
    simp only [List.length_append, length_encodeFixed64]
    omega
  have built : new userKey sequence = some
      ⟨encodeVarint32 (BitVec.ofNat 32 (userKey.length + 8)) ++ userKey ++
          encodeFixed64 (sequence <<< 8 ||| kValueTypeForSeek.code),
        (encodeVarint32 (BitVec.ofNat 32 (userKey.length + 8))).length⟩ := by
    simp only [new, packSequenceAndType_eq small, Option.bind_eq_bind, Option.bind_some]
    exact if_pos fits
  refine ⟨_, built, ?_, ?_⟩
  · simp [memtableKey, internalKeyOf]
  · simp [LookupKey.userKey, internalKey]

/-- The comparison of internal keys orders by user key and then newest first. -/
theorem InternalKeyComparator.compare_eq (user : Comparator)
    {left right leftKey rightKey : Slice} (leftUser : extractUserKey left = some leftKey)
    (rightUser : extractUserKey right = some rightKey) :
    compare user left right =
      some (if user.compare leftKey rightKey = 0 then
        (if (tagOf left).toNat > (tagOf right).toNat then -1
          else if (tagOf left).toNat < (tagOf right).toNat then 1 else 0)
      else user.compare leftKey rightKey) := by
  simp only [compare, leftUser, rightUser, Option.bind_eq_bind, Option.bind_some]
  by_cases tie : user.compare leftKey rightKey = 0
  · rw [if_pos tie, if_pos tie]
    show (if (tagOf left).toNat > (tagOf right).toNat then some (-1)
      else if (tagOf left).toNat < (tagOf right).toNat then some 1
      else some (user.compare leftKey rightKey)) = _
    rw [tie]
    split
    · rfl
    · split <;> rfl
  · rw [if_neg tie, if_neg tie]

end MiniLevelDb
