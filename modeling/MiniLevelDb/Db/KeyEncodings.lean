import MiniLevelDb.Db.MemTableIterator

/-!
# The three encodings of a memtable key

A key of the memtable is an internal key behind its length. It is written in three
places: by the constructor of a lookup key, by the iterator for the target of a search,
and by `Add` in front of the value. They write the same bytes, and each of them within
the room it has computed for them.
-/

namespace MiniLevelDb

open Foundation MemTable

namespace LookupKey

/-- Where the constructor writes: `space_`, or an array of its own. -/
inductive Buffer where
  | space
  | heap (size : Nat)
deriving DecidableEq, Repr

/-- `sizeof(space_)`, or what `new` was asked for. -/
def Buffer.size : Buffer → Nat
  | space => 200
  | heap size => size

/-- The choice of the constructor. -/
def bufferFor (userKey : Slice) : Buffer :=
  let needed := userKey.length + 13
  if needed ≤ Buffer.space.size then .space else .heap needed

theorem needed_le_size (userKey : Slice) : userKey.length + 13 ≤ (bufferFor userKey).size := by
  unfold bufferFor
  dsimp only
  split
  · rename_i inside
    exact inside
  · exact Nat.le_refl _

/-- What a lookup key holds, and how long it is. -/
theorem new_parts (userKey : Slice) {sequence : SequenceNumber}
    (small : sequence ≤ kMaxSequenceNumber) :
    ∃ key internal, LookupKey.new userKey sequence = some key ∧
      appendInternalKey [] ⟨userKey, sequence, kValueTypeForSeek⟩ = some internal ∧
      key.memtableKey = encodeVarint32 (BitVec.ofNat 32 (userKey.length + 8)) ++ internal ∧
      key.internalKey = internal ∧ key.userKey = userKey ∧
      key.bytes.length ≤ userKey.length + 13 := by
  obtain ⟨key, built, memtable, user⟩ := new_spec userKey small
  have parts : key.internalKey =
        internalKeyOf userKey (sequence <<< 8 ||| kValueTypeForSeek.code) ∧
      key.bytes.length ≤ userKey.length + 13 := by
    simp only [new, packSequenceAndType_eq small, Option.bind_eq_bind, Option.bind_some] at built
    split at built
    · rename_i room
      cases built
      exact ⟨by simp [internalKey, internalKeyOf], room⟩
    · cases built
  exact ⟨key, _, built, appendInternalKey_eq small [], memtable, parts.1, user, parts.2⟩

end LookupKey

theorem encodeKey_internal {internal : Slice} {size : Nat} (length : internal.length = size) :
    encodeKey internal = encodeVarint32 (BitVec.ofNat 32 size) ++ internal := by
  rw [encodeKey, putVarint32, List.nil_append, length]

/-- The memtable key of a lookup key, the target that `EncodeKey` makes and the front of the
entry that `Add` stores are the same bytes. What is read back from the entry is the
internal key and the value, and all three stay within their buffers. -/
theorem key_encodings_agree {userKey value : Slice} {sequence : SequenceNumber}
    (small : sequence ≤ kMaxSequenceNumber) (keyShort : userKey.length + 8 < 2 ^ 32)
    (valueShort : value.length < 2 ^ 32) :
    ∃ key internal entry, LookupKey.new userKey sequence = some key ∧
      appendInternalKey [] ⟨userKey, sequence, kValueTypeForSeek⟩ = some internal ∧
      (∀ user table height, add user table sequence .kTypeValue userKey value height =
        SkipList.insert (Entry.compare user) table entry height) ∧
      key.memtableKey = encodeKey internal ∧
      entry.bytes = key.memtableKey ++ putLengthPrefixedSlice [] value ∧
      key.internalKey = internal ∧ key.userKey = userKey ∧
      MemTable.getLengthPrefixedSlice entry.bytes = some internal ∧
      MemTable.getLengthPrefixedSlice (entry.bytes.drop key.memtableKey.length) = some value ∧
      entry.bytes.length = varintLength (BitVec.ofNat 64 (userKey.length + 8)) +
        (userKey.length + 8) + varintLength (BitVec.ofNat 64 value.length) + value.length ∧
      key.bytes.length ≤ userKey.length + 13 ∧
      key.bytes.length ≤ (LookupKey.bufferFor userKey).size := by
  let version : Version := ⟨sequence, .kTypeValue, userKey, value, small, keyShort, valueShort⟩
  obtain ⟨key, internal, built, appended, memtable, isInternal, user, room⟩ :=
    LookupKey.new_parts userKey small
  have isKey : internal = internalKeyOf version.key version.tag :=
    Option.some.inj (appended.symm.trans (appendInternalKey_eq small []))
  have split : version.entry.bytes = key.memtableKey ++ putLengthPrefixedSlice [] value := by
    rw [Version.entry_bytes, version.bytes_eq, memtable, isKey]
    simp [putLengthPrefixedSlice, putVarint32, version]
  refine ⟨key, internal, version.entry, built, appended, fun user table height =>
    Version.add_eq user table version height, ?_, split, isInternal, user, ?_, ?_,
    version.length_bytes, room, room.trans (LookupKey.needed_le_size userKey)⟩
  · rw [memtable, encodeKey_internal]
    rw [isKey, length_internalKeyOf]
  · rw [isKey]
    exact version.read_bytes
  · rw [split, List.drop_left]
    have read := getLengthPrefixedSlice_encode valueShort []
    simpa [putLengthPrefixedSlice, putVarint32] using read

theorem key_encodings_agree_abc :
    ∃ key entry, LookupKey.new [97, 98, 99] 5 = some key ∧
      entry.bytes = key.memtableKey ++ putLengthPrefixedSlice [] [118] ∧
      MemTable.getLengthPrefixedSlice (Entry.bytes entry) = some key.internalKey := by
  obtain ⟨key, internal, entry, built, -, -, -, split, rfl, -, read, -⟩ :=
    @key_encodings_agree [97, 98, 99] [118] 5 (by decide) (by decide) (by decide)
  exact ⟨key, entry, built, split, read⟩

end MiniLevelDb
