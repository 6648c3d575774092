import MiniLevelDb.Db.InternalKey
import MiniLevelDb.Db.MemTableVersions
import MiniLevelDb.Db.SkipListIterator

/-!
# The iterator of a memtable

The iterator of a memtable is one of its skip list that takes the entry it is at apart
again: the internal key is behind the first length, the value behind the second one. A
target is made an entry without a value. Its length is written as 32 bits, so a longer
target is cut off.
-/

namespace MiniLevelDb

open Foundation

namespace MemTable

/-- `EncodeKey`: what it leaves in `*scratch`. -/
def encodeKey (target : Slice) : Slice :=
  putVarint32 [] (BitVec.ofNat 32 target.length) ++ target

/-- What `value()` reads off the entry. -/
def valueOf (entry : Slice) : Option Slice := do
  let (length, p) ← getVarint32Ptr entry 5
  let keySlice ← bytesAt p length.toNat
  getLengthPrefixedSlice (p.drop keySlice.length)

/-- The order of internal keys: user keys ascending, then sequence numbers and then types
descending. -/
def keyBefore (user : Comparator) (leftKey : Slice) (leftSequence leftType : BitVec 64)
    (rightKey : Slice) (rightSequence rightType : BitVec 64) : Prop :=
  user.compare leftKey rightKey < 0 ∨
    (user.compare leftKey rightKey = 0 ∧
      (rightSequence < leftSequence ∨
        (rightSequence = leftSequence ∧ rightType < leftType)))

instance (user : Comparator) (leftKey : Slice) (leftSequence leftType : BitVec 64)
    (rightKey : Slice) (rightSequence rightType : BitVec 64) :
    Decidable (keyBefore user leftKey leftSequence leftType rightKey rightSequence rightType) :=
  inferInstanceAs (Decidable (_ ∨ _))

namespace Version

def Before (user : Comparator) (left right : Version) : Prop :=
  keyBefore user left.key left.sequence left.type.code
    right.key right.sequence right.type.code

/-- The version comes before an internal key, whose last eight bytes are the sequence
number and the type. -/
def BeforeKey (user : Comparator) (internalKey : Slice) (version : Version) : Prop :=
  keyBefore user version.key version.sequence version.type.code
    (internalKey.take (internalKey.length - 8)) (tagOf internalKey >>> 8)
    (tagOf internalKey &&& 0xff)

instance (user : Comparator) (left right : Version) : Decidable (left.Before user right) :=
  inferInstanceAs (Decidable (keyBefore ..))

instance (user : Comparator) (internalKey : Slice) (version : Version) :
    Decidable (version.BeforeKey user internalKey) :=
  inferInstanceAs (Decidable (keyBefore ..))

/-- What an iterator answers for the version: the bytes `AppendInternalKey` makes of its
key, and its value. -/
def shown (version : Version) : Option (Slice × Slice) :=
  (appendInternalKey [] ⟨version.key, version.sequence, version.type⟩).map fun key =>
    (key, version.value)

theorem shown_eq (version : Version) :
    version.shown = some (internalKeyOf version.key version.tag, version.value) := by
  have appended := @appendInternalKey_eq ⟨version.key, version.sequence, version.type⟩
    version.sequence_le []
  rw [shown, appended, Option.map_some, List.nil_append]
  rfl

theorem valueOf_bytes (version : Version) : valueOf version.bytes = some version.value := by
  have size : (BitVec.ofNat 32 (version.key.length + 8)).toNat = version.key.length + 8 := by
    rw [BitVec.toNat_ofNat, Nat.mod_eq_of_lt version.key_lt]
  rw [bytes_eq]
  simp only [valueOf, getVarint32Ptr_encodeVarint32 _ _ (length_encodeVarint32_le _),
    Option.bind_eq_bind, Option.bind_some, size]
  generalize rest : encodeVarint32 (BitVec.ofNat 32 version.value.length) ++
    (version.value ++ []) = tail
  have key : bytesAt (internalKeyOf version.key version.tag ++ tail) (version.key.length + 8) =
      some (internalKeyOf version.key version.tag) := by
    rw [bytesAt, if_pos (by simp), List.take_left' (length_internalKeyOf _ _)]
  have behind : (internalKeyOf version.key version.tag ++ tail).drop
      (internalKeyOf version.key version.tag).length = tail := List.drop_left
  rw [key, Option.bind_some, behind, ← rest]
  exact getLengthPrefixedSlice_encode version.value_lt []

end Version

theorem Entry.compare_lt_iff {user : Comparator} {left right : Entry} :
    Entry.compare user left right < 0 ↔
      user.compare left.userKey right.userKey < 0 ∨
        (user.compare left.userKey right.userKey = 0 ∧ right.tag < left.tag) := by
  by_cases tie : user.compare left.userKey right.userKey = 0
  · rw [Entry.compare_lt_iff_of_tie tie]
    omega
  · rw [Entry.compare_eq, if_neg tie]
    omega

/-- Entries are ordered as the parts of their internal keys are. -/
theorem Entry.compare_lt_iff_keyBefore {user : Comparator} {left right : Entry} :
    Entry.compare user left right < 0 ↔
      keyBefore user left.userKey (tagOf left.internalKey >>> 8) (tagOf left.internalKey &&& 0xff)
        right.userKey (tagOf right.internalKey >>> 8) (tagOf right.internalKey &&& 0xff) := by
  have parts : ∀ tag : BitVec 64,
      (tag >>> 8).toNat = tag.toNat / 256 ∧ (tag &&& 0xff).toNat = tag.toNat % 256 := by
    intro tag
    have mask : (0xff : BitVec 64).toNat = 2 ^ 8 - 1 := rfl
    rw [BitVec.toNat_ushiftRight, Nat.shiftRight_eq_div_pow, BitVec.toNat_and, mask,
      Nat.and_two_pow_sub_one_eq_mod]
    exact ⟨rfl, rfl⟩
  obtain ⟨leftHigh, leftLow⟩ := parts (tagOf left.internalKey)
  obtain ⟨rightHigh, rightLow⟩ := parts (tagOf right.internalKey)
  rw [Entry.compare_lt_iff, keyBefore, BitVec.lt_def, BitVec.lt_def, ← BitVec.toNat_inj, leftHigh,
    leftLow, rightHigh, rightLow]
  unfold Entry.tag
  omega

namespace Version

/-- The parts of the internal key of a version's entry. -/
theorem entry_parts (version : Version) :
    tagOf version.entry.internalKey >>> 8 = version.sequence ∧
      tagOf version.entry.internalKey &&& 0xff = version.type.code := by
  rw [entry_internalKey, tagOf_internalKeyOf]
  exact ⟨tag_shiftRight version.sequence_le version.type,
    tag_and_255 version.sequence_le version.type⟩

theorem compare_lt_iff_before {user : Comparator} {left right : Version} :
    Entry.compare user left.entry right.entry < 0 ↔ left.Before user right := by
  rw [Entry.compare_lt_iff_keyBefore, left.entry_parts.1, left.entry_parts.2,
    right.entry_parts.1, right.entry_parts.2, entry_userKey, entry_userKey]
  rfl

theorem compare_lt_iff_beforeKey {user : Comparator} {version : Version} {target : Entry} :
    Entry.compare user version.entry target < 0 ↔ version.BeforeKey user target.internalKey := by
  have long : 8 ≤ target.internalKey.length := by
    by_contra short
    have read := target.read.2
    rw [extractUserKey, if_neg short] at read
    cases read
  have userKey : target.userKey =
      target.internalKey.take (target.internalKey.length - 8) := by
    rw [Entry.userKey, extractUserKey, if_pos long, Option.getD_some]
  rw [Entry.compare_lt_iff_keyBefore, version.entry_parts.1, version.entry_parts.2,
    entry_userKey, userKey]
  rfl

end Version

/-- A target is read back up to what is left of its length in 32 bits. -/
theorem getLengthPrefixedSlice_encodeKey (target : Slice) :
    getLengthPrefixedSlice (encodeKey target) =
      some (target.take (target.length % 2 ^ 32)) := by
  have size : (BitVec.ofNat 32 target.length).toNat = target.length % 2 ^ 32 :=
    BitVec.toNat_ofNat _ _
  simp only [encodeKey, putVarint32, List.nil_append, getLengthPrefixedSlice,
    Option.bind_eq_bind, Option.bind_some,
    getVarint32Ptr_encodeVarint32 _ _ (length_encodeVarint32_le _), size]
  exact if_pos (Nat.mod_le _ _)

/-- A target of which eight bytes are left is an entry. -/
theorem encodeKey_entry {target : Slice} (long : 8 ≤ target.length % 2 ^ 32) :
    ∃ entry, Entry.ofBytes (encodeKey target) = some entry ∧
      entry.internalKey = target.take (target.length % 2 ^ 32) := by
  have read := getLengthPrefixedSlice_encodeKey target
  have cut : 8 ≤ (target.take (target.length % 2 ^ 32)).length := by
    rw [List.length_take]
    exact Nat.le_min.mpr ⟨long, Nat.le_trans long (Nat.mod_le _ _)⟩
  have readable :
      ((getLengthPrefixedSlice (encodeKey target)).bind extractUserKey).isSome := by
    rw [read, Option.bind_some, extractUserKey, if_pos cut]
    rfl
  refine ⟨⟨encodeKey target, readable⟩, dif_pos readable, ?_⟩
  rw [Entry.internalKey, read, Option.getD_some]

end MemTable

open MemTable

structure MemTableIterator where
  iter : SkipList.Iterator

namespace MemTableIterator

def valid (iterator : MemTableIterator) : Bool := iterator.iter.valid

def seek (user : Comparator) (table : MemTable) (k : Slice) : Option MemTableIterator := do
  let target ← Entry.ofBytes (encodeKey k)
  (SkipList.Iterator.seek (Entry.compare user) table target).map MemTableIterator.mk

def seekToFirst (table : MemTable) : Option MemTableIterator :=
  (SkipList.Iterator.seekToFirst table).map MemTableIterator.mk

def seekToLast (table : MemTable) : Option MemTableIterator :=
  (SkipList.Iterator.seekToLast table).map MemTableIterator.mk

def next (table : MemTable) (iterator : MemTableIterator) : Option MemTableIterator :=
  (iterator.iter.next table).map MemTableIterator.mk

def prev (user : Comparator) (table : MemTable) (iterator : MemTableIterator) :
    Option MemTableIterator :=
  (iterator.iter.prev (Entry.compare user) table).map MemTableIterator.mk

def key (table : MemTable) (iterator : MemTableIterator) : Option Slice := do
  let entry ← iterator.iter.key table
  MemTable.getLengthPrefixedSlice entry.bytes

def value (table : MemTable) (iterator : MemTableIterator) : Option Slice := do
  let entry ← iterator.iter.key table
  valueOf entry.bytes

/-- What `key()` and `value()` answer from here on until the iterator is not valid. -/
def walk (table : MemTable) (move : MemTableIterator → Option MemTableIterator) :
    Nat → MemTableIterator → Option (List (Slice × Slice))
  | 0, _ => none
  | rounds + 1, iterator =>
      if iterator.valid then do
        let key ← iterator.key table
        let value ← iterator.value table
        let rest ← walk table move rounds (← move iterator)
        some ((key, value) :: rest)
      else some []

/-- `for (SeekToFirst(); Valid(); Next())`. The list has one node more than entries. -/
def forward (table : MemTable) : Option (List (Slice × Slice)) := do
  walk table (next table) table.nodes.length (← seekToFirst table)

/-- `for (SeekToLast(); Valid(); Prev())`. -/
def backward (user : Comparator) (table : MemTable) : Option (List (Slice × Slice)) := do
  walk table (prev user table) table.nodes.length (← seekToLast table)

section Walk

variable {user : Comparator} {table : MemTable} {rows front back : List (SkipList.Row Entry)}
  {shown : SkipList.Row Entry → Slice × Slice} {rounds : Nat}

/-- One round of a walk, at a row. -/
theorem walk_row {move : MemTableIterator → Option MemTableIterator}
    {row : SkipList.Row Entry} {after : MemTableIterator} {rest : List (Slice × Slice)}
    (layered : SkipList.Layered (Entry.compare user) table rows) (member : row ∈ rows)
    (key : MemTable.getLengthPrefixedSlice row.key.bytes = some (shown row).1)
    (value : valueOf row.key.bytes = some (shown row).2)
    (moved : move ⟨⟨some row.node⟩⟩ = some after)
    (walked : walk table move rounds after = some rest) :
    walk table move (rounds + 1) ⟨⟨some row.node⟩⟩ = some (shown row :: rest) := by
  have at_row : SkipList.Iterator.key table ⟨some row.node⟩ = some row.key :=
    SkipList.Iterator.key_eq layered member
  have reads : MemTableIterator.key table ⟨⟨some row.node⟩⟩ = some (shown row).1 := by
    simp only [MemTableIterator.key, at_row, Option.bind_eq_bind, Option.bind_some, key]
  have holds : MemTableIterator.value table ⟨⟨some row.node⟩⟩ = some (shown row).2 := by
    simp only [MemTableIterator.value, at_row, Option.bind_eq_bind, Option.bind_some, value]
  have valid : MemTableIterator.valid ⟨⟨some row.node⟩⟩ = true := rfl
  rw [walk, if_pos valid]
  simp only [reads, holds, moved, walked, Option.bind_eq_bind, Option.bind_some]

theorem walk_next (layered : SkipList.Layered (Entry.compare user) table (front ++ rows))
    (reads : ∀ row ∈ rows,
      MemTable.getLengthPrefixedSlice row.key.bytes = some (shown row).1 ∧
        valueOf row.key.bytes = some (shown row).2)
    (enough : rows.length < rounds) :
    walk table (next table) rounds ⟨⟨rows.head?.map SkipList.Row.node⟩⟩ =
      some (rows.map shown) := by
  induction rows generalizing front rounds with
  | nil =>
      obtain ⟨rounds, rfl⟩ := Nat.exists_eq_add_of_lt enough
      rfl
  | cons row rest ih =>
      obtain ⟨rounds, rfl⟩ := Nat.exists_eq_add_of_lt enough
      obtain ⟨key, value⟩ := reads row List.mem_cons_self
      have regroup : front ++ row :: rest = (front ++ [row]) ++ rest := by simp
      have later := ih (regroup ▸ layered)
        (fun other member => reads other (List.mem_cons_of_mem _ member))
        (by rw [List.length_cons]; omega : rest.length < (row :: rest).length + rounds)
      refine walk_row layered (by simp) key value ?_ later
      rw [next, SkipList.Iterator.next_eq layered, Option.map_some]

theorem walk_prev (order : ThreeWay user.compare)
    (layered : SkipList.Layered (Entry.compare user) table (rows ++ back))
    (reads : ∀ row ∈ rows,
      MemTable.getLengthPrefixedSlice row.key.bytes = some (shown row).1 ∧
        valueOf row.key.bytes = some (shown row).2)
    (enough : rows.length < rounds) :
    walk table (prev user table) rounds ⟨⟨rows.getLast?.map SkipList.Row.node⟩⟩ =
      some (rows.map shown).reverse := by
  induction rows using List.reverseRecOn generalizing back rounds with
  | nil =>
      obtain ⟨rounds, rfl⟩ := Nat.exists_eq_add_of_lt enough
      rfl
  | append_singleton rest row ih =>
      obtain ⟨rounds, rfl⟩ := Nat.exists_eq_add_of_lt enough
      obtain ⟨key, value⟩ := reads row (by simp)
      have regroup : rest ++ [row] ++ back = rest ++ row :: back := by simp
      rw [regroup] at layered
      have earlier := ih layered
        (fun other member => reads other (List.mem_append_left _ member))
        (by rw [List.length_append, List.length_singleton]; omega :
          rest.length < (rest ++ [row]).length + rounds)
      rw [List.getLast?_append_of_ne_nil _ (by simp), List.getLast?_singleton, Option.map_some,
        List.map_append, List.reverse_append]
      refine walk_row layered (by simp) key value ?_ earlier
      rw [prev, SkipList.Iterator.prev_eq (Entry.compare_threeWay order) layered, Option.map_some]

end Walk

/-- The iterator is at the entry of the version, or not valid. -/
def Shows (table : MemTable) (iterator : MemTableIterator) : Option Version → Prop
  | none => iterator.valid = false
  | some version => iterator.valid = true ∧
      iterator.key table = appendInternalKey [] ⟨version.key, version.sequence, version.type⟩ ∧
      iterator.value table = some version.value

section Entries

variable {user : Comparator} {table : MemTable} {rows : List (SkipList.Row Entry)}
  {versions : List Version}

theorem shows_row {row : SkipList.Row Entry} {version : Version}
    (layered : SkipList.Layered (Entry.compare user) table rows) (member : row ∈ rows)
    (same : row.key = version.entry) : Shows table ⟨⟨some row.node⟩⟩ (some version) := by
  have at_row : SkipList.Iterator.key table ⟨some row.node⟩ = some row.key :=
    SkipList.Iterator.key_eq layered member
  have appended := @appendInternalKey_eq ⟨version.key, version.sequence, version.type⟩
    version.sequence_le []
  refine ⟨rfl, ?_, ?_⟩
  · simp only [key, at_row, same, Option.bind_eq_bind, Option.bind_some, Version.entry_bytes,
      Version.read_bytes, appended, List.nil_append]
    rfl
  · simp only [value, at_row, same, Option.bind_eq_bind, Option.bind_some, Version.entry_bytes,
      Version.valueOf_bytes]

/-- `Seek` stops at the first version that is not before what is left of its target. -/
theorem seek_shows (order : ThreeWay user.compare)
    (layered : SkipList.Layered (Entry.compare user) table rows)
    (entries : rows.map SkipList.Row.key = versions.map Version.entry)
    {target : Slice} (long : 8 ≤ target.length % 2 ^ 32) :
    ∃ front back iterator, versions = front ++ back ∧
      (∀ version ∈ front, version.BeforeKey user (target.take (target.length % 2 ^ 32))) ∧
      (∀ version ∈ back, ¬ version.BeforeKey user (target.take (target.length % 2 ^ 32))) ∧
      seek user table target = some iterator ∧ Shows table iterator back.head? := by
  obtain ⟨entry, made, internalKey⟩ := encodeKey_entry long
  obtain ⟨frontRows, backRows, rfl, below, beyond⟩ :=
    (Entry.compare_threeWay order).split_increasing layered.increasing entry
  rw [List.map_append] at entries
  obtain ⟨front, back, rfl, frontSame, backSame⟩ := List.append_eq_map_iff.mp entries
  rw [← internalKey]
  refine ⟨front, back, ⟨⟨backRows.head?.map SkipList.Row.node⟩⟩, rfl, ?_, ?_, ?_, ?_⟩
  · intro version member
    obtain ⟨row, listed, same⟩ := List.mem_map.mp (frontSame ▸ List.mem_map_of_mem member)
    rw [← Version.compare_lt_iff_beforeKey, ← same]
    exact below row listed
  · intro version member
    obtain ⟨row, listed, same⟩ := List.mem_map.mp (backSame ▸ List.mem_map_of_mem member)
    rw [← Version.compare_lt_iff_beforeKey, ← same]
    exact beyond row listed
  · simp only [seek, made, Option.bind_eq_bind, Option.bind_some,
      SkipList.Iterator.seek_eq layered below beyond, Option.map_some]
  · cases backRows with
    | nil =>
        obtain rfl : back = [] := by simpa using backSame
        rfl
    | cons row later =>
        obtain ⟨version, rest, rfl, same, -⟩ := List.map_eq_cons_iff.mp backSame
        exact shows_row layered (by simp) same.symm

/-- Both walks pass all the versions. -/
theorem walks_versions (order : ThreeWay user.compare)
    (layered : SkipList.Layered (Entry.compare user) table rows)
    (entries : rows.map SkipList.Row.key = versions.map Version.entry) :
    ∃ passed, versions.mapM Version.shown = some passed ∧ forward table = some passed ∧
      backward user table = some passed.reverse := by
  let shown : Entry → Slice × Slice :=
    fun entry => (entry.internalKey, (valueOf entry.bytes).getD [])
  have reads : ∀ row ∈ rows,
      MemTable.getLengthPrefixedSlice row.key.bytes = some (shown row.key).1 ∧
        valueOf row.key.bytes = some (shown row.key).2 := by
    intro row member
    obtain ⟨version, held, same⟩ := List.mem_map.mp (entries ▸ List.mem_map_of_mem member)
    refine ⟨row.key.read.1, ?_⟩
    simp only [shown, ← same, Version.entry_bytes, Version.valueOf_bytes, Option.getD_some]
  have passed : versions.mapM Version.shown = some (rows.map fun row => shown row.key) := by
    have shownBy : Version.shown = fun version => some (shown version.entry) := by
      funext version
      simp only [shown, Version.shown_eq, Version.entry_internalKey, Version.entry_bytes,
        Version.valueOf_bytes, Option.getD_some]
    have regroup : (rows.map fun row => shown row.key) = versions.map (shown ∘ Version.entry) := by
      rw [← List.map_map, ← entries, List.map_map]
      rfl
    rw [shownBy, regroup]
    exact List.mapM_pure
  refine ⟨_, passed, ?_, ?_⟩
  · simp only [forward, seekToFirst, SkipList.Iterator.seekToFirst_eq layered,
      Option.map_some, Option.bind_eq_bind, Option.bind_some]
    exact @walk_next _ _ _ [] _ _ layered reads layered.length_lt
  · have whole : SkipList.Layered (Entry.compare user) table (rows ++ []) := by
      rwa [List.append_nil]
    simp only [backward, seekToLast, SkipList.Iterator.seekToLast_eq layered,
      Option.map_some, Option.bind_eq_bind, Option.bind_some]
    exact walk_prev order whole reads layered.length_lt

end Entries

/-- The iterator yields exactly what was added. Forward it passes each version once, in
the order of internal keys, and backward the same the other way round; `Seek` goes to the
first version that is not before its target. -/
theorem iterator_yields_added {user : Comparator} (order : ThreeWay.Lawful user.compare)
    (adds : List (Version × Nat))
    (heights : ∀ call ∈ adds, 0 < call.2 ∧ call.2 ≤ SkipList.kMaxHeight)
    (distinct : adds.Pairwise fun left right =>
      (left.1.key, left.1.sequence, left.1.type) ≠
        (right.1.key, right.1.sequence, right.1.type)) :
    ∃ table, ∃ versions : List Version, addAll user adds = some table ∧
      versions.Perm (adds.map Prod.fst) ∧ versions.Pairwise (Version.Before user) ∧
      (∃ passed, versions.mapM Version.shown = some passed ∧ forward table = some passed ∧
        backward user table = some passed.reverse) ∧
      ∀ target : Slice, 8 ≤ target.length → target.length < 2 ^ 32 →
        ∃ front back iterator, versions = front ++ back ∧
          (∀ version ∈ front, version.BeforeKey user target) ∧
          (∀ version ∈ back, ¬ version.BeforeKey user target) ∧
          seek user table target = some iterator ∧ Shows table iterator back.head? := by
  obtain ⟨table, rows, versions, ran, layered, entries, perm⟩ :=
    addAll_layered order adds heights distinct
  refine ⟨table, versions, ran, perm, ?_, walks_versions order.toThreeWay layered entries, ?_⟩
  · have increasing : (rows.map SkipList.Row.key).Pairwise fun left right =>
        Entry.compare user left right < 0 := List.pairwise_map.mpr layered.increasing
    rw [entries, List.pairwise_map] at increasing
    exact increasing.imp Version.compare_lt_iff_before.mp
  · intro target long short
    have whole : target.length % 2 ^ 32 = target.length := Nat.mod_eq_of_lt short
    have found := @seek_shows _ _ _ _ order.toThreeWay layered entries target
      (Nat.le_trans long (Nat.le_of_eq whole.symm))
    rwa [whole, List.take_length] at found

/-- A value and its deletion, which is the newer of the two and so comes first. -/
theorem iterator_yields_added_newest_first :
    ∃ table, addAll lexicographic
        [(⟨1, .kTypeValue, [0x61], [0x76], by decide, by decide, by decide⟩, 12),
          (⟨2, .kTypeDeletion, [0x61], [], by decide, by decide, by decide⟩, 3)] = some table ∧
      forward table = some [([0x61, 0, 2, 0, 0, 0, 0, 0, 0], []),
        ([0x61, 1, 1, 0, 0, 0, 0, 0, 0], [0x76])] ∧
      ∃ iterator, seek lexicographic table [0x61, 9, 1, 0, 0, 0, 0, 0, 0] = some iterator ∧
        iterator.value table = some [0x76] := by
  let value : Version := ⟨1, .kTypeValue, [0x61], [0x76], by decide, by decide, by decide⟩
  let deletion : Version := ⟨2, .kTypeDeletion, [0x61], [], by decide, by decide, by decide⟩
  obtain ⟨table, versions, ran, perm, ordered, ⟨passed, shown, walked, -⟩, sought⟩ :=
    iterator_yields_added lexicographic_lawful [(value, 12), (deletion, 3)] (by decide)
      (by decide)
  obtain rfl : versions = [deletion, value] := by
    have sorted : [deletion, value].Pairwise (Version.Before lexicographic) := by decide
    refine List.Perm.eq_of_pairwise ?_ ordered sorted (perm.trans (List.Perm.swap _ _ _))
    intro left right leftMember rightMember before after
    have leftOne := perm.mem_iff.mp leftMember
    simp only [List.map_cons, List.map_nil, List.mem_cons, List.not_mem_nil, or_false]
      at leftOne rightMember
    rcases leftOne with rfl | rfl <;> rcases rightMember with rfl | rfl
    · exact absurd before (by decide)
    · rfl
    · rfl
    · exact absurd after (by decide)
  obtain rfl := Option.some.inj (shown.symm.trans (by decide :
    [deletion, value].mapM Version.shown = some [([0x61, 0, 2, 0, 0, 0, 0, 0, 0], []),
      ([0x61, 1, 1, 0, 0, 0, 0, 0, 0], [0x76])]))
  obtain ⟨front, back, iterator, split, below, beyond, found, shows⟩ :=
    sought [0x61, 9, 1, 0, 0, 0, 0, 0, 0] (by decide) (by decide)
  obtain rfl : back = [value] := by
    rcases List.append_eq_cons_iff.mp split.symm with ⟨-, rfl⟩ | ⟨rest, rfl, later⟩
    · exact absurd (beyond deletion List.mem_cons_self) (by decide)
    · rcases List.append_eq_cons_iff.mp later.symm with ⟨-, rfl⟩ | ⟨rest, rfl, -⟩
      · rfl
      · exact absurd (below value (by simp)) (by decide)
  exact ⟨table, ran, walked, iterator, found, shows.2.2⟩

/-- A version of the empty key. -/
def emptyDeletion : Version :=
  ⟨0, .kTypeDeletion, [], [], by decide, by decide, by decide⟩

/-- A target of 2^32 bytes more than eight is taken for its first eight bytes, so `Seek`
stops at an entry that is before the target. -/
theorem seek_misplaced_by_long_target :
    ∃ table iterator, addAll lexicographic [(emptyDeletion, 1)] = some table ∧
      8 ≤ (List.replicate (2 ^ 32 + 8) 0 : Slice).length ∧
      emptyDeletion.BeforeKey lexicographic (List.replicate (2 ^ 32 + 8) 0) ∧
      seek lexicographic table (List.replicate (2 ^ 32 + 8) 0) = some iterator ∧
      Shows table iterator (some emptyDeletion) := by
  obtain ⟨table, rows, versions, ran, layered, entries, perm⟩ :=
    addAll_layered lexicographic_lawful [(emptyDeletion, 1)] (by decide) (by decide)
  obtain rfl : versions = [emptyDeletion] := List.perm_singleton.mp perm
  have size : (List.replicate (2 ^ 32 + 8) 0 : Slice).length = 2 ^ 32 + 8 :=
    List.length_replicate
  generalize target_eq : (List.replicate (2 ^ 32 + 8) 0 : Slice) = target at size
  have before : emptyDeletion.BeforeKey lexicographic target := by
    refine .inl ?_
    have first : target.take (target.length - 8) = 0 :: List.replicate (2 ^ 32 - 1) 0 := by
      rw [size, ← target_eq, List.take_replicate]
      exact List.replicate_succ
    have less : emptyDeletion.key < 0 :: List.replicate (2 ^ 32 - 1) 0 := List.nil_lt_cons _ _
    rw [first, lexicographic_compare, if_pos less]
    decide
  have cut : target.take (target.length % 2 ^ 32) = List.replicate 8 0 := by
    rw [size, ← target_eq, List.take_replicate]
    rfl
  obtain ⟨front, back, iterator, split, below, -, sought, shows⟩ :=
    @seek_shows _ _ _ _ lexicographic_lawful.toThreeWay layered entries target (by omega)
  rw [cut] at below
  obtain rfl : front = [] := by
    cases front with
    | nil => rfl
    | cons version rest =>
        obtain ⟨rfl, -⟩ := List.cons.inj split
        exact absurd (below _ List.mem_cons_self) (by decide)
  obtain rfl : [emptyDeletion] = back := split
  exact ⟨table, iterator, ran, by omega, before, sought, shows⟩

end MemTableIterator

end MiniLevelDb
