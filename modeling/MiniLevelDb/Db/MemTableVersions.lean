import MiniLevelDb.Db.MemTable
import MiniLevelDb.Util.CodingStream
import Mathlib.Data.List.Perm.Basic

/-!
# The memtable as a versioned map

A version is what one call of `Add` stores. The entries of one user key stand from the
newest version to the oldest, and the tag of a lookup key is at least the tag of every
version it may see, so the search stops at the newest of these.
-/

namespace MiniLevelDb

open Foundation

namespace MemTable

/-- The arguments of a call of `Add`, within the bounds of the format. -/
structure Version where
  sequence : SequenceNumber
  type : ValueType
  key : Slice
  value : Slice
  sequence_le : sequence ≤ kMaxSequenceNumber
  key_lt : key.length + 8 < 2 ^ 32
  value_lt : value.length < 2 ^ 32

/-- A run of `Add` calls, each with the height its node gets. -/
def addAll (user : Comparator) (adds : List (Version × Nat)) : Option MemTable := do
  let table ← SkipList.new
  adds.foldlM (fun table call =>
    add user table call.1.sequence call.1.type call.1.key call.1.value call.2) table

theorem getLengthPrefixedSlice_encode {bytes : Slice} (small : bytes.length < 2 ^ 32)
    (tail : Slice) :
    getLengthPrefixedSlice
      (encodeVarint32 (BitVec.ofNat 32 bytes.length) ++ (bytes ++ tail)) = some bytes := by
  simp only [getLengthPrefixedSlice, Option.bind_eq_bind, Option.bind_some,
    getVarint32Ptr_encodeVarint32 _ _ (length_encodeVarint32_le _)]
  have size : (BitVec.ofNat 32 bytes.length).toNat = bytes.length := by
    rw [BitVec.toNat_ofNat, Nat.mod_eq_of_lt small]
  simp [bytesAt, size]

theorem varintLength_length {bytes : Nat} (small : bytes < 2 ^ 32) :
    varintLength (BitVec.ofNat 64 bytes) =
      (encodeVarint32 (BitVec.ofNat 32 bytes)).length := by
  rw [← varintLength_encodeVarint32]
  refine congrArg varintLength ?_
  apply BitVec.eq_of_toNat_eq
  rw [BitVec.toNat_setWidth, BitVec.toNat_ofNat, BitVec.toNat_ofNat]
  omega

namespace Version

def tag (version : Version) : BitVec 64 := version.sequence <<< 8 ||| version.type.code

def bytes (version : Version) : Slice :=
  encodeEntry version.sequence version.type version.key version.value

theorem bytes_eq (version : Version) :
    version.bytes = encodeVarint32 (BitVec.ofNat 32 (version.key.length + 8)) ++
      (internalKeyOf version.key version.tag ++
        (encodeVarint32 (BitVec.ofNat 32 version.value.length) ++ (version.value ++ []))) := by
  simp [bytes, encodeEntry, internalKeyOf, tag]

theorem read_bytes (version : Version) :
    getLengthPrefixedSlice version.bytes = some (internalKeyOf version.key version.tag) := by
  rw [bytes_eq, ← length_internalKeyOf version.key version.tag]
  exact getLengthPrefixedSlice_encode (by simpa using version.key_lt) _

/-- The entry a version becomes. -/
def entry (version : Version) : Entry :=
  ⟨version.bytes, by rw [read_bytes]; simp⟩

@[simp] theorem entry_bytes (version : Version) : version.entry.bytes = version.bytes := rfl

@[simp] theorem entry_internalKey (version : Version) :
    version.entry.internalKey = internalKeyOf version.key version.tag := by
  simp [Entry.internalKey, entry, read_bytes]

@[simp] theorem entry_userKey (version : Version) : version.entry.userKey = version.key := by
  simp [Entry.userKey]

@[simp] theorem entry_tag (version : Version) :
    version.entry.tag = version.sequence.toNat * 256 + version.type.code.toNat := by
  rw [Entry.tag, entry_internalKey, tagOf_internalKeyOf]
  exact toNat_tag version.sequence_le version.type

theorem length_bytes (version : Version) :
    version.bytes.length = varintLength (BitVec.ofNat 64 (version.key.length + 8)) +
      (version.key.length + 8) + varintLength (BitVec.ofNat 64 version.value.length) +
      version.value.length := by
  rw [varintLength_length version.key_lt, varintLength_length version.value_lt]
  simp [bytes_eq]
  omega

/-- `Add` inserts the entry of its version. -/
theorem add_eq (user : Comparator) (table : MemTable) (version : Version) (height : Nat) :
    add user table version.sequence version.type version.key version.value height =
      SkipList.insert (Entry.compare user) table version.entry height := by
  have readable : Entry.ofBytes version.bytes = some version.entry :=
    dif_pos version.entry.readable
  have length := version.length_bytes
  simp only [bytes] at readable length
  simp only [add, if_pos length, readable, Option.bind_eq_bind, Option.bind_some]

/-- What `Get` does when it stops at the entry of a version. -/
theorem getEntry_eq (user : Comparator) (version : Version) (key : LookupKey) (value : Slice)
    (status : Status) :
    getEntry user version.bytes key value status =
      some (if user.compare version.key key.userKey = 0 then
        match version.type with
        | .kTypeValue => (true, version.value, status)
        | .kTypeDeletion => (true, value, .notFound "")
      else (false, value, status)) := by
  have size : (BitVec.ofNat 32 (version.key.length + 8)).toNat = version.key.length + 8 := by
    rw [BitVec.toNat_ofNat, Nat.mod_eq_of_lt version.key_lt]
  have userSize : (BitVec.ofNat 32 (version.key.length + 8) - 8).toNat = version.key.length := by
    have small := version.key_lt
    rw [BitVec.toNat_sub, size]
    simp
    omega
  rw [bytes_eq]
  simp only [getEntry, getVarint32Ptr_encodeVarint32 _ _ (length_encodeVarint32_le _),
    Option.bind_eq_bind, Option.bind_some, size, userSize, Nat.add_sub_cancel]
  generalize rest : encodeVarint32 (BitVec.ofNat 32 version.value.length) ++
    (version.value ++ []) = tail
  have stored : getLengthPrefixedSlice tail = some version.value :=
    rest ▸ getLengthPrefixedSlice_encode version.value_lt []
  have userKey : bytesAt (internalKeyOf version.key version.tag ++ tail) version.key.length =
      some version.key := by
    simp [bytesAt, internalKeyOf]
  have tagged : decodeFixed64
      ((internalKeyOf version.key version.tag ++ tail).drop version.key.length) =
        version.tag := by
    simp [internalKeyOf, decodeFixed64_encodeFixed64]
  have behind : (internalKeyOf version.key version.tag ++ tail).drop (version.key.length + 8) =
      tail :=
    List.drop_left' (length_internalKeyOf _ _)
  have code : version.tag &&& 0xff = version.type.code :=
    tag_and_255 version.sequence_le version.type
  simp only [userKey, tagged, behind, stored, code, Option.bind_some]
  by_cases equal : user.compare version.key key.userKey = 0
  · rw [if_pos equal, if_pos equal]
    cases version.type with
    | kTypeDeletion => rfl
    | kTypeValue => rfl
  · rw [if_neg equal, if_neg equal]

end Version

/-- A run of `Add` calls is a run of insertions. -/
theorem addAll_eq (user : Comparator) (adds : List (Version × Nat)) :
    addAll user adds = SkipList.insertAll (Entry.compare user)
      (adds.map fun call => (call.1.entry, call.2)) := by
  unfold addAll SkipList.insertAll
  simp only [List.foldlM_map, Version.add_eq]

namespace Entry

variable {user : Comparator} {left right : Entry}

/-- Entries of one user key stand from the greatest tag to the least. -/
theorem compare_lt_iff_of_tie (tie : user.compare left.userKey right.userKey = 0) :
    compare user left right < 0 ↔ right.tag < left.tag := by
  rw [compare_eq, if_pos tie]
  split
  · omega
  · split <;> omega

theorem userKey_le_of_compare_le (le : compare user left right ≤ 0) :
    user.compare left.userKey right.userKey ≤ 0 := by
  rw [compare_eq] at le
  split at le <;> omega

end Entry

namespace Version

/-- A lookup of `key` at `sequence` may see the version. -/
def Visible (user : Comparator) (key : Slice) (sequence : SequenceNumber) (version : Version) :
    Prop :=
  user.compare version.key key = 0 ∧ version.sequence ≤ sequence

/-- The order of versions by sequence number and then by type. -/
def NotNewer (other version : Version) : Prop :=
  other.sequence < version.sequence ∨
    (other.sequence = version.sequence ∧ other.type.code ≤ version.type.code)

instance (user : Comparator) (key : Slice) (sequence : SequenceNumber) (version : Version) :
    Decidable (version.Visible user key sequence) :=
  inferInstanceAs (Decidable (_ ∧ _))

instance (other version : Version) : Decidable (NotNewer other version) :=
  inferInstanceAs (Decidable (_ ∨ _))

theorem code_le_one (type : ValueType) : type.code.toNat ≤ 1 := by
  cases type <;> decide

theorem tag_le_of_notNewer {other version : Version} (notNewer : NotNewer other version) :
    other.entry.tag ≤ version.entry.tag := by
  have := code_le_one other.type
  rw [entry_tag, entry_tag]
  rcases notNewer with older | ⟨same, type⟩
  · have : other.sequence.toNat < version.sequence.toNat := older
    omega
  · have : other.type.code.toNat ≤ version.type.code.toNat := type
    rw [same]
    omega

/-- The tag of a lookup key is the bound between what it may see and what it may not. -/
theorem tag_le_iff (version : Version) (sequence : SequenceNumber) :
    version.entry.tag ≤ sequence.toNat * 256 + 1 ↔ version.sequence ≤ sequence := by
  have := code_le_one version.type
  rw [entry_tag, BitVec.le_def]
  omega

/-- Two versions with one entry are alike. -/
theorem alike_of_compare_zero {user : Comparator} {left right : Version}
    (zero : Entry.compare user left.entry right.entry = 0) :
    user.compare left.key right.key = 0 ∧ left.sequence = right.sequence ∧
      left.type = right.type := by
  rw [Entry.compare_eq, entry_userKey, entry_userKey] at zero
  have tie : user.compare left.key right.key = 0 := by
    by_contra apart
    rw [if_neg apart] at zero
    exact apart zero
  rw [if_pos tie, entry_tag, entry_tag] at zero
  have leftCode := code_le_one left.type
  have rightCode := code_le_one right.type
  have tags : left.sequence.toNat * 256 + left.type.code.toNat =
      right.sequence.toNat * 256 + right.type.code.toNat := by
    split at zero
    · omega
    · split at zero <;> omega
  have sequences : left.sequence = right.sequence := BitVec.eq_of_toNat_eq (by omega)
  have codes : left.type.code = right.type.code := BitVec.eq_of_toNat_eq (by omega)
  have types : left.type = right.type := by
    revert codes
    cases left.type <;> cases right.type <;> decide
  exact ⟨tie, sequences, types⟩

/-- Different versions have different entries. -/
theorem compare_ne_zero {user : Comparator} (order : ThreeWay.Lawful user.compare)
    {left right : Version}
    (differ : (left.key, left.sequence, left.type) ≠ (right.key, right.sequence, right.type)) :
    Entry.compare user left.entry right.entry ≠ 0 := by
  intro zero
  obtain ⟨tie, sequences, types⟩ := alike_of_compare_zero zero
  exact differ (by rw [order.eq_of_zero _ _ tie, sequences, types])

end Version

/-- A lookup key is an entry itself. -/
theorem lookup_entry {key : Slice} {sequence : SequenceNumber} (small : key.length + 8 < 2 ^ 32)
    (bound : sequence ≤ kMaxSequenceNumber) :
    ∃ lookup target, LookupKey.new key sequence = some lookup ∧ lookup.userKey = key ∧
      Entry.ofBytes lookup.memtableKey = some target ∧ target.userKey = key ∧
      target.tag = sequence.toNat * 256 + 1 := by
  obtain ⟨lookup, made, bytes, userKey⟩ := LookupKey.new_spec key bound
  have read : getLengthPrefixedSlice lookup.memtableKey =
      some (internalKeyOf key (sequence <<< 8 ||| kValueTypeForSeek.code)) := by
    have prefixed := @getLengthPrefixedSlice_encode
      (internalKeyOf key (sequence <<< 8 ||| kValueTypeForSeek.code)) (by simpa using small) []
    rwa [length_internalKeyOf, List.append_nil, ← bytes] at prefixed
  have readable : ((getLengthPrefixedSlice lookup.memtableKey).bind extractUserKey).isSome := by
    simp [read]
  refine ⟨lookup, ⟨lookup.memtableKey, readable⟩, made, userKey, dif_pos readable, ?_, ?_⟩
  · simp [Entry.userKey, Entry.internalKey, read]
  · simp only [Entry.tag, Entry.internalKey, read, Option.getD_some, tagOf_internalKeyOf]
    exact toNat_tag bound kValueTypeForSeek

section Search

variable {user : Comparator} {table : MemTable} {front back : List (SkipList.Row Entry)}
  {lookup : LookupKey} {target : Entry}

/-- `Get` looks at the first entry that is not before the lookup key. -/
theorem get_eq (layered : SkipList.Layered (Entry.compare user) table (front ++ back))
    (below : ∀ row ∈ front, Entry.compare user row.key target < 0)
    (beyond : ∀ row ∈ back, ¬ Entry.compare user row.key target < 0)
    (decoded : Entry.ofBytes lookup.memtableKey = some target) (value : Slice)
    (status : Status) :
    get user table lookup value status =
      match back.head? with
      | none => some (false, value, status)
      | some row => getEntry user row.key.bytes lookup value status := by
  obtain ⟨after, found, -⟩ :=
    @SkipList.findGreaterOrEqual_spec _ _ _ _ _ _ layered below beyond none (by simp)
  simp only [get, decoded, found, Option.bind_eq_bind, Option.bind_some]
  cases back with
  | nil => rfl
  | cons row later =>
      have stored := (layered.stored row (by simp)).1
      simp [stored]

/-- An entry of the lookup's user key that stands behind the entry the search stops at
has a smaller tag, and both are of that user key. -/
theorem stop_newer (order : ThreeWay user.compare) {first later : Entry}
    (reached : ¬ Entry.compare user first target < 0)
    (ordered : Entry.compare user first later < 0)
    (tie : user.compare later.userKey target.userKey = 0) :
    user.compare first.userKey target.userKey = 0 ∧ later.tag < first.tag := by
  have entries := Entry.compare_threeWay order
  have upper : user.compare first.userKey later.userKey ≤ 0 :=
    Entry.userKey_le_of_compare_le (Int.le_of_lt ordered)
  have lower : user.compare target.userKey first.userKey ≤ 0 :=
    Entry.userKey_le_of_compare_le (entries.le_iff_not_lt.mpr reached)
  have le : user.compare first.userKey target.userKey ≤ 0 :=
    order.trans _ _ _ upper (Int.le_of_eq tie)
  have ge : ¬ user.compare first.userKey target.userKey < 0 := order.le_iff_not_lt.mp lower
  have above : ¬ user.compare first.userKey later.userKey < 0 := by
    apply order.le_iff_not_lt.mp
    exact order.trans _ _ _ (Int.le_of_eq tie) lower
  exact ⟨by omega, (Entry.compare_lt_iff_of_tie (by omega)).mp ordered⟩

/-- The search stops at the entry of the lookup's user key with the greatest tag, if it
reaches one at all. -/
theorem head?_of_greatest_tag (order : ThreeWay user.compare)
    (increasing : back.Pairwise fun left right => Entry.compare user left.key right.key < 0)
    (beyond : ∀ row ∈ back, ¬ Entry.compare user row.key target < 0)
    {row : SkipList.Row Entry} (member : row ∈ back)
    (tie : user.compare row.key.userKey target.userKey = 0)
    (greatest : ∀ other ∈ back, user.compare other.key.userKey target.userKey = 0 →
      other.key.tag ≤ row.key.tag) : back.head? = some row := by
  cases back with
  | nil => cases member
  | cons first later =>
      rcases List.mem_cons.mp member with rfl | behind
      · rfl
      · have ordered := (List.pairwise_cons.mp increasing).1 row behind
        obtain ⟨firstTie, newer⟩ :=
          stop_newer order (beyond first List.mem_cons_self) ordered tie
        exact absurd newer (Nat.not_lt.mpr (greatest first List.mem_cons_self firstTie))

end Search

/-- A run of `Add` calls whose entries are apart builds a layered list of them. -/
theorem addAll_layered_apart {user : Comparator} (order : ThreeWay user.compare)
    (adds : List (Version × Nat))
    (heights : ∀ call ∈ adds, 0 < call.2 ∧ call.2 ≤ SkipList.kMaxHeight)
    (apart : adds.Pairwise fun left right =>
      Entry.compare user left.1.entry right.1.entry ≠ 0) :
    ∃ table rows, ∃ versions : List Version, addAll user adds = some table ∧
      SkipList.Layered (Entry.compare user) table rows ∧
      rows.map SkipList.Row.key = versions.map Version.entry ∧
      versions.Perm (adds.map Prod.fst) := by
  have tall : ∀ call ∈ adds.map fun call => (call.1.entry, call.2),
      0 < call.2 ∧ call.2 ≤ SkipList.kMaxHeight := by
    intro call member
    obtain ⟨added, present, rfl⟩ := List.mem_map.mp member
    exact heights added present
  obtain ⟨table, rows, ran, layered, perm⟩ := SkipList.insertAll_layered
    (Entry.compare_threeWay order) _ tall (List.pairwise_map.mpr apart)
  have entries : (rows.map SkipList.Row.key).Perm ((adds.map Prod.fst).map Version.entry) := by
    have keys := perm.map Prod.fst
    rw [List.map_map, List.map_map] at keys
    rw [List.map_map]
    exact keys
  have paired : List.Forall₂ (fun entry version => entry = Version.entry version)
      ((adds.map Prod.fst).map Version.entry) (adds.map Prod.fst) :=
    List.forall₂_map_left_iff.mpr (List.forall₂_same.mpr fun _ _ => rfl)
  obtain ⟨versions, same, reordered⟩ := List.perm_comp_forall₂ entries paired
  refine ⟨table, rows, versions, (addAll_eq user adds).trans ran, layered, ?_, reordered⟩
  rw [← List.forall₂_eq_eq_eq, List.forall₂_map_right_iff]
  exact same

/-- A run of `Add` calls of different versions builds a layered list of their entries. -/
theorem addAll_layered {user : Comparator} (order : ThreeWay.Lawful user.compare)
    (adds : List (Version × Nat))
    (heights : ∀ call ∈ adds, 0 < call.2 ∧ call.2 ≤ SkipList.kMaxHeight)
    (distinct : adds.Pairwise fun left right =>
      (left.1.key, left.1.sequence, left.1.type) ≠
        (right.1.key, right.1.sequence, right.1.type)) :
    ∃ table rows, ∃ versions : List Version, addAll user adds = some table ∧
      SkipList.Layered (Entry.compare user) table rows ∧
      rows.map SkipList.Row.key = versions.map Version.entry ∧
      versions.Perm (adds.map Prod.fst) := by
  apply addAll_layered_apart order.toThreeWay adds heights
  apply distinct.imp
  intro left right differ
  exact Version.compare_ne_zero order differ

/-- A memtable is a versioned map: whatever the order of the `Add` calls, the heights
and the comparator, `Get` answers by the newest version its lookup key may see, and
leaves what it does not set as it was. -/
theorem get_newest_visible {user : Comparator} (order : ThreeWay.Lawful user.compare)
    (adds : List (Version × Nat))
    (heights : ∀ call ∈ adds, 0 < call.2 ∧ call.2 ≤ SkipList.kMaxHeight)
    (distinct : adds.Pairwise fun left right =>
      (left.1.key, left.1.sequence, left.1.type) ≠
        (right.1.key, right.1.sequence, right.1.type))
    (key : Slice) (small : key.length + 8 < 2 ^ 32) (sequence : SequenceNumber)
    (bound : sequence ≤ kMaxSequenceNumber) :
    ∃ table lookup, addAll user adds = some table ∧
      LookupKey.new key sequence = some lookup ∧
      ∀ value status,
        ((∀ call ∈ adds, ¬ call.1.Visible user key sequence) →
          get user table lookup value status = some (false, value, status)) ∧
        ∀ call ∈ adds, call.1.Visible user key sequence →
          (∀ other ∈ adds, other.1.Visible user key sequence → other.1.NotNewer call.1) →
          (call.1.type = .kTypeValue →
            get user table lookup value status = some (true, call.1.value, status)) ∧
          (call.1.type = .kTypeDeletion →
            get user table lookup value status = some (true, value, .notFound "")) := by
  obtain ⟨table, rows, versions, ran, layered, entries, perm⟩ :=
    addAll_layered order adds heights distinct
  have stored : ∀ row ∈ rows, ∃ call ∈ adds, row.key = call.1.entry := by
    intro row member
    obtain ⟨version, held, same⟩ := List.mem_map.mp (entries ▸ List.mem_map_of_mem member)
    obtain ⟨call, added, rfl⟩ := List.mem_map.mp (perm.mem_iff.mp held)
    exact ⟨call, added, same.symm⟩
  have listed : ∀ call ∈ adds, ∃ row ∈ rows, row.key = call.1.entry := by
    intro call member
    have held := perm.mem_iff.mpr (List.mem_map_of_mem member)
    exact List.mem_map.mp (entries ▸ List.mem_map_of_mem held)
  obtain ⟨lookup, target, made, lookupKey, decoded, targetKey, targetTag⟩ :=
    lookup_entry small bound
  have entries := Entry.compare_threeWay order.toThreeWay
  obtain ⟨front, back, rfl, below, beyond⟩ :=
    entries.split_increasing layered.increasing target
  have visible_of_reached : ∀ version : Version, user.compare version.key key = 0 →
      ¬ Entry.compare user version.entry target < 0 → version.Visible user key sequence := by
    intro version tie reached
    refine ⟨tie, (version.tag_le_iff sequence).mp ?_⟩
    rw [Entry.compare_lt_iff_of_tie (by simpa [targetKey] using tie)] at reached
    omega
  refine ⟨table, lookup, ran, made, fun value status => ⟨fun nothing => ?_, ?_⟩⟩
  · rw [get_eq layered below beyond decoded]
    cases back with
    | nil => rfl
    | cons first later =>
        obtain ⟨call, member, same⟩ := stored first (by simp)
        have reached := beyond first (by simp)
        have answer := call.1.getEntry_eq user lookup value status
        rw [lookupKey, if_neg] at answer
        · simpa [same] using answer
        · intro tie
          exact nothing call member (visible_of_reached call.1 tie (same ▸ reached))
  · intro call member visible newest
    obtain ⟨row, present, same⟩ := listed call member
    have tie : user.compare row.key.userKey target.userKey = 0 := by
      rw [same, targetKey, Version.entry_userKey]
      exact visible.1
    have reached : ¬ Entry.compare user row.key target < 0 := by
      rw [Entry.compare_lt_iff_of_tie tie, same, targetTag]
      have := (call.1.tag_le_iff sequence).mpr visible.2
      omega
    have inBack : row ∈ back := by
      rcases List.mem_append.mp present with before | after
      · exact absurd (below row before) reached
      · exact after
    have first : back.head? = some row := by
      refine head?_of_greatest_tag order.toThreeWay
        (List.pairwise_append.mp layered.increasing).2.1 beyond inBack tie ?_
      -- an entry of the key that the search reaches is visible, so it is not newer
      intro other otherIn otherTie
      obtain ⟨added, addedMember, otherSame⟩ := stored other (List.mem_append_right _ otherIn)
      have otherReached := beyond other otherIn
      rw [otherSame] at otherTie otherReached ⊢
      rw [targetKey, Version.entry_userKey] at otherTie
      rw [same]
      exact Version.tag_le_of_notNewer
        (newest added addedMember (visible_of_reached added.1 otherTie otherReached))
    have answer := call.1.getEntry_eq user lookup value status
    rw [lookupKey, if_pos visible.1] at answer
    rw [get_eq layered below beyond decoded, first]
    refine ⟨fun typed => ?_, fun typed => ?_⟩
    · rw [typed] at answer
      simpa [same] using answer
    · rw [typed] at answer
      simpa [same] using answer

/-- The unsigned lexicographic order as a comparator that keeps its contract. -/
def lexicographic : Comparator :=
  { bytewiseComparator with
    compare := fun left right => if left < right then -1 else if right < left then 1 else 0 }

theorem lexicographic_compare (left right : Slice) : lexicographic.compare left right =
    if left < right then -1 else if right < left then 1 else 0 := rfl

theorem lexicographic_lawful : ThreeWay.Lawful lexicographic.compare where
  swap left right := by
    have := @List.lt_asymm (BitVec 8) _ _ left right
    rw [lexicographic_compare, lexicographic_compare]
    split <;> split <;> simp_all
  trans left middle right := by
    intro first second
    have le_of_compare : ∀ {low high : Slice}, lexicographic.compare low high ≤ 0 →
        low ≤ high := by
      intro low high le above
      have := List.lt_asymm above
      simp [lexicographic_compare, above, this] at le
    have ordered : ¬ right < left :=
      List.le_trans (le_of_compare first) (le_of_compare second)
    rw [lexicographic_compare, if_neg ordered]
    split <;> decide
  eq_of_zero left right zero := by
    rw [lexicographic_compare] at zero
    by_cases less : left < right
    · simp [less] at zero
    · by_cases greater : right < left
      · simp [less, greater] at zero
      · exact List.le_antisymm greater less

/-- A value, then its deletion, looked up at the time of the value. -/
theorem get_newest_visible_below_deletion :
    ∃ table lookup,
      addAll lexicographic
        [(⟨2, .kTypeDeletion, [0x61], [], by decide, by decide, by decide⟩, 3),
          (⟨1, .kTypeValue, [0x61], [0x76], by decide, by decide, by decide⟩, 12)] =
        some table ∧
      LookupKey.new [0x61] 1 = some lookup ∧
      get lexicographic table lookup [] .ok = some (true, [0x76], .ok) := by
  obtain ⟨table, lookup, ran, made, answers⟩ := get_newest_visible lexicographic_lawful
    [(⟨2, .kTypeDeletion, [0x61], [], by decide, by decide, by decide⟩, 3),
      (⟨1, .kTypeValue, [0x61], [0x76], by decide, by decide, by decide⟩, 12)]
    (by decide) (by decide) [0x61] (by decide) 1 (by decide)
  refine ⟨table, lookup, ran, made, ?_⟩
  exact ((answers [] .ok).2 _ (List.mem_cons_of_mem _ List.mem_cons_self) (by decide)
    (by decide)).1 rfl

end MemTable

end MiniLevelDb
