import MiniLevelDb.Db.KeyEncodings
import MiniLevelDb.Db.MemTableIterator
import MiniLevelDb.Util.Bloom

/-!
# Filters of internal keys

`InternalFilterPolicy` makes a filter of the user keys of internal keys, and looks a key up
by its user key. A filter of what is in a memtable may then be asked before the memtable is:
where it says no, `Get` finds nothing, at any sequence number.
-/

namespace MiniLevelDb

open Foundation

/-- `FilterPolicy`, as an interface. -/
structure FilterPolicy where
  name : String
  createFilter : List Slice → Slice → Slice
  keyMayMatch : Slice → Slice → Bool

/-- `BloomFilterPolicy` as a `FilterPolicy`. -/
def BloomFilterPolicy.policy (bloom : BloomFilterPolicy) : FilterPolicy where
  name := "leveldb.BuiltinBloomFilter2"
  createFilter := bloom.createFilter
  keyMayMatch := bloom.keyMayMatch

namespace InternalFilterPolicy

/-- `Name`. -/
def name (user : FilterPolicy) : String := user.name

/-- `CreateFilter`: what is left in `keys[]`, which it adjusts, and in `dst`. -/
def createFilter (user : FilterPolicy) (keys : List Slice) (dst : Slice) :
    Option (List Slice × Slice) := do
  let mkey ← keys.mapM extractUserKey
  some (mkey, user.createFilter mkey dst)

/-- `KeyMayMatch`. -/
def keyMayMatch (user : FilterPolicy) (key filter : Slice) : Option Bool := do
  let userKey ← extractUserKey key
  some (user.keyMayMatch userKey filter)

end InternalFilterPolicy

namespace FilterPolicy

/-- The contract of a filter policy with a comparator, which may ignore parts of the keys:
a filter is appended, and a key may match it if it compares as equal to a listed one. -/
def Follows (policy : FilterPolicy) (compare : Slice → Slice → Int) : Prop :=
  ∀ keys : List Slice, keys.length < 2 ^ 31 → ∀ dst, ∃ filter,
    policy.createFilter keys dst = dst ++ filter ∧
    ∀ listed ∈ keys, ∀ key, compare listed key = 0 → policy.keyMayMatch key filter = true

end FilterPolicy

/-- Bloom filters follow every comparator that tells different keys apart. -/
theorem BloomFilterPolicy.policy_follows (bloom : BloomFilterPolicy)
    {compare : Slice → Slice → Int} (order : ThreeWay.Lawful compare) :
    bloom.policy.Follows compare := by
  intro keys isInt dst
  refine ⟨_, bloom.createFilter_eq isInt dst, fun listed member key equal => ?_⟩
  obtain rfl := order.eq_of_zero listed key equal
  rw [policy, (bloom.keyMayMatch_built_iff bloom keys isInt dst _ listed
    (bloom.createFilter_eq isInt dst)).2]
  exact fun position probed => ⟨listed, member, probed⟩

namespace MemTable

section Search

variable {user : Comparator} {table : MemTable} {rows : List (SkipList.Row Entry)}

/-- `Get` finds nothing where no entry is of the user key of its lookup key. -/
theorem get_of_unlisted (order : ThreeWay user.compare)
    (layered : SkipList.Layered (Entry.compare user) table rows)
    {versions : List Version} (entries : rows.map SkipList.Row.key = versions.map Version.entry)
    {lookup : LookupKey} {target : Entry} (decoded : Entry.ofBytes lookup.memtableKey = some target)
    (unlisted : ∀ version ∈ versions, user.compare version.key lookup.userKey ≠ 0)
    (value : Slice) (status : Status) :
    get user table lookup value status = some (false, value, status) := by
  obtain ⟨front, back, rfl, below, beyond⟩ :=
    (Entry.compare_threeWay order).split_increasing layered.increasing target
  rw [get_eq layered below beyond decoded]
  cases back with
  | nil => rfl
  | cons first later =>
      have present : first ∈ front ++ first :: later := by simp
      obtain ⟨version, member, same⟩ :=
        List.mem_map.mp (entries ▸ List.mem_map_of_mem present)
      have answer := version.getEntry_eq user lookup value status
      rw [if_neg (unlisted version member)] at answer
      rw [← Version.entry_bytes, same] at answer
      exact answer

end Search

/-- What `extractUserKey` leaves of the keys that a walk passes. -/
theorem extract_shown {versions : List Version} {passed : List (Slice × Slice)}
    (shown : versions.mapM Version.shown = some passed) :
    (passed.map Prod.fst).mapM extractUserKey = some (versions.map Version.key) := by
  induction versions generalizing passed with
  | nil =>
      obtain rfl : [] = passed := Option.some.inj shown
      rfl
  | cons version rest ih =>
      rw [List.mapM_cons, Version.shown_eq] at shown
      obtain ⟨later, others, rfl⟩ : ∃ later, rest.mapM Version.shown = some later ∧
          (internalKeyOf version.key version.tag, version.value) :: later = passed := by
        cases others : rest.mapM Version.shown with
        | none => simp [others] at shown
        | some later => exact ⟨later, rfl, by simpa [others] using shown⟩
      rw [List.map_cons, List.mapM_cons, extractUserKey_internalKeyOf, ih others]
      rfl

end MemTable

open MemTable

/-- A filter of everything that a memtable's iterator passes, made by a policy that follows
the comparator, hides nothing: it answers for a lookup key as the policy does for the user
key, whatever the sequence number, and where it says no `Get` finds nothing. -/
theorem InternalFilterPolicy.hides_nothing {user : Comparator} (order : ThreeWay user.compare)
    {policy : FilterPolicy} (follows : policy.Follows user.compare)
    (adds : List (Version × Nat)) (count : adds.length < 2 ^ 31)
    (heights : ∀ call ∈ adds, 0 < call.2 ∧ call.2 ≤ SkipList.kMaxHeight)
    (distinct : adds.Pairwise fun left right =>
      ¬ (user.compare left.1.key right.1.key = 0 ∧ left.1.sequence = right.1.sequence ∧
        left.1.type = right.1.type))
    (dst : Slice) :
    ∃ table passed userKeys filter, addAll user adds = some table ∧
      MemTableIterator.forward table = some passed ∧
      createFilter policy (passed.map Prod.fst) dst = some (userKeys, dst ++ filter) ∧
      userKeys.Perm (adds.map fun call => call.1.key) ∧
      ∀ key : Slice, key.length + 8 < 2 ^ 32 → ∀ sequence ≤ kMaxSequenceNumber,
        ∃ lookup, LookupKey.new key sequence = some lookup ∧
          keyMayMatch policy lookup.internalKey filter = some (policy.keyMayMatch key filter) ∧
          (keyMayMatch policy lookup.internalKey filter = some false →
            ∀ value status, get user table lookup value status = some (false, value, status)) := by
  obtain ⟨table, rows, versions, ran, layered, entries, perm⟩ :=
    addAll_layered_apart order adds heights
      (distinct.imp fun differ zero => differ (Version.alike_of_compare_zero zero))
  obtain ⟨passed, shown, walked, _⟩ := MemTableIterator.walks_versions order layered entries
  have keys := perm.map Version.key
  rw [List.map_map] at keys
  have some_ : (versions.map Version.key).length < 2 ^ 31 := by
    rw [keys.length_eq, List.length_map]
    exact count
  obtain ⟨filter, made, matches_⟩ := follows (versions.map Version.key) some_ dst
  refine ⟨table, passed, versions.map Version.key, filter, ran, walked, ?_, keys, ?_⟩
  · rw [createFilter, extract_shown shown, ← made]
    rfl
  intro key small sequence bound
  obtain ⟨lookup, target, new, userKey, decoded, _⟩ := lookup_entry small bound
  have extracted : extractUserKey lookup.internalKey = some key := by
    obtain ⟨again, internal, alsoNew, appended, -, inside, -⟩ := LookupKey.new_parts key bound
    obtain rfl := Option.some.inj (new.symm.trans alsoNew)
    rw [appendInternalKey_eq bound, List.nil_append, Option.some.injEq] at appended
    rw [inside, ← appended, extractUserKey_internalKeyOf]
  have answer : keyMayMatch policy lookup.internalKey filter =
      some (policy.keyMayMatch key filter) := by
    rw [keyMayMatch, extracted]
    rfl
  refine ⟨lookup, new, answer, fun no value status => ?_⟩
  rw [answer, Option.some.injEq] at no
  apply get_of_unlisted order layered entries decoded
  intro version member equal
  rw [userKey] at equal
  have yes := matches_ version.key (List.mem_map_of_mem member) key equal
  rw [no] at yes
  cases yes

/-- A value and its deletion, in a Bloom filter of ten bits a key behind another filter; it
says no to another key. -/
theorem InternalFilterPolicy.hides_nothing_bloom :
    let bloom := BloomFilterPolicy.new 10 (by decide) 6
    ∃ table filter lookup,
      addAll lexicographic
        [(⟨1, .kTypeValue, [0x61], [0x76], by decide, by decide, by decide⟩, 12),
          (⟨2, .kTypeDeletion, [0x61], [], by decide, by decide, by decide⟩, 3)] = some table ∧
      bloom.createFilter [[0x61], [0x61]] [1, 2] = [1, 2] ++ filter ∧
      LookupKey.new [0x62] 5 = some lookup ∧
      keyMayMatch bloom.policy lookup.internalKey filter = some false ∧
      get lexicographic table lookup [] .ok = some (false, [], .ok) := by
  intro bloom
  obtain ⟨table, passed, userKeys, filter, ran, _, made, keys, answers⟩ :=
    InternalFilterPolicy.hides_nothing lexicographic_lawful.toThreeWay
      (bloom.policy_follows lexicographic_lawful)
      [(⟨1, .kTypeValue, [0x61], [0x76], by decide, by decide, by decide⟩, 12),
        (⟨2, .kTypeDeletion, [0x61], [], by decide, by decide, by decide⟩, 3)]
      (by decide) (by decide) (by decide) [1, 2]
  have same : userKeys.Perm (List.replicate 2 [0x61]) := keys
  obtain rfl := List.perm_replicate.mp same
  obtain ⟨adjusted, extracted, built⟩ := Option.bind_eq_some_iff.mp made
  obtain ⟨rfl, filtered⟩ := Prod.mk.inj (Option.some.inj built)
  obtain ⟨lookup, new, answer, hidden⟩ := answers [0x62] (by decide) 5 (by decide)
  have no : bloom.policy.keyMayMatch [0x62] filter = false := by
    have computed : bloom.policy.createFilter (List.replicate 2 [0x61]) [1, 2] =
        [1, 2] ++ [8, 16, 32, 64, 128, 0, 1, 0, 6] := by decide +kernel
    rw [computed, List.append_cancel_left_eq] at filtered
    subst filtered
    decide +kernel
  rw [no] at answer
  exact ⟨table, filter, lookup, ran, filtered, new, answer, hidden answer [] .ok⟩

end MiniLevelDb
