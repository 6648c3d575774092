import MiniLevelDb.Db.MemTableIterator
import MiniLevelDb.Db.MemTableReaders
import Mathlib.Data.Set.List

/-!
# Scans beside `Add`

A memtable is gone through with its iterator, forward from its first entry or from a target,
while another thread adds to it. What is yielded are versions that were added, each once and
in order, with the keys and the values they were added with; and of those that were there
when the scan was asked for, all.
-/

namespace MiniLevelDb

open Foundation
open SkipList (System Row)

namespace MemTable

/-- A version can be read back from its entry. -/
theorem Version.entry_injective : Function.Injective Version.entry := by
  intro left right same
  have keys := congrArg Entry.userKey same
  have sequences := congrArg (fun entry => tagOf entry.internalKey >>> 8) same
  have codes := congrArg (fun entry => tagOf entry.internalKey &&& 0xff) same
  have values := congrArg (fun entry => valueOf entry.bytes) same
  rw [entry_userKey, entry_userKey] at keys
  rw [left.entry_parts.1, right.entry_parts.1] at sequences
  rw [left.entry_parts.2, right.entry_parts.2] at codes
  rw [entry_bytes, entry_bytes, valueOf_bytes, valueOf_bytes, Option.some.injEq] at values
  have types : left.type = right.type := by
    revert codes
    cases left.type <;> cases right.type <;> decide
  obtain ⟨⟩ := left
  obtain ⟨⟩ := right
  dsimp only at keys sequences types values
  subst keys sequences types values
  rfl

end MemTable

open MemTable

namespace MemTableIterator

/-- `SeekToFirst`, or `Seek` with the steps of its search among those of the other threads;
and which versions are asked for. -/
inductive Starts (user : Comparator) (asked : System Entry) :
    (Version → Prop) → System Entry → MemTableIterator → Prop where
  | first {iterator : MemTableIterator} (begins : seekToFirst asked.list = some iterator) :
      Starts user asked (fun _ => True) asked iterator
  | seek {k : Slice} {target : Entry} {thread : Nat} {answered : System Entry}
      {result : Option NodePtr} (long : 8 ≤ k.length) (short : k.length < 2 ^ 32)
      (made : Entry.ofBytes (encodeKey k) = some target)
      (searches : System.Searches (Entry.compare user) thread target asked answered result) :
      Starts user asked (fun version => ¬ version.BeforeKey user k) answered ⟨⟨result⟩⟩

/-- A number of rounds of `key`, `value` and `Next`, and what they read; the other threads
move before each call. -/
inductive Scans (user : Comparator) :
    System Entry → MemTableIterator → List (Slice × Slice) → System Entry →
      MemTableIterator → Prop where
  | stop {system : System Entry} {iterator : MemTableIterator} :
      Scans user system iterator [] system iterator
  | look {system looked valued moving later : System Entry}
      {iterator following last : MemTableIterator} {key value : Slice}
      {items : List (Slice × Slice)}
      (waits : Relation.ReflTransGen (System.Moves (Entry.compare user)) system looked)
      (read : iterator.key looked.list = some key)
      (holds : Relation.ReflTransGen (System.Moves (Entry.compare user)) looked valued)
      (readValue : iterator.value valued.list = some value)
      (goes : Relation.ReflTransGen (System.Moves (Entry.compare user)) valued moving)
      (moved : iterator.next moving.list = some following)
      (rest : Scans user moving following items later last) :
      Scans user system iterator ((key, value) :: items) later last

section Scan

variable {user : Comparator} {asked system later : System Entry}
  {iterator last : MemTableIterator} {items : List (Slice × Slice)}

/-- What is read of an entry. -/
def readsAs (entry : Entry) (item : Slice × Slice) : Prop :=
  MemTable.getLengthPrefixedSlice entry.bytes = some item.1 ∧ valueOf entry.bytes = some item.2

theorem Scans.entries (scans : Scans user system iterator items later last) :
    ∃ entries, System.Scans (Entry.compare user) system iterator.iter entries later last.iter ∧
      List.Forall₂ readsAs entries items := by
  induction scans with
  | stop => exact ⟨[], .stop, .nil⟩
  | look waits read holds readValue goes moved _ ih =>
      obtain ⟨entries, scans, reads⟩ := ih
      obtain ⟨entry, found, key⟩ := Option.bind_eq_some_iff.mp read
      obtain ⟨other, again, value⟩ := Option.bind_eq_some_iff.mp readValue
      obtain ⟨following, next, rfl⟩ := Option.map_eq_some_iff.mp moved
      obtain rfl : entry = other := by
        obtain ⟨node, stands, stored⟩ := Option.bind_eq_some_iff.mp found
        have kept := System.key_of_moves holds stored
        rw [SkipList.Iterator.key, stands] at again
        exact Option.some.inj (kept.symm.trans again)
      exact ⟨entry :: entries, .look waits found (holds.trans goes) next scans,
        .cons ⟨key, value⟩ reads⟩

theorem Starts.entries {concerns : Version → Prop}
    (starts : Starts user asked concerns system iterator) :
    ∃ entries, System.Starts (Entry.compare user) asked entries system iterator.iter ∧
      ∀ version, entries version.entry ↔ concerns version := by
  cases starts with
  | first begins =>
      obtain ⟨_, found, rfl⟩ := Option.map_eq_some_iff.mp begins
      exact ⟨_, .first found, fun _ => Iff.rfl⟩
  | @seek k target _ _ _ long short made searches =>
      refine ⟨_, .seek searches, fun version => ?_⟩
      have whole : k.length % 2 ^ 32 = k.length := Nat.mod_eq_of_lt short
      obtain ⟨entry, again, internalKey⟩ := @encodeKey_entry k (whole.symm ▸ long)
      obtain rfl := Option.some.inj (made.symm.trans again)
      rw [whole, List.take_length] at internalKey
      dsimp only
      rw [← internalKey, ← Version.compare_lt_iff_beforeKey]
      exact Int.not_lt.symm

/-- Versions whose entries were read are what the scan yields. -/
theorem shown_of_reads {versions : List Version}
    (reads : List.Forall₂ readsAs (versions.map Version.entry) items) :
    versions.mapM Version.shown = some items := by
  induction versions generalizing items with
  | nil =>
      cases reads
      rfl
  | cons version rest ih =>
      obtain _ | ⟨⟨key, value⟩, others⟩ := reads
      rw [Version.entry_bytes, Version.read_bytes, Option.some.injEq] at key
      rw [Version.entry_bytes, Version.valueOf_bytes, Option.some.injEq] at value
      rw [List.mapM_cons, Version.shown_eq, ih others, key, value]
      rfl

/-- Entries that were added are those of versions that were added. -/
theorem exists_versions {keys : List Entry} {versions : List Version}
    (added : ∀ key ∈ keys, key ∈ versions.map Version.entry) :
    ∃ passed : List Version, passed.map Version.entry = keys ∧
      ∀ version ∈ passed, version ∈ versions := by
  have among : keys ∈ Set.range (List.map fun version : { version // version ∈ versions } =>
      version.1.entry) := by
    rw [Set.range_list_map]
    intro key member
    obtain ⟨version, found, same⟩ := List.mem_map.mp (added key member)
    exact ⟨⟨version, found⟩, same⟩
  obtain ⟨passed, same⟩ := among
  refine ⟨passed.map Subtype.val, (List.map_map ..).trans same, fun version member => ?_⟩
  obtain ⟨⟨_, found⟩, _, rfl⟩ := List.mem_map.mp member
  exact found

/-- Iterating beside `Add`. One thread adds versions to the memtable while another goes
through it, from the first entry or from a target on, their steps in any order. It reads
versions that were added, unharmed, each once and in the order of internal keys; none that
was there when the scan was asked for is missing up to the entry the iterator ends up at,
and none at all once it is not valid. Until then the iterator can be read and moved on,
whatever is added. -/
theorem scan_beside_add (order : ThreeWay user.compare)
    (reached : System.Reached (Entry.compare user) asked) {concerns : Version → Prop}
    (starts : Starts user asked concerns system iterator)
    (scans : Scans user system iterator items later last)
    {versions : List Version} (begun : later.begun = versions.map Version.entry) :
    ∃ passed : List Version, passed.mapM Version.shown = some items ∧
      passed.Pairwise (Version.Before user) ∧
      (∀ version ∈ passed, version ∈ versions ∧ concerns version) ∧
      (∀ version ∈ versions, version.entry ∈ asked.finished → concerns version →
        version ∈ passed ∨ ∃ current ∈ versions,
          last.iter.key later.list = some current.entry ∧ ¬ version.Before user current) ∧
      (last.valid = true → ∀ after,
        Relation.ReflTransGen (System.Moves (Entry.compare user)) later after →
        ∃ current ∈ versions, ∃ following,
          last.key after.list = some (internalKeyOf current.key current.tag) ∧
          last.value after.list = some current.value ∧
          last.next after.list = some following) := by
  have entries := Entry.compare_threeWay order
  obtain ⟨among, starts, same⟩ := starts.entries
  obtain ⟨keys, scans, reads⟩ := scans.entries
  obtain ⟨asks, front, back, inv, stands, low, high⟩ := starts.inv entries reached
  obtain ⟨_, gone, rest, kept, ends, increasing, read, complete⟩ :=
    scans.passes entries inv stands
  have known : ∀ row ∈ rest, ∃ current ∈ versions, row.key = current.entry := by
    intro row member
    have listed := kept.known row (List.mem_append_right _ member)
    rw [begun] at listed
    obtain ⟨current, found, same⟩ := List.mem_map.mp listed
    exact ⟨current, found, same.symm⟩
  obtain ⟨passed, rfl, added⟩ : ∃ passed : List Version, passed.map Version.entry = keys ∧
      ∀ version ∈ passed, version ∈ versions := by
    apply exists_versions
    intro key member
    rw [← begun]
    exact (read key member).2
  refine ⟨passed, shown_of_reads reads, ?_, ?_, ?_, ?_⟩
  · rw [List.pairwise_map] at increasing
    exact increasing.imp Version.compare_lt_iff_before.mp
  · intro version member
    refine ⟨added version member, ?_⟩
    obtain ⟨⟨row, head, le⟩, _⟩ := read version.entry (List.mem_map_of_mem member)
    rw [← same]
    exact high row (List.mem_of_head? head) _ le
  · intro version member finished wanted
    rcases complete version.entry (System.finished_mono asks finished) with out | seen | left
    · obtain ⟨row, before, equal⟩ := List.mem_map.mp out
      exact absurd ((same version).mpr wanted) (equal ▸ low row before)
    · obtain ⟨other, seen, equal⟩ := List.mem_map.mp seen
      exact .inl (Version.entry_injective equal ▸ seen)
    · refine .inr ?_
      cases rest with
      | nil => cases left
      | cons row rest =>
          obtain ⟨current, listed, key⟩ := known row List.mem_cons_self
          have stored := kept.linked.stored row (by simp)
          refine ⟨current, listed, ?_, ?_⟩
          · rw [SkipList.Iterator.key, ends, ← key]
            exact stored
          · rw [← Version.compare_lt_iff_before, ← key]
            apply entries.le_iff_not_lt.mp
            have rows := (List.pairwise_append.mp kept.linked.increasing).2.1
            rcases List.mem_cons.mp left with here | behind
            · rw [here]
              exact Int.le_of_eq (entries.refl row.key)
            · obtain ⟨other, member, equal⟩ := List.mem_map.mp behind
              rw [← equal]
              exact Int.le_of_lt ((List.pairwise_cons.mp rows).1 other member)
  · intro still after runs
    cases rest with
    | nil =>
        rw [valid, SkipList.Iterator.valid, ends] at still
        cases still
    | cons row rest =>
        obtain ⟨current, listed, key⟩ := known row List.mem_cons_self
        obtain ⟨stored, _, behind, _, _, next, _⟩ := kept.goes_on entries runs
        have found : last.iter.key after.list = some current.entry := by
          rw [SkipList.Iterator.key, ends, ← key]
          exact stored
        refine ⟨current, listed, ⟨⟨behind.head?.map Row.node⟩⟩, ?_, ?_, ?_⟩
        · rw [MemTableIterator.key, found]
          exact current.read_bytes
        · rw [MemTableIterator.value, found]
          exact current.valueOf_bytes
        · rw [MemTableIterator.next, SkipList.Iterator.next, ends]
          exact congrArg (Option.map MemTableIterator.mk) next

end Scan

/-- A deletion of the next key. -/
def deletionBehind : Version :=
  { deletion with
    key := [0x62]
    key_lt := by decide }

/-- The iterator is at the only entry when another is inserted behind it; the scan sees that
one while only the bottom level shows it. -/
theorem scan_beside_add_half_linked :
    ∃ (asked later : System Entry) (first : MemTableIterator) (passed : List Version),
      System.Reached (Entry.compare lexicographic) asked ∧ asked.finished = [MemTable.value.entry] ∧
      seekToFirst asked.list = some first ∧ later.finished = [MemTable.value.entry] ∧
      Scans lexicographic asked first
        [([0x61, 1, 1, 0, 0, 0, 0, 0, 0], [0x76]), ([0x62, 0, 2, 0, 0, 0, 0, 0, 0], [])]
        later ⟨⟨none⟩⟩ ∧
      passed.mapM Version.shown = some
        [([0x61, 1, 1, 0, 0, 0, 0, 0, 0], [0x76]), ([0x62, 0, 2, 0, 0, 0, 0, 0, 0], [])] ∧
      MemTable.value ∈ passed := by
  obtain ⟨list, made, asked, ran, finished, first, begins, later, went, begun, still, key, text,
      second, next, otherKey, otherText, ends⟩ :
      ∃ list, (SkipList.new : Option MemTable) = some list ∧ ∃ asked,
        (System.start list).run (Entry.compare lexicographic)
          ([.insert ⟨MemTable.value.entry, 1⟩] ++ List.replicate 6 .write) = some asked ∧
        asked.finished = [MemTable.value.entry] ∧ ∃ first, seekToFirst asked.list = some first ∧
        ∃ later, asked.run (Entry.compare lexicographic)
          ([.insert ⟨deletionBehind.entry, 2⟩] ++ List.replicate 9 .write) = some later ∧
        later.begun = [deletionBehind, MemTable.value].map Version.entry ∧
        later.finished = [MemTable.value.entry] ∧
        first.key asked.list = some [0x61, 1, 1, 0, 0, 0, 0, 0, 0] ∧
        first.value asked.list = some [0x76] ∧ ∃ second, first.next later.list = some second ∧
        second.key later.list = some [0x62, 0, 2, 0, 0, 0, 0, 0, 0] ∧
        second.value later.list = some [] ∧ second.next later.list = some ⟨⟨none⟩⟩ :=
    ⟨_, rfl, _, rfl, rfl, _, rfl, _, rfl, rfl, rfl, rfl, rfl, _, rfl, rfl, rfl, rfl⟩
  have reached : System.Reached (Entry.compare lexicographic) asked :=
    ⟨list, made, System.run_moves ran⟩
  have scans : Scans lexicographic asked first
      [([0x61, 1, 1, 0, 0, 0, 0, 0, 0], [0x76]), ([0x62, 0, 2, 0, 0, 0, 0, 0, 0], [])]
      later ⟨⟨none⟩⟩ :=
    .look .refl key .refl text (System.run_moves went) next
      (.look .refl otherKey .refl otherText .refl ends .stop)
  obtain ⟨passed, shown, _, _, complete, _⟩ :=
    scan_beside_add lexicographic_lawful.toThreeWay reached (.first begins) scans begun
  refine ⟨asked, later, first, passed, reached, finished, begins, still, scans, shown, ?_⟩
  have inside : MemTable.value ∈ [deletionBehind, MemTable.value] :=
    List.mem_cons_of_mem _ List.mem_cons_self
  have done : MemTable.value.entry ∈ asked.finished := finished ▸ List.mem_cons_self
  rcases complete MemTable.value inside done trivial with listed | ⟨_, _, at_, _⟩
  · exact listed
  · cases at_

end MemTableIterator

end MiniLevelDb
