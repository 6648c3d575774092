import MiniLevelDb.Db.MemTableVersions
import MiniLevelDb.Db.SkipListScans

/-!
# Lookups beside `Add`

One thread adds to the memtable while others look keys up. `Add` is the insertion of its
entry, of which only `Insert` touches what the threads share; `Get` is a search and what
it does with the entry the search stops at, which nobody changes any more. A lookup at a
sequence number whose versions were all added when it began does not see what is added
meanwhile.
-/

namespace MiniLevelDb

open Foundation

namespace MemTable

open SkipList (System Row)

/-- What `Get` does after its search. -/
def getFound (user : Comparator) (table : MemTable) (found : Option NodePtr) (key : LookupKey)
    (value : Slice) (status : Status) : Option (Bool × Slice × Status) :=
  match found with
  | none => some (false, value, status)
  | some node => do getEntry user (← table.key node).bytes key value status

theorem get_eq_getFound (user : Comparator) (table : MemTable) (key : LookupKey) (value : Slice)
    (status : Status) :
    get user table key value status =
      (Entry.ofBytes key.memtableKey).bind fun target =>
        (SkipList.findGreaterOrEqual (Entry.compare user) table target none).bind fun found =>
          getFound user table found.1 key value status := rfl

section Rows

variable {user : Comparator} {front back : List (Row Entry)} {versions : List Version}
  {target : Entry} {key : Slice} {sequence : SequenceNumber}

/-- A version of the key that stands behind the lookup key is visible. -/
theorem Version.visible_of_beyond {version : Version} (targetKey : target.userKey = key)
    (targetTag : target.tag = sequence.toNat * 256 + 1)
    (tie : user.compare version.key key = 0)
    (beyond : ¬ Entry.compare user version.entry target < 0) :
    version.Visible user key sequence := by
  refine ⟨tie, (version.tag_le_iff sequence).mp ?_⟩
  rw [Entry.compare_lt_iff_of_tie (by rw [Version.entry_userKey, targetKey]; exact tie)] at beyond
  omega

/-- The search stops at the newest version the lookup may see, as soon as all of those are
among the rows. -/
theorem head_of_newest (order : ThreeWay user.compare)
    (splits : SkipList.Splits (Entry.compare user) target (front ++ back) front back)
    (increasing : (front ++ back).Pairwise fun left right =>
      Entry.compare user left.key right.key < 0)
    (stored : ∀ row ∈ front ++ back, ∃ version ∈ versions, row.key = version.entry)
    (listed : ∀ version ∈ versions, version.Visible user key sequence →
      ∃ row ∈ front ++ back, row.key = version.entry)
    (targetKey : target.userKey = key) (targetTag : target.tag = sequence.toNat * 256 + 1)
    {version : Version} (member : version ∈ versions)
    (visible : version.Visible user key sequence)
    (newest : ∀ other ∈ versions, other.Visible user key sequence → other.NotNewer version) :
    ∃ row, back.head? = some row ∧ row.key = version.entry := by
  obtain ⟨row, present, same⟩ := listed version member visible
  have tie : user.compare row.key.userKey target.userKey = 0 := by
    rw [same, targetKey, Version.entry_userKey]
    exact visible.1
  have beyond : ¬ Entry.compare user row.key target < 0 := by
    rw [Entry.compare_lt_iff_of_tie tie, same, targetTag]
    have := (version.tag_le_iff sequence).mpr visible.2
    omega
  have inBack : row ∈ back := by
    rcases List.mem_append.mp present with before | behind
    · exact absurd (splits.below row before) beyond
    · exact behind
  refine ⟨row, ?_, same⟩
  apply head?_of_greatest_tag order (List.pairwise_append.mp increasing).2.1 splits.beyond inBack
    tie
  -- what the search can reach is visible, so it is not newer
  intro other otherIn otherTie
  obtain ⟨added, addedMember, otherSame⟩ := stored other (List.mem_append_right _ otherIn)
  have otherBeyond := splits.beyond other otherIn
  rw [otherSame] at otherTie otherBeyond ⊢
  rw [targetKey, Version.entry_userKey] at otherTie
  rw [same]
  apply Version.tag_le_of_notNewer
  exact newest added addedMember
    (Version.visible_of_beyond targetKey targetTag otherTie otherBeyond)

end Rows

/-- Snapshots. One thread adds versions to the memtable and others look keys up, their steps
in any order. A `Get` at a sequence number answers with the newest version it may see, or
with none if there is none, if these were all added when the call was made; whatever is
added while it runs, and until it reads the entry it found, makes no difference. -/
theorem get_snapshot {user : Comparator} (order : ThreeWay.Lawful user.compare)
    {asked answered later : System Entry}
    (reached : System.Reached (Entry.compare user) asked)
    {key : Slice} (small : key.length + 8 < 2 ^ 32) {sequence : SequenceNumber}
    (bound : sequence ≤ kMaxSequenceNumber) {lookup : LookupKey} {target : Entry}
    (made : LookupKey.new key sequence = some lookup)
    (decoded : Entry.ofBytes lookup.memtableKey = some target)
    {thread : Nat} {result : Option NodePtr}
    (searches : System.Searches (Entry.compare user) thread target asked answered result)
    (goesOn : Relation.ReflTransGen (System.Moves (Entry.compare user)) answered later)
    {versions : List Version} (begun : answered.begun = versions.map Version.entry)
    (published : ∀ version ∈ versions, version.Visible user key sequence →
      version.entry ∈ asked.finished) (value : Slice) (status : Status) :
    ((∀ version ∈ versions, ¬ version.Visible user key sequence) →
      getFound user later.list result lookup value status = some (false, value, status)) ∧
    ∀ version ∈ versions, version.Visible user key sequence →
      (∀ other ∈ versions, other.Visible user key sequence → other.NotNewer version) →
      (version.type = .kTypeValue →
        getFound user later.list result lookup value status =
          some (true, version.value, status)) ∧
      (version.type = .kTypeDeletion →
        getFound user later.list result lookup value status =
          some (true, value, .notFound "")) := by
  have entries := Entry.compare_threeWay order.toThreeWay
  obtain ⟨front, back, linked, splits, rfl, known, finished⟩ := searches.rows entries reached
  obtain ⟨other, entry, same, lookupKey, decodes, targetKey, targetTag⟩ :=
    lookup_entry small bound
  obtain rfl := Option.some.inj (made.symm.trans same)
  obtain rfl := Option.some.inj (decoded.symm.trans decodes)
  have stored : ∀ row ∈ front ++ back, ∃ version ∈ versions, row.key = version.entry := by
    intro row member
    have listed := known row member
    rw [begun] at listed
    obtain ⟨version, inside, same⟩ := List.mem_map.mp listed
    exact ⟨version, inside, same.symm⟩
  have listed : ∀ version ∈ versions, version.Visible user key sequence →
      ∃ row ∈ front ++ back, row.key = version.entry := by
    intro version member visible
    exact List.mem_map.mp (finished version.entry (published version member visible))
  -- the entry the search stopped at is still there
  have read : ∀ row, back.head? = some row →
      getFound user later.list (back.head?.map Row.node) lookup value status =
        getEntry user row.key.bytes lookup value status := by
    intro row first
    have inside : row ∈ front ++ back := List.mem_append_right _ (List.mem_of_head? first)
    have kept := System.key_of_moves goesOn (linked.stored row inside)
    rw [first, Option.map_some, getFound, kept]
    rfl
  refine ⟨fun nothing => ?_, fun version member visible newest => ?_⟩
  · cases first : back.head? with
    | none => rfl
    | some row =>
        have inBack := List.mem_of_head? first
        obtain ⟨version, member, same⟩ := stored row (List.mem_append_right _ inBack)
        have answer := version.getEntry_eq user lookup value status
        rw [lookupKey, if_neg] at answer
        · rw [← first, read row first, same]
          exact answer
        · intro tie
          apply nothing version member
          exact Version.visible_of_beyond targetKey targetTag tie
            (same ▸ splits.beyond row inBack)
  · obtain ⟨row, first, same⟩ := head_of_newest order.toThreeWay splits linked.increasing stored
      listed targetKey targetTag member visible newest
    have answer := version.getEntry_eq user lookup value status
    rw [lookupKey, if_pos visible.1] at answer
    rw [read row first, same]
    refine ⟨fun typed => ?_, fun typed => ?_⟩
    · rw [typed] at answer
      exact answer
    · rw [typed] at answer
      exact answer

/-- A value and the deletion of its key. -/
def value : Version := ⟨1, .kTypeValue, [0x61], [0x76], by decide, by decide, by decide⟩

theorem length_nil_lt : ([] : Slice).length < 2 ^ 32 := by decide

def deletion : Version :=
  { value with
    sequence := 2
    type := .kTypeDeletion
    value := []
    sequence_le := by decide
    value_lt := length_nil_lt }

/-- A key is deleted while it is looked up at the time of its value, and the search comes
past the deletion. -/
theorem get_snapshot_past_deletion :
    ∃ (asked answered : System Entry) (lookup : LookupKey) (target : Entry)
      (result : Option NodePtr),
      System.Reached (Entry.compare lexicographic) asked ∧ asked.begun = [value.entry] ∧
      System.Searches (Entry.compare lexicographic) 0 target asked answered result ∧
      answered.finished = [deletion.entry, value.entry] ∧
      getFound lexicographic answered.list result lookup [] .ok = some (true, [0x76], .ok) := by
  obtain ⟨list, made, lookup, new, target, decoded, asked, ran, alone, free, began, asks,
      before, went, busy, answered, stepped, returned, begun, finished, published⟩ :
      ∃ list, (SkipList.new : Option MemTable) = some list ∧ ∃ lookup,
        LookupKey.new [0x61] 1 = some lookup ∧ ∃ target,
        Entry.ofBytes lookup.memtableKey = some target ∧ ∃ asked,
        (System.start list).run (Entry.compare lexicographic)
          ([.insert ⟨value.entry, 1⟩] ++ List.replicate 6 .write) = some asked ∧
        asked.begun = [value.entry] ∧
        asked.Enabled (Entry.compare lexicographic) (.search 0 target) ∧ ∃ began,
        asked.step (Entry.compare lexicographic) (.search 0 target) = some began ∧ ∃ before,
        began.run (Entry.compare lexicographic)
          ([.read 0, .insert ⟨deletion.entry, 2⟩] ++ List.replicate 11 .write ++ [.read 0]) =
            some before ∧
        before.Enabled (Entry.compare lexicographic) (.read 0) ∧ ∃ answered,
        before.step (Entry.compare lexicographic) (.read 0) = some answered ∧
        answered.readers 0 = .returned target (some 1) ∧
        answered.begun = [deletion, value].map Version.entry ∧
        answered.finished = [deletion.entry, value.entry] ∧ asked.finished = [value.entry] :=
    ⟨_, rfl, _, rfl, _, rfl, _, rfl, rfl, by exact not_false, _, rfl, _, rfl, by exact trivial, _,
      rfl, rfl, rfl, rfl, rfl⟩
  have reached : System.Reached (Entry.compare lexicographic) asked :=
    ⟨list, made, System.run_moves ran⟩
  have searches : System.Searches (Entry.compare lexicographic) 0 target asked answered (some 1) :=
    ⟨began, before, free, asks, System.run_moves went, busy, stepped, returned⟩
  have unseen : ¬ deletion.Visible lexicographic [0x61] 1 := by decide
  have answer := (get_snapshot lexicographic_lawful reached (by decide) (by decide) new decoded
    searches .refl begun
    (by
      intro version member visible
      rcases List.mem_cons.mp member with rfl | member
      · exact absurd visible unseen
      · rw [published, List.mem_singleton.mp member]
        exact List.mem_singleton_self _) [] .ok).2 value (List.mem_cons_of_mem _ List.mem_cons_self)
    (by decide) (by decide)
  exact ⟨asked, answered, lookup, target, some 1, reached, alone, searches, finished,
    answer.1 rfl⟩

end MemTable

end MiniLevelDb
