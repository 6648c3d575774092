import MiniLevelDb.Util.HandleTableMap

/-!
# Runs of the handle table

Seen from outside a table maps a key and a hash to a handle. In a run of the table its
calls alternate with whatever the rest of the program does to memory, as long as that
leaves the handles of the table alone. Every call answers with what the map holds at
its key and hash and changes the map there only. The number of buckets stays a power
of two below `2 ^ 32`, so that no `uint32_t` of the source overflows.
-/

namespace MiniLevelDb

open Foundation

namespace HandleTable

variable {Value Deleter : Type}

/-- A call of the table. -/
inductive TableOp where
  | lookup (key : Slice) (hash : BitVec 32)
  | insert (id : HandleId)
  | remove (key : Slice) (hash : BitVec 32)
deriving DecidableEq, Repr

/-- The answer of a call, with memory and table after it. -/
def step (heap : Heap Value Deleter) (table : HandleTable) :
    TableOp → Option (Option HandleId × Heap Value Deleter × HandleTable)
  | .lookup key hash => (lookup heap table key hash).map fun found => (found, heap, table)
  | .insert id => insert heap table id
  | .remove key hash => remove heap table key hash

/-- What a table is for: the handle under each key and hash. -/
abbrev Contents := Slice × BitVec 32 → Option HandleId

/-- The contents after a call that is about `point`. -/
def Contents.after (contents : Contents) (point : Slice × BitVec 32) : TableOp → Contents
  | .lookup _ _ => contents
  | .insert id => Function.update contents point (some id)
  | .remove _ _ => Function.update contents point none

/-- The calls a client may make, each with the key and the hash it is about: a handle is
not inserted while it is in the table, and the table stays within `2 ^ 31` handles. -/
inductive Allows (heap : Heap Value Deleter) (table : HandleTable) (contents : Contents) :
    TableOp → Slice × BitVec 32 → Prop where
  | lookup (key : Slice) (hash : BitVec 32) :
      Allows heap table contents (.lookup key hash) (key, hash)
  | insert {id : HandleId} {handle : LRUHandle Value Deleter}
      (stored : heap.handles id = some handle) (named : heap.keyOf id = some handle.key)
      (absent : ∀ point, contents point ≠ some id)
      (room : contents (handle.key, handle.hash) = none → table.elems < 2 ^ 31) :
      Allows heap table contents (.insert id) (handle.key, handle.hash)
  | remove (key : Slice) (hash : BitVec 32) :
      Allows heap table contents (.remove key hash) (key, hash)

/-- What the rest of the program may do between two calls: the handles of the table keep
their key, their hash and their place in a chain, all other memory may change. -/
structure Outside (contents : Contents) (heap heap' : Heap Value Deleter) : Prop where
  bounded : ∀ id, heap'.fresh ≤ id → heap'.handles id = none
  kept : ∀ key hash id, contents (key, hash) = some id →
    ∃ handle, heap'.handles id = some handle ∧ handle.key = key ∧ handle.hash = hash ∧
      heap'.keyOf id = some key ∧ heap'.nextHash id = heap.nextHash id

/-- A table in use, from its constructor on. -/
inductive Run : Heap Value Deleter → HandleTable → Contents → Prop where
  | constructed {heap heap' : Heap Value Deleter} {table : HandleTable}
      (bounded : ∀ id, heap.fresh ≤ id → heap.handles id = none)
      (made : new heap = some (heap', table)) : Run heap' table fun _ => none
  | outside {heap heap' : Heap Value Deleter} {table : HandleTable} {contents : Contents}
      (run : Run heap table contents) (change : Outside contents heap heap') :
      Run heap' table contents
  | call {heap heap' : Heap Value Deleter} {table table' : HandleTable} {contents : Contents}
      {op : TableOp} {point : Slice × BitVec 32} {answer : Option HandleId}
      (run : Run heap table contents) (allowed : Allows heap table contents op point)
      (answered : step heap table op = some (answer, heap', table')) :
      Run heap' table' (contents.after point op)

/-- The number of buckets suits the number of handles. -/
structure Sized (table : HandleTable) : Prop where
  power : ∃ exponent, table.length = 2 ^ exponent
  four : 4 ≤ table.length
  roomy : table.elems ≤ table.length
  small : table.length ≤ 2 ^ 31

/-- Every handle of the contents is chained once, in the bucket of its hash. -/
structure ChainedOnce (heap : Heap Value Deleter) (table : HandleTable) (contents : Contents)
    (buckets : Nat → List HandleId) : Prop where
  chains : ∀ index < table.length,
    Chain (read heap table) .nextHash (.bucket index) (buckets index)
  placed : ∀ index < table.length, ∀ id ∈ buckets index,
    ∃ handle, heap.handles id = some handle ∧ bucketOf table.length handle.hash = index
  nodup : ((List.range table.length).flatMap buckets).Nodup
  listed : ∀ id, id ∈ (List.range table.length).flatMap buckets ↔
    ∃ point, contents point = some id
  count : table.elems = ((List.range table.length).flatMap buckets).length

section Size

variable {heap heap' : Heap Value Deleter} {table after : HandleTable}

theorem growLength_sized {elems rounds length grown : Nat} {list : List (Option HandleId)}
    (found : growLength elems rounds length = some grown)
    (power : ∃ exponent, length = 2 ^ exponent) (four : 4 ≤ length)
    (small : length ≤ 2 ^ 31) (few : elems ≤ 2 ^ 31) :
    Sized ⟨grown, elems, list⟩ := by
  induction rounds generalizing length with
  | zero => cases found
  | succ rounds ih =>
      unfold growLength at found
      by_cases short : length < elems
      · rw [if_pos short] at found
        obtain ⟨exponent, rfl⟩ := power
        have below : exponent < 31 :=
          (Nat.pow_lt_pow_iff_right (by decide)).mp (Nat.lt_of_lt_of_le short few)
        have doubled : 2 ^ exponent * 2 % 2 ^ 32 = 2 ^ (exponent + 1) := by
          rw [← Nat.pow_succ]
          exact Nat.mod_eq_of_lt (Nat.pow_lt_pow_right (by decide) (by omega))
        rw [doubled] at found
        refine ih found ⟨exponent + 1, rfl⟩ (by rw [Nat.pow_succ]; omega) ?_
        exact Nat.pow_le_pow_right (by decide) below
      · rw [if_neg short] at found
        cases found
        exact ⟨power, four, Nat.le_of_not_lt short, small⟩

theorem resize_sized (resized : resize heap table = some (heap', after))
    (few : table.elems ≤ 2 ^ 31) : Sized after := by
  simp only [resize, Option.bind_eq_bind, Option.bind_eq_some_iff] at resized
  obtain ⟨newLength, grown, moved, -, kept⟩ := resized
  split at kept
  · cases kept
    exact growLength_sized grown ⟨2, rfl⟩ (by decide) (by decide) few
  · cases kept

theorem write_sizes {slot : Slot} {target : Option HandleId}
    (written : write heap table slot target = some (heap', after)) :
    after.length = table.length ∧ after.elems = table.elems := by
  cases slot with
  | bucket index =>
      simp only [write] at written
      split at written
      · cases written
        exact ⟨rfl, rfl⟩
      · cases written
  | nextHash id =>
      simp only [write, Option.map_eq_some_iff] at written
      obtain ⟨-, -, same⟩ := written
      cases same
      exact ⟨rfl, rfl⟩

theorem Sized.insert (sized : Sized table) {id : HandleId} {old : Option HandleId}
    (inserted : insert heap table id = some (old, heap', after))
    (room : old = none → table.elems < 2 ^ 31) : Sized after := by
  simp only [HandleTable.insert, Option.bind_eq_bind, Option.bind_eq_some_iff] at inserted
  obtain ⟨handle, -, key, -, slot, -, previous, -, next, -, ⟨heap₁, table₁⟩, first,
    ⟨heap₂, table₂⟩, second, finished⟩ := inserted
  obtain ⟨length₁, elems₁⟩ := write_sizes first
  obtain ⟨length₂, elems₂⟩ := write_sizes second
  have length : table₂.length = table.length := length₂.trans length₁
  have elems : table₂.elems = table.elems := elems₂.trans elems₁
  cases previous with
  | some replaced =>
      cases finished
      exact ⟨length ▸ sized.power, length ▸ sized.four,
        by rw [length, elems]; exact sized.roomy, length ▸ sized.small⟩
  | none =>
      simp only at finished
      split at finished
      · simp only [Option.map_eq_some_iff] at finished
        obtain ⟨⟨grownHeap, grown⟩, resized, same⟩ := finished
        cases same
        refine resize_sized resized ?_
        show (table₂.elems + 1) % 2 ^ 32 ≤ 2 ^ 31
        rw [elems]
        exact Nat.le_trans (Nat.mod_le _ _) (room rfl)
      · rename_i fits
        cases finished
        exact ⟨length ▸ sized.power, length ▸ sized.four, Nat.le_of_not_lt fits,
          length ▸ sized.small⟩

theorem Sized.remove (sized : Sized table) {key : Slice} {hash : BitVec 32}
    {found : Option HandleId} (removed : remove heap table key hash = some (found, heap', after))
    (counted : found ≠ none → 0 < table.elems) : Sized after := by
  simp only [HandleTable.remove, Option.bind_eq_bind, Option.bind_eq_some_iff] at removed
  obtain ⟨slot, -, target, -, finished⟩ := removed
  cases target with
  | none =>
      cases finished
      exact sized
  | some id =>
      simp only [Option.bind_eq_some_iff] at finished
      obtain ⟨next, -, ⟨heap₁, table₁⟩, written, kept⟩ := finished
      obtain ⟨length, elems⟩ := write_sizes written
      cases kept
      have roomy := sized.roomy
      have small := sized.small
      have positive := counted (Option.some_ne_none id)
      refine ⟨length ▸ sized.power, length ▸ sized.four, ?_, length ▸ small⟩
      show (table₁.elems + (2 ^ 32 - 1)) % 2 ^ 32 ≤ table₁.length
      rw [elems, length]
      omega

end Size

section Contents

variable {heap heap' : Heap Value Deleter} {table after : HandleTable} {contents : Contents}
  {ids : List HandleId} {key : Slice} {hash : BitVec 32}

/-- The table holds `ids`, and the contents say where each of them is found. -/
structure Inv (heap : Heap Value Deleter) (table : HandleTable) (contents : Contents)
    (ids : List HandleId) : Prop where
  tabled : Tabled heap table ids
  readable : Readable heap ids
  finds : ∀ key hash, Finds heap ids key hash (contents (key, hash))
  sized : Sized table

theorem Inv.answer (inv : Inv heap table contents ids) {found : Option HandleId}
    (finds : Finds heap ids key hash found) : found = contents (key, hash) := by
  have other := inv.finds key hash
  cases held : contents (key, hash) with
  | some id =>
      rw [held] at other
      exact finds.unique inv.tabled other.1 other.2
  | none =>
      rw [held] at other
      cases found with
      | none => rfl
      | some id => exact absurd finds.2 (other id finds.1)

/-- A handle of the table is the contents at its own key and hash. -/
theorem Inv.held (inv : Inv heap table contents ids) {id : HandleId} (member : id ∈ ids) :
    ∃ handle, heap.handles id = some handle ∧ contents (handle.key, handle.hash) = some id := by
  obtain ⟨handle, stored, -⟩ := inv.readable.keyed id member
  exact ⟨handle, stored,
    (inv.finds handle.key handle.hash).unique inv.tabled member ⟨handle, stored, rfl, rfl⟩⟩

theorem Inv.mem_iff (inv : Inv heap table contents ids) {id : HandleId} :
    id ∈ ids ↔ ∃ point, contents point = some id := by
  constructor
  · intro member
    obtain ⟨handle, -, held⟩ := inv.held member
    exact ⟨_, held⟩
  · rintro ⟨⟨key, hash⟩, held⟩
    have finds := inv.finds key hash
    rw [held] at finds
    exact finds.1

theorem Inv.constructed (bounded : ∀ id, heap.fresh ≤ id → heap.handles id = none) :
    ∃ heap' table, new heap = some (heap', table) ∧ Inv heap' table (fun _ => none) [] := by
  obtain ⟨nextHash, table, made, tabled⟩ := new_spec bounded
  refine ⟨_, table, made, tabled, ⟨bounded, by simp⟩, fun key hash id member => by simp at member,
    ?_⟩
  exact resize_sized made (by decide)

theorem Inv.outside (inv : Inv heap table contents ids) (change : Outside contents heap heap') :
    Inv heap' table contents ids := by
  have kept : ∀ id ∈ ids, ∃ old new, heap.handles id = some old ∧ heap'.handles id = some new ∧
      new.key = old.key ∧ new.hash = old.hash ∧ heap'.keyOf id = some new.key ∧
      heap'.nextHash id = heap.nextHash id := by
    intro id member
    obtain ⟨old, stored, held⟩ := inv.held member
    obtain ⟨new, now, keys, hashes, named, next⟩ := change.kept _ _ id held
    exact ⟨old, new, stored, now, keys, hashes, keys ▸ named, next⟩
  refine ⟨inv.tabled.congr ?_ ?_, ⟨change.bounded, ?_⟩, ?_, inv.sized⟩
  · intro id member
    obtain ⟨old, new, -, -, -, -, -, next⟩ := kept id member
    exact next
  · intro id member
    obtain ⟨old, new, stored, now, keys, hashes, -⟩ := kept id member
    exact ⟨old, new, stored, now, keys, hashes⟩
  · intro id member
    obtain ⟨old, new, -, now, -, -, named, -⟩ := kept id member
    exact ⟨new, now, named⟩
  · intro key hash
    have finds := inv.finds key hash
    cases held : contents (key, hash) with
    | some id =>
        rw [held] at finds
        obtain ⟨new, now, keys, hashes, -⟩ := change.kept key hash id held
        exact ⟨finds.1, new, now, keys, hashes⟩
    | none =>
        rw [held] at finds
        rintro id member ⟨handle, stored, rfl, rfl⟩
        obtain ⟨old, new, was, now, keys, hashes, -⟩ := kept id member
        rw [stored] at now
        cases now
        exact finds id member ⟨old, was, keys.symm, hashes.symm⟩

/-- A lookup answers with the contents. -/
theorem Inv.lookup (inv : Inv heap table contents ids) (key : Slice) (hash : BitVec 32) :
    step heap table (.lookup key hash) = some (contents (key, hash), heap, table) := by
  obtain ⟨found, answered, finds⟩ := lookup_spec inv.tabled inv.readable key hash
  simp only [step, answered, Option.map_some, inv.answer finds]

/-- What is found elsewhere stays when the handle under one key and hash is taken out. -/
theorem Inv.finds_without (inv : Inv heap table contents ids) {other : Slice × BitVec 32}
    (apart : other ≠ (key, hash)) :
    Finds heap (without ids (contents (key, hash))) other.1 other.2 (contents other) := by
  have finds := inv.finds other.1 other.2
  cases held : contents other with
  | none =>
      rw [held] at finds
      intro id member
      exact finds id ((mem_without inv.tabled.nodup).mp member).1
  | some id =>
      rw [held] at finds
      refine ⟨(mem_without inv.tabled.nodup).mpr ⟨finds.1, fun here => apart ?_⟩, finds.2⟩
      have matched := inv.finds key hash
      rw [here] at matched
      obtain ⟨handle, stored, keys, hashes⟩ := finds.2
      obtain ⟨again, same, rfl, rfl⟩ := matched.2
      rw [stored] at same
      cases same
      exact Prod.ext keys.symm hashes.symm

theorem Inv.remove (inv : Inv heap table contents ids) (key : Slice) (hash : BitVec 32) :
    ∃ heap' table' ids', step heap table (.remove key hash) =
        some (contents (key, hash), heap', table') ∧
      Inv heap' table' (contents.after (key, hash) (.remove key hash)) ids' := by
  obtain ⟨found, nextHash, after, removed, finds, tabled⟩ :=
    remove_spec inv.tabled inv.readable key hash
  have answer := inv.answer finds
  subst answer
  refine ⟨_, after, without ids (contents (key, hash)), removed, tabled,
    ⟨inv.readable.bounded, ?_⟩, ?_, inv.sized.remove removed ?_⟩
  · intro id member
    exact inv.readable.keyed id ((mem_without inv.tabled.nodup).mp member).1
  · intro otherKey otherHash
    simp only [Contents.after]
    by_cases same : (otherKey, otherHash) = (key, hash)
    · cases same
      rw [Function.update_self]
      intro id member hits
      obtain ⟨present, different⟩ := (mem_without inv.tabled.nodup).mp member
      exact different (finds.unique inv.tabled present hits)
    · rw [Function.update_of_ne same]
      exact inv.finds_without same
  · intro present
    obtain ⟨id, held⟩ := Option.ne_none_iff_exists'.mp present
    rw [held] at finds
    rw [inv.tabled.elems]
    exact List.length_pos_of_mem finds.1

theorem Inv.insert (inv : Inv heap table contents ids) {id : HandleId}
    {handle : LRUHandle Value Deleter} (stored : heap.handles id = some handle)
    (named : heap.keyOf id = some handle.key) (absent : ∀ point, contents point ≠ some id)
    (room : contents (handle.key, handle.hash) = none → table.elems < 2 ^ 31) :
    ∃ heap' table' ids', step heap table (.insert id) =
        some (contents (handle.key, handle.hash), heap', table') ∧
      Inv heap' table' (contents.after (handle.key, handle.hash) (.insert id)) ids' := by
  have new : id ∉ ids := fun member => by
    obtain ⟨point, held⟩ := inv.mem_iff.mp member
    exact absent point held
  obtain ⟨old, nextHash, after, inserted, finds, tabled⟩ :=
    insert_spec inv.tabled inv.readable stored named new fun missing =>
      room (inv.answer missing).symm
  have answer := inv.answer finds
  subst answer
  refine ⟨_, after, id :: without ids (contents (handle.key, handle.hash)), inserted, tabled,
    ⟨inv.readable.bounded, ?_⟩, ?_, inv.sized.insert inserted room⟩
  · refine List.forall_mem_cons.mpr ⟨⟨handle, stored, named⟩, fun other member => ?_⟩
    exact inv.readable.keyed other ((mem_without inv.tabled.nodup).mp member).1
  · intro otherKey otherHash
    simp only [Contents.after]
    by_cases same : (otherKey, otherHash) = (handle.key, handle.hash)
    · cases same
      rw [Function.update_self]
      exact ⟨List.mem_cons_self, handle, stored, rfl, rfl⟩
    · rw [Function.update_of_ne same]
      have kept := inv.finds_without same
      cases held : contents (otherKey, otherHash) with
      | some other =>
          rw [held] at kept
          exact ⟨List.mem_cons_of_mem id kept.1, kept.2⟩
      | none =>
          rw [held] at kept
          refine List.forall_mem_cons.mpr ⟨?_, kept⟩
          rintro ⟨again, now, rfl, rfl⟩
          rw [show heap.handles id = some again from now] at stored
          cases stored
          exact same rfl

/-- Every call that is allowed answers with the contents. -/
theorem Inv.call (inv : Inv heap table contents ids) {op : TableOp} {point : Slice × BitVec 32}
    (allowed : Allows heap table contents op point) :
    ∃ heap' table' ids', step heap table op = some (contents point, heap', table') ∧
      Inv heap' table' (contents.after point op) ids' := by
  cases allowed with
  | lookup key hash => exact ⟨heap, table, ids, inv.lookup key hash, inv⟩
  | insert stored named absent room => exact inv.insert stored named absent room
  | remove key hash => exact inv.remove key hash

theorem Run.inv (run : Run heap table contents) : ∃ ids, Inv heap table contents ids := by
  induction run with
  | constructed bounded made =>
      obtain ⟨heap', table, again, inv⟩ := Inv.constructed bounded
      rw [made] at again
      cases again
      exact ⟨[], inv⟩
  | outside _ change ih =>
      obtain ⟨ids, inv⟩ := ih
      exact ⟨ids, inv.outside change⟩
  | call _ allowed answered ih =>
      obtain ⟨ids, inv⟩ := ih
      obtain ⟨heap', table', ids', again, inv'⟩ := inv.call allowed
      rw [answered] at again
      cases again
      exact ⟨ids', inv'⟩

theorem Inv.chainedOnce (inv : Inv heap table contents ids) :
    ∃ buckets, ChainedOnce heap table contents buckets := by
  obtain ⟨buckets, bucketed⟩ := inv.tabled.bucketed
  have perm := bucketed.perm inv.tabled.nodup
  refine ⟨buckets, bucketed.chains, bucketed.placed, perm.nodup_iff.mpr inv.tabled.nodup, ?_, ?_⟩
  · intro id
    rw [perm.mem_iff, inv.mem_iff]
  · rw [perm.length_eq, inv.tabled.elems]

/-- A table is made in any memory. From then on every call answers with what the contents
hold at its key and hash, every handle is chained once in the bucket of its hash, the
number of buckets suits them, and `Resize` is always possible. -/
theorem run_answers :
    (∀ heap : Heap Value Deleter, (∀ id, heap.fresh ≤ id → heap.handles id = none) →
      ∃ heap' table, new heap = some (heap', table)) ∧
    ∀ (heap : Heap Value Deleter) table contents, Run heap table contents →
      (∀ op point, Allows heap table contents op point → ∃ heap' table',
        step heap table op = some (contents point, heap', table') ∧
          Run heap' table' (contents.after point op)) ∧
      (∀ key hash id, contents (key, hash) = some id → Matches heap key hash id) ∧
      (∃ buckets, ChainedOnce heap table contents buckets) ∧
      Sized table ∧ ∃ heap' table', resize heap table = some (heap', table') := by
  refine ⟨fun heap bounded => ?_, fun heap table contents run => ?_⟩
  · obtain ⟨heap', table, made, -⟩ := Inv.constructed bounded
    exact ⟨heap', table, made⟩
  obtain ⟨ids, inv⟩ := run.inv
  refine ⟨fun op point allowed => ?_, fun key hash id held => ?_, inv.chainedOnce, inv.sized, ?_⟩
  · obtain ⟨heap', table', -, answered, -⟩ := inv.call allowed
    exact ⟨heap', table', answered, run.call allowed answered⟩
  · have finds := inv.finds key hash
    rw [held] at finds
    exact finds.2
  · obtain ⟨buckets, bucketed⟩ := inv.tabled.bucketed
    obtain ⟨nextHash, after, resized, -⟩ :=
      resize_spec bucketed inv.tabled.nodup inv.tabled.elems inv.tabled.few inv.readable.bounded
    exact ⟨_, after, resized⟩

end Contents

/-- Where the handles of the example belong: all hashes are in one of four buckets, and the
sixth handle is a twin of the first. -/
def crowdedPoint (id : HandleId) : Slice × BitVec 32 :=
  ([BitVec.ofNat 8 (id % 5)], BitVec.ofNat 32 (id % 5 * 4))

/-- Memory with six handles in no list. -/
def crowdedHeap : Heap Unit Unit where
  handles id :=
    if id < 6 then some ⟨(), (), 1, (crowdedPoint id).1, true, 1, (crowdedPoint id).2⟩ else none
  fresh := 6
  next _ := some none
  prev _ := some none
  nextHash _ := none

/-- A new table after some insertions. -/
def crowded : Nat → Option (Heap Unit Unit × HandleTable)
  | 0 => new crowdedHeap
  | count + 1 =>
      (crowded count).bind fun made => (step made.1 made.2 (.insert count)).map Prod.snd

/-- What such a table is to hold. -/
def crowdedContents : Nat → Contents
  | 0 => fun _ => none
  | count + 1 => (crowdedContents count).after (crowdedPoint count) (.insert count)

theorem crowdedContents_lt {count : Nat} {point : Slice × BitVec 32} {id : HandleId}
    (held : crowdedContents count point = some id) : id < count := by
  induction count with
  | zero => cases held
  | succ count ih =>
      rw [crowdedContents, Contents.after, Function.update_apply] at held
      split at held
      · cases held
        exact Nat.lt_succ_self _
      · exact (ih held).trans (Nat.lt_succ_self _)

theorem crowded_allows {heap : Heap Unit Unit} {table : HandleTable} {count : Nat}
    (few : count < 6) (made : crowded count = some (heap, table)) :
    Allows heap table (crowdedContents count) (.insert count) (crowdedPoint count) := by
  have facts : ∀ count < 6, (crowded count).all (fun made =>
      made.1.handles count =
          some ⟨(), (), 1, (crowdedPoint count).1, true, 1, (crowdedPoint count).2⟩ ∧
        made.1.keyOf count = some (crowdedPoint count).1 ∧ made.2.elems < 2 ^ 31) = true := by
    decide
  have here := facts count few
  rw [made] at here
  obtain ⟨stored, named, room⟩ := of_decide_eq_true here
  exact .insert stored named (fun _ held => Nat.lt_irrefl _ (crowdedContents_lt held))
    fun _ => room

/-- With the fifth handle the table grows, and the sixth replaces the first. -/
theorem run_answers_crowded :
    ∃ heap table heap' table', crowded 5 = some (heap, table) ∧ table.length = 8 ∧
      table.elems = 5 ∧ step heap table (.insert 5) = some (some 0, heap', table') := by
  have bounded : ∀ id, crowdedHeap.fresh ≤ id → crowdedHeap.handles id = none := fun id beyond =>
    if_neg (Nat.not_lt.mpr beyond)
  obtain ⟨creation, runs⟩ := @run_answers Unit Unit
  have steps : ∀ count ≤ 5, ∃ heap table, crowded count = some (heap, table) ∧
      Run heap table (crowdedContents count) := by
    intro count few
    induction count with
    | zero =>
        obtain ⟨heap, table, made⟩ := creation crowdedHeap bounded
        exact ⟨heap, table, made, .constructed bounded made⟩
    | succ count ih =>
        obtain ⟨heap, table, made, run⟩ := ih (Nat.le_of_succ_le few)
        obtain ⟨heap', table', answered, after⟩ :=
          (runs _ _ _ run).1 _ _ (crowded_allows (few.trans (by decide)) made)
        refine ⟨heap', table', ?_, after⟩
        rw [crowded, made, Option.bind_some, answered, Option.map_some]
  obtain ⟨heap, table, made, run⟩ := steps 5 (Nat.le_refl 5)
  obtain ⟨heap', table', answered, -⟩ := (runs _ _ _ run).1 _ _ (crowded_allows (by decide) made)
  have sizes : (crowded 5).map (fun made => (made.2.length, made.2.elems)) = some (8, 5) := by
    decide
  rw [made] at sizes
  obtain ⟨length, elems⟩ := Prod.mk.inj (Option.some.inj sizes)
  exact ⟨heap, table, heap', table', made, length, elems, answered⟩

end HandleTable

end MiniLevelDb
