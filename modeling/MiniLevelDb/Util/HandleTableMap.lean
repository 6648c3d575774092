import MiniLevelDb.Util.HandleTable
import MiniLevelDb.Foundation.Chain
import Mathlib.Data.List.Perm.Subperm

/-!
# The handle table as a map

The buckets of a table are chains that hold every handle of the table once, each in
the bucket of its hash, and no two handles of the table agree in key and hash. So a
search ends at the slot that holds the one handle it asks for, or at the end of the
only chain that could.
-/

namespace MiniLevelDb

open Foundation

namespace HandleTable

variable {Value Deleter : Type} {heap : Heap Value Deleter} {table : HandleTable}
  {ids : List HandleId} {key : Slice} {hash : BitVec 32}

/-- The handle has the key and the hash. -/
def Matches (heap : Heap Value Deleter) (key : Slice) (hash : BitVec 32) (id : HandleId) : Prop :=
  ∃ handle, heap.handles id = some handle ∧ handle.key = key ∧ handle.hash = hash

/-- What a search for a key and a hash among `ids` should answer. -/
def Finds (heap : Heap Value Deleter) (ids : List HandleId) (key : Slice) (hash : BitVec 32) :
    Option HandleId → Prop
  | none => ∀ id ∈ ids, ¬ Matches heap key hash id
  | some id => id ∈ ids ∧ Matches heap key hash id

/-- The chains of a table, whatever the keys of its handles are. -/
structure Bucketed (heap : Heap Value Deleter) (table : HandleTable)
    (buckets : Nat → List HandleId) (ids : List HandleId) : Prop where
  size : table.list.length = table.length
  chains : ∀ index < table.length,
    Chain (read heap table) .nextHash (.bucket index) (buckets index)
  placed : ∀ index < table.length, ∀ id ∈ buckets index,
    ∃ handle, heap.handles id = some handle ∧ bucketOf table.length handle.hash = index
  listed : ∀ id, id ∈ ids ↔ ∃ index < table.length, id ∈ buckets index

/-- The table holds exactly the handles `ids`. -/
structure Tabled (heap : Heap Value Deleter) (table : HandleTable) (ids : List HandleId) :
    Prop where
  positive : 0 < table.length
  bucketed : ∃ buckets, Bucketed heap table buckets ids
  nodup : ids.Nodup
  elems : table.elems = ids.length
  few : ids.length ≤ 2 ^ 31
  unique : ∀ left ∈ ids, ∀ right ∈ ids, ∀ key hash,
    Matches heap key hash left → Matches heap key hash right → left = right

theorem bucketOf_lt {length : Nat} (positive : 0 < length) (hash : BitVec 32) :
    bucketOf length hash < length := by
  have := @Nat.and_le_right hash.toNat (length - 1)
  unfold bucketOf
  omega

theorem Finds.unique (tabled : Tabled heap table ids) {found : Option HandleId} {id : HandleId}
    (finds : Finds heap ids key hash found) (member : id ∈ ids)
    (hits : Matches heap key hash id) : found = some id := by
  cases found with
  | none => exact absurd hits (finds id member)
  | some other => rw [tabled.unique other finds.1 id member key hash finds.2 hits]

namespace Bucketed

variable {buckets : Nat → List HandleId}

theorem disjoint (bucketed : Bucketed heap table buckets ids) {index other : Nat}
    (inside : index < table.length) (otherInside : other < table.length) {id : HandleId}
    (member : id ∈ buckets index) (otherMember : id ∈ buckets other) : index = other := by
  obtain ⟨handle, stored, rfl⟩ := bucketed.placed index inside id member
  obtain ⟨same, again, rfl⟩ := bucketed.placed other otherInside id otherMember
  rw [stored] at again
  cases again
  rfl

theorem mem_bucket (bucketed : Bucketed heap table buckets ids) {id : HandleId}
    (member : id ∈ ids) (hits : Matches heap key hash id) :
    id ∈ buckets (bucketOf table.length hash) := by
  obtain ⟨index, inside, present⟩ := (bucketed.listed id).mp member
  obtain ⟨handle, stored, rfl⟩ := bucketed.placed index inside id present
  obtain ⟨same, again, -, rfl⟩ := hits
  rw [stored] at again
  cases again
  exact present

theorem live (bucketed : Bucketed heap table buckets ids) {id : HandleId} (member : id ∈ ids) :
    ∃ handle, heap.handles id = some handle := by
  obtain ⟨index, inside, present⟩ := (bucketed.listed id).mp member
  obtain ⟨handle, stored, -⟩ := bucketed.placed index inside id present
  exact ⟨handle, stored⟩

end Bucketed

/-- A chain is not longer than the number of addresses. -/
theorem chain_length_le {slot : Slot} {cells : List HandleId}
    (chain : Chain (read heap table) .nextHash slot cells)
    (bounded : ∀ id ∈ cells, id < heap.fresh) : cells.length ≤ heap.fresh := by
  have nodup : cells.Nodup := (List.nodup_cons.mp (Chain.slots_nodup chain)).2.of_map
  have within : cells ⊆ List.range heap.fresh := fun id member =>
    List.mem_range.mpr (bounded id member)
  have bound := (nodup.subperm within).length_le
  rwa [List.length_range] at bound

/-- The search loop stops at the first handle that matches, or at the end. -/
theorem findPointerLoop_spec {rounds : Nat} {slot : Slot} {cells : List HandleId}
    (chain : Chain (read heap table) .nextHash slot cells)
    (keyed : ∀ id ∈ cells, ∃ handle, heap.handles id = some handle ∧
      heap.keyOf id = some handle.key)
    (enough : cells.length < rounds) :
    ∃ front back, cells = front ++ back ∧
      findPointerLoop heap table key hash rounds slot = some (endSlot .nextHash slot front) ∧
      (∀ id ∈ front, ¬ Matches heap key hash id) ∧
      ∀ id, back.head? = some id → Matches heap key hash id := by
  induction rounds generalizing slot cells with
  | zero => omega
  | succ rounds ih =>
      cases cells with
      | nil =>
          refine ⟨[], [], rfl, ?_, by simp, by simp⟩
          have read := Chain.read_head chain
          simp only [findPointerLoop, read, Option.bind_eq_bind, Option.bind_some]
          rfl
      | cons id rest =>
          obtain ⟨handle, stored, named⟩ := keyed id List.mem_cons_self
          have first : read heap table slot = some (some id) := chain.1
          by_cases hits : Matches heap key hash id
          · obtain ⟨same, again, rfl, rfl⟩ := hits
            rw [stored] at again
            cases again
            refine ⟨[], id :: rest, rfl, ?_, by simp, ?_⟩
            · have equal : Slice.beqSlice handle.key handle.key = true :=
                (Slice.beqSlice_iff _ _).mpr rfl
              simp only [findPointerLoop, first, Option.bind_eq_bind, Option.bind_some, stored,
                named, ne_eq, not_true_eq_false, if_false, equal, if_true]
              rfl
            · rintro _ ⟨⟩
              exact ⟨handle, stored, rfl, rfl⟩
          · obtain ⟨front, back, rfl, found, missed, stop⟩ := ih chain.2
              (fun other member => keyed other (List.mem_cons_of_mem _ member))
              (by simpa using enough)
            refine ⟨id :: front, back, rfl, ?_, List.forall_mem_cons.mpr ⟨hits, missed⟩, stop⟩
            by_cases other : handle.hash = hash
            · have differ : Slice.beqSlice key handle.key = false := by
                rw [← Bool.not_eq_true, Slice.beqSlice_iff]
                rintro rfl
                exact hits ⟨handle, stored, rfl, other⟩
              simp only [findPointerLoop, first, Option.bind_eq_bind, Option.bind_some, stored,
                named, ne_eq, other, not_true_eq_false, if_false, differ, Bool.false_eq_true]
              exact found
            · simp only [findPointerLoop, first, Option.bind_eq_bind, Option.bind_some, stored,
                ne_eq, other, not_false_eq_true, if_true]
              exact found

/-- The handles of a table can be read, and so can their keys. -/
structure Readable (heap : Heap Value Deleter) (ids : List HandleId) : Prop where
  bounded : ∀ id, heap.fresh ≤ id → heap.handles id = none
  keyed : ∀ id ∈ ids, ∃ handle, heap.handles id = some handle ∧ heap.keyOf id = some handle.key

theorem Readable.lt_fresh (readable : Readable heap ids) {id : HandleId}
    {handle : LRUHandle Value Deleter} (stored : heap.handles id = some handle) :
    id < heap.fresh := by
  by_contra beyond
  rw [readable.bounded id (Nat.le_of_not_lt beyond)] at stored
  cases stored

/-- `FindPointer` returns the slot of the handle that matches, or the last of its chain. -/
theorem findPointer_spec {buckets : Nat → List HandleId}
    (positive : 0 < table.length) (bucketed : Bucketed heap table buckets ids)
    (readable : Readable heap ids) (key : Slice) (hash : BitVec 32) :
    ∃ front back, buckets (bucketOf table.length hash) = front ++ back ∧
      findPointer heap table key hash =
        some (endSlot .nextHash (.bucket (bucketOf table.length hash)) front) ∧
      Finds heap ids key hash back.head? := by
  have inside := bucketOf_lt positive hash
  have chain := bucketed.chains _ inside
  have keyed : ∀ id ∈ buckets (bucketOf table.length hash),
      ∃ handle, heap.handles id = some handle ∧ heap.keyOf id = some handle.key :=
    fun id member => readable.keyed id ((bucketed.listed id).mpr ⟨_, inside, member⟩)
  have short := chain_length_le chain fun id member => by
    obtain ⟨handle, stored, -⟩ := keyed id member
    exact readable.lt_fresh stored
  obtain ⟨front, back, split, found, missed, stop⟩ :=
    findPointerLoop_spec chain keyed (Nat.lt_succ_of_le short)
  refine ⟨front, back, split, found, ?_⟩
  cases back with
  | nil =>
      intro id member hits
      have present := bucketed.mem_bucket member hits
      rw [split, List.append_nil] at present
      exact missed id present hits
  | cons id rest =>
      refine ⟨(bucketed.listed id).mpr ⟨_, inside, ?_⟩, stop id rfl⟩
      rw [split]
      simp

/-- `Lookup` answers with the handle of the table that matches. -/
theorem lookup_spec (tabled : Tabled heap table ids) (readable : Readable heap ids)
    (key : Slice) (hash : BitVec 32) :
    ∃ found, lookup heap table key hash = some found ∧ Finds heap ids key hash found := by
  obtain ⟨buckets, bucketed⟩ := tabled.bucketed
  obtain ⟨front, back, split, found, finds⟩ :=
    findPointer_spec tabled.positive bucketed readable key hash
  have chain := bucketed.chains _ (bucketOf_lt tabled.positive hash)
  rw [split] at chain
  refine ⟨back.head?, ?_, finds⟩
  simp only [lookup, found, Option.bind_eq_bind, Option.bind_some]
  exact Chain.read_head chain.drop

/-- A slot that can be written. -/
def Writable (heap : Heap Value Deleter) (table : HandleTable) : Slot → Prop
  | .bucket index => index < table.list.length
  | .nextHash id => ∃ handle, heap.handles id = some handle

theorem writable_of_read {slot : Slot} {target : Option HandleId}
    (readable : read heap table slot = some target) : Writable heap table slot := by
  cases slot with
  | bucket index => exact (List.getElem?_eq_some_iff.mp readable).1
  | nextHash id =>
      cases stored : heap.handles id with
      | none => simp [read, stored] at readable
      | some handle => exact ⟨handle, stored⟩

/-- A write changes what one slot reads, and nothing else. -/
theorem write_spec {slot : Slot} (writable : Writable heap table slot)
    (target : Option HandleId) :
    ∃ nextHash list, write heap table slot target =
        some ({ heap with nextHash := nextHash }, { table with list := list }) ∧
      list.length = table.list.length ∧
      read { heap with nextHash := nextHash } { table with list := list } =
        Function.update (read heap table) slot (some target) := by
  cases slot with
  | bucket index =>
      refine ⟨heap.nextHash, table.list.set index target, if_pos writable, by simp, ?_⟩
      funext other
      cases other with
      | bucket otherIndex =>
          by_cases same : index = otherIndex
          · subst same
            rw [Function.update_self]
            exact List.getElem?_set_self writable
          · rw [Function.update_of_ne (by simpa using Ne.symm same)]
            exact List.getElem?_set_ne same
      | nextHash id =>
          rw [Function.update_of_ne (by simp)]
          rfl
  | nextHash id =>
      obtain ⟨handle, stored⟩ := writable
      refine ⟨Function.update heap.nextHash id (some target), table.list,
        by simp [write, stored], rfl, ?_⟩
      funext other
      cases other with
      | bucket index =>
          rw [Function.update_of_ne (by simp)]
          rfl
      | nextHash otherId =>
          by_cases same : otherId = id
          · subst same
            simp [read, stored]
          · rw [Function.update_of_ne (by simpa using same)]
            simp [read, same]

section Change

variable {heap' : Heap Value Deleter} {table' : HandleTable} {buckets : Nat → List HandleId}
  {ids' cells front back : List HandleId} {index : Nat}

/-- The slots of different buckets are different. -/
theorem Bucketed.slot_ne (bucketed : Bucketed heap table buckets ids) {other : Nat}
    (inside : index < table.length) (otherInside : other < table.length)
    (apart : other ≠ index) {left right : Slot}
    (leftPassed : left ∈ Slot.bucket other :: (buckets other).map Slot.nextHash)
    (rightPassed : right ∈ Slot.bucket index :: (buckets index).map Slot.nextHash) :
    left ≠ right := by
  rintro rfl
  rcases List.mem_cons.mp leftPassed with rfl | leftPassed
  · simp [apart] at rightPassed
  · obtain ⟨id, member, rfl⟩ := List.mem_map.mp leftPassed
    simp only [List.mem_cons, reduceCtorEq, false_or] at rightPassed
    obtain ⟨same, present, equal⟩ := List.mem_map.mp rightPassed
    cases equal
    exact apart (bucketed.disjoint otherInside inside member present)

/-- A change to one chain, with the others untouched. -/
theorem Bucketed.rebucket (bucketed : Bucketed heap table buckets ids)
    (inside : index < table.length) (handles : heap'.handles = heap.handles)
    (length : table'.length = table.length) (size : table'.list.length = table.list.length)
    (chain : Chain (read heap' table') .nextHash (.bucket index) cells)
    (frame : ∀ other < table.length, other ≠ index →
      ∀ slot ∈ Slot.bucket other :: (buckets other).map Slot.nextHash,
        read heap' table' slot = read heap table slot)
    (placed : ∀ id ∈ cells, ∃ handle, heap.handles id = some handle ∧
      bucketOf table.length handle.hash = index)
    (listed : ∀ id, id ∈ ids' ↔ id ∈ cells ∨ (id ∈ ids ∧ id ∉ buckets index)) :
    Bucketed heap' table' (Function.update buckets index cells) ids' where
  size := by rw [size, length, bucketed.size]
  chains := by
    intro other otherInside
    rw [length] at otherInside
    by_cases same : other = index
    · subst same
      rwa [Function.update_self]
    · rw [Function.update_of_ne same]
      exact (bucketed.chains other otherInside).congr (frame other otherInside same)
  placed := by
    intro other otherInside id member
    rw [length] at otherInside ⊢
    rw [handles]
    by_cases same : other = index
    · subst same
      rw [Function.update_self] at member
      exact placed id member
    · rw [Function.update_of_ne same] at member
      exact bucketed.placed other otherInside id member
  listed := by
    intro id
    rw [listed, length]
    constructor
    · rintro (member | ⟨member, outside⟩)
      · exact ⟨index, inside, by rwa [Function.update_self]⟩
      · obtain ⟨other, otherInside, present⟩ := (bucketed.listed id).mp member
        have apart : other ≠ index := by
          rintro rfl
          exact outside present
        exact ⟨other, otherInside, by rwa [Function.update_of_ne apart]⟩
    · rintro ⟨other, otherInside, member⟩
      by_cases same : other = index
      · subst same
        rw [Function.update_self] at member
        exact .inl member
      · rw [Function.update_of_ne same] at member
        refine .inr ⟨(bucketed.listed id).mpr ⟨other, otherInside, member⟩, fun present => ?_⟩
        exact same (bucketed.disjoint otherInside inside member present)

/-- The handles that are left when one is taken out. -/
def without (ids : List HandleId) : Option HandleId → List HandleId
  | none => ids
  | some id => ids.erase id

theorem subset_middle (front rest : List HandleId) (id : HandleId) :
    front ++ rest ⊆ front ++ id :: rest :=
  ((List.sublist_cons_self id rest).append_left front).subset

theorem Finds.without_perm {found : Option HandleId} (finds : Finds heap ids key hash found) :
    (found.toList ++ without ids found).Perm ids := by
  cases found with
  | none => exact List.Perm.refl _
  | some old => exact (List.perm_cons_erase finds.1).symm

/-- `Remove` takes out the handle that matches. -/
theorem remove_spec (tabled : Tabled heap table ids) (readable : Readable heap ids)
    (key : Slice) (hash : BitVec 32) :
    ∃ found nextHash after, remove heap table key hash =
        some (found, { heap with nextHash := nextHash }, after) ∧
      Finds heap ids key hash found ∧
      Tabled { heap with nextHash := nextHash } after (without ids found) := by
  obtain ⟨buckets, bucketed⟩ := tabled.bucketed
  obtain ⟨front, back, split, found, finds⟩ :=
    findPointer_spec tabled.positive bucketed readable key hash
  have inside := bucketOf_lt tabled.positive hash
  have chain := bucketed.chains _ inside
  generalize bucketOf table.length hash = index at *
  rw [split] at chain
  have slotRead := Chain.read_head chain.drop
  cases back with
  | nil =>
      refine ⟨none, heap.nextHash, table, ?_, finds, tabled⟩
      simp only [remove, found, slotRead, Option.bind_eq_bind, Option.bind_some, List.head?_nil]
  | cons id rest =>
      have member : id ∈ ids := finds.1
      have successor : read heap table (.nextHash id) = some rest.head? :=
        Chain.read_head chain.drop.2
      obtain ⟨nextHash, list, written, size, reads⟩ :=
        write_spec (writable_of_read slotRead) rest.head?
      have few := tabled.few
      have fewer := List.length_pos_of_mem member
      have counted : (table.elems + (2 ^ 32 - 1)) % 2 ^ 32 = (ids.erase id).length := by
        rw [List.length_erase_of_mem member, tabled.elems]
        omega
      refine ⟨some id, nextHash, { table with list := list, elems := (ids.erase id).length }, ?_,
        finds, ⟨tabled.positive, ?_, tabled.nodup.erase id, rfl, ?_, ?_⟩⟩
      · simp only [remove, found, slotRead, successor, Option.bind_eq_bind, Option.bind_some,
          List.head?_cons, written, counted]
      · have nodup := Chain.slots_nodup chain
        have bucketNodup : (front ++ id :: rest).Nodup := (List.nodup_cons.mp nodup).2.of_map
        have outside : id ∉ front ++ rest := by
          have moved := List.nodup_middle.mp bucketNodup
          exact (List.nodup_cons.mp moved).1
        refine ⟨_, bucketed.rebucket inside rfl rfl size
          (chain.remove nodup ?_ ?_) ?_ ?_ ?_⟩
        · exact (congrFun reads _).trans ((Function.update_self _ _ _).trans successor.symm)
        · intro other apart
          exact (congrFun reads _).trans (Function.update_of_ne apart _ _)
        · intro other otherInside apart slot passed
          refine (congrFun reads _).trans (Function.update_of_ne ?_ _ _)
          refine bucketed.slot_ne inside otherInside apart passed ?_
          rw [split, List.map_append]
          exact List.cons_subset_cons _ (List.subset_append_left _ _) endSlot_mem
        · intro other present
          refine bucketed.placed index inside other ?_
          rw [split]
          exact subset_middle front rest id present
        · intro other
          show other ∈ ids.erase id ↔ _
          rw [tabled.nodup.mem_erase_iff, split]
          constructor
          · rintro ⟨different, present⟩
            by_cases here : other ∈ front ++ rest
            · exact .inl here
            · refine .inr ⟨present, fun again => here ?_⟩
              simpa [different] using again
          · rintro (here | ⟨present, elsewhere⟩)
            · refine ⟨fun same => outside (same ▸ here), (bucketed.listed other).mpr ?_⟩
              refine ⟨index, inside, ?_⟩
              rw [split]
              exact subset_middle front rest id here
            · exact ⟨fun same => elsewhere (by simp [same]), present⟩
      · show (ids.erase id).length ≤ 2 ^ 31
        rw [List.length_erase_of_mem member]
        omega
      · intro left leftMember right rightMember otherKey otherHash leftHits rightHits
        exact tabled.unique left (List.mem_of_mem_erase leftMember) right
          (List.mem_of_mem_erase rightMember) otherKey otherHash leftHits rightHits

/-- The chains do not depend on the element count. -/
theorem Bucketed.withElems (bucketed : Bucketed heap table buckets ids) (elems : Nat) :
    Bucketed heap { table with elems := elems } buckets ids where
  size := bucketed.size
  chains := fun index inside => (bucketed.chains index inside).congr fun slot _ => by
    cases slot <;> rfl
  placed := bucketed.placed
  listed := bucketed.listed

/-- A table does not depend on what of its handles is neither key nor hash. -/
theorem Tabled.congr (tabled : Tabled heap table ids)
    (nextHash : ∀ id ∈ ids, heap'.nextHash id = heap.nextHash id)
    (agree : ∀ id ∈ ids, ∃ old new, heap.handles id = some old ∧ heap'.handles id = some new ∧
      new.key = old.key ∧ new.hash = old.hash) : Tabled heap' table ids := by
  obtain ⟨buckets, bucketed⟩ := tabled.bucketed
  have hits : ∀ id ∈ ids, ∀ key hash, Matches heap' key hash id → Matches heap key hash id := by
    rintro id member key hash ⟨handle, stored, sameKey, sameHash⟩
    obtain ⟨old, new, was, now, keys, hashes⟩ := agree id member
    rw [stored] at now
    cases now
    exact ⟨old, was, by rw [← keys, sameKey], by rw [← hashes, sameHash]⟩
  refine ⟨tabled.positive, ⟨buckets, bucketed.size, ?_, ?_, bucketed.listed⟩, tabled.nodup,
    tabled.elems, tabled.few, ?_⟩
  · intro index inside
    refine (bucketed.chains index inside).congr fun slot passed => ?_
    rcases List.mem_cons.mp passed with rfl | passed
    · rfl
    · obtain ⟨id, member, rfl⟩ := List.mem_map.mp passed
      have listed : id ∈ ids := (bucketed.listed id).mpr ⟨index, inside, member⟩
      obtain ⟨old, new, was, now, -⟩ := agree id listed
      simp only [read, was, now, nextHash id listed, Option.bind_some]
  · intro index inside id member
    obtain ⟨old, new, was, now, -, hashes⟩ :=
      agree id ((bucketed.listed id).mpr ⟨index, inside, member⟩)
    obtain ⟨handle, stored, placed⟩ := bucketed.placed index inside id member
    rw [was] at stored
    cases stored
    exact ⟨new, now, by rw [hashes, placed]⟩
  · intro left leftMember right rightMember key hash leftHits rightHits
    exact tabled.unique left leftMember right rightMember key hash
      (hits left leftMember key hash leftHits) (hits right rightMember key hash rightHits)

end Change

section Resize

variable {newLength : Nat} {state : Rehash Value Deleter} {buckets : Nat → List HandleId}
  {done : List HandleId}

/-- Up to `2 ^ 31` elements the loop ends before the length overflows. -/
theorem growLength_spec {elems rounds exponent : Nat} (few : elems ≤ 2 ^ 31)
    (enough : elems ≤ 2 ^ exponent + rounds) :
    ∃ grown, growLength elems (rounds + 1) (2 ^ exponent) = some grown ∧ 0 < grown := by
  induction rounds generalizing exponent with
  | zero => exact ⟨2 ^ exponent, if_neg (by omega), Nat.two_pow_pos exponent⟩
  | succ rounds ih =>
      unfold growLength
      by_cases short : 2 ^ exponent < elems
      · have below : exponent < 31 :=
          (Nat.pow_lt_pow_iff_right (by decide)).mp (Nat.lt_of_lt_of_le short few)
        have doubled : 2 ^ exponent * 2 % 2 ^ 32 = 2 ^ (exponent + 1) := by
          rw [← Nat.pow_succ]
          exact Nat.mod_eq_of_lt (Nat.pow_lt_pow_right (by decide) (by omega))
        have positive := Nat.two_pow_pos exponent
        rw [if_pos short, doubled]
        exact ih (by rw [Nat.pow_succ]; omega)
      · rw [if_neg short]
        exact ⟨2 ^ exponent, rfl, Nat.two_pow_pos exponent⟩

/-- The handles `done` have been moved, and the others are as they were. -/
structure Rehashed (heap : Heap Value Deleter) (newLength : Nat) (state : Rehash Value Deleter)
    (buckets : Nat → List HandleId) (done : List HandleId) : Prop where
  sameHeap : state.heap = { heap with nextHash := state.heap.nextHash }
  untouched : ∀ id, id ∉ done → state.heap.nextHash id = heap.nextHash id
  bucketed : Bucketed state.heap ⟨newLength, 0, state.newList⟩ buckets done
  count : state.count = done.length % 2 ^ 32

/-- Moving one handle puts it in front of its new bucket. -/
theorem Rehashed.push (rehashed : Rehashed heap newLength state buckets done)
    (positive : 0 < newLength) {id : HandleId} {handle : LRUHandle Value Deleter}
    (stored : heap.handles id = some handle) (waiting : id ∉ done) :
    ∃ first buckets', state.newList[bucketOf newLength handle.hash]? = some first ∧
      Rehashed heap newLength
        { heap := { state.heap with
            nextHash := Function.update state.heap.nextHash id (some first) }
          newList := state.newList.set (bucketOf newLength handle.hash) (some id)
          count := (state.count + 1) % 2 ^ 32 } buckets' (done ++ [id]) := by
  have inside := bucketOf_lt positive handle.hash
  have chain := rehashed.bucketed.chains _ inside
  have sameHandles : state.heap.handles = heap.handles := by rw [rehashed.sameHeap]
  have size : state.newList.length = newLength := rehashed.bucketed.size
  have unlisted : ∀ index < newLength, id ∉ buckets index := fun index within member =>
    waiting ((rehashed.bucketed.listed id).mpr ⟨index, within, member⟩)
  generalize at_ : bucketOf newLength handle.hash = index at *
  have slotRead := Chain.read_head chain
  have first : state.newList[index]? = some (buckets index).head? := slotRead
  refine ⟨_, Function.update buckets index (id :: buckets index), first, ?_⟩
  have reads : ∀ slot, slot ≠ .bucket index → slot ≠ .nextHash id →
      read { state.heap with
          nextHash := Function.update state.heap.nextHash id (some (buckets index).head?) }
        ⟨newLength, 0, state.newList.set index (some id)⟩ slot =
          read state.heap ⟨newLength, 0, state.newList⟩ slot := by
    intro slot notBucket notId
    cases slot with
    | bucket other =>
        have apart : index ≠ other := fun same => notBucket (same ▸ rfl)
        exact List.getElem?_set_ne apart
    | nextHash other =>
        have apart : other ≠ id := fun same => notId (same ▸ rfl)
        simp only [read, Function.update_of_ne apart]
  have next : read { state.heap with
        nextHash := Function.update state.heap.nextHash id (some (buckets index).head?) }
      ⟨newLength, 0, state.newList.set index (some id)⟩ (.nextHash id) =
        read state.heap ⟨newLength, 0, state.newList⟩ (.bucket index) := by
    rw [slotRead]
    simp only [read, sameHandles, stored, Option.bind_some, Function.update_self]
  have pushed := @Segment.insert _ _ _ _ _ _ _ [] _ id chain (Chain.slots_nodup chain)
    (by simpa using unlisted index inside)
    (List.getElem?_set_self (by rw [size]; exact inside)) next reads
  refine ⟨?_, ?_, rehashed.bucketed.rebucket inside rfl rfl (List.length_set ..) pushed
    ?_ ?_ ?_, ?_⟩
  · show _ = { heap with nextHash := _ }
    rw [rehashed.sameHeap]
  · intro other outside
    have apart : other ≠ id := fun same => outside (by simp [same])
    exact (Function.update_of_ne apart _ _).trans
      (rehashed.untouched other fun member => outside (by simp [member]))
  · intro other otherInside apart slot passed
    refine reads slot ?_ ?_
    · rintro rfl
      exact apart (by simpa using Eq.symm (by simpa using passed))
    · rintro rfl
      exact unlisted other otherInside (by simpa using passed)
  · intro other member
    rcases List.mem_cons.mp member with rfl | old
    · exact ⟨handle, by rw [sameHandles, stored], at_⟩
    · exact rehashed.bucketed.placed _ inside other old
  · intro other
    rw [List.mem_append, List.mem_singleton, List.mem_cons]
    constructor
    · rintro (old | rfl)
      · by_cases here : other ∈ buckets index
        · exact .inl (.inr here)
        · exact .inr ⟨old, here⟩
      · exact .inl (.inl rfl)
    · rintro ((rfl | here) | ⟨old, -⟩)
      · exact .inr rfl
      · exact .inl ((rehashed.bucketed.listed other).mpr ⟨_, inside, here⟩)
      · exact .inl old
  · show (state.count + 1) % 2 ^ 32 = _
    rw [rehashed.count, List.length_append, List.length_singleton, Nat.mod_add_mod]

/-- The inner loop moves a whole chain of the old table. -/
theorem rehashChain_spec {rounds : Nat} {slot : Slot} {cells : List HandleId}
    (positive : 0 < newLength) (rehashed : Rehashed heap newLength state buckets done)
    (chain : Chain (read heap table) .nextHash slot cells)
    (live : ∀ id ∈ cells, ∃ handle, heap.handles id = some handle)
    (waiting : ∀ id ∈ cells, id ∉ done) (enough : cells.length ≤ rounds) :
    ∃ moved buckets', rehashChain newLength rounds cells.head? state = some moved ∧
      Rehashed heap newLength moved buckets' (done ++ cells) := by
  induction cells generalizing slot rounds state buckets done with
  | nil =>
      refine ⟨state, buckets, ?_, by rwa [List.append_nil]⟩
      cases rounds <;> rfl
  | cons id rest ih =>
      obtain ⟨handle, stored⟩ := live id List.mem_cons_self
      have notDone := waiting id List.mem_cons_self
      obtain ⟨first, pushedBuckets, read_, pushed⟩ := rehashed.push positive stored notDone
      have successor : state.heap.nextHash id = some rest.head? := by
        have := Chain.read_head chain.2
        simp only [read, stored, Option.bind_some] at this
        rw [rehashed.untouched id notDone, this]
      have stillStored : state.heap.handles id = some handle := by
        rw [rehashed.sameHeap]
        exact stored
      have nodup : (id :: rest).Nodup := (List.nodup_cons.mp (Chain.slots_nodup chain)).2.of_map
      cases rounds with
      | zero => simp at enough
      | succ rounds =>
          obtain ⟨moved, buckets', ran, result⟩ := ih pushed chain.2
            (fun other member => live other (List.mem_cons_of_mem _ member))
            (by
              intro other member again
              rcases List.mem_append.mp again with old | same
              · exact waiting other (List.mem_cons_of_mem _ member) old
              · obtain rfl := List.mem_singleton.mp same
                exact (List.nodup_cons.mp nodup).1 member)
            (by simpa using enough)
          refine ⟨moved, buckets', ?_, by rwa [List.append_assoc] at result⟩
          simp only [rehashChain, List.head?_cons, stillStored, successor, read_,
            Option.bind_eq_bind, Option.bind_some]
          exact ran

variable {oldBuckets : Nat → List HandleId}

/-- The outer loop after `count` buckets of the old table. -/
theorem rehashAll_spec (positive : 0 < newLength)
    (bucketed : Bucketed heap table oldBuckets ids)
    (bounded : ∀ id, heap.fresh ≤ id → heap.handles id = none) {count : Nat}
    (within : count ≤ table.length) :
    ∃ moved buckets, (List.range count).foldlM
        (fun state index => do
          rehashChain newLength (heap.fresh + 1) (← table.list[index]?) state)
        ⟨heap, List.replicate newLength none, 0⟩ = some moved ∧
      Rehashed heap newLength moved buckets ((List.range count).flatMap oldBuckets) := by
  induction count with
  | zero =>
      refine ⟨_, fun _ => [], rfl, rfl, fun _ _ => rfl, ⟨by simp, ?_, by simp, by simp⟩, rfl⟩
      intro index inside
      show (List.replicate newLength none)[index]? = some none
      rw [List.getElem?_replicate, if_pos inside]
  | succ count ih =>
      obtain ⟨state, buckets, ran, rehashed⟩ := ih (by omega)
      have inside : count < table.length := by omega
      have chain := bucketed.chains count inside
      have slotRead := Chain.read_head chain
      have entry : table.list[count]? = some (oldBuckets count).head? := slotRead
      have live : ∀ id ∈ oldBuckets count, ∃ handle, heap.handles id = some handle := by
        intro id member
        obtain ⟨handle, stored, -⟩ := bucketed.placed count inside id member
        exact ⟨handle, stored⟩
      have short := chain_length_le chain fun id member => by
        obtain ⟨handle, stored⟩ := live id member
        by_contra beyond
        rw [bounded id (Nat.le_of_not_lt beyond)] at stored
        cases stored
      obtain ⟨moved, buckets', chainRan, result⟩ := rehashChain_spec positive rehashed chain live
        (by
          intro id member earlier
          obtain ⟨index, indexMember, again⟩ := List.mem_flatMap.mp earlier
          have before := List.mem_range.mp indexMember
          have := bucketed.disjoint inside (by omega) member again
          omega)
        (Nat.le_succ_of_le short)
      refine ⟨moved, buckets', ?_, ?_⟩
      · rw [List.range_succ, List.foldlM_append, ran]
        simp only [Option.bind_eq_bind, Option.bind_some, List.foldlM_cons, List.foldlM_nil,
          entry, chainRan]
        rfl
      · rw [List.range_succ, List.flatMap_append, List.flatMap_singleton]
        exact result

/-- The buckets hold every handle of the table once. -/
theorem Bucketed.perm (bucketed : Bucketed heap table oldBuckets ids) (nodup : ids.Nodup) :
    ((List.range table.length).flatMap oldBuckets).Perm ids := by
  refine (List.perm_ext_iff_of_nodup ?_ nodup).mpr fun id => ?_
  · refine List.nodup_flatMap.mpr ⟨?_, ?_⟩
    · intro index member
      have chain := bucketed.chains index (List.mem_range.mp member)
      exact (List.nodup_cons.mp (Chain.slots_nodup chain)).2.of_map
    · refine List.Pairwise.imp_of_mem ?_ List.nodup_range
      intro index other member otherMember apart id here there
      exact apart (bucketed.disjoint (List.mem_range.mp member)
        (List.mem_range.mp otherMember) here there)
  · rw [bucketed.listed]
    simp [List.mem_flatMap]

/-- `Resize` moves every handle to a table with a bucket for each. -/
theorem resize_spec (bucketed : Bucketed heap table oldBuckets ids) (nodup : ids.Nodup)
    (elems : table.elems = ids.length) (few : ids.length ≤ 2 ^ 31)
    (bounded : ∀ id, heap.fresh ≤ id → heap.handles id = none) :
    ∃ nextHash after, resize heap table = some ({ heap with nextHash := nextHash }, after) ∧
      0 < after.length ∧ after.elems = table.elems ∧
      ∃ buckets, Bucketed { heap with nextHash := nextHash } after buckets ids := by
  obtain ⟨newLength, grown, positive⟩ : ∃ grown,
      growLength table.elems (table.elems + 1) 4 = some grown ∧ 0 < grown :=
    @growLength_spec table.elems table.elems 2 (elems ▸ few) (by omega)
  obtain ⟨moved, buckets, ran, rehashed⟩ :=
    rehashAll_spec positive bucketed bounded (Nat.le_refl table.length)
  have perm := bucketed.perm nodup
  have count : table.elems = moved.count := by
    rw [rehashed.count, perm.length_eq, elems]
    exact (Nat.mod_eq_of_lt (by omega)).symm
  refine ⟨moved.heap.nextHash, ⟨newLength, table.elems, moved.newList⟩, ?_, positive, rfl,
    buckets, ?_⟩
  · simp only [resize, grown, Option.bind_eq_bind, Option.bind_some]
    simp only [Option.bind_eq_bind] at ran
    rw [ran]
    simp only [Option.bind_some, if_pos count]
    rw [← rehashed.sameHeap]
  · have result := rehashed.bucketed.withElems table.elems
    rw [rehashed.sameHeap] at result
    exact { result with listed := fun id => perm.mem_iff.symm.trans (result.listed id) }

end Resize

section Insert

variable {buckets : Nat → List HandleId} {front back : List HandleId} {id : HandleId}
  {handle : LRUHandle Value Deleter}

theorem mem_without (nodup : ids.Nodup) {old : Option HandleId} {other : HandleId} :
    other ∈ without ids old ↔ other ∈ ids ∧ old ≠ some other := by
  cases old with
  | none => simp [without]
  | some replaced =>
      rw [without, nodup.mem_erase_iff]
      simp [eq_comm, and_comm]

theorem without_nodup (nodup : ids.Nodup) (old : Option HandleId) : (without ids old).Nodup := by
  cases old with
  | none => exact nodup
  | some replaced => exact nodup.erase replaced

/-- Once `id` stands in the place of the first of `back`, the handles of the table are
those of its bucket and those of the other buckets. -/
theorem mem_cons_without (nodup : ids.Nodup) (bucketNodup : (front ++ back).Nodup)
    (listed : ∀ other ∈ front ++ back, other ∈ ids) {other : HandleId} :
    other ∈ id :: without ids back.head? ↔
      other ∈ front ++ id :: back.tail ∨ other ∈ ids ∧ other ∉ front ++ back := by
  have placed : other ∈ front ++ id :: back.tail ↔ other = id ∨ other ∈ front ++ back.tail := by
    simp [or_left_comm]
  have stays : other ∈ front ++ back.tail ↔ other ∈ front ++ back ∧ back.head? ≠ some other := by
    cases back with
    | nil => simp
    | cons old rest =>
        have distinct := (List.nodup_cons.mp (List.nodup_middle.mp bucketNodup)).1
        rw [List.tail_cons, List.head?_cons, ne_eq, Option.some_inj]
        constructor
        · intro member
          refine ⟨subset_middle front rest old member, ?_⟩
          rintro rfl
          exact distinct member
        · rintro ⟨member, different⟩
          simpa [Ne.symm different] using member
  rw [List.mem_cons, mem_without nodup, placed, stays]
  constructor
  · rintro (same | ⟨member, different⟩)
    · exact .inl (.inl same)
    · by_cases inBucket : other ∈ front ++ back
      · exact .inl (.inr ⟨inBucket, different⟩)
      · exact .inr ⟨member, inBucket⟩
  · rintro ((same | ⟨member, different⟩) | ⟨member, elsewhere⟩)
    · exact .inl same
    · exact .inr ⟨listed other member, different⟩
    · refine .inr ⟨member, fun first => elsewhere ?_⟩
      exact List.mem_append_right _ (List.mem_of_mem_head? first)

/-- Putting `id` in the place of the first of `back`, or at the end, of its bucket. -/
theorem Bucketed.place (bucketed : Bucketed heap table buckets ids) (nodup : ids.Nodup)
    {index : Nat} (inside : index < table.length) (split : buckets index = front ++ back)
    (stored : heap.handles id = some handle)
    (here : bucketOf table.length handle.hash = index) (new : id ∉ ids)
    {heap' : Heap Value Deleter} {table' : HandleTable}
    (handles : heap'.handles = heap.handles) (length : table'.length = table.length)
    (size : table'.list.length = table.list.length)
    (reads : read heap' table' = Function.update
      (Function.update (read heap table) (.nextHash id) (some back.tail.head?))
      (endSlot .nextHash (.bucket index) front) (some (some id))) :
    ∃ buckets', Bucketed heap' table' buckets' (id :: without ids back.head?) := by
  have chain := bucketed.chains index inside
  rw [split] at chain
  have slots := Chain.slots_nodup chain
  have bucketNodup : (front ++ back).Nodup := (List.nodup_cons.mp slots).2.of_map
  have listed : ∀ other ∈ front ++ back, other ∈ ids := fun other member =>
    (bucketed.listed other).mpr ⟨index, inside, split ▸ member⟩
  have slotPassed : endSlot Slot.nextHash (.bucket index) front ∈
      Slot.bucket index :: front.map Slot.nextHash := endSlot_mem
  have fresh : ∀ cells : List HandleId, (∀ other ∈ cells, other ∈ ids) →
      Slot.nextHash id ∉ Slot.bucket index :: cells.map Slot.nextHash := by
    intro cells old passed
    exact new (old id (by simpa using passed))
  have apart : Slot.nextHash id ≠ endSlot Slot.nextHash (.bucket index) front := by
    intro same
    refine fresh front (fun other member => listed other (List.mem_append_left _ member)) ?_
    rw [same]
    exact slotPassed
  have linked : read heap' table' (endSlot .nextHash (.bucket index) front) = some (some id) := by
    rw [reads, Function.update_self]
  have next : read heap' table' (.nextHash id) = some back.tail.head? := by
    rw [reads, Function.update_of_ne apart, Function.update_self]
  have others : ∀ other, other ≠ endSlot .nextHash (.bucket index) front →
      other ≠ .nextHash id → read heap' table' other = read heap table other := by
    intro other notSlot notId
    rw [reads, Function.update_of_ne notSlot, Function.update_of_ne notId]
  have placedChain : Chain (read heap' table') .nextHash (.bucket index)
      (front ++ id :: back.tail) := by
    cases back with
    | nil =>
        refine chain.insert slots (fresh _ listed) linked ?_ others
        exact next.trans (Chain.read_head chain.drop).symm
    | cons old rest =>
        -- the old handle is taken out first, then the new one is put there
        have successor : read heap table (.nextHash old) = some rest.head? :=
          Chain.read_head chain.drop.2
        have shorter : Chain (Function.update (read heap table)
            (endSlot .nextHash (.bucket index) front) (some rest.head?)) .nextHash
            (.bucket index) (front ++ rest) := by
          refine chain.remove slots ?_ fun other notSlot => Function.update_of_ne notSlot _ _
          rw [Function.update_self]
          exact successor.symm
        refine shorter.insert (Chain.slots_nodup shorter) (fresh _ ?_) linked ?_ ?_
        · intro other member
          exact listed other (subset_middle front rest old member)
        · rw [Function.update_self]
          exact next
        · intro other notSlot notId
          rw [Function.update_of_ne notSlot]
          exact others other notSlot notId
  refine ⟨_, bucketed.rebucket inside handles length size placedChain ?_ ?_ ?_⟩
  · intro other otherInside differ slot passed
    refine others slot ?_ ?_
    · refine bucketed.slot_ne inside otherInside differ passed ?_
      rw [split, List.map_append]
      exact List.cons_subset_cons _ (List.subset_append_left _ _) slotPassed
    · rintro rfl
      exact new ((bucketed.listed id).mpr ⟨other, otherInside, by simpa using passed⟩)
  · intro other member
    rcases List.mem_append.mp member with before | member
    · exact bucketed.placed index inside other (split ▸ List.mem_append_left _ before)
    · rcases List.mem_cons.mp member with rfl | after
      · exact ⟨handle, stored, here⟩
      · exact bucketed.placed index inside other
          (split ▸ List.mem_append_right _ (List.mem_of_mem_tail after))
  · intro other
    rw [split]
    exact mem_cons_without nodup bucketNodup listed

/-- A handle in the place of the one it matches is again the only one of its key. -/
theorem Finds.unique_cons {old : Option HandleId}
    (finds : Finds heap ids handle.key handle.hash old) (tabled : Tabled heap table ids)
    (stored : heap.handles id = some handle) :
    ∀ left ∈ id :: without ids old, ∀ right ∈ id :: without ids old,
      ∀ key hash, Matches heap key hash left → Matches heap key hash right → left = right := by
  have alone : ∀ other ∈ without ids old, ∀ key hash,
      Matches heap key hash id → Matches heap key hash other → False := by
    rintro other member _ _ ⟨same, again, rfl, rfl⟩ hits
    rw [stored] at again
    cases again
    obtain ⟨present, apart⟩ := (mem_without tabled.nodup).mp member
    exact apart (finds.unique tabled present hits)
  intro left leftMember right rightMember key hash leftHits rightHits
  rcases List.mem_cons.mp leftMember with rfl | leftOld
  · rcases List.mem_cons.mp rightMember with rfl | rightOld
    · rfl
    · exact (alone right rightOld key hash leftHits rightHits).elim
  · rcases List.mem_cons.mp rightMember with rfl | rightOld
    · exact (alone left leftOld key hash rightHits leftHits).elim
    · exact tabled.unique left ((mem_without tabled.nodup).mp leftOld).1 right
        ((mem_without tabled.nodup).mp rightOld).1 key hash leftHits rightHits

/-- `Insert` adds a handle in the place of the one it matches, or where there is room for
one more. -/
theorem insert_spec (tabled : Tabled heap table ids) (readable : Readable heap ids)
    (stored : heap.handles id = some handle) (named : heap.keyOf id = some handle.key)
    (new : id ∉ ids)
    (room : Finds heap ids handle.key handle.hash none → table.elems < 2 ^ 31) :
    ∃ old nextHash after, insert heap table id =
        some (old, { heap with nextHash := nextHash }, after) ∧
      Finds heap ids handle.key handle.hash old ∧
      Tabled { heap with nextHash := nextHash } after (id :: without ids old) := by
  obtain ⟨buckets, bucketed⟩ := tabled.bucketed
  obtain ⟨front, back, split, found, finds⟩ :=
    findPointer_spec tabled.positive bucketed readable handle.key handle.hash
  have inside := bucketOf_lt tabled.positive handle.hash
  have chain := bucketed.chains _ inside
  rw [split] at chain
  have slotRead := Chain.read_head chain.drop
  have next : successor heap table back.head? = some back.tail.head? := by
    cases back with
    | nil => rfl
    | cons old rest =>
        have follows := Chain.read_head chain.drop.2
        exact follows
  obtain ⟨firstHash, firstList, firstWritten, firstSize, firstReads⟩ :=
    @write_spec _ _ heap table (.nextHash id) ⟨handle, stored⟩ back.tail.head?
  have writable : Writable { heap with nextHash := firstHash } { table with list := firstList }
      (endSlot .nextHash (.bucket (bucketOf table.length handle.hash)) front) := by
    have := writable_of_read slotRead
    revert this
    generalize endSlot Slot.nextHash (.bucket (bucketOf table.length handle.hash)) front = slot
    cases slot with
    | bucket index => exact fun within => Nat.lt_of_lt_of_eq within firstSize.symm
    | nextHash other => exact fun live => live
  obtain ⟨lastHash, lastList, lastWritten, lastSize, lastReads⟩ :=
    write_spec writable (some id)
  have reads := lastReads
  rw [firstReads] at reads
  have place : ∃ buckets, Bucketed { heap with nextHash := lastHash }
      { table with list := lastList } buckets (id :: without ids back.head?) :=
    bucketed.place tabled.nodup inside split stored rfl new rfl rfl
      (lastSize.trans firstSize) reads
  obtain ⟨placedBuckets, placed⟩ := place
  have unlisted : id ∉ without ids back.head? := fun member =>
    new ((mem_without tabled.nodup).mp member).1
  have nodup : (id :: without ids back.head?).Nodup :=
    List.nodup_cons.mpr ⟨unlisted, without_nodup tabled.nodup _⟩
  have unique := finds.unique_cons tabled stored
  cases back with
  | cons old rest =>
      have member : old ∈ ids := finds.1
      have present := List.length_pos_of_mem member
      have same : ids.length = (id :: ids.erase old).length := by
        rw [List.length_cons, List.length_erase_of_mem member]
        omega
      refine ⟨some old, lastHash, { table with list := lastList }, ?_, finds,
        ⟨tabled.positive, ⟨_, placed⟩, nodup, tabled.elems.trans same, same ▸ tabled.few, unique⟩⟩
      simp only [List.head?_cons] at slotRead next
      simp only [insert, stored, named, found, slotRead, next, firstWritten, lastWritten,
        Option.bind_eq_bind, Option.bind_some]
  | nil =>
      simp only [List.head?_nil] at slotRead next
      have space := room finds
      have few : (id :: ids).length ≤ 2 ^ 31 := by
        rw [List.length_cons, ← tabled.elems]
        exact space
      have counted : (table.elems + 1) % 2 ^ 32 = (id :: ids).length := by
        rw [List.length_cons, ← tabled.elems]
        exact Nat.mod_eq_of_lt (by omega)
      have counting := placed.withElems (id :: ids).length
      by_cases crowded : (id :: ids).length > table.length
      · obtain ⟨nextHash, after, resized, positive, elems, rebucketed⟩ :=
          resize_spec counting nodup rfl few readable.bounded
        refine ⟨none, nextHash, after, ?_, finds,
          ⟨positive, rebucketed, nodup, elems, few, unique⟩⟩
        simp only [insert, stored, named, found, slotRead, next, firstWritten, lastWritten,
          Option.bind_eq_bind, Option.bind_some, counted, if_pos crowded, resized, Option.map_some]
      · refine ⟨none, lastHash, { table with list := lastList, elems := (id :: ids).length }, ?_,
          finds, ⟨tabled.positive, ⟨_, counting⟩, nodup, rfl, few, unique⟩⟩
        simp only [insert, stored, named, found, slotRead, next, firstWritten, lastWritten,
          Option.bind_eq_bind, Option.bind_some, counted, if_neg crowded]

/-- The constructor makes an empty table. -/
theorem new_spec (bounded : ∀ id, heap.fresh ≤ id → heap.handles id = none) :
    ∃ nextHash table, new heap = some ({ heap with nextHash := nextHash }, table) ∧
      Tabled { heap with nextHash := nextHash } table [] := by
  have empty : Bucketed heap ⟨0, 0, []⟩ (fun _ => []) [] :=
    ⟨rfl, by simp, by simp, by simp⟩
  obtain ⟨nextHash, table, made, positive, elems, bucketed⟩ :=
    resize_spec empty List.nodup_nil rfl (Nat.zero_le _) bounded
  exact ⟨nextHash, table, made, positive, bucketed, List.nodup_nil, elems, Nat.zero_le _, by simp⟩

end Insert

end HandleTable

end MiniLevelDb
