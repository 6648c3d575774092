import MiniLevelDb.Util.CacheInvariant
import Mathlib.Algebra.Order.BigOperators.Group.List
import Mathlib.Algebra.Order.Group.Nat

/-!
# The operations of a cache

Each operation succeeds, keeps the invariant, and moves handles between the lists as
stated: a handle enters `in_use_` when it is inserted or looked up again, and goes to
the end of `lru_` when the client releases its last handle.
-/

namespace MiniLevelDb

open Foundation HandleTable Heap

namespace LRUCache

variable {Value Deleter : Type} {cache : LRUCache Value Deleter}
  {cells : CacheList → List HandleId} {ids : List HandleId}
  {pending : Option HandleId} {client : CacheClient Value Deleter}
  {id : HandleId} {handle : LRUHandle Value Deleter}

/-- A later state of the same cache: its capacity is set once, and no call is undone. -/
structure Continues (cache after : LRUCache Value Deleter) : Prop where
  capacity : after.capacity = cache.capacity
  deleted : cache.deleted <+: after.deleted

namespace Continues

theorem refl (cache : LRUCache Value Deleter) : Continues cache cache :=
  ⟨rfl, List.prefix_refl _⟩

theorem trans {between after : LRUCache Value Deleter} (first : Continues cache between)
    (second : Continues between after) : Continues cache after :=
  ⟨second.capacity.trans first.capacity, first.deleted.trans second.deleted⟩

end Continues

section Counters

theorem toNat_ofNat_count {count : Nat} (small : count < 2 ^ 32) :
    (BitVec.ofNat 32 count).toNat = count := by
  rw [BitVec.toNat_ofNat, Nat.mod_eq_of_lt small]

/-- One reference less. -/
theorem refs_pred {refs : BitVec 32} {left : Nat} (count : refs.toNat = left + 1) :
    refs ≠ 0 ∧ refs - 1 = BitVec.ofNat 32 left := by
  have small := refs.isLt
  have positive : refs ≠ 0 := by
    rintro rfl
    cases count
  refine ⟨positive, BitVec.eq_of_toNat_eq ?_⟩
  rw [toNat_ofNat_count (by omega), BitVec.toNat_sub, count]
  show (2 ^ 32 - 1 + (left + 1)) % 2 ^ 32 = left
  omega

/-- One reference more. -/
theorem refs_succ (refs : BitVec 32) : refs + 1 = BitVec.ofNat 32 (refs.toNat + 1) := by
  rw [BitVec.ofNat_add, BitVec.ofNat_toNat, BitVec.setWidth_eq]
  rfl

theorem refs_eq_one {refs : BitVec 32} : refs = 1 ↔ refs.toNat = 1 :=
  BitVec.toNat_inj.symm

/-- A charge that was added is taken off again, whatever the sum wrapped around to. -/
theorem usage_sub (charge : BitVec 64) (rest : Nat) :
    BitVec.ofNat 64 (charge.toNat + rest) - charge = BitVec.ofNat 64 rest := by
  rw [BitVec.ofNat_add, BitVec.ofNat_toNat, BitVec.setWidth_eq, BitVec.add_comm,
    BitVec.add_sub_cancel]

end Counters

/-- The calls made when `held` handles to an entry that is not cached are left. -/
def lastCall (held : Nat) (call : DeleterCall Value Deleter) : List (DeleterCall Value Deleter) :=
  if held = 0 then [call] else []

/-- What is left of a handle that is not cached, with `held` handles to it. -/
def leftover (held : Nat) (handle : LRUHandle Value Deleter) :
    Option (LRUHandle Value Deleter) :=
  if held = 0 then none else some { handle with inCache := false, refs := BitVec.ofNat 32 held }

theorem callsFor_lastCall (log : List (DeleterCall Value Deleter)) (held : Nat)
    (entry : Inserted Value Deleter) :
    callsFor (log ++ lastCall held (entry.call id)) id =
      callsFor log id ++ lastCall held (entry.call id) := by
  unfold callsFor lastCall
  split <;> simp [Inserted.call]

theorem callsFor_lastCall_other (log : List (DeleterCall Value Deleter)) (held : Nat)
    (entry : Inserted Value Deleter) {other : HandleId} (differ : other ≠ id) :
    callsFor (log ++ lastCall held (entry.call id)) other = callsFor log other := by
  unfold callsFor lastCall
  split <;> simp [Inserted.call, Ne.symm differ]

/-- An entry that is not cached is in order as long as its last handle is there, and
after its deleter is called. -/
theorem entryOk_leftover {inserted : Option (Inserted Value Deleter)} {cached : Prop}
    (known : inserted = some handle.inserted) (unlisted : ∀ list, id ∉ cells list)
    (uncached : ¬ cached) {held : Nat} (small : held < 2 ^ 32) :
    EntryOk cells cached held inserted (lastCall held (handle.inserted.call id)) id
      (leftover held handle) := by
  unfold leftover lastCall
  by_cases none_left : held = 0
  · simp only [none_left, if_true]
    exact ⟨rfl, uncached, unlisted, by rw [known]; rfl⟩
  · simp only [none_left, if_false]
    have count := toNat_ofNat_count small
    refine ⟨by simpa using count, ?_, by simpa using uncached, by simpa using unlisted, known, rfl⟩
    exact Nat.lt_of_lt_of_eq (Nat.pos_of_ne_zero none_left) count.symm

/-- `Unref` of an entry that is not cached. -/
theorem unref_uncached {held : Nat} (stored : cache.heap.handles id = some handle)
    (outside : handle.inCache = false) (count : handle.refs.toNat = held + 1)
    (named : cache.heap.Named id) :
    cache.unref id = some { cache with
      heap := { cache.heap with
        handles := Function.update cache.heap.handles id (leftover held handle) }
      deleted := cache.deleted ++ lastCall held (handle.inserted.call id) } := by
  obtain ⟨positive, less⟩ := refs_pred count
  have small := handle.refs.isLt
  have key : (cache.heap.setHandle id
      { handle with inCache := false, refs := BitVec.ofNat 32 held }).keyOf id =
        some handle.key := @Named.keyOf _ _ (setHandle _ _ _) id
    { handle with inCache := false, refs := BitVec.ofNat 32 held } named
      (Function.update_self _ _ _)
  unfold leftover lastCall
  by_cases none_left : held = 0
  · have gone : BitVec.ofNat 32 held = 0 := by
      rw [none_left]
      rfl
    simp only [unref, stored, Option.bind_eq_bind, Option.bind_some, positive, if_false, less,
      gone, if_true, outside, Bool.false_eq_true]
    rw [gone] at key
    rw [key]
    simp [Heap.free, Heap.setHandle, Inserted.call, LRUHandle.inserted, none_left]
  · have stays : BitVec.ofNat 32 held ≠ 0 := by
      intro gone
      have zero := toNat_ofNat_count (show held < 2 ^ 32 by omega)
      rw [gone] at zero
      exact none_left zero.symm
    simp only [unref, stored, Option.bind_eq_bind, Option.bind_some, positive, if_false, less,
      stays, none_left, outside, Bool.false_eq_true, false_and]
    simp [Heap.setHandle]

/-- A cached entry is in order in the list of its count. -/
theorem entryOk_cached {inserted : Option (Inserted Value Deleter)} {cached : Prop}
    {calls : List (DeleterCall Value Deleter)} {held : Nat}
    (known : inserted = some handle.inserted)
    (inCache : handle.inCache = true) (count : handle.refs.toNat = held + 1) (isCached : cached)
    (listed : ∀ list, id ∈ cells list ↔ (list = .lru ↔ held = 0)) (none_made : calls = []) :
    EntryOk cells cached held inserted calls id (some handle) where
  refs := by simp [count, inCache]
  positive := by omega
  cached := by simp [inCache, isCached]
  listed := by
    intro list
    rw [listed, count, inCache]
    simp
  inserted := known
  calls := none_made

theorem cached_none {other : HandleId} : Cached ids none other ↔ other ∈ ids := by
  simp [Cached]

theorem Rings.setHandle {heap : Heap Value Deleter} (rings : Rings heap cells)
    (handle : LRUHandle Value Deleter) : Rings (heap.setHandle id handle) cells where
  ring := rings.ring
  apart := rings.apart
  live := by
    intro list other member
    have live := rings.live list other member
    by_cases same : other = id
    · subst same
      simp [isLive, Heap.setHandle]
    · simpa [isLive, Heap.setHandle, same] using live

namespace Inv

/-- A cached entry is in the list of its count. -/
theorem mem_cells (inv : Inv cache cells ids none client) (member : id ∈ ids) (list : CacheList) :
    id ∈ cells list ↔ (list = .lru ↔ client.held id = 0) := by
  obtain ⟨handle, stored⟩ := inv.stored_of_cached (.inl member)
  have entry := inv.live stored
  have inCache := entry.cached.mpr (.inl member)
  have refs := entry.refs
  rw [entry.listed, refs, inCache]
  simp

theorem unlisted_of_not_mem (inv : Inv cache cells ids none client) (absent : id ∉ ids)
    (list : CacheList) : id ∉ cells list := by
  have entry := inv.entries id
  cases stored : cache.heap.handles id with
  | none =>
      rw [stored] at entry
      exact entry.listed list
  | some handle =>
      rw [stored] at entry
      refine inv.unlisted stored ?_ list
      rw [← Bool.not_eq_true, entry.cached, cached_none]
      exact absent

/-- Only cached entries are in a list. -/
theorem mem_ids (inv : Inv cache cells ids none client) {list : CacheList}
    (listed : id ∈ cells list) : id ∈ ids := by
  by_contra absent
  exact inv.unlisted_of_not_mem absent list listed

/-- The usage, when nothing is pending. -/
theorem usage_eq (inv : Inv cache cells ids none client) :
    cache.usage = BitVec.ofNat 64 (ids.map client.chargeOf).sum := by
  rw [inv.usage, Option.toList_none, List.nil_append]

/-- A change in the count of one cached entry, and so in the list it is in. -/
theorem recount (inv : Inv cache cells ids none client) (member : id ∈ ids)
    (stored : cache.heap.handles id = some handle) {held : Nat} (small : held + 1 < 2 ^ 32)
    {next prev : ListNode → Option (Option ListNode)} {cells' : CacheList → List HandleId}
    (rings : Rings { cache.heap.setHandle id
      { handle with refs := BitVec.ofNat 32 (held + 1) } with
        next := next, prev := prev } cells')
    (named : ∀ other, cache.heap.Named other →
      Named { cache.heap.setHandle id { handle with refs := BitVec.ofNat 32 (held + 1) } with
        next := next, prev := prev } other)
    (others : ∀ other, other ≠ id → ∀ list, other ∈ cells' list ↔ other ∈ cells list)
    (listed : ∀ list, id ∈ cells' list ↔ (list = .lru ↔ held = 0)) :
    Inv { cache with heap := { cache.heap.setHandle id
      { handle with refs := BitVec.ofNat 32 (held + 1) } with
        next := next, prev := prev } } cells' ids none
      { client with held := Function.update client.held id held } := by
  have entry := inv.live stored
  have inCache := entry.cached.mpr (.inl member)
  have known := inv.inserted stored
  refine inv.rebuild (some { handle with refs := BitVec.ofNat 32 (held + 1) }) rfl
    (fun _ _ => Iff.rfl)
    (inv.lt_fresh stored) (by simp [inv.inserted stored]) (fun _ _ => rfl) rfl (fun _ => rfl)
    rings named
    (fun _ => named id (inv.named id handle stored)) ?_ ?_ inv.usage inv.pendingApart
  · intro other differ
    exact ⟨others other differ, Iff.rfl, Function.update_of_ne differ _ _, rfl, rfl⟩
  · simp only [Function.update_self]
    exact entryOk_cached known inCache (toNat_ofNat_count small) (.inl member) listed entry.calls

end Inv

/-- The lists after the client releases a handle: an entry it has no more handles to is
now the newest of `lru_`. -/
def releasedCells (cells : CacheList → List HandleId) (ids : List HandleId)
    (client : CacheClient Value Deleter) (id : HandleId) : CacheList → List HandleId :=
  if id ∈ ids ∧ client.held id = 1 then appended (removed cells id) .lru id else cells

/-- `Unref` of a cached entry, down to the count of the cache. -/
theorem unref_last (stored : cache.heap.handles id = some handle) (inCache : handle.inCache = true)
    (count : handle.refs.toNat = 2) :
    cache.unref id =
      (((cache.heap.setHandle id { handle with refs := BitVec.ofNat 32 (0 + 1) }).lruRemove id).bind
        (lruAppend .lru id)).bind fun heap => some { cache with heap := heap } := by
  have two : handle.refs = 2 := BitVec.eq_of_toNat_eq count
  simp only [unref, stored, Option.bind_eq_bind, Option.bind_some, two]
  rw [if_neg (by decide), if_neg (by decide), if_pos ⟨inCache, by decide⟩, Option.bind_assoc]
  rfl

/-- `Unref` of a cached entry that the client has more handles to. -/
theorem unref_pinned {left : Nat} (stored : cache.heap.handles id = some handle)
    (count : handle.refs.toNat = left + 2) (pinned : left ≠ 0) :
    cache.unref id = some { cache with
      heap := cache.heap.setHandle id { handle with refs := BitVec.ofNat 32 (left + 1) } } := by
  obtain ⟨positive, less⟩ := refs_pred count
  have small := handle.refs.isLt
  have counts : (BitVec.ofNat 32 (left + 1)).toNat = left + 1 := toNat_ofNat_count (by omega)
  simp only [unref, stored, Option.bind_eq_bind, Option.bind_some]
  rw [if_neg positive, less, if_neg, if_neg]
  · rintro ⟨-, one⟩
    rw [refs_eq_one, counts] at one
    omega
  · intro zero
    rw [zero] at counts
    cases counts

/-- `Release`. -/
theorem unref_spec (inv : Inv cache cells ids none client) (held : 0 < client.held id) :
    ∃ after, cache.unref id = some after ∧ Continues cache after ∧
      Inv after (releasedCells cells ids client id) ids none
        { client with held := Function.update client.held id (client.held id - 1) } := by
  obtain ⟨handle, stored⟩ := inv.stored_of_held held
  have entry := inv.live stored
  have refs := entry.refs
  have named := inv.named id handle stored
  obtain ⟨left, count⟩ := Nat.exists_eq_add_of_lt held
  rw [Nat.zero_add] at count
  rw [count, Nat.add_sub_cancel, releasedCells]
  by_cases member : id ∈ ids
  · have inCache := entry.cached.mpr (.inl member)
    rw [inCache, if_pos rfl, count] at refs
    have small := handle.refs.isLt
    have rings := @Rings.setHandle _ _ cells id _ inv.rings
      { handle with refs := BitVec.ofNat 32 (left + 1) }
    by_cases last : left = 0
    · subst last
      have listed : id ∈ cells .inUse := by
        rw [inv.mem_cells member]
        simp [count]
      obtain ⟨next, prev, ran, moved, names⟩ := move_spec rings listed .lru
      have runs := unref_last stored inCache refs
      rw [ran, Option.bind_some] at runs
      refine ⟨_, runs, ⟨rfl, List.prefix_refl _⟩, ?_⟩
      rw [if_pos ⟨member, count⟩]
      refine inv.recount member stored (by omega) moved names ?_ ?_
      · intro other differ list
        rw [mem_appended, rings.mem_removed]
        simp [differ]
      · intro list
        rw [mem_appended, rings.mem_removed]
        simp
    · refine ⟨_, unref_pinned stored refs last, ⟨rfl, List.prefix_refl _⟩, ?_⟩
      rw [if_neg (by omega)]
      refine inv.recount member stored (by omega) rings (fun _ was => was)
        (fun _ _ _ => Iff.rfl) ?_
      intro list
      rw [inv.mem_cells member, count]
      simp [last]
  · have outside : handle.inCache = false := by
      rw [← Bool.not_eq_true, entry.cached, cached_none]
      exact member
    rw [outside, count] at refs
    refine ⟨_, unref_uncached stored outside refs named, ⟨rfl, List.prefix_append _ _⟩, ?_⟩
    rw [if_neg (fun both => member both.1)]
    refine inv.rebuild (leftover left handle) rfl (fun _ _ => Iff.rfl) (inv.lt_fresh stored)
      (by simp [inv.inserted stored]) (fun _ _ => rfl) rfl (fun _ => rfl) ?_ (fun _ was => was)
      (fun _ => named) ?_ ?_
      inv.usage inv.pendingApart
    · refine ⟨inv.rings.ring, inv.rings.apart, fun list other present => ?_⟩
      have differ : other ≠ id := fun same =>
        inv.unlisted_of_not_mem member list (same ▸ present)
      simpa [isLive, differ] using inv.rings.live list other present
    · intro other differ
      exact ⟨fun _ => Iff.rfl, Iff.rfl, Function.update_of_ne differ _ _, rfl,
        callsFor_lastCall_other _ _ _ differ⟩
    · rw [callsFor_lastCall, entry.calls, List.nil_append]
      simp only [Function.update_self]
      exact entryOk_leftover entry.inserted (inv.unlisted_of_not_mem member)
        (fun cached => member (cached_none.mp cached)) (by have := handle.refs.isLt; omega)

/-- What `FinishErase` writes, once the entry is out of its list. -/
theorem finishErase_eq {held : Nat} {next prev : ListNode → Option (Option ListNode)}
    (stored : cache.heap.handles id = some handle) (inCache : handle.inCache = true)
    (count : handle.refs.toNat = held + 1)
    (removing : cache.heap.lruRemove id = some { cache.heap with next := next, prev := prev })
    (named : Named { cache.heap with next := next, prev := prev } id) :
    cache.finishErase (some id) = some (true, { cache with
      heap := { cache.heap with
        handles := Function.update cache.heap.handles id (leftover held handle)
        next := next, prev := prev }
      usage := cache.usage - handle.charge
      deleted := cache.deleted ++ lastCall held (handle.inserted.call id) }) := by
  have dropping := @unref_uncached _ _
    { cache with
      heap := setHandle { cache.heap with next := next, prev := prev } id
        { handle with inCache := false }
      usage := cache.usage - handle.charge }
    id { handle with inCache := false } held (Function.update_self _ _ _) rfl count named
  simp only [finishErase, stored, Option.bind_eq_bind, Option.bind_some, removing]
  rw [if_pos inCache, dropping, Option.bind_some]
  simp only [Heap.setHandle, Function.update_idem]
  rfl

/-- `FinishErase`, of an entry that has just left the table. -/
theorem finishErase_spec (inv : Inv cache cells ids (some id) client) :
    ∃ after, cache.finishErase (some id) = some (true, after) ∧
      Continues cache after ∧ Inv after (removed cells id) ids none client := by
  obtain ⟨handle, stored⟩ := inv.stored_of_cached (.inr rfl)
  have entry := inv.live stored
  have inCache := entry.cached.mpr (.inr rfl)
  have refs := entry.refs
  rw [inCache, if_pos rfl] at refs
  have absent : id ∉ ids := inv.pendingApart id rfl
  obtain ⟨next, prev, removing, shrunk, names⟩ :=
    lruRemove_spec inv.rings (inv.listed_in stored inCache)
  have named := names id (inv.named id handle stored)
  have charge : client.chargeOf id = handle.charge.toNat := by
    rw [CacheClient.chargeOf, inv.inserted stored]
    rfl
  have total := inv.usage
  simp only [Option.toList_some, List.singleton_append, List.map_cons, List.sum_cons, charge]
    at total
  have unlisted : ∀ list, id ∉ removed cells id list := fun list present =>
    (inv.rings.mem_removed.mp present).2 rfl
  refine ⟨_, finishErase_eq stored inCache refs removing named,
    ⟨rfl, List.prefix_append _ _⟩,
    inv.rebuild (leftover (client.held id) handle) rfl (fun _ _ => Iff.rfl)
      (inv.lt_fresh stored) (by simp [inv.inserted stored]) (fun _ _ => rfl) rfl (fun _ => rfl)
      ?_ names (fun _ => named) ?_ ?_ ?_
    (by simp)⟩
  · refine ⟨shrunk.ring, shrunk.apart, fun list other present => ?_⟩
    have differ : other ≠ id := (inv.rings.mem_removed.mp present).2
    simpa [isLive, differ] using shrunk.live list other present
  · intro other differ
    refine ⟨fun list => ?_, ?_, rfl, rfl, callsFor_lastCall_other _ _ _ differ⟩
    · simp [inv.rings.mem_removed, differ]
    · simp [Cached, Ne.symm differ]
  · rw [callsFor_lastCall, entry.calls, List.nil_append]
    exact entryOk_leftover entry.inserted unlisted (fun cached => absent (cached_none.mp cached))
      (by have := handle.refs.isLt; omega)
  · simp only [Option.toList_none, List.nil_append, total]
    exact usage_sub handle.charge _

theorem cached_iff {other : HandleId} :
    Cached ids pending other ↔ other ∈ pending.toList ++ ids := by
  rw [Cached, List.mem_append, Option.mem_toList, or_comm]

/-- A change of the table that exchanges what is in it and what is pending. -/
theorem Inv.retable (inv : Inv cache cells ids pending client)
    {nextHash : HandleId → Option (Option HandleId)} {table : HandleTable}
    {ids' : List HandleId} {pending' : Option HandleId}
    (tabled : Tabled { cache.heap with nextHash := nextHash } table ids')
    (perm : (pending'.toList ++ ids').Perm (pending.toList ++ ids)) :
    Inv { cache with heap := { cache.heap with nextHash := nextHash }, table := table } cells
      ids' pending' client := by
  have same : ∀ other, Cached ids' pending' other ↔ Cached ids pending other := by
    intro other
    rw [cached_iff, cached_iff]
    exact perm.mem_iff
  have nodup : (pending.toList ++ ids).Nodup := by
    cases pending with
    | none => exact inv.tabled.nodup
    | some old => exact List.nodup_cons.mpr ⟨inv.pendingApart old rfl, inv.tabled.nodup⟩
  refine ⟨⟨inv.rings.ring, inv.rings.apart, inv.rings.live⟩, tabled, inv.bounded, inv.named, ?_,
    ?_, ?_, inv.fresh⟩
  · intro other
    have entry := inv.entries other
    rwa [← propext (same other)] at entry
  · rw [(perm.map client.chargeOf).sum_nat]
    exact inv.usage
  · rintro old rfl
    exact (List.nodup_cons.mp (perm.nodup_iff.mpr nodup)).1

/-- `Remove` leaves the entry it takes out pending. -/
theorem remove_inv (inv : Inv cache cells ids none client) (key : Slice) (hash : BitVec 32) :
    ∃ found nextHash table, HandleTable.remove cache.heap cache.table key hash =
        some (found, { cache.heap with nextHash := nextHash }, table) ∧
      Finds cache.heap ids key hash found ∧
      Inv { cache with heap := { cache.heap with nextHash := nextHash }, table := table } cells
        (without ids found) found client := by
  obtain ⟨found, nextHash, table, ran, finds, tabled⟩ :=
    remove_spec inv.tabled inv.readable key hash
  exact ⟨found, nextHash, table, ran, finds,
    inv.retable tabled finds.without_perm⟩

/-- `Insert` into the table leaves the entry it replaces pending. -/
theorem insert_inv (inv : Inv cache cells ids (some id) client)
    (stored : cache.heap.handles id = some handle)
    (room : Finds cache.heap ids handle.key handle.hash none → cache.table.elems < 2 ^ 31) :
    ∃ old nextHash table, HandleTable.insert cache.heap cache.table id =
        some (old, { cache.heap with nextHash := nextHash }, table) ∧
      Finds cache.heap ids handle.key handle.hash old ∧
      Inv { cache with heap := { cache.heap with nextHash := nextHash }, table := table } cells
        (id :: without ids old) old client := by
  obtain ⟨old, nextHash, table, ran, finds, tabled⟩ := insert_spec inv.tabled inv.readable stored
    ((inv.named id handle stored).keyOf stored) (inv.pendingApart id rfl) room
  refine ⟨old, nextHash, table, ran, finds, inv.retable tabled ?_⟩
  exact List.perm_middle.trans (finds.without_perm.cons id)

/-- The lists without the handle that was found, if any. -/
def removedFound (cells : CacheList → List HandleId) : Option HandleId → CacheList → List HandleId
  | none => cells
  | some id => removed cells id

/-- `FinishErase`, of what the table has given up. -/
theorem finishErase_found {found : Option HandleId} (inv : Inv cache cells ids found client) :
    ∃ after, cache.finishErase found = some (found.isSome, after) ∧
      Continues cache after ∧ Inv after (removedFound cells found) ids none client := by
  cases found with
  | none => exact ⟨cache, rfl, .refl cache, inv⟩
  | some id => exact finishErase_spec inv

/-- What a search among entries should answer, by what they were inserted with. -/
def Answers (client : CacheClient Value Deleter) (ids : List HandleId) (key : Slice)
    (hash : BitVec 32) : Option HandleId → Prop
  | none => ∀ id ∈ ids, ∀ entry, client.inserted id = some entry →
      ¬ (entry.key = key ∧ entry.hash = hash)
  | some id => id ∈ ids ∧ ∃ entry, client.inserted id = some entry ∧
      entry.key = key ∧ entry.hash = hash

theorem Inv.answers (inv : Inv cache cells ids pending client) {key : Slice} {hash : BitVec 32}
    {found : Option HandleId} (finds : Finds cache.heap ids key hash found) :
    Answers client ids key hash found := by
  cases found with
  | none =>
      rintro id member entry known ⟨keys, hashes⟩
      obtain ⟨handle, stored⟩ := inv.stored_of_cached (.inl member)
      rw [inv.inserted stored, Option.some.injEq] at known
      subst known
      exact finds id member ⟨handle, stored, keys, hashes⟩
  | some id =>
      obtain ⟨member, handle, stored, keys, hashes⟩ := finds
      exact ⟨member, handle.inserted, inv.inserted stored, keys, hashes⟩

theorem Answers.congr {client' : CacheClient Value Deleter} {key : Slice} {hash : BitVec 32}
    {found : Option HandleId} (answers : Answers client ids key hash found)
    (agree : ∀ id ∈ ids, client'.inserted id = client.inserted id) :
    Answers client' ids key hash found := by
  cases found with
  | none =>
      intro id member entry known
      rw [agree id member] at known
      exact answers id member entry known
  | some id =>
      obtain ⟨member, entry, known, same⟩ := answers
      exact ⟨member, entry, by rw [agree id member, known], same⟩

/-- `Erase`. -/
theorem erase_spec (inv : Inv cache cells ids none client) (key : Slice) (hash : BitVec 32) :
    ∃ found after, cache.erase key hash = some after ∧ Continues cache after ∧
      Answers client ids key hash found ∧
      Inv after (removedFound cells found) (without ids found) none client := by
  obtain ⟨found, nextHash, table, removing, finds, between⟩ := remove_inv inv key hash
  obtain ⟨after, finishing, continues, result⟩ := finishErase_found between
  refine ⟨found, after, ?_, ⟨continues.capacity, continues.deleted⟩, inv.answers finds, result⟩
  simp only [erase, removing, Option.bind_eq_bind, Option.bind_some, finishing]

/-- The lists after the client gets another handle to an entry. -/
def referredCells (cells : CacheList → List HandleId) (client : CacheClient Value Deleter)
    (id : HandleId) : CacheList → List HandleId :=
  if client.held id = 0 then appended (removed cells id) .inUse id else cells

/-- `Ref`, of a cached entry. -/
theorem ref_spec (inv : Inv cache cells ids none client) (member : id ∈ ids)
    (small : client.held id + 1 + 1 < 2 ^ 32) :
    ∃ heap, cache.heap.ref id = some heap ∧
      Inv { cache with heap := heap } (referredCells cells client id) ids none
        { client with held := Function.update client.held id (client.held id + 1) } := by
  obtain ⟨handle, stored⟩ := inv.stored_of_cached (.inl member)
  have entry := inv.live stored
  have inCache := entry.cached.mpr (.inl member)
  have refs := entry.refs
  rw [inCache, if_pos rfl] at refs
  rw [referredCells]
  by_cases idle : client.held id = 0
  · have listed : id ∈ cells .lru := by
      rw [inv.mem_cells member]
      simp [idle]
    obtain ⟨next, prev, ran, moved, names⟩ := move_spec inv.rings listed .inUse
    have runs : cache.heap.ref id = some { cache.heap.setHandle id
        { handle with refs := BitVec.ofNat 32 (client.held id + 1 + 1) } with
          next := next, prev := prev } := by
      simp only [Heap.ref, stored, Option.bind_eq_bind, Option.bind_some]
      rw [if_pos ⟨refs_eq_one.mpr (by omega), inCache⟩, ← Option.bind_assoc, ran,
        Option.bind_some, refs_succ, refs]
      rfl
    refine ⟨_, runs, ?_⟩
    rw [if_pos idle]
    refine inv.recount member stored small ?_ (fun other was => names other was) ?_ ?_
    · exact @Rings.setHandle _ _ _ id _ moved _
    · intro other differ list
      rw [mem_appended, inv.rings.mem_removed]
      simp [differ]
    · intro list
      rw [mem_appended, inv.rings.mem_removed]
      cases list <;> simp
  · have runs : cache.heap.ref id = some (cache.heap.setHandle id
        { handle with refs := BitVec.ofNat 32 (client.held id + 1 + 1) }) := by
      simp only [Heap.ref, stored, Option.bind_eq_bind, Option.bind_some]
      rw [if_neg (fun both => idle (by have := refs_eq_one.mp both.1; omega)), refs_succ, refs]
    refine ⟨_, runs, ?_⟩
    rw [if_neg idle]
    refine inv.recount member stored small (Rings.setHandle inv.rings _)
      (fun _ was => was) (fun _ _ _ => Iff.rfl) ?_
    intro list
    rw [inv.mem_cells member]
    simp [idle]

/-- `Lookup`. -/
theorem lookup_inv (inv : Inv cache cells ids none client) {key : Slice} {hash : BitVec 32}
    (fits : cache.CountsFit (.lookup key hash)) :
    ∃ found after, cache.lookup key hash = some (found, after) ∧
      Continues cache after ∧ Answers client ids key hash found ∧
      Inv after (found.elim cells (referredCells cells client)) ids none
        (client.after (.lookup key hash) found) := by
  obtain ⟨found, ran, finds⟩ := lookup_spec inv.tabled inv.readable key hash
  cases found with
  | none =>
      refine ⟨none, cache, ?_, .refl cache, inv.answers finds, inv⟩
      simp only [lookup, ran, Option.bind_eq_bind, Option.bind_some]
  | some id =>
      obtain ⟨handle, stored⟩ := inv.stored_of_cached (.inl finds.1)
      have entry := inv.live stored
      have refs := entry.refs
      have small := fits id handle ran stored
      rw [entry.cached.mpr (.inl finds.1), if_pos rfl] at refs
      obtain ⟨heap, referring, result⟩ := ref_spec inv finds.1 (refs ▸ small)
      refine ⟨some id, { cache with heap := heap }, ?_, ⟨rfl, List.prefix_refl _⟩,
        inv.answers finds, result⟩
      simp only [lookup, ran, Option.bind_eq_bind, Option.bind_some, referring]

/-- The body of the loops that shrink a cache. -/
theorem dropOldest_spec (inv : Inv cache cells ids none client) (idle : id ∈ cells .lru) :
    ∃ after, cache.dropOldest (some (.entry id)) = some after ∧ Continues cache after ∧
      Inv after (removed cells id) (ids.erase id) none client := by
  obtain ⟨handle, stored⟩ : ∃ handle, cache.heap.handles id = some handle :=
    Option.isSome_iff_exists.mp (inv.rings.live .lru id idle)
  have entry := inv.live stored
  obtain ⟨inCache, count⟩ := (entry.listed .lru).mp idle
  have member : id ∈ ids := cached_none.mp (entry.cached.mp inCache)
  obtain ⟨found, nextHash, table, removing, finds, between⟩ :=
    remove_inv inv handle.key handle.hash
  have hit : found = some id := finds.unique inv.tabled member ⟨handle, stored, rfl, rfl⟩
  subst hit
  obtain ⟨after, finishing, continues, result⟩ := finishErase_found between
  refine ⟨after, ?_, ⟨continues.capacity, continues.deleted⟩, result⟩
  simp only [dropOldest, stored, Option.bind_eq_bind, Option.bind_some,
    refs_eq_one.mpr (count.mp rfl), if_true,
    (inv.named id handle stored).keyOf stored, removing, finishing, Option.isSome_some]

/-- The entries that are dropped from the front of a list, as long as there are any and
there is more in use than there should be, as far as a `size_t` tells. -/
def victims (more : BitVec 64 → Bool) (charge : HandleId → Nat) :
    Nat → List HandleId → List HandleId
  | _, [] => []
  | usage, oldest :: rest =>
      if more (BitVec.ofNat 64 usage) then
        oldest :: victims more charge (usage - charge oldest) rest
      else []

theorem sum_sublist {left right : List HandleId} (sublist : left.Sublist right)
    (charge : HandleId → Nat) : (left.map charge).sum ≤ (right.map charge).sum :=
  (sublist.map charge).sum_le_sum fun _ _ => Nat.zero_le _

theorem without_sublist (ids : List HandleId) (old : Option HandleId) :
    (without ids old).Sublist ids := by
  cases old with
  | none => exact List.Sublist.refl _
  | some replaced => exact List.erase_sublist

theorem sum_erase {charge : HandleId → Nat} (member : id ∈ ids) :
    ((ids.erase id).map charge).sum = (ids.map charge).sum - charge id := by
  have perm := (List.perm_cons_erase member).map charge
  rw [perm.sum_nat, List.map_cons, List.sum_cons, Nat.add_sub_cancel_left]

/-- The loops that shrink a cache. -/
theorem dropLoop_spec {shrink : LRUCache Value Deleter → Bool} {more : BitVec 64 → Bool}
    {rounds : Nat} (inv : Inv cache cells ids none client)
    (agree : ∀ other : LRUCache Value Deleter, other.capacity = cache.capacity →
      shrink other = more other.usage)
    (enough : (cells .lru).length < rounds) :
    ∃ after dropped, dropLoop shrink rounds cache = some after ∧ Continues cache after ∧
      dropped = victims more client.chargeOf (ids.map client.chargeOf).sum (cells .lru) ∧
      Inv after (dropped.foldl removed cells) (dropped.foldl List.erase ids) none client := by
  induction rounds generalizing cache cells ids with
  | zero => omega
  | succ rounds ih =>
      have first := inv.rings.readNext_head .lru
      have shrinks := agree cache rfl
      rw [inv.usage_eq] at shrinks
      cases idle : cells .lru with
      | nil =>
          refine ⟨cache, [], ?_, .refl cache, rfl, inv⟩
          rw [idle] at first
          simp [dropLoop, first]
      | cons oldest rest =>
          have reached : cache.heap.readNext (.head .lru) = some (some (.entry oldest)) := by
            rw [first, idle]
            rfl
          rw [victims]
          by_cases goesOn : more (BitVec.ofNat 64 (ids.map client.chargeOf).sum) = true
          · have member : oldest ∈ cells .lru := by simp [idle]
            obtain ⟨between, dropping, continues, left⟩ := dropOldest_spec inv member
            have shorter : removed cells oldest .lru = rest := by simp [removed, idle]
            obtain ⟨after, dropped, looping, same, dropping', result⟩ := ih left
              (fun other keeps => agree other (keeps.trans continues.capacity))
              (by rw [shorter]; rw [idle, List.length_cons] at enough; omega)
            rw [shorter, sum_erase (inv.mem_ids member)] at dropping'
            refine ⟨after, oldest :: dropped, ?_, continues.trans same, ?_, result⟩
            · simp [dropLoop, reached, shrinks, goesOn, dropping, looping]
            · rw [if_pos goesOn, dropping']
          · refine ⟨cache, [], ?_, .refl cache, ?_, inv⟩
            · simp [dropLoop, reached, shrinks, goesOn]
            · rw [if_neg goesOn]

theorem Inv.length_lru (inv : Inv cache cells ids none client) :
    (cells .lru).length < cache.heap.fresh + 1 := by
  have within : cells .lru ⊆ List.range cache.heap.fresh := by
    intro id member
    obtain ⟨handle, stored⟩ := inv.stored_of_cached (.inl (inv.mem_ids member))
    exact List.mem_range.mpr (inv.lt_fresh stored)
  have bound := ((inv.rings.nodup .lru).subperm within).length_le
  rw [List.length_range] at bound
  omega

/-- The entries that the loop of `Insert` drops. -/
def evicted (capacity : BitVec 64) (client : CacheClient Value Deleter) (ids idle : List HandleId) :
    List HandleId :=
  victims (fun usage => usage > capacity) client.chargeOf (ids.map client.chargeOf).sum idle

/-- The last loop of `Insert`. -/
theorem evict_spec (inv : Inv cache cells ids none client) :
    ∃ after, cache.evict = some after ∧ Continues cache after ∧
      Inv after ((evicted cache.capacity client ids (cells .lru)).foldl removed cells)
        ((evicted cache.capacity client ids (cells .lru)).foldl List.erase ids) none client := by
  obtain ⟨after, dropped, looped, continues, rfl, result⟩ :=
    @dropLoop_spec _ _ _ _ _ _ (fun cache => cache.usage > cache.capacity)
      (fun usage => usage > cache.capacity) _ inv (fun other same => by rw [same]) inv.length_lru
  exact ⟨after, looped, continues, result⟩

/-- Without a limit, the whole list is dropped. -/
theorem victims_all (charge : HandleId → Nat) (usage : Nat) (idle : List HandleId) :
    victims (fun _ => true) charge usage idle = idle := by
  induction idle generalizing usage with
  | nil => rfl
  | cons oldest rest ih => rw [victims, if_pos rfl, ih]

/-- `Prune`. -/
theorem prune_spec (inv : Inv cache cells ids none client) :
    ∃ after, cache.prune = some after ∧ Continues cache after ∧
      Inv after ((cells .lru).foldl removed cells) ((cells .lru).foldl List.erase ids) none
        client := by
  obtain ⟨after, dropped, looped, continues, same, result⟩ :=
    @dropLoop_spec _ _ _ _ _ _ (fun _ => true) (fun _ => true) _ inv (fun _ _ => rfl)
      inv.length_lru
  rw [victims_all] at same
  subst same
  exact ⟨after, looped, continues, result⟩

/-- An address that was never allocated is in no list. -/
theorem Inv.fresh_unlisted (inv : Inv cache cells ids none client) :
    cache.heap.fresh ∉ ids ∧ ∀ list, cache.heap.fresh ∉ cells list := by
  have absent : cache.heap.fresh ∉ ids := by
    intro member
    obtain ⟨handle, stored⟩ := inv.stored_of_cached (.inl member)
    exact Nat.lt_irrefl _ (inv.lt_fresh stored)
  exact ⟨absent, inv.unlisted_of_not_mem absent⟩

theorem Rings.malloc {heap : Heap Value Deleter} (rings : Rings heap cells)
    (handle : LRUHandle Value Deleter) (unlisted : ∀ list, heap.fresh ∉ cells list) :
    Rings (heap.malloc handle).2 cells where
  ring := by
    intro list
    refine (rings.ring list).congr fun node member => ?_
    have differ : node ≠ .entry heap.fresh := by
      rintro rfl
      exact unlisted list (by simpa using member)
    exact ⟨Function.update_of_ne differ _ _, Function.update_of_ne differ _ _⟩
  apart := rings.apart
  live := by
    intro list other member
    have differ : other ≠ heap.fresh := fun same => unlisted list (same ▸ member)
    simpa [isLive, Heap.malloc, differ] using rings.live list other member

section Insert

variable {key : Slice} {hash : BitVec 32} {value : Value} {charge : BitVec 64}
  {deleter : Deleter}

/-- The handle that `Insert` makes. -/
def newHandle (key : Slice) (hash : BitVec 32) (value : Value) (charge : BitVec 64)
    (deleter : Deleter) : LRUHandle Value Deleter :=
  { value, deleter, charge, key, inCache := false, refs := 1, hash }

/-- A new entry, with the client's handle to it. -/
theorem Inv.allocate (inv : Inv cache cells ids none client)
    {after : LRUCache Value Deleter} {cells' : CacheList → List HandleId}
    {pending' : Option HandleId} (target : LRUHandle Value Deleter)
    (made : target.inserted = ⟨key, hash, value, charge, deleter⟩)
    (handles : after.heap.handles =
      Function.update cache.heap.handles cache.heap.fresh (some target))
    (fresh : after.heap.fresh = cache.heap.fresh + 1)
    (nextHash : after.heap.nextHash = Function.update cache.heap.nextHash cache.heap.fresh none)
    (table : after.table = cache.table) (deleted : after.deleted = cache.deleted)
    (refs : target.refs.toNat = 1 + if target.inCache then 1 else 0)
    (rings : after.heap.Rings cells')
    (named : ∀ other, other ≠ cache.heap.fresh → cache.heap.Named other →
      after.heap.Named other)
    (named_new : after.heap.Named cache.heap.fresh)
    (others : ∀ other, other ≠ cache.heap.fresh → ∀ list, other ∈ cells' list ↔ other ∈ cells list)
    (listed : ∀ list, cache.heap.fresh ∈ cells' list ↔ target.inCache = true ∧ list = .inUse)
    (isPending : pending' = if target.inCache then some cache.heap.fresh else none)
    (usage : after.usage = cache.usage + if target.inCache then charge else 0) :
    Inv after cells' ids pending'
      (client.after (.insert key hash value charge deleter) (some cache.heap.fresh)) := by
  obtain ⟨absent, unlisted⟩ := inv.fresh_unlisted
  have freed := inv.bounded _ (Nat.le_refl cache.heap.fresh)
  have dead := inv.dead freed
  have none_due := (inv.fresh _).mpr (Nat.le_refl cache.heap.fresh)
  refine inv.rebuild (some target) handles ?_ (by rw [fresh]; exact Nat.lt_succ_self _)
    (by simp [CacheClient.after]) ?_ table (fun member => absurd member absent) rings ?_
    (fun _ => named_new) ?_ ?_ ?_ ?_
  · intro other differ
    rw [fresh, Nat.succ_le_iff]
    exact ⟨Nat.le_of_lt, fun least => Nat.lt_of_le_of_ne least (Ne.symm differ)⟩
  · intro other member
    rw [nextHash, Function.update_of_ne]
    rintro rfl
    exact absent member
  · intro other was
    by_cases same : other = cache.heap.fresh
    · rw [same]
      exact named_new
    · exact named other same was
  · intro other differ
    refine ⟨others other differ, ?_, Function.update_of_ne differ _ _,
      Function.update_of_ne differ _ _, by rw [deleted]⟩
    rw [isPending]
    split <;> simp [Cached, Ne.symm differ]
  · have calls := dead.calls
    rw [none_due] at calls
    have account : (client.after (.insert key hash value charge deleter)
        (some cache.heap.fresh)).held cache.heap.fresh = 1 := by
      simp [CacheClient.after, dead.held]
    rw [account]
    refine ⟨refs, by omega, ?_, ?_, ?_, by rw [deleted, calls]; rfl⟩
    · rw [isPending, Cached]
      split <;> simp_all
    · intro list
      rw [listed, refs]
      cases target.inCache <;> cases list <;> simp
    · rw [made]
      exact Function.update_self _ _ _
  · have kept : ids.map (client.after (.insert key hash value charge deleter)
        (some cache.heap.fresh)).chargeOf = ids.map client.chargeOf := by
      refine List.map_congr_left fun other member => ?_
      have differ : other ≠ cache.heap.fresh := by
        rintro rfl
        exact absent member
      simp [CacheClient.chargeOf, CacheClient.after, differ]
    rw [usage, isPending, List.map_append, List.sum_append, kept, inv.usage_eq, Nat.add_comm,
      BitVec.ofNat_add]
    split <;> simp [CacheClient.chargeOf, CacheClient.after]
  · rintro other isOther
    rw [isPending] at isOther
    split at isOther
    · cases isOther
      exact absent
    · cases isOther

/-- Caching the new entry, before the table has it. -/
theorem cacheNew_spec (inv : Inv cache cells ids none client) :
    ∃ heap, ((cache.heap.malloc (newHandle key hash value charge deleter)).2.setHandle
        cache.heap.fresh { newHandle key hash value charge deleter with
          refs := 1 + 1, inCache := true }).lruAppend .inUse cache.heap.fresh = some heap ∧
      heap.handles cache.heap.fresh = some { newHandle key hash value charge deleter with
          refs := 1 + 1, inCache := true } ∧
      Inv { cache with heap := heap, usage := cache.usage + charge }
        (appended cells .inUse cache.heap.fresh) ids (some cache.heap.fresh)
        (client.after (.insert key hash value charge deleter) (some cache.heap.fresh)) := by
  obtain ⟨absent, unlisted⟩ := inv.fresh_unlisted
  have rings := @Rings.setHandle _ _ _ cache.heap.fresh _
    (Rings.malloc inv.rings (newHandle key hash value charge deleter) unlisted)
    { newHandle key hash value charge deleter with refs := 1 + 1, inCache := true }
  obtain ⟨next, prev, appending, grown, named_new, names⟩ := lruAppend_spec rings .inUse
    (by simp [isLive, Heap.setHandle]) unlisted
  refine ⟨_, appending, Function.update_self _ _ _, inv.allocate
    { newHandle key hash value charge deleter with refs := 1 + 1, inCache := true } rfl ?_ rfl rfl
    rfl rfl rfl grown ?_ named_new ?_ ?_ rfl rfl⟩
  · exact Function.update_idem _ _ _
  · intro other differ was
    exact names other (was.congr (Function.update_of_ne (by simpa using differ) _ _))
  · intro other differ list
    rw [mem_appended]
    simp [differ]
  · intro list
    rw [mem_appended]
    simp [unlisted list]

/-- What `Insert` does with its new handle. -/
theorem insertNew_spec (inv : Inv cache cells ids none client) (positive : 0 < cache.capacity)
    (room : Answers client ids key hash none → cache.table.elems < 2 ^ 31) :
    ∃ old after, insertNew { cache with
          heap := (cache.heap.malloc (newHandle key hash value charge deleter)).2 }
        cache.heap.fresh (newHandle key hash value charge deleter) = some after ∧
      Continues cache after ∧ Answers client ids key hash old ∧
      Inv after (removedFound (appended cells .inUse cache.heap.fresh) old)
        (cache.heap.fresh :: without ids old) none
        (client.after (.insert key hash value charge deleter) (some cache.heap.fresh)) := by
  obtain ⟨heap, appending, stored, cachedInv⟩ := @cacheNew_spec _ _ _ _ _ _ key hash value charge
    deleter inv
  have kept : ∀ other ∈ ids, client.inserted other = (client.after
      (.insert key hash value charge deleter) (some cache.heap.fresh)).inserted other := by
    intro other member
    refine (Function.update_of_ne ?_ _ _).symm
    rintro rfl
    exact inv.fresh_unlisted.1 member
  obtain ⟨old, nextHash, table, inserting, finds, between⟩ :=
    insert_inv cachedInv stored fun missing => room ((cachedInv.answers missing).congr kept)
  obtain ⟨after, finishing, continues, result⟩ := finishErase_found between
  refine ⟨old, after, ?_, ⟨continues.capacity, continues.deleted⟩,
    (cachedInv.answers finds).congr kept, result⟩
  · simp only [insertNew]
    rw [if_pos positive]
    refine (congrArg (Option.bind · _) appending).trans ?_
    refine (congrArg (Option.bind · _) inserting).trans ?_
    exact congrArg (Option.bind · _) finishing

/-- Without a capacity the new entry is not cached. -/
theorem insertNew_off (inv : Inv cache cells ids none client) (off : cache.capacity = 0) :
    ∃ after, insertNew { cache with
          heap := (cache.heap.malloc (newHandle key hash value charge deleter)).2 }
        cache.heap.fresh (newHandle key hash value charge deleter) = some after ∧
      Continues cache after ∧
      Inv after cells ids none
        (client.after (.insert key hash value charge deleter) (some cache.heap.fresh)) := by
  obtain ⟨absent, unlisted⟩ := inv.fresh_unlisted
  have rings := Rings.malloc inv.rings (newHandle key hash value charge deleter) unlisted
  refine ⟨{ cache with
    heap := { (cache.heap.malloc (newHandle key hash value charge deleter)).2 with
      next := Function.update (Function.update cache.heap.next (.entry cache.heap.fresh) none)
        (.entry cache.heap.fresh) (some none) } }, ?_, ⟨rfl, List.prefix_refl _⟩,
    inv.allocate (newHandle key hash value charge deleter) rfl rfl rfl rfl rfl rfl rfl ?_ ?_ ?_
      (fun _ _ _ => Iff.rfl) ?_ rfl (BitVec.add_zero _).symm⟩
  · simp [insertNew, off, writeNext, isLive, Heap.malloc]
  · refine ⟨fun list => ?_, rings.apart, rings.live⟩
    refine (rings.ring list).congr fun node member => ⟨Function.update_of_ne ?_ _ _, rfl⟩
    rintro rfl
    exact unlisted list (by simpa using member)
  · intro other differ was
    have apart : ListNode.entry other ≠ .entry cache.heap.fresh := by simpa using differ
    exact was.congr ((Function.update_of_ne apart _ _).trans (Function.update_of_ne apart _ _))
  · exact ⟨none, Function.update_self _ _ _, by simp⟩
  · intro list
    simp [unlisted list, newHandle]

/-- The entries cached by `Insert`, before the loop that drops some. -/
def insertedIds (capacity : BitVec 64) (ids : List HandleId) (id : HandleId)
    (old : Option HandleId) : List HandleId :=
  if 0 < capacity then id :: without ids old else ids

/-- The lists before the loop of `Insert`. -/
def insertedCells (capacity : BitVec 64) (cells : CacheList → List HandleId) (id : HandleId)
    (old : Option HandleId) : CacheList → List HandleId :=
  if 0 < capacity then removedFound (appended cells .inUse id) old else cells

/-- The table has room for an entry under a new key. -/
theorem Inv.room (inv : Inv cache cells ids none client)
    (fits : cache.CountsFit (.insert key hash value charge deleter)) (positive : 0 < cache.capacity)
    (missing : Answers client ids key hash none) : cache.table.elems < 2 ^ 31 := by
  obtain ⟨found, ran, finds⟩ := lookup_spec inv.tabled inv.readable key hash
  cases found with
  | none => exact fits positive ran
  | some id =>
      obtain ⟨member, entry, known, same⟩ := inv.answers finds
      exact absurd same (missing id member entry known)

/-- `Insert`. -/
theorem insert_inv_spec (inv : Inv cache cells ids none client)
    (fits : cache.CountsFit (.insert key hash value charge deleter)) :
    ∃ old after, cache.insert key hash value charge deleter = some (cache.heap.fresh, after) ∧
      Continues cache after ∧ Answers client ids key hash old ∧
      ∀ client' ids' cells',
        client' = client.after (.insert key hash value charge deleter) (some cache.heap.fresh) →
        ids' = insertedIds cache.capacity ids cache.heap.fresh old →
        cells' = insertedCells cache.capacity cells cache.heap.fresh old →
        Inv after ((evicted cache.capacity client' ids' (cells' .lru)).foldl removed cells')
          ((evicted cache.capacity client' ids' (cells' .lru)).foldl List.erase ids') none
          client' := by
  obtain ⟨old, between, caching, continues, answers, inserted⟩ : ∃ old between,
      insertNew { cache with
          heap := (cache.heap.malloc (newHandle key hash value charge deleter)).2 }
        cache.heap.fresh (newHandle key hash value charge deleter) = some between ∧
      Continues cache between ∧ Answers client ids key hash old ∧
      Inv between (insertedCells cache.capacity cells cache.heap.fresh old)
        (insertedIds cache.capacity ids cache.heap.fresh old) none
        (client.after (.insert key hash value charge deleter) (some cache.heap.fresh)) := by
    unfold insertedCells insertedIds
    by_cases positive : 0 < cache.capacity
    · simp only [positive, if_true]
      exact insertNew_spec inv positive (inv.room fits positive)
    · obtain ⟨found, ran, finds⟩ := lookup_spec inv.tabled inv.readable key hash
      obtain ⟨between, caching, capacity, result⟩ :=
        insertNew_off inv (BitVec.eq_of_toNat_eq (Nat.eq_zero_of_not_pos positive))
      simp only [positive, if_false]
      exact ⟨found, between, caching, capacity, inv.answers finds, result⟩
  obtain ⟨after, evicting, same, result⟩ := evict_spec inserted
  refine ⟨old, after, ?_, continues.trans same, answers, ?_⟩
  · simp only [insert]
    refine (congrArg (Option.bind · _) caching).trans ?_
    exact congrArg (Option.bind · _) evicting
  · rintro client' ids' cells' rfl rfl rfl
    rw [continues.capacity] at result
    exact result

end Insert

/-- A new cache. -/
theorem new_inv (capacity : BitVec 64) :
    ∃ cache : LRUCache Value Deleter, new capacity = some cache ∧ cache.capacity = capacity ∧
      Inv cache (fun _ => []) [] none CacheClient.start := by
  obtain ⟨empty, unfolded, heads⟩ : ∃ empty : ListNode → Option (Option ListNode),
      ((new capacity : Option (LRUCache Value Deleter)) =
        (HandleTable.new ⟨fun _ => none, 0, empty, empty, fun _ => none⟩).bind fun made =>
          some ⟨capacity, 0, made.1, made.2, []⟩) ∧
      ∀ list, empty (.head list) = some (some (.head list)) := ⟨_, rfl, fun _ => rfl⟩
  obtain ⟨nextHash, table, made, tabled⟩ :=
    @new_spec Value Deleter ⟨fun _ => none, 0, empty, empty, fun _ => none⟩ (fun _ _ => rfl)
  refine ⟨⟨capacity, 0, ⟨fun _ => none, 0, empty, empty, nextHash⟩, table, []⟩, ?_, rfl,
    ⟨⟨?_, by simp, by simp⟩, tabled, fun _ _ => rfl, by simp, ?_, rfl, by simp,
      by simp [CacheClient.start]⟩⟩
  · rw [unfolded, made, Option.bind_some]
  · intro list
    exact ⟨by simp, heads list, heads list⟩
  · intro id
    exact ⟨rfl, by simp [Cached], by simp, rfl⟩

end LRUCache

end MiniLevelDb
