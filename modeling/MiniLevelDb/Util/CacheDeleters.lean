import MiniLevelDb.Util.CacheRuns

/-!
# Deleters of a cache

The deleter of an entry is called once, by the operation after which the entry is neither
cached nor referenced, as long as its references can be counted. A client with `2 ^ 32`
handles to a cached entry has made the count wrap around to one, and `Erase` then calls the
deleter under it.
-/

namespace MiniLevelDb

open Foundation HandleTable Heap

namespace LRUCache

variable {Value Deleter : Type} {capacity : BitVec 64} {cache after : LRUCache Value Deleter}
  {cells : CacheList → List HandleId} {ids : List HandleId}
  {client : CacheClient Value Deleter} {op : CacheOp Value Deleter}
  {returned : Option HandleId} {id : HandleId} {handle : LRUHandle Value Deleter}

/-- The entry is cached, or the client has a handle to it. -/
def Alive (cache : LRUCache Value Deleter) (client : CacheClient Value Deleter) (id : HandleId) :
    Prop :=
  0 < client.held id ∨ ∃ handle, cache.heap.handles id = some handle ∧ handle.inCache = true

theorem Inv.alive_iff (inv : Inv cache cells ids none client) :
    Alive cache client id ↔ ∃ handle, cache.heap.handles id = some handle := by
  constructor
  · rintro (held | ⟨handle, stored, -⟩)
    · exact inv.stored_of_held held
    · exact ⟨handle, stored⟩
  · rintro ⟨handle, stored⟩
    have refs := (inv.live stored).refs
    have positive := (inv.live stored).positive
    cases inCache : handle.inCache with
    | true => exact .inr ⟨handle, stored, inCache⟩
    | false =>
        rw [inCache] at refs
        exact .inl (by simpa [refs] using positive)

/-- The calls made for an entry, by whether it is alive. -/
theorem Inv.callsFor_eq (inv : Inv cache cells ids none client) {entry : Inserted Value Deleter}
    (known : client.inserted id = some entry) :
    (Alive cache client id → callsFor cache.deleted id = []) ∧
      (¬ Alive cache client id → callsFor cache.deleted id = [entry.call id]) := by
  rw [inv.alive_iff]
  cases stored : cache.heap.handles id with
  | none =>
      have calls := (inv.dead stored).calls
      rw [known] at calls
      exact ⟨by simp, fun _ => calls⟩
  | some handle => exact ⟨fun _ => (inv.live stored).calls, by simp⟩

/-- Every call is the one an inserted entry is due. -/
theorem Inv.call_due (inv : Inv cache cells ids none client) {call : DeleterCall Value Deleter}
    (made : call ∈ cache.deleted) :
    ∃ entry, client.inserted call.handle = some entry ∧ call = entry.call call.handle := by
  have listed : call ∈ callsFor cache.deleted call.handle := by simp [callsFor, made]
  cases stored : cache.heap.handles call.handle with
  | none =>
      rw [(inv.dead stored).calls] at listed
      obtain ⟨entry, known, due⟩ := Option.map_eq_some_iff.mp (Option.mem_toList.mp listed)
      exact ⟨entry, known, due.symm⟩
  | some handle =>
      rw [(inv.live stored).calls] at listed
      cases listed

theorem insert_returns {key : Slice} {hash : BitVec 32} {value : Value} {charge : BitVec 64}
    {deleter : Deleter} (ran : cache.insert key hash value charge deleter = some (id, after)) :
    id = cache.heap.fresh := by
  simp only [insert, Option.bind_eq_bind, Option.bind_eq_some_iff] at ran
  obtain ⟨between, -, final, -, same⟩ := ran
  cases same
  rfl

/-- What was inserted stays on record. -/
theorem Inv.inserted_after (inv : Inv cache cells ids none client)
    (stepped : cache.step op = some (returned, after)) {entry : Inserted Value Deleter}
    (known : client.inserted id = some entry) :
    (client.after op returned).inserted id = some entry := by
  cases op with
  | insert key hash value charge deleter =>
      obtain ⟨⟨made, result⟩, ran, same⟩ := Option.map_eq_some_iff.mp stepped
      cases same
      obtain rfl := insert_returns ran
      have differ : id ≠ cache.heap.fresh := by
        rintro rfl
        rw [(inv.fresh _).mpr (Nat.le_refl _)] at known
        cases known
      rw [← known]
      exact Function.update_of_ne differ _ _
  | lookup key hash => cases returned <;> exact known
  | release other => exact known
  | erase key hash => exact known
  | prune => exact known

theorem callsFor_append (front back : List (DeleterCall Value Deleter)) :
    callsFor (front ++ back) id = callsFor front id ++ callsFor back id :=
  List.filter_append _ _

/-- The destructor makes the call of every entry that is still cached. -/
theorem callsFor_dueCalls {idle : List HandleId} (nodup : idle.Nodup)
    {entry : Inserted Value Deleter} (known : client.inserted id = some entry) :
    callsFor (dueCalls client idle) id = if id ∈ idle then [entry.call id] else [] := by
  induction idle with
  | nil => rfl
  | cons first rest ih =>
      obtain ⟨absent, shorter⟩ := List.nodup_cons.mp nodup
      by_cases same : first = id
      · subst same
        rw [if_neg absent] at ih
        rw [dueCalls, List.filterMap_cons, known, if_pos List.mem_cons_self]
        exact (callsFor_append [entry.call first] (dueCalls client rest)).trans (by
          rw [ih shorter, List.append_nil]
          simp [callsFor, Inserted.call])
      · have others := ih shorter
        cases missing : client.inserted first with
        | none => simpa [callsFor, dueCalls, missing, Ne.symm same] using others
        | some other =>
            simpa [callsFor, dueCalls, missing, Inserted.call, same, Ne.symm same] using others

/-- What the deleters of a cache have been called for: each call is the one an inserted entry
is due, and an entry has had it exactly if it is neither cached nor referenced. -/
structure DeletesOnce (cache : LRUCache Value Deleter) (client : CacheClient Value Deleter) :
    Prop where
  due : ∀ call ∈ cache.deleted, ∃ entry, client.inserted call.handle = some entry ∧
    call = entry.call call.handle
  alive : ∀ id entry, client.inserted id = some entry → Alive cache client id →
    callsFor cache.deleted id = []
  dead : ∀ id entry, client.inserted id = some entry → ¬ Alive cache client id →
    callsFor cache.deleted id = [entry.call id]

theorem Inv.deletesOnce (inv : Inv cache cells ids none client) : DeletesOnce cache client where
  due := fun _ made => inv.call_due made
  alive := fun _ _ known => (inv.callsFor_eq known).1
  dead := fun _ _ known => (inv.callsFor_eq known).2

/-- The destructor, when the client has no handles, leaves no inserted entry without its
call. -/
theorem Inv.destroy_calls (inv : Inv cache cells ids none client)
    (released : ∀ id, client.held id = 0) :
    ∃ after, cache.destroy = some after ∧ ∀ id entry, client.inserted id = some entry →
      callsFor after.deleted id = [entry.call id] := by
  obtain ⟨after, ran, deleted⟩ := destroy_spec inv released
  refine ⟨after, ran, fun id entry known => ?_⟩
  have calls := inv.callsFor_eq known
  rw [deleted, callsFor_append, callsFor_dueCalls (inv.rings.nodup .lru) known]
  by_cases listed : id ∈ cells .lru
  · have member := inv.mem_ids listed
    obtain ⟨handle, stored⟩ := inv.stored_of_cached (.inl member)
    rw [if_pos listed, calls.1 (inv.alive_iff.mpr ⟨handle, stored⟩), List.nil_append]
  · have dead : ¬ Alive cache client id := by
      rintro (held | ⟨handle, stored, inCache⟩)
      · rw [released id] at held
        exact Nat.lt_irrefl 0 held
      · have member := cached_none.mp ((inv.live stored).cached.mp inCache)
        exact listed ((inv.mem_cells member .lru).mpr (by simp [released id]))
    rw [if_neg listed, calls.2 dead, List.append_nil]

section Overflow

/-- The cache with another count of references to an entry. -/
def recounted (cache : LRUCache Value Deleter) (id : HandleId) (handle : LRUHandle Value Deleter)
    (refs : BitVec 32) : LRUCache Value Deleter :=
  { cache with heap := cache.heap.setHandle id { handle with refs := refs } }

theorem recounted_tabled (inv : Inv cache cells ids none client)
    (stored : cache.heap.handles id = some handle) (refs : BitVec 32) :
    Tabled (recounted cache id handle refs).heap cache.table ids := by
  refine inv.tabled.congr (fun _ _ => rfl) fun other member => ?_
  obtain ⟨old, was⟩ := inv.stored_of_cached (.inl member)
  by_cases same : other = id
  · subst same
    rw [stored] at was
    cases was
    exact ⟨handle, _, stored, Function.update_self _ _ _, rfl, rfl⟩
  · exact ⟨old, old, was, (Function.update_of_ne same _ _).trans was, rfl, rfl⟩

theorem recounted_readable (inv : Inv cache cells ids none client)
    (stored : cache.heap.handles id = some handle) (refs : BitVec 32) :
    Readable (recounted cache id handle refs).heap ids where
  bounded := by
    intro other beyond
    have apart : other ≠ id := Nat.ne_of_gt (Nat.lt_of_lt_of_le (inv.lt_fresh stored) beyond)
    exact (Function.update_of_ne apart _ _).trans (inv.bounded other beyond)
  keyed := by
    intro other member
    obtain ⟨old, was⟩ := inv.stored_of_cached (.inl member)
    have named : Named (recounted cache id handle refs).heap other := inv.named other old was
    by_cases same : other = id
    · subst same
      exact ⟨_, Function.update_self _ _ _, named.keyOf (Function.update_self _ _ _)⟩
    · have now := (Function.update_of_ne same (some { handle with refs := refs })
        cache.heap.handles).trans was
      exact ⟨old, now, named.keyOf now⟩

/-- A lookup of an entry in use counts up, whatever the count is. -/
theorem lookup_recounted (inv : Inv cache cells ids none client)
    (stored : cache.heap.handles id = some handle) (member : id ∈ ids) {refs : BitVec 32}
    (inUse : refs ≠ 1) :
    (recounted cache id handle refs).step (.lookup handle.key handle.hash) =
      some (some id, recounted cache id handle (refs + 1)) := by
  obtain ⟨found, ran, finds⟩ := lookup_spec (recounted_tabled inv stored refs)
    (recounted_readable inv stored refs) handle.key handle.hash
  have hit := finds.unique (recounted_tabled inv stored refs) member
    ⟨_, Function.update_self _ _ _, rfl, rfl⟩
  subst hit
  have now : (recounted cache id handle refs).heap.handles id =
      some { handle with refs := refs } := Function.update_self _ _ _
  have same : (recounted cache id handle refs).table = cache.table := rfl
  simp only [step, lookup, same, ran, Option.bind_eq_bind, Option.bind_some, Heap.ref, now]
  rw [if_neg fun both => inUse both.1]
  simp [recounted, Heap.setHandle]

/-- With one reference left to it by the count, an entry is deleted when it is erased. -/
theorem erase_recounted (inv : Inv cache cells ids none client)
    (stored : cache.heap.handles id = some handle) (member : id ∈ ids) :
    ∃ erased, (recounted cache id handle 1).step (.erase handle.key handle.hash) =
        some (none, erased) ∧
      callsFor erased.deleted id = [handle.inserted.call id] := by
  obtain ⟨found, nextHash, table, removing, finds, -⟩ :=
    remove_spec (recounted_tabled inv stored 1) (recounted_readable inv stored 1) handle.key
      handle.hash
  have hit := finds.unique (recounted_tabled inv stored 1) member
    ⟨_, Function.update_self _ _ _, rfl, rfl⟩
  subst hit
  have entry := inv.live stored
  have inCache := entry.cached.mpr (.inl member)
  have rings := @Rings.setHandle _ _ _ id _ inv.rings { handle with refs := 1 }
  have between : Rings { (recounted cache id handle 1).heap with nextHash := nextHash } cells :=
    ⟨rings.ring, rings.apart, rings.live⟩
  obtain ⟨next, prev, unlinking, -, names⟩ :=
    lruRemove_spec between (inv.listed_in stored inCache)
  obtain ⟨erased, finishing, deleted⟩ : ∃ erased, finishErase
      { recounted cache id handle 1 with
        heap := { (recounted cache id handle 1).heap with nextHash := nextHash }, table := table }
      (some id) = some (true, erased) ∧
      erased.deleted = cache.deleted ++ lastCall 0 (handle.inserted.call id) :=
    ⟨_, @finishErase_eq _ _ _ id { handle with refs := 1 } 0 next prev (Function.update_self _ _ _)
      inCache rfl unlinking (names id (inv.named id handle stored)), rfl⟩
  refine ⟨erased, ?_, ?_⟩
  · have same : (recounted cache id handle 1).table = cache.table := rfl
    simp only [step, erase, same, removing, Option.bind_eq_bind, Option.bind_some, finishing]
    rfl
  · have made : callsFor cache.deleted id = [] := entry.calls
    rw [deleted, callsFor_lastCall, made]
    rfl

/-- When the highest count of references is reached, two more lookups and `Erase` call the
deleter while every handle is out. -/
theorem overflow_deletes (inv : Inv cache cells ids none client) {key : Slice} {hash : BitVec 32}
    (found : HandleTable.lookup cache.heap cache.table key hash = some (some id))
    (stored : cache.heap.handles id = some handle) (full : handle.refs.toNat + 1 = 2 ^ 32) :
    ∃ first second erased, cache.step (.lookup key hash) = some (some id, first) ∧
      first.step (.lookup key hash) = some (some id, second) ∧
      second.step (.erase key hash) = some (none, erased) ∧
      client.held id + 2 = 2 ^ 32 ∧
      callsFor erased.deleted id = [handle.inserted.call id] := by
  obtain ⟨other, ran, finds⟩ := lookup_spec inv.tabled inv.readable key hash
  rw [found, Option.some.injEq] at ran
  subst ran
  obtain ⟨member, same, again, rfl, rfl⟩ := finds
  rw [stored, Option.some.injEq] at again
  subst again
  have entry := inv.live stored
  have refs := entry.refs
  rw [entry.cached.mpr (.inl member), if_pos rfl] at refs
  have start : recounted cache id handle handle.refs = cache := by
    rw [recounted, Heap.setHandle, ← stored, Function.update_eq_self]
  have highest : handle.refs = BitVec.ofNat 32 (2 ^ 32 - 1) := by
    apply BitVec.eq_of_toNat_eq
    rw [toNat_ofNat_count (by omega)]
    omega
  have first := @lookup_recounted _ _ _ _ _ _ _ _ inv stored member handle.refs (by
    rw [highest]
    decide)
  have zero : handle.refs + 1 = 0 := by
    rw [highest]
    decide
  rw [start, zero] at first
  have second := @lookup_recounted _ _ _ _ _ _ _ _ inv stored member 0 (by decide)
  obtain ⟨erased, erasing, calls⟩ := erase_recounted inv stored member
  exact ⟨_, _, erased, first, second, erasing, by omega, calls⟩

end Overflow

/-- While the references are counted without an overflow, the deleter of an entry is not
called while the entry is cached or referenced. It is called once, as the entry was
inserted, by the operation that ends both, or else by the destructor. Once the count of a
cached entry is the highest there is, two lookups and `Erase` call its deleter under `2 ^ 32`
handles. -/
theorem deleted_once (capacity : BitVec 64) :
    (∀ (cache : LRUCache Value Deleter) client, Reached CountsFit capacity cache client →
      DeletesOnce cache client ∧
      (∀ op returned after, client.Allows op → cache.CountsFit op →
        cache.step op = some (returned, after) →
        ∃ made, after.deleted = cache.deleted ++ made ∧
          ∀ id entry, client.inserted id = some entry → Alive cache client id →
            (Alive after (client.after op returned) id → callsFor made id = []) ∧
            (¬ Alive after (client.after op returned) id → callsFor made id = [entry.call id])) ∧
      ((∀ id, client.held id = 0) → ∃ after, cache.destroy = some after ∧
        ∀ id entry, client.inserted id = some entry →
          callsFor after.deleted id = [entry.call id])) ∧
    ∀ (cache : LRUCache Value Deleter) client, Reached CountsFit capacity cache client →
      ∀ key hash id handle,
        HandleTable.lookup cache.heap cache.table key hash = some (some id) →
        cache.heap.handles id = some handle → handle.refs.toNat + 1 = 2 ^ 32 →
        ∃ first second erased, cache.step (.lookup key hash) = some (some id, first) ∧
          first.step (.lookup key hash) = some (some id, second) ∧
          second.step (.erase key hash) = some (none, erased) ∧
          client.held id + 2 = 2 ^ 32 ∧
          callsFor erased.deleted id = [handle.inserted.call id] := by
  refine ⟨fun cache client reached => ?_, fun cache client reached key hash id handle => ?_⟩
  · obtain ⟨cells, ids, inv⟩ := reached.inv
    refine ⟨inv.deletesOnce, ?_, inv.destroy_calls⟩
    intro op returned after allowed fits stepped
    obtain ⟨same, result, ran, continues, cells', ids', invAfter, -⟩ := step_inv inv allowed fits
    rw [stepped] at ran
    cases ran
    obtain ⟨made, grown⟩ := continues.deleted
    refine ⟨made, grown.symm, fun id entry known alive => ?_⟩
    have before := (inv.callsFor_eq known).1 alive
    have later := invAfter.callsFor_eq (inv.inserted_after stepped known)
    rwa [← grown, callsFor_append, before, List.nil_append] at later
  · obtain ⟨cells, ids, inv⟩ := reached.inv
    exact overflow_deletes inv

theorem deleted_once_evicted : ∃ (cache : LRUCache Nat Nat) (client : CacheClient Nat Nat),
    Reached CountsFit 1 cache client ∧ client.inserted 0 = some ⟨[107], 7, 5, 1, 9⟩ ∧
      cache.deleted = [⟨0, 9, [107], 5⟩] ∧ DeletesOnce cache client := by
  have inserted := @Reached.step _ _ _ _ _ _ _ (.insert [107] 7 5 1 9) _
    (@Reached.new Nat Nat CountsFit 1 _ rfl) trivial (fun _ _ => Nat.two_pow_pos 31) rfl
  have released := @Reached.step _ _ _ _ _ _ _ (.release 0) _ inserted Nat.one_pos trivial rfl
  have evicting := @Reached.step _ _ _ _ _ _ _ (.insert [108] 8 6 1 9) _ released trivial
    (fun _ _ => by decide) rfl
  exact ⟨_, _, evicting, rfl, rfl, ((deleted_once 1).1 _ _ evicting).1⟩

section Overflow

/-- One more lookup of an entry, as long as its references can be counted. -/
theorem Reached.lookup_again (reached : Reached CountsFit capacity cache client) {key : Slice}
    {hash : BitVec 32}
    (found : HandleTable.lookup cache.heap cache.table key hash = some (some id))
    (room : client.held id + 2 < 2 ^ 32) :
    ∃ after, Reached CountsFit capacity after (client.after (.lookup key hash) (some id)) ∧
      HandleTable.lookup after.heap after.table key hash = some (some id) := by
  obtain ⟨cells, ids, inv⟩ := reached.inv
  have fits : cache.CountsFit (.lookup key hash) := by
    intro other handle again stored
    rw [found] at again
    cases again
    have refs := (inv.live stored).refs
    split at refs <;> omega
  obtain ⟨same, after, ran, -, answers, result⟩ := lookup_inv inv fits
  obtain ⟨other, looked, finds⟩ := lookup_spec inv.tabled inv.readable key hash
  rw [found, Option.some.injEq] at looked
  subst looked
  have hit : same = some id := by
    simp only [lookup, found, Option.bind_eq_bind, Option.bind_some, Option.bind_eq_some_iff] at ran
    obtain ⟨heap, -, equal⟩ := ran
    exact (Prod.mk.inj (Option.some.inj equal)).1.symm
  subst hit
  refine ⟨after, .step reached trivial fits ran, ?_⟩
  obtain ⟨member, entry, known, keys, hashes⟩ := answers
  obtain ⟨handle, stored⟩ := result.stored_of_cached (.inl member)
  have agrees : some entry = some handle.inserted := known.symm.trans (result.inserted stored)
  cases agrees
  rw [← keys, ← hashes]
  exact (result.lookup_iff stored).mpr member

/-- `Insert` and many lookups. -/
theorem reached_held (lookups : Nat) (few : lookups + 2 < 2 ^ 32) :
    ∃ (cache : LRUCache Nat Nat) (client : CacheClient Nat Nat),
      Reached CountsFit 1 cache client ∧ client.inserted 0 = some ⟨[107], 7, 5, 1, 9⟩ ∧
        client.held 0 = lookups + 1 ∧
        HandleTable.lookup cache.heap cache.table [107] 7 = some (some 0) := by
  induction lookups with
  | zero =>
      have inserted := @Reached.step _ _ _ _ _ _ _ (.insert [107] 7 5 1 9) _
        (@Reached.new Nat Nat CountsFit 1 _ rfl) trivial (fun _ _ => Nat.two_pow_pos 31) rfl
      exact ⟨_, _, inserted, rfl, rfl, rfl⟩
  | succ lookups ih =>
      obtain ⟨cache, client, reached, known, held, found⟩ := ih (by omega)
      obtain ⟨after, again, still⟩ := reached.lookup_again found (by omega)
      refine ⟨after, _, again, known, ?_, still⟩
      simp [CacheClient.after, held]

/-- An entry that is inserted and then looked up `2 ^ 32 - 1` times loses its value when it is
erased, with a handle out for each of these calls. -/
theorem deleted_while_held : ∃ (cache : LRUCache Nat Nat) (client : CacheClient Nat Nat),
    Reached Always 1 cache client ∧ client.inserted 0 = some ⟨[107], 7, 5, 1, 9⟩ ∧
      client.held 0 = 2 ^ 32 ∧ callsFor cache.deleted 0 = [⟨0, 9, [107], 5⟩] := by
  obtain ⟨cache, client, reached, known, held, found⟩ := reached_held (2 ^ 32 - 3) (by omega)
  obtain ⟨cells, ids, inv⟩ := reached.inv
  obtain ⟨handle, stored⟩ := inv.stored_of_held (show 0 < client.held 0 by omega)
  have record : handle.inserted = ⟨[107], 7, 5, 1, 9⟩ :=
    Option.some.inj ((inv.inserted stored).symm.trans known)
  have keys : handle.key = [107] := congrArg Inserted.key record
  have hashes : handle.hash = 7 := congrArg Inserted.hash record
  have member : 0 ∈ ids := by
    rw [← inv.lookup_iff stored, keys, hashes]
    exact found
  have entry := inv.live stored
  have refs := entry.refs
  rw [entry.cached.mpr (.inl member), if_pos rfl, held] at refs
  obtain ⟨first, second, erased, one, two, erasing, -, calls⟩ :=
    overflow_deletes inv found stored (by omega)
  have start := reached.mono
    (fun _ _ _ => trivial : ∀ cache op, CountsFit cache op → Always cache op)
  have once := @Reached.step _ _ _ _ _ _ _ (.lookup [107] 7) _ start trivial trivial one
  have twice := @Reached.step _ _ _ _ _ _ _ (.lookup [107] 7) _ once trivial trivial two
  have gone := @Reached.step _ _ _ _ _ _ _ (.erase [107] 7) _ twice trivial trivial erasing
  refine ⟨erased, _, gone, known, ?_, ?_⟩
  · simp [CacheClient.after, held]
  · rw [calls, record]
    rfl

end Overflow

end LRUCache

end MiniLevelDb
