import MiniLevelDb.Util.CacheSteps

/-!
# Runs of a cache

Whatever the client does, as long as it releases only handles it has and no count
overflows, no operation fails and the invariant holds after each. So the table, the lists,
the counts and the usage agree.
-/

namespace MiniLevelDb

open Foundation HandleTable Heap

namespace LRUCache

variable {Value Deleter : Type} {capacity : BitVec 64} {cache after : LRUCache Value Deleter}
  {cells : CacheList → List HandleId} {ids : List HandleId}
  {client : CacheClient Value Deleter} {op : CacheOp Value Deleter}
  {returned : Option HandleId} {id : HandleId} {handle : LRUHandle Value Deleter}

/-- The new entry adds its charge to those of the others. -/
theorem Inv.sum_inserted (inv : Inv cache cells ids none client) {key : Slice} {hash : BitVec 32}
    {value : Value} {charge : BitVec 64} {deleter : Deleter} (old : Option HandleId) :
    ((insertedIds cache.capacity ids cache.heap.fresh old).map (client.after
      (.insert key hash value charge deleter) (some cache.heap.fresh)).chargeOf).sum ≤
      (ids.map client.chargeOf).sum + charge.toNat := by
  have known : ∀ others, others ⊆ ids → others.map (client.after
      (.insert key hash value charge deleter) (some cache.heap.fresh)).chargeOf =
        others.map client.chargeOf := by
    intro others within
    refine List.map_congr_left fun other member => ?_
    have apart : other ≠ cache.heap.fresh := fun same =>
      inv.fresh_unlisted.1 (same ▸ within member)
    simp only [CacheClient.chargeOf, CacheClient.after, Function.update_of_ne apart]
  have new : (client.after (.insert key hash value charge deleter)
      (some cache.heap.fresh)).chargeOf cache.heap.fresh = charge.toNat := by
    simp [CacheClient.chargeOf, CacheClient.after]
  unfold insertedIds
  split
  · rw [List.map_cons, List.sum_cons, new, known _ (without_sublist ids old).subset, Nat.add_comm]
    exact Nat.add_le_add_right (sum_sublist (without_sublist ids old) _) _
  · rw [known ids (List.Subset.refl _)]
    exact Nat.le_add_right _ _

/-- One operation. Only an insertion adds to the charges. -/
theorem step_inv (inv : Inv cache cells ids none client) (allowed : client.Allows op)
    (fits : cache.CountsFit op) :
    ∃ returned after, cache.step op = some (returned, after) ∧ Continues cache after ∧
      ∃ cells' ids', Inv after cells' ids' none (client.after op returned) ∧
        (ids'.map (client.after op returned).chargeOf).sum ≤
          (ids.map client.chargeOf).sum + op.charge := by
  cases op with
  | insert key hash value charge deleter =>
      obtain ⟨old, after, ran, continues, -, result⟩ := insert_inv_spec inv fits
      refine ⟨some cache.heap.fresh, after, ?_, continues, _, _, result _ _ _ rfl rfl rfl, ?_⟩
      · rw [step, ran, Option.map_some]
      · rw [← List.diff_eq_foldl]
        exact Nat.le_trans (sum_sublist (List.diff_sublist _ _) _) (inv.sum_inserted old)
  | lookup key hash =>
      obtain ⟨found, after, ran, continues, -, result⟩ := lookup_inv inv fits
      refine ⟨found, after, ran, continues, _, _, result, Nat.le_of_eq ?_⟩
      cases found <;> rfl
  | release id =>
      obtain ⟨after, ran, continues, result⟩ := unref_spec inv allowed
      refine ⟨none, after, ?_, continues, _, _, result, Nat.le_of_eq rfl⟩
      rw [step, release, ran, Option.map_some]
  | erase key hash =>
      obtain ⟨found, after, ran, continues, -, result⟩ := erase_spec inv key hash
      refine ⟨none, after, ?_, continues, _, _, result, sum_sublist (without_sublist ids found) _⟩
      rw [step, ran, Option.map_some]
  | prune =>
      obtain ⟨after, ran, continues, result⟩ := prune_spec inv
      refine ⟨none, after, ?_, continues, _, _, result, ?_⟩
      · rw [step, ran, Option.map_some]
      · rw [← List.diff_eq_foldl]
        exact sum_sublist (List.diff_sublist _ _) _

theorem Reached.inv (reached : Reached CountsFit capacity cache client) :
    ∃ cells ids, Inv cache cells ids none client := by
  induction reached with
  | new made =>
      obtain ⟨cache, ran, -, inv⟩ := @new_inv Value Deleter capacity
      rw [made] at ran
      cases ran
      exact ⟨_, _, inv⟩
  | step reached allowed fits stepped ih =>
      obtain ⟨cells, ids, inv⟩ := ih
      obtain ⟨returned, after, ran, -, cells', ids', result, -⟩ := step_inv inv allowed fits
      rw [stepped] at ran
      cases ran
      exact ⟨cells', ids', result⟩

/-- The usage is the sum of the charges, if a `size_t` holds it. -/
theorem Inv.usage_toNat (inv : Inv cache cells ids none client)
    (small : (ids.map client.chargeOf).sum < 2 ^ 64) :
    cache.usage.toNat = (ids.map client.chargeOf).sum := by
  rw [inv.usage_eq, BitVec.toNat_ofNat, Nat.mod_eq_of_lt small]

/-- As long as nothing overflows, a `size_t` holds the sum of the charges. -/
theorem Reached.charged (reached : Reached NoOverflow capacity cache client) :
    ∃ cells ids, Inv cache cells ids none client ∧ (ids.map client.chargeOf).sum < 2 ^ 64 := by
  induction reached with
  | new made =>
      obtain ⟨cache, ran, -, inv⟩ := @new_inv Value Deleter capacity
      rw [made] at ran
      cases ran
      exact ⟨_, _, inv, Nat.two_pow_pos 64⟩
  | step reached allowed fits stepped ih =>
      obtain ⟨cells, ids, inv, small⟩ := ih
      obtain ⟨returned, after, ran, -, cells', ids', result, added⟩ := step_inv inv allowed fits.1
      rw [stepped] at ran
      cases ran
      have charge := fits.2
      rw [ChargeFits, inv.usage_toNat small] at charge
      exact ⟨cells', ids', result, Nat.lt_of_le_of_lt added charge⟩

/-- The table maps the key and the hash of a handle to it exactly if it is cached. -/
theorem Inv.lookup_iff (inv : Inv cache cells ids none client)
    (stored : cache.heap.handles id = some handle) :
    HandleTable.lookup cache.heap cache.table handle.key handle.hash = some (some id) ↔
      id ∈ ids := by
  obtain ⟨found, ran, finds⟩ := lookup_spec inv.tabled inv.readable handle.key handle.hash
  rw [ran]
  constructor
  · intro same
    cases same
    exact finds.1
  · intro member
    rw [finds.unique inv.tabled member ⟨handle, stored, rfl, rfl⟩]

/-- The lists hold the cached entries, each once. -/
theorem Inv.lists_perm (inv : Inv cache cells ids none client) :
    (cells .lru ++ cells .inUse).Perm ids := by
  have nodup : (cells .lru ++ cells .inUse).Nodup := by
    refine List.nodup_append.mpr ⟨inv.rings.nodup .lru, inv.rings.nodup .inUse, ?_⟩
    rintro left idle right used rfl
    exact inv.rings.apart .lru .inUse (by simp) left idle used
  rw [List.perm_ext_iff_of_nodup nodup inv.tabled.nodup]
  intro id
  rw [List.mem_append]
  constructor
  · rintro (listed | listed)
    · exact inv.mem_ids listed
    · exact inv.mem_ids listed
  · intro member
    rw [inv.mem_cells member, inv.mem_cells member]
    by_cases idle : client.held id = 0 <;> simp [idle]

/-- A handle in memory agrees with the table, the lists and the client's account. -/
structure InOrder (cache : LRUCache Value Deleter) (cells : CacheList → List HandleId)
    (client : CacheClient Value Deleter) (id : HandleId) (handle : LRUHandle Value Deleter) :
    Prop where
  inTable : handle.inCache = true ↔
    HandleTable.lookup cache.heap cache.table handle.key handle.hash = some (some id)
  refs : handle.refs.toNat = client.held id + if handle.inCache then 1 else 0
  onLru : id ∈ cells .lru ↔ handle.inCache = true ∧ handle.refs.toNat = 1
  onInUse : id ∈ cells .inUse ↔ handle.inCache = true ∧ 2 ≤ handle.refs.toNat

theorem Inv.inOrder (inv : Inv cache cells ids none client)
    (stored : cache.heap.handles id = some handle) : InOrder cache cells client id handle := by
  have entry := inv.live stored
  have positive := entry.positive
  refine ⟨?_, entry.refs, ?_, ?_⟩
  · rw [inv.lookup_iff stored, entry.cached, cached_none]
  · rw [entry.listed]
    simp
  · rw [entry.listed]
    refine and_congr_right fun _ => ?_
    simp only [reduceCtorEq, false_iff]
    omega

/-- The calls that entries without handles are due. -/
def dueCalls (client : CacheClient Value Deleter) (idle : List HandleId) :
    List (DeleterCall Value Deleter) :=
  idle.filterMap fun id => (client.inserted id).map fun entry => entry.call id

/-- The loop of the destructor calls the deleter of every entry it passes. -/
theorem destroyLoop_spec {idle : List HandleId} {rounds : Nat} {slot node : ListNode}
    (path : Segment cache.heap.next (fun node => node) (some (.head .lru)) slot
      (idle.map ListNode.entry))
    (start : cache.heap.next slot = some (some node)) (enough : idle.length ≤ rounds)
    (nodup : idle.Nodup)
    (ready : ∀ id ∈ idle, ∃ handle, cache.heap.handles id = some handle ∧
      handle.inCache = true ∧ handle.refs.toNat = 1 ∧ client.inserted id = some handle.inserted ∧
      cache.heap.Named id) :
    ∃ after, destroyLoop rounds node cache = some after ∧
      after.deleted = cache.deleted ++ dueCalls client idle := by
  induction idle generalizing cache rounds slot node with
  | nil =>
      have reads : cache.heap.next slot = some (some (.head .lru)) := path
      rw [start] at reads
      cases reads
      refine ⟨cache, ?_, (List.append_nil _).symm⟩
      cases rounds <;> rfl
  | cons id rest ih =>
      have reads := path.1
      rw [start] at reads
      cases reads
      obtain ⟨rounds, rfl⟩ := Nat.exists_eq_add_of_le' (Nat.le_trans (Nat.succ_pos _) enough)
      obtain ⟨handle, stored, inCache, count, known, named⟩ := ready id List.mem_cons_self
      have follows : cache.heap.next (.entry id) =
          some ((rest.map ListNode.entry).head?.or (some (.head .lru))) := path.2.read_head
      obtain ⟨next, isNext⟩ : ∃ next, (rest.map ListNode.entry).head?.or (some (.head .lru)) =
          some next := by
        cases rest <;> exact ⟨_, rfl⟩
      rw [isNext] at follows
      have dropping := @unref_uncached _ _
        { cache with heap := cache.heap.setHandle id { handle with inCache := false } }
        id { handle with inCache := false } 0 (Function.update_self _ _ _) rfl count named
      obtain ⟨absent, shorter⟩ := List.nodup_cons.mp nodup
      obtain ⟨after, ran, deleted⟩ := @ih
        { cache with
          heap := { cache.heap.setHandle id { handle with inCache := false } with
            handles :=
              Function.update (cache.heap.setHandle id { handle with inCache := false }).handles
              id (leftover 0 { handle with inCache := false }) }
          deleted := cache.deleted ++ lastCall 0 (handle.inserted.call id) }
        rounds (.entry id) next path.2 follows (Nat.le_of_succ_le_succ enough) shorter (by
          intro other member
          obtain ⟨kept, was, rest⟩ := ready other (List.mem_cons_of_mem _ member)
          have differ : other ≠ id := fun same => absent (same ▸ member)
          refine ⟨kept, ?_, rest⟩
          simpa [Heap.setHandle, differ] using was)
      refine ⟨after, ?_, ?_⟩
      · have live : cache.heap.isLive (.entry id) = true := by simp [isLive, stored]
        simp only [destroyLoop, readNext, live, if_true, follows, stored, Option.bind_eq_bind,
          Option.bind_some]
        rw [if_pos ⟨inCache, refs_eq_one.mpr count⟩, dropping]
        exact ran
      · rw [deleted, List.append_assoc, dueCalls, dueCalls, List.filterMap_cons, known]
        rfl

/-- The destructor, when the client has no handles. -/
theorem destroy_spec (inv : Inv cache cells ids none client) (released : ∀ id, client.held id = 0) :
    ∃ after, cache.destroy = some after ∧
      after.deleted = cache.deleted ++ dueCalls client (cells .lru) := by
  have unused : cells .inUse = [] := by
    rw [List.eq_nil_iff_forall_not_mem]
    intro id listed
    have idle := (inv.mem_cells (inv.mem_ids listed) .inUse).mp listed
    simp [released id] at idle
  have used := inv.rings.readNext_head .inUse
  rw [unused] at used
  have first := inv.rings.readNext_head .lru
  obtain ⟨after, ran, deleted⟩ := @destroyLoop_spec _ _ cache client (cells .lru)
    (cache.heap.fresh + 1) (.head .lru) _ (inv.rings.ring .lru).forwards first
    (Nat.le_of_lt inv.length_lru) (inv.rings.nodup .lru) (by
      intro id listed
      obtain ⟨handle, stored⟩ := inv.stored_of_cached (.inl (inv.mem_ids listed))
      have entry := inv.live stored
      obtain ⟨inCache, count⟩ := (entry.listed .lru).mp listed
      exact ⟨handle, stored, inCache, count.mp rfl, entry.inserted, inv.named id handle stored⟩)
  refine ⟨after, ?_, deleted⟩
  simp only [destroy, used, first, Option.bind_eq_bind, Option.bind_some]
  exact ran

/-- After any run without an overflow the table, the lists, the counts and the usage agree,
every operation the client is allowed succeeds, and so does the destructor once the client
has no handles. -/
theorem reached_structure (capacity : BitVec 64) :
    (∃ cache : LRUCache Value Deleter, new capacity = some cache) ∧
    ∀ (cache : LRUCache Value Deleter) (client : CacheClient Value Deleter),
      Reached NoOverflow capacity cache client →
      (∀ op, client.Allows op → cache.NoOverflow op → ∃ result, cache.step op = some result) ∧
      ((∀ id, client.held id = 0) → ∃ after, cache.destroy = some after) ∧
      ∃ cells : CacheList → List HandleId,
        (∀ list, Ring cache.heap.next cache.heap.prev (.head list) ((cells list).map .entry)) ∧
        (∀ id ∈ cells .lru, id ∉ cells .inUse) ∧
        (∀ id handle, cache.heap.handles id = some handle → InOrder cache cells client id handle) ∧
        (∀ id, cache.heap.handles id = none → client.held id = 0 ∧ ∀ list, id ∉ cells list) ∧
        cache.usage.toNat = ((cells .lru ++ cells .inUse).map
          fun id => (cache.heap.handles id).elim 0 fun handle => handle.charge.toNat).sum := by
  refine ⟨?_, ?_⟩
  · obtain ⟨cache, made, -⟩ := @new_inv Value Deleter capacity
    exact ⟨cache, made⟩
  · intro cache client reached
    obtain ⟨cells, ids, inv, small⟩ := reached.charged
    refine ⟨?_, ?_, cells, inv.rings.ring, inv.rings.apart .lru .inUse (by simp),
      fun id handle stored => inv.inOrder stored, ?_, ?_⟩
    · intro op allowed fits
      obtain ⟨returned, after, ran, -⟩ := step_inv inv allowed fits.1
      exact ⟨_, ran⟩
    · intro released
      obtain ⟨after, ran, -⟩ := destroy_spec inv released
      exact ⟨after, ran⟩
    · intro id freed
      exact ⟨(inv.dead freed).held, (inv.dead freed).listed⟩
    · rw [inv.usage_toNat small, (inv.lists_perm.map _).sum_nat]
      refine congrArg List.sum (List.map_congr_left fun id member => ?_)
      obtain ⟨handle, stored⟩ := inv.stored_of_cached (.inl member)
      rw [CacheClient.chargeOf, inv.inserted stored, stored]
      rfl

theorem reached_structure_replaced : ∃ (cache : LRUCache Nat Nat) (client : CacheClient Nat Nat),
    Reached NoOverflow 1 cache client ∧ cache.usage = 1 ∧ client.held 0 = 1 ∧
      ∃ cells : CacheList → List HandleId,
        ∀ id handle, cache.heap.handles id = some handle →
          InOrder cache cells client id handle := by
  obtain ⟨cache, client, reached, usage, held⟩ : ∃ (cache : LRUCache Nat Nat)
      (client : CacheClient Nat Nat), Reached NoOverflow 1 cache client ∧ cache.usage = 1 ∧
        client.held 0 = 1 := by
    have started := @Reached.new Nat Nat NoOverflow 1 _ rfl
    have inserted := @Reached.step _ _ _ _ _ _ _ (.insert [107] 7 5 1 0) _ started trivial
      ⟨fun _ _ => Nat.two_pow_pos 31, by decide⟩ rfl
    have replaced := @Reached.step _ _ _ _ _ _ _ (.insert [107] 7 6 1 0) _ inserted trivial
      ⟨fun _ missing => (nomatch missing), by decide⟩ rfl
    exact ⟨_, _, replaced, rfl, rfl⟩
  obtain ⟨-, -, cells, -, -, inOrder, -⟩ := (reached_structure 1).2 cache client reached
  exact ⟨cache, client, reached, usage, held, cells, inOrder⟩

end LRUCache

end MiniLevelDb
