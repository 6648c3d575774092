import MiniLevelDb.Util.CacheSteps
import MiniLevelDb.Util.LruSpec

/-!
# The sharded cache is a least recently used cache

A shard stands for the cache it should be: the table holds the cached entries, `lru_`
the idle ones in order, and the hash of every entry is the hash of its key, so it
leads back to the shard the entry is in.
-/

namespace MiniLevelDb

open Foundation HandleTable Heap LRUCache

variable {Value Deleter : Type} {index : ShardIndex} {lru : LRUCache Value Deleter}
  {shard : LruShard Value Deleter} {key : Slice} {found : Option HandleId} {id : HandleId}

/-- The cache `lru`, at its place among the shards, stands for `shard`. -/
structure ShardRefines (index : ShardIndex) (lru : LRUCache Value Deleter)
    (shard : LruShard Value Deleter) : Prop where
  inv : ∃ cells, Inv lru cells shard.cached none shard.client ∧ cells .lru = shard.idle
  fresh : lru.heap.fresh = shard.fresh
  counted : shard.usage < 2 ^ 64
  routed : ∀ id entry, shard.client.inserted id = some entry →
    entry.hash = hashSlice entry.key ∧ shardOf entry.hash = index

namespace ShardRefines

/-- Two cached entries of one key are the same. -/
theorem unique (refines : ShardRefines index lru shard) {left right : HandleId}
    (leftMember : left ∈ shard.cached) (rightMember : right ∈ shard.cached)
    (leftKey : shard.keyOf left = some key) (rightKey : shard.keyOf right = some key) :
    left = right := by
  obtain ⟨cells, inv, -⟩ := refines.inv
  have hits : ∀ id ∈ shard.cached, shard.keyOf id = some key →
      Matches lru.heap key (hashSlice key) id := by
    intro id member keyed
    obtain ⟨handle, stored⟩ := inv.stored_of_cached (.inl member)
    have known := inv.inserted stored
    have hashed := (refines.routed id _ known).1
    rw [LruShard.keyOf, known, Option.map_some, Option.some.injEq] at keyed
    refine ⟨handle, stored, keyed, ?_⟩
    rw [← keyed]
    exact hashed
  exact inv.tabled.unique left leftMember right rightMember key (hashSlice key)
    (hits left leftMember leftKey) (hits right rightMember rightKey)

/-- The table finds the entry that the key means. -/
theorem find_eq (refines : ShardRefines index lru shard)
    (answers : Answers shard.client shard.cached key (hashSlice key) found) :
    shard.find key = found := by
  cases found with
  | none =>
      refine List.find?_eq_none.mpr fun id member keyed => ?_
      obtain ⟨entry, known, rfl⟩ := Option.map_eq_some_iff.mp (of_decide_eq_true keyed)
      exact answers id member entry known ⟨rfl, (refines.routed id entry known).1⟩
  | some id =>
      obtain ⟨member, entry, known, keyed, -⟩ := answers
      have isKey : shard.keyOf id = some key := by
        rw [LruShard.keyOf, known, Option.map_some, keyed]
      cases result : shard.find key with
      | none =>
          have missing := List.find?_eq_none.mp result id member
          simp [isKey] at missing
      | some other =>
          have otherKey := List.find?_some result
          rw [refines.unique (List.mem_of_find?_eq_some result) member
            (of_decide_eq_true otherKey) isKey]

end ShardRefines

theorem fresh_eq {cache : LRUCache Value Deleter} {cells : CacheList → List HandleId}
    {ids : List HandleId} {client : CacheClient Value Deleter} {fresh : HandleId}
    (inv : Inv cache cells ids none client)
    (bound : ∀ id, client.inserted id = none ↔ fresh ≤ id) : cache.heap.fresh = fresh :=
  Nat.le_antisymm ((inv.fresh fresh).mp ((bound fresh).mpr (Nat.le_refl _)))
    ((bound _).mp ((inv.fresh _).mpr (Nat.le_refl _)))

namespace ShardRefines

theorem bound (refines : ShardRefines index lru shard) (id : HandleId) :
    shard.client.inserted id = none ↔ shard.fresh ≤ id := by
  obtain ⟨cells, inv, -⟩ := refines.inv
  rw [inv.fresh, refines.fresh]

/-- The same entries, otherwise arranged. -/
theorem rearranged (refines : ShardRefines index lru shard) {after : LRUCache Value Deleter}
    {cells : CacheList → List HandleId} {later : LruShard Value Deleter}
    (inv : Inv after cells later.cached none later.client) (idle : cells .lru = later.idle)
    (fresh : later.fresh = shard.fresh)
    (inserted : later.client.inserted = shard.client.inserted)
    (fewer : later.cached.Sublist shard.cached) :
    ShardRefines index after later where
  inv := ⟨cells, inv, idle⟩
  counted := by
    have same : later.client.chargeOf = shard.client.chargeOf := by
      funext id
      rw [CacheClient.chargeOf, inserted, CacheClient.chargeOf]
    rw [LruShard.usage, same]
    exact Nat.lt_of_le_of_lt (sum_sublist fewer _) refines.counted
  fresh := by
    refine fresh_eq inv fun id => ?_
    rw [inserted, fresh]
    exact refines.bound id
  routed := by
    intro id entry known
    rw [inserted] at known
    exact refines.routed id entry known

/-- The references to the entry of a key are counted as the cache counts them. -/
theorem countsFit_lookup (refines : ShardRefines index lru shard) (fits : shard.Countable key) :
    lru.CountsFit (.lookup key (hashSlice key)) := by
  intro id handle ran stored
  obtain ⟨cells, inv, -⟩ := refines.inv
  obtain ⟨found, again, finds⟩ := lookup_spec inv.tabled inv.readable key (hashSlice key)
  rw [ran, Option.some.injEq] at again
  subst again
  have few := fits id (refines.find_eq (inv.answers finds))
  have refs := (inv.live stored).refs
  split at refs <;> omega

theorem lookup (refines : ShardRefines index lru shard) (key : Slice)
    (fits : shard.Countable key) :
    ∃ after, lru.lookup key (hashSlice key) = some ((shard.lookup key).1, after) ∧
      after.capacity = lru.capacity ∧ ShardRefines index after (shard.lookup key).2 := by
  obtain ⟨cells, inv, idle⟩ := refines.inv
  obtain ⟨found, after, ran, continues, answers, result⟩ :=
    lookup_inv inv (refines.countsFit_lookup fits)
  have finds := refines.find_eq answers
  refine ⟨after, ?_, continues.capacity, ?_⟩
  · rw [ran, LruShard.lookup, finds]
    cases found <;> rfl
  · rw [LruShard.lookup, finds]
    cases found with
    | none => exact refines.rearranged result idle rfl rfl (List.Sublist.refl _)
    | some id =>
        refine refines.rearranged result ?_ rfl rfl (List.Sublist.refl _)
        rw [← idle]
        simp only [Option.elim_some, referredCells]
        split
        · rfl
        · rename_i held
          refine (List.erase_of_not_mem fun listed => held ?_).symm
          have cached : id ∈ shard.cached := answers.1
          simpa using (inv.mem_cells cached .lru).mp listed

theorem release (refines : ShardRefines index lru shard)
    (held : 0 < shard.client.held id) :
    ∃ after, lru.release id = some after ∧ after.capacity = lru.capacity ∧
      ShardRefines index after (shard.release id) := by
  obtain ⟨cells, inv, idle⟩ := refines.inv
  obtain ⟨after, ran, continues, result⟩ := unref_spec inv held
  refine ⟨after, ran, continues.capacity,
    refines.rearranged result ?_ rfl rfl (List.Sublist.refl _)⟩
  rw [LruShard.release, releasedCells, ← idle]
  split
  · rename_i last
    have busy : id ∉ cells .lru := by
      rw [inv.mem_cells last.1]
      simp [last.2]
    simp [appended, removed, List.erase_of_not_mem busy]
  · rfl

theorem erase (refines : ShardRefines index lru shard) (key : Slice) :
    ∃ after, lru.erase key (hashSlice key) = some after ∧ after.capacity = lru.capacity ∧
      ShardRefines index after (shard.erase key) := by
  obtain ⟨cells, inv, idle⟩ := refines.inv
  obtain ⟨found, after, ran, continues, answers, result⟩ := erase_spec inv key (hashSlice key)
  refine ⟨after, ran, continues.capacity, ?_⟩
  rw [LruShard.erase, refines.find_eq answers]
  cases found with
  | none => exact refines.rearranged result idle rfl rfl (List.Sublist.refl _)
  | some id =>
      refine refines.rearranged result ?_ rfl rfl List.erase_sublist
      show removed cells id .lru = shard.idle.erase id
      rw [← idle, removed]

end ShardRefines

/-- Dropping entries from both lists drops them from each. -/
theorem foldl_removed (gone : List HandleId) (cells : CacheList → List HandleId)
    (list : CacheList) : gone.foldl removed cells list = (cells list).diff gone := by
  rw [List.diff_eq_foldl]
  induction gone generalizing cells with
  | nil => rfl
  | cons first rest ih => exact ih _

namespace LruShard

/-- No entry is twice in a list, and the idle entries are cached. -/
structure Sound (shard : LruShard Value Deleter) : Prop where
  cached_nodup : shard.cached.Nodup
  idle_nodup : shard.idle.Nodup
  idle_cached : shard.idle ⊆ shard.cached

theorem Sound.erase (sound : shard.Sound) (key : Slice) : (shard.erase key).Sound := by
  rw [LruShard.erase]
  cases shard.find key with
  | none => exact sound
  | some id =>
      refine ⟨sound.cached_nodup.erase id, sound.idle_nodup.erase id, fun other member => ?_⟩
      obtain ⟨differ, idle⟩ := sound.idle_nodup.mem_erase_iff.mp member
      exact sound.cached_nodup.mem_erase_iff.mpr ⟨differ, sound.idle_cached idle⟩

/-- The idle entries of a shard with a new entry are cached. -/
theorem Sound.takeIn_idle (sound : shard.Sound) (capacity : Nat) (value : Value)
    (charge : BitVec 64) (deleter : Deleter) :
    (shard.takeIn capacity key value charge deleter).idle ⊆
        (shard.takeIn capacity key value charge deleter).cached ∧
      (shard.takeIn capacity key value charge deleter).idle.Nodup := by
  rw [takeIn]
  by_cases positive : 0 < capacity
  · simp only [positive, if_true]
    exact ⟨List.subset_cons_of_subset _ (sound.erase key).idle_cached, (sound.erase key).idle_nodup⟩
  · simp only [positive, if_false]
    exact ⟨sound.idle_cached, sound.idle_nodup⟩

/-- What the cached entries are charged, without one of them. -/
theorem usage_remove (member : id ∈ shard.cached) :
    (shard.remove id).usage = shard.usage - shard.client.chargeOf id := by
  have perm := (List.perm_cons_erase member).map shard.client.chargeOf
  have total := perm.sum_nat
  rw [List.map_cons, List.sum_cons] at total
  unfold usage
  rw [total]
  exact (Nat.add_sub_cancel_left ..).symm

/-- Shrinking drops the entries that `Insert` drops, if a `size_t` holds the usage. -/
theorem shrink_eq {capacity : BitVec 64} {queue : List HandleId} (within : queue ⊆ shard.cached)
    (nodup : queue.Nodup) (small : shard.usage < 2 ^ 64) :
    shard.shrink capacity.toNat queue = { shard with
      cached := shard.cached.diff
        (victims (fun usage => usage > capacity) shard.client.chargeOf shard.usage queue)
      idle := shard.idle.diff
        (victims (fun usage => usage > capacity) shard.client.chargeOf shard.usage queue) } := by
  induction queue generalizing shard with
  | nil => rfl
  | cons oldest rest ih =>
      obtain ⟨absent, shorter⟩ := List.nodup_cons.mp nodup
      have counted : BitVec.ofNat 64 shard.usage > capacity ↔ shard.usage > capacity.toNat := by
        rw [gt_iff_lt, BitVec.lt_def, BitVec.toNat_ofNat, Nat.mod_eq_of_lt small]
      rw [shrink, victims]
      by_cases above : shard.usage > capacity.toNat
      · have still : rest ⊆ (shard.remove oldest).cached := by
          intro id member
          refine (List.mem_erase_of_ne ?_).mpr (within (List.mem_cons_of_mem _ member))
          rintro rfl
          exact absent member
        have less := usage_remove (within List.mem_cons_self)
        rw [if_pos above, if_pos (decide_eq_true (counted.mpr above)),
          ih still shorter (less ▸ Nat.lt_of_le_of_lt (Nat.sub_le _ _) small), less]
        simp only [List.diff_cons]
        rfl
      · rw [if_neg above, if_neg (by rwa [decide_eq_true_eq, counted])]
        rfl

/-- Shrinking keeps what it is not told to drop. -/
theorem mem_shrink {capacity : Nat} {queue : List HandleId} (kept : id ∉ queue)
    (member : id ∈ shard.cached) : id ∈ (shard.shrink capacity queue).cached := by
  induction queue generalizing shard with
  | nil => exact member
  | cons oldest rest ih =>
      rw [shrink]
      split
      · refine ih (fun later => kept (List.mem_cons_of_mem _ later)) ?_
        refine (List.mem_erase_of_ne ?_).mpr member
        rintro rfl
        exact kept List.mem_cons_self
      · exact member

/-- Shrinking ends when the entries fit or none is idle. -/
theorem shrink_fits {capacity : Nat} {queue : List HandleId} (isQueue : shard.idle = queue) :
    (shard.shrink capacity queue).usage ≤ capacity ∨
      (shard.shrink capacity queue).idle = [] := by
  induction queue generalizing shard with
  | nil => exact .inr isQueue
  | cons oldest rest ih =>
      rw [shrink]
      split
      · refine ih ?_
        rw [remove, isQueue, List.erase_cons_head]
      · exact .inl (by omega)

theorem erase_client (shard : LruShard Value Deleter) (key : Slice) :
    (shard.erase key).client = shard.client := by
  unfold erase
  split <;> rfl

theorem shrink_client (capacity : Nat) (queue : List HandleId) (shard : LruShard Value Deleter) :
    (shard.shrink capacity queue).client = shard.client := by
  induction queue generalizing shard with
  | nil => rfl
  | cons oldest rest ih =>
      rw [shrink]
      split
      · exact ih _
      · rfl

end LruShard

namespace ShardRefines

/-- The entry just inserted is cached, and is not idle. -/
theorem mem_insert (refines : ShardRefines index lru shard) {capacity : Nat}
    (positive : 0 < capacity) (key : Slice) (value : Value) (charge : BitVec 64)
    (deleter : Deleter) :
    shard.fresh ∈ (shard.insert capacity key value charge deleter).cached := by
  rw [LruShard.insert]
  refine LruShard.mem_shrink ?_ (by simp [LruShard.takeIn, positive])
  obtain ⟨cells, inv, idle⟩ := refines.inv
  have unlisted : shard.fresh ∉ shard.idle := by
    rw [← idle, ← refines.fresh]
    exact inv.fresh_unlisted.2 .lru
  simp only [LruShard.takeIn, positive, if_true, LruShard.erase]
  cases shard.find key with
  | none => exact unlisted
  | some id => exact fun member => unlisted (List.mem_of_mem_erase member)

theorem sound (refines : ShardRefines index lru shard) : shard.Sound := by
  obtain ⟨cells, inv, idle⟩ := refines.inv
  refine ⟨inv.tabled.nodup, idle ▸ inv.rings.nodup .lru, fun id member => ?_⟩
  rw [← idle] at member
  exact inv.mem_ids member

theorem prune (refines : ShardRefines index lru shard) :
    ∃ after, lru.prune = some after ∧ after.capacity = lru.capacity ∧
      ShardRefines index after shard.prune := by
  obtain ⟨cells, inv, idle⟩ := refines.inv
  obtain ⟨after, ran, continues, result⟩ := prune_spec inv
  refine ⟨after, ran, continues.capacity, ?_⟩
  have left : (cells .lru).foldl List.erase shard.cached = shard.prune.cached := by
    rw [← List.diff_eq_foldl, inv.tabled.nodup.sdiff_eq_filter, LruShard.prune, idle]
  rw [left] at result
  refine refines.rearranged result ?_ rfl rfl List.filter_sublist
  rw [foldl_removed, (inv.rings.nodup .lru).sdiff_eq_filter]
  simp [LruShard.prune]

/-- The lists of a new entry, before idle ones are dropped. -/
theorem takeIn_lists (refines : ShardRefines index lru shard) {cells : CacheList → List HandleId}
    (idle : cells .lru = shard.idle)
    (answers : Answers shard.client shard.cached key (hashSlice key) found) (value : Value)
    (charge : BitVec 64) (deleter : Deleter) :
    insertedIds lru.capacity shard.cached lru.heap.fresh found =
        (shard.takeIn lru.capacity.toNat key value charge deleter).cached ∧
      insertedCells lru.capacity cells lru.heap.fresh found .lru =
        (shard.takeIn lru.capacity.toNat key value charge deleter).idle := by
  have finds := refines.find_eq answers
  have same : 0 < lru.capacity.toNat ↔ 0 < lru.capacity := BitVec.toNat_pos _
  rw [insertedIds, insertedCells, LruShard.takeIn, refines.fresh]
  by_cases positive : 0 < lru.capacity
  · simp only [same, positive, if_true, LruShard.erase, finds]
    cases found with
    | none => exact ⟨rfl, idle⟩
    | some id =>
        refine ⟨rfl, ?_⟩
        show (cells .lru).erase id = shard.idle.erase id
        rw [idle]
  · simp only [same, positive, if_false, idle, and_self]

/-- The table of the cache has the room that the shard has. -/
theorem countsFit_insert (refines : ShardRefines index lru shard) {value : Value}
    {charge : BitVec 64} {deleter : Deleter} (fits : shard.RoomFor lru.capacity.toNat key charge) :
    lru.CountsFit (.insert key (hashSlice key) value charge deleter) := by
  intro positive ran
  obtain ⟨cells, inv, -⟩ := refines.inv
  obtain ⟨found, again, finds⟩ := lookup_spec inv.tabled inv.readable key (hashSlice key)
  rw [ran, Option.some.injEq] at again
  subst again
  rw [inv.tabled.elems]
  exact (fits ((BitVec.toNat_pos _).mpr positive)).1 (refines.find_eq (inv.answers finds))

/-- What is charged with a new entry, before idle ones are dropped. -/
theorem takeIn_usage (refines : ShardRefines index lru shard) {capacity : Nat} (value : Value)
    {charge : BitVec 64} (deleter : Deleter) (fits : shard.RoomFor capacity key charge) :
    (shard.takeIn capacity key value charge deleter).usage < 2 ^ 64 := by
  have unlisted : shard.fresh ∉ shard.cached := by
    obtain ⟨cells, inv, -⟩ := refines.inv
    rw [← refines.fresh]
    exact inv.fresh_unlisted.1
  have known : ∀ others : List HandleId, others ⊆ shard.cached → others.map
      (shard.takeIn capacity key value charge deleter).client.chargeOf =
        others.map shard.client.chargeOf := by
    intro others within
    refine List.map_congr_left fun other member => ?_
    have apart : other ≠ shard.fresh := fun same => unlisted (same ▸ within member)
    simp only [CacheClient.chargeOf, LruShard.takeIn, CacheClient.after,
      Function.update_of_ne apart]
  by_cases positive : 0 < capacity
  · have kept : (shard.erase key).cached ⊆ shard.cached := by
      rw [LruShard.erase]
      split
      · exact List.Subset.refl _
      · exact List.erase_subset
    have cached : (shard.takeIn capacity key value charge deleter).cached =
        shard.fresh :: (shard.erase key).cached := by
      simp only [LruShard.takeIn, positive, if_true]
    have new : (shard.takeIn capacity key value charge deleter).client.chargeOf shard.fresh =
        charge.toNat := by
      simp [CacheClient.chargeOf, LruShard.takeIn, CacheClient.after]
    have room := (fits positive).2
    rw [LruShard.usage, LruShard.erase_client] at room
    rw [LruShard.usage, cached, List.map_cons, List.sum_cons, new, known _ kept, Nat.add_comm]
    exact room
  · have cached : (shard.takeIn capacity key value charge deleter).cached = shard.cached := by
      simp only [LruShard.takeIn, positive, if_false]
    rw [LruShard.usage, cached, known _ (List.Subset.refl _)]
    exact refines.counted

theorem insert (refines : ShardRefines (LruSpec.home key) lru shard) (value : Value)
    {charge : BitVec 64} (deleter : Deleter)
    (fits : shard.RoomFor lru.capacity.toNat key charge) :
    ∃ after, lru.insert key (hashSlice key) value charge deleter = some (shard.fresh, after) ∧
      after.capacity = lru.capacity ∧
      ShardRefines (LruSpec.home key) after
        (shard.insert lru.capacity.toNat key value charge deleter) := by
  obtain ⟨cells, inv, idle⟩ := refines.inv
  obtain ⟨found, after, ran, continues, answers, result⟩ := insert_inv_spec inv
    (@countsFit_insert _ _ _ _ _ _ refines value charge deleter fits)
  obtain ⟨cached, idled⟩ := refines.takeIn_lists idle answers value charge deleter
  have client : shard.client.after (.insert key (hashSlice key) value charge deleter)
      (some lru.heap.fresh) =
        (shard.takeIn lru.capacity.toNat key value charge deleter).client := by
    rw [refines.fresh, LruShard.takeIn]
  specialize result _ _ _ rfl rfl rfl
  rw [idled, cached, client] at result
  obtain ⟨within, nodup⟩ := refines.sound.takeIn_idle lru.capacity.toNat value charge deleter
  have small := refines.takeIn_usage value deleter fits
  have shrunk := @LruShard.shrink_eq _ _ (shard.takeIn lru.capacity.toNat key value charge deleter)
    lru.capacity _ within nodup small
  refine ⟨after, by rw [ran, refines.fresh], continues.capacity, ?_⟩
  rw [LruShard.insert, shrunk]
  rw [← List.diff_eq_foldl] at result
  refine ⟨⟨_, result, ?_⟩, fresh_eq result ?_,
    Nat.lt_of_le_of_lt (sum_sublist (List.diff_sublist _ _) _) small, ?_⟩
  · rw [foldl_removed, idled]
    rfl
  · intro id
    by_cases same : id = shard.fresh
    · subst same
      simp [LruShard.takeIn, CacheClient.after]
    · have kept := refines.bound id
      rw [LruShard.takeIn, CacheClient.after]
      simp only [Function.update_of_ne same, kept, Nat.succ_le_iff]
      exact ⟨fun least => Nat.lt_of_le_of_ne least (Ne.symm same), Nat.le_of_lt⟩
  · intro id entry known
    by_cases same : id = shard.fresh
    · subst same
      rw [LruShard.takeIn, CacheClient.after] at known
      simp only [Function.update_self, Option.some.injEq] at known
      subst known
      exact ⟨rfl, rfl⟩
    · rw [LruShard.takeIn, CacheClient.after] at known
      simp only [Function.update_of_ne same] at known
      exact refines.routed id entry known

end ShardRefines

section Sharded

variable {capacity : Nat} {cache : ShardedLRUCache Value Deleter} {spec : LruSpec Value Deleter}
  {op : ShardedOp Value Deleter}

/-- Every shard of the cache stands for the one it should be. -/
def CacheRefines (capacity : Nat) (cache : ShardedLRUCache Value Deleter)
    (spec : LruSpec Value Deleter) : Prop :=
  ∀ index, (cache.shard index).capacity.toNat = capacity ∧
    ShardRefines index (cache.shard index) (spec.shard index)

namespace CacheRefines

theorem setShard (refines : CacheRefines capacity cache spec) (same : lru.capacity.toNat = capacity)
    (shardRefines : ShardRefines index lru shard) :
    CacheRefines capacity (cache.setShard index lru) (spec.setShard index shard) := by
  intro other
  rw [ShardedLRUCache.setShard, LruSpec.setShard]
  by_cases here : other = index
  · subst here
    simp only [Function.update_self]
    exact ⟨same, shardRefines⟩
  · simp only [Function.update_of_ne here]
    exact refines other

/-- `Prune` goes through the shards, and prunes each one it meets. -/
theorem pruneShards (refines : CacheRefines capacity cache spec) {todo : List ShardIndex}
    (nodup : todo.Nodup) {pruned : LruSpec Value Deleter}
    (inside : ∀ index ∈ todo, pruned.shard index = (spec.shard index).prune)
    (outside : ∀ index, index ∉ todo → pruned.shard index = spec.shard index) :
    ∃ after, todo.foldlM (fun cache index => do
        let lru ← (cache.shard index).prune
        some (cache.setShard index lru)) cache = some after ∧
      CacheRefines capacity after pruned := by
  induction todo generalizing cache spec with
  | nil =>
      refine ⟨cache, rfl, fun index => ?_⟩
      rw [outside index List.not_mem_nil]
      exact refines index
  | cons first rest ih =>
      obtain ⟨absent, shorter⟩ := List.nodup_cons.mp nodup
      obtain ⟨lru, ran, same, shardRefines⟩ := (refines first).2.prune
      have next := refines.setShard ((congrArg BitVec.toNat same).trans (refines first).1)
        shardRefines
      obtain ⟨after, later, result⟩ := ih next shorter
        (by
          intro index member
          have other : index ≠ first := fun here => absent (here ▸ member)
          rw [inside index (List.mem_cons_of_mem first member), LruSpec.shard_setShard_of_ne other])
        (by
          intro index missing
          by_cases here : index = first
          · subst here
            rw [inside index List.mem_cons_self, LruSpec.shard_setShard]
          · rw [outside index (by simp [here, missing]), LruSpec.shard_setShard_of_ne here])
      refine ⟨after, ?_, result⟩
      simp only [List.foldlM_cons, ran, Option.bind_eq_bind, Option.bind_some]
      exact later

/-- One operation. -/
theorem step (refines : CacheRefines capacity cache spec) (allowed : spec.Allows op)
    (fits : spec.Fits capacity op) :
    ∃ after, cache.step op = some ((spec.step capacity op).1, after) ∧
      CacheRefines capacity after (spec.step capacity op).2 := by
  cases op with
  | insert key value charge deleter =>
      obtain ⟨same, shardRefines⟩ := refines (LruSpec.home key)
      obtain ⟨lru, ran, kept, result⟩ := shardRefines.insert value deleter (same ▸ fits)
      rw [same] at result
      refine ⟨_, ?_, refines.setShard ((congrArg BitVec.toNat kept).trans same) result⟩
      rw [LruSpec.home] at ran ⊢
      simp only [ShardedLRUCache.step, ShardedLRUCache.insert, ran, Option.bind_eq_bind,
        Option.bind_some, Option.map_some]
      rfl
  | lookup key =>
      obtain ⟨same, shardRefines⟩ := refines (LruSpec.home key)
      obtain ⟨lru, ran, kept, result⟩ := shardRefines.lookup key fits
      refine ⟨_, ?_, refines.setShard ((congrArg BitVec.toNat kept).trans same) result⟩
      rw [LruSpec.home] at ran ⊢
      simp only [ShardedLRUCache.step, ShardedLRUCache.lookup, ran, Option.bind_eq_bind,
        Option.bind_some]
      rfl
  | release handle =>
      obtain ⟨same, shardRefines⟩ := refines handle.shard
      obtain ⟨cells, inv, -⟩ := shardRefines.inv
      obtain ⟨stored, isStored⟩ := inv.stored_of_held allowed
      have routed : shardOf stored.hash = handle.shard :=
        (shardRefines.routed handle.id _ (inv.inserted isStored)).2
      obtain ⟨lru, ran, kept, result⟩ := shardRefines.release allowed
      refine ⟨_, ?_, refines.setShard ((congrArg BitVec.toNat kept).trans same) result⟩
      simp only [ShardedLRUCache.step, ShardedLRUCache.release, isStored, routed, if_true, ran,
        Option.bind_eq_bind, Option.bind_some, Option.map_some]
      rfl
  | erase key =>
      obtain ⟨same, shardRefines⟩ := refines (LruSpec.home key)
      obtain ⟨lru, ran, kept, result⟩ := shardRefines.erase key
      refine ⟨_, ?_, refines.setShard ((congrArg BitVec.toNat kept).trans same) result⟩
      rw [LruSpec.home] at ran ⊢
      simp only [ShardedLRUCache.step, ShardedLRUCache.erase, ran, Option.bind_eq_bind,
        Option.bind_some, Option.map_some]
      rfl
  | prune =>
      obtain ⟨after, ran, result⟩ := refines.pruneShards (List.nodup_finRange 16)
        (fun index _ => (rfl : (spec.step capacity .prune).2.shard index = _))
        (fun index missing => absurd (List.mem_finRange index) missing)
      refine ⟨after, ?_, result⟩
      rw [ShardedLRUCache.step, ShardedLRUCache.prune, ran]
      rfl

/-- A run. -/
theorem run {ops : List (ShardedOp Value Deleter)} (refines : CacheRefines capacity cache spec)
    (disciplined : LruSpec.Disciplined capacity ops spec)
    (fits : LruSpec.AllFit capacity ops spec) :
    ∃ final, cache.run ops = some ((spec.run capacity ops).1, final) ∧
      CacheRefines capacity final (spec.run capacity ops).2 ∧
      (spec.run capacity ops).2.totalCharge < 2 ^ 64 := by
  induction ops generalizing cache spec with
  | nil => exact ⟨cache, rfl, refines, fits⟩
  | cons op ops ih =>
      obtain ⟨after, stepped, later⟩ := refines.step disciplined.1 fits.1
      obtain ⟨final, ran, result⟩ := ih later disciplined.2 fits.2
      refine ⟨final, ?_, result⟩
      simp only [ShardedLRUCache.run, stepped, ran, Option.bind_eq_bind, Option.bind_some]
      rfl

end CacheRefines

/-- An operation on a key only writes the shard of the key. -/
theorem step_confined {after : ShardedLRUCache Value Deleter} {returned : Option ShardedHandle}
    (onKey : op.key? = some key) (stepped : cache.step op = some (returned, after))
    (elsewhere : index ≠ LruSpec.home key) : after.shard index = cache.shard index := by
  cases op with
  | insert own value charge deleter =>
      cases onKey
      obtain ⟨⟨handle, result⟩, ran, same⟩ := Option.map_eq_some_iff.mp stepped
      obtain ⟨⟨id, lru⟩, -, set⟩ := Option.bind_eq_some_iff.mp ran
      cases set
      cases same
      exact Function.update_of_ne elsewhere _ _
  | lookup own =>
      cases onKey
      obtain ⟨⟨found, lru⟩, -, set⟩ := Option.bind_eq_some_iff.mp stepped
      cases set
      exact Function.update_of_ne elsewhere _ _
  | erase own =>
      cases onKey
      obtain ⟨result, ran, same⟩ := Option.map_eq_some_iff.mp stepped
      obtain ⟨lru, -, set⟩ := Option.bind_eq_some_iff.mp ran
      cases set
      cases same
      exact Function.update_of_ne elsewhere _ _
  | release handle => cases onKey
  | prune => cases onKey

/-- What acting as a least recently used cache comes to after a run. -/
structure ActsAsLru (capacity : Nat) (cache : ShardedLRUCache Value Deleter)
    (spec : LruSpec Value Deleter) : Prop where
  charge : cache.totalCharge.toNat = spec.totalCharge
  values : ∀ handle entry, 0 < (spec.shard handle.shard).client.held handle.id →
    (spec.shard handle.shard).client.inserted handle.id = some entry →
    cache.value handle = some entry.value
  idle : ∀ index id, id ∈ (spec.shard index).idle ↔
    id ∈ (spec.shard index).cached ∧ (spec.shard index).client.held id = 0
  unique : ∀ index key, ∀ left ∈ (spec.shard index).cached, ∀ right ∈ (spec.shard index).cached,
    (spec.shard index).keyOf left = some key → (spec.shard index).keyOf right = some key →
    left = right
  admitted : 0 < capacity → ∀ index key value charge deleter,
    (spec.shard index).fresh ∈
      ((spec.shard index).insert capacity key value charge deleter).cached
  fits : ∀ index key value charge deleter,
    ((spec.shard index).insert capacity key value charge deleter).usage ≤ capacity ∨
      ((spec.shard index).insert capacity key value charge deleter).idle = []
  confined : ∀ op key returned after, op.key? = some key →
    cache.step op = some (returned, after) → ∀ index, index ≠ LruSpec.home key →
    after.shard index = cache.shard index

/-- Adding up the usages of some shards. -/
theorem CacheRefines.sum_usage (refines : CacheRefines capacity cache spec)
    (indices : List ShardIndex) (start : Nat) :
    indices.foldl (fun total index => total + (cache.shard index).usage) (BitVec.ofNat 64 start) =
      BitVec.ofNat 64 (start + (indices.map fun index => (spec.shard index).usage).sum) := by
  induction indices generalizing start with
  | nil => rfl
  | cons index rest ih =>
      obtain ⟨cells, inv, -⟩ := (refines index).2.inv
      rw [List.foldl_cons, inv.usage_eq, ← BitVec.ofNat_add, ih, List.map_cons, List.sum_cons,
        ← Nat.add_assoc]
      rfl

theorem CacheRefines.actsAsLru (refines : CacheRefines capacity cache spec)
    (small : spec.totalCharge < 2 ^ 64) : ActsAsLru capacity cache spec where
  charge := by
    have total : cache.totalCharge = BitVec.ofNat 64 (0 + spec.totalCharge) :=
      refines.sum_usage (List.finRange 16) 0
    rw [total, Nat.zero_add, BitVec.toNat_ofNat]
    exact Nat.mod_eq_of_lt small
  values := by
    intro handle entry held known
    obtain ⟨cells, inv, -⟩ := (refines handle.shard).2.inv
    obtain ⟨stored, isStored⟩ := inv.stored_of_held held
    rw [inv.inserted isStored, Option.some.injEq] at known
    rw [ShardedLRUCache.value, isStored, ← known]
    rfl
  idle := by
    intro index id
    obtain ⟨cells, inv, idle⟩ := (refines index).2.inv
    rw [← idle]
    constructor
    · intro listed
      exact ⟨inv.mem_ids listed, by simpa using (inv.mem_cells (inv.mem_ids listed) .lru).mp listed⟩
    · rintro ⟨member, released⟩
      exact (inv.mem_cells member .lru).mpr (by simp [released])
  unique := by
    intro index key left leftMember right rightMember leftKey rightKey
    exact (refines index).2.unique leftMember rightMember leftKey rightKey
  admitted := by
    intro positive index key value charge deleter
    exact (refines index).2.mem_insert positive key value charge deleter
  fits := by
    intro index key value charge deleter
    exact LruShard.shrink_fits rfl
  confined := by
    intro op key returned after onKey stepped index elsewhere
    exact step_confined onKey stepped elsewhere

/-- A new cache. -/
theorem new_refines (capacity : BitVec 64) :
    ∃ cache : ShardedLRUCache Value Deleter, ShardedLRUCache.new capacity = some cache ∧
      CacheRefines (ShardedLRUCache.perShard capacity).toNat cache LruSpec.empty := by
  obtain ⟨lru, made, same, inv⟩ := @new_inv Value Deleter (ShardedLRUCache.perShard capacity)
  refine ⟨⟨fun _ => lru⟩, ?_, fun index =>
    ⟨congrArg BitVec.toNat same, ⟨⟨_, inv, rfl⟩, ?_, Nat.two_pow_pos 64, ?_⟩⟩⟩
  · rw [ShardedLRUCache.new, made]
    rfl
  · exact fresh_eq inv fun id => ⟨fun _ => Nat.zero_le _, fun _ => rfl⟩
  · intro id entry known
    cases known

/-- The run of the cache is the run of the least recently used cache, with the capacity
divided among the shards and rounded up. -/
def RunsAsLru (capacity : BitVec 64) (ops : List (ShardedOp Value Deleter)) : Prop :=
  let perShard := (capacity.toNat + 15) / 16
  let spec := LruSpec.empty.run perShard ops
  ∃ cache final, ShardedLRUCache.new capacity = some cache ∧
    cache.run ops = some (spec.1, final) ∧ ActsAsLru perShard final spec.2

theorem perShard_eq {capacity : BitVec 64} (small : capacity.toNat + 15 < 2 ^ 64) :
    (ShardedLRUCache.perShard capacity).toNat = (capacity.toNat + 15) / 16 := by
  have sum : (capacity + 15#64).toNat = capacity.toNat + 15 := by
    rw [BitVec.toNat_add]
    exact Nat.mod_eq_of_lt small
  show ((capacity + 15#64) / 16#64).toNat = _
  rw [BitVec.toNat_udiv, sum]
  rfl

/-- Close to the end of `size_t` the rounding overflows, and nothing is cached. -/
theorem perShard_overflow {capacity : BitVec 64} (large : ¬ capacity.toNat + 15 < 2 ^ 64) :
    (ShardedLRUCache.perShard capacity).toNat = 0 := by
  have bound := capacity.isLt
  simp [ShardedLRUCache.perShard, kNumShards, kNumShardBits, BitVec.toNat_udiv, BitVec.toNat_add]
  omega

theorem runsAsLru {capacity : BitVec 64} (small : capacity.toNat + 15 < 2 ^ 64)
    {ops : List (ShardedOp Value Deleter)}
    (disciplined : LruSpec.Disciplined ((capacity.toNat + 15) / 16) ops LruSpec.empty)
    (fits : LruSpec.AllFit ((capacity.toNat + 15) / 16) ops LruSpec.empty) :
    RunsAsLru capacity ops := by
  obtain ⟨cache, made, refines⟩ := @new_refines Value Deleter capacity
  rw [perShard_eq small] at refines
  obtain ⟨final, ran, result, charged⟩ := refines.run disciplined fits
  exact ⟨cache, final, made, ran, result.actsAsLru charged⟩

/-- Insert an entry, and look it up. -/
def insertThenLookup (value : Value) (deleter : Deleter) : List (ShardedOp Value Deleter) :=
  [.insert [] value 0 deleter, .lookup []]

theorem insertThenLookup_hit (value : Value) (deleter : Deleter) (positive : 0 < capacity) :
    (LruSpec.empty.run capacity (insertThenLookup value deleter)).1 =
      [some ⟨LruSpec.home [], 0⟩, some ⟨LruSpec.home [], 0⟩] := by
  simp [insertThenLookup, LruSpec.run, LruSpec.step, LruSpec.setShard, LruSpec.empty,
    LruShard.empty, LruShard.insert, LruShard.takeIn, LruShard.erase, LruShard.find,
    LruShard.shrink,
    LruShard.lookup, LruShard.keyOf, CacheClient.after, positive]

theorem insertThenLookup_miss (value : Value) (deleter : Deleter) :
    (LruSpec.empty.run 0 (insertThenLookup value deleter)).1 =
      [some ⟨LruSpec.home [], 0⟩, none] := by
  simp [insertThenLookup, LruSpec.run, LruSpec.step, LruSpec.setShard, LruSpec.empty,
    LruShard.empty, LruShard.insert, LruShard.takeIn, LruShard.find, LruShard.shrink,
    LruShard.lookup]

/-- Without a charge and with two handles there is nothing to overflow. -/
theorem insertThenLookup_fits (capacity : Nat) (value : Value) (deleter : Deleter) :
    LruSpec.AllFit capacity (insertThenLookup value deleter) LruSpec.empty := by
  refine ⟨fun _ => ⟨fun _ => Nat.two_pow_pos 31, Nat.two_pow_pos 64⟩, ?_, ?_⟩
  · intro id _
    have one : (((LruSpec.empty.step capacity (.insert [] value 0 deleter)).2.shard
        (LruSpec.home [])).client.held id) ≤ 1 := by
      simp only [LruSpec.step, LruSpec.shard_setShard, LruShard.insert,
        LruShard.shrink_client, LruShard.takeIn, CacheClient.after, Function.update_apply]
      split
      · exact Nat.le_refl 1
      · exact Nat.zero_le 1
    omega
  · have free : ∀ index, ((LruSpec.empty.run capacity (insertThenLookup value deleter)).2.shard
        index).usage = 0 := by
      intro index
      by_cases home : index = LruSpec.home []
      · subst home
        by_cases positive : 0 < capacity <;>
        simp [insertThenLookup, LruSpec.run, LruSpec.step, LruSpec.setShard, LruSpec.empty,
          LruShard.empty, LruShard.insert, LruShard.takeIn, LruShard.erase, LruShard.find,
          LruShard.shrink, LruShard.lookup, LruShard.keyOf, LruShard.usage, CacheClient.chargeOf,
          CacheClient.after, positive]
      · simp [insertThenLookup, LruSpec.run, LruSpec.step, LruSpec.setShard, LruSpec.empty,
          LruShard.empty, LruShard.usage, home]
    have total : (LruSpec.empty.run capacity (insertThenLookup value deleter)).2.totalCharge = 0 :=
      List.sum_eq_zero fun usage member => by
        obtain ⟨index, -, rfl⟩ := List.mem_map.mp member
        exact free index
    exact Nat.lt_of_le_of_lt (Nat.le_of_eq total) (Nat.two_pow_pos 64)

/-- When the rounding overflows, an entry is not found right after it was inserted. -/
theorem not_runsAsLru {capacity : BitVec 64} (large : ¬ capacity.toNat + 15 < 2 ^ 64)
    (value : Value) (deleter : Deleter) :
    ¬ RunsAsLru capacity (insertThenLookup value deleter) := by
  rintro ⟨cache, final, made, ran, -⟩
  obtain ⟨same, again, refines⟩ := @new_refines Value Deleter capacity
  rw [made, Option.some.injEq] at again
  subst again
  rw [perShard_overflow large] at refines
  obtain ⟨other, otherRan, -⟩ := refines.run
    (show LruSpec.Disciplined 0 (insertThenLookup value deleter) _ from ⟨trivial, trivial, trivial⟩)
    (insertThenLookup_fits 0 value deleter)
  rw [ran, insertThenLookup_miss, insertThenLookup_hit value deleter (by omega)] at otherRan
  cases otherRan

/-- The sharded cache runs as a least recently used cache, for every sequence of
operations in which no count and no charge overflows, exactly if the capacity can be rounded
up. -/
theorem runsAsLru_iff (value : Value) (deleter : Deleter) (capacity : BitVec 64) :
    (∀ ops : List (ShardedOp Value Deleter),
      LruSpec.Disciplined ((capacity.toNat + 15) / 16) ops LruSpec.empty →
      LruSpec.AllFit ((capacity.toNat + 15) / 16) ops LruSpec.empty →
      RunsAsLru capacity ops) ↔ capacity.toNat + 15 < 2 ^ 64 := by
  constructor
  · intro always
    by_contra large
    exact not_runsAsLru large value deleter
      (always (insertThenLookup value deleter) ⟨trivial, trivial, trivial⟩
        (insertThenLookup_fits _ value deleter))
  · intro small ops disciplined fits
    exact runsAsLru small disciplined fits

theorem runsAsLru_fails_at_size_max :
    LruSpec.Disciplined ((2 ^ 64 - 1 + 15) / 16) (insertThenLookup (1 : Nat) (0 : Nat))
        LruSpec.empty ∧
      LruSpec.AllFit ((2 ^ 64 - 1 + 15) / 16) (insertThenLookup (1 : Nat) (0 : Nat))
        LruSpec.empty ∧
      ¬ RunsAsLru (BitVec.ofNat 64 (2 ^ 64 - 1)) (insertThenLookup (1 : Nat) (0 : Nat)) :=
  ⟨⟨trivial, trivial, trivial⟩, insertThenLookup_fits _ 1 0, not_runsAsLru (by decide) 1 0⟩

end Sharded

end MiniLevelDb
