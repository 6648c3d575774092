import MiniLevelDb.Util.CacheRuns

/-!
# Capacity of an idle cache

Entries are dropped by `Insert` only, and only entries that no handle is out for. An
entry that is inserted while the handles that are out leave no room for it stays, and it
still stays when the handles are released. So the usage is within the capacity as long
as every insertion finds room beside the entries in use, and no longer.
-/

namespace MiniLevelDb

open Foundation HandleTable Heap

namespace LRUCache

variable {Value Deleter : Type} {capacity : BitVec 64} {cache after : LRUCache Value Deleter}
  {cells cells' : CacheList → List HandleId} {ids ids' : List HandleId}
  {client client' : CacheClient Value Deleter} {key : Slice} {hash : BitVec 32} {id : HandleId}

/-- The handle is of an entry in use that an insertion under the key does not replace. -/
def pins (cache : LRUCache Value Deleter) (key : Slice) (hash : BitVec 32) (id : HandleId) :
    Bool :=
  (cache.heap.handles id).any fun handle =>
    handle.inCache && handle.refs ≠ 1 && !(handle.key = key && handle.hash = hash)

/-- The entries in use, without the one under the key. -/
def pinned (cache : LRUCache Value Deleter) (key : Slice) (hash : BitVec 32) : List HandleId :=
  (List.range cache.heap.fresh).filter (cache.pins key hash)

/-- What they are charged. -/
def pinnedCharge (cache : LRUCache Value Deleter) (key : Slice) (hash : BitVec 32) : Nat :=
  ((cache.pinned key hash).map fun id =>
    (cache.heap.handles id).elim 0 fun handle => handle.charge.toNat).sum

/-- There is room beside the entries in use, or nothing is cached. -/
def HasRoom (cache : LRUCache Value Deleter) (key : Slice) (hash : BitVec 32)
    (charge : BitVec 64) : Prop :=
  cache.capacity = 0 ∨ cache.pinnedCharge key hash + charge.toNat ≤ cache.capacity.toNat

instance (cache : LRUCache Value Deleter) (key : Slice) (hash : BitVec 32) (charge : BitVec 64) :
    Decidable (cache.HasRoom key hash charge) :=
  inferInstanceAs (Decidable (_ ∨ _))

/-- The operation inserts nothing that the entries in use leave no room for, and nothing
overflows. -/
def Fits (cache : LRUCache Value Deleter) (op : CacheOp Value Deleter) : Prop :=
  cache.NoOverflow op ∧
    ∀ key hash value charge deleter, op = .insert key hash value charge deleter →
      cache.HasRoom key hash charge

theorem Reached.noOverflow (reached : Reached Fits capacity cache client) :
    Reached NoOverflow capacity cache client :=
  reached.mono fun _ _ fits => fits.1

section Sums

theorem sum_le_of_subset {left right : List HandleId} (nodup : left.Nodup) (within : left ⊆ right)
    (charge : HandleId → Nat) : (left.map charge).sum ≤ (right.map charge).sum := by
  obtain ⟨middle, perm, sublist⟩ := nodup.subperm within
  rw [← (perm.map charge).sum_nat]
  exact (sublist.map charge).sum_le_sum fun _ _ => Nat.zero_le _

theorem victims_subset (more : BitVec 64 → Bool) (charge : HandleId → Nat) (usage : Nat)
    (idle : List HandleId) : victims more charge usage idle ⊆ idle := by
  induction idle generalizing usage with
  | nil => exact List.Subset.refl _
  | cons oldest rest ih =>
      rw [victims]
      split
      · exact List.cons_subset_cons oldest (ih _)
      · exact List.nil_subset _

end Sums

/-- The loops that shrink a cache end when it need not shrink or nothing is idle. -/
theorem dropLoop_ends {shrink : LRUCache Value Deleter → Bool} {rounds : Nat}
    (ran : dropLoop shrink rounds cache = some after) :
    shrink after = false ∨ after.heap.readNext (.head .lru) = some (some (.head .lru)) := by
  induction rounds generalizing cache with
  | zero => cases ran
  | succ rounds ih =>
      simp only [dropLoop, Option.bind_eq_bind, Option.bind_eq_some_iff] at ran
      obtain ⟨oldest, reading, ran⟩ := ran
      split at ran
      · obtain ⟨between, -, ran⟩ := Option.bind_eq_some_iff.mp ran
        exact ih ran
      · rename_i stops
        cases ran
        by_cases goesOn : shrink after = true
        · refine .inr (reading.trans (congrArg some ?_))
          by_contra apart
          exact stops ⟨goesOn, apart⟩
        · exact .inl (Bool.eq_false_iff.mpr goesOn)

theorem insert_ends {value : Value} {charge : BitVec 64} {deleter : Deleter}
    (ran : cache.insert key hash value charge deleter = some (id, after)) :
    after.usage ≤ after.capacity ∨
      after.heap.readNext (.head .lru) = some (some (.head .lru)) := by
  simp only [insert, Option.bind_eq_bind, Option.bind_eq_some_iff] at ran
  obtain ⟨between, -, final, evicting, same⟩ := ran
  cases same
  rcases dropLoop_ends evicting with stops | empty
  · exact .inl (by simpa using stops)
  · exact .inr empty

namespace Inv

/-- What is cached is charged less when nothing new is cached. -/
theorem sum_fewer (inv' : Inv after cells' ids' none client') (fewer : ids' ⊆ ids)
    (same : ∀ id ∈ ids', client'.chargeOf id = client.chargeOf id) :
    (ids'.map client'.chargeOf).sum ≤ (ids.map client.chargeOf).sum := by
  rw [List.map_congr_left same]
  exact sum_le_of_subset inv'.tabled.nodup fewer client.chargeOf

theorem chargeOf (inv : Inv cache cells ids none client) (member : id ∈ ids) :
    ((cache.heap.handles id).elim 0 fun handle => handle.charge.toNat) = client.chargeOf id := by
  obtain ⟨handle, stored⟩ := inv.stored_of_cached (.inl member)
  rw [CacheClient.chargeOf, inv.inserted stored, stored]
  rfl

/-- The lists after their first list was found empty. -/
theorem held_of_empty (inv : Inv cache cells ids none client)
    (empty : cache.heap.readNext (.head .lru) = some (some (.head .lru))) (member : id ∈ ids) :
    0 < client.held id := by
  have first := inv.rings.readNext_head .lru
  rw [empty] at first
  have nothing : cells .lru = [] := by
    cases idle : cells .lru with
    | nil => rfl
    | cons oldest rest =>
        rw [idle] at first
        cases first
  refine Nat.pos_of_ne_zero fun idle => ?_
  have listed := (inv.mem_cells member .lru).mpr (by simp [idle])
  rw [nothing] at listed
  cases listed

theorem pins_iff (inv : Inv cache cells ids none client) :
    cache.pins key hash id = true ↔ id ∈ ids ∧ 0 < client.held id ∧
      ¬ Matches cache.heap key hash id := by
  unfold pins
  cases stored : cache.heap.handles id with
  | none =>
      have held := (inv.dead stored).held
      simp [held]
  | some handle =>
      have entry := inv.live stored
      have cached := entry.cached.trans cached_none
      have refs := entry.refs
      have hits : Matches cache.heap key hash id ↔ handle.key = key ∧ handle.hash = hash := by
        simp [Matches, stored]
      rw [hits, ← cached]
      cases inCache : handle.inCache with
      | false => simp [inCache]
      | true =>
          rw [inCache, if_pos rfl] at refs
          have counted : handle.refs ≠ 1 ↔ 0 < client.held id := by
            rw [ne_eq, refs_eq_one]
            omega
          simp only [Option.any_some, inCache, Bool.true_and, Bool.and_eq_true,
            Bool.not_eq_true', decide_eq_true_eq, true_and]
          refine and_congr counted ?_
          rw [← Bool.not_eq_true, Bool.and_eq_true, decide_eq_true_eq, decide_eq_true_eq]

/-- What an insertion under the key replaces. -/
theorem matches_iff (inv : Inv cache cells ids none client) {old : Option HandleId}
    (answers : Answers client ids key hash old) (member : id ∈ ids) :
    Matches cache.heap key hash id ↔ old = some id := by
  constructor
  · intro hits
    have ⟨handle, stored, keys, hashes⟩ := hits
    cases old with
    | none => exact absurd ⟨keys, hashes⟩ (answers id member handle.inserted (inv.inserted stored))
    | some other =>
        obtain ⟨otherMember, entry, known, otherKey, otherHash⟩ := answers
        obtain ⟨again, now⟩ := inv.stored_of_cached (.inl otherMember)
        rw [inv.inserted now, Option.some.injEq] at known
        subst known
        rw [inv.tabled.unique other otherMember id member key hash
          ⟨again, now, otherKey, otherHash⟩ hits]
  · rintro rfl
    obtain ⟨-, entry, known, keys, hashes⟩ := answers
    obtain ⟨handle, stored⟩ := inv.stored_of_cached (.inl member)
    rw [inv.inserted stored, Option.some.injEq] at known
    subst known
    exact ⟨handle, stored, keys, hashes⟩

/-- What is cached after an insertion: the new entry and the others, without the one under
the key and without some that were idle. -/
theorem insert_dropped (inv : Inv cache cells ids none client) (positive : 0 < cache.capacity)
    {value : Value} {charge : BitVec 64} {deleter : Deleter}
    (fits : cache.CountsFit (.insert key hash value charge deleter))
    (ran : cache.insert key hash value charge deleter = some (id, after)) :
    id = cache.heap.fresh ∧ after.capacity = cache.capacity ∧
      ∃ old dropped cells', Answers client ids key hash old ∧ dropped ⊆ cells .lru ∧
        Inv after cells' ((cache.heap.fresh :: without ids old).diff dropped) none
          (client.after (.insert key hash value charge deleter) (some cache.heap.fresh)) := by
  obtain ⟨old, result, again, continues, answers, finished⟩ := insert_inv_spec inv fits
  rw [ran] at again
  cases again
  have inv' := finished _ _ _ rfl rfl rfl
  rw [← List.diff_eq_foldl, insertedIds, if_pos positive] at inv'
  refine ⟨rfl, continues.capacity, old, _, _, answers, ?_, inv'⟩
  refine List.Subset.trans (victims_subset _ _ _ _) ?_
  rw [insertedCells, if_pos positive]
  cases old with
  | none => exact List.Subset.refl _
  | some replaced => exact List.erase_subset

theorem mem_pinned (inv : Inv cache cells ids none client) {old : Option HandleId}
    (answers : Answers client ids key hash old) :
    id ∈ cache.pinned key hash ↔ id ∈ ids ∧ 0 < client.held id ∧ old ≠ some id := by
  rw [pinned, List.mem_filter, inv.pins_iff, List.mem_range]
  constructor
  · rintro ⟨-, member, held, differs⟩
    exact ⟨member, held, fun same => differs ((inv.matches_iff answers member).mpr same)⟩
  · rintro ⟨member, held, differs⟩
    obtain ⟨handle, stored⟩ := inv.stored_of_cached (.inl member)
    exact ⟨inv.lt_fresh stored, member, held, fun hits =>
      differs ((inv.matches_iff answers member).mp hits)⟩

/-- The new entry and the entries in use, by the account after the insertion. -/
theorem pinned_sum (inv : Inv cache cells ids none client) (value : Value) (charge : BitVec 64)
    (deleter : Deleter) :
    ((cache.heap.fresh :: cache.pinned key hash).map (client.after
      (.insert key hash value charge deleter) (some cache.heap.fresh)).chargeOf).sum =
      cache.pinnedCharge key hash + charge.toNat := by
  rw [List.map_cons, List.sum_cons, Nat.add_comm, pinnedCharge]
  congr 1
  · refine congrArg List.sum (List.map_congr_left fun other member => ?_)
    have cached := (inv.pins_iff.mp (List.mem_filter.mp member).2).1
    have apart : other ≠ cache.heap.fresh := fun same => inv.fresh_unlisted.1 (same ▸ cached)
    rw [inv.chargeOf cached]
    simp only [CacheClient.chargeOf, CacheClient.after, Function.update_of_ne apart]
  · simp only [CacheClient.chargeOf, CacheClient.after, Function.update_self]
    rfl

/-- After an insertion the entries in use are still cached, and beside them and the new one
there are others only if they fit. -/
theorem insert_usage (inv : Inv cache cells ids none client) (positive : 0 < cache.capacity)
    (small : (ids.map client.chargeOf).sum < 2 ^ 64)
    {value : Value} {charge : BitVec 64} {deleter : Deleter}
    (fits : cache.NoOverflow (.insert key hash value charge deleter))
    (ran : cache.insert key hash value charge deleter = some (id, after)) :
    cache.pinnedCharge key hash + charge.toNat ≤ after.usage.toNat ∧
      (after.usage ≤ cache.capacity ∨
        after.usage.toNat ≤ cache.pinnedCharge key hash + charge.toNat) := by
  obtain ⟨rfl, capacity, old, dropped, cells', answers, idle, inv'⟩ :=
    inv.insert_dropped positive fits.1 ran
  have fresh := inv.fresh_unlisted.1
  have added := @sum_inserted _ _ _ _ _ _ inv key hash value charge deleter old
  have charged := fits.2
  rw [insertedIds, if_pos positive] at added
  rw [ChargeFits, inv.usage_toNat small] at charged
  have usage := inv'.usage_toNat (Nat.lt_of_le_of_lt
    (Nat.le_trans (sum_sublist (List.diff_sublist _ _) _) added) charged)
  rw [usage, ← inv.pinned_sum value charge deleter]
  constructor
  · refine sum_le_of_subset ?_ (List.cons_subset.mpr ⟨?_, fun other member => ?_⟩) _
    · refine List.nodup_cons.mpr ⟨fun member => ?_, List.nodup_range.filter _⟩
      exact fresh ((inv.mem_pinned answers).mp member).1
    · exact List.mem_diff_of_mem List.mem_cons_self fun member =>
        fresh (inv.mem_ids (idle member))
    · obtain ⟨cached, held, differs⟩ := (inv.mem_pinned answers).mp member
      have listed := (mem_without inv.tabled.nodup).mpr ⟨cached, differs⟩
      refine List.mem_diff_of_mem (List.mem_cons_of_mem _ listed) fun unused => ?_
      have unheld : client.held other = 0 := by
        simpa using (inv.mem_cells cached .lru).mp (idle unused)
      omega
  · rcases insert_ends ran with fits | empty
    · exact .inl (capacity ▸ fits)
    · refine .inr (sum_le_of_subset inv'.tabled.nodup (fun other member => ?_) _)
      have held := inv'.held_of_empty empty member
      rcases List.mem_cons.mp (List.diff_subset _ _ member) with rfl | listed
      · exact List.mem_cons_self
      · obtain ⟨cached, differs⟩ := (mem_without inv.tabled.nodup).mp listed
        have apart : other ≠ cache.heap.fresh := fun same => fresh (same ▸ cached)
        simp only [CacheClient.after, Function.update_of_ne apart] at held
        exact List.mem_cons_of_mem _ ((inv.mem_pinned answers).mpr ⟨cached, held, differs⟩)

/-- Without a capacity an insertion adds nothing to the usage. -/
theorem insert_usage_off (inv : Inv cache cells ids none client) (off : cache.capacity = 0)
    (small : (ids.map client.chargeOf).sum < 2 ^ 64)
    {value : Value} {charge : BitVec 64} {deleter : Deleter}
    (fits : cache.CountsFit (.insert key hash value charge deleter))
    (ran : cache.insert key hash value charge deleter = some (id, after)) :
    after.usage.toNat ≤ cache.usage.toNat := by
  obtain ⟨old, again, rerun, -, -, finished⟩ := insert_inv_spec inv fits
  rw [ran] at rerun
  cases rerun
  have inv' := finished _ _ _ rfl rfl rfl
  rw [← List.diff_eq_foldl, insertedIds, if_neg (by rw [off]; decide)] at inv'
  have fewer := @sum_fewer _ _ _ _ ids _ client _ inv' (List.diff_subset _ _) fun other member => by
    have apart : other ≠ cache.heap.fresh := fun same =>
      inv.fresh_unlisted.1 (same ▸ List.diff_subset _ _ member)
    simp only [CacheClient.chargeOf, CacheClient.after, Function.update_of_ne apart]
  rwa [inv.usage_toNat small, inv'.usage_toNat (Nat.lt_of_le_of_lt fewer small)]

/-- No operation but an insertion adds to the usage. -/
theorem step_usage (inv : Inv cache cells ids none client)
    (small : (ids.map client.chargeOf).sum < 2 ^ 64) {op : CacheOp Value Deleter}
    {returned : Option HandleId} (allowed : client.Allows op) (fits : cache.Fits op)
    (within : cache.usage ≤ cache.capacity) (stepped : cache.step op = some (returned, after)) :
    after.usage ≤ after.capacity := by
  obtain ⟨same, result, ran, continues, cells', ids', inv', added⟩ := step_inv inv allowed fits.1.1
  rw [stepped] at ran
  cases ran
  have before := inv.usage_toNat small
  have charged := fits.1.2
  rw [ChargeFits, before] at charged
  have later := inv'.usage_toNat (Nat.lt_of_le_of_lt added charged)
  have kept : op.charge = 0 → after.usage ≤ after.capacity := by
    intro free
    rw [continues.capacity, BitVec.le_def, later]
    rw [free, ← before] at added
    exact Nat.le_trans added within
  cases op with
  | insert key hash value charge deleter =>
      obtain ⟨⟨made, result⟩, ran, same⟩ := Option.map_eq_some_iff.mp stepped
      cases same
      by_cases off : cache.capacity = 0
      · rw [continues.capacity]
        exact Nat.le_trans (inv.insert_usage_off off small fits.1.1 ran) within
      · have room := (fits.2 _ _ _ _ _ rfl).resolve_left off
        rw [continues.capacity]
        rcases (inv.insert_usage ((BitVec.pos_iff_ne_zero _).mpr off) small fits.1 ran).2 with
          fit | full
        · exact fit
        · exact Nat.le_trans full room
  | lookup key hash => exact kept rfl
  | release id => exact kept rfl
  | erase key hash => exact kept rfl
  | prune => exact kept rfl

end Inv

/-- While every insertion finds room, the usage stays within the capacity. -/
theorem Reached.usage_le (reached : Reached Fits capacity cache client) :
    cache.usage ≤ cache.capacity := by
  induction reached with
  | new made =>
      obtain ⟨fresh, again, -, inv⟩ := @new_inv Value Deleter capacity
      rw [made] at again
      cases again
      rw [inv.usage]
      exact Nat.zero_le _
  | step reached allowed fits stepped ih =>
      obtain ⟨cells, ids, inv, small⟩ := reached.noOverflow.charged
      exact inv.step_usage small allowed fits ih stepped

section Release

/-- The client releases handles and does nothing else. -/
inductive Releases : LRUCache Value Deleter → CacheClient Value Deleter →
    LRUCache Value Deleter → CacheClient Value Deleter → Prop where
  | done (cache : LRUCache Value Deleter) (client : CacheClient Value Deleter) :
      Releases cache client cache client
  | next {cache between after : LRUCache Value Deleter} {client client' : CacheClient Value Deleter}
      {id : HandleId} (allowed : client.Allows (.release id))
      (stepped : cache.step (.release id) = some (none, between))
      (rest : Releases between (client.after (.release id) none) after client') :
      Releases cache client after client'

theorem Releases.trans {between : LRUCache Value Deleter} {during : CacheClient Value Deleter}
    (first : Releases cache client between during)
    (second : Releases between during after client') :
    Releases cache client after client' := by
  induction first with
  | done => exact second
  | next allowed stepped _ ih => exact .next allowed stepped (ih second)

namespace Inv

/-- The client gives back every handle it has to one entry. -/
theorem release_entry {held : Nat} (inv : Inv cache cells ids none client)
    (count : client.held id = held) :
    ∃ after cells', Releases cache client after
        { client with held := Function.update client.held id 0 } ∧
      after.capacity = cache.capacity ∧
      Inv after cells' ids none { client with held := Function.update client.held id 0 } := by
  induction held generalizing cache cells client with
  | zero =>
      rw [← count, Function.update_eq_self]
      exact ⟨cache, cells, .done cache client, rfl, inv⟩
  | succ held ih =>
      have allowed : client.Allows (.release id) := by
        show 0 < client.held id
        omega
      obtain ⟨between, ran, continues, inv'⟩ := unref_spec inv allowed
      obtain ⟨after, cells', releases, capacity, done⟩ := ih inv' (by simp [count])
      simp only [Function.update_idem] at releases done
      refine ⟨after, cells', .next allowed ?_ releases, capacity.trans continues.capacity, done⟩
      rw [LRUCache.step, release, ran, Option.map_some]

/-- The client gives back all its handles, and the same entries stay cached. -/
theorem release_all {bound : Nat} (inv : Inv cache cells ids none client)
    (unheld : ∀ id, bound ≤ id → client.held id = 0) :
    ∃ after client', Releases cache client after client' ∧ (∀ id, client'.held id = 0) ∧
      after.capacity = cache.capacity ∧ after.usage = cache.usage := by
  induction bound generalizing cache cells client with
  | zero =>
      exact ⟨cache, client, .done cache client, fun id => unheld id (Nat.zero_le id), rfl, rfl⟩
  | succ bound ih =>
      obtain ⟨between, cells', first, capacity, inv'⟩ := @release_entry _ _ _ _ _ _ bound _ inv rfl
      obtain ⟨after, client', rest, idle, sameCapacity, usage⟩ := ih inv' (by
        intro id above
        by_cases same : id = bound
        · simp [same]
        · simp only [Function.update_of_ne same]
          exact unheld id (by omega))
      refine ⟨after, client', first.trans rest, idle, sameCapacity.trans capacity, ?_⟩
      rw [usage, inv'.usage, inv.usage]
      rfl

end Inv

/-- When the client has no handle left, the cache is within its capacity, if every insertion
found room and nothing overflowed. After the first insertion that finds no room, the client
can release all its handles and the cache is beyond its capacity. -/
theorem idle_usage_le (capacity : BitVec 64) :
    (∀ (cache : LRUCache Value Deleter) client, Reached Fits capacity cache client →
      (∀ id, client.held id = 0) → cache.usage ≤ cache.capacity) ∧
    ∀ (cache : LRUCache Value Deleter) client, Reached Fits capacity cache client →
      ∀ key hash value charge deleter,
        cache.NoOverflow (.insert key hash value charge deleter) →
        ¬ cache.HasRoom key hash charge →
        ∃ id between after client',
          cache.step (.insert key hash value charge deleter) = some (some id, between) ∧
          Releases between (client.after (.insert key hash value charge deleter) (some id))
            after client' ∧
          (∀ id, client'.held id = 0) ∧ after.capacity < after.usage := by
  refine ⟨fun cache client reached _ => reached.usage_le, ?_⟩
  intro cache client reached key hash value charge deleter fits full
  obtain ⟨positive, exceeds⟩ : cache.capacity ≠ 0 ∧
      ¬ cache.pinnedCharge key hash + charge.toNat ≤ cache.capacity.toNat := not_or.mp full
  obtain ⟨cells, ids, inv, small⟩ := reached.noOverflow.charged
  obtain ⟨old, between, ran, continues, -, finished⟩ := insert_inv_spec inv fits.1
  have inv' := finished _ _ _ rfl rfl rfl
  obtain ⟨after, client', releases, idle, same, usage⟩ :=
    @Inv.release_all _ _ _ _ _ _ between.heap.fresh inv' fun id beyond => by
      have missing := (inv'.dead (inv'.bounded id beyond)).held
      exact missing
  refine ⟨cache.heap.fresh, between, after, client', ?_, releases, idle, ?_⟩
  · rw [LRUCache.step, ran, Option.map_some]
  · have least := (inv.insert_usage ((BitVec.pos_iff_ne_zero _).mpr positive) small fits ran).1
    rw [same, usage, continues.capacity, BitVec.lt_def]
    omega

theorem idle_usage_le_one : ∃ (cache : LRUCache Nat Nat) (client : CacheClient Nat Nat),
    Reached Fits 1 cache client ∧ cache.usage = 1 ∧ cache.usage ≤ cache.capacity := by
  obtain ⟨cache, client, reached, usage, idle⟩ : ∃ (cache : LRUCache Nat Nat)
      (client : CacheClient Nat Nat), Reached Fits 1 cache client ∧ cache.usage = 1 ∧
        ∀ id, client.held id = 0 := by
    have started := @Reached.new Nat Nat Fits 1 _ rfl
    have inserted := @Reached.step _ _ _ _ _ _ _ (.insert [107] 7 6 1 0) _ started trivial
      ⟨⟨fun _ _ => Nat.two_pow_pos 31, by decide⟩, fun _ _ _ _ _ same => by
        cases same
        exact .inr (by decide)⟩ rfl
    have released := @Reached.step _ _ _ _ _ _ _ (.release 0) _ inserted Nat.zero_lt_one
      ⟨⟨trivial, by decide⟩, nofun⟩ rfl
    refine ⟨_, _, released, rfl, fun id => ?_⟩
    simp [CacheClient.after, CacheClient.start]
  exact ⟨cache, client, reached, usage, (idle_usage_le 1).1 cache client reached idle⟩

/-- A cache of capacity one keeps an entry charged five after its handle is released. -/
theorem idle_usage_gt : ∃ (cache : LRUCache Nat Nat) (client : CacheClient Nat Nat),
    Reached Always 1 cache client ∧ (∀ id, client.held id = 0) ∧ cache.capacity < cache.usage := by
  have inserted := @Reached.step _ _ _ _ _ _ _ (.insert [107] 7 6 5 0) _
    (@Reached.new Nat Nat Always 1 _ rfl) trivial trivial rfl
  have released := @Reached.step _ _ _ _ _ _ _ (.release 0) _ inserted Nat.zero_lt_one trivial rfl
  refine ⟨_, _, released, fun id => ?_, by decide⟩
  simp [CacheClient.after, CacheClient.start]

end Release

end LRUCache

end MiniLevelDb
