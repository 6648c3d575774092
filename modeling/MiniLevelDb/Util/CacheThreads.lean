import MiniLevelDb.Foundation.Monitor
import MiniLevelDb.Util.CacheRuns
import MiniLevelDb.Util.ShardedRefines
import Mathlib.Algebra.BigOperators.Group.Finset.Piecewise
import Mathlib.Algebra.Order.BigOperators.Group.Finset

/-!
# The sharded cache under threads

`ShardedLRUCache` called by any number of threads. Each shard has a mutex, which its
methods hold throughout; `Prune` and `TotalCharge` go from shard to shard and hold one
mutex at a time. What a method does while it holds the mutex is divided into any steps
that together are the method, and the other threads run in between. `Release` finds the
shard from the hash in the handle, and `Value` reads the handle, without the mutex.
-/

namespace MiniLevelDb

open Foundation HandleTable Heap LRUCache

variable {Thread Value Deleter Local : Type}

/-- A method of `LRUCache`, the hash of a key apart. -/
inductive ShardCall (Value Deleter : Type) where
  | insert (key : Slice) (value : Value) (charge : BitVec 64) (deleter : Deleter)
  | lookup (key : Slice)
  | release (id : HandleId)
  | erase (key : Slice)
  | prune
  | totalCharge

/-- A call of a method of a shard. -/
structure ShardVisit (Value Deleter : Type) where
  shard : ShardIndex
  call : ShardCall Value Deleter

/-- The handle or null that a method returns, and the charge that `TotalCharge` returns. -/
abbrev ShardAnswer := Option HandleId × Nat

/-- The method. -/
def LRUCache.perform (cache : LRUCache Value Deleter) :
    ShardCall Value Deleter → Option (ShardAnswer × LRUCache Value Deleter)
  | .insert key value charge deleter =>
      (cache.insert key (hashSlice key) value charge deleter).map fun result =>
        ((some result.1, 0), result.2)
  | .lookup key =>
      (cache.lookup key (hashSlice key)).map fun result => ((result.1, 0), result.2)
  | .release id => (cache.release id).map fun after => ((none, 0), after)
  | .erase key => (cache.erase key (hashSlice key)).map fun after => ((none, 0), after)
  | .prune => cache.prune.map fun after => ((none, 0), after)
  | .totalCharge => some ((none, cache.usage.toNat), cache)

/-- What the method is for. -/
def LruShard.perform (capacity : Nat) (shard : LruShard Value Deleter) :
    ShardCall Value Deleter → ShardAnswer × LruShard Value Deleter
  | .insert key value charge deleter =>
      ((some shard.fresh, 0), shard.insert capacity key value charge deleter)
  | .lookup key => (((shard.lookup key).1, 0), (shard.lookup key).2)
  | .release id => ((none, 0), shard.release id)
  | .erase key => ((none, 0), shard.erase key)
  | .prune => ((none, 0), shard.prune)
  | .totalCharge => ((none, shard.usage), shard)

/-- An entry goes to the shard of its key, and a handle is given back by one who has it. -/
def ShardVisit.Allowed (visit : ShardVisit Value Deleter) (shard : LruShard Value Deleter) : Prop :=
  match visit.call with
  | .insert key _ _ _ => visit.shard = LruSpec.home key
  | .release id => 0 < shard.client.held id
  | _ => True

/-- The method makes no count and no charge of the shard overflow. -/
def ShardVisit.Fits (capacity : Nat) (visit : ShardVisit Value Deleter)
    (shard : LruShard Value Deleter) : Prop :=
  match visit.call with
  | .insert key _ charge _ => shard.RoomFor capacity key charge
  | .lookup key => shard.Countable key
  | _ => True

/-- What the shards are for. -/
def shardMeaning (Value Deleter : Type) (capacity : Nat) :
    Meaning ShardIndex (ShardVisit Value Deleter) ShardAnswer (LRUCache Value Deleter)
      (LruShard Value Deleter) where
  answer visit shard := (shard.perform capacity visit.call).1
  after visit shard := (shard.perform capacity visit.call).2
  Allows visit shard := visit.Allowed shard ∧ visit.Fits capacity shard
  Refines index shard cache := cache.capacity.toNat = capacity ∧ ShardRefines index cache shard

section Visits

variable {capacity : Nat} {visit : ShardVisit Value Deleter} {shard : LruShard Value Deleter}
  {cache : LRUCache Value Deleter}

/-- A method that runs alone. -/
theorem perform_refines
    (refines : (shardMeaning Value Deleter capacity).Refines visit.shard shard cache)
    (allowed : visit.Allowed shard) (fits : visit.Fits capacity shard) :
    ∃ after, cache.perform visit.call = some ((shard.perform capacity visit.call).1, after) ∧
      (shardMeaning Value Deleter capacity).Refines visit.shard
        (shard.perform capacity visit.call).2 after := by
  obtain ⟨same, shardRefines⟩ := refines
  obtain ⟨index, call⟩ := visit
  cases call with
  | insert key value charge deleter =>
      cases allowed
      obtain ⟨after, ran, kept, result⟩ := shardRefines.insert value deleter (same ▸ fits)
      rw [same] at result
      exact ⟨after, by rw [LRUCache.perform, ran]; rfl, (congrArg BitVec.toNat kept).trans same,
        result⟩
  | lookup key =>
      obtain ⟨after, ran, kept, result⟩ := shardRefines.lookup key fits
      exact ⟨after, by rw [LRUCache.perform, ran]; rfl, (congrArg BitVec.toNat kept).trans same,
        result⟩
  | release id =>
      obtain ⟨after, ran, kept, result⟩ := shardRefines.release allowed
      exact ⟨after, by rw [LRUCache.perform, ran]; rfl, (congrArg BitVec.toNat kept).trans same,
        result⟩
  | erase key =>
      obtain ⟨after, ran, kept, result⟩ := shardRefines.erase key
      exact ⟨after, by rw [LRUCache.perform, ran]; rfl, (congrArg BitVec.toNat kept).trans same,
        result⟩
  | prune =>
      obtain ⟨after, ran, kept, result⟩ := shardRefines.prune
      exact ⟨after, by rw [LRUCache.perform, ran]; rfl, (congrArg BitVec.toNat kept).trans same,
        result⟩
  | totalCharge =>
      obtain ⟨cells, inv, idle⟩ := shardRefines.inv
      refine ⟨cache, ?_, same, shardRefines⟩
      rw [LRUCache.perform, inv.usage_eq, BitVec.toNat_ofNat]
      simp only [LruShard.perform]
      rw [← Nat.mod_eq_of_lt shardRefines.counted]
      rfl

/-- The handles that a visit returned. -/
def ShardVisit.gives (handle : ShardedHandle) (entry : ShardVisit Value Deleter × ShardAnswer) :
    Nat :=
  if entry.1.shard = handle.shard ∧ entry.2.1 = some handle.id then 1 else 0

/-- The handles that a visit gives back. -/
def ShardVisit.takes (handle : ShardedHandle) (visit : ShardVisit Value Deleter) : Nat :=
  match visit.call with
  | .release id => if visit.shard = handle.shard ∧ id = handle.id then 1 else 0
  | _ => 0

theorem held_update {held : HandleId → Nat} {id other : HandleId} {count : Nat} :
    Function.update held id count other = if id = other then count else held other := by
  rw [Function.update_apply]
  simp only [eq_comm]

/-- The handles of the client, after a method: one more is out, or one less. -/
theorem held_perform (capacity : Nat) (allowed : visit.Allowed shard) {handle : ShardedHandle}
    (here : visit.shard = handle.shard) :
    (shard.perform capacity visit.call).2.client.held handle.id + visit.takes handle =
      shard.client.held handle.id +
        ShardVisit.gives handle (visit, (shard.perform capacity visit.call).1) := by
  obtain ⟨index, call⟩ := visit
  obtain rfl : index = handle.shard := here
  cases call with
  | insert key value charge deleter =>
      simp only [LruShard.perform, LruShard.insert, LruShard.shrink_client, LruShard.takeIn,
        CacheClient.after, held_update, ShardVisit.takes, ShardVisit.gives, true_and,
        Option.some.injEq]
      split
      · rename_i same
        rw [same]
      · rfl
  | lookup key =>
      simp only [LruShard.perform, LruShard.lookup, ShardVisit.takes, ShardVisit.gives, true_and]
      split
      · rfl
      · simp only [CacheClient.after, held_update, Option.some.injEq]
        split
        · rename_i same
          rw [same]
        · rfl
  | release id =>
      have held : 0 < shard.client.held id := allowed
      simp only [LruShard.perform, LruShard.release, CacheClient.after, held_update,
        ShardVisit.takes, ShardVisit.gives, true_and]
      split
      · rename_i same
        rw [← same]
        exact Nat.sub_add_cancel held
      · rfl
  | erase key =>
      simp [LruShard.perform, LruShard.erase_client, ShardVisit.takes, ShardVisit.gives]
  | prune => simp [LruShard.perform, LruShard.prune, ShardVisit.takes, ShardVisit.gives]
  | totalCharge => simp [LruShard.perform, ShardVisit.takes, ShardVisit.gives]

/-- An entry goes to the shard of its key. -/
def ShardVisit.Routed (visit : ShardVisit Value Deleter) : Prop :=
  ∀ key value charge deleter, visit.call = .insert key value charge deleter →
    visit.shard = LruSpec.home key

/-- What was inserted at an address stays on record. -/
theorem inserted_perform (capacity : Nat) (visit : ShardVisit Value Deleter) {id : HandleId}
    (old : id ≠ shard.fresh) :
    (shard.perform capacity visit.call).2.client.inserted id = shard.client.inserted id := by
  obtain ⟨index, call⟩ := visit
  cases call with
  | insert key value charge deleter =>
      simp only [LruShard.perform, LruShard.insert, LruShard.shrink_client, LruShard.takeIn,
        CacheClient.after]
      exact Function.update_of_ne old _ _
  | lookup key =>
      simp only [LruShard.perform, LruShard.lookup]
      split <;> rfl
  | release id => rfl
  | erase key => exact congrArg (fun client => client.inserted id) (LruShard.erase_client shard key)
  | prune => rfl
  | totalCharge => rfl

end Visits

/-- A division of the methods into steps: run alone, the steps do what the method does, and
neither change the hash or the value of an entry nor bring a freed one back. -/
structure Division (Value Deleter Local : Type) where
  visits : Visits ShardIndex (ShardVisit Value Deleter) ShardAnswer (LRUCache Value Deleter) Local
  lock : ∀ visit, visits.lock visit = visit.shard
  divides : ∀ visit cache answer after, cache.perform visit.call = some (answer, after) →
    visits.Finishes answer after (visits.start visit) cache
  steady : ∀ capacity visit shard cache now between answer after,
    (shardMeaning Value Deleter capacity).Refines (visits.lock visit) shard cache →
    visit.Allowed shard → visit.Fits capacity shard →
    visits.Reaches (visits.start visit) cache now between →
    visits.Finishes answer after now between →
    ∀ id stored, id < cache.heap.fresh → after.heap.handles id = some stored →
      ∃ current, between.heap.handles id = some current ∧ current.hash = stored.hash ∧
        current.value = stored.value

theorem Division.implements (division : Division Value Deleter Local) (capacity : Nat) :
    Implements division.visits (shardMeaning Value Deleter capacity) := by
  rintro visit shard cache refines ⟨allowed, fits⟩
  rw [division.lock] at refines ⊢
  obtain ⟨after, ran, result⟩ := perform_refines refines allowed fits
  exact ⟨after, division.divides visit cache _ after ran, result⟩

/-- A call of a client of the sharded cache. -/
inductive ShardedCall (Value Deleter : Type) where
  | insert (key : Slice) (value : Value) (charge : BitVec 64) (deleter : Deleter)
  | lookup (key : Slice)
  | release (handle : ShardedHandle)
  | erase (key : Slice)
  | prune
  | totalCharge

namespace ShardedCall

/-- The shards that a call visits. `Release` reads the hash in the handle; the shard that
the hash leads to can do nothing with a handle of another one. -/
def visits (shards : ShardIndex → LRUCache Value Deleter) :
    ShardedCall Value Deleter → Option (List (ShardVisit Value Deleter))
  | .insert key value charge deleter =>
      some [⟨shardOf (hashSlice key), .insert key value charge deleter⟩]
  | .lookup key => some [⟨shardOf (hashSlice key), .lookup key⟩]
  | .release handle => do
      let stored ← (shards handle.shard).heap.handles handle.id
      if shardOf stored.hash = handle.shard then
        some [⟨shardOf stored.hash, .release handle.id⟩]
      else none
  | .erase key => some [⟨shardOf (hashSlice key), .erase key⟩]
  | .prune => some ((List.finRange 16).map fun index => ⟨index, .prune⟩)
  | .totalCharge => some ((List.finRange 16).map fun index => ⟨index, .totalCharge⟩)

/-- The handles that a call gives back. -/
def takes (handle : ShardedHandle) : ShardedCall Value Deleter → Nat
  | .release other => if other = handle then 1 else 0
  | _ => 0

/-- Entries go to the shards of their keys, and a call gives back the handle it is given. -/
theorem visits_spec {shards : ShardIndex → LRUCache Value Deleter}
    {call : ShardedCall Value Deleter} {todo : List (ShardVisit Value Deleter)}
    (routed : call.visits shards = some todo) :
    (∀ visit ∈ todo, visit.Routed) ∧
      ∀ handle, (todo.map (ShardVisit.takes handle)).sum = call.takes handle := by
  have plain : ∀ action : ShardCall Value Deleter, (∀ key value charge deleter,
      action ≠ .insert key value charge deleter) → (∀ id, action ≠ .release id) →
      (∀ visit ∈ (List.finRange 16).map (fun index => ShardVisit.mk index action), visit.Routed) ∧
        ∀ handle, (((List.finRange 16).map fun index => ShardVisit.mk index action).map
          (ShardVisit.takes handle)).sum = 0 := by
    intro action notInsert notRelease
    constructor
    · intro visit member key value charge deleter same
      obtain ⟨index, _, rfl⟩ := List.mem_map.mp member
      exact absurd same (notInsert key value charge deleter)
    · intro handle
      apply List.sum_eq_zero
      intro count member
      rw [List.map_map] at member
      obtain ⟨index, _, rfl⟩ := List.mem_map.mp member
      cases action with
      | release id => exact absurd rfl (notRelease id)
      | _ => rfl
  cases call with
  | insert key value charge deleter =>
      cases routed
      refine ⟨?_, fun handle => rfl⟩
      intro visit member
      obtain rfl := List.mem_singleton.mp member
      intro key value charge deleter same
      cases same
      rfl
  | lookup key | erase key =>
      cases routed
      refine ⟨?_, fun handle => rfl⟩
      intro visit member
      obtain rfl := List.mem_singleton.mp member
      intro key value charge deleter same
      cases same
  | release handle =>
      obtain ⟨stored, _, found⟩ := Option.bind_eq_some_iff.mp routed
      split at found
      · rename_i home
        cases found
        refine ⟨?_, fun other => ?_⟩
        · intro visit member
          obtain rfl := List.mem_singleton.mp member
          intro key value charge deleter same
          cases same
        · cases handle
          cases other
          simp [ShardVisit.takes, takes, home]
      · cases found
  | prune =>
      cases routed
      exact plain .prune (fun _ _ _ _ => nofun) fun _ => nofun
  | totalCharge =>
      cases routed
      exact plain .totalCharge (fun _ _ _ _ => nofun) fun _ => nofun

end ShardedCall

/-- The shards with their mutexes, the threads, and how often `Release` was called on each
handle. -/
structure CacheThreads (Thread Value Deleter Local : Type) where
  monitor : Monitor Thread ShardIndex (ShardVisit Value Deleter) ShardAnswer
    (LRUCache Value Deleter) Local (LruShard Value Deleter)
  released : ShardedHandle → Nat

namespace CacheThreads

variable [DecidableEq Thread] [Fintype Thread]

/-- How often a handle was returned to a client. -/
def handed (system : CacheThreads Thread Value Deleter Local) (handle : ShardedHandle) : Nat :=
  ∑ thread, ((system.monitor.returned thread).map (ShardVisit.gives handle)).sum

/-- `Value`. -/
def value (system : CacheThreads Thread Value Deleter Local) (handle : ShardedHandle) :
    Option Value :=
  ((system.monitor.data handle.shard).heap.handles handle.id).map LRUHandle.value

/-- What any number of threads reach that call the methods of a new cache. A client calls
`Release` on a handle only as often as the handle was returned, and a method that gets the
mutex of a shard makes no count and no charge of it overflow. -/
inductive Reached (division : Division Value Deleter Local) (capacity : BitVec 64) :
    CacheThreads Thread Value Deleter Local → Prop where
  | new {cache : ShardedLRUCache Value Deleter} (made : ShardedLRUCache.new capacity = some cache) :
      Reached division capacity
        ⟨.initial cache.shard LruSpec.empty.shard, fun _ => 0⟩
  | call {system : CacheThreads Thread Value Deleter Local} {thread : Thread}
      {call : ShardedCall Value Deleter} {visit : ShardVisit Value Deleter}
      {todo : List (ShardVisit Value Deleter)} (reached : Reached division capacity system)
      (idle : system.monitor.phase thread = .idle)
      (routed : call.visits system.monitor.data = some (visit :: todo))
      (entitled : ∀ handle, call = .release handle →
        system.released handle < system.handed handle) :
      Reached division capacity ⟨system.monitor.call thread visit todo, fun handle =>
        system.released handle + call.takes handle⟩
  | step {system : CacheThreads Thread Value Deleter Local} {thread : Thread}
      {after : Monitor Thread ShardIndex (ShardVisit Value Deleter) ShardAnswer
        (LRUCache Value Deleter) Local (LruShard Value Deleter)}
      (reached : Reached division capacity system)
      (fits : ∀ visit todo done, system.monitor.phase thread = .waiting visit todo done →
        visit.Fits (ShardedLRUCache.perShard capacity).toNat (system.monitor.specs visit.shard))
      (stepped : Monitor.Step division.visits
        (shardMeaning Value Deleter (ShardedLRUCache.perShard capacity).toNat) thread system.monitor
        after) :
      Reached division capacity ⟨after, system.released⟩

theorem sum_update {Phase : Type} (count : Phase → Nat) (phase : Thread → Phase)
    (thread : Thread) (later : Phase) :
    ∑ other, count (Function.update phase thread later other) + count (phase thread) =
      ∑ other, count (phase other) + count later := by
  rw [← Finset.add_sum_erase _ _ (Finset.mem_univ thread),
    ← Finset.add_sum_erase _ (fun other => count (phase other)) (Finset.mem_univ thread),
    Function.update_self]
  have others : ∑ other ∈ Finset.univ.erase thread,
      count (Function.update phase thread later other) =
        ∑ other ∈ Finset.univ.erase thread, count (phase other) := by
    apply Finset.sum_congr rfl
    intro other member
    rw [Function.update_of_ne (Finset.ne_of_mem_erase member)]
  rw [others]
  omega

/-- What is counted over a history is counted over the threads. -/
theorem sum_threads {Entry : Type} (count : Entry → Nat) (history : List (Thread × Entry)) :
    ∑ thread, (((history.filter fun entry => entry.1 = thread).map Prod.snd).map count).sum =
      (history.map fun entry => count entry.2).sum := by
  induction history with
  | nil => exact Finset.sum_const_zero
  | cons entry history ih =>
      have split : ∀ thread, ((((entry :: history).filter fun entry => entry.1 = thread).map
          Prod.snd).map count).sum = (if entry.1 = thread then count entry.2 else 0) +
            (((history.filter fun entry => entry.1 = thread).map Prod.snd).map count).sum := by
        intro thread
        by_cases same : entry.1 = thread
        · simp [same]
        · simp [same]
      rw [Finset.sum_congr rfl fun thread _ => split thread, Finset.sum_add_distrib, ih,
        Finset.sum_ite_eq, if_pos (Finset.mem_univ _)]
      rfl

/-- What the visits to come of a thread give back. -/
def owes (handle : ShardedHandle)
    (phase : Phase (ShardVisit Value Deleter) ShardAnswer Local) : Nat :=
  (phase.pending.map (ShardVisit.takes handle)).sum

/-- The handles that are out are those returned, in calls that may not have returned yet,
less those given back by visits that have ended. -/
structure Counted (system : CacheThreads Thread Value Deleter Local) : Prop where
  held : ∀ handle, (system.monitor.specs handle.shard).client.held handle.id +
      system.released handle =
    (system.monitor.history.map fun entry => ShardVisit.gives handle entry.2).sum +
      ∑ thread, owes handle (system.monitor.phase thread)
  entitled : ∀ handle, system.released handle ≤ system.handed handle
  routed : ∀ thread, ∀ visit ∈ (system.monitor.phase thread).pending, visit.Routed

/-- Every reachable state. -/
structure Sound (division : Division Value Deleter Local) (capacity : BitVec 64)
    (system : CacheThreads Thread Value Deleter Local) : Prop where
  consistent : Monitor.Consistent division.visits
    (shardMeaning Value Deleter (ShardedLRUCache.perShard capacity).toNat) (fun _ => LruShard.empty)
    system.monitor
  counted : Counted system

variable {division : Division Value Deleter Local} {capacity : BitVec 64}
  {system : CacheThreads Thread Value Deleter Local} {thread : Thread}

namespace Sound

/-- What calls returned is part of what visits returned. -/
theorem handed_le (sound : Sound division capacity system) (handle : ShardedHandle) :
    system.handed handle ≤
      (system.monitor.history.map fun entry => ShardVisit.gives handle entry.2).sum := by
  rw [← sum_threads (ShardVisit.gives handle) system.monitor.history]
  apply Finset.sum_le_sum
  intro thread _
  rw [sound.consistent.own thread, List.map_append, List.sum_append]
  exact Nat.le_add_right _ _

/-- A handle is out as often as it is about to be given back, and once more for whoever has
not called `Release` on it. -/
theorem held_ge (sound : Sound division capacity system) (thread : Thread)
    (handle : ShardedHandle) :
    system.handed handle - system.released handle +
        owes handle (system.monitor.phase thread) ≤
      (system.monitor.specs handle.shard).client.held handle.id := by
  have counted := sound.counted.held handle
  have handed := sound.handed_le handle
  have entitled := sound.counted.entitled handle
  have part : owes handle (system.monitor.phase thread) ≤
      ∑ other, owes handle (system.monitor.phase other) :=
    Finset.single_le_sum (fun other _ => Nat.zero_le (owes handle (system.monitor.phase other)))
      (Finset.mem_univ thread)
  omega

/-- A visit is allowed as long as it has not ended. -/
theorem allowed (sound : Sound division capacity system) {visit : ShardVisit Value Deleter}
    (member : visit ∈ (system.monitor.phase thread).pending) :
    visit.Allowed (system.monitor.specs visit.shard) := by
  have routed := sound.counted.routed thread visit member
  obtain ⟨index, call⟩ := visit
  cases call with
  | insert key value charge deleter => exact routed key value charge deleter rfl
  | release id =>
      have enough := sound.held_ge thread ⟨index, id⟩
      have takes : 1 ≤ owes ⟨index, id⟩ (system.monitor.phase thread) := by
        apply List.single_le_sum (fun count _ => Nat.zero_le count)
        refine List.mem_map.mpr ⟨_, member, ?_⟩
        simp [ShardVisit.takes]
      exact Nat.lt_of_lt_of_le Nat.one_pos
        (Nat.le_trans takes (Nat.le_trans (Nat.le_add_left _ _) enough))
  | lookup key | erase key | prune | totalCharge => exact trivial

/-- A step that ends no visit and gives none back. -/
theorem keep (counted : Counted system)
    {after : Monitor Thread ShardIndex (ShardVisit Value Deleter) ShardAnswer
      (LRUCache Value Deleter) Local (LruShard Value Deleter)}
    {later : Phase (ShardVisit Value Deleter) ShardAnswer Local}
    (phase : after.phase = Function.update system.monitor.phase thread later)
    (pending : later.pending = (system.monitor.phase thread).pending)
    (specs : after.specs = system.monitor.specs)
    (history : after.history = system.monitor.history)
    (returned : ∀ other, (system.monitor.returned other).Sublist (after.returned other)) :
    Counted ⟨after, system.released⟩ where
  held := by
    intro handle
    have moved := sum_update (owes handle) system.monitor.phase thread later
    have same : owes handle later = owes handle (system.monitor.phase thread) := by
      rw [owes, pending, owes]
    dsimp only
    rw [specs, history, phase, counted.held handle]
    omega
  entitled := by
    intro handle
    apply Nat.le_trans (counted.entitled handle)
    apply Finset.sum_le_sum
    intro other _
    exact ((returned other).map _).sum_le_sum fun _ _ => Nat.zero_le _
  routed := by
    intro other visit member
    dsimp only at member
    rw [phase] at member
    by_cases here : other = thread
    · subst here
      rw [Function.update_self, pending] at member
      exact counted.routed other visit member
    · rw [Function.update_of_ne here] at member
      exact counted.routed other visit member

/-- A visit that ends. -/
theorem finish (sound : Sound division capacity system) {visit : ShardVisit Value Deleter}
    {todo : List (ShardVisit Value Deleter)}
    {done : List (ShardVisit Value Deleter × ShardAnswer)} {now : Local} {answer : ShardAnswer}
    {data : LRUCache Value Deleter}
    (inside : system.monitor.phase thread = .inside visit todo done now)
    (stepped : division.visits.next now (system.monitor.data (division.visits.lock visit)) =
      some (.inr answer, data)) :
    Counted ⟨{ system.monitor.goto thread (.leaving visit todo (done ++ [(visit, answer)])) with
        data := Function.update system.monitor.data (division.visits.lock visit) data
        specs := Function.update system.monitor.specs (division.visits.lock visit)
          ((shardMeaning Value Deleter (ShardedLRUCache.perShard capacity).toNat).after visit
            (system.monitor.specs (division.visits.lock visit)))
        history := system.monitor.history ++ [(thread, visit, answer)] }, system.released⟩ where
  held := by
    intro handle
    obtain ⟨answered, _⟩ := sound.consistent.finish inside stepped
    have counted := sound.counted.held handle
    have moved := sum_update (owes handle) system.monitor.phase thread
      (.leaving visit todo (done ++ [(visit, answer)]))
    have owed : owes handle (system.monitor.phase thread) = visit.takes handle +
        owes handle (.leaving visit todo (done ++ [(visit, answer)]) : Phase _ _ Local) := by
      rw [inside]
      rfl
    dsimp only [Monitor.goto] at moved ⊢
    rw [List.map_append, List.sum_append, List.map_singleton, List.sum_singleton]
    dsimp only
    rw [division.lock] at answered ⊢
    by_cases here : handle.shard = visit.shard
    · have member : visit ∈ (system.monitor.phase thread).pending := by
        rw [inside]
        exact List.mem_cons_self
      have after := held_perform (ShardedLRUCache.perShard capacity).toNat (sound.allowed member)
        (Eq.symm here)
      rw [show ((system.monitor.specs visit.shard).perform (ShardedLRUCache.perShard capacity).toNat
        visit.call).1 = answer from answered.symm] at after
      rw [here] at counted
      rw [here, Function.update_self]
      dsimp only [shardMeaning]
      omega
    · rw [Function.update_of_ne here]
      have gives : ShardVisit.gives handle (visit, answer) = 0 :=
        if_neg fun both => here both.1.symm
      have takes : visit.takes handle = 0 := by
        unfold ShardVisit.takes
        split
        · exact if_neg fun both => here both.1.symm
        · rfl
      omega
  entitled := sound.counted.entitled
  routed := by
    intro other second member
    dsimp only [Monitor.goto] at member
    by_cases here : other = thread
    · subst here
      rw [Function.update_self] at member
      apply sound.counted.routed other
      rw [inside]
      exact List.mem_cons_of_mem _ member
    · rw [Function.update_of_ne here] at member
      exact sound.counted.routed other second member

theorem step (sound : Sound division capacity system)
    (fits : ∀ visit todo done, system.monitor.phase thread = .waiting visit todo done →
      visit.Fits (ShardedLRUCache.perShard capacity).toNat (system.monitor.specs visit.shard))
    {after : Monitor Thread ShardIndex (ShardVisit Value Deleter) ShardAnswer
      (LRUCache Value Deleter) Local (LruShard Value Deleter)}
    (stepped : Monitor.Step division.visits
      (shardMeaning Value Deleter (ShardedLRUCache.perShard capacity).toNat) thread system.monitor
      after) :
    Sound division capacity ⟨after, system.released⟩ where
  consistent := by
    apply sound.consistent.step (division.implements _) stepped
    intro visit todo done waiting _
    rw [division.lock]
    have member : visit ∈ (system.monitor.phase thread).pending := by
      rw [waiting]
      exact List.mem_cons_self
    exact ⟨sound.allowed member, fits visit todo done waiting⟩
  counted := by
    cases stepped with
    | lock waiting free =>
        exact keep sound.counted rfl (by rw [waiting]; rfl) rfl rfl fun _ => .refl _
    | work inside worked =>
        exact keep sound.counted rfl (by rw [inside]; rfl) rfl rfl fun _ => .refl _
    | finish inside worked => exact sound.finish inside worked
    | unlock leaving =>
        exact keep sound.counted rfl (by rw [leaving]; rfl) rfl rfl fun _ => .refl _
    | leave leaving =>
        refine keep sound.counted rfl (by rw [leaving]; rfl) rfl rfl fun other => ?_
        dsimp only
        by_cases here : other = thread
        · subst here
          rw [Function.update_self]
          exact List.sublist_append_left _ _
        · rw [Function.update_of_ne here]

theorem call (sound : Sound division capacity system) {call : ShardedCall Value Deleter}
    {visit : ShardVisit Value Deleter} {todo : List (ShardVisit Value Deleter)}
    (idle : system.monitor.phase thread = .idle)
    (routed : call.visits system.monitor.data = some (visit :: todo))
    (entitled : ∀ handle, call = .release handle → system.released handle < system.handed handle) :
    Sound division capacity ⟨system.monitor.call thread visit todo, fun handle =>
      system.released handle + call.takes handle⟩ where
  consistent := sound.consistent.call idle visit todo
  counted := by
    obtain ⟨home, takes⟩ := ShardedCall.visits_spec routed
    refine ⟨fun handle => ?_, fun handle => ?_, ?_⟩
    · have counted := sound.counted.held handle
      have moved := sum_update (owes handle) system.monitor.phase thread (.waiting visit todo [])
      have before : owes handle (system.monitor.phase thread) = 0 := by
        rw [idle]
        rfl
      have after : owes handle (.waiting visit todo [] : Phase _ _ Local) = call.takes handle :=
        takes handle
      dsimp only [Monitor.call, Monitor.goto]
      omega
    · have fair := sound.counted.entitled handle
      have same : handed (⟨system.monitor.call thread visit todo, fun handle =>
          system.released handle + call.takes handle⟩ : CacheThreads Thread Value Deleter Local)
          handle = system.handed handle := rfl
      rw [same]
      dsimp only
      cases call with
      | release other =>
          by_cases this : other = handle
          · subst this
            have more := entitled other rfl
            simp only [ShardedCall.takes, if_true]
            omega
          · simp only [ShardedCall.takes, this, if_false]
            exact fair
      | _ => exact fair
    · intro other second member
      dsimp only [Monitor.call, Monitor.goto] at member
      by_cases here : other = thread
      · subst here
        rw [Function.update_self] at member
        exact home second member
      · rw [Function.update_of_ne here] at member
        exact sound.counted.routed other second member

end Sound

theorem Reached.sound (reached : Reached division capacity system) :
    Sound division capacity system := by
  induction reached with
  | @new cache made =>
      obtain ⟨same, again, refines⟩ := @new_refines Value Deleter capacity
      rw [made, Option.some.injEq] at again
      subst again
      refine ⟨Monitor.initial_consistent refines, fun handle => ?_, fun handle => Nat.zero_le _, ?_⟩
      · have nothing : ∑ _ : Thread, owes handle
            (.idle : Phase (ShardVisit Value Deleter) ShardAnswer Local) = 0 :=
          Finset.sum_eq_zero fun _ _ => rfl
        exact ((Nat.zero_add _).trans nothing).symm
      · intro thread visit member
        cases member
  | call _ idle routed entitled ih => exact ih.call idle routed entitled
  | step _ fits stepped ih => exact ih.step fits stepped

/-- A handle that is out and will be returned: its entry can be read without the mutex, in
the middle of what any other thread does, and is the entry that was inserted. -/
theorem Sound.readable (sound : Sound division capacity system) {handle : ShardedHandle}
    (entitled : system.released handle < system.handed handle) :
    ∃ entry current, (system.monitor.specs handle.shard).client.inserted handle.id = some entry ∧
      (system.monitor.data handle.shard).heap.handles handle.id = some current ∧
      current.value = entry.value ∧ shardOf current.hash = handle.shard := by
  by_cases someone : ∃ thread visit todo done now,
      system.monitor.phase thread = .inside visit todo done now ∧ visit.shard = handle.shard
  · obtain ⟨thread, visit, todo, done, now, inside, here⟩ := someone
    obtain ⟨first, last, busy⟩ := sound.consistent.busy thread _ _ _ _ inside
    have enough := sound.held_ge thread handle
    have refines := busy.refines
    have allowed := busy.allowed.1
    have result := busy.result
    rw [division.lock, here] at refines allowed result
    have takes : visit.takes handle ≤ owes handle (system.monitor.phase thread) := by
      rw [inside]
      exact Nat.le_add_right _ _
    have after := held_perform (ShardedLRUCache.perShard capacity).toNat allowed here
    have heldFirst : 0 < (system.monitor.specs handle.shard).client.held handle.id := by omega
    have heldLast : 0 < ((system.monitor.specs handle.shard).perform
        (ShardedLRUCache.perShard capacity).toNat visit.call).2.client.held handle.id := by omega
    obtain ⟨cells, inv, _⟩ := refines.2.inv
    obtain ⟨entry, stored⟩ := inv.stored_of_held heldFirst
    obtain ⟨lastCells, lastInv, _⟩ := result.2.inv
    obtain ⟨final, lastStored⟩ := lastInv.stored_of_held heldLast
    have known := inv.inserted stored
    have old : handle.id < first.heap.fresh := by
      by_contra late
      rw [(inv.fresh handle.id).mpr (Nat.le_of_not_lt late)] at known
      cases known
    have kept := lastInv.inserted lastStored
    have old' : handle.id ≠ (system.monitor.specs handle.shard).fresh := by
      rw [← refines.2.fresh]
      exact old.ne
    have same := inserted_perform (ShardedLRUCache.perShard capacity).toNat visit old'
    obtain ⟨current, found, hashed, valued⟩ := division.steady _ visit _ first _ _ _ last
      busy.refines busy.allowed.1 busy.allowed.2 busy.reached busy.finishes handle.id final old
      lastStored
    rw [division.lock, here] at found
    refine ⟨entry.inserted, current, known, found, ?_, ?_⟩
    · have fixed := known.symm.trans (same.symm.trans kept)
      rw [valued]
      exact (congrArg Inserted.value (Option.some.inj fixed)).symm
    · rw [hashed]
      exact (result.2.routed _ _ kept).2
  · have refines := sound.consistent.quiet handle.shard
      fun thread visit todo done now inside same =>
        someone ⟨thread, visit, todo, done, now, inside, by rw [← division.lock, same]⟩
    have counted := sound.counted.held handle
    have handed := sound.handed_le handle
    have held : 0 < (system.monitor.specs handle.shard).client.held handle.id := by omega
    obtain ⟨cells, inv, _⟩ := refines.2.inv
    obtain ⟨entry, stored⟩ := inv.stored_of_held held
    have known := inv.inserted stored
    exact ⟨entry.inserted, entry, known, stored, rfl, (refines.2.routed _ _ known).2⟩

end CacheThreads

section Whole

variable {capacity : Nat} {visit : ShardVisit Value Deleter} {shard : LruShard Value Deleter}
  {cache after : LRUCache Value Deleter} {answer : ShardAnswer}

/-- A method takes back no call of a deleter. -/
theorem perform_continues
    (refines : (shardMeaning Value Deleter capacity).Refines visit.shard shard cache)
    (allowed : visit.Allowed shard) (fits : visit.Fits capacity shard)
    (ran : cache.perform visit.call = some (answer, after)) :
    Continues cache after := by
  obtain ⟨same, shardRefines⟩ := refines
  obtain ⟨cells, inv, _⟩ := shardRefines.inv
  have ofStep : ∀ (op : CacheOp Value Deleter), shard.client.Allows op → cache.CountsFit op →
      (∀ returned later, cache.step op = some (returned, later) → later = after) →
      Continues cache after := by
    intro op fair counts same
    obtain ⟨returned, later, stepped, continues, _⟩ := step_inv inv fair counts
    rw [← same returned later stepped]
    exact continues
  obtain ⟨index, call⟩ := visit
  cases call with
  | insert key value charge deleter =>
      apply ofStep (.insert key (hashSlice key) value charge deleter) trivial
        (shardRefines.countsFit_insert (same ▸ fits))
      intro returned later stepped
      obtain ⟨result, made, same⟩ := Option.map_eq_some_iff.mp ran
      rw [LRUCache.step, made, Option.map_some, Option.some.injEq, Prod.mk.injEq] at stepped
      rw [← stepped.2, (Prod.mk.inj same).2]
  | lookup key =>
      apply ofStep (.lookup key (hashSlice key)) trivial (shardRefines.countsFit_lookup fits)
      intro returned later stepped
      obtain ⟨result, made, same⟩ := Option.map_eq_some_iff.mp ran
      rw [LRUCache.step, made, Option.some.injEq] at stepped
      rw [← (Prod.mk.inj same).2, stepped]
  | release id =>
      apply ofStep (.release id) allowed trivial
      intro returned later stepped
      obtain ⟨result, made, same⟩ := Option.map_eq_some_iff.mp ran
      rw [LRUCache.step, made, Option.map_some, Option.some.injEq, Prod.mk.injEq] at stepped
      rw [← stepped.2, (Prod.mk.inj same).2]
  | erase key =>
      apply ofStep (.erase key (hashSlice key)) trivial trivial
      intro returned later stepped
      obtain ⟨result, made, same⟩ := Option.map_eq_some_iff.mp ran
      rw [LRUCache.step, made, Option.map_some, Option.some.injEq, Prod.mk.injEq] at stepped
      rw [← stepped.2, (Prod.mk.inj same).2]
  | prune =>
      apply ofStep .prune trivial trivial
      intro returned later stepped
      obtain ⟨result, made, same⟩ := Option.map_eq_some_iff.mp ran
      rw [LRUCache.step, made, Option.map_some, Option.some.injEq, Prod.mk.injEq] at stepped
      rw [← stepped.2, (Prod.mk.inj same).2]
  | totalCharge =>
      cases ran
      exact .refl cache

/-- An entry that is in memory after a method was there before it, if its address was. -/
theorem perform_steady
    (refines : (shardMeaning Value Deleter capacity).Refines visit.shard shard cache)
    (allowed : visit.Allowed shard) (fits : visit.Fits capacity shard)
    (ran : cache.perform visit.call = some (answer, after))
    {id : HandleId} {stored : LRUHandle Value Deleter} (old : id < cache.heap.fresh)
    (live : after.heap.handles id = some stored) :
    ∃ current, cache.heap.handles id = some current ∧ current.hash = stored.hash ∧
      current.value = stored.value := by
  obtain ⟨again, alsoRan, result⟩ := perform_refines refines allowed fits
  rw [ran, Option.some.injEq, Prod.mk.injEq] at alsoRan
  obtain ⟨_, rfl⟩ := alsoRan
  have continues := perform_continues refines allowed fits ran
  obtain ⟨cells, inv, _⟩ := refines.2.inv
  obtain ⟨laterCells, later, _⟩ := result.2.inv
  have kept := inserted_perform capacity visit
    (refines.2.fresh ▸ old.ne : id ≠ shard.fresh)
  have record := later.inserted live
  rw [kept] at record
  cases found : cache.heap.handles id with
  | some current =>
      have same := (inv.inserted found).symm.trans record
      exact ⟨current, rfl, congrArg Inserted.hash (Option.some.inj same),
        congrArg Inserted.value (Option.some.inj same)⟩
  | none =>
      -- its deleter was called, which the method cannot have undone
      have called := (inv.dead found).calls
      rw [record] at called
      have uncalled := (later.live live).calls
      have part : callsFor cache.deleted id <+: callsFor after.deleted id :=
        continues.deleted.filter _
      rw [called, uncalled] at part
      simp at part

end Whole

/-- Every method as a single step. -/
def Division.whole (Value Deleter : Type) :
    Division Value Deleter (ShardVisit Value Deleter) where
  visits :=
    { lock := ShardVisit.shard
      start := id
      next := fun visit cache =>
        (cache.perform visit.call).map fun result => (.inr result.1, result.2) }
  lock := fun _ => rfl
  divides := by
    intro visit cache answer after ran
    refine .ends ?_
    change (cache.perform visit.call).map _ = _
    rw [ran]
    rfl
  steady := by
    intro capacity visit shard cache now between answer after refines allowed fits reaches finishes
      id stored old live
    have ended : now = visit ∧ between = cache := by
      induction reaches with
      | refl => exact ⟨rfl, rfl⟩
      | step _ stepped =>
          obtain ⟨result, _, same⟩ := Option.map_eq_some_iff.mp stepped
          cases same
    obtain ⟨rfl, rfl⟩ := ended
    cases finishes with
    | ends stepped =>
        obtain ⟨result, ran, same⟩ := Option.map_eq_some_iff.mp stepped
        cases same
        exact perform_steady refines allowed fits ran old live
    | more stepped =>
        obtain ⟨result, _, same⟩ := Option.map_eq_some_iff.mp stepped
        cases same

namespace NewId

/-- `NewId`, under `id_mutex_`: load `last_id_`, then store and return the next number. -/
def visits : Visits Unit Unit (BitVec 64) (BitVec 64) (Option (BitVec 64)) where
  lock := id
  start := fun _ => none
  next := fun loaded lastId =>
    match loaded with
    | none => some (.inl (some lastId), lastId)
    | some number => some (.inr (number + 1), number + 1)

/-- A counter. -/
def meaning : Meaning Unit Unit (BitVec 64) (BitVec 64) (BitVec 64) where
  answer := fun _ last => last + 1
  after := fun _ last => last + 1
  Allows := fun _ _ => True
  Refines := fun _ last lastId => lastId = last

theorem implements : Implements visits meaning := by
  rintro visit last lastId rfl _
  exact ⟨lastId + 1, .more rfl (.ends rfl), rfl⟩

/-- The numbers are handed out one after the other. -/
theorem replays_numbers {history : List (Thread × Unit × BitVec 64)} {last : Unit → BitVec 64}
    (replays : Monitor.Replays visits.lock meaning (fun _ => 0) history last) :
    last () = BitVec.ofNat 64 history.length ∧
      ∀ index entry, history[index]? = some entry → entry.2.2 = BitVec.ofNat 64 (index + 1) := by
  induction replays with
  | nil => exact ⟨rfl, fun index entry found => by cases found⟩
  | @snoc history specs replays thread visit ih =>
      obtain ⟨count, numbers⟩ := ih
      have next : specs () + 1 = BitVec.ofNat 64 (history.length + 1) := by
        rw [count, BitVec.ofNat_add]
        rfl
      refine ⟨?_, fun index entry found => ?_⟩
      · rw [List.length_append, List.length_singleton, ← next]
        exact Function.update_self _ _ _
      · rw [List.getElem?_append] at found
        split at found
        · exact numbers index entry found
        · rename_i past
          have here : index - history.length = 0 := by
            by_contra beyond
            rw [List.getElem?_eq_none (by rw [List.length_singleton]; omega)] at found
            cases found
          rw [here] at found
          cases found
          have same : index = history.length := by omega
          rw [same]
          exact next

/-- No number is handed out twice, to whichever threads, before 2^64 calls. -/
theorem numbers_distinct [DecidableEq Thread]
    {system : Monitor Thread Unit Unit (BitVec 64) (BitVec 64) (Option (BitVec 64)) (BitVec 64)}
    (reached : Monitor.Reached visits meaning (fun _ => 0) (fun _ => 0) system)
    (few : system.history.length < 2 ^ 64) :
    (system.history.map fun entry => entry.2.2).Pairwise (· < ·) := by
  have consistent := reached.consistent implements (fun _ => rfl) fun _ _ => trivial
  obtain ⟨_, numbers⟩ := replays_numbers consistent.replays
  rw [List.pairwise_iff_getElem]
  intro first second firstBound secondBound before
  rw [List.length_map] at firstBound secondBound
  rw [List.getElem_map, List.getElem_map,
    numbers first _ (List.getElem?_eq_getElem firstBound),
    numbers second _ (List.getElem?_eq_getElem secondBound), BitVec.lt_def,
    BitVec.toNat_ofNat, BitVec.toNat_ofNat, Nat.mod_eq_of_lt (by omega),
    Nat.mod_eq_of_lt (by omega)]
  exact Nat.succ_lt_succ before

/-- The second thread calls while the first one is in the middle of its increment. -/
theorem numbers_distinct_two : ∃ system : Monitor (Fin 2) Unit Unit (BitVec 64) (BitVec 64)
      (Option (BitVec 64)) (BitVec 64),
    system.history.map (fun entry => (entry.1, entry.2.2)) = [(0, 1), (1, 2)] ∧
      (system.history.map fun entry => entry.2.2).Pairwise (· < ·) := by
  have start :
      @Monitor.Reached (Fin 2) _ _ _ _ _ _ _ _ visits meaning (fun _ => 0) (fun _ => 0) _ :=
    .initial
  have first := @Monitor.Reached.call _ _ _ _ _ _ _ _ _ _ _ _ _ _ 0 start rfl () []
  have locked := @Monitor.Reached.step _ _ _ _ _ _ _ _ _ _ _ _ _ _ _ 0 first (.lock rfl rfl)
  have loaded := @Monitor.Reached.step _ _ _ _ _ _ _ _ _ _ _ _ _ _ _ 0 locked (.work rfl rfl)
  have second := @Monitor.Reached.call _ _ _ _ _ _ _ _ _ _ _ _ _ _ 1 loaded rfl () []
  have stored := @Monitor.Reached.step _ _ _ _ _ _ _ _ _ _ _ _ _ _ _ 0 second (.finish rfl rfl)
  have left := @Monitor.Reached.step _ _ _ _ _ _ _ _ _ _ _ _ _ _ _ 0 stored (.leave rfl)
  have relocked := @Monitor.Reached.step _ _ _ _ _ _ _ _ _ _ _ _ _ _ _ 1 left (.lock rfl rfl)
  have reloaded := @Monitor.Reached.step _ _ _ _ _ _ _ _ _ _ _ _ _ _ _ 1 relocked (.work rfl rfl)
  have final := @Monitor.Reached.step _ _ _ _ _ _ _ _ _ _ _ _ _ _ _ 1 reloaded (.finish rfl rfl)
  exact ⟨_, rfl, numbers_distinct final (by decide)⟩

end NewId

end MiniLevelDb
