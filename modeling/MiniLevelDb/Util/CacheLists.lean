import MiniLevelDb.Util.Cache
import MiniLevelDb.Foundation.Ring

/-!
# The two lists of a cache

`lru_` and `in_use_` are rings through disjoint sets of handles. `LRU_Remove` takes a
handle out of the ring it is in, without looking for it, and `LRU_Append` puts one that
is in no ring at the end of a ring; neither touches the other ring or the pointers of
a handle that is in none.
-/

namespace MiniLevelDb

open Foundation

namespace Heap

variable {Value Deleter : Type} {heap : Heap Value Deleter}
  {cells : CacheList → List HandleId} {list : CacheList} {id : HandleId}

/-- The rings of the heap, with their handles in order. -/
structure Rings (heap : Heap Value Deleter) (cells : CacheList → List HandleId) : Prop where
  ring : ∀ list, Ring heap.next heap.prev (.head list) ((cells list).map .entry)
  apart : ∀ left right, left ≠ right → ∀ id ∈ cells left, id ∉ cells right
  live : ∀ list, ∀ id ∈ cells list, heap.isLive (.entry id)

/-- The nodes of a ring. -/
def nodes (cells : CacheList → List HandleId) (list : CacheList) : List ListNode :=
  .head list :: (cells list).map .entry

/-- The lists without a handle. -/
def removed (cells : CacheList → List HandleId) (id : HandleId) : CacheList → List HandleId :=
  fun list => (cells list).erase id

/-- The lists with a new handle at the end of one of them. -/
def appended (cells : CacheList → List HandleId) (list : CacheList) (id : HandleId) :
    CacheList → List HandleId :=
  Function.update cells list (cells list ++ [id])

theorem mem_appended {other : HandleId} {at_ : CacheList} :
    other ∈ appended cells list id at_ ↔ other ∈ cells at_ ∨ (at_ = list ∧ other = id) := by
  unfold appended
  by_cases same : at_ = list
  · subst same
    simp
  · simp [same]

namespace Rings

theorem nodup (rings : Rings heap cells) (list : CacheList) : (cells list).Nodup :=
  (List.nodup_cons.mp (rings.ring list).nodup).2.of_map

theorem mem_removed (rings : Rings heap cells) {other : HandleId} {at_ : CacheList} :
    other ∈ removed cells id at_ ↔ other ∈ cells at_ ∧ other ≠ id := by
  rw [removed, (rings.nodup at_).mem_erase_iff, and_comm]

theorem nodes_live (rings : Rings heap cells) {node : ListNode} (member : node ∈ nodes cells list) :
    heap.isLive node = true := by
  rcases List.mem_cons.mp member with rfl | member
  · rfl
  · obtain ⟨other, present, rfl⟩ := List.mem_map.mp member
    exact rings.live list other present

theorem nodes_apart (rings : Rings heap cells) {other : CacheList} (differ : other ≠ list)
    {left right : ListNode} (leftMember : left ∈ nodes cells other)
    (rightMember : right ∈ nodes cells list) : left ≠ right := by
  rintro rfl
  rcases List.mem_cons.mp leftMember with rfl | leftMember
  · simp [nodes, differ] at rightMember
  · obtain ⟨same, present, rfl⟩ := List.mem_map.mp leftMember
    have again : same ∈ cells list := by simpa [nodes] using rightMember
    exact rings.apart other list differ same present again

/-- A ring stays when only nodes of the other one are written. -/
theorem frame (rings : Rings heap cells) {next prev : ListNode → Option (Option ListNode)}
    (agree : ∀ node, node ∉ nodes cells list →
      next node = heap.next node ∧ prev node = heap.prev node) {other : CacheList}
    (differ : other ≠ list) :
    Ring next prev (.head other) ((cells other).map .entry) :=
  (rings.ring other).congr fun node member => agree node fun again =>
    rings.nodes_apart differ member again rfl

end Rings

theorem lastNode_nodes {part : List HandleId} (within : part ⊆ cells list) :
    lastNode (.head list) (part.map ListNode.entry) ∈ nodes cells list :=
  List.cons_subset_cons _ (List.map_subset _ within) lastNode_mem

theorem ne_of_outside {inside node : ListNode} (member : inside ∈ nodes cells list)
    (outside : node ∉ nodes cells list) : node ≠ inside := by
  rintro rfl
  exact outside member

/-- Which nodes are live does not depend on the pointers. -/
theorem isLive_links (next prev : ListNode → Option (Option ListNode)) (node : ListNode) :
    isLive { heap with next := next, prev := prev } node = heap.isLive node := by
  cases node <;> rfl

/-- The assertion of `key()` holds: the `next` pointer is set and is not the handle. -/
def Named (heap : Heap Value Deleter) (id : HandleId) : Prop :=
  ∃ next, heap.next (.entry id) = some next ∧ next ≠ some (.entry id)

theorem Named.keyOf {handle : LRUHandle Value Deleter} (named : Named heap id)
    (stored : heap.handles id = some handle) : heap.keyOf id = some handle.key := by
  obtain ⟨next, set, apart⟩ := named
  simp [Heap.keyOf, stored, set, apart]

theorem Named.congr {heap' : Heap Value Deleter} (named : Named heap id)
    (same : heap'.next (.entry id) = heap.next (.entry id)) : Named heap' id := by
  unfold Named
  rwa [same]

/-- A handle in a list is not an empty list. -/
theorem Rings.named (rings : Rings heap cells) (member : id ∈ cells list) : Named heap id := by
  obtain ⟨front, back, split⟩ := List.append_of_mem member
  have ring := rings.ring list
  rw [split, List.map_append, List.map_cons] at ring
  refine ⟨_, ring.next_cell, ?_⟩
  intro same
  have reached := @lastNode_mem _ (ListNode.head list) (back.map ListNode.entry).reverse
  rw [Option.some.inj same] at reached
  have nodup := rings.nodup list
  rw [split] at nodup
  have distinct := (List.nodup_cons.mp (List.nodup_middle.mp nodup)).1
  exact distinct (List.mem_append_right _ (by simpa using reached))

/-- The first node after the head of a list. -/
theorem Rings.readNext_head (rings : Rings heap cells) (list : CacheList) :
    heap.readNext (.head list) = some (some ((cells list).head?.elim (.head list) .entry)) := by
  refine (rings.ring list).next_head.trans ?_
  cases cells list with
  | nil => rfl
  | cons first rest => rw [List.map_cons, List.reverse_cons, lastNode, endSlot_append]; rfl

/-- The two writes of `LRU_Remove`. -/
theorem lruRemove_eq {before after : ListNode} (live : heap.isLive (.entry id) = true)
    (beforeLive : heap.isLive before = true) (afterLive : heap.isLive after = true)
    (next : heap.next (.entry id) = some (some after))
    (prev : heap.prev (.entry id) = some (some before)) (apart : ListNode.entry id ≠ after) :
    heap.lruRemove id = some { heap with
      next := Function.update heap.next before (some (some after))
      prev := Function.update heap.prev after (some (some before)) } := by
  simp only [lruRemove, readNext, readPrev, writeNext, writePrev, isLive_links, live, beforeLive,
    afterLive, if_true, next, prev, Option.bind_eq_bind, Option.bind_some,
    Function.update_of_ne apart]

/-- The four writes of `LRU_Append`. -/
theorem lruAppend_eq {last : ListNode} (live : heap.isLive (.entry id) = true)
    (lastLive : heap.isLive last = true) (prev : heap.prev (.head list) = some (some last))
    (apart : ListNode.entry id ≠ last) :
    heap.lruAppend list id = some { heap with
      next := Function.update (Function.update heap.next (.entry id) (some (some (.head list))))
        last (some (some (.entry id)))
      prev := Function.update (Function.update heap.prev (.entry id) (some (some last)))
        (.head list) (some (some (.entry id))) } := by
  have headLive : heap.isLive (.head list) = true := rfl
  simp only [lruAppend, readNext, readPrev, writeNext, writePrev, isLive_links, live, lastLive,
    headLive, if_true, prev, Option.bind_eq_bind, Option.bind_some, Function.update_self,
    Function.update_of_ne apart]

/-- `LRU_Remove` takes a handle out of its ring. -/
theorem lruRemove_rings (rings : Rings heap cells) (member : id ∈ cells list) :
    ∃ next prev, heap.lruRemove id = some { heap with next := next, prev := prev } ∧
      Rings { heap with next := next, prev := prev } (removed cells id) ∧
      next (.entry id) = heap.next (.entry id) ∧
      ∀ node, node ∉ nodes cells list → next node = heap.next node := by
  obtain ⟨front, back, split⟩ := List.append_of_mem member
  have ring := rings.ring list
  have nodup := rings.nodup list
  rw [split] at nodup
  rw [split, List.map_append, List.map_cons] at ring
  have distinct : id ∉ front ++ back := (List.nodup_cons.mp (List.nodup_middle.mp nodup)).1
  have frontWithin : front ⊆ cells list := by
    rw [split]
    exact List.subset_append_left _ _
  have backWithin : back.reverse ⊆ cells list := by
    rw [split]
    intro other present
    simp only [List.mem_reverse, List.mem_append, List.mem_cons] at present ⊢
    exact .inr (.inr present)
  have before := lastNode_nodes frontWithin
  have after := lastNode_nodes backWithin
  have next := ring.next_cell
  have prev := ring.prev_cell
  have shorter := ring.remove
  rw [← List.map_reverse] at next shorter
  have entryBefore : ListNode.entry id ≠ lastNode (.head list) (front.map ListNode.entry) := by
    intro same
    have reached := @lastNode_mem _ (ListNode.head list) (front.map ListNode.entry)
    rw [← same] at reached
    exact distinct (List.mem_append_left _ (by simpa using reached))
  have entryAfter : ListNode.entry id ≠
      lastNode (.head list) (back.reverse.map ListNode.entry) := by
    intro same
    have reached := @lastNode_mem _ (ListNode.head list) (back.reverse.map ListNode.entry)
    rw [← same] at reached
    exact distinct (List.mem_append_right _ (by simpa using reached))
  refine ⟨_, _, lruRemove_eq (rings.live list id member) (rings.nodes_live before)
    (rings.nodes_live after) next prev entryAfter, ⟨?_, ?_, ?_⟩, ?_, ?_⟩
  · intro other
    by_cases same : other = list
    · subst same
      have erased : removed cells id other = front ++ back := by
        rw [removed, split, List.erase_append_right _ (fun present =>
          distinct (List.mem_append_left _ present)), List.erase_cons_head]
      rw [erased, List.map_append]
      exact shorter
    · rw [removed, List.erase_of_not_mem (rings.apart list other (Ne.symm same) id member)]
      refine rings.frame (fun node outside => ⟨?_, ?_⟩) same
      · exact Function.update_of_ne (ne_of_outside before outside) _ _
      · exact Function.update_of_ne (ne_of_outside after outside) _ _
  · intro left right differ other present again
    exact rings.apart left right differ other (rings.mem_removed.mp present).1
      (rings.mem_removed.mp again).1
  · intro other otherId present
    exact rings.live other otherId (rings.mem_removed.mp present).1
  · exact Function.update_of_ne entryBefore _ _
  · intro node outside
    exact Function.update_of_ne (ne_of_outside before outside) _ _

/-- Handles keep their names where only the pointers of listed handles are written. -/
theorem Rings.named_of_frame {heap' : Heap Value Deleter} (rings : Rings heap' cells)
    (frame : ∀ other, (∀ at_, other ∉ cells at_) →
      heap'.next (.entry other) = heap.next (.entry other)) {other : HandleId}
    (named : Named heap other) : Named heap' other := by
  by_cases listed : ∃ at_, other ∈ cells at_
  · obtain ⟨at_, member⟩ := listed
    exact rings.named member
  · exact named.congr (frame other (not_exists.mp listed))

/-- `LRU_Remove`, of a handle in one of the lists. -/
theorem lruRemove_spec (rings : Rings heap cells) (member : id ∈ cells list) :
    ∃ next prev, heap.lruRemove id = some { heap with next := next, prev := prev } ∧
      Rings { heap with next := next, prev := prev } (removed cells id) ∧
      ∀ other, Named heap other → Named { heap with next := next, prev := prev } other := by
  obtain ⟨next, prev, ran, shrunk, own, frame⟩ := lruRemove_rings rings member
  refine ⟨next, prev, ran, shrunk, fun other named => shrunk.named_of_frame ?_ named⟩
  intro unlisted outside
  by_cases same : unlisted = id
  · rw [same]
    exact own
  · refine frame _ fun present => outside list (rings.mem_removed.mpr ⟨?_, same⟩)
    simpa [nodes] using present

/-- `LRU_Append` puts a handle at the end of a ring. -/
theorem lruAppend_rings (rings : Rings heap cells) (list : CacheList)
    (live : heap.isLive (.entry id) = true) (unlisted : ∀ at_, id ∉ cells at_) :
    ∃ next prev, heap.lruAppend list id = some { heap with next := next, prev := prev } ∧
      Rings { heap with next := next, prev := prev } (appended cells list id) ∧
      ∀ node, node ≠ .entry id → node ∉ nodes cells list → next node = heap.next node := by
  have ring := rings.ring list
  have last : lastNode (.head list) ((cells list).map ListNode.entry) ∈ nodes cells list :=
    lastNode_mem
  have fresh : ListNode.entry id ∉ .head list :: (cells list).map .entry := by
    simpa using unlisted list
  have apart : ListNode.entry id ≠ lastNode (.head list) ((cells list).map ListNode.entry) := by
    intro same
    exact fresh (same ▸ last)
  have longer := ring.append fresh
  refine ⟨_, _, lruAppend_eq live (rings.nodes_live last) ring.prev_head apart,
    ⟨?_, ?_, ?_⟩, ?_⟩
  · intro other
    by_cases same : other = list
    · subst same
      rw [appended, Function.update_self, List.map_append]
      exact longer
    · rw [appended, Function.update_of_ne same]
      refine (rings.ring other).congr fun node member => ⟨?_, ?_⟩
      · have notLast : node ≠ lastNode (.head list) ((cells list).map ListNode.entry) :=
          rings.nodes_apart same member last
        have notEntry : node ≠ .entry id := by
          rintro rfl
          exact unlisted other (by simpa using member)
        exact (Function.update_of_ne notLast _ _).trans (Function.update_of_ne notEntry _ _)
      · have notHead : node ≠ .head list :=
          rings.nodes_apart same member List.mem_cons_self
        have notEntry : node ≠ .entry id := by
          rintro rfl
          exact unlisted other (by simpa using member)
        exact (Function.update_of_ne notHead _ _).trans (Function.update_of_ne notEntry _ _)
  · intro left right differ other present again
    rcases mem_appended.mp present with old | ⟨here, rfl⟩
    · rcases mem_appended.mp again with older | ⟨there, rfl⟩
      · exact rings.apart left right differ other old older
      · exact unlisted left old
    · rcases mem_appended.mp again with older | ⟨there, -⟩
      · exact unlisted right older
      · exact differ (here.trans there.symm)
  · intro other otherId present
    rcases mem_appended.mp present with old | ⟨-, rfl⟩
    · exact rings.live other otherId old
    · exact live
  · intro node notEntry outside
    exact (Function.update_of_ne (ne_of_outside last outside) _ _).trans
      (Function.update_of_ne notEntry _ _)

/-- `LRU_Append`, of a handle in none of the lists. -/
theorem lruAppend_spec (rings : Rings heap cells) (list : CacheList)
    (live : heap.isLive (.entry id) = true) (unlisted : ∀ at_, id ∉ cells at_) :
    ∃ next prev, heap.lruAppend list id = some { heap with next := next, prev := prev } ∧
      Rings { heap with next := next, prev := prev } (appended cells list id) ∧
      Named { heap with next := next, prev := prev } id ∧
      ∀ other, Named heap other → Named { heap with next := next, prev := prev } other := by
  obtain ⟨next, prev, ran, grown, frame⟩ := lruAppend_rings rings list live unlisted
  refine ⟨next, prev, ran, grown, grown.named (mem_appended.mpr (.inr ⟨rfl, rfl⟩)),
    fun other named => grown.named_of_frame ?_ named⟩
  intro other outside
  refine frame _ ?_ fun present => outside list (mem_appended.mpr (.inl ?_))
  · intro same
    cases same
    exact outside list (mem_appended.mpr (.inr ⟨rfl, rfl⟩))
  · simpa [nodes] using present

/-- Moving a handle from the list it is in to the end of a list. -/
theorem move_spec (rings : Rings heap cells) (member : id ∈ cells list) (target : CacheList) :
    ∃ next prev, (heap.lruRemove id).bind (lruAppend target id) =
        some { heap with next := next, prev := prev } ∧
      Rings { heap with next := next, prev := prev } (appended (removed cells id) target id) ∧
      ∀ other, Named heap other → Named { heap with next := next, prev := prev } other := by
  obtain ⟨next, prev, removing, shrunk, named⟩ := lruRemove_spec rings member
  have unlisted : ∀ at_, id ∉ removed cells id at_ := fun at_ present =>
    (rings.mem_removed.mp present).2 rfl
  obtain ⟨lastNext, lastPrev, appending, grown, -, lastNamed⟩ :=
    lruAppend_spec shrunk target (by rw [isLive_links]; exact rings.live list id member) unlisted
  refine ⟨lastNext, lastPrev, ?_, grown, fun other was => lastNamed other (named other was)⟩
  rw [removing, Option.bind_some, appending]

end Heap

end MiniLevelDb
