import MiniLevelDb.Foundation.Chain
import Mathlib.Logic.Function.Basic

/-!
# Circular doubly linked lists

A ring starts and ends at a head that is not one of its cells. Read forwards it is a
segment of the `next` pointers from the head back to the head, read backwards one of
the `prev` pointers; both pass the same cells.
-/

namespace Foundation

variable {Node : Type}

/-- `cells` are the nodes between the head and the head again, in both directions. -/
structure Ring (next prev : Node → Option (Option Node)) (head : Node) (cells : List Node) :
    Prop where
  nodup : (head :: cells).Nodup
  forwards : Segment next id (some head) head cells
  backwards : Segment prev id (some head) head cells.reverse

/-- The last of the cells, or else the head. -/
def lastNode (head : Node) (cells : List Node) : Node := endSlot id head cells

theorem lastNode_mem {head : Node} {cells : List Node} : lastNode head cells ∈ head :: cells := by
  have reached : lastNode head cells ∈ head :: cells.map id := endSlot_mem
  rwa [List.map_id] at reached

namespace Ring

variable {next prev next' prev' : Node → Option (Option Node)} {head cell : Node}
  {cells front back : List Node}

theorem reverse (ring : Ring next prev head cells) : Ring prev next head cells.reverse where
  nodup := by
    obtain ⟨apart, nodup⟩ := List.nodup_cons.mp ring.nodup
    exact List.nodup_cons.mpr ⟨by simpa using apart, List.nodup_reverse.mpr nodup⟩
  forwards := ring.backwards
  backwards := by
    rw [List.reverse_reverse]
    exact ring.forwards

/-- The first of some cells, or else the head, is the last of them read backwards. -/
theorem lastNode_reverse : some (lastNode head cells.reverse) = cells.head?.or (some head) := by
  cases cells with
  | nil => rfl
  | cons cell rest =>
      rw [List.reverse_cons, lastNode, endSlot_append]
      rfl

/-- The successor of a cell. -/
theorem next_cell (ring : Ring next prev head (front ++ cell :: back)) :
    next cell = some (some (lastNode head back.reverse)) := by
  have segment := ring.forwards
  rw [List.append_cons] at segment
  have read := segment.drop.read_head
  rw [endSlot_append, ← lastNode_reverse] at read
  exact read

/-- The predecessor of a cell. -/
theorem prev_cell (ring : Ring next prev head (front ++ cell :: back)) :
    prev cell = some (some (lastNode head front)) := by
  have turned := ring.reverse
  rw [List.reverse_append, List.reverse_cons, List.append_assoc, List.singleton_append] at turned
  rw [turned.next_cell, List.reverse_reverse]

theorem prev_head (ring : Ring next prev head cells) :
    prev head = some (some (lastNode head cells)) := by
  have read := ring.backwards.read_head
  rw [← lastNode_reverse, List.reverse_reverse] at read
  exact read

theorem next_head (ring : Ring next prev head cells) :
    next head = some (some (lastNode head cells.reverse)) :=
  ring.reverse.prev_head

/-- A ring only depends on its own nodes. -/
theorem congr (ring : Ring next prev head cells)
    (agree : ∀ node ∈ head :: cells, next' node = next node ∧ prev' node = prev node) :
    Ring next' prev' head cells where
  nodup := ring.nodup
  forwards := by
    refine ring.forwards.congr fun node passed => (agree node ?_).1
    rwa [List.map_id] at passed
  backwards := by
    refine ring.backwards.congr fun node passed => (agree node ?_).2
    simpa using passed

section Splice

variable [DecidableEq Node]

/-- Unlinking a cell: its neighbours point past it. -/
theorem remove (ring : Ring next prev head (front ++ cell :: back)) :
    Ring
      (Function.update next (lastNode head front) (some (some (lastNode head back.reverse))))
      (Function.update prev (lastNode head back.reverse) (some (some (lastNode head front))))
      head (front ++ back) where
  nodup :=
    ring.nodup.sublist (((List.sublist_cons_self cell back).append_left front).cons_cons head)
  forwards := by
    refine ring.forwards.remove (by simpa using ring.nodup) ?_ fun other apart => ?_
    · exact (Function.update_self _ _ _).trans ring.next_cell.symm
    · exact Function.update_of_ne apart _ _
  backwards := by
    have turned := ring.reverse
    rw [List.reverse_append, List.reverse_cons, List.append_assoc,
      List.singleton_append] at turned
    rw [List.reverse_append]
    refine turned.forwards.remove (by simpa using turned.nodup) ?_ fun other apart => ?_
    · exact (Function.update_self _ _ _).trans ring.prev_cell.symm
    · exact Function.update_of_ne apart _ _

/-- Linking a new cell in before the head, behind all others. -/
theorem append (ring : Ring next prev head cells) (fresh : cell ∉ head :: cells) :
    Ring
      (Function.update (Function.update next cell (some (some head)))
        (lastNode head cells) (some (some cell)))
      (Function.update (Function.update prev cell (some (some (lastNode head cells))))
        head (some (some cell)))
      head (cells ++ [cell]) where
  nodup := by
    obtain ⟨outside, nodup⟩ := List.nodup_cons.mp ring.nodup
    simp only [List.mem_cons, not_or] at fresh
    refine List.nodup_cons.mpr ⟨?_, nodup.append (List.nodup_singleton _) ?_⟩
    · simpa using ⟨outside, Ne.symm fresh.1⟩
    · simpa using fresh.2
  forwards := by
    have lastApart : cell ≠ lastNode head cells := by
      rintro rfl
      exact fresh lastNode_mem
    have segment := ring.forwards
    rw [← List.append_nil cells] at segment
    refine segment.insert (by simpa using ring.nodup) (by simpa using fresh) ?_ ?_ ?_
    · exact Function.update_self _ _ _
    · show Function.update _ _ _ cell = _
      rw [Function.update_of_ne lastApart, Function.update_self]
      exact segment.drop.symm
    · intro other notLast notCell
      exact (Function.update_of_ne notLast _ _).trans (Function.update_of_ne notCell _ _)
  backwards := by
    have apart : cell ≠ head := fun same => fresh (same ▸ List.mem_cons_self)
    rw [List.reverse_append, List.reverse_singleton, List.singleton_append]
    have nodup := ring.reverse.nodup
    refine @Segment.insert _ _ _ _ _ _ _ [] cells.reverse cell ring.backwards
      (by simpa using nodup) (by simpa using fresh) ?_ ?_ ?_
    · exact Function.update_self _ _ _
    · show Function.update _ _ _ cell = _
      rw [Function.update_of_ne apart, Function.update_self]
      exact ring.prev_head.symm
    · intro other notHead notCell
      exact (Function.update_of_ne notHead _ _).trans (Function.update_of_ne notCell _ _)

end Splice

end Ring

end Foundation
