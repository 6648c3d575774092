import Mathlib.Data.List.Basic
import Mathlib.Data.List.Nodup

/-!
# Singly linked chains

A chain hangs from a slot that holds a pointer. A slot that cannot be read answers
`none`, a null pointer is `some none`, and `after cell` is the slot inside `cell`
that holds its successor. A segment ends where a slot holds a given pointer; as long
as it passes no slot twice, splicing a cell in or out is a matter of one slot. A
chain is a segment that ends in null, and such a one cannot pass a slot twice.
-/

namespace Foundation

variable {Slot Cell : Type}

/-- Following the pointers from `slot` passes exactly `cells` and then meets `stop`. -/
def Segment (read : Slot → Option (Option Cell)) (after : Cell → Slot) (stop : Option Cell) :
    Slot → List Cell → Prop
  | slot, [] => read slot = some stop
  | slot, cell :: rest => read slot = some (some cell) ∧ Segment read after stop (after cell) rest

/-- A segment that ends in null. -/
abbrev Chain (read : Slot → Option (Option Cell)) (after : Cell → Slot) :
    Slot → List Cell → Prop :=
  Segment read after none

/-- The slot behind the last of `cells`. -/
def endSlot (after : Cell → Slot) : Slot → List Cell → Slot
  | slot, [] => slot
  | _, cell :: rest => endSlot after (after cell) rest

theorem endSlot_append {after : Cell → Slot} {slot : Slot} {front back : List Cell} :
    endSlot after slot (front ++ back) = endSlot after (endSlot after slot front) back := by
  induction front generalizing slot with
  | nil => rfl
  | cons cell rest ih => exact ih

theorem endSlot_mem {after : Cell → Slot} {slot : Slot} {cells : List Cell} :
    endSlot after slot cells ∈ slot :: cells.map after := by
  induction cells generalizing slot with
  | nil => exact List.mem_cons_self
  | cons cell rest ih => exact List.mem_cons_of_mem _ ih

/-- Every slot that is passed is behind some of the cells. -/
theorem exists_endSlot {after : Cell → Slot} {slot place : Slot} {cells : List Cell}
    (passed : place ∈ slot :: cells.map after) :
    ∃ front back, cells = front ++ back ∧ endSlot after slot front = place := by
  induction cells generalizing slot with
  | nil => exact ⟨[], [], rfl, (List.mem_singleton.mp passed).symm⟩
  | cons cell rest ih =>
      rcases List.mem_cons.mp passed with rfl | later
      · exact ⟨[], cell :: rest, rfl, rfl⟩
      · obtain ⟨front, back, rfl, ended⟩ := ih later
        exact ⟨cell :: front, back, rfl, ended⟩

namespace Segment

variable {read read' : Slot → Option (Option Cell)} {after : Cell → Slot} {stop : Option Cell}
  {slot : Slot} {cells front back : List Cell} {cell : Cell}

theorem read_head (segment : Segment read after stop slot cells) :
    read slot = some (cells.head?.or stop) := by
  cases cells with
  | nil => exact segment
  | cons cell rest => exact segment.1

theorem drop (segment : Segment read after stop slot (front ++ back)) :
    Segment read after stop (endSlot after slot front) back := by
  induction front generalizing slot with
  | nil => exact segment
  | cons cell rest ih => exact ih segment.2

/-- A segment only depends on the slots it passes. -/
theorem congr (segment : Segment read after stop slot cells)
    (agree : ∀ other ∈ slot :: cells.map after, read' other = read other) :
    Segment read' after stop slot cells := by
  induction cells generalizing slot with
  | nil => exact (agree slot List.mem_cons_self).trans segment
  | cons cell rest ih =>
      refine ⟨(agree slot List.mem_cons_self).trans segment.1, ih segment.2 fun other passed => ?_⟩
      exact agree other (List.mem_cons_of_mem _ passed)

theorem endSlot_ne_start (nodup : (slot :: (cell :: front ++ back).map after).Nodup) :
    endSlot after (after cell) front ≠ slot := by
  intro same
  apply (List.nodup_cons.mp nodup).1
  have reached : endSlot after (after cell) front ∈ (cell :: front).map after := endSlot_mem
  rw [List.map_append]
  exact List.mem_append_left _ (same ▸ reached)

/-- Two writes splice `cell` in behind `front`: the cell takes over the pointer of
the slot there, and the slot then points to the cell. -/
theorem insert (segment : Segment read after stop slot (front ++ back))
    (nodup : (slot :: (front ++ back).map after).Nodup)
    (fresh : after cell ∉ slot :: (front ++ back).map after)
    (linked : read' (endSlot after slot front) = some (some cell))
    (next : read' (after cell) = read (endSlot after slot front))
    (frame : ∀ other, other ≠ endSlot after slot front → other ≠ after cell →
      read' other = read other) : Segment read' after stop slot (front ++ cell :: back) := by
  induction front generalizing slot with
  | nil =>
      refine ⟨linked, ?_⟩
      cases back with
      | nil => exact next.trans segment
      | cons first rest =>
          refine ⟨next.trans segment.1, segment.2.congr fun other passed => frame other ?_ ?_⟩
          · rintro rfl
            exact (List.nodup_cons.mp nodup).1 passed
          · rintro rfl
            exact fresh (List.mem_cons_of_mem _ passed)
  | cons first rest ih =>
      have apart : slot ≠ endSlot after (after first) rest := (endSlot_ne_start nodup).symm
      refine ⟨(frame slot apart fun same => fresh (same ▸ List.mem_cons_self)).trans segment.1, ?_⟩
      exact ih segment.2 (List.nodup_cons.mp nodup).2
        (fun member => fresh (List.mem_cons_of_mem _ member)) linked next frame

/-- One write takes the cell behind `front` out: the slot there takes over the
cell's pointer. -/
theorem remove (segment : Segment read after stop slot (front ++ cell :: back))
    (nodup : (slot :: (front ++ cell :: back).map after).Nodup)
    (unlinked : read' (endSlot after slot front) = read (after cell))
    (frame : ∀ other, other ≠ endSlot after slot front → read' other = read other) :
    Segment read' after stop slot (front ++ back) := by
  induction front generalizing slot with
  | nil =>
      have later := segment.2
      cases back with
      | nil => exact unlinked.trans later
      | cons first rest =>
          refine ⟨unlinked.trans later.1, later.2.congr fun other passed => frame other ?_⟩
          rintro rfl
          exact (List.nodup_cons.mp nodup).1 (List.mem_cons_of_mem _ passed)
  | cons first rest ih =>
      have apart : slot ≠ endSlot after (after first) rest := (endSlot_ne_start nodup).symm
      exact ⟨(frame slot apart).trans segment.1,
        ih segment.2 (List.nodup_cons.mp nodup).2 unlinked frame⟩

end Segment

namespace Chain

variable {read read' : Slot → Option (Option Cell)} {after : Cell → Slot} {slot : Slot}
  {cells front back : List Cell} {cell : Cell}

theorem read_head (chain : Chain read after slot cells) : read slot = some cells.head? := by
  rw [Segment.read_head chain, Option.or_none]

/-- A slot starts at most one chain. -/
theorem unique {others : List Cell} (chain : Chain read after slot cells)
    (other : Chain read after slot others) : cells = others := by
  induction cells generalizing slot others with
  | nil =>
      have same := chain.read_head.symm.trans other.read_head
      cases others with
      | nil => rfl
      | cons cell rest => simp at same
  | cons cell rest ih =>
      have same := chain.read_head.symm.trans other.read_head
      cases others with
      | nil => simp at same
      | cons next others =>
          obtain rfl : cell = next := by simpa using same
          rw [ih chain.2 other.2]

/-- No slot of a chain is passed twice: the two visits would start the same chain. -/
theorem slots_nodup (chain : Chain read after slot cells) :
    (slot :: cells.map after).Nodup := by
  induction cells generalizing slot with
  | nil => simp
  | cons cell rest ih =>
      refine List.nodup_cons.mpr ⟨fun again => ?_, ih chain.2⟩
      obtain ⟨repeated, member, rfl⟩ := List.mem_map.mp again
      obtain ⟨front, back, split⟩ := List.append_of_mem member
      have later : Chain read after (after repeated) back := by
        have whole : Chain read after (after repeated) ((front ++ [repeated]) ++ back) := by
          rw [List.append_assoc, List.singleton_append, ← split]
          exact chain
        have ended := Segment.drop whole
        rwa [endSlot_append] at ended
      have lengths := congrArg List.length (chain.unique later)
      rw [split] at lengths
      simp only [List.length_append, List.length_cons] at lengths
      omega

end Chain

end Foundation
