import Mathlib.Data.List.Basic

/-!
# Flat memory

A memory has a cell at every address. A run of cells is loaded and stored as a list; what a
store leaves is known inside the run it writes and unchanged outside.
-/

namespace Foundation

variable {Cell : Type}

/-- What lies at each address. -/
abbrev Memory (Cell : Type) := Nat → Cell

namespace Memory

variable {memory : Memory Cell} {address place size : Nat} {data before middle behind : List Cell}

def load (memory : Memory Cell) (address size : Nat) : List Cell :=
  (List.range size).map fun index => memory (address + index)

def store (memory : Memory Cell) (address : Nat) (data : List Cell) : Memory Cell :=
  fun place => if address ≤ place then data[place - address]?.getD (memory place) else memory place

@[simp] theorem length_load (memory : Memory Cell) (address size : Nat) :
    (memory.load address size).length = size := by
  rw [load, List.length_map, List.length_range]

theorem load_add (memory : Memory Cell) (address first second : Nat) :
    memory.load address (first + second) =
      memory.load address first ++ memory.load (address + first) second := by
  rw [load, List.range_add, List.map_append, List.map_map]
  simp only [load, Function.comp_def, Nat.add_assoc]

theorem store_of_lt (outside : place < address) : memory.store address data place = memory place :=
  if_neg (Nat.not_le.mpr outside)

theorem store_of_le (outside : address + data.length ≤ place) :
    memory.store address data place = memory place := by
  rw [store, if_pos (by omega), List.getElem?_eq_none (by omega), Option.getD_none]

theorem store_add (inside : place < data.length) :
    memory.store address data (address + place) = data[place] := by
  rw [store, if_pos (Nat.le_add_right _ _), Nat.add_sub_cancel_left,
    List.getElem?_eq_getElem inside, Option.getD_some]

/-- What was stored is loaded again. -/
theorem load_store_self : (memory.store address data).load address data.length = data := by
  apply List.ext_getElem (length_load _ _ _)
  intro index _ inside
  simp only [load, List.getElem_map, List.getElem_range]
  exact store_add inside

/-- A store changes nothing in a run that is apart from what it writes. -/
theorem load_store_of_apart
    (apart : place + size ≤ address ∨ address + data.length ≤ place) :
    (memory.store address data).load place size = memory.load place size := by
  apply List.map_congr_left
  intro index inside
  rw [List.mem_range] at inside
  rcases apart with before | behind
  · exact store_of_lt (by omega)
  · exact store_of_le (by omega)

/-- Two stores, one right behind the other, are one. -/
theorem store_append (memory : Memory Cell) (address : Nat) (first second : List Cell) :
    (memory.store address first).store (address + first.length) second =
      memory.store address (first ++ second) := by
  funext place
  unfold store
  by_cases inside : address ≤ place
  · rw [if_pos inside, if_pos inside]
    by_cases early : place - address < first.length
    · rw [if_neg (by omega), List.getElem?_append_left early]
    · have past : first[place - address]? = none := List.getElem?_eq_none (by omega)
      rw [if_pos (by omega), List.getElem?_append_right (by omega), past, Option.getD_none,
        Nat.sub_add_eq]
  · rw [if_neg inside, if_neg inside, if_neg (by omega)]

/-- A part of a run whose cells are known. -/
theorem load_middle
    (whole : memory.load address (before ++ (middle ++ behind)).length =
      before ++ (middle ++ behind)) :
    memory.load (address + before.length) middle.length = middle := by
  rw [List.length_append, List.length_append, load_add, load_add] at whole
  have inner := (List.append_inj whole (length_load _ _ _)).2
  exact (List.append_inj inner (length_load _ _ _)).1

end Memory

end Foundation
