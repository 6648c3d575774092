import Mathlib.Data.List.Perm.Basic
import Mathlib.Tactic.ByContra

/-!
# Three-way comparisons

A comparison function that answers with an integer is a total preorder read
through the sign of the answer. Nothing is assumed about its magnitude. Two keys
that compare as zero need not be equal; `ThreeWay.Lawful` adds that they are.
-/

namespace Foundation

variable {Key Other : Type}

/-- The sign of `compare` is a total preorder. -/
structure ThreeWay (compare : Key → Key → Int) : Prop where
  swap : ∀ left right, compare left right < 0 ↔ 0 < compare right left
  trans : ∀ left middle right, compare left middle ≤ 0 → compare middle right ≤ 0 →
    compare left right ≤ 0

namespace ThreeWay

/-- A comparison that vanishes exactly on equal keys. -/
structure Lawful (compare : Key → Key → Int) : Prop extends ThreeWay compare where
  eq_of_zero : ∀ left right, compare left right = 0 → left = right

variable {compare : Key → Key → Int} (order : ThreeWay compare)
include order

theorem refl (key : Key) : compare key key = 0 := by
  have := order.swap key key
  omega

theorem zero_comm {left right : Key} : compare left right = 0 ↔ compare right left = 0 := by
  have forward := order.swap left right
  have backward := order.swap right left
  omega

/-- Keys that compare as zero are interchangeable. -/
theorem equivalence : Equivalence fun left right => compare left right = 0 where
  refl key := order.refl key
  symm := order.zero_comm.mp
  trans {left middle right} first second := by
    have forward := order.trans left middle right (Int.le_of_eq first) (Int.le_of_eq second)
    have backward := order.trans right middle left
      (Int.le_of_eq (order.zero_comm.mp second)) (Int.le_of_eq (order.zero_comm.mp first))
    have := order.swap left right
    omega

theorem le_iff_not_lt {left right : Key} : compare left right ≤ 0 ↔ ¬ compare right left < 0 := by
  have := order.swap right left
  omega

theorem lt_of_lt_of_le {left middle right : Key} (first : compare left middle < 0)
    (second : compare middle right ≤ 0) : compare left right < 0 := by
  by_contra above
  have back : compare right left ≤ 0 := order.le_iff_not_lt.mpr above
  have := order.trans _ _ _ second back
  have := (order.swap left middle).mp first
  omega

theorem lt_trans {left middle right : Key} (first : compare left middle < 0)
    (second : compare middle right < 0) : compare left right < 0 :=
  order.lt_of_lt_of_le first (Int.le_of_lt second)

/-- A list in increasing order falls into what comes before a key and what does not. -/
theorem split_increasing {items : List Other} {project : Other → Key}
    (increasing : items.Pairwise fun left right => compare (project left) (project right) < 0)
    (key : Key) :
    ∃ front back, items = front ++ back ∧ (∀ item ∈ front, compare (project item) key < 0) ∧
      ∀ item ∈ back, ¬ compare (project item) key < 0 := by
  induction items with
  | nil => exact ⟨[], [], rfl, by simp, by simp⟩
  | cons item rest ih =>
      obtain ⟨above, increasing⟩ := List.pairwise_cons.mp increasing
      by_cases below : compare (project item) key < 0
      · obtain ⟨front, back, rfl, before, beyond⟩ := ih increasing
        exact ⟨item :: front, back, rfl, List.forall_mem_cons.mpr ⟨below, before⟩, beyond⟩
      · refine ⟨[], item :: rest, rfl, by simp, List.forall_mem_cons.mpr ⟨below, ?_⟩⟩
        intro later member before
        exact below (order.lt_trans (above later member) before)

/-- An item whose key equals none fits in between. -/
theorem insert_increasing {front back : List Other} {project : Other → Key} {item : Other}
    (increasing : (front ++ back).Pairwise fun left right =>
      compare (project left) (project right) < 0)
    (below : ∀ other ∈ front, compare (project other) (project item) < 0)
    (beyond : ∀ other ∈ back, ¬ compare (project other) (project item) < 0)
    (distinct : ∀ other ∈ back, compare (project item) (project other) ≠ 0) :
    (front ++ item :: back).Pairwise fun left right =>
      compare (project left) (project right) < 0 := by
  obtain ⟨frontOrdered, backOrdered, across⟩ := List.pairwise_append.mp increasing
  refine List.pairwise_append.mpr ⟨frontOrdered, List.pairwise_cons.mpr ⟨?_, backOrdered⟩, ?_⟩
  · intro other member
    have := order.le_iff_not_lt.mpr (beyond other member)
    have := distinct other member
    omega
  · intro left before right member
    rcases List.mem_cons.mp member with rfl | after
    · exact below left before
    · exact across left before right after

omit order in
/-- `found` is the least of the keys that `among` picks, and nothing if it picks none. -/
def Least (compare : Key → Key → Int) (keys : List Key) (among : Key → Prop) :
    Option Key → Prop
  | none => ∀ key ∈ keys, ¬ among key
  | some found => found ∈ keys ∧ among found ∧ ∀ key ∈ keys, among key → compare found key ≤ 0

/-- The greatest key is the least one of the comparison the other way round. -/
def Greatest (compare : Key → Key → Int) : List Key → (Key → Prop) → Option Key → Prop :=
  Least fun left right => compare right left

omit order in
theorem Least.perm {keys others : List Key} {among : Key → Prop} {found : Option Key}
    (least : Least compare keys among found) (perm : keys.Perm others) :
    Least compare others among found := by
  cases found with
  | none => exact fun key member => least key (perm.mem_iff.mpr member)
  | some found =>
      obtain ⟨member, picked, first⟩ := least
      exact ⟨perm.mem_iff.mp member, picked, fun key other => first key (perm.mem_iff.mpr other)⟩

/-- In increasing order the least key is the first one behind those not picked. -/
theorem least_of_split {front back : List Other} {project : Other → Key} {among : Key → Prop}
    (increasing : (front ++ back).Pairwise fun left right =>
      compare (project left) (project right) < 0)
    (passed : ∀ item ∈ front, ¬ among (project item))
    (picked : ∀ item ∈ back, among (project item)) :
    Least compare ((front ++ back).map project) among (back.head?.map project) := by
  cases back with
  | nil =>
      intro key member
      obtain ⟨item, listed, rfl⟩ := List.mem_map.mp member
      exact passed item (by simpa using listed)
  | cons first rest =>
      refine ⟨List.mem_map_of_mem (by simp), picked first List.mem_cons_self, ?_⟩
      intro key member chosen
      obtain ⟨item, listed, rfl⟩ := List.mem_map.mp member
      rcases List.mem_append.mp listed with before | behind
      · exact absurd chosen (passed item before)
      · rcases List.mem_cons.mp behind with rfl | later
        · exact Int.le_of_eq (order.refl _)
        · have ordered := (List.pairwise_append.mp increasing).2.1
          exact Int.le_of_lt ((List.pairwise_cons.mp ordered).1 item later)

omit order in
theorem reversed (order : ThreeWay compare) : ThreeWay fun left right => compare right left where
  swap left right := order.swap right left
  trans _ _ _ := fun first second => order.trans _ _ _ second first

/-- In increasing order the greatest key is the last one before those not picked. -/
theorem greatest_of_split {front back : List Other} {project : Other → Key}
    {among : Key → Prop}
    (increasing : (front ++ back).Pairwise fun left right =>
      compare (project left) (project right) < 0)
    (picked : ∀ item ∈ front, among (project item))
    (passed : ∀ item ∈ back, ¬ among (project item)) :
    Greatest compare ((front ++ back).map project) among (front.getLast?.map project) := by
  have backwards : (back.reverse ++ front.reverse).Pairwise fun left right =>
      compare (project right) (project left) < 0 := by
    rw [← List.reverse_append]
    exact List.pairwise_reverse.mpr increasing
  have least := order.reversed.least_of_split backwards
    (fun item member => passed item (List.mem_reverse.mp member))
    (fun item member => picked item (List.mem_reverse.mp member))
  rw [List.head?_reverse, ← List.reverse_append] at least
  exact least.perm ((List.reverse_perm _).map project)

omit order in
/-- A comparison of keys compares whatever the keys are computed from. -/
theorem comap {project : Other → Key} (order : ThreeWay compare) :
    ThreeWay fun left right => compare (project left) (project right) where
  swap _ _ := order.swap _ _
  trans _ _ _ := order.trans _ _ _

/-- Breaking the ties of one comparison by another is a comparison again. -/
theorem thenBy {second : Key → Key → Int} (tie : ThreeWay second) :
    ThreeWay fun left right =>
      if compare left right = 0 then second left right else compare left right where
  swap left right := by
    have := order.swap left right
    have ties : compare left right = 0 ↔ compare right left = 0 := order.zero_comm
    have := tie.swap left right
    split <;> split <;> omega
  trans left middle right := by
    intro first next
    by_cases ties : compare left right = 0
    · rw [if_pos ties]
      -- a cycle of the first comparison leaves only ties on the way
      have back : compare right left ≤ 0 := Int.le_of_eq (order.zero_comm.mp ties)
      have one : compare left middle ≤ 0 := by
        split at first <;> omega
      have two : compare middle right ≤ 0 := by
        split at next <;> omega
      have oneBack := order.trans _ _ _ two back
      have twoBack := order.trans _ _ _ back one
      have := order.le_iff_not_lt.mp oneBack
      have := order.le_iff_not_lt.mp twoBack
      have left_zero : compare left middle = 0 := by omega
      have right_zero : compare middle right = 0 := by omega
      rw [if_pos left_zero] at first
      rw [if_pos right_zero] at next
      exact tie.trans _ _ _ first next
    · rw [if_neg ties]
      apply order.trans left middle right
      · split at first <;> omega
      · split at next <;> omega

omit order in
/-- The descending order of numbers, as a comparison. -/
theorem descending : ThreeWay fun left right : Nat =>
    if left > right then -1 else if left < right then (1 : Int) else 0 where
  swap left right := by split <;> split <;> omega
  trans left middle right := by
    intro first second
    split at first <;> split at second <;> split <;> omega

end ThreeWay

end Foundation
