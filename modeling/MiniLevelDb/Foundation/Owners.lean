import Mathlib.Logic.Function.Basic
import Mathlib.Logic.Equiv.Basic

/-!
# Blocks and their owners

Blocks of memory that are allocated and freed, and objects with a pointer each, null or to
a block. Every block has one owner.
-/

namespace Foundation

variable {Owner Address Block : Type}

/-- Pointers lead to blocks, no two to one block, and every block has a pointer to it. -/
structure Owned (blocks : Address → Option Block) (pointer : Owner → Option Address) : Prop where
  live : ∀ {owner address}, pointer owner = some address → blocks address ≠ none
  unique : ∀ {first second address}, pointer first = some address →
    pointer second = some address → first = second
  reached : ∀ {address}, blocks address ≠ none → ∃ owner, pointer owner = some address

namespace Owned

variable {blocks : Address → Option Block} {pointer : Owner → Option Address}
  {owner : Owner} {address : Address}

/-- The owners change places. -/
theorem permute (owned : Owned blocks pointer) (places : Equiv.Perm Owner) :
    Owned blocks fun owner => pointer (places owner) where
  live := owned.live
  unique := fun first second => places.injective (owned.unique first second)
  reached := fun live => by
    obtain ⟨owner, points⟩ := owned.reached live
    exact ⟨places.symm owner, by rw [places.apply_symm_apply, points]⟩

variable [DecidableEq Address] [DecidableEq Owner]

/-- A new block for an owner that has none. -/
theorem allocate (owned : Owned blocks pointer) (free : blocks address = none)
    (null : pointer owner = none) (block : Block) :
    Owned (Function.update blocks address (some block))
      (Function.update pointer owner (some address)) := by
  have apart : ∀ other, pointer other ≠ some address := fun other points => owned.live points free
  refine ⟨?_, ?_, ?_⟩
  · intro other place points
    by_cases same : place = address
    · subst same
      rw [Function.update_self]
      exact Option.some_ne_none _
    · rw [Function.update_of_ne same]
      by_cases here : other = owner
      · subst here
        rw [Function.update_self] at points
        exact absurd (Option.some.inj points).symm same
      · rw [Function.update_of_ne here] at points
        exact owned.live points
  · intro first second place left right
    by_cases firstHere : first = owner
    · by_cases secondHere : second = owner
      · rw [firstHere, secondHere]
      · subst firstHere
        rw [Function.update_self] at left
        rw [Function.update_of_ne secondHere, ← Option.some.inj left] at right
        exact absurd right (apart second)
    · rw [Function.update_of_ne firstHere] at left
      by_cases secondHere : second = owner
      · subst secondHere
        rw [Function.update_self] at right
        rw [← Option.some.inj right] at left
        exact absurd left (apart first)
      · rw [Function.update_of_ne secondHere] at right
        exact owned.unique left right
  · intro place live
    by_cases same : place = address
    · subst same
      exact ⟨owner, Function.update_self _ _ _⟩
    · rw [Function.update_of_ne same] at live
      obtain ⟨other, points⟩ := owned.reached live
      refine ⟨other, ?_⟩
      rw [Function.update_of_ne]
      · exact points
      · rintro rfl
        rw [null] at points
        cases points

/-- An owner frees its block. -/
theorem free (owned : Owned blocks pointer) (points : pointer owner = some address) :
    Owned (Function.update blocks address none) (Function.update pointer owner none) := by
  have others : ∀ {other place}, Function.update pointer owner none other = some place →
      other ≠ owner ∧ pointer other = some place := by
    intro other place points
    by_cases here : other = owner
    · subst here
      rw [Function.update_self] at points
      cases points
    · rw [Function.update_of_ne here] at points
      exact ⟨here, points⟩
  refine ⟨?_, ?_, ?_⟩
  · intro other place also
    obtain ⟨differ, also⟩ := others also
    rw [Function.update_of_ne]
    · exact owned.live also
    · rintro rfl
      exact differ (owned.unique also points)
  · intro first second place left right
    exact owned.unique (others left).2 (others right).2
  · intro place live
    by_cases same : place = address
    · subst same
      rw [Function.update_self] at live
      exact absurd rfl live
    · rw [Function.update_of_ne same] at live
      obtain ⟨other, also⟩ := owned.reached live
      refine ⟨other, ?_⟩
      rw [Function.update_of_ne]
      · exact also
      · rintro rfl
        exact same (Option.some.inj (also.symm.trans points))

end Owned

/-- Every block is in the list of one owner, at one place. -/
structure Divided (blocks : Address → Option Block) (owned : Owner → List Address) : Prop where
  nodup : ∀ owner, (owned owner).Nodup
  apart : ∀ {first second address}, address ∈ owned first → address ∈ owned second →
    first = second
  live : ∀ address, blocks address ≠ none ↔ ∃ owner, address ∈ owned owner

namespace Divided

variable {blocks : Address → Option Block} {owned : Owner → List Address} {owner : Owner}
  {address : Address} {rest : List Address} [DecidableEq Address] [DecidableEq Owner]

/-- A new block becomes the first one of an owner. -/
theorem cons (divided : Divided blocks owned) (free : blocks address = none) (owner : Owner)
    (block : Block) :
    Divided (Function.update blocks address (some block))
      (Function.update owned owner (address :: owned owner)) := by
  have unowned : ∀ other, address ∉ owned other := fun other member =>
    (divided.live address).mpr ⟨other, member⟩ free
  have members : ∀ {other place},
      place ∈ Function.update owned owner (address :: owned owner) other ↔
        place ∈ owned other ∨ place = address ∧ other = owner := by
    intro other place
    by_cases here : other = owner
    · subst here
      rw [Function.update_self, List.mem_cons, or_comm, and_iff_left rfl]
    · rw [Function.update_of_ne here]
      exact ⟨.inl, fun either => either.resolve_right fun both => here both.2⟩
  refine ⟨?_, ?_, ?_⟩
  · intro other
    by_cases here : other = owner
    · subst here
      rw [Function.update_self]
      exact List.nodup_cons.mpr ⟨unowned other, divided.nodup other⟩
    · rw [Function.update_of_ne here]
      exact divided.nodup other
  · intro first second place left right
    rcases members.mp left with left | ⟨same, firstHere⟩
    · rcases members.mp right with right | ⟨same, -⟩
      · exact divided.apart left right
      · exact absurd (same ▸ left) (unowned first)
    · rcases members.mp right with right | ⟨-, secondHere⟩
      · exact absurd (same ▸ right) (unowned second)
      · exact firstHere.trans secondHere.symm
  · intro place
    by_cases same : place = address
    · subst same
      rw [Function.update_self]
      exact ⟨fun _ => ⟨owner, members.mpr (.inr ⟨rfl, rfl⟩)⟩, fun _ => Option.some_ne_none _⟩
    · rw [Function.update_of_ne same, divided.live place]
      refine exists_congr fun other => ?_
      rw [members]
      exact ⟨.inl, fun either => either.resolve_right fun both => same both.1⟩

/-- The first block of an owner is freed. -/
theorem tail (divided : Divided blocks owned) (first : owned owner = address :: rest) :
    Divided (Function.update blocks address none) (Function.update owned owner rest) := by
  have here : address ∈ owned owner := by
    rw [first]
    exact List.mem_cons_self
  have alone : address ∉ rest ∧ rest.Nodup := by
    rw [← List.nodup_cons, ← first]
    exact divided.nodup owner
  have members : ∀ {other place}, place ∈ Function.update owned owner rest other ↔
      place ∈ owned other ∧ place ≠ address := by
    intro other place
    by_cases same : other = owner
    · subst same
      rw [Function.update_self, first, List.mem_cons]
      constructor
      · intro member
        exact ⟨.inr member, fun equal => alone.1 (equal ▸ member)⟩
      · intro both
        exact both.1.resolve_left both.2
    · rw [Function.update_of_ne same]
      exact ⟨fun member => ⟨member, fun equal => same (divided.apart member (equal ▸ here))⟩,
        And.left⟩
  refine ⟨?_, ?_, ?_⟩
  · intro other
    by_cases same : other = owner
    · subst same
      rw [Function.update_self]
      exact alone.2
    · rw [Function.update_of_ne same]
      exact divided.nodup other
  · intro first second place left right
    exact divided.apart (members.mp left).1 (members.mp right).1
  · intro place
    by_cases same : place = address
    · subst same
      rw [Function.update_self]
      constructor
      · intro live
        exact absurd rfl live
      · rintro ⟨other, member⟩
        exact absurd rfl (members.mp member).2
    · rw [Function.update_of_ne same, divided.live place]
      refine exists_congr fun other => ?_
      rw [members, and_iff_left same]

end Divided

end Foundation
