import Mathlib.Algebra.Ring.Nat
import Mathlib.Order.Basic
import Mathlib.Data.Nat.Basic
import Mathlib.Tactic.ByContra

/-!
# Byte strings

A `Slice` is the byte string it points at; its address plays no part in any
result. Bytes compare as unsigned numbers, so `<` on slices is the unsigned
lexicographic order in which a proper prefix comes first.
-/

namespace MiniLevelDb

/-- A `char` of the source, read as the unsigned byte it stores. -/
abbrev Byte := BitVec 8

/-- A byte string, `data_[0 .. size_)`. -/
abbrev Slice := List Byte

/-- The sign of `::memcmp(a, b, n)`; both strings hold at least `n` bytes. -/
def memcmp : Nat → Slice → Slice → Int
  | count + 1, left :: lefts, right :: rights =>
      if left < right then -1 else if right < left then 1 else memcmp count lefts rights
  | _, _, _ => 0

namespace Slice

/-- `operator==` on slices. -/
def beqSlice (left right : Slice) : Bool :=
  left.length == right.length && memcmp left.length left right == 0

/-- `Slice::compare`. -/
def compare (left right : Slice) : Int :=
  let minSize := if left.length > right.length then right.length else left.length
  let result := memcmp minSize left right
  if result = 0 then (if left.length < right.length then -1 else 1) else result

end Slice

/-- What `::memcmp` over the shorter length says of two byte strings: its sign
when they already differ there, and otherwise that one string extends the
other. -/
theorem memcmp_shorter (left right : Slice) :
    (memcmp (min left.length right.length) left right = -1 ∧ left < right) ∨
      (memcmp (min left.length right.length) left right = 1 ∧ right < left) ∨
      (memcmp (min left.length right.length) left right = 0 ∧
        (left <+: right ∨ right <+: left)) := by
  induction left generalizing right with
  | nil => exact .inr (.inr ⟨by simp [memcmp], .inl List.nil_prefix⟩)
  | cons head tail ih =>
      cases right with
      | nil => exact .inr (.inr ⟨by simp [memcmp], .inr List.nil_prefix⟩)
      | cons other rest =>
          have shorter : min (head :: tail).length (other :: rest).length =
              min tail.length rest.length + 1 := by
            simp only [List.length_cons, Nat.add_min_add_right]
          simp only [shorter, memcmp, List.cons_prefix_cons, List.cons_lt_cons_iff]
          rcases Nat.lt_trichotomy head.toNat other.toNat with less | same | greater
          · have less : head < other := less
            exact .inl ⟨if_pos less, .inl less⟩
          · obtain rfl : head = other := BitVec.eq_of_toNat_eq same
            simpa only [BitVec.lt_irrefl, ↓reduceIte, true_and, false_or] using ih rest
          · have greater : other < head := greater
            have above : ¬ head < other := BitVec.not_lt.mpr (BitVec.le_of_lt greater)
            exact .inr (.inl ⟨by rw [if_neg above, if_pos greater], .inl greater⟩)

/-- A proper prefix comes first. -/
theorem lt_of_isPrefix {left right : Slice} (extends_ : left <+: right)
    (shorter : left.length < right.length) : left < right := by
  obtain ⟨rest, rfl⟩ := extends_
  cases rest with
  | nil => simp at shorter
  | cons head tail =>
      induction left with
      | nil => exact List.nil_lt_cons _ _
      | cons first others ih =>
          rw [List.cons_append, List.cons_lt_cons_iff]
          exact .inr ⟨rfl, ih (by simp)⟩

namespace Slice

/-- `operator==` is equality of byte strings. -/
theorem beqSlice_iff (left right : Slice) : beqSlice left right = true ↔ left = right := by
  simp only [beqSlice, Bool.and_eq_true, beq_iff_eq]
  constructor
  · rintro ⟨sizes, zero⟩
    have shorter : min left.length right.length = left.length := by omega
    have cases := memcmp_shorter left right
    rw [shorter, zero] at cases
    rcases cases with ⟨absurd, _⟩ | ⟨absurd, _⟩ | ⟨_, inside | inside⟩
    · omega
    · omega
    · exact inside.eq_of_length sizes
    · exact (inside.eq_of_length sizes.symm).symm
  · rintro rfl
    refine ⟨rfl, ?_⟩
    have cases := memcmp_shorter left left
    rw [Nat.min_self] at cases
    rcases cases with ⟨_, less⟩ | ⟨_, less⟩ | ⟨zero, _⟩
    · exact (List.lt_irrefl _ less).elim
    · exact (List.lt_irrefl _ less).elim
    · exact zero

/-- Away from equal strings `Slice::compare` has the sign of the unsigned
lexicographic order. -/
theorem compare_of_ne {left right : Slice} (differ : left ≠ right) :
    (compare left right < 0 ∧ left < right) ∨ (0 < compare left right ∧ right < left) := by
  have size : (if left.length > right.length then right.length else left.length) =
      min left.length right.length := by
    split <;> omega
  simp only [compare, size]
  rcases memcmp_shorter left right with ⟨value, less⟩ | ⟨value, less⟩ | ⟨zero, inside⟩
  · rw [value, if_neg (by decide)]
    exact .inl ⟨by decide, less⟩
  · rw [value, if_neg (by decide)]
    exact .inr ⟨by decide, less⟩
  · rw [zero, if_pos rfl]
    rcases inside with inside | inside
    · have shorter : left.length < right.length :=
        lt_of_le_of_ne inside.length_le fun same => differ (inside.eq_of_length same)
      rw [if_pos shorter]
      exact .inl ⟨by decide, lt_of_isPrefix inside shorter⟩
    · have shorter : right.length < left.length :=
        lt_of_le_of_ne inside.length_le fun same => differ (inside.eq_of_length same).symm
      rw [if_neg shorter.not_gt]
      exact .inr ⟨by decide, lt_of_isPrefix inside shorter⟩

/-- On equal strings no branch of `Slice::compare` answers zero. -/
theorem compare_self (slice : Slice) : compare slice slice = 1 := by
  have zero : memcmp slice.length slice slice = 0 := by
    have same := (beqSlice_iff slice slice).mpr rfl
    simpa [beqSlice] using same
  simp [compare, zero]

end Slice

end MiniLevelDb
