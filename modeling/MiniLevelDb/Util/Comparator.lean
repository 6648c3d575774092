import MiniLevelDb.Util.Slice

/-!
# Comparators

The interface every ordered structure of the store is parameterised by, and the
built-in comparator that orders keys bytewise. What its `Compare` owes to its
users is stated pointwise, since it pays it for every two different keys and for
no two equal ones.
-/

namespace MiniLevelDb

/-- The virtual methods of `Comparator` that order and shorten keys. -/
structure Comparator where
  compare : Slice → Slice → Int
  findShortestSeparator : Slice → Slice → Slice
  findShortSuccessor : Slice → Slice

namespace BytewiseComparatorImpl

/-- `BytewiseComparatorImpl::Compare`. -/
def compare (left right : Slice) : Int :=
  Slice.compare left right

/-- The first index at which two strings differ, or the shorter length. -/
def diffIndex : Slice → Slice → Nat
  | byte :: start, other :: limit => if byte = other then diffIndex start limit + 1 else 0
  | _, _ => 0

/-- `BytewiseComparatorImpl::FindShortestSeparator` with its assertion: the new contents of
`*start`, none where the assertion fails. -/
def findShortestSeparatorAsserted (start limit : Slice) : Option Slice :=
  let minLength := min start.length limit.length
  let index := diffIndex start limit
  if index ≥ minLength then
    some start
  else
    let diffByte := start.getD index 0
    if diffByte < 0xff#8 ∧ diffByte.toNat + 1 < (limit.getD index 0).toNat then
      let shortened := start.take index ++ [diffByte + 1]
      if compare shortened limit < 0 then some shortened else none
    else
      some start

/-- `BytewiseComparatorImpl::FindShortestSeparator` as a method of the interface. -/
def findShortestSeparator (start limit : Slice) : Slice :=
  (findShortestSeparatorAsserted start limit).getD start

/-- `BytewiseComparatorImpl::FindShortSuccessor`: the new contents of `*key`. -/
def findShortSuccessor : Slice → Slice
  | [] => []
  | byte :: rest => if byte ≠ 0xff#8 then [byte + 1] else byte :: findShortSuccessor rest

end BytewiseComparatorImpl

/-- `BytewiseComparator()`. -/
def bytewiseComparator : Comparator where
  compare := BytewiseComparatorImpl.compare
  findShortestSeparator := BytewiseComparatorImpl.findShortestSeparator
  findShortSuccessor := BytewiseComparatorImpl.findShortSuccessor

/-- What `Comparator::Compare` promises of the unsigned lexicographic order, at
three keys: the sign of the answer for the first two, that zero is the same
relation as `operator==`, and that the answers agree with each other. -/
structure CompareContract (compare : Slice → Slice → Int) (first second third : Slice) :
    Prop where
  neg_iff : compare first second < 0 ↔ first < second
  zero_iff : compare first second = 0 ↔ first = second
  zero_iff_beq : compare first second = 0 ↔ Slice.beqSlice first second = true
  pos_iff : 0 < compare first second ↔ second < first
  neg_swap : compare first second < 0 ↔ 0 < compare second first
  zero_swap : compare first second = 0 ↔ compare second first = 0
  trans : compare first second ≤ 0 → compare second third ≤ 0 → compare first third ≤ 0

/-- The bytewise comparison never answers zero, so it is at most zero exactly
below the second key. -/
theorem bytewise_le_iff (left right : Slice) :
    bytewiseComparator.compare left right ≤ 0 ↔ left < right := by
  change Slice.compare left right ≤ 0 ↔ left < right
  by_cases same : left = right
  · subst same
    rw [Slice.compare_self]
    exact ⟨fun absurd => by omega, fun less => (List.lt_irrefl _ less).elim⟩
  · rcases Slice.compare_of_ne same with ⟨negative, less⟩ | ⟨positive, less⟩
    · exact ⟨fun _ => less, fun _ => Int.le_of_lt negative⟩
    · exact ⟨fun absurd => by omega, fun other => (List.lt_asymm less other).elim⟩

/-- On two different keys both orders of the arguments answer with the sign of
the unsigned lexicographic order. -/
theorem bytewise_sign_of_ne {left right : Slice} (differ : left ≠ right) :
    (bytewiseComparator.compare left right < 0 ∧ 0 < bytewiseComparator.compare right left ∧
        left < right ∧ ¬ right < left) ∨
      (0 < bytewiseComparator.compare left right ∧ bytewiseComparator.compare right left < 0 ∧
        right < left ∧ ¬ left < right) := by
  change (Slice.compare left right < 0 ∧ 0 < Slice.compare right left ∧ _) ∨
    (0 < Slice.compare left right ∧ Slice.compare right left < 0 ∧ _)
  rcases Slice.compare_of_ne differ with ⟨sign, less⟩ | ⟨sign, less⟩ <;>
    rcases Slice.compare_of_ne differ.symm with ⟨back, more⟩ | ⟨back, more⟩
  · exact (List.lt_asymm less more).elim
  · exact .inl ⟨sign, back, less, List.lt_asymm less⟩
  · exact .inr ⟨sign, back, less, List.lt_asymm less⟩
  · exact (List.lt_asymm less more).elim

/-- `BytewiseComparator()->Compare` keeps its contract at a pair of keys exactly
when the two keys differ. -/
theorem bytewise_contract_iff (first second third : Slice) :
    CompareContract bytewiseComparator.compare first second third ↔ first ≠ second := by
  constructor
  · rintro contract rfl
    have zero := contract.zero_iff.mpr rfl
    rw [show bytewiseComparator.compare first first = 1 from Slice.compare_self first] at zero
    exact absurd zero (by decide)
  · intro differ
    have unequal : ¬ Slice.beqSlice first second = true :=
      fun same => differ ((Slice.beqSlice_iff first second).mp same)
    have trans : bytewiseComparator.compare first second ≤ 0 →
        bytewiseComparator.compare second third ≤ 0 →
        bytewiseComparator.compare first third ≤ 0 := by
      simp only [bytewise_le_iff]
      exact List.lt_trans
    rcases bytewise_sign_of_ne differ with ⟨sign, back, less, notLess⟩ | ⟨sign, back, less, notLess⟩
    · exact ⟨iff_of_true sign less, iff_of_false (by omega) differ,
        iff_of_false (by omega) unequal, iff_of_false (by omega) notLess,
        iff_of_true sign back, iff_of_false (by omega) (by omega), trans⟩
    · exact ⟨iff_of_false (by omega) notLess, iff_of_false (by omega) differ,
        iff_of_false (by omega) unequal, iff_of_true sign less,
        iff_of_false (by omega) (by omega), iff_of_false (by omega) (by omega), trans⟩

/-- A key compares above itself. -/
theorem bytewise_contract_fails_on_equal_keys :
    ¬ ∀ first second third : Slice,
      CompareContract bytewiseComparator.compare first second third := by
  intro contract
  have zero := (contract [0x61#8] [0x61#8] [0x61#8]).zero_iff.mpr rfl
  exact absurd zero (by decide)

end MiniLevelDb
