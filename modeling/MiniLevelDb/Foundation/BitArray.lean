import Mathlib.Data.Nat.Basic

/-!
# Bit arrays

A list of words read as one array of bits, the least significant bit of each word first.
-/

namespace Foundation

namespace BitArray

variable {width : Nat} {words : List (BitVec width)} {position other : Nat}

/-- Whether the bit is set; past the end no bit is. -/
def testBit (words : List (BitVec width)) (position : Nat) : Bool :=
  (words.getD (position / width) 0).getLsbD (position % width)

def setBit (words : List (BitVec width)) (position : Nat) : List (BitVec width) :=
  words.modify (position / width) (· ||| BitVec.ofNat width 1 <<< (position % width))

/-- The test of one bit of a word by a mask. -/
theorem and_mask_eq_zero_iff {word : BitVec width} (inside : position < width) :
    word &&& BitVec.ofNat width 1 <<< position = BitVec.ofNat width 0 ↔
      word.getLsbD position = false := by
  rw [← BitVec.twoPow_eq, BitVec.and_twoPow]
  cases word.getLsbD position with
  | false => simp
  | true =>
      have mask : BitVec.twoPow width position ≠ BitVec.ofNat width 0 := by
        intro zero
        have bit := congrArg (BitVec.getLsbD · position) zero
        simp [inside] at bit
      simpa using mask

@[simp] theorem length_setBit : (setBit words position).length = words.length :=
  List.length_modify ..

theorem testBit_replicate (count : Nat) :
    testBit (List.replicate count (BitVec.ofNat width 0)) position = false := by
  rw [testBit, List.getD_eq_getElem?_getD, List.getElem?_replicate]
  split <;> simp

/-- A position is determined by its word and its place in it. -/
theorem position_eq_iff : other = position ↔
    other / width = position / width ∧ other % width = position % width := by
  refine ⟨fun same => same ▸ ⟨rfl, rfl⟩, fun ⟨word, place⟩ => ?_⟩
  rw [← Nat.div_add_mod other width, word, place, Nat.div_add_mod]

theorem testBit_setBit (inside : position < width * words.length) :
    testBit (setBit words position) other = true ↔
      other = position ∨ testBit words other = true := by
  have positive : 0 < width := Nat.pos_of_mul_pos_right (Nat.zero_lt_of_lt inside)
  have word : position / width < words.length := Nat.div_lt_of_lt_mul inside
  rw [testBit, testBit, setBit, List.getD_eq_getElem?_getD, List.getD_eq_getElem?_getD,
    List.getElem?_modify, @position_eq_iff width position other]
  by_cases same : other / width = position / width
  · rw [same, List.getElem?_eq_getElem word]
    have place := Nat.mod_lt other positive
    simp [place, ← BitVec.twoPow_eq]
    rw [or_comm, eq_comm]
  · simp [same, Ne.symm same]

/-- The bits set one after the other. -/
theorem testBit_foldl_setBit {positions : List Nat}
    (inside : ∀ position ∈ positions, position < width * words.length) :
    testBit (positions.foldl setBit words) other = true ↔
      other ∈ positions ∨ testBit words other = true := by
  induction positions generalizing words with
  | nil => simp
  | cons position rest ih =>
      have first := inside position List.mem_cons_self
      have later : ∀ next ∈ rest, next < width * (setBit words position).length := by
        intro next member
        rw [length_setBit]
        exact inside next (List.mem_cons_of_mem _ member)
      rw [List.foldl_cons, ih later, testBit_setBit first, List.mem_cons,
        or_assoc]
      exact or_left_comm

theorem length_foldl_setBit (positions : List Nat) :
    (positions.foldl setBit words).length = words.length := by
  induction positions generalizing words with
  | nil => rfl
  | cons position rest ih => rw [List.foldl_cons, ih, length_setBit]

/-- A word in the middle of a list is changed where it stands. -/
theorem modify_middle {Word : Type} {middle : List Word} {index : Nat}
    (inside : index < middle.length) (before after : List Word) (change : Word → Word) :
    (before ++ middle ++ after).modify (before.length + index) change =
      before ++ middle.modify index change ++ after := by
  refine List.ext_getElem? fun place => ?_
  simp only [List.getElem?_modify, List.getElem?_append, List.length_append, List.length_modify]
  grind

end BitArray

end Foundation
