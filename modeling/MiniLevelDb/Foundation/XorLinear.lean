import Mathlib.Algebra.Ring.Nat
import Mathlib.Logic.Function.Iterate

/-!
# Maps linear in exclusive or

Registers of a cyclic code evolve by maps that distribute over exclusive or. Such
maps are closed under composition, so a register that started as a sum of parts
can be followed part by part.
-/

namespace Foundation

variable {width : Nat}

/-- `map` distributes over exclusive or. -/
def XorLinear (map : BitVec width → BitVec width) : Prop :=
  ∀ left right, map (left ^^^ right) = map left ^^^ map right

namespace XorLinear

variable {map other : BitVec width → BitVec width}

theorem comp (outer : XorLinear map) (inner : XorLinear other) : XorLinear (map ∘ other) := by
  intro left right
  simp only [Function.comp_apply, inner left right, outer _ _]

/-- Repeating a linear map stays linear. -/
theorem iterate (linear : XorLinear map) (count : Nat) : XorLinear map^[count] := by
  induction count with
  | zero => exact fun _ _ => rfl
  | succ count ih => exact ih.comp linear

theorem map_zero (linear : XorLinear map) : map 0 = 0 := by
  have same := linear 0 0
  rw [BitVec.xor_self, BitVec.xor_self] at same
  exact same

/-- A linear map that takes only zero to zero is injective. -/
theorem injective (linear : XorLinear map) (kernel : ∀ value, map value = 0 → value = 0) :
    Function.Injective map := by
  intro left right same
  refine BitVec.xor_eq_zero_iff.mp (kernel _ ?_)
  rw [linear, same]
  exact BitVec.xor_self

end XorLinear

/-- The table of a linear map on the numbers below `2 ^ bits`, from its values at
the powers of two. -/
def spanTable (map : BitVec width → BitVec width) : Nat → List (BitVec width)
  | 0 => [0]
  | bits + 1 =>
      spanTable map bits ++
        (spanTable map bits).map fun entry => entry ^^^ map (BitVec.ofNat width (2 ^ bits))

/-- A number below a power of two plus that power is their exclusive or. -/
theorem ofNat_two_pow_add {bits low : Nat} (below : low < 2 ^ bits) :
    BitVec.ofNat width (2 ^ bits + low) =
      BitVec.ofNat width low ^^^ BitVec.ofNat width (2 ^ bits) := by
  have sum : 2 ^ bits + low = low ^^^ 2 ^ bits := by
    have := Nat.two_pow_add_eq_or_of_lt below 1
    rw [Nat.mul_one] at this
    rw [this]
    apply Nat.eq_of_testBit_eq
    intro bit
    rw [Nat.testBit_or, Nat.testBit_xor, Nat.testBit_two_pow]
    by_cases same : bits = bit
    · subst same
      simp [Nat.testBit_lt_two_pow below]
    · simp [same]
  rw [sum, BitVec.ofNat_xor]

/-- The table of a linear map lists the map. -/
theorem spanTable_eq {map : BitVec width → BitVec width} (linear : XorLinear map) (bits : Nat) :
    spanTable map bits =
      (List.range (2 ^ bits)).map fun index => map (BitVec.ofNat width index) := by
  induction bits with
  | zero =>
      have zero : map (BitVec.ofNat width 0) = 0 := linear.map_zero
      simp only [spanTable, Nat.pow_zero, List.range_one, List.map_cons, List.map_nil, zero]
  | succ bits ih =>
      rw [spanTable, ih, Nat.pow_succ, Nat.mul_two, List.range_add, List.map_append, List.map_map,
        List.map_map]
      congr 1
      apply List.map_congr_left
      intro index member
      simp only [Function.comp_apply, ofNat_two_pow_add (List.mem_range.mp member), linear _ _]

/-- Looking up a number below the size of the table applies the map to it. -/
theorem getD_spanTable {map : BitVec width → BitVec width} (linear : XorLinear map) {bits : Nat}
    {index : BitVec width} (inside : index.toNat < 2 ^ bits) :
    (spanTable map bits).getD index.toNat 0 = map index := by
  rw [spanTable_eq linear, List.getD_eq_getElem?_getD, List.getElem?_map,
    List.getElem?_range inside, Option.map_some, Option.getD_some, BitVec.ofNat_toNat,
    BitVec.setWidth_eq]

end Foundation
