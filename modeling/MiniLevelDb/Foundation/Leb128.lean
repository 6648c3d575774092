import Mathlib.Data.Nat.Bitwise
import Mathlib.Data.Nat.Digits.Defs

/-!
# Numbers in groups of seven bits

A number is written as bytes that carry seven bits each, the lowest first. A byte of 128
or more says that another one follows. Which byte ends a number does not depend on the
word it is read into, only on how many bytes are looked at.
-/

namespace Foundation

namespace Leb128

/-- The index of the first byte that ends a number, among the first `most`. -/
def terminator (most : Nat) (bytes : List (BitVec 8)) : Option Nat :=
  (bytes.take most).findIdx? fun byte => byte.toNat < 128

/-- The number that the bytes stand for, whatever their marks. -/
def number (bytes : List (BitVec 8)) : Nat :=
  Nat.ofDigits 128 (bytes.map fun byte => byte.toNat % 128)

variable {bytes : List (BitVec 8)} {most index : Nat}

theorem terminator_cons (most : Nat) (byte : BitVec 8) (rest : List (BitVec 8)) :
    terminator (most + 1) (byte :: rest) =
      if byte.toNat < 128 then some 0 else (terminator most rest).map (· + 1) := by
  simp only [terminator, List.take_succ_cons, List.findIdx?_cons, decide_eq_true_eq]

/-- There is such a byte exactly if one of the first `most` is below 128. -/
theorem terminator_isSome (most : Nat) (bytes : List (BitVec 8)) :
    (terminator most bytes).isSome = true ↔ ∃ byte ∈ bytes.take most, byte.toNat < 128 := by
  rw [terminator, List.findIdx?_isSome, List.any_eq_true]
  simp only [decide_eq_true_eq]

theorem getD_of_lt (inside : index < bytes.length) : bytes.getD index 0 = bytes[index] := by
  rw [List.getD_eq_getElem?_getD, List.getElem?_eq_getElem inside, Option.getD_some]

/-- It is one of the bytes looked at, it ends the number, and none before it does. -/
theorem terminator_spec (found : terminator most bytes = some index) :
    index < most ∧ index < bytes.length ∧ (bytes.getD index 0).toNat < 128 ∧
      ∀ byte ∈ bytes.take index, 128 ≤ byte.toNat := by
  obtain ⟨inside, ends, before⟩ := List.findIdx?_eq_some_iff_getElem.mp found
  rw [List.length_take] at inside
  refine ⟨by omega, by omega, ?_, ?_⟩
  · rw [getD_of_lt (by omega)]
    simpa using ends
  · intro byte member
    obtain ⟨other, early, rfl⟩ := List.mem_iff_getElem.mp member
    rw [List.length_take] at early
    have continued := before other (by omega)
    simpa using continued

/-- Nothing ends before the byte that ends the number. -/
theorem terminator_take (found : terminator most bytes = some index) {count : Nat}
    (early : count ≤ index) : terminator most (bytes.take count) = none := by
  obtain ⟨-, -, -, before⟩ := terminator_spec found
  simp only [terminator, List.findIdx?_eq_none_iff, decide_eq_false_iff_not]
  intro byte member
  have within : byte ∈ bytes.take index :=
    ((List.take_prefix _ _).trans (List.take_prefix_take_left early)).subset member
  exact Nat.not_lt_of_le (before byte within)

@[simp] theorem number_cons (byte : BitVec 8) (rest : List (BitVec 8)) :
    number (byte :: rest) = byte.toNat % 128 + 128 * number rest := rfl

@[simp] theorem number_nil : number [] = 0 := rfl

theorem number_append (front back : List (BitVec 8)) :
    number (front ++ back) = number front + 128 ^ front.length * number back := by
  simp only [number, List.map_append, Nat.ofDigits_append, List.length_map]

theorem number_lt (bytes : List (BitVec 8)) : number bytes < 128 ^ bytes.length := by
  have digits : ∀ digit ∈ bytes.map (fun byte => byte.toNat % 128), digit < 128 := by
    intro digit member
    obtain ⟨byte, -, rfl⟩ := List.mem_map.mp member
    exact Nat.mod_lt _ (by decide)
  simpa [number] using Nat.ofDigits_lt_base_pow_length (by decide) digits

/-- A number that ends in time fits into a word of `extra` bits more than the bytes before the
last one carry, unless it uses all bytes and the last one has a bit too many. -/
theorem number_lt_iff {extra : Nat} (found : terminator (most + 1) bytes = some index) :
    number (bytes.take (index + 1)) < 2 ^ (7 * most + extra) ↔
      ¬ (index = most ∧ 2 ^ extra ≤ (bytes.getD index 0).toNat) := by
  obtain ⟨within, inside, ends, -⟩ := terminator_spec found
  have power : 2 ^ (7 * most + extra) = 128 ^ most * 2 ^ extra := by
    rw [Nat.pow_add, Nat.pow_mul]
  rw [power]
  rcases Nat.lt_or_eq_of_le (Nat.lt_succ_iff.mp within) with early | rfl
  · refine iff_of_true ?_ (fun last => by omega)
    have below := number_lt (bytes.take (index + 1))
    rw [List.length_take_of_le inside] at below
    calc number (bytes.take (index + 1))
        < 128 ^ (index + 1) := below
      _ ≤ 128 ^ most := Nat.pow_le_pow_right (by decide) early
      _ ≤ 128 ^ most * 2 ^ extra := Nat.le_mul_of_pos_right _ (Nat.two_pow_pos extra)
  · have split : bytes.take (index + 1) = bytes.take index ++ [bytes.getD index 0] := by
      rw [List.take_succ_eq_append_getElem inside, getD_of_lt inside]
    have length : (bytes.take index).length = index := List.length_take_of_le inside.le
    have low := number_lt (bytes.take index)
    rw [length] at low
    rw [split, number_append, length, number_cons, number_nil, Nat.mod_eq_of_lt ends,
      Nat.mul_zero, Nat.add_zero]
    generalize (bytes.getD index 0).toNat = last at *
    constructor
    · rintro less ⟨-, big⟩
      have := Nat.mul_le_mul_left (128 ^ index) big
      omega
    · intro fits
      have small : last + 1 ≤ 2 ^ extra := by
        by_contra big
        exact fits ⟨rfl, by omega⟩
      calc number (bytes.take index) + 128 ^ index * last
          < 128 ^ index * (last + 1) := by rw [Nat.mul_succ]; omega
        _ ≤ 128 ^ index * 2 ^ extra := Nat.mul_le_mul_left _ small

section Words

variable {width : Nat} (wide : 8 ≤ width)
include wide

theorem toNat_widened (byte : BitVec 8) : (byte.setWidth width).toNat = byte.toNat := by
  have bound := byte.isLt
  have power : 2 ^ 8 ≤ 2 ^ width := Nat.pow_le_pow_right (by decide) wide
  rw [BitVec.toNat_setWidth, Nat.mod_eq_of_lt (by omega)]

/-- The mark of a byte, in a word. -/
theorem widened_and_128 (byte : BitVec 8) :
    byte.setWidth width &&& BitVec.ofNat width 128 = 0 ↔ byte.toNat < 128 := by
  have bound := byte.isLt
  have mark : byte.toNat &&& 128 = (byte.toNat.testBit 7).toNat * 2 ^ 7 :=
    Nat.and_two_pow byte.toNat 7
  have power : 2 ^ 8 ≤ 2 ^ width := Nat.pow_le_pow_right (by decide) wide
  rw [← BitVec.toNat_inj, BitVec.toNat_and, toNat_widened wide, BitVec.toNat_ofNat,
    Nat.mod_eq_of_lt (show 128 < 2 ^ width by omega), mark, Nat.testBit_eq_decide_div_mod_eq]
  by_cases low : byte.toNat < 128
  · simp [low, Nat.div_eq_of_lt low]
  · have high : byte.toNat / 128 % 2 = 1 := by omega
    simp [low, high]

/-- The seven bits a byte carries, in a word. -/
theorem widened_and_127 (byte : BitVec 8) :
    (byte.setWidth width &&& BitVec.ofNat width 127).toNat = byte.toNat % 128 := by
  have power : 2 ^ 8 ≤ 2 ^ width := Nat.pow_le_pow_right (by decide) wide
  rw [BitVec.toNat_and, toNat_widened wide, BitVec.toNat_ofNat,
    Nat.mod_eq_of_lt (show 127 < 2 ^ width by omega)]
  exact Nat.and_two_pow_sub_one_eq_mod byte.toNat 7

omit wide in
/-- Seven bits above those a word already has make up the number of both. -/
theorem or_group {low shift : Nat} (small : low < 2 ^ shift) {group : BitVec width} {digit : Nat}
    (isDigit : group.toNat = digit) :
    BitVec.ofNat width low ||| (group <<< shift) =
      BitVec.ofNat width (low + 2 ^ shift * digit) := by
  apply BitVec.eq_of_toNat_eq
  rw [BitVec.toNat_or, BitVec.toNat_shiftLeft, BitVec.toNat_ofNat, BitVec.toNat_ofNat,
    ← Nat.or_mod_two_pow, isDigit, Nat.or_comm, ← Nat.shiftLeft_add_eq_or_of_lt small,
    Nat.shiftLeft_eq, Nat.add_comm, Nat.mul_comm]

end Words

end Leb128

end Foundation
