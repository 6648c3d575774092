import MiniLevelDb.Util.Slice
import Mathlib.Data.Nat.Digits.Lemmas

/-!
# Decimal numbers

Numbers are printed in decimal and read back. Before each digit is taken in, the reader
compares what it has with a tenth of the greatest number, and the digit with the last
one of it; so it never computes a number that does not fit, and stops at the first that
would not.
-/

namespace MiniLevelDb

/-- What `%llu` prints: the decimal digits, without leading zeros. -/
def decimalDigits (num : BitVec 64) : Slice :=
  if num = 0 then [0x30]
  else (Nat.digits 10 num.toNat).reverse.map fun digit => BitVec.ofNat 8 (0x30 + digit)

/-- `AppendNumberTo`, through a buffer of 30 bytes that ends in a null byte. -/
def appendNumberTo (str : Slice) (num : BitVec 64) : Slice :=
  str ++ (decimalDigits num).take 29

def numberToString (num : BitVec 64) : Slice := appendNumberTo [] num

def kMaxUint64 : BitVec 64 := BitVec.allOnes 64

def kLastDigitOfMaxUint64 : Byte := 0x30 + (kMaxUint64 % 10).setWidth 8

/-- The loop of `ConsumeDecimalNumber`: the value and where it stops, or nothing when a
check fails. -/
def consumeDecimalLoop : Slice → BitVec 64 → Option (BitVec 64 × Slice)
  | [], value => some (value, [])
  | ch :: current, value =>
      if ch < 0x30 ∨ ch > 0x39 then some (value, ch :: current)
      else if value > kMaxUint64 / 10 ∨
          (value = kMaxUint64 / 10 ∧ ch > kLastDigitOfMaxUint64) then none
      else consumeDecimalLoop current (value * 10 + (ch.setWidth 64 - 0x30))

/-- `ConsumeDecimalNumber`: the answer, and what is then in `*in` and in `*val`. -/
def consumeDecimalNumber (input : Slice) (val : BitVec 64) : Bool × Slice × BitVec 64 :=
  match consumeDecimalLoop input 0 with
  | none => (false, input, val)
  | some (value, current) =>
      let digitsConsumed := input.length - current.length
      (digitsConsumed ≠ 0, input.drop digitsConsumed, value)

/-- The byte is an ASCII digit. -/
def isDigit (byte : Byte) : Bool := 0x30 ≤ byte.toNat && byte.toNat ≤ 0x39

/-- The exact number that digits stand for. -/
def decimalValue (digits : Slice) : Nat :=
  Nat.ofDigits 10 (digits.reverse.map fun byte => byte.toNat - 0x30)

/-- The number that digits extend another one to. -/
def extended (value : Nat) (digits : Slice) : Nat :=
  digits.foldl (fun value byte => value * 10 + (byte.toNat - 0x30)) value

theorem extended_zero (digits : Slice) : extended 0 digits = decimalValue digits := by
  rw [decimalValue, Nat.ofDigits_eq_foldr, List.foldr_map, List.foldr_reverse, extended]
  congr 1
  funext value byte
  simp [Nat.add_comm, Nat.mul_comm]

theorem le_extended (value : Nat) (digits : Slice) : value ≤ extended value digits := by
  induction digits generalizing value with
  | nil => exact Nat.le_refl value
  | cons byte digits ih =>
      have := ih (value * 10 + (byte.toNat - 0x30))
      show value ≤ extended (value * 10 + (byte.toNat - 0x30)) digits
      omega

/-- The check of the loop finds exactly the digits that would make the number too large. -/
theorem overflow_check_iff {value : Nat} (fits : value < 2 ^ 64) {ch : Byte}
    (digit : isDigit ch = true) :
    (BitVec.ofNat 64 value > kMaxUint64 / 10 ∨
        (BitVec.ofNat 64 value = kMaxUint64 / 10 ∧ ch > kLastDigitOfMaxUint64)) ↔
      2 ^ 64 ≤ value * 10 + (ch.toNat - 0x30) := by
  simp only [isDigit, Bool.and_eq_true, decide_eq_true_eq] at digit
  have tenth : (kMaxUint64 / 10).toNat = 1844674407370955161 := by decide
  have last : kLastDigitOfMaxUint64.toNat = 0x35 := by decide
  rw [gt_iff_lt, gt_iff_lt, BitVec.lt_def, BitVec.lt_def, ← BitVec.toNat_inj, tenth, last,
    BitVec.toNat_ofNat, Nat.mod_eq_of_lt fits]
  omega

/-- One more digit, in the arithmetic of words. -/
theorem ofNat_digit {value : Nat} {ch : Byte} (digit : isDigit ch = true) :
    BitVec.ofNat 64 value * 10 + (ch.setWidth 64 - 0x30) =
      BitVec.ofNat 64 (value * 10 + (ch.toNat - 0x30)) := by
  simp only [isDigit, Bool.and_eq_true, decide_eq_true_eq] at digit
  apply BitVec.eq_of_toNat_eq
  rw [BitVec.toNat_add, BitVec.toNat_mul, BitVec.toNat_sub, BitVec.toNat_setWidth,
    BitVec.toNat_ofNat, BitVec.toNat_ofNat]
  show (value % 2 ^ 64 * 10 % 2 ^ 64 + (2 ^ 64 - 0x30 + ch.toNat % 2 ^ 64) % 2 ^ 64) % 2 ^ 64 = _
  omega

/-- The loop takes the digits in as long as the number fits. -/
theorem consumeDecimalLoop_spec {value : Nat} (fits : value < 2 ^ 64) (input : Slice) :
    consumeDecimalLoop input (BitVec.ofNat 64 value) =
      if extended value (input.takeWhile isDigit) < 2 ^ 64 then
        some (BitVec.ofNat 64 (extended value (input.takeWhile isDigit)),
          input.dropWhile isDigit)
      else none := by
  induction input generalizing value with
  | nil => exact (if_pos fits).symm
  | cons ch current ih =>
      have outside : (ch < 0x30 ∨ ch > 0x39) ↔ ¬ isDigit ch = true := by
        simp only [isDigit, Bool.and_eq_true, decide_eq_true_eq]
        show (ch.toNat < 0x30 ∨ 0x39 < ch.toNat) ↔ _
        omega
      rw [consumeDecimalLoop]
      by_cases digit : isDigit ch = true
      · rw [if_neg (fun stops => outside.mp stops digit), List.takeWhile_cons_of_pos digit,
          List.dropWhile_cons_of_pos digit]
        have grows := le_extended (value * 10 + (ch.toNat - 0x30)) (current.takeWhile isDigit)
        show _ = if extended (value * 10 + (ch.toNat - 0x30)) (current.takeWhile isDigit) < 2 ^ 64
          then some (BitVec.ofNat 64
            (extended (value * 10 + (ch.toNat - 0x30)) (current.takeWhile isDigit)), _) else none
        by_cases large : 2 ^ 64 ≤ value * 10 + (ch.toNat - 0x30)
        · rw [if_pos ((overflow_check_iff fits digit).mpr large), if_neg (by omega)]
        · rw [if_neg (mt (overflow_check_iff fits digit).mp large), ofNat_digit digit,
            ih (Nat.lt_of_not_le large)]
      · rw [if_pos (outside.mpr digit), List.takeWhile_cons_of_neg digit,
          List.dropWhile_cons_of_neg digit]
        exact (if_pos fits).symm

/-- What the function answers, by the digits in front. -/
theorem consumeDecimalNumber_eq (input : Slice) (val : BitVec 64) :
    consumeDecimalNumber input val =
      if decimalValue (input.takeWhile isDigit) < 2 ^ 64 then
        (decide (input.takeWhile isDigit ≠ []), input.dropWhile isDigit,
          BitVec.ofNat 64 (decimalValue (input.takeWhile isDigit)))
      else (false, input, val) := by
  have looped := @consumeDecimalLoop_spec 0 (by decide) input
  rw [extended_zero] at looped
  have split : input.takeWhile isDigit ++ input.dropWhile isDigit = input :=
    List.takeWhile_append_dropWhile
  have length := congrArg List.length split
  rw [List.length_append] at length
  have consumed : input.length - (input.dropWhile isDigit).length =
      (input.takeWhile isDigit).length := by omega
  have rest : input.drop (input.takeWhile isDigit).length = input.dropWhile isDigit := by
    have dropped := @List.drop_left _ (input.takeWhile isDigit) (input.dropWhile isDigit)
    rwa [split] at dropped
  unfold consumeDecimalNumber
  rw [show (0 : BitVec 64) = BitVec.ofNat 64 0 from rfl, looped]
  by_cases fits : decimalValue (input.takeWhile isDigit) < 2 ^ 64
  · simp only [if_pos fits, consumed, rest, ne_eq, List.length_eq_zero_iff]
  · simp only [if_neg fits]

/-- A number prints as digits only. -/
theorem decimalDigits_isDigit (num : BitVec 64) :
    ∀ byte ∈ decimalDigits num, isDigit byte = true := by
  intro byte member
  unfold decimalDigits at member
  split at member
  · rw [List.mem_singleton.mp member]
    decide
  · obtain ⟨digit, among, rfl⟩ := List.mem_map.mp member
    have small := Nat.digits_lt_base (by decide) (List.mem_reverse.mp among)
    simp only [isDigit, BitVec.toNat_ofNat, Bool.and_eq_true, decide_eq_true_eq]
    omega

theorem decimalDigits_ne_nil (num : BitVec 64) : decimalDigits num ≠ [] := by
  unfold decimalDigits
  split
  · exact List.cons_ne_nil _ _
  · rename_i positive
    rw [ne_eq, List.map_eq_nil_iff, List.reverse_eq_nil_iff, Nat.digits_eq_nil_iff_eq_zero]
    exact fun zero => positive (BitVec.eq_of_toNat_eq zero)

/-- The digits of a number stand for it. -/
theorem decimalValue_decimalDigits (num : BitVec 64) :
    decimalValue (decimalDigits num) = num.toNat := by
  unfold decimalDigits
  split
  · rename_i zero
    rw [zero]
    rfl
  · have digits : ((Nat.digits 10 num.toNat).map fun digit =>
        (BitVec.ofNat 8 (0x30 + digit)).toNat - 0x30) = Nat.digits 10 num.toNat := by
      conv_rhs => rw [← List.map_id (Nat.digits 10 num.toNat)]
      apply List.map_congr_left
      intro digit among
      have small := Nat.digits_lt_base (by decide) among
      rw [BitVec.toNat_ofNat, id]
      omega
    rw [decimalValue, ← List.map_reverse, List.reverse_reverse, List.map_map]
    exact (congrArg (Nat.ofDigits 10) digits).trans (Nat.ofDigits_digits 10 num.toNat)

/-- Twenty digits are enough, so the buffer holds them all. -/
theorem decimalDigits_length_le_of_lt {num : BitVec 64} {width : Nat} (positive : 0 < width)
    (small : num.toNat < 10 ^ width) : (decimalDigits num).length ≤ width := by
  unfold decimalDigits
  split
  · exact positive
  · rw [List.length_map, List.length_reverse]
    exact (Nat.digits_length_le_iff (by decide) _).mpr small

theorem decimalDigits_length_le (num : BitVec 64) : (decimalDigits num).length ≤ 20 :=
  decimalDigits_length_le_of_lt (by decide) (Nat.lt_trans num.isLt (by decide))

theorem numberToString_eq (num : BitVec 64) : numberToString num = decimalDigits num := by
  have := decimalDigits_length_le num
  rw [numberToString, appendNumberTo, List.nil_append, List.take_of_length_le (by omega)]

/-- In front of other text, the digits of a number are still where the reader stops. -/
theorem numberToString_split (num : BitVec 64) {padding : Slice}
    (noDigit : ∀ byte, padding.head? = some byte → isDigit byte = false) :
    (numberToString num ++ padding).takeWhile isDigit = decimalDigits num ∧
      (numberToString num ++ padding).dropWhile isDigit = padding := by
  have digits := decimalDigits_isDigit num
  rw [numberToString_eq, List.takeWhile_append_of_pos digits, List.dropWhile_append_of_pos digits]
  cases padding with
  | nil => exact ⟨List.append_nil _, rfl⟩
  | cons byte padding =>
      have stops : ¬ isDigit byte = true := Bool.eq_false_iff.mp (noDigit byte rfl)
      rw [List.takeWhile_cons_of_neg stops, List.dropWhile_cons_of_neg stops, List.append_nil]
      exact ⟨rfl, rfl⟩

/-- Reading a decimal number is exact. Of the digits in front, the answer is yes when there
are some and their number fits, and then it is what is read and they are what is removed. A
number that does not fit leaves everything as it was, and no digits leave the input. So every
number that was printed is read back. -/
theorem consumeDecimalNumber_exact (input : Slice) (val : BitVec 64) :
    ((consumeDecimalNumber input val).1 = true ↔
      input.takeWhile isDigit ≠ [] ∧ decimalValue (input.takeWhile isDigit) < 2 ^ 64) ∧
    ((consumeDecimalNumber input val).1 = true →
      input = input.takeWhile isDigit ++ (consumeDecimalNumber input val).2.1 ∧
        (consumeDecimalNumber input val).2.2.toNat = decimalValue (input.takeWhile isDigit)) ∧
    (2 ^ 64 ≤ decimalValue (input.takeWhile isDigit) →
      consumeDecimalNumber input val = (false, input, val)) ∧
    (input.takeWhile isDigit = [] →
      (consumeDecimalNumber input val).1 = false ∧ (consumeDecimalNumber input val).2.1 = input) ∧
    ∀ (num : BitVec 64) (padding : Slice),
      (∀ byte, padding.head? = some byte → isDigit byte = false) →
      consumeDecimalNumber (numberToString num ++ padding) val = (true, padding, num) := by
  have split : input.takeWhile isDigit ++ input.dropWhile isDigit = input :=
    List.takeWhile_append_dropWhile
  refine ⟨?_, ?_, ?_, ?_, ?_⟩
  · rw [consumeDecimalNumber_eq]
    split_ifs with fits
    · simp only [decide_eq_true_eq, fits, and_true]
    · simp only [fits, and_false]
  · rw [consumeDecimalNumber_eq]
    split_ifs with fits
    · intro _
      exact ⟨split.symm, by rw [BitVec.toNat_ofNat, Nat.mod_eq_of_lt fits]⟩
    · exact False.elim
  · intro large
    rw [consumeDecimalNumber_eq, if_neg (Nat.not_lt.mpr large)]
  · intro none
    rw [none, List.nil_append] at split
    rw [consumeDecimalNumber_eq, none, split, if_pos (by decide)]
    exact ⟨rfl, rfl⟩
  · intro num padding noDigit
    obtain ⟨taken, dropped⟩ := numberToString_split num noDigit
    rw [consumeDecimalNumber_eq, taken, dropped, decimalValue_decimalDigits, if_pos num.isLt,
      decide_eq_true (decimalDigits_ne_nil num), BitVec.ofNat_toNat, BitVec.setWidth_eq]

/-- Behind zeros and before other text a number is read; the greatest one is read back before
other text; one more than it is not read. -/
theorem consumeDecimalNumber_exact_limits :
    (consumeDecimalNumber [0x30, 0x30, 0x37, 0x78] 5).2.2.toNat = 7 ∧
      consumeDecimalNumber (numberToString kMaxUint64 ++ [0x78]) 5 = (true, [0x78], kMaxUint64) ∧
      consumeDecimalNumber ([0x31, 0x38, 0x34, 0x34, 0x36, 0x37, 0x34, 0x34, 0x30, 0x37, 0x33,
          0x37, 0x30, 0x39, 0x35, 0x35, 0x31, 0x36, 0x31, 0x36]) 5 =
        (false, [0x31, 0x38, 0x34, 0x34, 0x36, 0x37, 0x34, 0x34, 0x30, 0x37, 0x33, 0x37, 0x30,
          0x39, 0x35, 0x35, 0x31, 0x36, 0x31, 0x36], 5) ∧
      (consumeDecimalNumber [0x78] 5).1 = false := by
  refine ⟨?_, ?_, ?_, ?_⟩
  · exact ((consumeDecimalNumber_exact [0x30, 0x30, 0x37, 0x78] 5).2.1 (by decide)).2
  · refine (consumeDecimalNumber_exact [] 5).2.2.2.2 kMaxUint64 [0x78] ?_
    intro byte first
    rw [← Option.some.inj first]
    decide
  · exact (consumeDecimalNumber_exact _ 5).2.2.1 (by decide)
  · exact ((consumeDecimalNumber_exact [0x78] 5).2.2.2.1 (by decide)).1

end MiniLevelDb
