import MiniLevelDb.Util.Slice

/-!
# Fixed-width and variable-width integers

The encodings of `util/coding.cc`. A write through a pointer is the list of bytes
it stores, and a read through a pointer reads the byte string that starts there.
-/

namespace MiniLevelDb

/-- `EncodeFixed32`: the four bytes stored at `dst`. -/
def encodeFixed32 (value : BitVec 32) : Slice :=
  [value.setWidth 8, (value >>> 8).setWidth 8, (value >>> 16).setWidth 8,
    (value >>> 24).setWidth 8]

/-- `EncodeFixed64`: the eight bytes stored at `dst`. -/
def encodeFixed64 (value : BitVec 64) : Slice :=
  [value.setWidth 8, (value >>> 8).setWidth 8, (value >>> 16).setWidth 8,
    (value >>> 24).setWidth 8, (value >>> 32).setWidth 8, (value >>> 40).setWidth 8,
    (value >>> 48).setWidth 8, (value >>> 56).setWidth 8]

/-- `DecodeFixed32`. -/
def decodeFixed32 (ptr : Slice) : BitVec 32 :=
  (ptr.getD 0 0).setWidth 32 ||| ((ptr.getD 1 0).setWidth 32 <<< 8) |||
    ((ptr.getD 2 0).setWidth 32 <<< 16) ||| ((ptr.getD 3 0).setWidth 32 <<< 24)

/-- `DecodeFixed64`. -/
def decodeFixed64 (ptr : Slice) : BitVec 64 :=
  (ptr.getD 0 0).setWidth 64 ||| ((ptr.getD 1 0).setWidth 64 <<< 8) |||
    ((ptr.getD 2 0).setWidth 64 <<< 16) ||| ((ptr.getD 3 0).setWidth 64 <<< 24) |||
    ((ptr.getD 4 0).setWidth 64 <<< 32) ||| ((ptr.getD 5 0).setWidth 64 <<< 40) |||
    ((ptr.getD 6 0).setWidth 64 <<< 48) ||| ((ptr.getD 7 0).setWidth 64 <<< 56)

/-- `EncodeVarint32`: the bytes stored from `dst` on. -/
def encodeVarint32 (value : BitVec 32) : Slice :=
  if value < 1#32 <<< 7 then
    [value.setWidth 8]
  else if value < 1#32 <<< 14 then
    [(value ||| 128).setWidth 8, (value >>> 7).setWidth 8]
  else if value < 1#32 <<< 21 then
    [(value ||| 128).setWidth 8, (value >>> 7 ||| 128).setWidth 8, (value >>> 14).setWidth 8]
  else if value < 1#32 <<< 28 then
    [(value ||| 128).setWidth 8, (value >>> 7 ||| 128).setWidth 8,
      (value >>> 14 ||| 128).setWidth 8, (value >>> 21).setWidth 8]
  else
    [(value ||| 128).setWidth 8, (value >>> 7 ||| 128).setWidth 8,
      (value >>> 14 ||| 128).setWidth 8, (value >>> 21 ||| 128).setWidth 8,
      (value >>> 28).setWidth 8]

/-- `VarintLength`. -/
def varintLength (value : BitVec 64) : Nat :=
  if value ≥ 128 then varintLength (value >>> 7) + 1 else 1
termination_by value.toNat
decreasing_by
  have : 128 ≤ value.toNat := by assumption
  rw [BitVec.toNat_ushiftRight, Nat.shiftRight_eq_div_pow]
  omega

/-- The loop of `GetVarint32PtrFallback`, with `limit` bytes of `p` still allowed. The
answer is the value and the string behind it, or nothing for `nullptr`. -/
def getVarint32Loop : Nat → Nat → Slice → BitVec 32 → Option (BitVec 32 × Slice)
  | limit + 1, shift, next :: p, result =>
      if shift ≤ 28 then
        let byte := next.setWidth 32
        if byte &&& 128 ≠ 0 then
          getVarint32Loop limit (shift + 7) p (result ||| ((byte &&& 127) <<< shift))
        else some (result ||| (byte <<< shift), p)
      else none
  | _, _, _, _ => none

def getVarint32PtrFallback (p : Slice) (limit : Nat) : Option (BitVec 32 × Slice) :=
  getVarint32Loop limit 0 p 0

def getVarint32Ptr (p : Slice) (limit : Nat) : Option (BitVec 32 × Slice) :=
  match limit, p with
  | _ + 1, next :: rest =>
      let result := next.setWidth 32
      if result &&& 128 = 0 then some (result, rest) else getVarint32PtrFallback p limit
  | _, _ => getVarint32PtrFallback p limit

@[simp] theorem length_encodeFixed32 (value : BitVec 32) : (encodeFixed32 value).length = 4 := rfl

@[simp] theorem length_encodeFixed64 (value : BitVec 64) : (encodeFixed64 value).length = 8 := rfl

/-- A 32-bit integer is read back from its encoding whatever follows it. -/
theorem decodeFixed32_encodeFixed32 (value : BitVec 32) (tail : Slice) :
    decodeFixed32 (encodeFixed32 value ++ tail) = value := by
  simp only [decodeFixed32, encodeFixed32, List.cons_append, List.getD_cons_zero,
    List.getD_cons_succ]
  ext bit inside
  simp [BitVec.getElem_or, BitVec.getElem_shiftLeft, BitVec.getElem_setWidth,
    BitVec.getLsbD_setWidth, BitVec.getLsbD_ushiftRight]
  grind

/-- A 64-bit integer is read back from its encoding whatever follows it. -/
theorem decodeFixed64_encodeFixed64 (value : BitVec 64) (tail : Slice) :
    decodeFixed64 (encodeFixed64 value ++ tail) = value := by
  simp only [decodeFixed64, encodeFixed64, List.cons_append, List.getD_cons_zero,
    List.getD_cons_succ]
  ext bit inside
  simp [BitVec.getElem_or, BitVec.getElem_shiftLeft, BitVec.getElem_setWidth,
    BitVec.getLsbD_setWidth, BitVec.getLsbD_ushiftRight]
  grind

/-- Four bytes are determined by the integer they encode. -/
theorem encodeFixed32_decodeFixed32 (first second third fourth : Byte) (tail : Slice) :
    encodeFixed32 (decodeFixed32 (first :: second :: third :: fourth :: tail)) =
      [first, second, third, fourth] := by
  simp only [decodeFixed32, encodeFixed32, List.getD_cons_zero, List.getD_cons_succ,
    List.cons.injEq, and_true]
  refine ⟨?_, ?_, ?_, ?_⟩
  all_goals
    ext bit inside
    simp only [BitVec.getElem_setWidth, BitVec.getLsbD_or, BitVec.getLsbD_ushiftRight,
      BitVec.getLsbD_shiftLeft, BitVec.getLsbD_setWidth]
    grind

theorem encodeFixed32_of_length {bytes : Slice} (four : bytes.length = 4) :
    encodeFixed32 (decodeFixed32 bytes) = bytes := by
  match bytes, four with
  | [first, second, third, fourth], _ =>
      exact encodeFixed32_decodeFixed32 first second third fourth []

/-! ## Variable-width integers -/

theorem toNat_shiftRight_seven {width : Nat} (value : BitVec width) :
    (value >>> 7).toNat = value.toNat / 128 := by
  rw [BitVec.toNat_ushiftRight, Nat.shiftRight_eq_div_pow]

/-- The unrolled encoder stores seven bits and goes on with the rest. -/
theorem encodeVarint32_eq (value : BitVec 32) :
    encodeVarint32 value =
      if value.toNat < 128 then [value.setWidth 8]
      else (value ||| 128).setWidth 8 :: encodeVarint32 (value >>> 7) := by
  have bound := value.isLt
  simp only [encodeVarint32, BitVec.lt_def, toNat_shiftRight_seven, ← BitVec.shiftRight_add]
  simp only [BitVec.toNat_shiftLeft, BitVec.toNat_ofNat, Nat.reduceMod, Nat.reducePow,
    Nat.reduceShiftLeft, Nat.reduceAdd]
  by_cases one : value.toNat < 128
  · simp only [if_pos one]
  by_cases two : value.toNat < 16384
  · rw [if_neg one, if_pos two, if_neg one, if_pos (by omega)]
  by_cases three : value.toNat < 2097152
  · rw [if_neg one, if_neg two, if_pos three, if_neg one, if_neg (by omega), if_pos (by omega)]
  by_cases four : value.toNat < 268435456
  · rw [if_neg one, if_neg two, if_neg three, if_pos four, if_neg one, if_neg (by omega),
      if_neg (by omega), if_pos (by omega)]
  · rw [if_neg one, if_neg two, if_neg three, if_neg four, if_neg one, if_neg (by omega),
      if_neg (by omega), if_neg (by omega), if_pos (by omega)]

theorem length_encodeVarint32_le (value : BitVec 32) : (encodeVarint32 value).length ≤ 5 := by
  unfold encodeVarint32
  split
  · simp
  split
  · simp
  split
  · simp
  split <;> simp

section Bytes

variable {width : Nat} (wide : 8 ≤ width)
include wide

theorem getLsbD_127 (index : Nat) :
    BitVec.getLsbD (BitVec.ofNat width 127) index = decide (index < 7) := by
  have ones : Nat.testBit 127 index = decide (index < 7) := Nat.testBit_two_pow_sub_one 7 index
  rw [BitVec.getLsbD_ofNat, ones]
  grind

theorem getLsbD_128 (index : Nat) :
    BitVec.getLsbD (BitVec.ofNat width 128) index = decide (index = 7) := by
  have one : Nat.testBit 128 index = decide (7 = index) := @Nat.testBit_two_pow 7 index
  rw [BitVec.getLsbD_ofNat, one]
  grind

/-- The byte that carries seven bits and the mark that more follow. -/
theorem marked_byte (value : BitVec width) :
    ((value ||| 128).setWidth 8).setWidth width &&& 128 ≠ (0 : BitVec width) ∧
      ((value ||| 128).setWidth 8).setWidth width &&& 127 = value &&& 127 := by
  constructor
  · intro absurd
    have bit := congrArg (fun result => BitVec.getLsbD result 7) absurd
    simp only [BitVec.ofNat_eq_ofNat, BitVec.getLsbD_and, BitVec.getLsbD_setWidth,
      BitVec.getLsbD_or, getLsbD_128 wide, BitVec.getLsbD_zero] at bit
    grind
  · apply BitVec.eq_of_getLsbD_eq
    intro bit inside
    simp only [BitVec.ofNat_eq_ofNat, BitVec.getLsbD_and,
      BitVec.getLsbD_setWidth, BitVec.getLsbD_or, getLsbD_127 wide, getLsbD_128 wide]
    grind

/-- The byte that ends a number holds it unmarked. -/
theorem last_byte {value : BitVec width} (short : value.toNat < 128) :
    (value.setWidth 8).setWidth width = value ∧ value &&& 128 = 0 := by
  constructor
  · apply BitVec.eq_of_toNat_eq
    have bound := value.isLt
    rw [BitVec.toNat_setWidth, BitVec.toNat_setWidth, Nat.mod_eq_of_lt (by omega : _ < 2 ^ 8),
      Nat.mod_eq_of_lt bound]
  · apply BitVec.eq_of_getLsbD_eq
    intro bit inside
    have high : 7 ≤ bit → BitVec.getLsbD value bit = false := by
      intro above
      have power : 2 ^ 7 ≤ 2 ^ bit := Nat.pow_le_pow_right (by decide) above
      exact Nat.testBit_lt_two_pow (Nat.lt_of_lt_of_le short power)
    simp only [BitVec.ofNat_eq_ofNat, BitVec.getLsbD_and,
      getLsbD_128 wide, BitVec.getLsbD_zero]
    grind

/-- The low seven bits of a number and the rest of it make up the number. -/
theorem or_seven_bits (value result : BitVec width) (shift : Nat) :
    result ||| ((value &&& 127) <<< shift) ||| ((value >>> 7) <<< (shift + 7)) =
      result ||| (value <<< shift) := by
  apply BitVec.eq_of_getLsbD_eq
  intro bit inside
  simp only [BitVec.ofNat_eq_ofNat, BitVec.getLsbD_or, BitVec.getLsbD_shiftLeft,
    BitVec.getLsbD_and, BitVec.getLsbD_ushiftRight, getLsbD_127 wide]
  grind

end Bytes

/-- The loop reads on from the bits it already has. -/
theorem getVarint32Loop_encodeVarint32 (value result : BitVec 32) (tail : Slice)
    {rounds limit : Nat} (fits : value.toNat < 2 ^ (32 - 7 * rounds)) (early : rounds ≤ 4)
    (room : (encodeVarint32 value).length ≤ limit) :
    getVarint32Loop limit (7 * rounds) (encodeVarint32 value ++ tail) result =
      some (result ||| (value <<< (7 * rounds)), tail) := by
  induction limit generalizing value result rounds with
  | zero =>
      rw [encodeVarint32_eq] at room
      split at room <;> simp at room
  | succ limit ih =>
      have shift : 7 * rounds ≤ 28 := by omega
      rw [encodeVarint32_eq] at room ⊢
      by_cases short : value.toNat < 128
      · obtain ⟨same, unmarked⟩ := last_byte (by decide) short
        rw [if_pos short, List.singleton_append, getVarint32Loop, if_pos shift]
        simp only [same, unmarked, ne_eq, not_true_eq_false, if_false]
      · obtain ⟨marked, low⟩ := marked_byte (by decide) value
        rw [if_neg short, List.length_cons] at room
        rw [if_neg short, List.cons_append, getVarint32Loop, if_pos shift]
        simp only [if_pos marked, low]
        have more : rounds < 4 := by
          by_contra last
          obtain rfl : rounds = 4 := by omega
          simp at fits
          omega
        have rest : (value >>> 7).toNat < 2 ^ (32 - 7 * (rounds + 1)) := by
          rw [toNat_shiftRight_seven, Nat.div_lt_iff_lt_mul (by decide)]
          have split : 2 ^ (32 - 7 * (rounds + 1)) * 128 = 2 ^ (32 - 7 * rounds) := by
            rw [← Nat.pow_add 2 _ 7]
            congr 1
            omega
          rwa [split]
        rw [← Nat.mul_succ, ih (value >>> 7) _ rest (by omega) (by omega)]
        rw [Nat.mul_succ, or_seven_bits (by decide)]

/-- A varint is read back from its encoding whatever follows it. -/
theorem getVarint32Ptr_encodeVarint32 (value : BitVec 32) (tail : Slice) {limit : Nat}
    (room : (encodeVarint32 value).length ≤ limit) :
    getVarint32Ptr (encodeVarint32 value ++ tail) limit = some (value, tail) := by
  have slow : getVarint32PtrFallback (encodeVarint32 value ++ tail) limit =
      some (value, tail) := by
    have := @getVarint32Loop_encodeVarint32 value 0 tail 0 limit (by simpa using value.isLt)
      (by decide) room
    simpa [getVarint32PtrFallback] using this
  unfold getVarint32Ptr
  split
  case h_2 => exact slow
  case h_1 limit next rest bytes =>
    rw [bytes] at slow
    rw [encodeVarint32_eq] at bytes
    by_cases short : value.toNat < 128
    · rw [if_pos short, List.singleton_append, List.cons.injEq] at bytes
      obtain ⟨same, unmarked⟩ := last_byte (by decide) short
      obtain ⟨rfl, rfl⟩ := bytes
      simp only [same, unmarked, if_true]
    · rw [if_neg short, List.cons_append, List.cons.injEq] at bytes
      obtain ⟨rfl, rfl⟩ := bytes
      simp only [if_neg (marked_byte (by decide) value).1]
      rw [encodeVarint32_eq, if_neg short]
      exact slow

end MiniLevelDb
