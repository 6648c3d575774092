import MiniLevelDb.Db.DbFormat
import MiniLevelDb.Util.CodingStream

/-!
# Parsing internal keys

An internal key can be taken apart again: the last eight bytes are its tag, and no
other bytes make the same key. A key is accepted if it is long enough and its type is
one of the two there are.
-/

namespace MiniLevelDb

structure ParsedInternalKey where
  userKey : Slice
  sequence : SequenceNumber
  type : ValueType
deriving DecidableEq, Repr

/-- `AppendInternalKey`. -/
def appendInternalKey (result : Slice) (key : ParsedInternalKey) : Option Slice := do
  let tag ← packSequenceAndType key.sequence key.type
  some (putFixed64 (result ++ key.userKey) tag)

/-- `static_cast<ValueType>(c)`, of a number the type has an enumerator for. -/
def ValueType.ofCode? (code : Byte) : Option ValueType :=
  if code = 0x0 then some kTypeDeletion else if code = 0x1 then some kTypeValue else none

/-- `ParseInternalKey`: the result, where it returns true. -/
def parseInternalKey (internalKey : Slice) : Option ParsedInternalKey :=
  if internalKey.length < 8 then none
  else
    let num := tagOf internalKey
    let code : Byte := (num &&& 0xff).setWidth 8
    if code ≤ ValueType.kTypeValue.code.setWidth 8 then
      (ValueType.ofCode? code).map fun type =>
        { sequence := num >>> 8
          type := type
          userKey := internalKey.take (internalKey.length - 8) }
    else none

/-- Eight bytes are determined by the integer they encode. -/
theorem encodeFixed64_decodeFixed64 {bytes : Slice} (eight : bytes.length = 8) :
    encodeFixed64 (decodeFixed64 bytes) = bytes := by
  match bytes, eight with
  | [b0, b1, b2, b3, b4, b5, b6, b7], _ =>
      simp only [decodeFixed64, encodeFixed64, List.getD_cons_zero, List.getD_cons_succ,
        List.cons.injEq, and_true]
      refine ⟨?_, ?_, ?_, ?_, ?_, ?_, ?_, ?_⟩
      all_goals
        ext bit inside
        simp only [BitVec.getElem_setWidth, BitVec.getLsbD_or, BitVec.getLsbD_ushiftRight,
          BitVec.getLsbD_shiftLeft, BitVec.getLsbD_setWidth]
        grind

/-- A key is its user key and its tag. -/
theorem internalKeyOf_tagOf {internalKey : Slice} (enough : 8 ≤ internalKey.length) :
    internalKeyOf (internalKey.take (internalKey.length - 8)) (tagOf internalKey) =
      internalKey := by
  rw [internalKeyOf, tagOf, encodeFixed64_decodeFixed64 (by rw [List.length_drop]; omega),
    List.take_append_drop]

theorem appendInternalKey_eq {key : ParsedInternalKey}
    (small : key.sequence ≤ kMaxSequenceNumber) (result : Slice) :
    appendInternalKey result key =
      some (result ++ internalKeyOf key.userKey (key.sequence <<< 8 ||| key.type.code)) := by
  simp only [appendInternalKey, packSequenceAndType_eq small, Option.bind_eq_bind,
    Option.bind_some, putFixed64, internalKeyOf, List.append_assoc]

/-- The low byte of a tag is a type exactly if it is at most the code of a value. -/
theorem ofCode?_of_le {code : Byte} (known : code ≤ ValueType.kTypeValue.code.setWidth 8) :
    ∃ type, ValueType.ofCode? code = some type ∧ type.code = code.setWidth 64 := by
  have bound : code.toNat ≤ 1 := known
  have cases_ : code = 0 ∨ code = 1 := by
    rcases Nat.le_one_iff_eq_zero_or_eq_one.mp bound with zero | one
    · exact .inl (BitVec.eq_of_toNat_eq zero)
    · exact .inr (BitVec.eq_of_toNat_eq one)
  rcases cases_ with rfl | rfl
  · exact ⟨.kTypeDeletion, rfl, rfl⟩
  · exact ⟨.kTypeValue, rfl, rfl⟩

/-- What parsing accepts. -/
theorem parseInternalKey_isSome_iff (internalKey : Slice) :
    (parseInternalKey internalKey).isSome = true ↔
      8 ≤ internalKey.length ∧
        (tagOf internalKey &&& 0xff).setWidth 8 ≤ ValueType.kTypeValue.code.setWidth 8 := by
  unfold parseInternalKey
  by_cases short : internalKey.length < 8
  · rw [if_pos short]
    constructor
    · intro accepted
      cases accepted
    · intro both
      exact absurd short (Nat.not_lt_of_le both.1)
  · rw [if_neg short]
    by_cases known : (tagOf internalKey &&& 0xff).setWidth 8 ≤
        ValueType.kTypeValue.code.setWidth 8
    · obtain ⟨type, isType, -⟩ := ofCode?_of_le known
      simp only [known, if_true, isType]
      exact ⟨fun _ => ⟨Nat.le_of_not_lt short, trivial⟩, fun _ => rfl⟩
    · simp only [known, if_false]
      simp

/-- The tag of a parsed key is its number again. -/
theorem parsed_tag {num : BitVec 64} {type : ValueType}
    (isType : type.code = ((num &&& 0xff).setWidth 8).setWidth 64) :
    num >>> 8 <<< 8 ||| type.code = num := by
  have ones : ∀ index, Nat.testBit 255 index = decide (index < 8) :=
    fun index => Nat.testBit_two_pow_sub_one 8 index
  rw [isType]
  apply BitVec.eq_of_getLsbD_eq
  intro bit inside
  simp only [BitVec.ofNat_eq_ofNat, BitVec.getLsbD_or, BitVec.getLsbD_shiftLeft,
    BitVec.getLsbD_ushiftRight, BitVec.getLsbD_setWidth, BitVec.getLsbD_and,
    BitVec.getLsbD_ofNat, ones]
  grind

/-- The tag of a key that was put together is taken apart again. -/
theorem tag_shiftRight {sequence : SequenceNumber} (small : sequence ≤ kMaxSequenceNumber)
    (type : ValueType) : (sequence <<< 8 ||| type.code) >>> 8 = sequence := by
  apply BitVec.eq_of_toNat_eq
  have code : type.code.toNat < 2 ^ 8 := by cases type <;> decide
  rw [BitVec.toNat_ushiftRight, toNat_tag small, Nat.shiftRight_eq_div_pow]
  omega

theorem parseInternalKey_internalKeyOf {key : ParsedInternalKey}
    (small : key.sequence ≤ kMaxSequenceNumber) :
    parseInternalKey (internalKeyOf key.userKey (key.sequence <<< 8 ||| key.type.code)) =
      some key := by
  have enough :
      ¬ (internalKeyOf key.userKey (key.sequence <<< 8 ||| key.type.code)).length < 8 := by
    rw [length_internalKeyOf]
    omega
  have known : key.type.code.setWidth 8 ≤ ValueType.kTypeValue.code.setWidth 8 := by
    cases key.type <;> decide
  have isType : ValueType.ofCode? (key.type.code.setWidth 8) = some key.type := by
    cases key.type <;> rfl
  rw [parseInternalKey, if_neg enough]
  simp only [tagOf_internalKeyOf, tag_and_255 small, tag_shiftRight small, known, if_true, isType,
    Option.map_some, length_internalKeyOf, Nat.add_sub_cancel]
  simp [internalKeyOf]

/-- A key that is accepted is put together again from its parts. -/
theorem appendInternalKey_parsed {internalKey : Slice} {parsed : ParsedInternalKey}
    (accepted : parseInternalKey internalKey = some parsed) :
    parsed.sequence ≤ kMaxSequenceNumber ∧
      ∀ result, appendInternalKey result parsed = some (result ++ internalKey) := by
  obtain ⟨enough, known⟩ := (parseInternalKey_isSome_iff internalKey).mp (by rw [accepted]; rfl)
  obtain ⟨type, isType, code⟩ := ofCode?_of_le known
  rw [parseInternalKey, if_neg (Nat.not_lt_of_le enough)] at accepted
  simp only [known, if_true, isType, Option.map_some, Option.some.injEq] at accepted
  subst accepted
  have small : tagOf internalKey >>> 8 ≤ kMaxSequenceNumber := by
    show (tagOf internalKey >>> 8).toNat ≤ 2 ^ 56 - 1
    have bound := (tagOf internalKey).isLt
    rw [BitVec.toNat_ushiftRight, Nat.shiftRight_eq_div_pow]
    omega
  refine ⟨small, fun result => ?_⟩
  rw [appendInternalKey_eq small]
  simp only [parsed_tag code, internalKeyOf_tagOf enough]

/-- Internal keys and parsed keys stand for each other: what is appended for a parsed key
is parsed to it again, and what is parsed is appended again. -/
theorem internalKey_bijection :
    (∀ (result userKey : Slice) (sequence : SequenceNumber) (type : ValueType),
      sequence ≤ kMaxSequenceNumber →
      ∃ appended, appendInternalKey result ⟨userKey, sequence, type⟩ = some (result ++ appended) ∧
        parseInternalKey appended = some ⟨userKey, sequence, type⟩ ∧
        extractUserKey appended = some userKey) ∧
    ∀ internalKey : Slice,
      ((parseInternalKey internalKey).isSome = true ↔ 8 ≤ internalKey.length ∧
        (tagOf internalKey &&& 0xff).setWidth 8 ≤ ValueType.kTypeValue.code.setWidth 8) ∧
      ∀ parsed, parseInternalKey internalKey = some parsed →
        parsed.sequence ≤ kMaxSequenceNumber ∧
        ∀ result, appendInternalKey result parsed = some (result ++ internalKey) := by
  constructor
  · intro result userKey sequence type small
    exact ⟨_, @appendInternalKey_eq ⟨userKey, sequence, type⟩ small result,
      @parseInternalKey_internalKeyOf ⟨userKey, sequence, type⟩ small,
      extractUserKey_internalKeyOf _ _⟩
  · intro internalKey
    exact ⟨parseInternalKey_isSome_iff internalKey, fun parsed => appendInternalKey_parsed⟩

theorem internalKey_bijection_of_value :
    ∃ appended, appendInternalKey [9] ⟨[107], 5, .kTypeValue⟩ = some ([9] ++ appended) ∧
      parseInternalKey appended = some ⟨[107], 5, .kTypeValue⟩ ∧
      extractUserKey appended = some [107] :=
  internalKey_bijection.1 [9] [107] 5 .kTypeValue (by decide)

end MiniLevelDb
