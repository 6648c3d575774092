import MiniLevelDb.Util.Coding

/-!
# Streams of encoded values

The `Put` functions append to a string and the `Get` functions take from the front of
one. What is written one value after another is read back in the same order, whatever
follows it.
-/

namespace MiniLevelDb

/-- `EncodeVarint64`: the bytes stored from `dst` on. -/
def encodeVarint64 (value : BitVec 64) : Slice :=
  if value ≥ 128 then (value ||| 128).setWidth 8 :: encodeVarint64 (value >>> 7)
  else [value.setWidth 8]
termination_by value.toNat
decreasing_by
  have : 128 ≤ value.toNat := by assumption
  rw [toNat_shiftRight_seven]
  omega

def putFixed32 (dst : Slice) (value : BitVec 32) : Slice := dst ++ encodeFixed32 value

def putFixed64 (dst : Slice) (value : BitVec 64) : Slice := dst ++ encodeFixed64 value

def putVarint32 (dst : Slice) (value : BitVec 32) : Slice := dst ++ encodeVarint32 value

def putVarint64 (dst : Slice) (value : BitVec 64) : Slice := dst ++ encodeVarint64 value

/-- `PutLengthPrefixedSlice`; the size becomes a `uint32_t`. -/
def putLengthPrefixedSlice (dst value : Slice) : Slice :=
  putVarint32 dst (BitVec.ofNat 32 value.length) ++ value

/-- The loop of `GetVarint64Ptr`, with `limit` bytes of `p` still allowed. -/
def getVarint64Loop : Nat → Nat → Slice → BitVec 64 → Option (BitVec 64 × Slice)
  | limit + 1, shift, next :: p, result =>
      if shift ≤ 63 then
        let byte := next.setWidth 64
        if byte &&& 128 ≠ 0 then
          getVarint64Loop limit (shift + 7) p (result ||| ((byte &&& 127) <<< shift))
        else some (result ||| (byte <<< shift), p)
      else none
  | _, _, _, _ => none

def getVarint64Ptr (p : Slice) (limit : Nat) : Option (BitVec 64 × Slice) :=
  getVarint64Loop limit 0 p 0

/-- `GetVarint32`: the value, if there is one, and `*input` after the call. -/
def getVarint32 (input : Slice) : Option (BitVec 32) × Slice :=
  match getVarint32Ptr input input.length with
  | none => (none, input)
  | some (value, rest) => (some value, rest)

/-- `GetVarint64`. -/
def getVarint64 (input : Slice) : Option (BitVec 64) × Slice :=
  match getVarint64Ptr input input.length with
  | none => (none, input)
  | some (value, rest) => (some value, rest)

/-- `GetLengthPrefixedSlice`. A length without enough bytes behind it is consumed. -/
def getLengthPrefixedSlice (input : Slice) : Option Slice × Slice :=
  match getVarint32 input with
  | (none, input) => (none, input)
  | (some len, input) =>
      if input.length ≥ len.toNat then (some (input.take len.toNat), input.drop len.toNat)
      else (none, input)

theorem encodeVarint64_eq (value : BitVec 64) :
    encodeVarint64 value =
      if value.toNat < 128 then [value.setWidth 8]
      else (value ||| 128).setWidth 8 :: encodeVarint64 (value >>> 7) := by
  rw [encodeVarint64]
  by_cases short : value.toNat < 128
  · have below : ¬ value ≥ 128 := Nat.not_le_of_lt short
    rw [if_neg below, if_pos short]
  · have above : value ≥ 128 := Nat.le_of_not_lt short
    rw [if_pos above, if_neg short]

/-- The unrolled encoder and the loop agree. -/
theorem encodeVarint64_setWidth (value : BitVec 32) :
    encodeVarint64 (value.setWidth 64) = encodeVarint32 value := by
  induction size : value.toNat using Nat.strongRecOn generalizing value with
  | ind size ih =>
      subst size
      have wide : (value.setWidth 64).toNat = value.toNat := by
        rw [BitVec.toNat_setWidth]
        omega
      rw [encodeVarint64_eq, encodeVarint32_eq, wide]
      by_cases short : value.toNat < 128
      · rw [if_pos short, if_pos short]
        congr 1
      · have narrow : value.setWidth 64 >>> 7 = (value >>> 7).setWidth 64 := by
          apply BitVec.eq_of_toNat_eq
          rw [toNat_shiftRight_seven, wide, BitVec.toNat_setWidth, toNat_shiftRight_seven]
          omega
        have byte : (value.setWidth 64 ||| 128).setWidth 8 = (value ||| 128).setWidth 8 := by
          apply BitVec.eq_of_getLsbD_eq
          intro bit inside
          simp only [BitVec.ofNat_eq_ofNat, BitVec.getLsbD_setWidth, BitVec.getLsbD_or,
            getLsbD_128 (by decide : 8 ≤ 32), getLsbD_128 (by decide : 8 ≤ 64)]
          grind
        rw [if_neg short, if_neg short, narrow, byte,
          ih (value >>> 7).toNat (by rw [toNat_shiftRight_seven]; omega) _ rfl]

/-- `VarintLength` is the number of bytes the encoder stores. -/
theorem varintLength_encodeVarint64 (value : BitVec 64) :
    varintLength value = (encodeVarint64 value).length := by
  induction size : value.toNat using Nat.strongRecOn generalizing value with
  | ind size ih =>
      subst size
      rw [varintLength, encodeVarint64]
      by_cases long : value ≥ 128
      · have smaller : (value >>> 7).toNat < value.toNat := by
          have : 128 ≤ value.toNat := long
          rw [toNat_shiftRight_seven]
          omega
        rw [if_pos long, if_pos long, List.length_cons, ih _ smaller _ rfl]
      · rw [if_neg long, if_neg long]
        rfl

theorem varintLength_encodeVarint32 (value : BitVec 32) :
    varintLength (value.setWidth 64) = (encodeVarint32 value).length := by
  rw [varintLength_encodeVarint64, encodeVarint64_setWidth]

/-- The loop reads on from the bits it already has. -/
theorem getVarint64Loop_encodeVarint64 (value result : BitVec 64) (tail : Slice)
    {rounds limit : Nat} (fits : value.toNat < 2 ^ (64 - 7 * rounds)) (early : rounds ≤ 9)
    (room : (encodeVarint64 value).length ≤ limit) :
    getVarint64Loop limit (7 * rounds) (encodeVarint64 value ++ tail) result =
      some (result ||| (value <<< (7 * rounds)), tail) := by
  induction limit generalizing value result rounds with
  | zero =>
      rw [encodeVarint64_eq] at room
      split at room <;> simp at room
  | succ limit ih =>
      have shift : 7 * rounds ≤ 63 := by omega
      rw [encodeVarint64_eq] at room ⊢
      by_cases short : value.toNat < 128
      · obtain ⟨same, unmarked⟩ := last_byte (by decide) short
        rw [if_pos short, List.singleton_append, getVarint64Loop, if_pos shift]
        simp only [same, unmarked, ne_eq, not_true_eq_false, if_false]
      · obtain ⟨marked, low⟩ := marked_byte (by decide) value
        rw [if_neg short, List.length_cons] at room
        rw [if_neg short, List.cons_append, getVarint64Loop, if_pos shift]
        simp only [if_pos marked, low]
        have more : rounds < 9 := by
          by_contra last
          obtain rfl : rounds = 9 := by omega
          simp at fits
          omega
        have rest : (value >>> 7).toNat < 2 ^ (64 - 7 * (rounds + 1)) := by
          rw [toNat_shiftRight_seven, Nat.div_lt_iff_lt_mul (by decide)]
          have split : 2 ^ (64 - 7 * (rounds + 1)) * 128 = 2 ^ (64 - 7 * rounds) := by
            rw [← Nat.pow_add 2 _ 7]
            congr 1
            omega
          rwa [split]
        rw [← Nat.mul_succ, ih (value >>> 7) _ rest (by omega) (by omega), Nat.mul_succ,
          or_seven_bits (by decide)]

/-- A varint is read back from its encoding whatever follows it. -/
theorem getVarint64_encodeVarint64 (value : BitVec 64) (tail : Slice) :
    getVarint64 (encodeVarint64 value ++ tail) = (some value, tail) := by
  have read := @getVarint64Loop_encodeVarint64 value 0 tail 0 (encodeVarint64 value ++ tail).length
    (by simpa using value.isLt) (by decide) (by simp)
  simp only [Nat.mul_zero] at read
  rw [getVarint64, getVarint64Ptr, read]
  simp

theorem getVarint32_encodeVarint32 (value : BitVec 32) (tail : Slice) :
    getVarint32 (encodeVarint32 value ++ tail) = (some value, tail) := by
  rw [getVarint32, getVarint32Ptr_encodeVarint32 value tail (by simp)]

/-- A string is read back from behind its length whatever follows it. -/
theorem getLengthPrefixedSlice_put (value tail : Slice) (short : value.length < 2 ^ 32) :
    getLengthPrefixedSlice (putLengthPrefixedSlice [] value ++ tail) = (some value, tail) := by
  have size : (BitVec.ofNat 32 value.length).toNat = value.length := by
    rw [BitVec.toNat_ofNat, Nat.mod_eq_of_lt short]
  rw [putLengthPrefixedSlice, putVarint32, List.nil_append, List.append_assoc,
    getLengthPrefixedSlice, getVarint32_encodeVarint32]
  simp [size]

/-! ## Streams -/

/-- A value and the function that writes it. -/
inductive CodecItem where
  | fixed32 (value : BitVec 32)
  | fixed64 (value : BitVec 64)
  | varint32 (value : BitVec 32)
  | varint64 (value : BitVec 64)
  | lengthPrefixed (value : Slice)
deriving DecidableEq, Repr

/-- Which of the readers is called. -/
inductive CodecKind where
  | fixed32
  | fixed64
  | varint32
  | varint64
  | lengthPrefixed
deriving DecidableEq, Repr

namespace CodecItem

def kind : CodecItem → CodecKind
  | .fixed32 _ => .fixed32
  | .fixed64 _ => .fixed64
  | .varint32 _ => .varint32
  | .varint64 _ => .varint64
  | .lengthPrefixed _ => .lengthPrefixed

/-- The length of a string fits a `uint32_t`. -/
def Fits : CodecItem → Prop
  | .lengthPrefixed value => value.length < 2 ^ 32
  | _ => True

def put (dst : Slice) : CodecItem → Slice
  | .fixed32 value => putFixed32 dst value
  | .fixed64 value => putFixed64 dst value
  | .varint32 value => putVarint32 dst value
  | .varint64 value => putVarint64 dst value
  | .lengthPrefixed value => putLengthPrefixedSlice dst value

/-- One value from the front of the input, and what is left; a fixed-width value is
decoded only where its bytes are there. -/
def get (input : Slice) : CodecKind → Option (CodecItem × Slice)
  | .fixed32 =>
      if 4 ≤ input.length then some (.fixed32 (decodeFixed32 input), input.drop 4) else none
  | .fixed64 =>
      if 8 ≤ input.length then some (.fixed64 (decodeFixed64 input), input.drop 8) else none
  | .varint32 => (getVarint32 input).1.map fun value => (.varint32 value, (getVarint32 input).2)
  | .varint64 => (getVarint64 input).1.map fun value => (.varint64 value, (getVarint64 input).2)
  | .lengthPrefixed =>
      (getLengthPrefixedSlice input).1.map fun value =>
        (.lengthPrefixed value, (getLengthPrefixedSlice input).2)

def getAll : List CodecKind → Slice → Option (List CodecItem × Slice)
  | [], input => some ([], input)
  | kind :: kinds, input => do
      let (item, input) ← get input kind
      let (items, input) ← getAll kinds input
      some (item :: items, input)

theorem put_append (dst : Slice) (item : CodecItem) : put dst item = dst ++ put [] item := by
  cases item <;>
    simp [put, putFixed32, putFixed64, putVarint32, putVarint64, putLengthPrefixedSlice]

/-- One value is read back, whatever follows it. -/
theorem get_put {item : CodecItem} (fits : item.Fits) (tail : Slice) :
    get (put [] item ++ tail) item.kind = some (item, tail) := by
  cases item with
  | fixed32 value =>
      have read := decodeFixed32_encodeFixed32 value tail
      have left : (encodeFixed32 value ++ tail).drop 4 = tail := rfl
      simp [put, putFixed32, kind, get, read, left]
  | fixed64 value =>
      have read := decodeFixed64_encodeFixed64 value tail
      have left : (encodeFixed64 value ++ tail).drop 8 = tail := rfl
      simp [put, putFixed64, kind, get, read, left]
  | varint32 value =>
      simp only [put, putVarint32, List.nil_append, kind, get, getVarint32_encodeVarint32,
        Option.map_some]
  | varint64 value =>
      simp only [put, putVarint64, List.nil_append, kind, get, getVarint64_encodeVarint64,
        Option.map_some]
  | lengthPrefixed value =>
      simp only [put, kind, get, getLengthPrefixedSlice_put value tail fits, Option.map_some]

theorem foldl_put (items : List CodecItem) (dst : Slice) :
    items.foldl put dst = dst ++ items.foldl put [] := by
  induction items generalizing dst with
  | nil => exact (List.append_nil dst).symm
  | cons item items ih =>
      rw [List.foldl_cons, List.foldl_cons, ih, ih (put [] item), put_append, List.append_assoc]

/-- A stream is read back. -/
theorem getAll_foldl_put {items : List CodecItem} (fits : ∀ item ∈ items, item.Fits)
    (tail : Slice) :
    getAll (items.map kind) (items.foldl put [] ++ tail) = some (items, tail) := by
  induction items with
  | nil => rfl
  | cons item items ih =>
      have rest := ih fun other member => fits other (List.mem_cons_of_mem _ member)
      rw [List.foldl_cons, foldl_put, List.append_assoc, List.map_cons, getAll,
        get_put (fits item List.mem_cons_self), Option.bind_eq_bind, Option.bind_some]
      simp only [rest, Option.bind_eq_bind, Option.bind_some]

end CodecItem

/-- Values written one after another are read back in the same order up to the bytes that
follow them, a varint takes as many bytes as `VarintLength` says, and the two varint
encoders agree. -/
theorem codec_stream :
    (∀ (items : List CodecItem) (tail : Slice), (∀ item ∈ items, item.Fits) →
      CodecItem.getAll (items.map CodecItem.kind) (items.foldl CodecItem.put [] ++ tail) =
        some (items, tail)) ∧
    (∀ (dst : Slice) (value : BitVec 32),
      (putVarint32 dst value).length = dst.length + varintLength (value.setWidth 64)) ∧
    (∀ (dst : Slice) (value : BitVec 64),
      (putVarint64 dst value).length = dst.length + varintLength value) ∧
    ∀ value : BitVec 32, encodeVarint32 value = encodeVarint64 (value.setWidth 64) := by
  refine ⟨fun items tail fits => CodecItem.getAll_foldl_put fits tail, ?_, ?_, ?_⟩
  · intro dst value
    rw [putVarint32, List.length_append, varintLength_encodeVarint32]
  · intro dst value
    rw [putVarint64, List.length_append, varintLength_encodeVarint64]
  · intro value
    exact (encodeVarint64_setWidth value).symm

theorem codec_stream_mixed :
    CodecItem.getAll [.varint32, .lengthPrefixed, .fixed64]
      ([CodecItem.varint32 300, .lengthPrefixed [7], .fixed64 1].foldl CodecItem.put [] ++ [9]) =
      some ([.varint32 300, .lengthPrefixed [7], .fixed64 1], [9]) :=
  codec_stream.1 [.varint32 300, .lengthPrefixed [7], .fixed64 1] [9] (by
    intro item member
    simp only [List.mem_cons, List.not_mem_nil, or_false] at member
    rcases member with rfl | rfl | rfl
    · trivial
    · exact (by decide : 1 < 2 ^ 32)
    · trivial)

end MiniLevelDb
