import MiniLevelDb.Foundation.XorLinear
import MiniLevelDb.Util.Coding
import MiniLevelDb.Util.Crc32cTables

/-!
# The portable CRC-32C

`extendAt` follows the table-driven path of `crc32c::Extend`: bytes up to the
first word boundary, sixteen-byte swaths over four lanes, single words that
rotate the lanes, the recombination of the lanes, and the remaining bytes. The
address of the buffer only chooses how many bytes come before the first
boundary, and the result does not depend on it (`extendAt_eq_extend`): every
stage advances one register that is linear in exclusive or.
-/

namespace MiniLevelDb.Crc32c

open Foundation

/-- The conditioning applied to the register before and after. -/
def kCRC32Xor : BitVec 32 := 0xffffffff#32

/-- The rotation constant of masked checksums. -/
def kMaskDelta : BitVec 32 := 0xa282ead8#32

/-- `STEP1`: one byte. -/
def step1 (register : BitVec 32) (byte : Byte) : BitVec 32 :=
  let index := (register &&& 0xff#32) ^^^ byte.setWidth 32
  kByteExtensionTable.getD index.toNat 0 ^^^ (register >>> 8)

/-- `ReadUint32LE`. -/
def readUint32LE (buffer : Slice) : BitVec 32 :=
  decodeFixed32 buffer

/-- `STEP4`: one lane over the next word of its stride. -/
def step4 (lane : BitVec 32) (word : BitVec 32) : BitVec 32 :=
  word ^^^ kStrideExtensionTable3.getD (lane &&& 0xff#32).toNat 0 ^^^
    kStrideExtensionTable2.getD ((lane >>> 8) &&& 0xff#32).toNat 0 ^^^
    kStrideExtensionTable1.getD ((lane >>> 16) &&& 0xff#32).toNat 0 ^^^
    kStrideExtensionTable0.getD (lane >>> 24).toNat 0

/-- One round of the loop inside `STEP4W`. -/
def zeroByte (word : BitVec 32) : BitVec 32 :=
  (word >>> 8) ^^^ kByteExtensionTable.getD (word &&& 0xff#32).toNat 0

/-- `STEP4W`: a word already loaded, into the register. -/
def step4W (register word : BitVec 32) : BitVec 32 :=
  zeroByte (zeroByte (zeroByte (zeroByte (word ^^^ register))))

/-- The partial remainders `crc0` to `crc3`. -/
structure Lanes where
  crc0 : BitVec 32
  crc1 : BitVec 32
  crc2 : BitVec 32
  crc3 : BitVec 32

/-- The loop of `STEP16`, while at least sixteen bytes are left. -/
def swaths (lanes : Lanes) (data : Slice) : Lanes × Slice :=
  if 16 ≤ data.length then
    swaths
      { crc0 := step4 lanes.crc0 (readUint32LE data)
        crc1 := step4 lanes.crc1 (readUint32LE (data.drop 4))
        crc2 := step4 lanes.crc2 (readUint32LE (data.drop 8))
        crc3 := step4 lanes.crc3 (readUint32LE (data.drop 12)) }
      (data.drop 16)
  else
    (lanes, data)
termination_by data.length
decreasing_by simp only [List.length_drop]; omega

/-- The loop over single words, which rotates the lanes. -/
def words (lanes : Lanes) (data : Slice) : Lanes × Slice :=
  if 4 ≤ data.length then
    words
      { crc0 := lanes.crc1
        crc1 := lanes.crc2
        crc2 := lanes.crc3
        crc3 := step4 lanes.crc0 (readUint32LE data) }
      (data.drop 4)
  else
    (lanes, data)
termination_by data.length
decreasing_by simp only [List.length_drop]; omega

/-- The four `STEP4W` that combine the lanes. -/
def combine (lanes : Lanes) : BitVec 32 :=
  step4W (step4W (step4W (step4W 0 lanes.crc0) lanes.crc1) lanes.crc2) lanes.crc3

/-- `crc32c::Extend` on its portable path, over the bytes at `address`. -/
def extendAt (address : Nat) (crc : BitVec 32) (data : Slice) : BitVec 32 :=
  let register := crc ^^^ kCRC32Xor
  -- bytes before the first 4-byte boundary, unless that is past the end
  let lead := (4 - address % 4) % 4
  let aligned := if lead ≤ data.length then lead else 0
  let register := (data.take aligned).foldl step1 register
  let data := data.drop aligned
  let (register, data) :=
    if 16 ≤ data.length then
      let lanes : Lanes :=
        { crc0 := readUint32LE data ^^^ register
          crc1 := readUint32LE (data.drop 4)
          crc2 := readUint32LE (data.drop 8)
          crc3 := readUint32LE (data.drop 12) }
      let (lanes, data) := swaths lanes (data.drop 16)
      let (lanes, data) := words lanes data
      (combine lanes, data)
    else
      (register, data)
  data.foldl step1 register ^^^ kCRC32Xor

/-- `crc32c::Extend`, of an aligned buffer. -/
def extend (crc : BitVec 32) (data : Slice) : BitVec 32 :=
  extendAt 0 crc data

/-- `crc32c::Value`. -/
def value (data : Slice) : BitVec 32 :=
  extend 0 data

/-- `crc32c::Mask`. -/
def mask (crc : BitVec 32) : BitVec 32 :=
  ((crc >>> 15) ||| (crc <<< 17)) + kMaskDelta

/-- `crc32c::Unmask`. -/
def unmask (maskedCrc : BitVec 32) : BitVec 32 :=
  let rot := maskedCrc - kMaskDelta
  (rot >>> 17) ||| (rot <<< 15)

/-- Rotating right by fifteen and then by seventeen is the identity. -/
theorem rotate_rotate (crc : BitVec 32) :
    (((crc >>> 15) ||| (crc <<< 17)) >>> 17) ||| (((crc >>> 15) ||| (crc <<< 17)) <<< 15) =
      crc := by
  ext bit inside
  simp only [BitVec.getElem_or, BitVec.getElem_ushiftRight, BitVec.getElem_shiftLeft,
    BitVec.getLsbD_or, BitVec.getLsbD_ushiftRight, BitVec.getLsbD_shiftLeft]
  grind

theorem rotate_rotate' (crc : BitVec 32) :
    (((crc >>> 17) ||| (crc <<< 15)) >>> 15) ||| (((crc >>> 17) ||| (crc <<< 15)) <<< 17) =
      crc := by
  ext bit inside
  simp only [BitVec.getElem_or, BitVec.getElem_ushiftRight, BitVec.getElem_shiftLeft,
    BitVec.getLsbD_or, BitVec.getLsbD_ushiftRight, BitVec.getLsbD_shiftLeft]
  grind

/-- A masked checksum unmasks to the checksum. -/
theorem unmask_mask (crc : BitVec 32) : unmask (mask crc) = crc := by
  simp only [unmask, mask, BitVec.add_sub_cancel]
  exact rotate_rotate crc

/-- Masking undoes unmasking, so the stored checksum is determined by the one it
unmasks to. -/
theorem mask_unmask (maskedCrc : BitVec 32) : mask (unmask maskedCrc) = maskedCrc := by
  simp only [unmask, mask, rotate_rotate', BitVec.sub_add_cancel]

/-! ## The register -/

/-- The reflected CRC-32C polynomial. -/
def polynomial : BitVec 32 := 0x82f63b78#32

/-- One bit of the register, shifted out. -/
def shiftBit (register : BitVec 32) : BitVec 32 :=
  if register.getLsbD 0 then (register >>> 1) ^^^ polynomial else register >>> 1

/-- One zero byte, bit by bit. -/
def shiftByte : BitVec 32 → BitVec 32 :=
  shiftBit^[8]

/-- The bit-by-bit register update over a byte string. -/
def bitwise (register : BitVec 32) (data : Slice) : BitVec 32 :=
  data.foldl (fun register byte => shiftByte (register ^^^ byte.setWidth 32)) register

theorem shiftBit_linear : XorLinear shiftBit := by
  intro left right
  unfold shiftBit
  simp only [BitVec.getLsbD_xor, BitVec.ushiftRight_xor_distrib]
  cases left.getLsbD 0 <;> cases right.getLsbD 0 <;>
    simp only [Bool.xor_false, Bool.xor_true, Bool.false_eq_true, Bool.not_false, Bool.not_true,
      ↓reduceIte]
  · ac_rfl
  · ac_rfl
  · have cancel : polynomial ^^^ polynomial = 0 := by decide
    calc left >>> 1 ^^^ right >>> 1
        = left >>> 1 ^^^ right >>> 1 ^^^ (polynomial ^^^ polynomial) := by
          rw [cancel]
          exact (BitVec.xor_zero).symm
      _ = _ := by ac_rfl

theorem shiftByte_linear : XorLinear shiftByte :=
  shiftBit_linear.iterate 8

/-- A register whose low byte is clear only moves down. -/
theorem shiftBit_iterate_of_clear {register : BitVec 32}
    (clear : ∀ bit < 8, register.getLsbD bit = false) :
    ∀ count ≤ 8, shiftBit^[count] register = register >>> count := by
  intro count
  induction count with
  | zero => exact fun _ => (BitVec.ushiftRight_zero register).symm
  | succ count ih =>
      intro bounded
      rw [Function.iterate_succ_apply', ih (by omega)]
      have low : (register >>> count).getLsbD 0 = false := by
        rw [BitVec.getLsbD_ushiftRight]
        exact clear _ (by omega)
      simp only [shiftBit, low, Bool.false_eq_true, ↓reduceIte, BitVec.shiftRight_add]

theorem getLsbD_low_byte (bit : Nat) : (0xff#32).getLsbD bit = decide (bit < 8) := by
  rw [BitVec.getLsbD_ofNat, show (0xff : Nat) = 2 ^ 8 - 1 by rfl, Nat.testBit_two_pow_sub_one]
  grind

/-- The low byte of a register, and the rest of it. -/
theorem low_byte_xor_rest (register : BitVec 32) :
    (register &&& 0xff#32) ^^^ ((register >>> 8) <<< 8) = register := by
  apply BitVec.eq_of_getLsbD_eq
  intro bit inside
  simp only [BitVec.getLsbD_xor, BitVec.getLsbD_and, BitVec.getLsbD_shiftLeft,
    BitVec.getLsbD_ushiftRight, getLsbD_low_byte]
  grind

/-- Moving a register up by a byte that it keeps is undone by a zero byte. -/
theorem shiftByte_shiftLeft {register : BitVec 32} (fits : (register <<< 8) >>> 8 = register) :
    shiftByte (register <<< 8) = register := by
  have clear : ∀ bit < 8, (register <<< 8).getLsbD bit = false := by
    intro bit below
    rw [BitVec.getLsbD_shiftLeft]
    simp [below]
  exact (shiftBit_iterate_of_clear clear 8 le_rfl).trans fits

theorem shiftLeft_fits (register : BitVec 32) :
    (((register >>> 8) <<< 8) >>> 8) = register >>> 8 := by
  ext bit inside
  simp only [BitVec.getElem_ushiftRight, BitVec.getLsbD_shiftLeft, BitVec.getLsbD_ushiftRight]
  grind

/-- A zero byte acts on the low byte and moves the rest down. -/
theorem shiftByte_split (register : BitVec 32) :
    shiftByte register = shiftByte (register &&& 0xff#32) ^^^ (register >>> 8) := by
  conv_lhs => rw [← low_byte_xor_rest register]
  rw [shiftByte_linear, shiftByte_shiftLeft (shiftLeft_fits register)]

/-! ## The tables -/

theorem kByteExtensionTable_eq : kByteExtensionTable = spanTable shiftByte 8 := by
  decide +kernel

theorem kStrideExtensionTable0_eq : kStrideExtensionTable0 = spanTable shiftByte^[13] 8 := by
  decide +kernel

theorem kStrideExtensionTable1_eq : kStrideExtensionTable1 = spanTable shiftByte^[14] 8 := by
  decide +kernel

theorem kStrideExtensionTable2_eq : kStrideExtensionTable2 = spanTable shiftByte^[15] 8 := by
  decide +kernel

theorem kStrideExtensionTable3_eq : kStrideExtensionTable3 = spanTable shiftByte^[16] 8 := by
  decide +kernel

theorem low_byte_lt (register : BitVec 32) : (register &&& 0xff#32).toNat < 2 ^ 8 := by
  rw [BitVec.toNat_and]
  exact Nat.and_lt_two_pow _ (by decide)

/-- Looking up the low byte of a register shifts that byte out. -/
theorem byteTable_lookup (register : BitVec 32) :
    kByteExtensionTable.getD (register &&& 0xff#32).toNat 0 =
      shiftByte (register &&& 0xff#32) := by
  rw [kByteExtensionTable_eq, getD_spanTable shiftByte_linear (low_byte_lt register)]

/-- `STEP1` is the bit-by-bit update over one byte. -/
theorem step1_eq (register : BitVec 32) (byte : Byte) :
    step1 register byte = shiftByte (register ^^^ byte.setWidth 32) := by
  have index : (register &&& 0xff#32) ^^^ byte.setWidth 32 =
      (register ^^^ byte.setWidth 32) &&& 0xff#32 := by
    apply BitVec.eq_of_getLsbD_eq
    intro bit inside
    simp only [BitVec.getLsbD_xor, BitVec.getLsbD_and, BitVec.getLsbD_setWidth, getLsbD_low_byte]
    grind
  have rest : register >>> 8 = (register ^^^ byte.setWidth 32) >>> 8 := by
    apply BitVec.eq_of_getLsbD_eq
    intro bit inside
    simp only [BitVec.getLsbD_ushiftRight, BitVec.getLsbD_xor, BitVec.getLsbD_setWidth]
    grind
  rw [step1, index, rest, byteTable_lookup, ← shiftByte_split]

/-- Bytes taken one at a time follow the bit-by-bit register. -/
theorem foldl_step1 (register : BitVec 32) (data : Slice) :
    data.foldl step1 register = bitwise register data := by
  unfold bitwise
  congr 1
  funext register byte
  exact step1_eq register byte

/-- `STEP4W` is four zero bytes over the word and the register. -/
theorem step4W_eq (register word : BitVec 32) :
    step4W register word = shiftByte^[4] (word ^^^ register) := by
  have round : zeroByte = shiftByte := by
    funext value
    rw [zeroByte, byteTable_lookup, BitVec.xor_comm, ← shiftByte_split]
  rw [step4W, round]
  rfl

/-- A register is the sum of its four bytes, moved into place. -/
theorem register_bytes (register : BitVec 32) :
    (register &&& 0xff#32) ^^^ (((register >>> 8) &&& 0xff#32) <<< 8) ^^^
      (((register >>> 16) &&& 0xff#32) <<< 8 <<< 8) ^^^ ((register >>> 24) <<< 8 <<< 8 <<< 8) =
      register := by
  apply BitVec.eq_of_getLsbD_eq
  intro bit inside
  simp only [BitVec.getLsbD_xor, BitVec.getLsbD_and, BitVec.getLsbD_shiftLeft,
    BitVec.getLsbD_ushiftRight, getLsbD_low_byte]
  grind

/-- A byte moved up by some bytes reaches the low end again after as many zero
bytes. -/
theorem shiftByte_byte {byte : BitVec 32} (small : byte.toNat < 2 ^ 8) :
    shiftByte (byte <<< 8) = byte ∧ shiftByte (byte <<< 8 <<< 8) = byte <<< 8 ∧
      shiftByte (byte <<< 8 <<< 8 <<< 8) = byte <<< 8 <<< 8 := by
  refine ⟨?_, ?_, ?_⟩
  all_goals
    apply shiftByte_shiftLeft
    apply BitVec.eq_of_toNat_eq
    simp only [BitVec.toNat_ushiftRight, BitVec.toNat_shiftLeft, Nat.shiftLeft_eq,
      Nat.shiftRight_eq_div_pow]
    omega

/-- `STEP4` advances its lane by a stride of sixteen bytes and adds the word. -/
theorem step4_eq (lane word : BitVec 32) : step4 lane word = word ^^^ shiftByte^[16] lane := by
  have high : (lane >>> 24).toNat < 2 ^ 8 := by
    rw [BitVec.toNat_ushiftRight, Nat.shiftRight_eq_div_pow]
    omega
  have move1 : shiftByte^[16] (((lane >>> 8) &&& 0xff#32) <<< 8) =
      shiftByte^[15] ((lane >>> 8) &&& 0xff#32) := by
    rw [Function.iterate_succ_apply, (shiftByte_byte (low_byte_lt _)).1]
  have move2 : shiftByte^[16] (((lane >>> 16) &&& 0xff#32) <<< 8 <<< 8) =
      shiftByte^[14] ((lane >>> 16) &&& 0xff#32) := by
    rw [Function.iterate_succ_apply, Function.iterate_succ_apply,
      (shiftByte_byte (low_byte_lt _)).2.1, (shiftByte_byte (low_byte_lt _)).1]
  have move3 : shiftByte^[16] ((lane >>> 24) <<< 8 <<< 8 <<< 8) = shiftByte^[13] (lane >>> 24) := by
    rw [Function.iterate_succ_apply, Function.iterate_succ_apply, Function.iterate_succ_apply,
      (shiftByte_byte high).2.2, (shiftByte_byte high).2.1, (shiftByte_byte high).1]
  conv_rhs => rw [← register_bytes lane]
  rw [shiftByte_linear.iterate 16, shiftByte_linear.iterate 16, shiftByte_linear.iterate 16, move1,
    move2, move3, step4, kStrideExtensionTable0_eq, kStrideExtensionTable1_eq,
    kStrideExtensionTable2_eq, kStrideExtensionTable3_eq,
    getD_spanTable (shiftByte_linear.iterate 16) (low_byte_lt _),
    getD_spanTable (shiftByte_linear.iterate 15) (low_byte_lt _),
    getD_spanTable (shiftByte_linear.iterate 14) (low_byte_lt _),
    getD_spanTable (shiftByte_linear.iterate 13) high]
  ac_rfl

/-! ## The stages of `Extend` -/

theorem bitwise_append (register : BitVec 32) (first second : Slice) :
    bitwise register (first ++ second) = bitwise (bitwise register first) second :=
  List.foldl_append

/-- Four bytes taken together are four zero bytes over the word they hold. -/
theorem bitwise_word (register : BitVec 32) {data : Slice} (enough : 4 ≤ data.length) :
    bitwise register (data.take 4) = shiftByte^[4] (readUint32LE data ^^^ register) := by
  obtain ⟨b0, b1, b2, b3, rest, rfl⟩ : ∃ b0 b1 b2 b3 rest, data = b0 :: b1 :: b2 :: b3 :: rest := by
    match data, enough with
    | b0 :: b1 :: b2 :: b3 :: rest, _ => exact ⟨b0, b1, b2, b3, rest, rfl⟩
  have fits : ∀ byte : Byte, (byte.setWidth 32).toNat < 2 ^ 8 := by
    intro byte
    rw [BitVec.toNat_setWidth]
    omega
  have word : readUint32LE (b0 :: b1 :: b2 :: b3 :: rest) =
      b0.setWidth 32 ^^^ (b1.setWidth 32 <<< 8) ^^^ (b2.setWidth 32 <<< 8 <<< 8) ^^^
        (b3.setWidth 32 <<< 8 <<< 8 <<< 8) := by
    simp only [readUint32LE, decodeFixed32, List.getD_cons_zero, List.getD_cons_succ]
    apply BitVec.eq_of_getLsbD_eq
    intro bit inside
    simp only [BitVec.getLsbD_xor, BitVec.getLsbD_or, BitVec.getLsbD_shiftLeft,
      BitVec.getLsbD_setWidth]
    grind
  rw [word]
  simp only [List.take_succ_cons, List.take_zero, bitwise, List.foldl_cons, List.foldl_nil,
    Function.iterate_succ_apply, Function.iterate_zero_apply, shiftByte_linear _ _,
    (shiftByte_byte (fits b1)).1, (shiftByte_byte (fits b2)).1, (shiftByte_byte (fits b2)).2.1,
    (shiftByte_byte (fits b3)).1, (shiftByte_byte (fits b3)).2.1, (shiftByte_byte (fits b3)).2.2]
  ac_rfl

/-- The lanes combine to the sum of what each contributes to the register. -/
theorem combine_eq (lanes : Lanes) :
    combine lanes = shiftByte^[4] lanes.crc3 ^^^ shiftByte^[8] lanes.crc2 ^^^
      shiftByte^[12] lanes.crc1 ^^^ shiftByte^[16] lanes.crc0 := by
  have zero : lanes.crc0 ^^^ 0 = lanes.crc0 := BitVec.xor_zero
  simp only [combine, step4W_eq, zero, shiftByte_linear.iterate 4 _ _,
    ← Function.iterate_add_apply, Nat.reduceAdd]
  ac_rfl

/-- One word of the rotating loop is four bytes of the register. -/
theorem combine_rotate (lanes : Lanes) {data : Slice} (enough : 4 ≤ data.length) :
    combine
        { crc0 := lanes.crc1
          crc1 := lanes.crc2
          crc2 := lanes.crc3
          crc3 := step4 lanes.crc0 (readUint32LE data) } =
      bitwise (combine lanes) (data.take 4) := by
  simp only [bitwise_word _ enough, combine_eq, step4_eq, shiftByte_linear.iterate 4 _ _,
    ← Function.iterate_add_apply, Nat.reduceAdd]
  ac_rfl

/-- Sixteen bytes are four words. -/
theorem bitwise_swath (register : BitVec 32) {data : Slice} (enough : 16 ≤ data.length) :
    bitwise register (data.take 16) =
      shiftByte^[4] (readUint32LE (data.drop 12)) ^^^
        shiftByte^[8] (readUint32LE (data.drop 8)) ^^^
        shiftByte^[12] (readUint32LE (data.drop 4)) ^^^
        shiftByte^[16] (readUint32LE data ^^^ register) := by
  have pieces : data.take 16 = data.take 4 ++ ((data.drop 4).take 4 ++
      ((data.drop 8).take 4 ++ (data.drop 12).take 4)) := by
    rw [show data.drop 12 = (data.drop 8).drop 4 by rw [List.drop_drop], ← List.take_add,
      show data.drop 8 = (data.drop 4).drop 4 by rw [List.drop_drop], ← List.take_add,
      ← List.take_add]
  have left : ∀ skipped ≤ 12, 4 ≤ (data.drop skipped).length := by
    intro skipped bounded
    rw [List.length_drop]
    omega
  simp only [pieces, bitwise_append, bitwise_word _ (show 4 ≤ data.length by omega),
    bitwise_word _ (left 4 (by decide)), bitwise_word _ (left 8 (by decide)),
    bitwise_word _ (left 12 (by decide)), shiftByte_linear.iterate 4 _ _,
    shiftByte_linear.iterate 16 _ _, ← Function.iterate_add_apply, Nat.reduceAdd]
  ac_rfl

/-- The swath loop advances the combined register over the bytes it consumes. -/
theorem swaths_eq (lanes : Lanes) (data : Slice) :
    bitwise (combine (swaths lanes data).1) (swaths lanes data).2 =
      bitwise (combine lanes) data := by
  induction lanes, data using swaths.induct with
  | case1 lanes data enough ih =>
      rw [swaths, if_pos enough, ih]
      conv_rhs => rw [← List.take_append_drop 16 data, bitwise_append]
      congr 1
      simp only [bitwise_swath _ enough, combine_eq, step4_eq, shiftByte_linear.iterate 4 _ _,
        shiftByte_linear.iterate 8 _ _, shiftByte_linear.iterate 12 _ _,
        shiftByte_linear.iterate 16 _ _, ← Function.iterate_add_apply, Nat.reduceAdd]
      ac_rfl
  | case2 lanes data short => rw [swaths, if_neg short]

/-- So does the loop over single words. -/
theorem words_eq (lanes : Lanes) (data : Slice) :
    bitwise (combine (words lanes data).1) (words lanes data).2 =
      bitwise (combine lanes) data := by
  induction lanes, data using words.induct with
  | case1 lanes data enough ih =>
      rw [words, if_pos enough, ih, combine_rotate lanes enough, ← bitwise_append,
        List.take_append_drop]
  | case2 lanes data short => rw [words, if_neg short]

/-- The portable path computes the bit-by-bit CRC-32C, whatever the alignment of
the buffer. -/
theorem extendAt_eq_bitwise (address : Nat) (crc : BitVec 32) (data : Slice) :
    extendAt address crc data = bitwise (crc ^^^ kCRC32Xor) data ^^^ kCRC32Xor := by
  simp only [extendAt, foldl_step1]
  generalize (if (4 - address % 4) % 4 ≤ data.length then (4 - address % 4) % 4 else 0) = aligned
  conv_rhs => rw [← List.take_append_drop aligned data, bitwise_append]
  generalize bitwise (crc ^^^ kCRC32Xor) (data.take aligned) = register
  generalize data.drop aligned = rest
  congr 1
  by_cases enough : 16 ≤ rest.length
  · simp only [if_pos enough, words_eq, swaths_eq]
    conv_rhs => rw [← List.take_append_drop 16 rest, bitwise_append, bitwise_swath _ enough]
    rw [combine_eq]
  · simp only [if_neg enough]

/-- The checksum of a buffer does not depend on where the buffer lies. -/
theorem extendAt_eq_extend (address : Nat) (crc : BitVec 32) (data : Slice) :
    extendAt address crc data = extend crc data := by
  rw [extend, extendAt_eq_bitwise, extendAt_eq_bitwise]

/-- Extending the checksum of one string by another gives the checksum of their
concatenation. -/
theorem extend_value (first second : Slice) :
    extend (value first) second = value (first ++ second) := by
  simp only [value, extend, extendAt_eq_bitwise, bitwise_append, BitVec.xor_assoc,
    BitVec.xor_self, BitVec.xor_zero]

/-- The portable path is the bit-by-bit register update, complemented before and after,
for every alignment of the buffer, and so checksums can be taken in pieces that lie
anywhere. -/
theorem extendAt_textbook :
    (∀ address crc data,
      extendAt address crc data = bitwise (crc ^^^ kCRC32Xor) data ^^^ kCRC32Xor) ∧
    ∀ firstAddress secondAddress wholeAddress first second,
      extendAt secondAddress (extendAt firstAddress 0 first) second =
        extendAt wholeAddress 0 (first ++ second) := by
  refine ⟨extendAt_eq_bitwise, fun firstAddress secondAddress wholeAddress first second => ?_⟩
  calc extendAt secondAddress (extendAt firstAddress 0 first) second
      = extend (value first) second := by
        rw [extendAt_eq_extend secondAddress, extendAt_eq_extend firstAddress, value]
    _ = value (first ++ second) := extend_value first second
    _ = extendAt wholeAddress 0 (first ++ second) := by
        rw [extendAt_eq_extend wholeAddress, value]

end MiniLevelDb.Crc32c
