import MiniLevelDb.Util.Crc32c

/-!
# Changes that a checksum detects

The register update is injective in the register, and over four bytes it is injective
in the word they make, so two strings that differ in at most four neighbouring bytes
have different checksums. Masking and storing a checksum lose nothing either.
-/

namespace MiniLevelDb.Crc32c

open Foundation

/-- A bit that is shifted out comes back in at the top. -/
theorem shiftBit_injective : Function.Injective shiftBit := by
  refine shiftBit_linear.injective fun register zero => ?_
  unfold shiftBit at zero
  by_cases odd : register.getLsbD 0 = true
  · rw [if_pos odd] at zero
    have top := congrArg (BitVec.getLsbD · 31) zero
    simp [polynomial] at top
  · rw [if_neg odd] at zero
    apply BitVec.eq_of_getLsbD_eq
    intro bit inside
    cases bit with
    | zero => simpa using odd
    | succ bit =>
        have moved := congrArg (BitVec.getLsbD · bit) zero
        simpa [Nat.add_comm] using moved

theorem shiftByte_injective : Function.Injective shiftByte :=
  shiftBit_injective.iterate 8

/-- Whatever follows, different registers stay different. -/
theorem bitwise_injective (data : Slice) : Function.Injective (bitwise · data) := by
  induction data with
  | nil => exact fun _ _ same => same
  | cons byte later ih =>
      intro left right same
      have shifted : shiftByte (left ^^^ byte.setWidth 32) =
          shiftByte (right ^^^ byte.setWidth 32) := ih same
      exact (BitVec.xor_left_inj _).mp (shiftByte_injective shifted)

theorem readUint32LE_inj {left right : Slice} (leftLength : left.length = 4)
    (rightLength : right.length = 4) (same : readUint32LE left = readUint32LE right) :
    left = right := by
  have stored := congrArg encodeFixed32 same
  rw [readUint32LE, readUint32LE, encodeFixed32_of_length leftLength,
    encodeFixed32_of_length rightLength] at stored
  exact stored

/-- Over at most four bytes the update tells the bytes apart: with zeros behind them they
make a word. -/
theorem bitwise_window {register : BitVec 32} {old new : Slice} (short : old.length ≤ 4)
    (length : new.length = old.length) (same : bitwise register new = bitwise register old) :
    new = old := by
  have filled : ∀ window : Slice, window.length = old.length →
      (window ++ List.replicate (4 - old.length) 0).length = 4 := by
    intro window length
    rw [List.length_append, List.length_replicate]
    omega
  have words : bitwise register (new ++ List.replicate (4 - old.length) 0) =
      bitwise register (old ++ List.replicate (4 - old.length) 0) := by
    rw [bitwise_append, bitwise_append, same]
  have oldWord := bitwise_word register (filled old rfl).ge
  have newWord := bitwise_word register (filled new length).ge
  rw [List.take_of_length_le (filled old rfl).le] at oldWord
  rw [List.take_of_length_le (filled new length).le] at newWord
  rw [oldWord, newWord] at words
  have read := (BitVec.xor_left_inj _).mp (shiftByte_injective.iterate 4 words)
  exact List.append_cancel_right (readUint32LE_inj (filled new length) (filled old rfl) read)

/-- A change of at most four neighbouring bytes changes the checksum. -/
theorem value_ne_of_window (before after : Slice) {old new : Slice} (short : old.length ≤ 4)
    (length : new.length = old.length) (differ : new ≠ old) :
    value (before ++ new ++ after) ≠ value (before ++ old ++ after) := by
  intro same
  simp only [value, extend, extendAt_eq_bitwise, bitwise_append] at same
  have registers := bitwise_injective after ((BitVec.xor_left_inj _).mp same)
  exact differ (bitwise_window short length registers)

end MiniLevelDb.Crc32c
