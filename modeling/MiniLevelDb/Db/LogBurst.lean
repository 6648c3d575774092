import MiniLevelDb.Db.LogRecords
import MiniLevelDb.Util.Crc32cBurst

/-!
# Short corruption of a physical record

A physical record of which at most four neighbouring bytes of type and payload, or the
stored checksum, were changed fails the comparison of the reader.
-/

namespace MiniLevelDb.Log

/-- The changes of the bytes of a physical record: its checksum, or at most four
neighbouring bytes behind its length. -/
inductive Altered (record : Slice) : Slice → Prop where
  | checksum {stored new rest : Slice} (split : record = stored ++ rest)
      (four : stored.length = 4) (length : new.length = 4) (differ : new ≠ stored) :
      Altered record (new ++ rest)
  | body {before old new after : Slice} (split : record = before ++ old ++ after)
      (behind : 6 ≤ before.length) (short : old.length ≤ 4) (length : new.length = old.length)
      (differ : new ≠ old) :
      Altered record (before ++ new ++ after)

namespace Fragment

/-- The parts of an altered physical record do not belong together. -/
theorem altered_parts {fragment : Fragment} {altered : Slice}
    (changed : Altered fragment.bytes altered) :
    ∃ stored body, stored.length = 4 ∧ body.length = 1 + fragment.payload.length ∧
      altered = stored ++ (lengthBytes fragment.payload ++ body) ∧
      Crc32c.value body ≠ Crc32c.unmask (decodeFixed32 stored) := by
  cases changed with
  | @checksum stored new rest split four length differ =>
      rw [bytes_eq_raw, rawBytes] at split
      obtain ⟨rfl, rfl⟩ := List.append_inj split four.symm
      refine ⟨new, _, length, Nat.add_comm _ _, rfl, fun same => differ ?_⟩
      have masked := congrArg (encodeFixed32 ∘ Crc32c.mask) same
      rw [Function.comp_apply, Function.comp_apply, Crc32c.mask_unmask] at masked
      rw [encodeFixed32_of_length length] at masked
      exact masked.symm
  | @body before old new after split behind short length differ =>
      have head : before.take 6 =
          storedCrc (fragment.type.toByte :: fragment.payload) ++ lengthBytes fragment.payload := by
        have taken := congrArg (List.take 6) split
        rw [List.append_assoc, List.take_append_of_le_length behind] at taken
        exact taken.symm
      have rest : fragment.type.toByte :: fragment.payload = before.drop 6 ++ old ++ after := by
        have dropped := congrArg (List.drop 6) split
        rw [List.append_assoc, List.drop_append_of_le_length behind] at dropped
        rw [List.append_assoc]
        exact dropped
      refine ⟨storedCrc (fragment.type.toByte :: fragment.payload),
        before.drop 6 ++ new ++ after, rfl, ?_, ?_, ?_⟩
      · have lengths := congrArg List.length rest
        simp only [List.length_append, List.length_cons] at lengths ⊢
        omega
      · rw [← List.append_assoc, ← head, List.append_assoc (before.drop 6),
          ← List.append_assoc (before.take 6), List.take_append_drop, List.append_assoc]
      · rw [unmask_storedCrc, rest]
        exact Crc32c.value_ne_of_window _ _ short length differ

end Fragment

/-- A checksumming reader passes over a record whose checksum does not match. -/
theorem Reader.readPhysicalRecord_mismatch {reader : Reader} (result : Slice)
    (checksum : reader.config.checksum = true) (full : kHeaderSize ≤ reader.buffer.length)
    (whole : kHeaderSize + headerLength reader.buffer ≤ reader.buffer.length)
    (mismatch : checksumMatches reader.buffer = false) :
    (reader.readPhysicalRecord result).1 = kBadRecord ∧
      (reader.readPhysicalRecord result).2.1 = result := by
  rw [readPhysicalRecord, if_neg (Nat.not_lt_of_le full), parseRecord]
  dsimp only
  rw [if_neg (Nat.not_lt_of_le whole)]
  split
  · exact ⟨rfl, rfl⟩
  · rw [if_pos (by rw [checksum, mismatch]; rfl)]
    exact ⟨rfl, rfl⟩

/-- However a physical record that `EmitPhysicalRecord` wrote is altered in its checksum,
or in at most four neighbouring bytes of its type and payload, the comparison of the
reader fails, and the payload is not returned. -/
theorem altered_detected (writer : Writer) (type : RecordType) (data : Slice)
    (sound : writer.dest.outcomes = []) (fits : kHeaderSize + data.length ≤ kBlockSize) :
    ∃ record,
      (writer.emitPhysicalRecord type data).2.dest.contents = writer.dest.contents ++ record ∧
      ∀ altered, Altered record altered → ∀ tail,
        Reader.checksumMatches (altered ++ tail) = false ∧
        ∀ (reader : Reader) (result : Slice), reader.config.checksum = true →
          reader.buffer = altered ++ tail →
          (reader.readPhysicalRecord result).1 = kBadRecord ∧
            (reader.readPhysicalRecord result).2.1 = result := by
  have small : data.length < 2 ^ 16 := by
    unfold kHeaderSize kBlockSize at fits
    omega
  have emitted := (Writer.emitPhysicalRecord_sound type data sound).2.refused
  refine ⟨_, Writer.emitPhysicalRecord_contents emitted, fun altered changed tail => ?_⟩
  obtain ⟨stored, body, four, length, rfl, differ⟩ := Fragment.altered_parts changed
  obtain ⟨header, matches_⟩ := checksumMatches_parts four length small tail
  have mismatch : Reader.checksumMatches (stored ++
      (lengthBytes data ++ body) ++ tail) = false := by
    rw [matches_]
    exact beq_eq_false_iff_ne.mpr differ
  refine ⟨mismatch, fun reader result checksum buffer => ?_⟩
  have size : reader.buffer.length = kHeaderSize + data.length + tail.length := by
    rw [buffer]
    simp only [List.length_append, four, length]
    rw [show (lengthBytes data).length = 2 from rfl]
    unfold kHeaderSize
    omega
  refine Reader.readPhysicalRecord_mismatch result checksum (by omega) ?_ (by rw [buffer, mismatch])
  rw [buffer, header, ← buffer, size]
  exact Nat.le_add_right _ _

/-- A record of three bytes, with four bytes from its type on set to zero. -/
theorem altered_detected_zeros : ∃ record altered,
    ((Writer.new emptyFile).emitPhysicalRecord .full [1, 2, 3]).2.dest.contents = record ∧
    Altered record altered ∧ altered.drop 6 = [0, 0, 0, 0] ∧ ∀ tail,
      Reader.checksumMatches (altered ++ tail) = false ∧
      ∀ (reader : Reader) (result : Slice), reader.config.checksum = true →
        reader.buffer = altered ++ tail →
        (reader.readPhysicalRecord result).1 = kBadRecord ∧
          (reader.readPhysicalRecord result).2.1 = result := by
  obtain ⟨record, written, detected⟩ :=
    altered_detected (Writer.new emptyFile) .full [1, 2, 3] rfl (by decide)
  have bytes : record = (⟨.full, [1, 2, 3]⟩ : Fragment).bytes :=
    written.symm.trans (Writer.emitPhysicalRecord_contents
      (Writer.emitPhysicalRecord_sound .full [1, 2, 3] rfl).2.refused)
  have changed : Altered record
      ((⟨.full, [1, 2, 3]⟩ : Fragment).bytes.take 6 ++ [0, 0, 0, 0] ++ []) := by
    refine @Altered.body record _ [1, 1, 2, 3] _ _ ?_ ?_ ?_ ?_ ?_
    · rw [bytes]
      rfl
    · decide
    · decide
    · rfl
    · decide
  exact ⟨record, _, written, changed, rfl, detected _ changed⟩

end MiniLevelDb.Log
