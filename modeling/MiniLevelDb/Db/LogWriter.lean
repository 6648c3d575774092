import MiniLevelDb.Db.LogFormat
import MiniLevelDb.Util.Env

/-!
# The log writer

`Writer::AddRecord` cuts a record into fragments, one loop iteration each. The
writer never looks at the file: it only tracks `block_offset_`, which it also
advances over bytes an append failed to write. `dest_` points to a `WritableFile`, an
interface, so the writer is over any type with its members `Append` and `Flush`; by
default that is the file of `Util/Env`.
-/

namespace MiniLevelDb.Log

/-- `type_crc_[t]`, as `InitTypeCrc` fills it. -/
def typeCrc (type : RecordType) : BitVec 32 :=
  Crc32c.value [type.toByte]

/-- The members of `WritableFile` that a log writer calls. -/
class Destination (File : Type) where
  append : File → Slice → Status × File
  flush : File → Status × File

instance : Destination WritableFile where
  append := WritableFile.append
  flush := WritableFile.flush

namespace Destination

@[simp] theorem append_writableFile (file : WritableFile) (data : Slice) :
    append file data = file.append data := rfl

@[simp] theorem flush_writableFile (file : WritableFile) : flush file = file.flush := rfl

end Destination

/-- `Writer`: its destination and `block_offset_`. -/
structure Writer (File : Type := WritableFile) where
  dest : File
  blockOffset : Nat

namespace Writer

variable {File : Type}

/-- `Writer(dest)`, over an empty file. -/
def new (dest : File) : Writer File where
  dest := dest
  blockOffset := 0

/-- `Writer(dest, dest_length)`. -/
def newAt (dest : File) (destLength : Nat) : Writer File where
  dest := dest
  blockOffset := destLength % kBlockSize

/-- The type of a fragment, by whether it begins and ends its record. -/
def fragmentType (begins ends : Bool) : RecordType :=
  if begins && ends then .full
  else if begins then .first
  else if ends then .last
  else .middle

/-- `fragment_length`: what goes into the current block of the data left. -/
def fragmentLength (writer : Writer File) (data : Slice) : Nat :=
  let avail := kBlockSize - writer.blockOffset - kHeaderSize
  if data.length < avail then data.length else avail

variable [Destination File]

/-- `Writer::EmitPhysicalRecord`. -/
def emitPhysicalRecord (writer : Writer File) (type : RecordType) (data : Slice) :
    Status × Writer File :=
  let crc := Crc32c.mask (Crc32c.extend (typeCrc type) data)
  let buf := encodeFixed32 crc ++
    [BitVec.ofNat 8 (data.length &&& 0xff), BitVec.ofNat 8 (data.length >>> 8), type.toByte]
  let (status, dest) := Destination.append writer.dest buf
  let (status, dest) :=
    if status.isOk then
      let (status, dest) := Destination.append dest data
      if status.isOk then Destination.flush dest else (status, dest)
    else
      (status, dest)
  (status, { dest := dest, blockOffset := writer.blockOffset + (kHeaderSize + data.length) })

/-- The head of the loop of `AddRecord`: when no header fits, fill the rest of
the block with zeros (whether or not that append succeeds) and switch to a new
block. -/
def switchBlock (writer : Writer File) : Writer File :=
  let leftover := kBlockSize - writer.blockOffset
  if leftover < kHeaderSize then
    { dest :=
        if leftover > 0 then (Destination.append writer.dest (List.replicate leftover 0)).2
        else writer.dest
      blockOffset := 0 }
  else
    writer

theorem emitPhysicalRecord_blockOffset (writer : Writer File) (type : RecordType) (data : Slice) :
    (writer.emitPhysicalRecord type data).2.blockOffset =
      writer.blockOffset + (kHeaderSize + data.length) := rfl

theorem switchBlock_blockOffset_le (writer : Writer File) :
    writer.switchBlock.blockOffset + kHeaderSize ≤ kBlockSize := by
  unfold switchBlock
  dsimp only
  split
  · exact (by decide : kHeaderSize ≤ kBlockSize)
  · unfold kHeaderSize kBlockSize at *
    omega

/-- One iteration of the loop of `AddRecord`. -/
def emitFragment (writer : Writer File) (data : Slice) (begins : Bool) : Status × Writer File :=
  let writer := writer.switchBlock
  let ends := data.length == writer.fragmentLength data
  writer.emitPhysicalRecord (fragmentType begins ends) (data.take (writer.fragmentLength data))

/-- What an iteration leaves of the data. -/
def unwritten (writer : Writer File) (data : Slice) : Slice :=
  data.drop (writer.switchBlock.fragmentLength data)

/-- A fragment that is not the last one fills its block. -/
theorem emitFragment_blockOffset_of_more {writer : Writer File} {data : Slice} (begins : Bool)
    (more : 0 < (writer.unwritten data).length) :
    (writer.emitFragment data begins).2.blockOffset = kBlockSize ∧
      (writer.unwritten data).length =
        data.length - (kBlockSize - writer.switchBlock.blockOffset - kHeaderSize) := by
  have switched := switchBlock_blockOffset_le writer
  simp only [unwritten, emitFragment, emitPhysicalRecord_blockOffset, fragmentLength,
    List.length_drop, List.length_take] at more ⊢
  split at more
  · omega
  · rename_i full
    simp only [if_neg full, and_true]
    omega

/-- The bytes left decrease, except that a fragment is empty when exactly a
header fits; then the next one starts a new block. -/
theorem addRecordLoop_decreases {writer : Writer File} {data : Slice} (begins : Bool)
    (more : 0 < (writer.unwritten data).length) :
    ((writer.unwritten data).length +
        if (writer.emitFragment data begins).2.switchBlock.blockOffset + kHeaderSize = kBlockSize
        then 1 else 0) <
      data.length + if writer.switchBlock.blockOffset + kHeaderSize = kBlockSize then 1 else 0 := by
  obtain ⟨filled, left⟩ := emitFragment_blockOffset_of_more begins more
  have fresh : (writer.emitFragment data begins).2.switchBlock.blockOffset = 0 := by
    rw [switchBlock, filled]
    rfl
  have switched := switchBlock_blockOffset_le writer
  rw [fresh, if_neg (by decide)]
  split <;> omega

/-- The `do … while` loop of `AddRecord`, over what is left of the slice. -/
def addRecordLoop (writer : Writer File) (data : Slice) (begins : Bool) : Status × Writer File :=
  if (writer.emitFragment data begins).1.isOk ∧ 0 < (writer.unwritten data).length then
    addRecordLoop (writer.emitFragment data begins).2 (writer.unwritten data) false
  else
    writer.emitFragment data begins
termination_by
  data.length + if writer.switchBlock.blockOffset + kHeaderSize = kBlockSize then 1 else 0
decreasing_by
  rename_i continues
  exact addRecordLoop_decreases begins continues.2

/-- `Writer::AddRecord`. -/
def addRecord (writer : Writer File) (slice : Slice) : Status × Writer File :=
  writer.addRecordLoop slice true

end Writer

end MiniLevelDb.Log
