import MiniLevelDb.Db.LogRecords

/-!
# The log writer over other files

How a record is cut depends on `block_offset_` alone, so what a writer asks of one file is
what a writer at the same place of its block asks of any other.
-/

namespace MiniLevelDb.Log

namespace Writer

variable {File Other : Type}

/-- The writer at the same place in its block whose file is `dest`. -/
def onto (writer : Writer File) (dest : Other) : Writer Other where
  dest := dest
  blockOffset := writer.blockOffset

variable [Destination File] [Destination Other]

theorem switchBlock_blockOffset (writer : Writer File) (dest : Other) :
    writer.switchBlock.blockOffset = (writer.onto dest).switchBlock.blockOffset := by
  unfold switchBlock onto
  dsimp only
  split
  · rfl
  · rfl

theorem fragmentLength_onto (writer : Writer File) (dest : Other) (data : Slice) :
    writer.switchBlock.fragmentLength data =
      (writer.onto dest).switchBlock.fragmentLength data := by
  rw [fragmentLength, fragmentLength, switchBlock_blockOffset writer dest]

theorem unwritten_onto (writer : Writer File) (dest : Other) (data : Slice) :
    writer.unwritten data = (writer.onto dest).unwritten data := by
  rw [unwritten, unwritten, fragmentLength_onto writer dest]

theorem emitFragment_blockOffset (writer : Writer File) (dest : Other) (data : Slice)
    (begins : Bool) :
    (writer.emitFragment data begins).2.blockOffset =
      ((writer.onto dest).emitFragment data begins).2.blockOffset := by
  rw [emitFragment, emitFragment, emitPhysicalRecord_blockOffset,
    emitPhysicalRecord_blockOffset, ← fragmentLength_onto writer dest,
    ← switchBlock_blockOffset writer dest]

/-- Calls of `AddRecord` up to the first that fails: the records of the calls that returned
OK, and the writer. -/
def addUntilFailure (writer : Writer File) : List Slice → List Slice × Writer File
  | [] => ([], writer)
  | record :: later =>
      let added := writer.addRecord record
      if added.1.isOk then
        let rest := added.2.addUntilFailure later
        (record :: rest.1, rest.2)
      else
        ([], added.2)

end Writer

end MiniLevelDb.Log
