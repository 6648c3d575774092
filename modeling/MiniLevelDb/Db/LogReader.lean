import MiniLevelDb.Db.LogFormat
import MiniLevelDb.Util.Env

/-!
# The log reader

`Reader::ReadPhysicalRecord` refills a block-sized buffer and takes one physical
record off it, or gives up on the rest of the block; `Reader::ReadRecord` puts
physical records together into logical ones. File offsets are 64-bit numbers and
are subtracted as such. The calls the reporter has received are part of the
state. `file_` points to a `SequentialFile`, an interface, so the reader is over any
type with its members `Read` and `Skip`; by default that is the file of `Util/Env`.
-/

namespace MiniLevelDb.Log

/-- `kEof`, returned at the end of the file. A header that stores this value as
its type is returned the same way. -/
def kEof : BitVec 32 := 5

/-- `kBadRecord`, returned for a physical record that is passed over. -/
def kBadRecord : BitVec 32 := 6

/-- A call of `Reporter::Corruption`. -/
abbrev Report := Nat × Status

/-- The members of `Reader` that its constructor fixes. `reporter` tells whether
`reporter_` is non-null. -/
structure ReaderConfig where
  reporter : Bool
  checksum : Bool
  initialOffset : BitVec 64

/-- The members of `SequentialFile` that a log reader calls, and how many bytes there are
still to read. -/
class Source (File : Type) where
  read : File → Nat → Status × Slice × File
  skip : File → Nat → Status × File
  left : File → Nat
  left_read : ∀ file count, (read file count).2.1.length + left (read file count).2.2 ≤ left file

instance : Source SequentialFile where
  read := SequentialFile.read
  skip := SequentialFile.skip
  left := fun file => file.rest.length
  left_read := SequentialFile.length_read_le

namespace Source

@[simp] theorem read_sequentialFile (file : SequentialFile) (count : Nat) :
    read file count = file.read count := rfl

@[simp] theorem skip_sequentialFile (file : SequentialFile) (count : Nat) :
    skip file count = file.skip count := rfl

@[simp] theorem left_sequentialFile (file : SequentialFile) : left file = file.rest.length := rfl

end Source

/-- `Reader`, with the calls its reporter has received so far. -/
structure Reader (File : Type := SequentialFile) where
  config : ReaderConfig
  file : File
  buffer : Slice
  eof : Bool
  lastRecordOffset : BitVec 64
  endOfBufferOffset : BitVec 64
  resyncing : Bool
  reports : List Report

namespace Reader

variable {File : Type}

/-- `Reader::Reader`. -/
def new (file : File) (config : ReaderConfig) : Reader File where
  config := config
  file := file
  buffer := []
  eof := false
  lastRecordOffset := 0
  endOfBufferOffset := 0
  resyncing := decide (0 < config.initialOffset)
  reports := []

/-- `buffer_.clear()`. -/
def clearBuffer (reader : Reader File) : Reader File :=
  { reader with buffer := [] }

/-- `buffer_.remove_prefix(count)`. -/
def removePrefix (reader : Reader File) (count : Nat) : Reader File :=
  { reader with buffer := reader.buffer.drop count }

/-- The offset `end_of_buffer_offset_ - buffer_.size()` the reader has come to. -/
def position (reader : Reader File) : BitVec 64 :=
  reader.endOfBufferOffset - BitVec.ofNat 64 reader.buffer.length

/-- `Reader::ReportDrop`. -/
def reportDrop (reader : Reader File) (bytes : Nat) (reason : Status) : Reader File :=
  if reader.config.reporter ∧
      reader.position - BitVec.ofNat 64 bytes ≥ reader.config.initialOffset then
    { reader with reports := reader.reports ++ [(bytes, reason)] }
  else
    reader

/-- A report changes nothing but what the reporter has received. -/
theorem reportDrop_frame (reader : Reader File) (bytes : Nat) (reason : Status) :
    ∃ reports, reader.reportDrop bytes reason = { reader with reports := reports } := by
  unfold reportDrop
  split
  · exact ⟨_, rfl⟩
  · exact ⟨reader.reports, rfl⟩

/-- What the reporter receives. -/
theorem reports_reportDrop (reader : Reader File) (bytes : Nat) (reason : Status) :
    (reader.reportDrop bytes reason).reports = reader.reports ++
      if reader.config.reporter ∧
          reader.position - BitVec.ofNat 64 bytes ≥ reader.config.initialOffset then
        [(bytes, reason)]
      else [] := by
  unfold reportDrop
  split
  · rfl
  · exact (List.append_nil _).symm

@[simp] theorem reportDrop_buffer (reader : Reader File) (bytes : Nat) (reason : Status) :
    (reader.reportDrop bytes reason).buffer = reader.buffer := by
  obtain ⟨reports, same⟩ := reader.reportDrop_frame bytes reason
  rw [same]

@[simp] theorem reportDrop_file (reader : Reader File) (bytes : Nat) (reason : Status) :
    (reader.reportDrop bytes reason).file = reader.file := by
  obtain ⟨reports, same⟩ := reader.reportDrop_frame bytes reason
  rw [same]

/-- `Reader::ReportCorruption`. -/
def reportCorruption (reader : Reader File) (bytes : Nat) (reason : String) : Reader File :=
  reader.reportDrop bytes (.corruption reason)

/-- `block_start_location`: the block in which `SkipToInitialBlock` starts the
search. -/
def blockStartLocation (initialOffset : BitVec 64) : BitVec 64 :=
  let offsetInBlock := initialOffset % BitVec.ofNat 64 kBlockSize
  -- don't search a block if we'd be in the trailer
  if offsetInBlock > BitVec.ofNat 64 (kBlockSize - 6) then
    initialOffset - offsetInBlock + BitVec.ofNat 64 kBlockSize
  else
    initialOffset - offsetInBlock

/-- `Reader::SkipToInitialBlock`. -/
def skipToInitialBlock [Source File] (reader : Reader File) : Bool × Reader File :=
  let location := blockStartLocation reader.config.initialOffset
  let reader := { reader with endOfBufferOffset := location }
  if location > 0 then
    let (skipStatus, file) := Source.skip reader.file location.toNat
    let reader := { reader with file := file }
    if skipStatus.isOk then
      (true, reader)
    else
      (false, reader.reportDrop location.toNat skipStatus)
  else
    (true, reader)

/-- The `length` field of a header. -/
def headerLength (header : Slice) : Nat :=
  (header.getD 4 0).toNat ||| ((header.getD 5 0).toNat <<< 8)

/-- The `type` field of a header, converted from a signed `char`. -/
def headerType (header : Slice) : BitVec 32 :=
  (header.getD 6 0).signExtend 32

/-- The checksum comparison: whether the stored checksum is the one of type and
payload, with `crc32c::Value` as the portable code computes it. -/
def checksumMatches (header : Slice) : Bool :=
  let expectedCrc := Crc32c.unmask (decodeFixed32 header)
  let actualCrc := Crc32c.value ((header.drop 6).take (1 + headerLength header))
  actualCrc == expectedCrc

/-- The part of `ReadPhysicalRecord` that runs once the buffer holds a header:
the outcome, the slice left in `*result` and the reader. -/
def parseRecord (reader : Reader File) (result : Slice) : BitVec 32 × Slice × Reader File :=
  let header := reader.buffer
  let length := headerLength header
  let type := headerType header
  let dropSize := reader.buffer.length
  if kHeaderSize + length > reader.buffer.length then
    if !reader.eof then
      (kBadRecord, result, reader.clearBuffer.reportCorruption dropSize "bad record length")
    else
      (kEof, result, reader.clearBuffer)
  else if type = RecordType.zero.code ∧ length = 0 then
    (kBadRecord, result, reader.clearBuffer)
  else if reader.config.checksum && !checksumMatches header then
    (kBadRecord, result, reader.clearBuffer.reportCorruption dropSize "checksum mismatch")
  else
    let after := reader.removePrefix (kHeaderSize + length)
    if after.position - BitVec.ofNat 64 kHeaderSize - BitVec.ofNat 64 length <
        reader.config.initialOffset then
      (kBadRecord, [], after)
    else
      (type, (header.drop kHeaderSize).take length, after)

variable [Source File]

/-- Reading the next block into the buffer, and whether that succeeded. -/
def refill (reader : Reader File) : Bool × Reader File :=
  let (status, buffer, file) := Source.read reader.file kBlockSize
  let reader := { reader with
    file := file
    buffer := buffer
    endOfBufferOffset := reader.endOfBufferOffset + BitVec.ofNat 64 buffer.length }
  if !status.isOk then
    (false, { reader.clearBuffer.reportDrop kBlockSize status with eof := true })
  else if buffer.length < kBlockSize then
    (true, { reader with eof := true })
  else
    (true, reader)

/-- A block that was read in full leaves a header to parse. -/
theorem refill_progress (reader : Reader File) :
    (reader.refill.2.buffer.length < kHeaderSize ∧ reader.refill.2.eof = false) →
      reader.refill.1 = false := by
  rintro ⟨short, open_⟩
  unfold refill at *
  dsimp only at *
  split at short
  · rename_i failed
    rw [if_pos failed]
  · split at short
    · rename_i passed partial_
      rw [if_neg passed, if_pos partial_] at open_
      exact absurd open_ (by simp)
    · rename_i full
      simp only [kHeaderSize, kBlockSize] at short full
      omega

/-- `Reader::ReadPhysicalRecord`. -/
def readPhysicalRecord (reader : Reader File) (result : Slice) : BitVec 32 × Slice × Reader File :=
  if reader.buffer.length < kHeaderSize then
    if reader.eof = false then
      let refilled := reader.clearBuffer.refill
      if refilled.1 = true then
        readPhysicalRecord refilled.2 result
      else
        (kEof, result, refilled.2)
    else
      -- a truncated header at the end of the file
      (kEof, result, reader.clearBuffer)
  else
    reader.parseRecord result
termination_by if reader.buffer.length < kHeaderSize ∧ reader.eof = false then 1 else 0
decreasing_by
  rename_i short open_ passed
  have done : ¬ (refilled.2.buffer.length < kHeaderSize ∧ refilled.2.eof = false) := by
    intro stuck
    have failed : refilled.1 = false := refill_progress _ stuck
    rw [failed] at passed
    exact absurd passed (by decide)
  rw [if_neg done, if_pos ⟨short, open_⟩]
  exact Nat.zero_lt_one

/-- The bytes the reader has not used yet. -/
def remaining (reader : Reader File) : Nat :=
  reader.buffer.length + Source.left reader.file

@[simp] theorem remaining_reportDrop (reader : Reader File) (bytes : Nat) (reason : Status) :
    (reader.reportDrop bytes reason).remaining = reader.remaining := by
  simp only [remaining, reportDrop_buffer, reportDrop_file]

theorem remaining_refill_le (reader : Reader File) :
    reader.refill.2.remaining ≤ Source.left reader.file := by
  have used := Source.left_read reader.file kBlockSize
  unfold refill
  dsimp only
  split
  · simp only [remaining, reportDrop_buffer, reportDrop_file, clearBuffer, List.length_nil,
      Nat.zero_add]
    exact (Nat.le_add_left _ _).trans used
  · split
    · exact used
    · exact used

/-- Parsing uses up at least a header unless it ends the scan. -/
theorem remaining_parseRecord_lt {reader : Reader File} (result : Slice)
    (full : kHeaderSize ≤ reader.buffer.length)
    (goes : (reader.parseRecord result).1 ≠ kEof) :
    (reader.parseRecord result).2.2.remaining < reader.remaining := by
  have positive : 0 < kHeaderSize := by decide
  unfold parseRecord at *
  dsimp only at *
  split at goes
  · split at goes
    · rename_i long open_
      rw [if_pos long, if_pos open_]
      simp only [reportCorruption, remaining, reportDrop_buffer, reportDrop_file, clearBuffer,
        List.length_nil]
      omega
    · exact absurd rfl goes
  · rename_i short
    rw [if_neg short]
    split
    · simp only [remaining, clearBuffer, List.length_nil]
      omega
    · split
      · simp only [reportCorruption, remaining, reportDrop_buffer, reportDrop_file, clearBuffer,
        List.length_nil]
        omega
      · split
        · simp only [remaining, removePrefix, List.length_drop]
          omega
        · simp only [remaining, removePrefix, List.length_drop]
          omega

/-- Every outcome of `ReadPhysicalRecord` but the end of the file makes
progress. -/
theorem remaining_readPhysicalRecord_lt {reader : Reader File} (result : Slice)
    (goes : (reader.readPhysicalRecord result).1 ≠ kEof) :
    (reader.readPhysicalRecord result).2.2.remaining < reader.remaining := by
  induction reader using readPhysicalRecord.induct with
  | case1 reader short open_ refilled passed ih =>
      rw [readPhysicalRecord, if_pos short, if_pos open_] at goes ⊢
      dsimp only at goes ⊢
      rw [if_pos passed] at goes ⊢
      have filled : refilled.2.remaining ≤ Source.left reader.file :=
        remaining_refill_le reader.clearBuffer
      calc (refilled.2.readPhysicalRecord result).2.2.remaining
          < refilled.2.remaining := ih goes
        _ ≤ Source.left reader.file := filled
        _ ≤ reader.remaining := Nat.le_add_left _ _
  | case2 reader short open_ refilled failed =>
      rw [readPhysicalRecord, if_pos short, if_pos open_] at goes
      dsimp only at goes
      rw [if_neg failed] at goes
      exact absurd rfl goes
  | case3 reader short closed =>
      rw [readPhysicalRecord, if_pos short, if_neg closed] at goes
      exact absurd rfl goes
  | case4 reader full =>
      rw [readPhysicalRecord, if_neg full] at goes ⊢
      exact remaining_parseRecord_lt result (Nat.le_of_not_lt full) goes

end Reader

/-! ## Logical records -/

/-- `resyncing_` and the local variables of `ReadRecord`. -/
structure Assembly where
  resyncing : Bool
  inFragmentedRecord : Bool
  prospectiveRecordOffset : BitVec 64
  scratch : Slice

/-- What one iteration of the loop of `ReadRecord` decides. -/
inductive Verdict where
  | again (assembly : Assembly)
  | found (record : Slice) (offset : BitVec 64) (assembly : Assembly)
  | stop (assembly : Assembly)

/-- A call of `ReportCorruption`. -/
abbrev Drop := Nat × String

namespace Assembly

/-- The `switch` of `ReadRecord`. -/
def switchType (assembly : Assembly) (recordType : BitVec 32) (fragment : Slice)
    (physicalRecordOffset : BitVec 64) : Option Drop × Verdict :=
  if recordType = RecordType.full.code then
    (if assembly.inFragmentedRecord ∧ assembly.scratch ≠ [] then
        some (assembly.scratch.length, "partial record without end(1)")
      else none,
      .found fragment physicalRecordOffset
        { assembly with prospectiveRecordOffset := physicalRecordOffset, scratch := [] })
  else if recordType = RecordType.first.code then
    (if assembly.inFragmentedRecord ∧ assembly.scratch ≠ [] then
        some (assembly.scratch.length, "partial record without end(2)")
      else none,
      .again { assembly with
        prospectiveRecordOffset := physicalRecordOffset
        scratch := fragment
        inFragmentedRecord := true })
  else if recordType = RecordType.middle.code then
    if !assembly.inFragmentedRecord then
      (some (fragment.length, "missing start of fragmented record(1)"), .again assembly)
    else
      (none, .again { assembly with scratch := assembly.scratch ++ fragment })
  else if recordType = RecordType.last.code then
    if !assembly.inFragmentedRecord then
      (some (fragment.length, "missing start of fragmented record(2)"), .again assembly)
    else
      (none, .found (assembly.scratch ++ fragment) assembly.prospectiveRecordOffset
        { assembly with scratch := assembly.scratch ++ fragment })
  else if recordType = kEof then
    (none, .stop { assembly with
      scratch := if assembly.inFragmentedRecord then [] else assembly.scratch })
  else if recordType = kBadRecord then
    if assembly.inFragmentedRecord then
      (some (assembly.scratch.length, "error in middle of record"),
        .again { assembly with inFragmentedRecord := false, scratch := [] })
    else
      (none, .again assembly)
  else
    (some (fragment.length + (if assembly.inFragmentedRecord then assembly.scratch.length else 0),
        "unknown record type " ++ toString recordType.toNat),
      .again { assembly with inFragmentedRecord := false, scratch := [] })

/-- The body of the loop of `ReadRecord` after `ReadPhysicalRecord` returned. -/
def accept (assembly : Assembly) (recordType : BitVec 32) (fragment : Slice)
    (physicalRecordOffset : BitVec 64) : Option Drop × Verdict :=
  if assembly.resyncing then
    if recordType = RecordType.middle.code then
      (none, .again assembly)
    else if recordType = RecordType.last.code then
      (none, .again { assembly with resyncing := false })
    else
      { assembly with resyncing := false }.switchType recordType fragment physicalRecordOffset
  else
    assembly.switchType recordType fragment physicalRecordOffset

/-- The end of the file always ends the loop. -/
theorem accept_kEof (assembly : Assembly) (fragment : Slice) (offset : BitVec 64) :
    ∃ after, assembly.accept kEof fragment offset = (none, .stop after) := by
  unfold accept
  split
  · exact ⟨_, rfl⟩
  · exact ⟨_, rfl⟩

end Assembly

namespace Reader

variable {File : Type}

/-- The report an iteration of the loop makes, if any. -/
def reportIfAny (reader : Reader File) : Option Drop → Reader File
  | none => reader
  | some (bytes, reason) => reader.reportCorruption bytes reason

theorem reportIfAny_frame (reader : Reader File) (drop : Option Drop) :
    ∃ reports, reader.reportIfAny drop = { reader with reports := reports } := by
  cases drop with
  | none => exact ⟨reader.reports, rfl⟩
  | some drop => exact reader.reportDrop_frame _ _

/-- The offset `ReadRecord` computes for the physical record it just read. -/
def physicalRecordOffset (reader : Reader File) (fragment : Slice) : BitVec 64 :=
  reader.position - BitVec.ofNat 64 kHeaderSize - BitVec.ofNat 64 fragment.length

variable [Source File]

@[simp] theorem remaining_reportIfAny (reader : Reader File) (drop : Option Drop) :
    (reader.reportIfAny drop).remaining = reader.remaining := by
  cases drop with
  | none => rfl
  | some drop => exact remaining_reportDrop reader _ _

/-- One iteration of the loop of `ReadRecord`. -/
def iteration (reader : Reader File) (assembly : Assembly) (fragment : Slice) :
    Verdict × Reader File × Slice :=
  let read := reader.readPhysicalRecord fragment
  let decision := assembly.accept read.1 read.2.1 (read.2.2.physicalRecordOffset read.2.1)
  (decision.2, read.2.2.reportIfAny decision.1, read.2.1)

/-- An iteration that does not end the loop at the end of the file makes
progress. -/
theorem remaining_iteration_lt {reader : Reader File} {assembly : Assembly} {fragment : Slice}
    (goes : ∀ after, (reader.iteration assembly fragment).1 ≠ .stop after) :
    (reader.iteration assembly fragment).2.1.remaining < reader.remaining := by
  simp only [iteration, remaining_reportIfAny] at goes ⊢
  apply remaining_readPhysicalRecord_lt
  intro ended
  obtain ⟨after, stops⟩ := assembly.accept_kEof (reader.readPhysicalRecord fragment).2.1
    ((reader.readPhysicalRecord fragment).2.2.physicalRecordOffset
      (reader.readPhysicalRecord fragment).2.1)
  rw [ended, stops] at goes
  exact goes after rfl

/-- The loop of `ReadRecord`. -/
def readRecordLoop (reader : Reader File) (assembly : Assembly) (fragment : Slice) :
    Option Slice × Reader File :=
  match _decided : (reader.iteration assembly fragment).1 with
  | .again next =>
      readRecordLoop (reader.iteration assembly fragment).2.1 next
        (reader.iteration assembly fragment).2.2
  | .found record offset next =>
      (some record, { (reader.iteration assembly fragment).2.1 with
        lastRecordOffset := offset
        resyncing := next.resyncing })
  | .stop next =>
      (none, { (reader.iteration assembly fragment).2.1 with resyncing := next.resyncing })
termination_by reader.remaining
decreasing_by
  apply remaining_iteration_lt
  intro after stopped
  exact Verdict.noConfusion (_decided.symm.trans stopped)

/-- `resyncing_` and the local variables when `ReadRecord` enters its loop. -/
def start (reader : Reader File) : Assembly where
  resyncing := reader.resyncing
  inFragmentedRecord := false
  prospectiveRecordOffset := 0
  scratch := []

/-- `Reader::ReadRecord`: the record, when it returns true. -/
def readRecord (reader : Reader File) : Option Slice × Reader File :=
  if reader.lastRecordOffset < reader.config.initialOffset then
    if reader.skipToInitialBlock.1 then
      reader.skipToInitialBlock.2.readRecordLoop reader.start []
    else
      (none, reader.skipToInitialBlock.2)
  else
    reader.readRecordLoop reader.start []

theorem remaining_readRecordLoop_lt {reader : Reader File} {assembly : Assembly} {fragment : Slice}
    {record : Slice} (found : (reader.readRecordLoop assembly fragment).1 = some record) :
    (reader.readRecordLoop assembly fragment).2.remaining < reader.remaining := by
  induction reader, assembly, fragment using readRecordLoop.induct with
  | case1 reader assembly fragment next decided ih =>
      have progress : (reader.iteration assembly fragment).2.1.remaining < reader.remaining := by
        apply remaining_iteration_lt
        intro after stopped
        exact Verdict.noConfusion (decided.symm.trans stopped)
      rw [readRecordLoop, decided] at found ⊢
      exact (ih found).trans progress
  | case2 reader assembly fragment record offset next decided =>
      rw [readRecordLoop, decided]
      apply remaining_iteration_lt
      intro after stopped
      exact Verdict.noConfusion (decided.symm.trans stopped)
  | case3 reader assembly fragment next decided =>
      rw [readRecordLoop, decided] at found
      cases found

/-- The reader after `count` more `ReadRecord` calls. -/
def afterCalls (reader : Reader File) (count : Nat) : Reader File :=
  (fun reader => reader.readRecord.2)^[count] reader

/-! ## All records of a file -/

theorem remaining_skipToInitialBlock_le (reader : Reader) :
    reader.skipToInitialBlock.2.remaining ≤ reader.remaining := by
  have skipped := fun count => reader.file.length_skip_le count
  unfold skipToInitialBlock
  dsimp only
  split
  · split
    · exact Nat.add_le_add_left (skipped _) _
    · rw [remaining_reportDrop]
      exact Nat.add_le_add_left (skipped _) _
  · exact Nat.le_refl _

theorem remaining_readRecord_lt {reader : Reader} {record : Slice}
    (found : reader.readRecord.1 = some record) :
    reader.readRecord.2.remaining < reader.remaining := by
  unfold readRecord at *
  split at found
  · rename_i before
    rw [if_pos before]
    split at found
    · rename_i passed
      rw [if_pos passed]
      exact (remaining_readRecordLoop_lt found).trans_le (remaining_skipToInitialBlock_le reader)
    · cases found
  · rename_i after
    rw [if_neg after]
    exact remaining_readRecordLoop_lt found

/-- Successive `ReadRecord` calls until the first that returns false: the records
returned, each with `LastRecordOffset()` after its call, and the reader after the
call that returned false. -/
def readAll (reader : Reader) : List (Slice × BitVec 64) × Reader :=
  match _found : reader.readRecord.1 with
  | some record =>
      ((record, reader.readRecord.2.lastRecordOffset) :: (readAll reader.readRecord.2).1,
        (readAll reader.readRecord.2).2)
  | none => ([], reader.readRecord.2)
termination_by reader.remaining
decreasing_by
  all_goals exact remaining_readRecord_lt _found

end Reader

end MiniLevelDb.Log
