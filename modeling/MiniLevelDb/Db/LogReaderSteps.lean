import Mathlib.Data.Set.Function
import Mathlib.Logic.Relation
import MiniLevelDb.Db.LogReader

/-!
# The reader step by step

The calls a reader receives, taken apart at its calls of `SequentialFile::Read`.
A step enters `ReadRecord`, reads the next block, or handles one outcome of
`ReadPhysicalRecord`. `returns_readRecord` says that the steps of a call come to
what `ReadRecord` returns, so whatever holds along every run of steps holds of
every sequence of calls.
-/

namespace MiniLevelDb.Log

namespace Reader

variable {File : Type}

/-! ## What the operations leave alone -/

/-- Parsing works on the buffer. -/
theorem parseRecord_frame (reader : Reader File) (result : Slice) :
    ∃ buffer reports,
      (reader.parseRecord result).2.2 = { reader with buffer := buffer, reports := reports } := by
  unfold parseRecord
  dsimp only
  split
  · split
    · obtain ⟨reports, same⟩ := reader.clearBuffer.reportDrop_frame reader.buffer.length
        (.corruption "bad record length")
      exact ⟨[], reports, same⟩
    · exact ⟨[], reader.reports, rfl⟩
  · split
    · exact ⟨[], reader.reports, rfl⟩
    · split
      · obtain ⟨reports, same⟩ := reader.clearBuffer.reportDrop_frame reader.buffer.length
          (.corruption "checksum mismatch")
        exact ⟨[], reports, same⟩
      · split
        · exact ⟨_, reader.reports, rfl⟩
        · exact ⟨_, reader.reports, rfl⟩

variable [Source File]

/-- Skipping moves in the file. -/
theorem skipToInitialBlock_frame (reader : Reader File) :
    ∃ file reports, reader.skipToInitialBlock.2 = { reader with
      endOfBufferOffset := blockStartLocation reader.config.initialOffset
      file := file
      reports := reports } := by
  unfold skipToInitialBlock
  dsimp only
  split
  · split
    · exact ⟨_, reader.reports, rfl⟩
    · obtain ⟨reports, same⟩ := reportDrop_frame { reader with
        endOfBufferOffset := blockStartLocation reader.config.initialOffset
        file := (Source.skip reader.file (blockStartLocation reader.config.initialOffset).toNat).2 }
        (blockStartLocation reader.config.initialOffset).toNat
        (Source.skip reader.file (blockStartLocation reader.config.initialOffset).toNat).1
      exact ⟨_, reports, same⟩
  · exact ⟨reader.file, reader.reports, rfl⟩

section

variable {reader : Reader File} {status : Status} {buffer : Slice} {after : File}

/-- What a `Read` that fails makes of the reader. -/
theorem refill_eq_of_failed (read : Source.read reader.file kBlockSize = (status, [], after))
    (refused : status.isOk = false) :
    reader.refill = (false,
      { reportDrop { reader with file := after, buffer := [] } kBlockSize status with
        eof := true }) := by
  rw [refill, read]
  dsimp only
  rw [refused, Bool.not_false, if_pos rfl, List.length_nil, BitVec.add_zero]
  rfl

/-- The same for a `Read` that succeeds. -/
theorem refill_eq_of_passed (read : Source.read reader.file kBlockSize = (status, buffer, after))
    (passed : status.isOk = true) :
    reader.refill = (true, { reader with
      file := after
      buffer := buffer
      endOfBufferOffset := reader.endOfBufferOffset + BitVec.ofNat 64 buffer.length
      eof := if buffer.length < kBlockSize then true else reader.eof }) := by
  rw [refill, read]
  dsimp only
  rw [passed, Bool.not_true, if_neg Bool.false_ne_true]
  split
  · rfl
  · rfl

end

end Reader

/-! ## Steps -/

/-- Where a reader stands: between two calls of `ReadRecord`, with what the last
of them returned, or in the loop of a call, about to go through the loop of
`ReadPhysicalRecord` with these locals. -/
inductive ReaderPoint where
  | outside (returned : Option (Option Slice))
  | looping (assembly : Assembly) (fragment : Slice)

/-- A reader in the course of its calls. -/
structure ReaderRun where
  reader : Reader
  point : ReaderPoint

namespace ReaderRun

/-- A reader that has not been called yet. -/
def new (file : SequentialFile) (config : ReaderConfig) : ReaderRun :=
  ⟨.new file config, .outside none⟩

/-- The next step calls `SequentialFile::Read`. -/
def Reads (run : ReaderRun) : Prop :=
  (∃ assembly fragment, run.point = .looping assembly fragment) ∧
    run.reader.buffer.length < kHeaderSize ∧ run.reader.eof = false

/-- The outcome of the call of `SequentialFile::Read` that is next. -/
def readStatus (run : ReaderRun) : Status :=
  (run.reader.file.read kBlockSize).1

/-- The bytes returned by the call of `SequentialFile::Read` that is next. -/
def readResult (run : ReaderRun) : Slice :=
  (run.reader.file.read kBlockSize).2.1

/-- The body of the loop of `ReadRecord` after `ReadPhysicalRecord` returned. -/
def conclude (assembly : Assembly) (read : BitVec 32 × Slice × Reader) : ReaderRun :=
  let decision := assembly.accept read.1 read.2.1 (read.2.2.physicalRecordOffset read.2.1)
  let reader := read.2.2.reportIfAny decision.1
  match decision.2 with
  | .again next => ⟨reader, .looping next read.2.1⟩
  | .found record offset next =>
      ⟨{ reader with lastRecordOffset := offset, resyncing := next.resyncing },
        .outside (some (some record))⟩
  | .stop next => ⟨{ reader with resyncing := next.resyncing }, .outside (some none)⟩

/-- The next step. Between two calls it is the next call of `ReadRecord`. -/
def next (run : ReaderRun) : ReaderRun :=
  match run.point with
  | .outside _ =>
      if run.reader.lastRecordOffset < run.reader.config.initialOffset then
        if run.reader.skipToInitialBlock.1 then
          ⟨run.reader.skipToInitialBlock.2, .looping run.reader.start []⟩
        else
          ⟨run.reader.skipToInitialBlock.2, .outside (some none)⟩
      else
        ⟨run.reader, .looping run.reader.start []⟩
  | .looping assembly fragment =>
      if run.reader.buffer.length < kHeaderSize then
        if run.reader.eof = false then
          let refilled := run.reader.clearBuffer.refill
          if refilled.1 = true then
            ⟨refilled.2, .looping assembly fragment⟩
          else
            conclude assembly (kEof, fragment, refilled.2)
        else
          conclude assembly (kEof, fragment, run.reader.clearBuffer)
      else
        conclude assembly (run.reader.parseRecord fragment)

/-- A step inside a call. -/
def Inside (run after : ReaderRun) : Prop :=
  (∃ assembly fragment, run.point = .looping assembly fragment) ∧ after = run.next

/-- After finitely many steps the call that begins at `run` has returned, and not
before. -/
def Returns (run after : ReaderRun) : Prop :=
  Relation.ReflTransGen Inside run.next after

/-! ## The steps of a call -/

/-- A block that was read leaves a physical record to parse, or the end of the
file. -/
theorem next_refilled {reader : Reader} (passed : reader.refill.1 = true) (assembly : Assembly)
    (fragment : Slice) :
    next ⟨reader.refill.2, .looping assembly fragment⟩ =
      conclude assembly (reader.refill.2.readPhysicalRecord fragment) := by
  have settled : reader.refill.2.buffer.length < kHeaderSize → ¬ reader.refill.2.eof = false := by
    intro short open_
    rw [Reader.refill_progress reader ⟨short, open_⟩] at passed
    cases passed
  unfold next
  dsimp only
  by_cases short : reader.refill.2.buffer.length < kHeaderSize
  · rw [Reader.readPhysicalRecord, if_pos short, if_pos short, if_neg (settled short),
      if_neg (settled short)]
  · rw [Reader.readPhysicalRecord, if_neg short, if_neg short]

/-- The steps of `ReadPhysicalRecord`. -/
theorem inside_readPhysicalRecord (reader : Reader) (assembly : Assembly) (fragment : Slice) :
    Relation.ReflTransGen Inside ⟨reader, .looping assembly fragment⟩
      (conclude assembly (reader.readPhysicalRecord fragment)) := by
  have first : Inside ⟨reader, .looping assembly fragment⟩
      (next ⟨reader, .looping assembly fragment⟩) := ⟨⟨assembly, fragment, rfl⟩, rfl⟩
  rw [Reader.readPhysicalRecord]
  by_cases short : reader.buffer.length < kHeaderSize
  · by_cases open_ : reader.eof = false
    · by_cases passed : reader.clearBuffer.refill.1 = true
      · have refilled : next ⟨reader, .looping assembly fragment⟩ =
            ⟨reader.clearBuffer.refill.2, .looping assembly fragment⟩ := by
          simp only [next, if_pos short, if_pos open_, if_pos passed]
        simp only [if_pos short, if_pos open_, if_pos passed]
        rw [refilled] at first
        refine Relation.ReflTransGen.head first (Relation.ReflTransGen.single ?_)
        exact ⟨⟨assembly, fragment, rfl⟩, (next_refilled passed assembly fragment).symm⟩
      · have failed : next ⟨reader, .looping assembly fragment⟩ =
            conclude assembly (kEof, fragment, reader.clearBuffer.refill.2) := by
          simp only [next, if_pos short, if_pos open_, if_neg passed]
        simp only [if_pos short, if_pos open_, if_neg passed]
        rw [failed] at first
        exact .single first
    · have ended : next ⟨reader, .looping assembly fragment⟩ =
          conclude assembly (kEof, fragment, reader.clearBuffer) := by
        simp only [next, if_pos short, if_neg open_]
      rw [if_pos short, if_neg open_]
      rw [ended] at first
      exact .single first
  · have parsed : next ⟨reader, .looping assembly fragment⟩ =
        conclude assembly (reader.parseRecord fragment) := by
      simp only [next, if_neg short]
    rw [if_neg short]
    rw [parsed] at first
    exact .single first

/-- The steps of the loop of `ReadRecord`. -/
theorem inside_readRecordLoop (reader : Reader) (assembly : Assembly) (fragment : Slice) :
    Relation.ReflTransGen Inside ⟨reader, .looping assembly fragment⟩
      ⟨(reader.readRecordLoop assembly fragment).2,
        .outside (some (reader.readRecordLoop assembly fragment).1)⟩ := by
  induction reader, assembly, fragment using Reader.readRecordLoop.induct with
  | case1 reader assembly fragment next decided ih =>
      refine (inside_readPhysicalRecord reader assembly fragment).trans ?_
      have concluded : conclude assembly (reader.readPhysicalRecord fragment) =
          ⟨(reader.iteration assembly fragment).2.1,
            .looping next (reader.iteration assembly fragment).2.2⟩ := by
        simp only [Reader.iteration] at decided ⊢
        simp only [conclude, decided]
      rw [concluded, Reader.readRecordLoop, decided]
      exact ih
  | case2 reader assembly fragment record offset next decided =>
      have concluded : conclude assembly (reader.readPhysicalRecord fragment) =
          ⟨{ (reader.iteration assembly fragment).2.1 with
              lastRecordOffset := offset, resyncing := next.resyncing },
            .outside (some (some record))⟩ := by
        simp only [Reader.iteration] at decided ⊢
        simp only [conclude, decided]
      rw [Reader.readRecordLoop, decided]
      exact concluded ▸ inside_readPhysicalRecord reader assembly fragment
  | case3 reader assembly fragment next decided =>
      have concluded : conclude assembly (reader.readPhysicalRecord fragment) =
          ⟨{ (reader.iteration assembly fragment).2.1 with resyncing := next.resyncing },
            .outside (some none)⟩ := by
        simp only [Reader.iteration] at decided ⊢
        simp only [conclude, decided]
      rw [Reader.readRecordLoop, decided]
      exact concluded ▸ inside_readPhysicalRecord reader assembly fragment

/-- Every call of `ReadRecord` ends, with what `readRecord` says. -/
theorem returns_readRecord (reader : Reader) (returned : Option (Option Slice)) :
    Returns ⟨reader, .outside returned⟩
      ⟨reader.readRecord.2, .outside (some reader.readRecord.1)⟩ := by
  unfold Returns Reader.readRecord next
  dsimp only
  split
  · split
    · exact inside_readRecordLoop _ _ _
    · exact .refl
  · exact inside_readRecordLoop _ _ _

/-! ## What a step can do -/

/-- The loop body after `ReadPhysicalRecord` changes what is reported and what the
next call starts from. -/
theorem conclude_frame (assembly : Assembly) (read : BitVec 32 × Slice × Reader) :
    ∃ reports last resyncing, (conclude assembly read).reader = { read.2.2 with
      reports := reports
      lastRecordOffset := last
      resyncing := resyncing } := by
  obtain ⟨reports, same⟩ := read.2.2.reportIfAny_frame
    (assembly.accept read.1 read.2.1 (read.2.2.physicalRecordOffset read.2.1)).1
  unfold conclude
  dsimp only
  rw [same]
  split
  · exact ⟨reports, _, _, rfl⟩
  · exact ⟨reports, _, _, rfl⟩
  · exact ⟨reports, _, _, rfl⟩

/-- A step that reads is a call of `refill`. -/
theorem Reads.next_eq {run : ReaderRun} (reads : run.Reads) :
    ∃ assembly fragment, run.point = .looping assembly fragment ∧
      run.next = if run.reader.clearBuffer.refill.1 = true then
          ⟨run.reader.clearBuffer.refill.2, .looping assembly fragment⟩
        else
          conclude assembly (kEof, fragment, run.reader.clearBuffer.refill.2) := by
  obtain ⟨⟨assembly, fragment, inside⟩, short, open_⟩ := reads
  refine ⟨assembly, fragment, inside, ?_⟩
  simp only [next, inside, if_pos short, if_pos open_]

/-- The members a step changes: it skips to the initial block, it reads the next
block, or it works on the buffer. -/
theorem next_cases (run : ReaderRun) :
    (∃ file reports, run.next.reader = { run.reader with
        endOfBufferOffset := Reader.blockStartLocation run.reader.config.initialOffset
        file := file
        reports := reports }) ∨
      (run.Reads ∧ ∃ reports last resyncing,
        run.next.reader = { run.reader.clearBuffer.refill.2 with
          reports := reports
          lastRecordOffset := last
          resyncing := resyncing }) ∨
      ∃ buffer reports last resyncing, run.next.reader = { run.reader with
        buffer := buffer
        reports := reports
        lastRecordOffset := last
        resyncing := resyncing } := by
  by_cases reads : run.Reads
  · right
    left
    refine ⟨reads, ?_⟩
    obtain ⟨assembly, fragment, _, stepped⟩ := reads.next_eq
    rw [stepped]
    split
    · exact ⟨_, _, _, rfl⟩
    · exact conclude_frame assembly _
  obtain ⟨reader, point⟩ := run
  cases point with
  | outside returned =>
      obtain ⟨file, reports, same⟩ := reader.skipToInitialBlock_frame
      unfold next
      dsimp only
      split
      · left
        refine ⟨file, reports, ?_⟩
        rw [← same]
        split <;> rfl
      · right
        right
        exact ⟨reader.buffer, _, _, _, rfl⟩
  | looping assembly fragment =>
      right
      right
      unfold next
      dsimp only
      split
      · rename_i short
        have closed : ¬ reader.eof = false :=
          fun open_ => reads ⟨⟨assembly, fragment, rfl⟩, short, open_⟩
        rw [if_neg closed]
        obtain ⟨reports, last, resyncing, same⟩ :=
          conclude_frame assembly (kEof, fragment, reader.clearBuffer)
        exact ⟨[], reports, last, resyncing, same⟩
      · obtain ⟨buffer, _, parsed⟩ := reader.parseRecord_frame fragment
        obtain ⟨reports, last, resyncing, same⟩ :=
          conclude_frame assembly (reader.parseRecord fragment)
        rw [parsed] at same
        exact ⟨buffer, reports, last, resyncing, same⟩

/-! ## The end of the file -/

/-- Nothing resets `eof_`. -/
theorem next_eof {run : ReaderRun} (ended : run.reader.eof = true) :
    run.next.reader.eof = true := by
  rcases run.next_cases with ⟨_, _, same⟩ | ⟨reads, _⟩ | ⟨_, _, _, _, same⟩
  · rw [same]
    exact ended
  · have open_ := reads.2.2
    rw [ended] at open_
    cases open_
  · rw [same]
    exact ended

/-- After the end of the file the reader does not read. -/
theorem not_reads_of_eof {run : ReaderRun} (ended : run.reader.eof = true) : ¬ run.Reads := by
  rintro ⟨_, _, open_⟩
  rw [ended] at open_
  cases open_

/-- A `Read` that fails or is cut short is the end of the file for the reader. -/
theorem Reads.next_eof {run : ReaderRun} (reads : run.Reads)
    (exhausted : run.readStatus.isOk = false ∨ run.readResult.length < kBlockSize) :
    run.next.reader.eof = true := by
  have closed : run.reader.clearBuffer.refill.2.eof = true := by
    unfold Reader.refill
    dsimp only
    by_cases failed : (!(Source.read run.reader.clearBuffer.file kBlockSize).1.isOk) = true
    · rw [if_pos failed]
    · rw [if_neg failed, if_pos]
      refine exhausted.resolve_left fun refused => failed ?_
      change (!run.readStatus.isOk) = true
      rw [refused]
      rfl
  obtain ⟨assembly, fragment, _, stepped⟩ := reads.next_eq
  rw [stepped]
  split
  · exact closed
  · obtain ⟨_, _, _, same⟩ :=
      conclude_frame assembly (kEof, fragment, run.reader.clearBuffer.refill.2)
    rw [same]
    exact closed

/-- The reader never reads again after a `Read` that failed or was cut short. -/
theorem not_reads_after {run : ReaderRun} (reads : run.Reads)
    (exhausted : run.readStatus.isOk = false ∨ run.readResult.length < kBlockSize)
    (later : Nat) : ¬ (next^[later] run.next).Reads := by
  have kept : Set.MapsTo next {run | run.reader.eof = true} {run | run.reader.eof = true} :=
    fun _ ended => next_eof ended
  exact not_reads_of_eof (kept.iterate later (reads.next_eof exhausted))

end ReaderRun

end MiniLevelDb.Log
