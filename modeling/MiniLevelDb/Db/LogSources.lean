import MiniLevelDb.Db.LogReaderSteps
import MiniLevelDb.Db.LogRecovery

/-!
# The log reader over other files

A reader does not read again after a `Read` that fails or returns less than a block, so over
any file it does what it does over the bytes that it gets to see.
-/

namespace MiniLevelDb.Log

/-! ## What a reader gets to see -/

section

variable {File : Type} [Source File]

/-- Reads of whole blocks return these bytes, up to the first read that fails, with this
status, or returns less. -/
inductive Shows : File → Slice → Option Status → Prop
  | failed {file : File} {status : Status} {after : File}
      (read : Source.read file kBlockSize = (status, [], after))
      (refused : status.isOk = false) : Shows file [] (some status)
  | short {file : File} {status : Status} {buffer : Slice} {after : File}
      (read : Source.read file kBlockSize = (status, buffer, after))
      (passed : status.isOk = true) (less : buffer.length < kBlockSize) : Shows file buffer none
  | full {file : File} {status : Status} {buffer : Slice} {after : File} {later : Slice}
      {failure : Option Status} (read : Source.read file kBlockSize = (status, buffer, after))
      (passed : status.isOk = true) (whole : buffer.length = kBlockSize)
      (shows : Shows after later failure) : Shows file (buffer ++ later) failure

end

namespace Reader

/-- The reader with another file in the place of its own. -/
def onto {File Other : Type} (reader : Reader File) (file : Other) : Reader Other where
  config := reader.config
  file := file
  buffer := reader.buffer
  eof := reader.eof
  lastRecordOffset := reader.lastRecordOffset
  endOfBufferOffset := reader.endOfBufferOffset
  resyncing := reader.resyncing
  reports := reader.reports

section

variable {File Other : Type} (reader : Reader File) (file : Other)

theorem reportDrop_onto (bytes : Nat) (reason : Status) :
    (reader.onto file).reportDrop bytes reason = (reader.reportDrop bytes reason).onto file := by
  by_cases heard : reader.config.reporter ∧
      reader.position - BitVec.ofNat 64 bytes ≥ reader.config.initialOffset
  · have here : reader.reportDrop bytes reason =
        { reader with reports := reader.reports ++ [(bytes, reason)] } := if_pos heard
    rw [here]
    exact if_pos heard
  · have here : reader.reportDrop bytes reason = reader := if_neg heard
    rw [here]
    exact if_neg heard

/-- From the start of a file everything is reported. -/
theorem reportDrop_zero (zero : reader.config.initialOffset = 0) (bytes : Nat)
    (reason : Status) :
    reader.reportDrop bytes reason = { reader with
      reports := reader.reports ++ if reader.config.reporter then [(bytes, reason)] else [] } := by
  have after : reader.position - BitVec.ofNat 64 bytes ≥ reader.config.initialOffset := by
    rw [zero, ge_iff_le, BitVec.le_def]
    exact Nat.zero_le _
  unfold reportDrop
  by_cases heard : reader.config.reporter = true
  · rw [if_pos ⟨heard, after⟩, if_pos heard]
  · rw [if_neg fun both => heard both.1, if_neg heard, List.append_nil]

theorem reportIfAny_onto (drop : Option Drop) :
    (reader.onto file).reportIfAny drop = (reader.reportIfAny drop).onto file := by
  cases drop with
  | none => rfl
  | some drop => exact reader.reportDrop_onto file _ _

/-- Parsing does not look at the file. -/
theorem parseRecord_onto (result : Slice) :
    (reader.onto file).parseRecord result =
      ((reader.parseRecord result).1, (reader.parseRecord result).2.1,
        (reader.parseRecord result).2.2.onto file) := by
  have cleared : (reader.onto file).clearBuffer = reader.clearBuffer.onto file := rfl
  have removed : (reader.onto file).removePrefix (kHeaderSize + headerLength reader.buffer) =
      (reader.removePrefix (kHeaderSize + headerLength reader.buffer)).onto file := rfl
  have place : ∀ other : Reader File, (other.onto file).position = other.position :=
    fun _ => rfl
  have dropped := fun bytes reason => reader.clearBuffer.reportDrop_onto file bytes reason
  have buffer : (reader.onto file).buffer = reader.buffer := rfl
  have eof : (reader.onto file).eof = reader.eof := rfl
  have config : (reader.onto file).config = reader.config := rfl
  simp only [parseRecord, reportCorruption, buffer, eof, config, cleared, removed, place, dropped]
  by_cases long : kHeaderSize + headerLength reader.buffer > reader.buffer.length
  · by_cases open_ : (!reader.eof) = true
    · simp only [if_pos long, if_pos open_]
    · simp only [if_pos long, if_neg open_]
  · by_cases blank : headerType reader.buffer = RecordType.zero.code ∧
        headerLength reader.buffer = 0
    · simp only [if_neg long, if_pos blank]
    · by_cases damaged : (reader.config.checksum && !checksumMatches reader.buffer) = true
      · simp only [if_neg long, if_neg blank, if_pos damaged]
      · simp only [if_neg long, if_neg blank, if_neg damaged]
        split
        · rfl
        · rfl

/-- The next block, or what is left of one, when no read fails. -/
theorem refill_onto {seen buffer later : Slice} (taken : seen.take kBlockSize = buffer)
    (left : seen.drop kBlockSize = later) :
    (reader.onto (⟨seen, [], .ok⟩ : SequentialFile)).refill =
      (true, { reader.onto (⟨later, [], .ok⟩ : SequentialFile) with
        buffer := buffer
        endOfBufferOffset := reader.endOfBufferOffset + BitVec.ofNat 64 buffer.length
        eof := if buffer.length < kBlockSize then true else reader.eof }) := by
  subst taken left
  exact refill_eq_of_passed rfl Status.isOk_ok

end

/-! ## Readers side by side -/

/-- The report of a read that failed. -/
def failureReports (config : ReaderConfig) (failure : Option Status) : List Report :=
  if config.reporter then failure.toList.map fun status => (kBlockSize, status) else []

variable {File : Type} {failure : Option Status} {reader : Reader File} {core : Reader}

/-- A read failed where the other reader came to the end. -/
structure Failed (failure : Option Status) (reader : Reader File) (core : Reader) : Prop where
  same : ∃ file, reader =
    { core with reports := core.reports ++ failureReports core.config failure }.onto file
  atEnd : core.AtEnd
  zero : core.config.initialOffset = 0

theorem Failed.members (failed : Failed failure reader core) :
    reader.buffer = [] ∧ reader.eof = true := by
  obtain ⟨⟨file, rfl⟩, atEnd, _⟩ := failed
  exact ⟨atEnd.buffer, atEnd.eof⟩

variable [Source File]

/-- The reader over a file goes as the one over the bytes that the file shows. -/
structure Going (failure : Option Status) (reader : Reader File) (core : Reader) : Prop where
  same : ∃ seen, core = reader.onto ⟨seen, [], .ok⟩ ∧
    (reader.eof = false → Shows reader.file seen failure)
  ended : reader.eof = true → failure = none
  zero : reader.config.initialOffset = 0

theorem Going.members (going : Going failure reader core) :
    core.buffer = reader.buffer ∧ core.eof = reader.eof := by
  obtain ⟨⟨seen, rfl, _⟩, _, _⟩ := going
  exact ⟨rfl, rfl⟩

theorem Going.clearBuffer (going : Going failure reader core) :
    Going failure reader.clearBuffer core.clearBuffer := by
  obtain ⟨⟨seen, rfl, shows⟩, ended, zero⟩ := going
  exact ⟨⟨seen, rfl, shows⟩, ended, zero⟩

theorem Going.parseRecord (going : Going failure reader core) (result : Slice) :
    (reader.parseRecord result).1 = (core.parseRecord result).1 ∧
      (reader.parseRecord result).2.1 = (core.parseRecord result).2.1 ∧
      Going failure (reader.parseRecord result).2.2 (core.parseRecord result).2.2 := by
  obtain ⟨⟨seen, rfl, shows⟩, ended, zero⟩ := going
  rw [Reader.parseRecord_onto]
  obtain ⟨buffer, reports, frame⟩ := reader.parseRecord_frame result
  refine ⟨rfl, rfl, ⟨⟨seen, rfl, ?_⟩, ?_, ?_⟩⟩
  · rw [frame]
    exact shows
  · rw [frame]
    exact ended
  · rw [frame]
    exact zero

theorem Going.reportIfAny (going : Going failure reader core) (drop : Option Drop) :
    Going failure (reader.reportIfAny drop) (core.reportIfAny drop) := by
  obtain ⟨⟨seen, rfl, shows⟩, ended, zero⟩ := going
  rw [reader.reportIfAny_onto]
  obtain ⟨reports, frame⟩ := reader.reportIfAny_frame drop
  refine ⟨⟨seen, rfl, ?_⟩, ?_, ?_⟩
  · rw [frame]
    exact shows
  · rw [frame]
    exact ended
  · rw [frame]
    exact zero

/-- The next block is read. -/
theorem Going.refill (going : Going failure reader core) (open_ : reader.eof = false) :
    core.refill.1 = true ∧
      (reader.refill.1 = true ∧ Going failure reader.refill.2 core.refill.2 ∨
        reader.refill.1 = false ∧ Failed failure reader.refill.2 core.refill.2) := by
  obtain ⟨⟨seen, rfl, shows⟩, ended, zero⟩ := going
  cases shows open_ with
  | @failed _ status after read refused =>
      rw [reader.refill_onto List.take_nil List.drop_nil, refill_eq_of_failed read refused]
      refine ⟨rfl, .inr ⟨rfl, ⟨⟨after, ?_⟩, ⟨rfl, rfl⟩, zero⟩⟩⟩
      have dropped :=
        reportDrop_zero { reader with file := after, buffer := [] } zero kBlockSize status
      rw [dropped, List.length_nil, BitVec.add_zero]
      rfl
  | @short _ status buffer after read passed less =>
      rw [reader.refill_onto (List.take_of_length_le less.le) (List.drop_of_length_le less.le),
        refill_eq_of_passed read passed]
      refine ⟨rfl, .inl ⟨rfl, ⟨⟨_, rfl, ?_⟩, fun _ => rfl, zero⟩⟩⟩
      dsimp only
      rw [if_pos less]
      intro still
      cases still
  | @full _ status buffer after later failure read passed whole shows =>
      have first : (buffer ++ later).take kBlockSize = buffer := by
        rw [← whole, List.take_left]
      have rest : (buffer ++ later).drop kBlockSize = later := by
        rw [← whole, List.drop_left]
      rw [reader.refill_onto first rest, refill_eq_of_passed read passed]
      refine ⟨rfl, .inl ⟨rfl, ⟨⟨later, rfl, fun _ => shows⟩, ?_, zero⟩⟩⟩
      dsimp only
      rw [if_neg (by rw [whole]; exact Nat.lt_irrefl _), open_]
      intro still
      cases still

/-- At the end a reader stays there. -/
theorem readPhysicalRecord_atEnd {core : Reader} (atEnd : core.AtEnd) (result : Slice) :
    core.readPhysicalRecord result = (kEof, result, core) := by
  have cleared : core.clearBuffer = core := by
    rw [Reader.clearBuffer, ← atEnd.buffer]
  have short : core.buffer.length < kHeaderSize := by
    rw [atEnd.buffer]
    exact Nat.zero_lt_succ _
  rw [Reader.readPhysicalRecord, if_pos short, if_neg (by rw [atEnd.eof]; exact Bool.noConfusion),
    cleared]

/-- After a failed read both readers stay where they are. -/
theorem Failed.readPhysicalRecord (failed : Failed failure reader core) (result : Slice) :
    reader.readPhysicalRecord result = (kEof, result, reader) ∧
      core.readPhysicalRecord result = (kEof, result, core) := by
  refine ⟨?_, readPhysicalRecord_atEnd failed.atEnd result⟩
  obtain ⟨empty, eof⟩ := failed.members
  have cleared : reader.clearBuffer = reader := by
    rw [Reader.clearBuffer, ← empty]
  have short : reader.buffer.length < kHeaderSize := by
    rw [empty]
    exact Nat.zero_lt_succ _
  rw [Reader.readPhysicalRecord, if_pos short, if_neg (by rw [eof]; exact Bool.noConfusion),
    cleared]

/-- Without a block to read next. -/
theorem Going.readPhysicalRecord_settled (going : Going failure reader core)
    (settled : reader.buffer.length < kHeaderSize → ¬ reader.eof = false)
    (result : Slice) :
    (reader.readPhysicalRecord result).1 = (core.readPhysicalRecord result).1 ∧
      (reader.readPhysicalRecord result).2.1 = (core.readPhysicalRecord result).2.1 ∧
      Going failure (reader.readPhysicalRecord result).2.2
        (core.readPhysicalRecord result).2.2 := by
  obtain ⟨buffers, eofs⟩ := going.members
  rw [Reader.readPhysicalRecord, Reader.readPhysicalRecord, buffers, eofs]
  by_cases short : reader.buffer.length < kHeaderSize
  · rw [if_pos short, if_pos short, if_neg (settled short), if_neg (settled short)]
    exact ⟨rfl, rfl, going.clearBuffer⟩
  · rw [if_neg short, if_neg short]
    exact going.parseRecord result

theorem Going.readPhysicalRecord (going : Going failure reader core) (result : Slice) :
    (reader.readPhysicalRecord result).1 = (core.readPhysicalRecord result).1 ∧
      (reader.readPhysicalRecord result).2.1 = (core.readPhysicalRecord result).2.1 ∧
      (Going failure (reader.readPhysicalRecord result).2.2 (core.readPhysicalRecord result).2.2 ∨
        (core.readPhysicalRecord result).1 = kEof ∧
          Failed failure (reader.readPhysicalRecord result).2.2
            (core.readPhysicalRecord result).2.2) := by
  by_cases reads : reader.buffer.length < kHeaderSize ∧ reader.eof = false
  · obtain ⟨short, open_⟩ := reads
    obtain ⟨buffers, eofs⟩ := going.members
    rw [Reader.readPhysicalRecord, Reader.readPhysicalRecord, buffers, eofs, if_pos short,
      if_pos short, if_pos open_, if_pos open_]
    dsimp only
    obtain ⟨passes, ⟨refills, next⟩ | ⟨refused, failed⟩⟩ := going.clearBuffer.refill open_
    · rw [if_pos refills, if_pos passes]
      have settled : reader.clearBuffer.refill.2.buffer.length < kHeaderSize →
          ¬ reader.clearBuffer.refill.2.eof = false := by
        intro short open_
        rw [reader.clearBuffer.refill_progress ⟨short, open_⟩] at refills
        cases refills
      obtain ⟨type, payload, after⟩ := next.readPhysicalRecord_settled settled result
      exact ⟨type, payload, .inl after⟩
    · rw [if_neg (by rw [refused]; exact Bool.false_ne_true), if_pos passes,
        readPhysicalRecord_atEnd failed.atEnd]
      exact ⟨rfl, rfl, .inr ⟨rfl, failed⟩⟩
  · obtain ⟨type, payload, after⟩ := going.readPhysicalRecord_settled
      (fun short open_ => reads ⟨short, open_⟩) result
    exact ⟨type, payload, .inl after⟩

theorem Going.iteration (going : Going failure reader core) (assembly : Assembly)
    (fragment : Slice) :
    (reader.iteration assembly fragment).1 = (core.iteration assembly fragment).1 ∧
      (reader.iteration assembly fragment).2.2 = (core.iteration assembly fragment).2.2 ∧
      (Going failure (reader.iteration assembly fragment).2.1
          (core.iteration assembly fragment).2.1 ∨
        (∃ after, (core.iteration assembly fragment).1 = .stop after) ∧
          Failed failure (reader.iteration assembly fragment).2.1
            (core.iteration assembly fragment).2.1) := by
  obtain ⟨type, payload, after⟩ := going.readPhysicalRecord fragment
  have offset : (reader.readPhysicalRecord fragment).2.2.physicalRecordOffset
        (core.readPhysicalRecord fragment).2.1 =
      (core.readPhysicalRecord fragment).2.2.physicalRecordOffset
        (core.readPhysicalRecord fragment).2.1 := by
    rcases after with ⟨⟨_, same, _⟩, _, _⟩ | ⟨_, ⟨_, same⟩, _, _⟩
    · rw [same]
      rfl
    · rw [same]
      rfl
  rw [Reader.iteration, Reader.iteration]
  dsimp only
  rw [type, payload, offset]
  refine ⟨rfl, rfl, ?_⟩
  rcases after with after | ⟨ended, failed⟩
  · exact .inl (after.reportIfAny _)
  · rw [ended]
    obtain ⟨next, stops⟩ := assembly.accept_kEof (core.readPhysicalRecord fragment).2.1
      ((core.readPhysicalRecord fragment).2.2.physicalRecordOffset
        (core.readPhysicalRecord fragment).2.1)
    rw [stops]
    exact .inr ⟨⟨next, rfl⟩, failed⟩

/-- The two readers, whether or not a read has failed. -/
def Alike (failure : Option Status) (reader : Reader File) (core : Reader) : Prop :=
  Going failure reader core ∨ Failed failure reader core

/-- What a call that returns sets. -/
theorem Alike.returns (alike : Alike failure reader core) {last coreLast : BitVec 64}
    (lasts : last = coreLast) (resyncing : Bool) :
    Alike failure
      { reader with lastRecordOffset := last, resyncing := resyncing }
      { core with lastRecordOffset := coreLast, resyncing := resyncing } := by
  subst lasts
  rcases alike with ⟨⟨seen, rfl, shows⟩, ended, zero⟩ | ⟨⟨file, same⟩, ⟨empty, eof⟩, zero⟩
  · exact .inl ⟨⟨seen, rfl, shows⟩, ended, zero⟩
  · refine .inr ⟨⟨file, ?_⟩, ⟨empty, eof⟩, zero⟩
    rw [same]
    rfl

theorem Alike.lastRecordOffset (alike : Alike failure reader core) :
    reader.lastRecordOffset = core.lastRecordOffset := by
  rcases alike with ⟨⟨_, same, _⟩, _, _⟩ | ⟨⟨_, same⟩, _, _⟩
  · rw [same]
    rfl
  · rw [same]
    rfl

theorem Going.readRecordLoop (going : Going failure reader core) (assembly : Assembly)
    (fragment : Slice) :
    (reader.readRecordLoop assembly fragment).1 = (core.readRecordLoop assembly fragment).1 ∧
      Alike failure (reader.readRecordLoop assembly fragment).2
        (core.readRecordLoop assembly fragment).2 := by
  induction reader, assembly, fragment using Reader.readRecordLoop.induct generalizing core with
  | case1 reader assembly fragment next decided ih =>
      obtain ⟨verdict, payload, after⟩ := going.iteration assembly fragment
      have decidedCore := verdict.symm.trans decided
      rw [Reader.readRecordLoop, decided, Reader.readRecordLoop, decidedCore, ← payload]
      rcases after with after | ⟨⟨_, stops⟩, _⟩
      · exact ih after
      · rw [decidedCore] at stops
        cases stops
  | case2 reader assembly fragment record offset next decided =>
      obtain ⟨verdict, _, after⟩ := going.iteration assembly fragment
      rw [Reader.readRecordLoop, decided, Reader.readRecordLoop, verdict.symm.trans decided]
      have alike : Alike failure (reader.iteration assembly fragment).2.1
          (core.iteration assembly fragment).2.1 := after.imp_right And.right
      exact ⟨rfl, alike.returns rfl next.resyncing⟩
  | case3 reader assembly fragment next decided =>
      obtain ⟨verdict, _, after⟩ := going.iteration assembly fragment
      rw [Reader.readRecordLoop, decided, Reader.readRecordLoop, verdict.symm.trans decided]
      have alike : Alike failure (reader.iteration assembly fragment).2.1
          (core.iteration assembly fragment).2.1 := after.imp_right And.right
      exact ⟨rfl, alike.returns alike.lastRecordOffset next.resyncing⟩

theorem Failed.readRecordLoop (failed : Failed failure reader core) (assembly : Assembly)
    (fragment : Slice) :
    (reader.readRecordLoop assembly fragment).1 = none ∧
      (core.readRecordLoop assembly fragment).1 = none ∧
      Alike failure (reader.readRecordLoop assembly fragment).2
        (core.readRecordLoop assembly fragment).2 := by
  obtain ⟨ownRead, coreRead⟩ := failed.readPhysicalRecord fragment
  obtain ⟨file, same⟩ := failed.same
  have offset : reader.physicalRecordOffset fragment =
      core.physicalRecordOffset fragment := by
    rw [same]
    rfl
  obtain ⟨next, stops⟩ := assembly.accept_kEof fragment (core.physicalRecordOffset fragment)
  have ownStops : reader.iteration assembly fragment = (.stop next, reader, fragment) := by
    rw [Reader.iteration, ownRead]
    dsimp only
    rw [offset, stops]
    rfl
  have coreStops : core.iteration assembly fragment = (.stop next, core, fragment) := by
    rw [Reader.iteration, coreRead]
    dsimp only
    rw [stops]
    rfl
  have alike : Alike failure reader core := .inr failed
  rw [Reader.readRecordLoop, ownStops, Reader.readRecordLoop, coreStops]
  exact ⟨rfl, rfl, alike.returns alike.lastRecordOffset next.resyncing⟩

/-- A call of `ReadRecord` returns the same over both files. -/
theorem Alike.readRecord (alike : Alike failure reader core) :
    reader.readRecord.1 = core.readRecord.1 ∧
      Alike failure reader.readRecord.2 core.readRecord.2 := by
  have started : reader.start = core.start ∧
      reader.config.initialOffset = 0 ∧ core.config.initialOffset = 0 := by
    rcases alike with ⟨⟨_, same, _⟩, _, zero⟩ | ⟨⟨_, same⟩, _, zero⟩
    · rw [same]
      exact ⟨rfl, zero, zero⟩
    · rw [same]
      exact ⟨rfl, zero, zero⟩
  obtain ⟨start, own, core_⟩ := started
  rw [Reader.readRecord, Reader.readRecord, own, core_, start, if_neg, if_neg]
  · rcases alike with going | failed
    · exact going.readRecordLoop _ _
    · obtain ⟨ownNone, coreNone, after⟩ := failed.readRecordLoop core.start []
      exact ⟨ownNone.trans coreNone.symm, after⟩
  · exact BitVec.not_lt_zero
  · exact BitVec.not_lt_zero

theorem Alike.afterCalls (alike : Alike failure reader core) (count : Nat) :
    Alike failure (reader.afterCalls count) (core.afterCalls count) := by
  induction count generalizing reader core with
  | zero => exact alike
  | succ count ih => exact ih alike.readRecord.2

end Reader

end MiniLevelDb.Log
