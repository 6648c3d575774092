import MiniLevelDb.Db.LogDestinations
import MiniLevelDb.Db.LogInitialOffset
import MiniLevelDb.Db.LogOutput
import MiniLevelDb.Db.LogRecovery
import MiniLevelDb.Util.PosixWritableFile

/-!
# A log in a POSIX file

Between two physical records the buffer of the file is empty, and a physical record with
the trailer before it fits into the buffer. Hence only the `Flush` of a physical record
can fail, and it then leaves in the file a part of that record. Next to such a writer runs
one whose file never fails; up to the first failure both have written the same.
-/

namespace MiniLevelDb

namespace PosixWritableFile

/-- Since `written` was written, `pending` was appended, and is still in the buffer. -/
structure Buffered (written pending : Slice) (file : PosixWritableFile) : Prop where
  sized : file.buf.length = kWritableFileBufferSize
  written : file.written = written
  pos : file.pos = pending.length
  pending : file.buf.take file.pos = pending

namespace Buffered

variable {written pending : Slice} {file : PosixWritableFile}

theorem bounded (buffered : Buffered written pending file) :
    pending.length ≤ kWritableFileBufferSize := by
  rw [← buffered.pending, ← buffered.sized]
  exact List.length_take_le' _ _

theorem holds (buffered : Buffered written pending file) : Holds file (written ++ pending) where
  sized := buffered.sized
  bounded := by
    rw [buffered.pos]
    exact buffered.bounded
  contents := by rw [buffered.written, buffered.pending]

theorem append (buffered : Buffered written pending file) {data : Slice}
    (fits : pending.length + data.length ≤ kWritableFileBufferSize) :
    (file.append data).1 = .ok ∧ Buffered written (pending ++ data) (file.append data).2 := by
  rw [← buffered.pos] at fits
  rw [append_of_fits fits]
  refine ⟨rfl, ?_, buffered.written, ?_, ?_⟩
  · exact (length_memcpy (by rw [buffered.sized]; exact fits)).trans buffered.sized
  · rw [List.length_append, buffered.pos]
  · dsimp only
    rw [take_memcpy (by rw [buffered.sized]; omega), buffered.pending]

theorem flush_isOk (buffered : Buffered written pending file)
    (passes : file.flush.1.isOk = true) : Buffered (written ++ pending) [] file.flush.2 := by
  obtain ⟨⟨sized, _, contents⟩, drained⟩ := buffered.holds.flushBuffer passes
  rw [drained, List.take_zero, List.append_nil] at contents
  refine ⟨sized, contents, drained, ?_⟩
  exact (congrArg (file.flush.2.buf.take ·) drained).trans List.take_zero

theorem flush_failed (buffered : Buffered written pending file)
    (fails : file.flush.1.isOk = false) :
    ∃ count, written.length ≤ count ∧ count < (written ++ pending).length ∧
      file.flush.2.written = (written ++ pending).take count := by
  obtain ⟨count, least, short, after⟩ := buffered.holds.flushBuffer_failed fails
  rw [buffered.written] at least
  exact ⟨count, least, short, after⟩

end Buffered

end PosixWritableFile

namespace Log

open PosixWritableFile (Buffered)
open Writer (Aligned)

instance : Destination PosixWritableFile where
  append := PosixWritableFile.append
  flush := PosixWritableFile.flush

namespace Writer

variable {existing : Slice} {writer : Writer PosixWritableFile} {ideal : Writer}

/-- A writer to a file that held `existing` when it was opened, and one to a file whose
calls all succeed, at the same place of the same log. -/
structure Follows (existing : Slice) (writer : Writer PosixWritableFile) (ideal : Writer) :
    Prop where
  offset : writer.blockOffset = ideal.blockOffset
  drained : Buffered writer.dest.written [] writer.dest
  contents : existing ++ writer.dest.written = ideal.dest.contents
  aligned : ideal.Aligned
  sound : ideal.dest.outcomes = []

/-- The file holds `before` and a part of what follows in `after`, but not all of it. -/
def Torn (existing : Slice) (writer : Writer PosixWritableFile) (before after : Slice) : Prop :=
  ∃ count, before.length ≤ count ∧ count < after.length ∧
    existing ++ writer.dest.written = after.take count

/-- Filling up the block: the zeros wait in the buffer. -/
theorem Follows.switchBlock (follows : Follows existing writer ideal) :
    ∃ zeros : Slice, zeros.length < kHeaderSize ∧
      Buffered writer.dest.written zeros writer.switchBlock.dest ∧
      ideal.switchBlock.dest.contents = ideal.dest.contents ++ zeros := by
  unfold Writer.switchBlock
  rw [follows.offset]
  dsimp only
  by_cases short : kBlockSize - ideal.blockOffset < kHeaderSize
  · rw [if_pos short, if_pos short]
    dsimp only
    by_cases some_ : kBlockSize - ideal.blockOffset > 0
    · rw [if_pos some_, if_pos some_]
      generalize kBlockSize - ideal.blockOffset = leftover at short
      refine ⟨List.replicate leftover 0, by rwa [List.length_replicate], ?_, ?_⟩
      · apply (follows.drained.append _).2
        rw [List.length_replicate, List.length_nil, Nat.zero_add]
        exact Nat.le_of_lt (short.trans (by decide))
      · rw [Destination.append_writableFile, WritableFile.append_sound _ follows.sound]
    · rw [if_neg some_, if_neg some_]
      exact ⟨[], by decide, follows.drained, (List.append_nil _).symm⟩
  · rw [if_neg short, if_neg short]
    exact ⟨[], by decide, follows.drained, (List.append_nil _).symm⟩

/-- A physical record: header and payload are buffered, and the flush decides. -/
theorem emitPhysicalRecord_buffered {written zeros data : Slice} (type : RecordType)
    (buffered : Buffered written zeros writer.dest)
    (fits : zeros.length + kHeaderSize + data.length ≤ kWritableFileBufferSize) :
    ((writer.emitPhysicalRecord type data).1.isOk = true →
      Buffered (written ++ (zeros ++ (⟨type, data⟩ : Fragment).bytes)) []
        (writer.emitPhysicalRecord type data).2.dest) ∧
    ((writer.emitPhysicalRecord type data).1.isOk = false →
      ∃ count, written.length ≤ count ∧
        count < (written ++ (zeros ++ (⟨type, data⟩ : Fragment).bytes)).length ∧
        (writer.emitPhysicalRecord type data).2.dest.written =
          (written ++ (zeros ++ (⟨type, data⟩ : Fragment).bytes)).take count) := by
  have header : encodeFixed32 (Crc32c.mask (Crc32c.extend (typeCrc type) data)) ++
      [BitVec.ofNat 8 (data.length &&& 0xff), BitVec.ofNat 8 (data.length >>> 8), type.toByte] =
        (⟨type, data⟩ : Fragment).header := by
    rw [typeCrc, Crc32c.extend_value]
    rfl
  obtain ⟨headerOk, headed⟩ := @Buffered.append written zeros writer.dest buffered
    (⟨type, data⟩ : Fragment).header (by rw [Fragment.length_header]; omega)
  obtain ⟨dataOk, stored⟩ := @Buffered.append _ _ _ headed data
    (by rw [List.length_append, Fragment.length_header]; exact fits)
  have emitted : writer.emitPhysicalRecord type data =
      (((writer.dest.append (⟨type, data⟩ : Fragment).header).2.append data).2.flush.1,
        { dest := ((writer.dest.append (⟨type, data⟩ : Fragment).header).2.append data).2.flush.2
          blockOffset := writer.blockOffset + (kHeaderSize + data.length) }) := by
    simp only [emitPhysicalRecord, header, Destination.append, Destination.flush, headerOk, dataOk,
      Status.isOk_ok, ↓reduceIte]
  rw [List.append_assoc] at stored
  rw [emitted]
  exact ⟨stored.flush_isOk, stored.flush_failed⟩

theorem length_fragment_le (writer : Writer File) (data : Slice) :
    (data.take (writer.fragmentLength data)).length ≤ kBlockSize := by
  refine (List.length_take_le _ _).trans ?_
  unfold fragmentLength
  dsimp only
  split
  · omega
  · omega

/-- One iteration of the loop of `AddRecord`. -/
theorem Follows.emitFragment (follows : Follows existing writer ideal) (data : Slice)
    (begins : Bool) :
    ((writer.emitFragment data begins).1.isOk = true →
      Follows existing (writer.emitFragment data begins).2 (ideal.emitFragment data begins).2) ∧
    ((writer.emitFragment data begins).1.isOk = false →
      Torn existing (writer.emitFragment data begins).2 ideal.dest.contents
        (ideal.emitFragment data begins).2.dest.contents) := by
  have same : ideal = writer.onto ideal.dest := by rw [onto, follows.offset]
  have offset : (writer.emitFragment data begins).2.blockOffset =
      (ideal.emitFragment data begins).2.blockOffset := by
    rw [same]
    exact emitFragment_blockOffset writer ideal.dest data begins
  have length : writer.switchBlock.fragmentLength data =
      ideal.switchBlock.fragmentLength data := by
    rw [same]
    exact fragmentLength_onto writer ideal.dest data
  obtain ⟨zeros, few, buffered, padded⟩ := follows.switchBlock
  obtain ⟨_, sound⟩ := Writer.emitFragment_sound data begins follows.sound
  have switched := Writer.switchBlock_sound follows.sound
  obtain ⟨_, _, alignedAfter, _⟩ :=
    @Writer.emitFragment_aligned ideal data begins follows.aligned sound.refused
  have least : existing.length + writer.dest.written.length = ideal.dest.contents.length := by
    rw [← follows.contents, List.length_append]
  -- what both are to append
  generalize typed : Writer.fragmentType begins
    (data.length == ideal.switchBlock.fragmentLength data) = type
  generalize cut : data.take (ideal.switchBlock.fragmentLength data) = payload
  have emitted : writer.emitFragment data begins =
      writer.switchBlock.emitPhysicalRecord type payload := by
    rw [Writer.emitFragment, length, typed, cut]
  have emittedIdeal : ideal.emitFragment data begins =
      ideal.switchBlock.emitPhysicalRecord type payload := by
    rw [Writer.emitFragment, typed, cut]
  have bounded : payload.length ≤ kBlockSize := by
    rw [← cut, ← length]
    exact length_fragment_le _ _
  obtain ⟨passes, fails⟩ := emitPhysicalRecord_buffered type buffered
    (show zeros.length + kHeaderSize + payload.length ≤ kWritableFileBufferSize by
      unfold kHeaderSize kBlockSize kWritableFileBufferSize at *
      omega)
  have written : (ideal.emitFragment data begins).2.dest.contents =
      existing ++ (writer.dest.written ++ (zeros ++ (⟨type, payload⟩ : Fragment).bytes)) := by
    rw [emittedIdeal, Writer.emitPhysicalRecord_contents
      (Writer.emitPhysicalRecord_sound type payload switched.outcomes).2.refused, padded,
      ← follows.contents, List.append_assoc, List.append_assoc]
  rw [← emitted] at passes fails
  refine ⟨fun ok => ?_, fun failed => ?_⟩
  · have after := passes ok
    refine ⟨offset, ?_, ?_, alignedAfter, sound.outcomes⟩
    · rw [after.written]
      exact after
    · rw [after.written, written]
  · obtain ⟨count, enough, short, after⟩ := fails failed
    refine ⟨existing.length + count, by omega, ?_, ?_⟩
    · rw [written, List.length_append]
      exact Nat.add_lt_add_left short _
    · rw [after, written, List.take_length_add_append]

/-- A writer to a file that never fails only adds to it. -/
theorem emitFragment_prefix {ideal : Writer} (aligned : ideal.Aligned)
    (sound : ideal.dest.outcomes = []) (data : Slice) (begins : Bool) :
    ideal.dest.contents <+: (ideal.emitFragment data begins).2.dest.contents := by
  obtain ⟨_, after⟩ := Writer.emitFragment_sound data begins sound
  obtain ⟨_, contents, _⟩ := Writer.emitFragment_aligned aligned after.refused
  rw [contents]
  exact List.prefix_append _ _

theorem addRecordLoop_prefix {ideal : Writer} (aligned : ideal.Aligned)
    (sound : ideal.dest.outcomes = []) (data : Slice) (begins : Bool) :
    (ideal.emitFragment data begins).2.dest.contents <+:
      (ideal.addRecordLoop data begins).2.dest.contents := by
  obtain ⟨_, after⟩ := Writer.emitFragment_sound data begins sound
  obtain ⟨_, _, alignedAfter, _⟩ := Writer.emitFragment_aligned aligned after.refused
  rw [Writer.addRecordLoop]
  split
  · obtain ⟨_, last⟩ := @Writer.addRecordLoop_sound _ (ideal.unwritten data) false after.outcomes
    obtain ⟨_, contents, _⟩ := Writer.addRecordLoop_cuts alignedAfter last.refused
    rw [contents]
    exact List.prefix_append _ _
  · exact List.prefix_rfl

/-- A file torn within the next part of a log is torn within all that follows. -/
theorem Torn.extend {before next after earlier : Slice} (torn : Torn existing writer before next)
    (goesOn : next <+: after) (starts : earlier <+: before) :
    Torn existing writer earlier after := by
  obtain ⟨count, least, short, contents⟩ := torn
  obtain ⟨later, rfl⟩ := goesOn
  refine ⟨count, starts.length_le.trans least, ?_, ?_⟩
  · rw [List.length_append]
    omega
  · rw [contents, List.take_append_of_le_length (Nat.le_of_lt short)]

/-- The loop of `AddRecord`. -/
theorem Follows.addRecordLoop (data : Slice) (begins : Bool) :
    ∀ {ideal : Writer}, Follows existing writer ideal →
      ((writer.addRecordLoop data begins).1.isOk = true →
        Follows existing (writer.addRecordLoop data begins).2
          (ideal.addRecordLoop data begins).2) ∧
      ((writer.addRecordLoop data begins).1.isOk = false →
        Torn existing (writer.addRecordLoop data begins).2 ideal.dest.contents
          (ideal.addRecordLoop data begins).2.dest.contents) := by
  induction writer, data, begins using Writer.addRecordLoop.induct with
  | case1 writer data begins continues ih =>
      intro ideal follows
      have unwritten : writer.unwritten data = ideal.unwritten data := by
        rw [unwritten_onto writer ideal.dest, onto, follows.offset]
      have next := (follows.emitFragment data begins).1 continues.1
      obtain ⟨passes, fails⟩ := ih next
      have again : ideal.addRecordLoop data begins =
          (ideal.emitFragment data begins).2.addRecordLoop (writer.unwritten data) false := by
        rw [Writer.addRecordLoop, ← unwritten, if_pos]
        rw [(Writer.emitFragment_sound data begins follows.sound).1]
        exact ⟨rfl, continues.2⟩
      rw [Writer.addRecordLoop, if_pos continues, again]
      refine ⟨passes, fun failed => ?_⟩
      apply (fails failed).extend List.prefix_rfl
      exact emitFragment_prefix follows.aligned follows.sound data begins
  | case2 writer data begins stops =>
      intro ideal follows
      have unwritten : writer.unwritten data = ideal.unwritten data := by
        rw [unwritten_onto writer ideal.dest, onto, follows.offset]
      obtain ⟨passes, fails⟩ := follows.emitFragment data begins
      rw [Writer.addRecordLoop, if_neg stops]
      refine ⟨fun ok => ?_, fun failed => ?_⟩
      · have last : ideal.addRecordLoop data begins = ideal.emitFragment data begins := by
          rw [Writer.addRecordLoop, ← unwritten, if_neg]
          exact fun more => stops ⟨ok, more.2⟩
        rw [last]
        exact passes ok
      · apply (fails failed).extend _ List.prefix_rfl
        exact addRecordLoop_prefix follows.aligned follows.sound data begins

theorem addUntilFailure_prefix {File : Type} [Destination File] (records : List Slice) :
    ∀ {writer : Writer File}, (writer.addUntilFailure records).1 <+: records := by
  induction records with
  | nil =>
      intro writer
      exact List.prefix_rfl
  | cons record later ih =>
      intro writer
      unfold Writer.addUntilFailure
      dsimp only
      split
      · exact List.cons_prefix_cons.mpr ⟨rfl, ih⟩
      · exact List.nil_prefix

/-- Calls up to the first that fails: all of them return OK, or the file is torn within the
record after those that do. -/
theorem Follows.addUntilFailure (records : List Slice) :
    ∀ {writer : Writer PosixWritableFile} {ideal : Writer}, Follows existing writer ideal →
      let run := writer.addUntilFailure records
      (run.1 = records ∧ Follows existing run.2 (ideal.addRecords records).2) ∨
      ∃ failed later, records = run.1 ++ failed :: later ∧ (ideal.addRecords run.1).2.Aligned ∧
        Torn existing run.2 (ideal.addRecords run.1).2.dest.contents
          ((ideal.addRecords run.1).2.addRecord failed).2.dest.contents := by
  induction records with
  | nil =>
      intro writer ideal follows
      exact .inl ⟨rfl, follows⟩
  | cons record later ih =>
      intro writer ideal follows
      obtain ⟨passes, fails⟩ := Follows.addRecordLoop record true follows
      unfold Writer.addUntilFailure
      dsimp only
      cases status : (writer.addRecord record).1.isOk with
      | true =>
          rw [if_pos rfl]
          rcases ih (passes status) with ⟨all, next⟩ | ⟨failed, rest, split, torn⟩
          · exact .inl ⟨congrArg _ all, next⟩
          · exact .inr ⟨failed, rest, congrArg _ split, torn⟩
      | false =>
          rw [if_neg (by decide)]
          exact .inr ⟨record, later, rfl, follows.aligned, fails status⟩

end Writer

theorem Chained.prefix_chained {offset : Nat} {first second : List Entry}
    (chained : Chained offset (first ++ second)) : Chained offset first := by
  induction first generalizing offset with
  | nil => trivial
  | cons entry later ih => exact ⟨chained.1, ih chained.2⟩

/-- Another session after those of a log. -/
theorem writeSessions_concat (sessions : List (List Slice)) (records : List Slice) :
    ∀ dest : WritableFile,
      let log := writeSessions dest sessions
      let last := (Writer.newAt log.2 log.2.contents.length).addRecords records
      writeSessions dest (sessions ++ [records]) = (log.1 ++ last.1, last.2.dest) := by
  induction sessions with
  | nil =>
      intro dest
      change (_ ++ [], _) = ([] ++ _, _)
      rw [List.append_nil, List.nil_append]
      rfl
  | cons session later ih =>
      intro dest
      simp only [List.cons_append, writeSessions, ih, List.append_assoc]

/-- What a reader from the start returns and reports, when a chain of entries is cut off. -/
theorem readAll_cut {entries : List Entry} (chained : Chained 0 entries) (length : Nat)
    (reporter checksum : Bool) (pastEnd : Status) :
    let read := (Reader.new (toRead ((encodeFrom 0 (fragmentsOf entries)).take length) pastEnd)
      ⟨reporter, checksum, 0⟩).readAll
    read.1.map Prod.fst = (entries.filter (·.stop ≤ length)).map Entry.record ∧
      read.2.reports = [] := by
  intro read
  obtain ⟨records, reports, _⟩ := Reader.readAll_toRead
    ((encodeFrom 0 (fragmentsOf entries)).take length) reporter checksum pastEnd
  rw [scan_log _ length chained, Fragment.event_zero, assemble_complete _ length chained]
    at records reports
  exact ⟨(congrArg (List.map Prod.fst) records).trans (List.map_map ..), reports⟩

theorem length_encode (fragments : List Fragment) :
    (encodeFrom 0 fragments).length = endOffset 0 fragments := by
  rw [← length_encodeFrom, Nat.zero_add]

/-- The file holds all of the entries, and only a part of the one that may follow. -/
def Stores (contents : Slice) (entries : List Entry) : Prop :=
  ∃ torn count, Chained 0 (entries ++ torn) ∧ endOffset 0 (fragmentsOf entries) ≤ count ∧
    (∀ entry ∈ torn, count < entry.stop) ∧
    contents = (encodeFrom 0 (fragmentsOf (entries ++ torn))).take count

namespace Stores

variable {contents : Slice} {entries : List Entry}

theorem of_whole (chained : Chained 0 entries) :
    Stores (encodeFrom 0 (fragmentsOf entries)) entries := by
  refine ⟨[], (encodeFrom 0 (fragmentsOf entries)).length, ?_, ?_, ?_, ?_⟩
  · rw [List.append_nil]
    exact chained
  · rw [length_encode]
  · intro entry member
    cases member
  · rw [List.append_nil, List.take_length]

theorem stop_le (stores : Stores contents entries) :
    ∀ entry ∈ entries, entry.stop ≤ contents.length := by
  obtain ⟨torn, count, chained, whole, _, rfl⟩ := stores
  intro entry member
  have first := chained.stop_le (List.mem_append_left torn member)
  have last := (chained.prefix_chained).stop_le member
  rw [List.length_take, length_encode]
  exact Nat.le_min.mpr ⟨last.trans whole, first⟩

theorem readAll (stores : Stores contents entries) (length : Nat) (reporter checksum : Bool)
    (pastEnd : Status) :
    let read := (Reader.new (toRead (contents.take length) pastEnd)
      ⟨reporter, checksum, 0⟩).readAll
    read.1.map Prod.fst = (entries.filter (·.stop ≤ length)).map Entry.record ∧
      read.2.reports = [] := by
  obtain ⟨torn, count, chained, whole, cut, rfl⟩ := stores
  have kept : entries.filter (·.stop ≤ min length count) = entries.filter (·.stop ≤ length) := by
    apply List.filter_congr
    intro entry member
    have inside := (chained.prefix_chained).stop_le member
    rw [decide_eq_decide]
    omega
  have lost : torn.filter (·.stop ≤ min length count) = [] := by
    apply List.filter_eq_nil_iff.mpr
    intro entry member
    have beyond := cut entry member
    rw [decide_eq_true_eq]
    omega
  rw [List.take_take, ← kept, ← List.append_nil (List.filter _ entries), ← lost,
    ← List.filter_append]
  exact readAll_cut chained _ reporter checksum pastEnd

end Stores

/-- What the calls up to the first that fails leave in the file. -/
theorem Writer.Follows.stores {existing : Slice} {writer : Writer PosixWritableFile}
    {ideal : Writer} (follows : Follows existing writer ideal) {calls : List Call}
    {first : List Entry} (written : Adds emptyFile ideal.dest calls first)
    (records : List Slice) :
    let run := writer.addUntilFailure records
    ∃ second, Adds ideal.dest (ideal.addRecords run.1).2.dest (ideal.addRecords run.1).1 second ∧
      Stores (existing ++ run.2.dest.written) (first ++ second) := by
  intro run
  obtain ⟨second, added⟩ := Writer.addRecords_adds run.1 follows.aligned follows.sound
  have both := written.append added
  refine ⟨second, added, ?_⟩
  rcases follows.addUntilFailure records with ⟨all, after⟩ | ⟨failed, later, _, whole, torn⟩
  · have same : existing ++ run.2.dest.written = (ideal.addRecords run.1).2.dest.contents := by
      rw [all]
      exact after.contents
    rw [same, both.contents]
    exact .of_whole both.chained
  · obtain ⟨count, least, short, cut⟩ := torn
    obtain ⟨_, last, more⟩ := Writer.addRecord_adds failed whole both.sound
    have chain := both.append more
    have stop : last.stop =
        ((ideal.addRecords run.1).2.addRecord failed).2.dest.contents.length := by
      rw [more.length, ← more.chained.1, endOffset_single]
    refine ⟨[last], count, chain.chained, ?_, ?_, ?_⟩
    · exact both.length ▸ least
    · intro entry member
      rw [List.mem_singleton.mp member, stop]
      exact short
    · exact cut.trans (congrArg _ chain.contents)

section

variable (sessions : List (List Slice)) (filename : String) (fd : Int) (kernel : Kernel)
  {buf : Slice}

/-- A log that is opened again. -/
theorem reopened_follows (sized : buf.length = kWritableFileBufferSize) :
    let log := (writeSessions emptyFile sessions).2
    Writer.Follows log.contents
      (Writer.newAt (PosixWritableFile.new filename fd buf kernel) log.contents.length)
      (Writer.newAt log log.contents.length) := by
  intro log
  obtain ⟨_, written⟩ := writeSessions_adds sessions emptyFile rfl
  exact
    { offset := rfl
      drained := ⟨sized, rfl, rfl, List.take_zero⟩
      contents := List.append_nil _
      aligned := newAt_aligned _
      sound := written.sound }

/-- What is in its file after the calls up to the first that fails. -/
theorem reopened_stores (sized : buf.length = kWritableFileBufferSize) (records : List Slice) :
    let log := (writeSessions emptyFile sessions).2.contents
    let run := (Writer.newAt (PosixWritableFile.new filename fd buf kernel)
      log.length).addUntilFailure records
    ∃ entries, (writeSessions emptyFile (sessions ++ [run.1])).1 = entries.map Entry.call ∧
      Stores (log ++ run.2.dest.written) entries := by
  intro log run
  obtain ⟨first, written⟩ := writeSessions_adds sessions emptyFile rfl
  have follows := reopened_follows sessions filename fd kernel sized
  obtain ⟨second, added, stores⟩ := follows.stores written records
  refine ⟨first ++ second, ?_, stores⟩
  rw [← (written.append added).calls, writeSessions_concat]

end

/-- Durability. A log written in whatever sessions is opened again, and records are added to
it until a call fails, whatever the kernel answers. Wherever the file is cut off after that,
a reader returns exactly those of the earlier records and of the records for which the call
returned OK that are in the file in full, in order, and reports nothing; the record whose call
failed is not among them. -/
theorem acknowledged_survive (sessions : List (List Slice)) (filename : String) (fd : Int)
    (kernel : Kernel) {buf : Slice} (sized : buf.length = kWritableFileBufferSize)
    (records : List Slice) (length : Nat) (reporter checksum : Bool) (pastEnd : Status) :
    let log := (writeSessions emptyFile sessions).2.contents
    let run := (Writer.newAt (PosixWritableFile.new filename fd buf kernel)
      log.length).addUntilFailure records
    let contents := log ++ run.2.dest.written
    let calls := (writeSessions emptyFile (sessions ++ [run.1])).1
    let read := (Reader.new (toRead (contents.take length) pastEnd)
      ⟨reporter, checksum, 0⟩).readAll
    run.1 <+: records ∧ calls.map Call.record = sessions.flatten ++ run.1 ∧
      (run.1 = records →
        contents = (writeSessions emptyFile (sessions ++ [records])).2.contents) ∧
      (∀ call ∈ calls, call.after ≤ contents.length) ∧
      read.1.map Prod.fst = (calls.filter (·.after ≤ length)).map Call.record ∧
      read.2.reports = [] := by
  intro log run contents calls read
  have follows := reopened_follows sessions filename fd kernel sized
  obtain ⟨entries, calls_, stores⟩ := reopened_stores sessions filename fd kernel sized records
  obtain ⟨returned, silent⟩ := stores.readAll length reporter checksum pastEnd
  refine ⟨Writer.addUntilFailure_prefix records, ?_, fun all => ?_, ?_, ?_, silent⟩
  · rw [writeSessions_records, List.flatten_append, List.flatten_singleton]
  · rcases follows.addUntilFailure records with ⟨_, after⟩ | ⟨failed, later, split, _⟩
    · rw [writeSessions_concat]
      exact after.contents
    · have length := congrArg List.length split
      rw [List.length_append, List.length_cons] at length
      have same : run.1.length = records.length := congrArg List.length all
      have : run.1.length + (later.length + 1) = records.length := length.symm
      omega
  · intro call member
    rw [show calls = entries.map Entry.call from calls_] at member
    obtain ⟨entry, inside, rfl⟩ := List.mem_map.mp member
    exact stores.stop_le entry inside
  · rw [show calls = entries.map Entry.call from calls_, List.filter_map, List.map_map]
    exact returned

/-- Two records are added to a log of one: the first is written in two parts after an
interruption, and there is no space for the second. -/
theorem acknowledged_survive_full_disk :
    let kernel : Kernel :=
      ⟨[.error ⟨4, "Interrupted system call"⟩, .ok 3, .ok 100,
        .error ⟨28, "No space left on device"⟩], [], [], []⟩
    let buf : Slice := List.replicate kWritableFileBufferSize 0
    let log := (writeSessions emptyFile [[[1, 2]]]).2.contents
    let run := (Writer.newAt (PosixWritableFile.new "db/000003.log" 3 buf kernel)
      log.length).addUntilFailure [[3], [4]]
    let contents := log ++ run.2.dest.written
    let calls := (writeSessions emptyFile ([[[1, 2]]] ++ [run.1])).1
    let read := (Reader.new (toRead (contents.take 20) .ok) ⟨true, true, 0⟩).readAll
    run.1 <+: [[3], [4]] ∧ calls.map Call.record = [[[1, 2]]].flatten ++ run.1 ∧
      (run.1 = [[3], [4]] →
        contents = (writeSessions emptyFile ([[[1, 2]]] ++ [[[3], [4]]])).2.contents) ∧
      (∀ call ∈ calls, call.after ≤ contents.length) ∧
      read.1.map Prod.fst = (calls.filter (·.after ≤ 20)).map Call.record ∧
      read.2.reports = [] :=
  acknowledged_survive [[[1, 2]]] _ _ _ List.length_replicate _ _ _ _ _

end Log

end MiniLevelDb
