import MiniLevelDb.Db.LogDurable
import MiniLevelDb.Db.LogSources
import MiniLevelDb.Util.PosixSequentialFile

/-!
# Reading a log from the disk

The log reader over `PosixSequentialFile`, which returns what one `::read` returns. A read of
less than a block is the end of the file for the reader, wherever it occurs.
-/

namespace MiniLevelDb

namespace Log

open LockFile (Errno)

instance : Source SeekableFile where
  read := SeekableFile.read
  skip := SeekableFile.skip
  left := fun file => file.contents.length - file.offset
  left_read := by
    intro file count
    obtain ⟨_, short⟩ := file.length_read_le count
    change _ + (file.contents.length - (file.offset + (file.read count).2.1.length)) ≤ _
    omega

/-! ## What the file shows -/

/-- Reads of blocks come to an end, at the end of the file if no answer cuts them short. -/
theorem shows_seekable (file : SeekableFile) :
    ∃ seen failure, Shows file ((file.contents.drop file.offset).take seen) failure ∧
      (PosixSequentialFile.Whole kBlockSize file.reads →
        file.contents.length - file.offset ≤ seen ∧ failure = none) := by
  induction left : file.contents.length - file.offset using Nat.strongRecOn generalizing file with
  | ind size ih =>
      have blocks : 0 < kBlockSize := Nat.zero_lt_succ _
      obtain ⟨status, later, failed, answer⟩ | ⟨count, later, positive, answer⟩ :=
        file.read_cases blocks
      · refine ⟨0, some status, .failed answer failed, fun whole => ?_⟩
        obtain ⟨_, _, full⟩ := file.read_whole blocks whole
        have passed : status = .ok := congrArg Prod.fst (answer.symm.trans full)
        rw [passed] at failed
        cases failed
      · have bound := (file.length_read_le kBlockSize).1
        have taken := List.length_take (i := count) (l := file.contents.drop file.offset)
        rw [List.length_drop] at taken
        by_cases less : ((file.contents.drop file.offset).take count).length < kBlockSize
        · refine ⟨count, none, .short answer rfl less, fun whole => ⟨?_, rfl⟩⟩
          obtain ⟨_, _, full⟩ := file.read_whole blocks whole
          have same : (file.contents.drop file.offset).take count =
              (file.contents.drop file.offset).take kBlockSize :=
            congrArg (fun result => result.2.1) (answer.symm.trans full)
          have lengths := congrArg List.length same
          rw [List.length_take, List.length_take, List.length_drop] at lengths
          omega
        · rw [answer] at bound
          have block : ((file.contents.drop file.offset).take count).length = kBlockSize :=
            Nat.le_antisymm bound (Nat.le_of_not_lt less)
          have first : (file.contents.drop file.offset).take count =
              (file.contents.drop file.offset).take kBlockSize := by
            rw [List.take_eq_take_iff, List.length_drop]
            omega
          let after : SeekableFile :=
            { file with
              offset := file.offset + ((file.contents.drop file.offset).take count).length
              reads := later }
          have fewer : after.contents.length - after.offset < size := by
            change file.contents.length - (file.offset + _) < size
            omega
          obtain ⟨seen, failure, shows, ended⟩ := ih _ fewer after rfl
          have rest : after.contents.drop after.offset =
              (file.contents.drop file.offset).drop kBlockSize := by
            change file.contents.drop (file.offset + _) = _
            rw [block, List.drop_drop]
          refine ⟨kBlockSize + seen, failure, ?_, fun whole => ?_⟩
          · rw [List.take_add, ← first, ← rest]
            exact .full answer rfl block shows
          · obtain ⟨answers, still, full⟩ := file.read_whole blocks whole
            have laters : answers = later :=
              congrArg (fun result => result.2.2.reads) (full.symm.trans answer)
            subst laters
            obtain ⟨all, none_⟩ := ended still
            refine ⟨?_, none_⟩
            change file.contents.length - (file.offset + _) ≤ seen at all
            omega

/-! ## The calls of a reader -/

namespace Reader

/-- After the records that it returns, a reader is where the last call left it. -/
theorem afterCalls_readAll (reader : Reader) (more : Nat) :
    reader.afterCalls (reader.readAll.1.length + 1 + more) = reader.readAll.2.afterCalls more := by
  induction reader using readAll.induct with
  | case1 reader record found ih =>
      rw [readAll, found]
      dsimp only
      rw [List.length_cons, Nat.add_right_comm]
      exact ih
  | case2 reader ended =>
      rw [readAll, ended]
      dsimp only
      rw [List.length_nil, Nat.zero_add, Nat.add_comm]
      rfl

/-- What each call returns. -/
theorem readRecord_afterCalls (reader : Reader)
    (ended : ∀ count, (reader.readAll.2.afterCalls count).readRecord.1 = none) (index : Nat) :
    (reader.afterCalls index).readRecord.1 = (reader.readAll.1.map Prod.fst)[index]? := by
  induction reader using readAll.induct generalizing index with
  | case1 reader record found ih =>
      rw [readAll, found] at ended ⊢
      cases index with
      | zero => exact found
      | succ index => exact ih ended index
  | case2 reader none_ =>
      rw [readAll, none_] at ended ⊢
      cases index with
      | zero => exact none_
      | succ index => exact ended index

end Reader

/-- No record of a log that was cut off is taken for the end of the file. -/
theorem Stores.types {contents : Slice} {entries : List Entry} (stores : Stores contents entries)
    (length : Nat) (reporter checksum : Bool) :
    ∀ event ∈ scan ⟨reporter, checksum, 0⟩ 0 (contents.take length), event.type ≠ kEof := by
  obtain ⟨torn, count, chained, _, _, rfl⟩ := stores
  rw [List.take_take, scan_log _ _ chained, Fragment.event_zero]
  intro event member
  obtain ⟨placed, _, rfl⟩ := List.mem_map.mp member
  exact RecordType.code_ne_kEof _

/-- The calls of a reader over what is left of a log: each returns the next record that is
there in full, and none once there are no more. -/
theorem Stores.readRecord_afterCalls {contents : Slice} {entries : List Entry}
    (stores : Stores contents entries) (length : Nat) (reporter checksum : Bool) :
    let core := Reader.new (toRead (contents.take length) .ok) ⟨reporter, checksum, 0⟩
    let records := (entries.filter (·.stop ≤ length)).map Entry.record
    (∀ index, (core.afterCalls index).readRecord.1 = records[index]?) ∧
      ∀ index, records.length < index →
        (core.afterCalls index).AtEnd ∧ (core.afterCalls index).config = core.config ∧
          (core.afterCalls index).reports = [] := by
  intro core records
  obtain ⟨returned, silent⟩ := stores.readAll length reporter checksum .ok
  have types := stores.types length reporter checksum
  obtain ⟨_, _, ended⟩ := Reader.readAll_toRead (contents.take length) reporter checksum .ok
  obtain ⟨_, _, last⟩ :=
    Reader.readAll_new_zero (toRead (contents.take length) .ok) reporter checksum rfl
  obtain ⟨config, atEnd⟩ := last types
  refine ⟨fun index => ?_, fun index beyond => ?_⟩
  · rw [core.readRecord_afterCalls (fun count => (ended types count).1)]
    exact congrArg (·[index]?) returned
  · have counts : records.length = core.readAll.1.length := by
      rw [← List.length_map Prod.fst]
      exact congrArg List.length returned.symm
    obtain ⟨more, rfl⟩ := Nat.exists_eq_add_of_le (Nat.succ_le_of_lt beyond)
    rw [counts, core.afterCalls_readAll]
    obtain ⟨still, same, quiet⟩ := Reader.afterCalls_atEnd atEnd (by rw [config]) more
    exact ⟨still, same.trans config, quiet.trans silent⟩

end Log

end MiniLevelDb
