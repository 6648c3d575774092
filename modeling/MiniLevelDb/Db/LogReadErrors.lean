import MiniLevelDb.Db.LogAssemble
import MiniLevelDb.Db.LogReaderSteps

/-!
# Read errors

A `Read` that fails ends the call in progress and all reading. Its report passes
through `ReportDrop`, which compares the place of the drop with the initial
offset. `end_of_buffer_offset_` does not count the block that could not be read,
so the drop is placed one block before it: `readError_surfaces_iff` says which
read errors the reporter hears of.
-/

namespace MiniLevelDb.Log

namespace Reader

/-- Before a `Read`, `end_of_buffer_offset_` lies between two blocks. -/
def Aligned (reader : Reader) : Prop :=
  reader.eof = false → reader.endOfBufferOffset.toNat % kBlockSize = 0

/-- What a `Read` that fails makes of the reader. -/
theorem refill_of_failed {reader : Reader}
    (failed : (reader.file.read kBlockSize).1.isOk = false) :
    ∃ file, reader.refill = (false,
      { reportDrop { reader with file := file, buffer := [] } kBlockSize
          (reader.file.read kBlockSize).1 with eof := true }) := by
  have nothing := SequentialFile.read_of_failed failed
  have read : Source.read reader.file kBlockSize =
      ((reader.file.read kBlockSize).1, [], (reader.file.read kBlockSize).2.2) := by
    rw [← nothing]
    rfl
  exact ⟨_, refill_eq_of_failed read failed⟩

/-- The same for a `Read` that succeeds. -/
theorem refill_of_passed {reader : Reader}
    (passed : (reader.file.read kBlockSize).1.isOk = true) :
    reader.refill.1 = true ∧ reader.refill.2 = { reader with
      file := (reader.file.read kBlockSize).2.2
      buffer := (reader.file.read kBlockSize).2.1
      endOfBufferOffset := reader.endOfBufferOffset +
        BitVec.ofNat 64 (reader.file.read kBlockSize).2.1.length
      eof := if (reader.file.read kBlockSize).2.1.length < kBlockSize then true
        else reader.eof } := by
  have refilled := @refill_eq_of_passed _ _ reader _ _ _ rfl passed
  exact ⟨congrArg Prod.fst refilled, congrArg Prod.snd refilled⟩

theorem refill_config (reader : Reader) : reader.refill.2.config = reader.config := by
  cases passed : (reader.file.read kBlockSize).1.isOk with
  | true => rw [(refill_of_passed passed).2]
  | false =>
      obtain ⟨file, refilled⟩ := refill_of_failed passed
      obtain ⟨reports, same⟩ := reportDrop_frame { reader with file := file, buffer := [] }
        kBlockSize (reader.file.read kBlockSize).1
      rw [refilled, same]

/-- A block that was read in full takes `end_of_buffer_offset_` to the next
block. -/
theorem aligned_refill {reader : Reader} (aligned : reader.Aligned) (open_ : reader.eof = false) :
    reader.refill.2.Aligned := by
  intro still
  cases passed : (reader.file.read kBlockSize).1.isOk with
  | true =>
      have refilled := (refill_of_passed passed).2
      have bound : (reader.file.read kBlockSize).2.1.length ≤ kBlockSize :=
        reader.file.length_read_le_count kBlockSize
      rw [refilled] at still ⊢
      dsimp only at still ⊢
      have full : (reader.file.read kBlockSize).2.1.length = kBlockSize := by
        by_contra short
        rw [if_pos (by omega)] at still
        cases still
      have before := aligned open_
      rw [full, BitVec.toNat_add, BitVec.toNat_ofNat]
      unfold kBlockSize at *
      omega
  | false =>
      obtain ⟨file, refilled⟩ := refill_of_failed passed
      rw [refilled] at still
      cases still

theorem aligned_blockStartLocation (initialOffset : BitVec 64) :
    (blockStartLocation initialOffset).toNat % kBlockSize = 0 := by
  have boundary := space_blockStartLocation initialOffset
  unfold space kBlockSize at *
  omega

/-- Whether a block that could not be read is reported, in terms of where the block
begins. At the start of the file the subtraction wraps around. -/
theorem reported_iff {endOfBuffer initialOffset : BitVec 64}
    (aligned : endOfBuffer.toNat % kBlockSize = 0) :
    endOfBuffer - BitVec.ofNat 64 0 - BitVec.ofNat 64 kBlockSize ≥ initialOffset ↔
      (endOfBuffer = 0 ∧ initialOffset.toNat + kBlockSize ≤ 2 ^ 64) ∨
        initialOffset.toNat + kBlockSize ≤ endOfBuffer.toNat := by
  rw [ge_iff_le, BitVec.le_def, BitVec.toNat_sub, BitVec.toNat_sub, ← BitVec.toNat_inj]
  have zero : (0 : BitVec 64).toNat = 0 := rfl
  simp only [BitVec.toNat_ofNat, kBlockSize, zero] at *
  omega

end Reader

namespace ReaderRun

/-! ## The state before a `Read` -/

theorem next_config (run : ReaderRun) : run.next.reader.config = run.reader.config := by
  rcases run.next_cases with ⟨_, _, same⟩ | ⟨_, _, _, _, same⟩ | ⟨_, _, _, _, same⟩
  · rw [same]
  · rw [same]
    exact Reader.refill_config _
  · rw [same]

theorem next_aligned {run : ReaderRun} (aligned : run.reader.Aligned) :
    run.next.reader.Aligned := by
  rcases run.next_cases with ⟨_, _, same⟩ | ⟨reads, _, _, _, same⟩ | ⟨_, _, _, _, same⟩
  · rw [same]
    exact fun _ => Reader.aligned_blockStartLocation _
  · rw [same]
    have cleared : run.reader.clearBuffer.Aligned := aligned
    exact Reader.aligned_refill cleared reads.2.2
  · rw [same]
    exact aligned

/-- Along every run the configuration stays and `end_of_buffer_offset_` lies between
two blocks as long as there is more to read. -/
theorem run_aligned (file : SequentialFile) (config : ReaderConfig) (count : Nat) :
    (next^[count] (new file config)).reader.config = config ∧
      (next^[count] (new file config)).reader.Aligned := by
  have kept : Set.MapsTo next {run | run.reader.config = config ∧ run.reader.Aligned}
      {run | run.reader.config = config ∧ run.reader.Aligned} :=
    fun run invariant => ⟨run.next_config.trans invariant.1, next_aligned invariant.2⟩
  exact kept.iterate count ⟨rfl, fun _ => rfl⟩

/-! ## After the end of the file -/

/-- A reader for which the file has ended, and whose last call, if it is between two
calls, returned false. -/
structure Finished (run : ReaderRun) : Prop where
  eof : run.reader.eof = true
  buffer : run.reader.buffer = []
  returned : ∀ returned, run.point = .outside returned → returned = some none

theorem conclude_kEof (assembly : Assembly) (fragment : Slice) (reader : Reader) :
    ∃ resyncing, conclude assembly (kEof, fragment, reader) =
      ⟨{ reader with resyncing := resyncing }, .outside (some none)⟩ := by
  obtain ⟨after, stops⟩ := assembly.accept_kEof fragment (reader.physicalRecordOffset fragment)
  refine ⟨after.resyncing, ?_⟩
  simp only [conclude, stops]
  rfl

/-- Once the file has ended, calls return false and report nothing. -/
theorem Finished.next {run : ReaderRun} (finished : run.Finished) :
    run.next.Finished ∧ run.next.reader.reports = run.reader.reports := by
  obtain ⟨reader, point⟩ := run
  obtain ⟨eof, empty, _⟩ := finished
  dsimp only at eof empty
  cases point with
  | outside returned =>
      obtain ⟨file, reports, same⟩ := reader.skipToInitialBlock_frame
      unfold ReaderRun.next
      dsimp only
      split
      · rename_i before
        have silent := Reader.reports_skipToInitialBlock empty before
        split
        · refine ⟨⟨?_, ?_, fun _ absurd => by cases absurd⟩, silent⟩
          · rw [same]
            exact eof
          · rw [same]
            exact empty
        · refine ⟨⟨?_, ?_, fun _ result => by cases result; rfl⟩, silent⟩
          · rw [same]
            exact eof
          · rw [same]
            exact empty
      · exact ⟨⟨eof, empty, fun _ absurd => by cases absurd⟩, rfl⟩
  | looping assembly fragment =>
      have short : reader.buffer.length < kHeaderSize := by
        rw [empty]
        decide
      have closed : ¬ reader.eof = false := by
        rw [eof]
        decide
      obtain ⟨resyncing, ended⟩ := conclude_kEof assembly fragment reader.clearBuffer
      have stepped : ReaderRun.next ⟨reader, .looping assembly fragment⟩ =
          ⟨{ reader.clearBuffer with resyncing := resyncing }, .outside (some none)⟩ := by
        simp only [ReaderRun.next, if_pos short, if_neg closed, ended]
      rw [stepped]
      exact ⟨⟨eof, rfl, fun _ result => by cases result; rfl⟩, rfl⟩

/-- The same for any number of further steps. -/
theorem Finished.iterate {run : ReaderRun} (finished : run.Finished) (later : Nat) :
    (ReaderRun.next^[later] run).Finished ∧
      (ReaderRun.next^[later] run).reader.reports = run.reader.reports := by
  induction later with
  | zero => exact ⟨finished, rfl⟩
  | succ later ih =>
      rw [Function.iterate_succ_apply']
      exact ⟨ih.1.next.1, ih.1.next.2.trans ih.2⟩

/-! ## A `Read` that fails -/

/-- A `Read` that fails ends the call in progress and, whatever is reported of it,
all reading. -/
theorem Reads.next_failed {run : ReaderRun} (reads : run.Reads)
    (failed : run.readStatus.isOk = false) :
    run.next.Finished ∧ run.next.point = .outside (some none) ∧
      run.next.reader.reports = run.reader.reports ++
        if run.reader.config.reporter ∧
            run.reader.endOfBufferOffset - BitVec.ofNat 64 0 - BitVec.ofNat 64 kBlockSize ≥
              run.reader.config.initialOffset then
          [(kBlockSize, run.readStatus)]
        else [] := by
  obtain ⟨assembly, fragment, _, stepped⟩ := reads.next_eq
  obtain ⟨file, refilled⟩ := @Reader.refill_of_failed run.reader.clearBuffer failed
  simp only [refilled, Bool.false_eq_true, ↓reduceIte] at stepped
  obtain ⟨resyncing, ended⟩ := conclude_kEof assembly fragment
    { Reader.reportDrop { run.reader.clearBuffer with file := file, buffer := [] } kBlockSize
        (run.reader.clearBuffer.file.read kBlockSize).1 with eof := true }
  rw [stepped, ended]
  exact ⟨⟨rfl, Reader.reportDrop_buffer _ _ _, fun _ result => by cases result; rfl⟩, rfl,
    Reader.reports_reportDrop _ _ _⟩

/-- A `Read` that fails is reported exactly once, the call in progress returns
false, and all later calls return false without calling `Read`. -/
structure Surfaces (run : ReaderRun) : Prop where
  reported : ∃ bytes, ∀ later, (next^[later] run.next).reader.reports =
    run.reader.reports ++ [(bytes, run.readStatus)]
  returned : run.next.point = .outside (some none)
  ended : ∀ later, ¬ (next^[later] run.next).Reads ∧
    ∀ returned, (next^[later] run.next).point = .outside returned → returned = some none

/-- Of what `Surfaces` says, the report alone can fail. -/
theorem Reads.surfaces_iff {run : ReaderRun} (reads : run.Reads)
    (failed : run.readStatus.isOk = false) (listens : run.reader.config.reporter = true) :
    run.Surfaces ↔
      run.reader.endOfBufferOffset - BitVec.ofNat 64 0 - BitVec.ofNat 64 kBlockSize ≥
        run.reader.config.initialOffset := by
  obtain ⟨finished, returned, reports⟩ := reads.next_failed failed
  constructor
  · rintro ⟨⟨bytes, reported⟩, _, _⟩
    by_contra silent
    have first := reported 0
    rw [Function.iterate_zero_apply, reports, if_neg (fun both => silent both.2)] at first
    exact List.cons_ne_nil _ _ (List.append_cancel_left first).symm
  · intro passes
    rw [if_pos ⟨listens, passes⟩] at reports
    refine ⟨⟨kBlockSize, fun later => ?_⟩, returned, fun later => ⟨?_, ?_⟩⟩
    · exact (finished.iterate later).2.trans reports
    · exact not_reads_of_eof (finished.iterate later).1.eof
    · exact (finished.iterate later).1.returned

/-- In every run of a reader with a reporter, a `Read` that fails surfaces exactly when
`end_of_buffer_offset_` is 0 before it, so that the subtraction wraps around, or a block
or more above the initial offset. -/
theorem readError_surfaces_iff (file : SequentialFile) (config : ReaderConfig) (count : Nat)
    (listens : config.reporter = true) (reads : (next^[count] (new file config)).Reads)
    (failed : (next^[count] (new file config)).readStatus.isOk = false) :
    (next^[count] (new file config)).Surfaces ↔
      ((next^[count] (new file config)).reader.endOfBufferOffset = 0 ∧
          config.initialOffset.toNat + kBlockSize ≤ 2 ^ 64) ∨
        config.initialOffset.toNat + kBlockSize ≤
          (next^[count] (new file config)).reader.endOfBufferOffset.toNat := by
  obtain ⟨same, aligned⟩ := run_aligned file config count
  have passes := reads.surfaces_iff failed (by rw [same]; exact listens)
  rw [same] at passes
  rw [passes]
  exact Reader.reported_iff (aligned reads.2.2)

/-- A read error that is silent: the block the initial offset points to cannot be
read. -/
theorem readError_silent :
    let file : SequentialFile := ⟨List.replicate 65536 0, [.ioError "read error"], .ok⟩
    let config : ReaderConfig := ⟨true, true, 32768⟩
    config.initialOffset.toNat ≤ file.rest.length ∧ (next^[1] (new file config)).Reads ∧
      (next^[1] (new file config)).readStatus = .ioError "read error" ∧
      ¬ (next^[1] (new file config)).Surfaces := by
  intro file config
  have long : file.rest.length = 65536 := List.length_replicate
  have location : Reader.blockStartLocation config.initialOffset = 32768 := by decide
  have outcome : file.skip (Reader.blockStartLocation config.initialOffset).toNat =
      (.ok, { file with rest := file.rest.drop 32768 }) := by
    have inside : ¬ (32768 : BitVec 64).toNat > file.rest.length := by
      rw [long]
      decide
    rw [location, SequentialFile.skip, if_neg inside]
    rfl
  have skipped : (Reader.new file config).skipToInitialBlock =
      (true, { Reader.new file config with
        endOfBufferOffset := 32768
        file := { file with rest := file.rest.drop 32768 } }) := by
    rw [@Reader.skipToInitialBlock_of_skip (Reader.new file config) _ _ (by decide) outcome]
    simp only [Reader.new, location, Status.isOk_ok, ↓reduceIte]
  have stepped : next^[1] (new file config) = ⟨{ Reader.new file config with
      endOfBufferOffset := 32768
      file := { file with rest := file.rest.drop 32768 } },
      .looping (Reader.new file config).start []⟩ := by
    have before : (Reader.new file config).lastRecordOffset <
        (Reader.new file config).config.initialOffset := by decide
    simp only [Function.iterate_one, next, new, if_pos before, skipped, ↓reduceIte]
  have reads : (next^[1] (new file config)).Reads := by
    rw [stepped]
    exact ⟨⟨_, _, rfl⟩, by decide, rfl⟩
  have status : (next^[1] (new file config)).readStatus = .ioError "read error" := by
    rw [stepped]
    rfl
  refine ⟨?_, reads, status, ?_⟩
  · rw [long]
    decide
  · rw [reads.surfaces_iff (by rw [status]; rfl) (by rw [stepped]; rfl), stepped]
    -- the drop would begin at 0, before the initial offset
    change ¬ (32768 : BitVec 64) - BitVec.ofNat 64 0 - BitVec.ofNat 64 kBlockSize ≥ 32768
    decide

/-- The first `Read` of a file fails, from the start. -/
theorem readError_surfaces_iff_first :
    (next^[1] (new ⟨[], [.ioError "read error"], .ok⟩ ⟨true, true, 0⟩)).Surfaces :=
  (readError_surfaces_iff ⟨[], [.ioError "read error"], .ok⟩ ⟨true, true, 0⟩ 1 rfl
    ⟨⟨_, _, rfl⟩, by decide, rfl⟩ rfl).mpr (.inl ⟨rfl, by decide⟩)

end ReaderRun

end MiniLevelDb.Log
