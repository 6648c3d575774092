import MiniLevelDb.Db.LogProgress
import MiniLevelDb.Db.LogReadErrors
import MiniLevelDb.Util.Crc32cCalls

/-!
# The reader and the calls behind its checksums

`Reader` compares checksums with what the portable code computes. Here a step that checks
a physical record waits for its call of `crc32c::Value`, with the static variable of
`crc32c::Extend` as the calls so far have left it. No such call completes, so a call of
`ReadRecord` returns as long as it checks nothing: `progresses_iff` says over which files
this is so.
-/

namespace MiniLevelDb

namespace SequentialFile

theorem getD_tail (outcomes : List Status) (index : Nat) :
    outcomes.tail.getD index .ok = outcomes.getD (index + 1) .ok := by
  cases outcomes <;> rfl

variable (file : SequentialFile) (count : Nat)

/-- The outcome of the next `Read`. -/
theorem read_isOk_iff :
    (file.read count).1.isOk = true ↔ (file.outcomes.getD 0 .ok).isOk = true := by
  cases queued : file.outcomes with
  | nil =>
      simp only [read, queued]
      exact Iff.rfl
  | cons outcome later =>
      simp only [read, queued]
      split <;> exact Iff.rfl

variable {file} in
/-- What a `Read` that succeeds returns, and the file after it. -/
theorem read_of_passed (passed : (file.outcomes.getD 0 .ok).isOk = true) :
    file.read count = (file.outcomes.getD 0 .ok, file.rest.take count,
      { file with rest := file.rest.drop count, outcomes := file.outcomes.tail }) := by
  obtain ⟨rest, outcomes, pastEnd⟩ := file
  cases outcomes with
  | nil => rfl
  | cons outcome later => exact if_pos passed

end SequentialFile

namespace Log

open Crc32c (Reentry Accelerate)

namespace Reader

/-- The reader, with checksums on, computes the checksum of the first physical record of
these bytes: it is complete, and not one of those that preallocated space is made of. -/
def Sums (buffer : Slice) : Prop :=
  kHeaderSize + headerLength buffer ≤ buffer.length ∧
    ¬ (headerType buffer = RecordType.zero.code ∧ headerLength buffer = 0)

instance (buffer : Slice) : Decidable (Sums buffer) :=
  inferInstanceAs (Decidable (_ ∧ _))

theorem not_sums_nil : ¬ Sums [] := by
  rintro ⟨long, _⟩
  exact absurd (Nat.le_trans (Nat.le_add_right _ _) long) (by decide)

/-- Of a block with nothing to check the rest is dropped. -/
theorem parseRecord_of_not_sums {reader : Reader} (idle : ¬ Sums reader.buffer)
    (result : Slice) :
    ∃ type reports, reader.parseRecord result =
        (type, result, { reader with buffer := [], reports := reports }) ∧
      (reader.eof = false → type = kBadRecord) := by
  unfold parseRecord
  dsimp only
  split
  · split
    · obtain ⟨reports, same⟩ := reader.clearBuffer.reportDrop_frame reader.buffer.length
        (.corruption "bad record length")
      refine ⟨kBadRecord, reports, ?_, fun _ => rfl⟩
      rw [reportCorruption, same]
      rfl
    · rename_i ended
      refine ⟨kEof, reader.reports, rfl, fun open_ => ?_⟩
      rw [open_] at ended
      exact absurd rfl ended
  · rename_i complete
    split
    · exact ⟨kBadRecord, reader.reports, rfl, fun _ => rfl⟩
    · rename_i some_
      exact absurd ⟨Nat.le_of_not_lt complete, some_⟩ idle

end Reader

/-- No block of the file, up to the first `Read` that fails, begins with a physical record
to check. -/
def SumsNothing (file : SequentialFile) : Prop :=
  ∀ index, (∀ earlier ≤ index, (file.outcomes.getD earlier .ok).isOk = true) →
    ¬ Reader.Sums ((file.rest.drop (index * kBlockSize)).take kBlockSize)

namespace SumsNothing

variable {file : SequentialFile}

theorem of_empty (empty : file.rest = []) : SumsNothing file := by
  intro index _
  rw [empty, List.drop_nil, List.take_nil]
  exact Reader.not_sums_nil

/-- A block read, and the file after it. -/
theorem read (nothing : SumsNothing file) (passed : (file.read kBlockSize).1.isOk = true) :
    ¬ Reader.Sums (file.read kBlockSize).2.1 ∧ SumsNothing (file.read kBlockSize).2.2 := by
  have fine := (file.read_isOk_iff kBlockSize).mp passed
  rw [SequentialFile.read_of_passed kBlockSize fine]
  constructor
  · have first := nothing 0 fun earlier small => by rwa [Nat.le_zero.mp small]
    rwa [Nat.zero_mul, List.drop_zero] at first
  · intro index before
    rw [List.drop_drop, Nat.add_comm, ← Nat.succ_mul]
    refine nothing (index + 1) fun earlier small => ?_
    cases earlier with
    | zero => exact fine
    | succ earlier =>
        have later := before earlier (Nat.le_of_succ_le_succ small)
        rwa [SequentialFile.getD_tail] at later

end SumsNothing

namespace ReaderRun

/-! ## Steps and calls -/

/-- The bytes that the next step passes to `crc32c::Value`, if it does. -/
def summed (run : ReaderRun) : Option Slice :=
  match run.point with
  | .outside _ => none
  | .looping _ _ =>
      if run.reader.config.checksum ∧ Reader.Sums run.reader.buffer then
        some ((run.reader.buffer.drop 6).take (1 + Reader.headerLength run.reader.buffer))
      else none

/-- A step that is done, with `accelerate` before and after it. -/
inductive Advances (reentry : Reentry) : ReaderRun × Accelerate → ReaderRun × Accelerate → Prop
  | plain {run : ReaderRun} {accelerate : Accelerate} (none_ : run.summed = none) :
      Advances reentry (run, accelerate) (run.next, accelerate)
  | summing {run : ReaderRun} {accelerate after : Accelerate} {bytes : Slice}
      {address fuel : Nat} (sums : run.summed = some bytes)
      (completes : Crc32c.valueCall reentry accelerate address bytes fuel =
        some (Crc32c.value bytes, after)) :
      Advances reentry (run, accelerate) (run.next, after)

/-- A step inside a call. -/
def Within (reentry : Reentry) (before after : ReaderRun × Accelerate) : Prop :=
  (∃ assembly fragment, before.1.point = .looping assembly fragment) ∧
    Advances reentry before after

/-- The call that begins at `before` has returned `record` at `after`. -/
def Completes (reentry : Reentry) (before : ReaderRun × Accelerate) (record : Option Slice)
    (after : ReaderRun × Accelerate) : Prop :=
  Relation.ReflTransGen (Within reentry) (before.1.next, before.2) after ∧
    after.1.point = .outside (some record)

/-- What the calls of `ReadRecord` from the start of the program returned, and where they
left the reader. -/
inductive Calls (reentry : Reentry) (file : SequentialFile) (config : ReaderConfig) :
    List (Option Slice) → ReaderRun × Accelerate → Prop
  | none_ : Calls reentry file config [] (new file config, .unset)
  | call {returned : List (Option Slice)} {before after : ReaderRun × Accelerate}
      {record : Option Slice} (calls : Calls reentry file config returned before)
      (completes : Completes reentry before record after) :
      Calls reentry file config (returned ++ [record]) after

variable {reentry : Reentry} {before after : ReaderRun × Accelerate}

theorem Advances.next_eq (advances : Advances reentry before after) : after.1 = before.1.next := by
  cases advances with
  | plain => rfl
  | summing => rfl

theorem Within.inside (within_ : Within reentry before after) : Inside before.1 after.1 :=
  ⟨within_.1, within_.2.next_eq⟩

/-- A call returns what `readRecord` says. -/
theorem Completes.readRecord {record : Option Slice} {returned : Option (Option Slice)}
    (between : before.1.point = .outside returned)
    (completes : Completes reentry before record after) :
    record = before.1.reader.readRecord.1 ∧ after.1.reader = before.1.reader.readRecord.2 := by
  obtain ⟨steps, outside⟩ := completes
  have inside : Relation.ReflTransGen Inside before.1.next after.1 :=
    steps.lift Prod.fst fun _ _ => Within.inside
  have call := returns_readRecord before.1.reader returned
  rw [← between] at call
  have unique : Relator.RightUnique Inside := fun _ _ _ left right => left.2.trans right.2.symm
  -- neither call goes on once it has returned
  have same : after.1 =
      ⟨before.1.reader.readRecord.2, .outside (some before.1.reader.readRecord.1)⟩ := by
    rcases Relation.ReflTransGen.total_of_right_unique unique inside call with on | on
    · rcases on.cases_head with same | ⟨_, ⟨⟨_, _, looping⟩, _⟩, _⟩
      · exact same
      · rw [outside] at looping
        cases looping
    · rcases on.cases_head with same | ⟨_, ⟨⟨_, _, looping⟩, _⟩, _⟩
      · exact same.symm
      · cases looping
  rw [same] at outside ⊢
  cases outside
  exact ⟨rfl, rfl⟩

theorem Calls.outside {file : SequentialFile} {config : ReaderConfig}
    {returned : List (Option Slice)} (calls : Calls reentry file config returned after) :
    ∃ last, after.1.point = .outside last := by
  cases calls with
  | none_ => exact ⟨none, rfl⟩
  | call _ completes => exact ⟨_, completes.2⟩

/-- The records of the calls use up a header and a payload each. -/
theorem Calls.uses {file : SequentialFile} {config : ReaderConfig}
    {returned : List (Option Slice)} (calls : Calls reentry file config returned after)
    {records : List Slice} (all : returned = records.map some) :
    kHeaderSize * records.length + (records.map List.length).sum + after.1.reader.remaining ≤
      file.rest.length := by
  induction calls generalizing records with
  | none_ =>
      rw [List.map_eq_nil_iff.mp all.symm]
      simp [new, Reader.new, Reader.remaining]
  | @call returned before after record calls completes ih =>
      obtain ⟨earlier, last, rfl, first, rest⟩ := List.map_eq_append_iff.mp all.symm
      obtain ⟨found, rfl, rfl⟩ := List.map_eq_singleton_iff.mp rest
      obtain ⟨_, between⟩ := calls.outside
      obtain ⟨result, reader⟩ := completes.readRecord between
      have used := Reader.uses_readRecord result.symm
      have before := ih first.symm
      rw [reader]
      simp only [List.length_append, List.length_singleton, List.map_append, List.map_cons,
        List.map_nil, List.sum_append, List.sum_singleton, Nat.mul_add, Nat.mul_one]
      omega

/-! ## A reader that checks nothing -/

/-- Nothing that the reader will read is to be checked. Between two calls it has come to
the end of the file. -/
structure Idle (run : ReaderRun) : Prop where
  buffer : ¬ Reader.Sums run.reader.buffer
  file : run.reader.eof = false → SumsNothing run.reader.file
  between : ∀ returned, run.point = .outside returned →
    run.reader.eof = true ∨ run.reader.file.rest = []

/-- The reader computes no checksum. -/
def Silent (run : ReaderRun) : Prop :=
  run.reader.config.checksum = false ∨ run.Idle

/-- A physical record that was passed over does not end the loop. -/
theorem conclude_kBadRecord (assembly : Assembly) (fragment : Slice) (reader : Reader) :
    ∃ next reports, conclude assembly (kBadRecord, fragment, reader) =
      ⟨{ reader with reports := reports }, .looping next fragment⟩ := by
  have again : ∃ drop next, assembly.accept kBadRecord fragment
      (reader.physicalRecordOffset fragment) = (drop, .again next) := by
    rw [Assembly.accept_kBadRecord]
    obtain ⟨resyncing, fragmented, _, _⟩ := assembly
    cases resyncing <;> cases fragmented <;> exact ⟨_, _, rfl⟩
  obtain ⟨drop, next, decided⟩ := again
  obtain ⟨reports, same⟩ := reader.reportIfAny_frame drop
  refine ⟨next, reports, ?_⟩
  simp only [conclude, decided, same]

theorem Idle.of_ended {run : ReaderRun} (buffer : ¬ Reader.Sums run.reader.buffer)
    (ended : run.reader.eof = true ∨ run.reader.file.rest = []) : run.Idle := by
  refine ⟨buffer, fun open_ => ?_, fun _ _ => ended⟩
  rcases ended with eof | empty
  · rw [open_] at eof
    cases eof
  · exact .of_empty empty

/-- The end of the file, with nothing in the buffer. -/
theorem Idle.conclude {read : BitVec 32 × Slice × Reader} (empty : read.2.2.buffer = [])
    (ended : read.2.2.eof = true) (assembly : Assembly) : (conclude assembly read).Idle := by
  obtain ⟨reports, last, resyncing, same⟩ := conclude_frame assembly read
  refine .of_ended ?_ (.inl ?_)
  · rw [same]
    dsimp only
    rw [empty]
    exact Reader.not_sums_nil
  · rw [same]
    exact ended

/-- The next block is read. -/
theorem Idle.refill {reader : Reader} (nothing : SumsNothing reader.file)
    (assembly : Assembly) (fragment : Slice) :
    (if reader.refill.1 = true then ⟨reader.refill.2, .looping assembly fragment⟩
      else ReaderRun.conclude assembly (kEof, fragment, reader.refill.2) : ReaderRun).Idle := by
  cases outcome : (reader.file.read kBlockSize).1.isOk with
  | true =>
      obtain ⟨passes, refilled⟩ := Reader.refill_of_passed outcome
      obtain ⟨block, later⟩ := nothing.read outcome
      rw [if_pos passes, refilled]
      exact ⟨block, fun _ => later, fun _ outside => by cases outside⟩
  | false =>
      obtain ⟨file, refused⟩ := Reader.refill_of_failed outcome
      rw [refused, if_neg Bool.false_ne_true]
      exact .conclude (Reader.reportDrop_buffer _ _ _) rfl assembly

theorem Idle.next {run : ReaderRun} (idle : run.Idle) : run.next.Idle := by
  obtain ⟨reader, point⟩ := run
  obtain ⟨buffer, file, between⟩ := idle
  dsimp only at buffer file between
  cases point with
  | outside returned =>
      have ended := between returned rfl
      obtain ⟨after, reports, same⟩ := reader.skipToInitialBlock_frame
      have skipped : reader.skipToInitialBlock.2.eof = true ∨
          reader.skipToInitialBlock.2.file.rest = [] := by
        refine ended.imp (fun eof => ?_) fun empty => ?_
        · rw [same]
          exact eof
        · have shorter := reader.remaining_skipToInitialBlock_le
          rw [Reader.remaining, Reader.remaining, Source.left_sequentialFile,
            Source.left_sequentialFile, empty, same] at shorter
          rw [same, ← List.length_eq_zero_iff]
          exact Nat.le_zero.mp (Nat.le_of_add_le_add_left shorter)
      have kept : ¬ Reader.Sums reader.skipToInitialBlock.2.buffer := by
        rw [same]
        exact buffer
      unfold ReaderRun.next
      dsimp only
      split
      · split
        · exact .of_ended kept skipped
        · exact .of_ended kept skipped
      · exact .of_ended buffer ended
  | looping assembly fragment =>
      unfold ReaderRun.next
      dsimp only
      split
      · split
        · rename_i open_
          exact .refill (file open_) assembly fragment
        · rename_i closed
          exact .conclude rfl ((Bool.not_eq_false _).mp closed) assembly
      · obtain ⟨type, reports, parsed, bad⟩ := Reader.parseRecord_of_not_sums buffer fragment
        rw [parsed]
        by_cases open_ : reader.eof = false
        · obtain ⟨next, later, same⟩ := conclude_kBadRecord assembly fragment
            { reader with buffer := [], reports := reports }
          rw [bad open_, same]
          exact ⟨Reader.not_sums_nil, file, fun _ outside => by cases outside⟩
        · exact .conclude rfl ((Bool.not_eq_false _).mp open_) assembly

theorem Silent.next {run : ReaderRun} (silent : run.Silent) : run.next.Silent := by
  rcases silent with unchecked | idle
  · exact .inl (by rw [run.next_config, unchecked])
  · exact .inr idle.next

theorem Silent.summed {run : ReaderRun} (silent : run.Silent) : run.summed = none := by
  unfold ReaderRun.summed
  split
  · rfl
  · rw [if_neg]
    rintro ⟨checks, sums⟩
    rcases silent with unchecked | idle
    · rw [unchecked] at checks
      cases checks
    · exact idle.buffer sums

/-- The steps of a call that computes no checksum are done. -/
theorem Silent.within {run after : ReaderRun} (silent : run.Silent) (accelerate : Accelerate)
    (steps : Relation.ReflTransGen Inside run after) :
    Relation.ReflTransGen (Within reentry) (run, accelerate) (after, accelerate) ∧
      after.Silent := by
  induction steps with
  | refl => exact ⟨.refl, silent⟩
  | @tail middle last _ step ih =>
      obtain ⟨looping, rfl⟩ := step
      exact ⟨ih.1.tail ⟨looping, .plain ih.2.summed⟩, ih.2.next⟩

theorem Within.silent (silent : before.1.Silent)
    (steps : Relation.ReflTransGen (Within reentry) before after) : after.1.Silent := by
  induction steps with
  | refl => exact silent
  | tail _ step ih =>
      rw [step.2.next_eq]
      exact ih.next

/-- So such a call returns. -/
theorem Silent.completes {returned : Option (Option Slice)}
    (between : before.1.point = .outside returned) (silent : before.1.next.Silent) :
    ∃ record after, Completes reentry before record after := by
  have call := returns_readRecord before.1.reader returned
  rw [← between] at call
  exact ⟨_, _, (silent.within before.2 call).1, rfl⟩

/-! ## The first call -/

/-- The file from the block where the search begins. -/
def fromInitialBlock (file : SequentialFile) (config : ReaderConfig) : SequentialFile :=
  { file with rest := file.rest.drop (Reader.blockStartLocation config.initialOffset).toNat }

/-- The first step gets there, unless the file is too short and the call is over. -/
theorem next_new (file : SequentialFile) (config : ReaderConfig) :
    (new file config).next.reader.config = config ∧
      (new file config).next.reader.buffer = [] ∧ (new file config).next.reader.eof = false ∧
      (new file config).next.reader.file = fromInitialBlock file config ∧
      ((∃ assembly, (new file config).next.point = .looping assembly []) ∨
        (fromInitialBlock file config).rest = []) := by
  let location := Reader.blockStartLocation config.initialOffset
  have stays : location = 0 → file = fromInitialBlock file config := by
    intro zero
    change file = { file with rest := file.rest.drop location.toNat }
    rw [zero]
    rfl
  by_cases before : (new file config).reader.lastRecordOffset <
      (new file config).reader.config.initialOffset
  · have stepped : (new file config).next =
        if (Reader.new file config).skipToInitialBlock.1 then
          ⟨(Reader.new file config).skipToInitialBlock.2,
            .looping (Reader.new file config).start []⟩
        else ⟨(Reader.new file config).skipToInitialBlock.2, .outside (some none)⟩ := if_pos before
    rw [stepped]
    by_cases moves : location > 0
    · by_cases beyond : location.toNat > file.rest.length
      · have nothing : file.rest.drop location.toNat = [] :=
          List.drop_eq_nil_of_le (Nat.le_of_lt beyond)
        have outcome : (Reader.new file config).file.skip location.toNat =
            (file.pastEnd, fromInitialBlock file config) := by
          rw [fromInitialBlock, nothing]
          exact if_pos beyond
        rw [@Reader.skipToInitialBlock_of_skip (Reader.new file config) _ _ moves outcome]
        dsimp only
        cases passes : file.pastEnd.isOk with
        | true => exact ⟨rfl, rfl, rfl, rfl, .inr nothing⟩
        | false =>
            simp only [Bool.false_eq_true, ↓reduceIte]
            obtain ⟨reports, same⟩ := Reader.reportDrop_frame
              { Reader.new file config with
                endOfBufferOffset := location
                file := fromInitialBlock file config } location.toNat file.pastEnd
            exact ⟨congrArg Reader.config same, congrArg Reader.buffer same,
              congrArg Reader.eof same, congrArg Reader.file same, .inr nothing⟩
      · have outcome : (Reader.new file config).file.skip location.toNat =
            (.ok, fromInitialBlock file config) := if_neg beyond
        rw [@Reader.skipToInitialBlock_of_skip (Reader.new file config) _ _ moves outcome]
        exact ⟨rfl, rfl, rfl, rfl, .inl ⟨_, rfl⟩⟩
    · have skipped : (Reader.new file config).skipToInitialBlock =
          (true, { Reader.new file config with endOfBufferOffset := location }) := if_neg moves
      rw [skipped]
      exact ⟨rfl, rfl, rfl, stays (by bv_omega), .inl ⟨_, rfl⟩⟩
  · have stepped : (new file config).next =
        ⟨Reader.new file config, .looping (Reader.new file config).start []⟩ := if_neg before
    have zero : location = 0 := by
      have start : config.initialOffset = 0 := by
        change ¬ (0 : BitVec 64) < config.initialOffset at before
        bv_omega
      change Reader.blockStartLocation config.initialOffset = 0
      rw [start]
      rfl
    rw [stepped]
    exact ⟨rfl, rfl, rfl, stays zero, .inl ⟨_, rfl⟩⟩

/-- A reader that finds nothing to check goes on so. -/
theorem silent_new {file : SequentialFile} {config : ReaderConfig}
    (nothing : config.checksum = false ∨ SumsNothing (fromInitialBlock file config)) :
    (new file config).next.Silent := by
  obtain ⟨same, empty, open_, rest, place⟩ := next_new file config
  refine nothing.imp (fun unchecked => by rw [same, unchecked]) fun nothing => ?_
  refine ⟨?_, fun _ => ?_, fun returned outside => .inr ?_⟩
  · rw [empty]
    exact Reader.not_sums_nil
  · rw [rest]
    exact nothing
  · rw [rest]
    rcases place with ⟨assembly, looping⟩ | ended
    · rw [looping] at outside
      cases outside
    · exact ended

/-- No call of a reader that finds nothing to check is left without a return. -/
theorem Calls.silent {file : SequentialFile} {config : ReaderConfig}
    {returned : List (Option Slice)}
    (nothing : config.checksum = false ∨ SumsNothing (fromInitialBlock file config))
    (calls : Calls reentry file config returned after) : after.1.next.Silent := by
  induction calls with
  | none_ => exact silent_new nothing
  | call _ completes ih => exact (Within.silent ih completes.1).next

/-! ## A physical record to check -/

/-- A step that computes a checksum is not done. -/
theorem Advances.not_summing {run : ReaderRun} {bytes : Slice} (sums : run.summed = some bytes) :
    ¬ Advances reentry (run, .unset) after := by
  rintro (none_ | ⟨_, completes⟩)
  · rw [sums] at none_
    cases none_
  · rw [Crc32c.valueCall, Crc32c.extendCall_never] at completes
    cases completes

/-- A call that gets to such a step does not return. -/
theorem not_completes {run stuck : ReaderRun} {bytes : Slice} (sums : stuck.summed = some bytes)
    (steps : Relation.ReflTransGen Inside run stuck)
    (returns : Relation.ReflTransGen (Within reentry) (run, .unset) after)
    {returned : Option (Option Slice)} (outside : after.1.point = .outside returned) : False := by
  induction steps using Relation.ReflTransGen.head_induction_on with
  | refl =>
      rcases returns.cases_head with rfl | ⟨_, step, _⟩
      · rw [summed, outside] at sums
        cases sums
      · exact step.2.not_summing sums
  | @head run middle step _ ih =>
      obtain ⟨⟨assembly, fragment, looping⟩, rfl⟩ := step
      rcases returns.cases_head with rfl | ⟨_, within_, later⟩
      · rw [outside] at looping
        cases looping
      · obtain ⟨_, advances⟩ := within_
        cases advances with
        | plain => exact ih later
        | summing sums completes =>
            rw [Crc32c.valueCall, Crc32c.extendCall_never] at completes
            cases completes

/-- A block that is read. -/
theorem next_of_passed {run : ReaderRun} {assembly : Assembly} {fragment : Slice}
    (looping : run.point = .looping assembly fragment) (empty : run.reader.buffer = [])
    (open_ : run.reader.eof = false)
    (passed : (run.reader.file.outcomes.getD 0 .ok).isOk = true) :
    run.next = ⟨{ run.reader with
      file := { run.reader.file with
        rest := run.reader.file.rest.drop kBlockSize
        outcomes := run.reader.file.outcomes.tail }
      buffer := run.reader.file.rest.take kBlockSize
      endOfBufferOffset := run.reader.endOfBufferOffset +
        BitVec.ofNat 64 (run.reader.file.rest.take kBlockSize).length
      eof := if (run.reader.file.rest.take kBlockSize).length < kBlockSize then true else false },
      .looping assembly fragment⟩ := by
  have outcome : (run.reader.clearBuffer.file.read kBlockSize).1.isOk = true :=
    (run.reader.file.read_isOk_iff kBlockSize).mpr passed
  obtain ⟨refills, refilled⟩ := Reader.refill_of_passed outcome
  have short : run.reader.buffer.length < kHeaderSize := by
    rw [empty]
    exact Nat.zero_lt_succ _
  simp only [next, looping, if_pos short, if_pos open_, if_pos refills]
  rw [refilled]
  simp only [Reader.clearBuffer, SequentialFile.read_of_passed _ passed, open_]

theorem summed_of_sums {run : ReaderRun} {assembly : Assembly} {fragment : Slice}
    (looping : run.point = .looping assembly fragment) (checks : run.reader.config.checksum = true)
    (sums : Reader.Sums run.reader.buffer) : ∃ bytes, run.summed = some bytes := by
  rw [summed, looping]
  exact ⟨_, if_pos ⟨checks, sums⟩⟩

/-- The reader gets to a block with a physical record to check. -/
theorem gets_to_sums {run : ReaderRun} {assembly : Assembly} {fragment : Slice}
    (looping : run.point = .looping assembly fragment) (empty : run.reader.buffer = [])
    (open_ : run.reader.eof = false) (checks : run.reader.config.checksum = true) {index : Nat}
    (passed : ∀ earlier ≤ index, (run.reader.file.outcomes.getD earlier .ok).isOk = true)
    (sums : Reader.Sums ((run.reader.file.rest.drop (index * kBlockSize)).take kBlockSize)) :
    ∃ stuck bytes, Relation.ReflTransGen Inside run stuck ∧ stuck.summed = some bytes := by
  induction index generalizing run assembly with
  | zero =>
      have first := next_of_passed looping empty open_ (passed 0 (Nat.le_refl 0))
      have step : Inside run run.next := ⟨⟨_, _, looping⟩, rfl⟩
      rw [Nat.zero_mul, List.drop_zero] at sums
      obtain ⟨bytes, here⟩ : ∃ bytes, run.next.summed = some bytes := by
        rw [first]
        exact summed_of_sums rfl checks sums
      exact ⟨run.next, bytes, .single step, here⟩
  | succ index ih =>
      have first := next_of_passed looping empty open_ (passed 0 (Nat.zero_le _))
      have step : Inside run run.next := ⟨⟨_, _, looping⟩, rfl⟩
      by_cases here : Reader.Sums (run.reader.file.rest.take kBlockSize)
      · obtain ⟨bytes, here⟩ : ∃ bytes, run.next.summed = some bytes := by
          rw [first]
          exact summed_of_sums rfl checks here
        exact ⟨run.next, bytes, .single step, here⟩
      · -- a whole block with nothing to check, which is dropped
        have more : ¬ run.reader.file.rest.length ≤ (index + 1) * kBlockSize := by
          intro none_
          rw [List.drop_eq_nil_of_le none_, List.take_nil] at sums
          exact Reader.not_sums_nil sums
        have whole : (run.reader.file.rest.take kBlockSize).length = kBlockSize := by
          rw [List.length_take, Nat.succ_mul] at *
          omega
        rw [if_neg (by rw [whole]; exact Nat.lt_irrefl _)] at first
        have still : run.next.reader.eof = false := by rw [first]
        have point : run.next.point = .looping assembly fragment := by rw [first]
        have file : run.next.reader.file = { run.reader.file with
            rest := run.reader.file.rest.drop kBlockSize
            outcomes := run.reader.file.outcomes.tail } := by rw [first]
        have config : run.next.reader.config = run.reader.config := by rw [first]
        have long : ¬ run.next.reader.buffer.length < kHeaderSize := by
          rw [first]
          dsimp only
          rw [whole]
          decide
        obtain ⟨type, reports, parsed, bad⟩ :=
          @Reader.parseRecord_of_not_sums run.next.reader (by rw [first]; exact here) fragment
        obtain ⟨next, later, dropped⟩ := conclude_kBadRecord assembly fragment
          { run.next.reader with buffer := [], reports := reports }
        have second : run.next.next = ⟨{ run.next.reader with buffer := [], reports := later },
            .looping next fragment⟩ := by
          rw [bad still] at parsed
          rw [ReaderRun.next, point]
          dsimp only
          rw [if_neg long, parsed, dropped]
        obtain ⟨stuck, bytes, steps, ends⟩ : ∃ stuck bytes,
            Relation.ReflTransGen Inside run.next.next stuck ∧ stuck.summed = some bytes := by
          rw [second]
          refine ih rfl rfl still (config ▸ checks) (fun earlier small => ?_) ?_
          · dsimp only
            rw [file, SequentialFile.getD_tail]
            exact passed (earlier + 1) (Nat.succ_le_succ small)
          · dsimp only
            rw [file, List.drop_drop, Nat.add_comm, ← Nat.succ_mul]
            exact sums
        exact ⟨stuck, bytes, .head step (.head ⟨⟨_, _, point⟩, rfl⟩ steps), ends⟩

/-- Over any file and with any outcomes of its calls, the records of the calls up to the
first that returns false are bounded by the bytes of the file, and the reader never reads
again after a `Read` that failed or came up short. Every call of `ReadRecord` returns if and
only if the reader finds no physical record to check. -/
theorem progresses_iff (reentry : Reentry) (file : SequentialFile) (config : ReaderConfig) :
    ((∀ returned before, Calls reentry file config returned before →
        ∃ record after, Completes reentry before record after) ∧
      (∀ (records : List Slice) after, Calls reentry file config (records.map some) after →
        records.length ≤ file.rest.length / 7 ∧
          (records.map List.length).sum ≤ file.rest.length) ∧
      ∀ before later : ReaderRun × Accelerate, before.1.Reads →
        (before.1.readStatus.isOk = false ∨ before.1.readResult.length < kBlockSize) →
        Relation.ReflTransGen (Advances reentry) (before.1.next, before.2) later →
        ¬ later.1.Reads) ↔
      config.checksum = false ∨ SumsNothing (fromInitialBlock file config) := by
  constructor
  · rintro ⟨returns, _, _⟩
    by_contra both
    rw [not_or, Bool.not_eq_false] at both
    obtain ⟨checks, some_⟩ := both
    simp only [SumsNothing, not_forall, not_not] at some_
    obtain ⟨index, passed, sums⟩ := some_
    obtain ⟨same, empty, open_, rest, place⟩ := next_new file config
    have inside : ∃ assembly, (new file config).next.point = .looping assembly [] := by
      refine place.resolve_right fun ended => ?_
      rw [ended, List.drop_nil, List.take_nil] at sums
      exact Reader.not_sums_nil sums
    obtain ⟨assembly, looping⟩ := inside
    rw [← rest] at passed sums
    obtain ⟨stuck, bytes, gets, ends⟩ :=
      gets_to_sums looping empty open_ (by rw [same, checks]) passed sums
    obtain ⟨record, after, steps, outside⟩ := returns [] _ .none_
    exact not_completes ends gets steps outside
  · intro nothing
    refine ⟨fun returned before calls => ?_, fun records after calls => ?_, ?_⟩
    · obtain ⟨last, between⟩ := calls.outside
      exact (calls.silent nothing).completes between
    · have used := calls.uses rfl
      unfold kHeaderSize at used
      constructor
      · rw [Nat.le_div_iff_mul_le (by decide)]
        omega
      · omega
    · intro before later reads exhausted steps
      obtain ⟨count, same⟩ : ∃ count, later.1 = next^[count] before.1.next := by
        induction steps with
        | refl => exact ⟨0, rfl⟩
        | tail _ step ih =>
            obtain ⟨count, same⟩ := ih
            exact ⟨count + 1, by rw [step.next_eq, same, Function.iterate_succ_apply']⟩
      rw [same]
      exact not_reads_after reads exhausted count

/-- A log of one record, "a", is never read. -/
theorem progress_stops_at_first_record :
    let file : SequentialFile := ⟨[181, 205, 11, 162, 1, 0, 1, 97], [], .ok⟩
    let config : ReaderConfig := ⟨true, true, 0⟩
    ∀ reentry, ¬ ∃ record after, Completes reentry (new file config, .unset) record after := by
  intro file config reentry
  rintro ⟨record, after, steps, outside⟩
  have looping : (new file config).next.point =
      .looping (Reader.new file config).start [] := rfl
  have sums : Reader.Sums ((file.rest.drop (0 * kBlockSize)).take kBlockSize) := by decide
  obtain ⟨stuck, bytes, gets, ends⟩ := gets_to_sums looping rfl rfl rfl (fun _ _ => rfl) sums
  exact not_completes ends gets steps outside

end ReaderRun

end Log

end MiniLevelDb
