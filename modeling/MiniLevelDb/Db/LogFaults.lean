import MiniLevelDb.Db.LogInitialOffset

/-!
# Write failures

A writer goes on after a failed `AddRecord`, from its own `block_offset_`. As long
as no bytes are refused, whatever else fails, `block_offset_` stays in agreement
with the file and every acknowledged record can be read back. Once an append
refuses bytes, `block_offset_` counts them all the same, and acknowledged records
may be lost.
-/

namespace MiniLevelDb.Log

open Writer

/-- The physical records that a run of calls has written from `offset` on: all of
the record for an acknowledged call. -/
inductive Segments : Nat → List Call → List Fragment → Prop where
  | none (offset : Nat) : Segments offset [] []
  | call {offset : Nat} {call : Call} {calls : List Call} {fragments rest : List Fragment}
      (fits : Fits offset fragments) (typed : ∀ fragment ∈ fragments, fragment.Typed)
      (acknowledged : call.status.isOk = true → Cuts offset true call.record fragments)
      (later : Segments (endOffset offset fragments) calls rest) :
      Segments offset (call :: calls) (fragments ++ rest)

namespace Segments

variable {offset : Nat} {calls : List Call} {fragments : List Fragment}

theorem typed (segments : Segments offset calls fragments) :
    ∀ fragment ∈ fragments, fragment.Typed := by
  induction segments with
  | none offset =>
      intro fragment member
      cases member
  | call fits typed acknowledged later ih => exact List.forall_mem_append.mpr ⟨typed, ih⟩

theorem fits (segments : Segments offset calls fragments) : Fits offset fragments := by
  induction segments with
  | none offset => trivial
  | call fits typed acknowledged later ih => exact (fits_append _ _ _).mpr ⟨fits, ih⟩

end Segments

theorem Writer.refused_le_addRecord (writer : Writer) (record : Slice) :
    writer.dest.refused ≤ (writer.addRecord record).2.dest.refused :=
  (refused_le_switchBlock writer).trans
    ((refused_le_emitFragment writer record true).trans
      (refused_le_addRecordLoop writer record true))

theorem Writer.refused_le_addRecords (records : List Slice) (writer : Writer) :
    writer.dest.refused ≤ (writer.addRecords records).2.dest.refused := by
  induction records generalizing writer with
  | nil => exact Nat.le_refl _
  | cons record later ih => exact (refused_le_addRecord writer record).trans (ih _)

theorem Writer.addRecords_append (writer : Writer) (first second : List Slice) :
    (writer.addRecords (first ++ second)).2 =
      ((writer.addRecords first).2.addRecords second).2 := by
  induction first generalizing writer with
  | nil => rfl
  | cons record later ih => exact ih _

/-- A run of calls over a file that refuses no bytes. -/
theorem Writer.addRecords_segments (records : List Slice) :
    ∀ {writer : Writer}, writer.Aligned →
      (writer.addRecords records).2.dest.refused = writer.dest.refused →
      (writer.addRecords records).2.Aligned ∧ ∃ fragments,
        Segments writer.dest.contents.length (writer.addRecords records).1 fragments ∧
        (writer.addRecords records).2.dest.contents =
          writer.dest.contents ++ encodeFrom writer.dest.contents.length fragments := by
  induction records with
  | nil =>
      intro writer aligned _
      exact ⟨aligned, [], .none _, (List.append_nil _).symm⟩
  | cons record later ih =>
      intro writer aligned spared
      have first := refused_le_addRecord writer record
      have rest := refused_le_addRecords later (writer.addRecord record).2
      change ((writer.addRecord record).2.addRecords later).2.dest.refused = _ at spared
      obtain ⟨fragments, contents, alignedNext, fits, typed, cuts⟩ :=
        @addRecordLoop_cuts writer record true aligned (by
          change (writer.addRecord record).2.dest.refused = _
          omega)
      obtain ⟨alignedLast, others, segments, written⟩ :=
        @ih (writer.addRecord record).2 alignedNext (by omega)
      have length : (writer.addRecord record).2.dest.contents.length =
          endOffset writer.dest.contents.length fragments := by
        rw [addRecord, contents, List.length_append, length_encodeFrom]
      rw [length] at segments written
      refine ⟨alignedLast, fragments ++ others, .call fits typed cuts segments, ?_⟩
      change ((writer.addRecord record).2.addRecords later).2.dest.contents = _
      rw [written, addRecord, contents, List.append_assoc, ← encodeFrom_append]

/-- No physical record of a writer ends the loop of `ReadRecord` early. -/
theorem Assembly.decision_typed {assembly : Assembly} {fragment : Fragment}
    (typed : fragment.Typed) (synchronised : assembly.resyncing = false) (start : Nat) :
    (∃ drop next, (Fragment.found (start, fragment)).decision assembly = (drop, .again next) ∧
        next.resyncing = false) ∨
      ∃ drop record offset next, (Fragment.found (start, fragment)).decision assembly =
        (drop, .found record offset next) ∧ next.resyncing = false := by
  obtain ⟨resyncing, fragmented, prospective, scratch⟩ := assembly
  obtain ⟨type, payload⟩ := fragment
  cases synchronised
  cases type with
  | zero => exact absurd rfl typed
  | full => exact .inr ⟨_, _, _, _, rfl, rfl⟩
  | first => exact .inl ⟨_, _, rfl, rfl⟩
  | middle => cases fragmented <;> exact .inl ⟨_, _, rfl, rfl⟩
  | last =>
      cases fragmented with
      | false => exact .inl ⟨_, _, rfl, rfl⟩
      | true => exact .inr ⟨_, _, _, _, rfl, rfl⟩

variable (config : ReaderConfig)

/-- Whatever physical records of a writer come first, the later ones are read. -/
theorem assemble_typed {placed : List (Nat × Fragment)} (later : List Event)
    (typed : ∀ single ∈ placed, single.2.Typed) :
    ∀ {assembly : Assembly}, assembly.resyncing = false →
      ∃ extra next, next.resyncing = false ∧
        (assemble config assembly (placed.map Fragment.found ++ later)).1 =
          extra ++ (assemble config next later).1 := by
  induction placed with
  | nil =>
      intro assembly synchronised
      exact ⟨[], assembly, synchronised, rfl⟩
  | cons single rest ih =>
      intro assembly synchronised
      rw [List.forall_mem_cons] at typed
      rcases Assembly.decision_typed typed.1 synchronised single.1 with
        ⟨drop, next, decided, nextSynchronised⟩ |
        ⟨drop, record, offset, next, decided, nextSynchronised⟩
      · obtain ⟨extra, last, lastSynchronised, assembled⟩ := ih typed.2 nextSynchronised
        refine ⟨extra, last, lastSynchronised, ?_⟩
        simp only [List.map_cons, List.cons_append, assemble, decided, assembled]
      · obtain ⟨extra, last, lastSynchronised, assembled⟩ :=
          @ih typed.2 (.fresh next.resyncing) nextSynchronised
        refine ⟨(record, offset) :: extra, last, lastSynchronised, ?_⟩
        simp only [List.map_cons, List.cons_append, assemble, decided, assembled]

/-- The acknowledged records are found, in order. -/
theorem Segments.acknowledged_sublist {offset : Nat} {calls : List Call}
    {fragments : List Fragment} (segments : Segments offset calls fragments) :
    ∀ {assembly : Assembly}, assembly.resyncing = false →
      ((calls.filter (·.status.isOk)).map Call.record).Sublist
        ((assemble config assembly ((layout offset fragments).map Fragment.found)).1.map
          Prod.fst) := by
  induction segments with
  | none offset =>
      intro assembly _
      exact List.Sublist.refl _
  | @call offset call calls fragments rest fits typed acknowledged later ih =>
      intro assembly synchronised
      rw [layout_append, List.map_append]
      by_cases passed : call.status.isOk = true
      · obtain ⟨reports, _, assembled⟩ := assemble_cuts config (acknowledged passed)
          ((layout (endOffset offset fragments) rest).map Fragment.found) assembly
          assembly.ready_true
        rw [assembled, List.filter_cons, if_pos passed, List.map_cons, List.map_cons]
        exact (@ih (.fresh false) rfl).cons_cons _
      · have placedTyped : ∀ single ∈ layout offset fragments, single.2.Typed :=
          fun single member => typed _ (mem_of_mem_layout member)
        obtain ⟨extra, next, nextSynchronised, assembled⟩ := assemble_typed config
          ((layout (endOffset offset fragments) rest).map Fragment.found) placedTyped synchronised
        rw [assembled, List.filter_cons, if_neg passed, List.map_append]
        exact (ih nextSynchronised).trans (List.sublist_append_right _ _)

/-! ## Acknowledged records -/

/-- A writer over an empty file, whose `Append` and `Flush` calls have the given
outcomes. -/
def Writer.over (outcomes : List Status) : Writer :=
  .new ⟨[], outcomes, 0⟩

/-- What is promised of a run of calls: `block_offset_` is the offset in the current
block of the file, and a checksumming reader returns every acknowledged record, in
order. -/
structure Recoverable (run : List Call × Writer) (pastEnd : Status) : Prop where
  congruent : run.2.blockOffset % kBlockSize = run.2.dest.contents.length % kBlockSize
  acknowledged : ((run.1.filter (·.status.isOk)).map Call.record).Sublist
    ((Reader.new (toRead run.2.dest.contents pastEnd) ⟨true, true, 0⟩).readAll.1.map Prod.fst)

theorem recoverable_of_spared (records : List Slice) (outcomes : List Status) (pastEnd : Status)
    (spared : ((Writer.over outcomes).addRecords records).2.dest.refused = 0) :
    Recoverable ((Writer.over outcomes).addRecords records) pastEnd := by
  have fresh : (Writer.over outcomes).Aligned := ⟨Nat.zero_le _, rfl⟩
  obtain ⟨aligned, fragments, segments, contents⟩ :=
    @addRecords_segments records (Writer.over outcomes) fresh spared
  change Segments 0 _ _ at segments
  change _ = encodeFrom 0 fragments at contents
  refine ⟨aligned.congruent, ?_⟩
  have wanted : Fragment.event ⟨true, true, 0⟩ = Fragment.found := by
    funext placed
    exact Fragment.event_eq_found (by simp)
  have records := (Reader.readAll_new_zero
    (toRead ((Writer.over outcomes).addRecords records).2.dest.contents pastEnd) true true rfl).1
  rw [toRead, contents, scan_encodeFrom _ segments.typed segments.fits, wanted] at records
  rw [toRead, contents, records]
  exact segments.acknowledged_sublist _ rfl

/-- An acknowledged record can be recovered after write failures, as long as no
append refuses bytes: in every run in which only flushes and appends of nothing
fail, after any number of the calls. -/
theorem acknowledged_recoverable (records : List Slice) (outcomes : List Status)
    (pastEnd : Status) (count : Nat)
    (spared : ((Writer.over outcomes).addRecords records).2.dest.refused = 0) :
    Recoverable ((Writer.over outcomes).addRecords (records.take count)) pastEnd := by
  apply recoverable_of_spared
  have whole := (Writer.over outcomes).addRecords_append (records.take count) (records.drop count)
  rw [List.take_append_drop] at whole
  have least := refused_le_addRecords (records.drop count)
    ((Writer.over outcomes).addRecords (records.take count)).2
  rw [← whole, spared] at least
  exact Nat.le_zero.mp least

/-- A record of one iteration. -/
theorem Writer.addRecord_of_emitFragment {writer : Writer} {record : Slice} {status : Status}
    {after : Writer} (emitted : writer.emitFragment record true = (status, after))
    (stops : ¬ (status.isOk = true ∧ 0 < (writer.unwritten record).length)) :
    writer.addRecord record = (status, after) := by
  rw [addRecord, addRecordLoop, emitted, if_neg stops]

/-- The first record is written but not flushed; the second one is acknowledged. -/
theorem acknowledged_recoverable_unflushed :
    ((Writer.over [.ok, .ok, .ioError "flush"]).addRecords
        [[0x61#8], [0x62#8]]).2.dest.refused = 0 ∧
      Recoverable
        ((Writer.over [.ok, .ok, .ioError "flush"]).addRecords [[0x61#8], [0x62#8]]) .ok := by
  have first : (Writer.over [.ok, .ok, .ioError "flush"]).addRecord [0x61#8] =
      (.ioError "flush", ⟨⟨(⟨.full, [0x61#8]⟩ : Fragment).bytes, [], 0⟩, 8⟩) :=
    addRecord_of_emitFragment rfl (by decide)
  have second : (⟨⟨(⟨.full, [0x61#8]⟩ : Fragment).bytes, [], 0⟩, 8⟩ : Writer).addRecord [0x62#8] =
      (.ok, ⟨⟨(⟨.full, [0x61#8]⟩ : Fragment).bytes ++ (⟨.full, [0x62#8]⟩ : Fragment).bytes, [], 0⟩,
        16⟩) :=
    addRecord_of_emitFragment rfl (by decide)
  have spared : ((Writer.over [.ok, .ok, .ioError "flush"]).addRecords
      [[0x61#8], [0x62#8]]).2.dest.refused = 0 := by
    simp only [addRecords, first, second]
  exact ⟨spared, acknowledged_recoverable [[0x61#8], [0x62#8]] _ .ok 2 spared⟩

/-- The header of a first record that almost fills the block is refused. The trailer
that the writer then adds to the empty file displaces the second record, and the
reader does not find it. -/
theorem acknowledged_lost_after_refused_header :
    ¬ ∀ (records : List Slice) (outcomes : List Status),
      Recoverable ((Writer.over outcomes).addRecords records) .ok := by
  intro recoverable
  -- only the length of the first record matters
  obtain ⟨data, length⟩ : ∃ data : Slice, data.length = 32758 :=
    ⟨List.replicate 32758 0, List.length_replicate ..⟩
  have promise := recoverable [data, [0x62#8]] [.ioError "no space"]
  have first : (Writer.over [.ioError "no space"]).addRecord data =
      (.ioError "no space", ⟨⟨[], [], 7⟩, 32765⟩) := by
    have whole :
        (Writer.over [.ioError "no space"]).switchBlock.fragmentLength data = data.length := by
      rw [fragmentLength, if_pos]
      rw [length]
      decide
    have refused : ∀ type,
        (Writer.over [.ioError "no space"]).switchBlock.emitPhysicalRecord type data =
        (.ioError "no space", ⟨⟨[], [], 7⟩, 0 + (kHeaderSize + data.length)⟩) := fun _ => rfl
    refine addRecord_of_emitFragment ?_ (fun absurd => Bool.noConfusion absurd.1)
    rw [emitFragment]
    simp only [whole, List.take_length, refused]
    rw [length]
    rfl
  have second : (⟨⟨[], [], 7⟩, 32765⟩ : Writer).addRecord [0x62#8] =
      (.ok, ⟨⟨[0, 0, 0] ++ (⟨.full, [0x62#8]⟩ : Fragment).bytes, [], 7⟩, 8⟩) :=
    addRecord_of_emitFragment rfl (by decide)
  have run : (Writer.over [.ioError "no space"]).addRecords [data, [0x62#8]] =
      ([⟨data, 0, 0, .ioError "no space"⟩, ⟨[0x62#8], 0, 11, .ok⟩],
        ⟨⟨[0, 0, 0] ++ (⟨.full, [0x62#8]⟩ : Fragment).bytes, [], 7⟩, 8⟩) := by
    simp only [addRecords, first, second]
    rfl
  have nothing : scan ⟨true, true, 0⟩ 0 ([0, 0, 0] ++ (⟨.full, [0x62#8]⟩ : Fragment).bytes) = [] :=
    scan_of_none rfl
  have read := (Reader.readAll_new_zero
    (toRead ([0, 0, 0] ++ (⟨.full, [0x62#8]⟩ : Fragment).bytes) .ok) true true rfl).1
  have found := promise.acknowledged
  rw [run] at found
  simp only [toRead] at read found
  rw [read, nothing] at found
  have missing : [[0x62#8]].Sublist ([] : List Slice) := found
  exact absurd missing (by decide)

end MiniLevelDb.Log
