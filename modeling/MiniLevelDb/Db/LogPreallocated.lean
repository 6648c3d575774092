import MiniLevelDb.Db.LogOutput
import MiniLevelDb.Db.LogRecovery

/-!
# A log with zeros behind it

A file system may have preallocated the file of a log with zeros. The reader takes a
header of zeros for a record of the reserved type and gives up on the rest of the block
without a report, so the zeros show nothing.
-/

namespace MiniLevelDb.Log

/-- An event that is passed over in silence. -/
def Event.Silent (event : Event) : Prop :=
  ∃ stop, event = .bad stop none

section Zeros

variable (config : ReaderConfig)

theorem headerLength_zeros (count : Nat) :
    Reader.headerLength (List.replicate count (0 : Byte)) = 0 := by
  have zero : ∀ index, (List.replicate count (0 : Byte)).getD index 0 = 0 := by
    intro index
    rw [List.getD_eq_getElem?_getD, List.getElem?_replicate]
    split <;> rfl
  rw [Reader.headerLength, zero, zero]
  rfl

theorem headerType_zeros (count : Nat) :
    Reader.headerType (List.replicate count (0 : Byte)) = RecordType.zero.code := by
  rw [Reader.headerType, List.getD_eq_getElem?_getD, List.getElem?_replicate]
  split <;> rfl

theorem parseAt_zeros {offset count : Nat} {event : Event}
    (parsed : parseAt config offset (List.replicate count 0) = some event) : event.Silent := by
  unfold parseAt at parsed
  simp only [List.take_replicate, headerLength_zeros, headerType_zeros] at parsed
  split at parsed
  · cases parsed
  · rename_i enough
    rw [if_neg (by simpa using enough), if_pos ⟨trivial, trivial⟩] at parsed
    exact ⟨_, (Option.some.inj parsed).symm⟩

/-- In whatever part of a block zeros begin and end, they show nothing. -/
theorem scan_zeros (offset count : Nat) :
    ∀ event ∈ scan config offset (List.replicate count 0), event.Silent := by
  induction count using Nat.strong_induction_on generalizing offset with
  | _ count ih =>
      cases parsed : parseAt config (nextStart offset)
          ((List.replicate count (0 : Byte)).drop (padding offset)) with
      | none =>
          rw [scan_of_none parsed]
          exact fun _ => nofun
      | some event =>
          rw [scan_of_some parsed, List.forall_mem_cons]
          have bounds := parseAt_stop parsed
          rw [List.drop_replicate] at parsed bounds ⊢
          refine ⟨parseAt_zeros config parsed, ih _ ?_ _⟩
          rw [List.take_replicate, List.length_replicate] at bounds
          unfold nextStart kHeaderSize at bounds
          omega

theorem assemble_silent {events : List Event} (silent : ∀ event ∈ events, event.Silent) :
    assemble config (.fresh false) events = ([], []) := by
  induction events with
  | nil => rfl
  | cons event later ih =>
      rw [List.forall_mem_cons] at silent
      obtain ⟨⟨stop, rfl⟩, rest⟩ := silent
      have after := ih rest
      have decided : Event.decision (.bad stop none) (.fresh false) =
          (none, .again (.fresh false)) := rfl
      simp only [assemble]
      rw [decided]
      dsimp only
      rw [after]
      rfl

end Zeros

/-- Whatever records were added to an empty file and however many zeros follow them, a
reader returns exactly the records, then false for ever, and reports nothing. -/
theorem readAll_preallocated (records : List Slice) (zeros : Nat) (reporter checksum : Bool)
    (pastEnd : Status) :
    let log := ((Writer.new emptyFile).addRecords records).2.dest.contents
    let read := (Reader.new (toRead (log ++ List.replicate zeros 0) pastEnd)
      ⟨reporter, checksum, 0⟩).readAll
    read.1.map Prod.fst = records ∧ read.2.reports = [] ∧
      ∀ count, (read.2.afterCalls count).readRecord.1 = none ∧
        (read.2.afterCalls count).readRecord.2.reports = [] := by
  intro log read
  obtain ⟨entries, adds, named⟩ := addRecords_entries records
  have contents : log = encodeFrom 0 (fragmentsOf entries) := adds.contents
  have chained : Chained 0 entries := adds.chained
  have events : scan ⟨reporter, checksum, 0⟩ 0 (log ++ List.replicate zeros 0) =
      (entries.flatMap Entry.placed).map Fragment.found ++
        scan ⟨reporter, checksum, 0⟩ (endOffset 0 (fragmentsOf entries))
          (List.replicate zeros 0) := by
    rw [contents, scan_encodeFrom_append _ _ chained.typed chained.fits, chained.layout,
      Fragment.event_zero]
  have silent := scan_zeros ⟨reporter, checksum, 0⟩ (endOffset 0 (fragmentsOf entries)) zeros
  obtain ⟨found, reports, ended⟩ :=
    Reader.readAll_toRead (log ++ List.replicate zeros 0) reporter checksum pastEnd
  rw [events, assemble_chained _ _ chained, assemble_silent _ silent] at found reports ended
  refine ⟨?_, reports, ended ?_⟩
  · rw [found, List.append_nil, List.map_map]
    exact named
  · intro event member
    rcases List.mem_append.mp member with written | zero
    · obtain ⟨placed, _, rfl⟩ := List.mem_map.mp written
      exact RecordType.code_ne_kEof _
    · obtain ⟨stop, rfl⟩ := silent event zero
      exact (by decide : kBadRecord ≠ kEof)

end MiniLevelDb.Log
