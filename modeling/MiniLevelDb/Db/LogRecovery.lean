import MiniLevelDb.Db.LogAssemble
import MiniLevelDb.Db.LogRecords

/-!
# Recovering the records of a log

The physical records of a cut are put together to the record again
(`assemble_cuts`), those of an incomplete one to nothing (`assemble_torn`). Hence
a log that is cut off anywhere, as by a crash, is read back up to the last record
that is complete.
-/

namespace MiniLevelDb.Log

open Writer

/-- The event of a physical record that is returned. -/
def Fragment.found (placed : Nat × Fragment) : Event :=
  .record placed.2.type.code placed.2.payload placed.1

theorem Fragment.event_eq_found {config : ReaderConfig} {placed : Nat × Fragment}
    (wanted : ¬ BitVec.ofNat 64 placed.1 < config.initialOffset) :
    Fragment.event config placed = Fragment.found placed :=
  if_neg wanted

theorem Fragment.event_zero (reporter checksum : Bool) :
    Fragment.event ⟨reporter, checksum, 0⟩ = Fragment.found := by
  funext placed
  exact Fragment.event_eq_found (by simp)

namespace Assembly

variable (config : ReaderConfig) {assembly : Assembly}

/-- A state in which a physical record is accepted: unless it begins a record,
one is under way. -/
def Ready (assembly : Assembly) (begins : Bool) : Prop :=
  begins = false → assembly.resyncing = false ∧ assembly.inFragmentedRecord = true

theorem ready_true (assembly : Assembly) : assembly.Ready true :=
  fun absurd => by cases absurd

/-- The bytes and the offset of the record after a physical record with `data`
at `start`. -/
def extended (assembly : Assembly) (begins : Bool) (data : Slice) (start : Nat) :
    Slice × BitVec 64 :=
  if begins then (data, BitVec.ofNat 64 start)
  else (assembly.scratch ++ data, assembly.prospectiveRecordOffset)

/-- Physical records after the first only add their bytes. -/
theorem extended_append (assembly : Assembly) (begins : Bool) (data later : Slice)
    (start next : Nat) :
    Assembly.extended ⟨false, true, (assembly.extended begins data start).2,
      (assembly.extended begins data start).1⟩ false later next =
        assembly.extended begins (data ++ later) start := by
  cases begins with
  | true => rfl
  | false => exact congrArg (·, _) (List.append_assoc _ _ _)

/-- A physical record that does not end its record is kept. -/
theorem decision_goesOn {begins : Bool} (ready : assembly.Ready begins) (data : Slice)
    (start : Nat) :
    ∃ drop, (begins = false ∨ assembly.inFragmentedRecord = false → drop = none) ∧
      (Fragment.found (start, ⟨fragmentType begins false, data⟩)).decision assembly =
        (drop, .again ⟨false, true, (assembly.extended begins data start).2,
          (assembly.extended begins data start).1⟩) := by
  obtain ⟨resyncing, fragmented, prospective, scratch⟩ := assembly
  cases begins with
  | true =>
      cases resyncing
      all_goals
        refine ⟨_, ?_, rfl⟩
        rintro (absurd | idle)
        · cases absurd
        · subst idle
          rfl
  | false =>
      obtain ⟨synchronised, underWay⟩ := ready rfl
      cases synchronised
      cases underWay
      exact ⟨none, fun _ => rfl, rfl⟩

/-- A physical record that ends its record completes it. -/
theorem decision_ends {begins : Bool} (ready : assembly.Ready begins) (data : Slice)
    (start : Nat) :
    ∃ drop next, (begins = false ∨ assembly.inFragmentedRecord = false → drop = none) ∧
      next.resyncing = false ∧
      (Fragment.found (start, ⟨fragmentType begins true, data⟩)).decision assembly =
        (drop, .found (assembly.extended begins data start).1
          (assembly.extended begins data start).2 next) := by
  obtain ⟨resyncing, fragmented, prospective, scratch⟩ := assembly
  cases begins with
  | true =>
      cases resyncing
      all_goals
        refine ⟨_, _, ?_, rfl, rfl⟩
        rintro (absurd | idle)
        · cases absurd
        · subst idle
          rfl
  | false =>
      obtain ⟨synchronised, underWay⟩ := ready rfl
      cases synchronised
      cases underWay
      exact ⟨none, _, fun _ => rfl, rfl, rfl⟩

end Assembly

variable (config : ReaderConfig)

/-- The physical records of a cut, met one after the other, make the record. A
report is due only to what was under way before. -/
theorem assemble_cuts {offset : Nat} {begins : Bool} {data : Slice} {fragments : List Fragment}
    (cut : Cuts offset begins data fragments) (later : List Event) :
    ∀ assembly : Assembly, assembly.Ready begins →
      ∃ reports, (begins = false ∨ assembly.inFragmentedRecord = false → reports = []) ∧
        assemble config assembly ((layout offset fragments).map Fragment.found ++ later) =
          (assembly.extended begins data (nextStart offset) ::
              (assemble config (.fresh false) later).1,
            reports ++ (assemble config (.fresh false) later).2) := by
  induction cut with
  | @ends offset begins data fits =>
      intro assembly ready
      obtain ⟨drop, next, silent, synchronised, decided⟩ :=
        assembly.decision_ends ready data (nextStart offset)
      refine ⟨config.report (nextStart offset + (kHeaderSize + data.length)) drop, ?_, ?_⟩
      · intro idle
        rw [silent idle]
        rfl
      · simp only [layout, List.map_cons, List.map_nil, List.cons_append, List.nil_append, assemble,
          decided, synchronised]
        rfl
  | @goesOn offset begins data rest fragments fills cut ih =>
      intro assembly ready
      obtain ⟨drop, silent, decided⟩ := assembly.decision_goesOn ready data (nextStart offset)
      obtain ⟨reports, none_, assembled⟩ := ih ⟨false, true,
        (assembly.extended begins data (nextStart offset)).2,
        (assembly.extended begins data (nextStart offset)).1⟩ (fun _ => ⟨rfl, rfl⟩)
      refine ⟨config.report (nextStart offset + (kHeaderSize + data.length)) drop, ?_, ?_⟩
      · intro idle
        rw [silent idle]
        rfl
      · rw [none_ (.inl rfl), List.nil_append, Assembly.extended_append] at assembled
        simp only [layout, List.map_cons, List.cons_append, assemble, decided, Fragment.size,
          assembled]
        rfl

/-- The physical records of a cut that is not complete make no record, and no
report either. -/
theorem assemble_torn {offset : Nat} {begins : Bool} {data : Slice} {fragments : List Fragment}
    (cut : Cuts offset begins data fragments) {length : Nat}
    (torn : length < endOffset offset fragments) :
    ∀ assembly : Assembly, assembly.Ready begins →
      begins = false ∨ assembly.inFragmentedRecord = false →
      assemble config assembly ((complete length (layout offset fragments)).map Fragment.found) =
        ([], []) := by
  induction cut with
  | @ends offset begins data fits =>
      intro assembly _ _
      have none_ : complete length (layout offset [⟨fragmentType begins true, data⟩]) = [] := by
        apply List.filter_eq_nil_iff.mpr
        intro placed member
        rw [List.mem_singleton.mp member, decide_eq_true_eq]
        exact Nat.not_le_of_lt torn
      rw [none_]
      rfl
  | @goesOn offset begins data rest fragments fills cut ih =>
      intro assembly ready idle
      by_cases whole : nextStart offset + (kHeaderSize + data.length) ≤ length
      · obtain ⟨drop, silent, decided⟩ := assembly.decision_goesOn ready data (nextStart offset)
        have assembled := ih torn ⟨false, true,
          (assembly.extended begins data (nextStart offset)).2,
          (assembly.extended begins data (nextStart offset)).1⟩ (fun _ => ⟨rfl, rfl⟩) (.inl rfl)
        have first : complete length
            (layout offset (⟨fragmentType begins false, data⟩ :: fragments)) =
              (nextStart offset, ⟨fragmentType begins false, data⟩) ::
                complete length
                  (layout (nextStart offset + (kHeaderSize + data.length)) fragments) :=
          List.filter_cons_of_pos (decide_eq_true whole)
        rw [first, List.map_cons, assemble]
        simp only [decided, silent idle, assembled]
        rfl
      · have none_ : complete length
            (layout offset (⟨fragmentType begins false, data⟩ :: fragments)) = [] :=
          (List.filter_cons_of_neg (by rw [decide_eq_true_eq]; exact whole)).trans
            (complete_eq_nil (Nat.le_of_not_le whole))
        rw [none_]
        rfl

/-- Over a chain of entries, exactly the records of the complete entries are
found, with the offsets of their first physical records. -/
theorem assemble_complete (length : Nat) {entries : List Entry} :
    ∀ {offset : Nat}, Chained offset entries →
      assemble config (.fresh false)
          ((complete length (entries.flatMap Entry.placed)).map Fragment.found) =
        ((entries.filter (·.stop ≤ length)).map
          fun entry => (entry.record, BitVec.ofNat 64 entry.start), []) := by
  induction entries with
  | nil =>
      intro offset _
      rfl
  | cons entry later ih =>
      intro offset chained
      obtain ⟨_, rest⟩ := chained
      have split : complete length ((entry :: later).flatMap Entry.placed) =
          complete length entry.placed ++ complete length (later.flatMap Entry.placed) := by
        rw [List.flatMap_cons, complete, List.filter_append]
        rfl
      rw [split]
      by_cases whole : entry.stop ≤ length
      · obtain ⟨reports, silent, assembled⟩ := assemble_cuts config entry.cut
          ((complete length (later.flatMap Entry.placed)).map Fragment.found)
          (.fresh false) (Assembly.ready_true _)
        rw [silent (.inr rfl), ih rest] at assembled
        rw [Entry.placed, complete_eq_self whole, List.map_append, assembled,
          List.filter_cons, if_pos (decide_eq_true whole), List.map_cons]
        rfl
      · have none_ : complete length (later.flatMap Entry.placed) = [] := by
          rw [← rest.layout]
          exact complete_eq_nil (Nat.le_of_not_le whole)
        have later_ : later.filter (·.stop ≤ length) = [] := by
          apply List.filter_eq_nil_iff.mpr
          intro other member
          have := rest.le_offset member
          have := other.start_lt_stop
          rw [decide_eq_true_eq]
          unfold Entry.start nextStart at this
          omega
        rw [none_, List.append_nil, Entry.placed,
          assemble_torn config entry.cut (Nat.lt_of_not_le whole) _ (Assembly.ready_true _)
            (.inr rfl), List.filter_cons, if_neg (by simpa using whole), later_]
        rfl

/-- Over a chain of entries all records are found, whatever comes after them. -/
theorem assemble_chained {entries : List Entry} (later : List Event) :
    ∀ {offset : Nat}, Chained offset entries →
      assemble config (.fresh false) ((entries.flatMap Entry.placed).map Fragment.found ++ later) =
        (entries.map (fun entry => (entry.record, BitVec.ofNat 64 entry.start)) ++
          (assemble config (.fresh false) later).1, (assemble config (.fresh false) later).2) := by
  induction entries with
  | nil =>
      intro offset _
      rfl
  | cons entry rest ih =>
      intro offset chained
      obtain ⟨_, restChained⟩ := chained
      obtain ⟨reports, silent, assembled⟩ := assemble_cuts config entry.cut
        ((rest.flatMap Entry.placed).map Fragment.found ++ later) (.fresh false)
        (Assembly.ready_true _)
      rw [silent (.inr rfl), ih restChained] at assembled
      rw [List.flatMap_cons, List.map_append, List.append_assoc, Entry.placed, assembled]
      rfl

/-! ## Reading back -/

/-- A file to read: its contents, with no read errors ahead. `pastEnd` is what
`Skip` answers past the end. -/
def toRead (contents : Slice) (pastEnd : Status) : SequentialFile :=
  ⟨contents, [], pastEnd⟩

theorem Reader.afterCalls_atEnd {reader : Reader} (atEnd : reader.AtEnd)
    (zero : reader.config.initialOffset = 0) (count : Nat) :
    (reader.afterCalls count).AtEnd ∧ (reader.afterCalls count).config = reader.config ∧
      (reader.afterCalls count).reports = reader.reports := by
  induction count with
  | zero => exact ⟨atEnd, rfl, rfl⟩
  | succ count ih =>
      obtain ⟨ended, config, reports⟩ := ih
      obtain ⟨_, again, same, silent⟩ := readRecord_atEnd ended (by rw [config, zero])
      rw [afterCalls, Function.iterate_succ_apply']
      exact ⟨again, same.trans config, silent.trans reports⟩

/-- What a scan from the start finds in a log cut to `length` bytes. -/
theorem scan_log (length : Nat) {entries : List Entry} (chained : Chained 0 entries) :
    scan config 0 ((encodeFrom 0 (fragmentsOf entries)).take length) =
      (complete length (entries.flatMap Entry.placed)).map (Fragment.event config) := by
  have := scan_take config length chained.typed chained.fits
  rwa [Nat.sub_zero, chained.layout] at this

/-- A reader from the start of a file: what it returns and reports, and that it then
returns false for ever without a report, unless a record is taken for the end of the
file. -/
theorem Reader.readAll_toRead (contents : Slice) (reporter checksum : Bool) (pastEnd : Status) :
    let config : ReaderConfig := ⟨reporter, checksum, 0⟩
    let found := assemble config (.fresh false) (scan config 0 contents)
    let read := (Reader.new (toRead contents pastEnd) config).readAll
    read.1 = found.1 ∧ read.2.reports = found.2 ∧
      ((∀ event ∈ scan config 0 contents, event.type ≠ kEof) →
        ∀ count, (read.2.afterCalls count).readRecord.1 = none ∧
          (read.2.afterCalls count).readRecord.2.reports = found.2) := by
  intro config found read
  obtain ⟨records, reports, ended⟩ :=
    Reader.readAll_new_zero (toRead contents pastEnd) reporter checksum rfl
  refine ⟨records, reports, fun types count => ?_⟩
  obtain ⟨same, atEnd⟩ := ended types
  obtain ⟨again, config, silent⟩ := Reader.afterCalls_atEnd atEnd (by rw [same]) count
  obtain ⟨stopped, _, _, quiet⟩ := Reader.readRecord_atEnd again (by rw [config, same])
  exact ⟨stopped, quiet.trans (silent.trans reports)⟩

/-- Recovery after a crash. However a log was written, in whatever sessions, and
wherever it is cut off, a reader returns exactly the records that are in the file
in full, in order, then false for ever, and reports nothing. -/
theorem readAll_recovers (sessions : List (List Slice)) (length : Nat) (reporter checksum : Bool)
    (pastEnd : Status) :
    let log := writeSessions emptyFile sessions
    let read := (Reader.new (toRead (log.2.contents.take length) pastEnd)
      ⟨reporter, checksum, 0⟩).readAll
    read.1.map Prod.fst = (log.1.filter (·.after ≤ length)).map Call.record ∧
      read.2.reports = [] ∧
      ∀ count, (read.2.afterCalls count).readRecord.1 = none ∧
        (read.2.afterCalls count).readRecord.2.reports = [] := by
  intro log read
  obtain ⟨entries, adds⟩ := writeSessions_adds sessions emptyFile rfl
  have contents : log.2.contents = encodeFrom 0 (fragmentsOf entries) := adds.contents
  have chained : Chained 0 entries := adds.chained
  have events : scan ⟨reporter, checksum, 0⟩ 0 (log.2.contents.take length) =
      (complete length (entries.flatMap Entry.placed)).map Fragment.found := by
    rw [contents, scan_log _ length chained, Fragment.event_zero]
  obtain ⟨records, reports, ended⟩ :=
    Reader.readAll_toRead (log.2.contents.take length) reporter checksum pastEnd
  rw [events, assemble_complete _ length chained] at records reports ended
  have types : ∀ event ∈ (complete length (entries.flatMap Entry.placed)).map Fragment.found,
      event.type ≠ kEof := by
    intro event member
    obtain ⟨placed, _, rfl⟩ := List.mem_map.mp member
    exact RecordType.code_ne_kEof _
  refine ⟨?_, reports, ended types⟩
  have calls : log.1 = entries.map Entry.call := adds.calls
  rw [calls, List.filter_map, List.map_map]
  exact (congrArg (List.map Prod.fst) records).trans (List.map_map ..)

end MiniLevelDb.Log
