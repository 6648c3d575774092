import MiniLevelDb.Db.LogScan

/-!
# Assembling logical records

`assemble` runs the loop body of `ReadRecord` over the events of a scan, across
as many `ReadRecord` calls as return a record. It is what a reader without read
errors does (`readAll_of_sees`), so everything the reader returns and reports can
be read off the events.
-/

namespace MiniLevelDb.Log

namespace RecordType

@[simp] theorem code_ne_kEof (type : RecordType) : type.code ≠ kEof := by
  cases type <;> decide

@[simp] theorem code_ne_kBadRecord (type : RecordType) : type.code ≠ kBadRecord := by
  cases type <;> decide

end RecordType

/-- The locals of `ReadRecord` when a call begins. -/
def Assembly.fresh (resyncing : Bool) : Assembly where
  resyncing := resyncing
  inFragmentedRecord := false
  prospectiveRecordOffset := 0
  scratch := []

/-- What the reporter hears of a `ReportCorruption` call made at `position`. -/
def ReaderConfig.report (config : ReaderConfig) (position : Nat) : Option Drop → List Report
  | none => []
  | some (bytes, reason) =>
      if config.reporter ∧
          BitVec.ofNat 64 position - BitVec.ofNat 64 bytes ≥ config.initialOffset then
        [(bytes, .corruption reason)]
      else
        []

namespace Event

/-- The outcome code of `ReadPhysicalRecord`. -/
def type : Event → BitVec 32
  | .record type _ _ => type
  | .bad _ _ => kBadRecord

/-- What the loop body makes of an event. -/
def decision (event : Event) (assembly : Assembly) : Option Drop × Verdict :=
  match event with
  | .record type payload start => assembly.accept type payload (BitVec.ofNat 64 start)
  | .bad _ _ => assembly.accept kBadRecord [] 0

/-- What `ReadPhysicalRecord` itself reports. -/
def reports (config : ReaderConfig) : Event → List Report
  | .record _ _ _ => []
  | .bad stop drop => config.report stop drop

end Event

/-- The records returned over the events of a scan, with their offsets, and all
reports made on the way. -/
def assemble (config : ReaderConfig) (assembly : Assembly) :
    List Event → List (Slice × BitVec 64) × List Report
  | [] => ([], [])
  | event :: later =>
      let decision := event.decision assembly
      let reports := event.reports config ++ config.report event.stop decision.1
      match decision.2 with
      | .again next =>
          ((assemble config next later).1, reports ++ (assemble config next later).2)
      | .found record offset next =>
          ((record, offset) :: (assemble config (.fresh next.resyncing) later).1,
            reports ++ (assemble config (.fresh next.resyncing) later).2)
      | .stop _ => ([], reports)

namespace Assembly

/-- A physical record that was passed over is handled alike whatever is left in
the fragment. -/
theorem accept_kBadRecord (assembly : Assembly) (fragment : Slice) (offset : BitVec 64) :
    assembly.accept kBadRecord fragment offset = assembly.accept kBadRecord [] 0 := rfl

/-- While resynchronising no record is under way. -/
def Sound (assembly : Assembly) : Prop :=
  assembly.resyncing = true → assembly.inFragmentedRecord = false

theorem sound_fresh (resyncing : Bool) : (fresh resyncing).Sound := fun _ => rfl

/-- Everything the `switch` can do: find a record, begin one, go on with one, end
the loop, or drop what is there. -/
theorem switchType_cases (assembly : Assembly) (type : BitVec 32) (fragment : Slice)
    (offset : BitVec 64) :
    (type = RecordType.full.code ∧ ∃ drop next,
        assembly.switchType type fragment offset = (drop, .found fragment offset next) ∧
          next.resyncing = assembly.resyncing) ∨
      (type = RecordType.first.code ∧ ∃ drop,
        assembly.switchType type fragment offset =
          (drop, .again ⟨assembly.resyncing, true, offset, fragment⟩)) ∨
      (type = RecordType.middle.code ∧ assembly.inFragmentedRecord = true ∧
        assembly.switchType type fragment offset =
          (none, .again { assembly with scratch := assembly.scratch ++ fragment })) ∨
      (type = RecordType.last.code ∧ assembly.inFragmentedRecord = true ∧ ∃ next,
        assembly.switchType type fragment offset = (none, .found (assembly.scratch ++ fragment)
          assembly.prospectiveRecordOffset next) ∧ next.resyncing = assembly.resyncing) ∨
      (type = kEof ∧ ∃ next, assembly.switchType type fragment offset = (none, .stop next)) ∨
      (∃ drop next, assembly.switchType type fragment offset = (drop, .again next) ∧
        next.inFragmentedRecord = false ∧ next.resyncing = assembly.resyncing) := by
  unfold switchType
  by_cases full : type = RecordType.full.code
  · exact .inl ⟨full, _, _, if_pos full, rfl⟩
  rw [if_neg full]
  by_cases opens : type = RecordType.first.code
  · exact .inr (.inl ⟨opens, _, if_pos opens⟩)
  rw [if_neg opens]
  by_cases middle : type = RecordType.middle.code
  · rw [if_pos middle]
    cases fragmented : assembly.inFragmentedRecord with
    | true => exact .inr (.inr (.inl ⟨middle, rfl, rfl⟩))
    | false => exact .inr (.inr (.inr (.inr (.inr ⟨_, _, rfl, fragmented, rfl⟩))))
  rw [if_neg middle]
  by_cases last : type = RecordType.last.code
  · rw [if_pos last]
    cases fragmented : assembly.inFragmentedRecord with
    | true => exact .inr (.inr (.inr (.inl ⟨last, rfl, _, rfl, rfl⟩)))
    | false => exact .inr (.inr (.inr (.inr (.inr ⟨_, _, rfl, fragmented, rfl⟩))))
  rw [if_neg last]
  by_cases ended : type = kEof
  · exact .inr (.inr (.inr (.inr (.inl ⟨ended, _, if_pos ended⟩))))
  rw [if_neg ended]
  refine .inr (.inr (.inr (.inr (.inr ?_))))
  by_cases bad : type = kBadRecord
  · rw [if_pos bad]
    cases fragmented : assembly.inFragmentedRecord with
    | true => exact ⟨_, _, rfl, rfl, rfl⟩
    | false => exact ⟨_, _, rfl, fragmented, rfl⟩
  · exact ⟨_, _, if_neg bad, rfl, rfl⟩

/-- Resynchronising passes over MIDDLE and LAST records and otherwise leaves the
`switch` to it. -/
theorem accept_cases (assembly : Assembly) (type : BitVec 32) (fragment : Slice)
    (offset : BitVec 64) :
    (assembly.resyncing = true ∧ type = RecordType.middle.code ∧
        assembly.accept type fragment offset = (none, .again assembly)) ∨
      (assembly.resyncing = true ∧ type = RecordType.last.code ∧
        assembly.accept type fragment offset =
          (none, .again { assembly with resyncing := false })) ∨
      assembly.accept type fragment offset =
        { assembly with resyncing := false }.switchType type fragment offset := by
  unfold accept
  cases resyncing : assembly.resyncing with
  | true =>
      simp only [↓reduceIte]
      by_cases middle : type = RecordType.middle.code
      · exact .inl ⟨trivial, middle, if_pos middle⟩
      rw [if_neg middle]
      by_cases last : type = RecordType.last.code
      · exact .inr (.inl ⟨trivial, last, if_pos last⟩)
      · exact .inr (.inr (if_neg last))
  | false =>
      have same : { assembly with resyncing := false } = assembly := by rw [← resyncing]
      rw [same]
      exact .inr (.inr rfl)

/-- The only ways for the loop body to leave a record under way: a FIRST record
begins one, a MIDDLE record goes on with one. -/
theorem accept_again {assembly next : Assembly} {type : BitVec 32} {fragment : Slice}
    {offset : BitVec 64} (sound : assembly.Sound)
    (decided : (assembly.accept type fragment offset).2 = .again next) :
    next.Sound ∧ (next.inFragmentedRecord = false ∨
      (type = RecordType.first.code ∧ next = ⟨false, true, offset, fragment⟩) ∨
      (type = RecordType.middle.code ∧ assembly.inFragmentedRecord = true ∧
        next = ⟨false, true, assembly.prospectiveRecordOffset, assembly.scratch ++ fragment⟩)) := by
  rcases assembly.accept_cases type fragment offset with
    ⟨resyncing, _, passed⟩ | ⟨resyncing, _, passed⟩ | switched
  · rw [passed] at decided
    cases decided
    exact ⟨sound, .inl (sound resyncing)⟩
  · rw [passed] at decided
    cases decided
    exact ⟨fun absurd => (by cases absurd), .inl (sound resyncing)⟩
  · rw [switched] at decided
    rcases switchType_cases { assembly with resyncing := false } type fragment offset with
      ⟨_, _, _, taken, _⟩ | ⟨opens, _, taken⟩ | ⟨middle, fragmented, taken⟩ |
      ⟨_, _, _, taken, _⟩ | ⟨_, _, taken⟩ | ⟨_, _, taken, dropped, _⟩
    all_goals
      rw [taken] at decided
      cases decided
    · exact ⟨fun absurd => (by cases absurd), .inr (.inl ⟨opens, rfl⟩)⟩
    · refine ⟨fun absurd => (by cases absurd), .inr (.inr ⟨middle, fragmented, ?_⟩)⟩
      rw [← fragmented]
    · exact ⟨fun _ => dropped, .inl dropped⟩

/-- The only ways for the loop body to find a record: a FULL record, or a LAST
record that completes the one under way. -/
theorem accept_found {assembly next : Assembly} {type : BitVec 32} {fragment record : Slice}
    {offset start : BitVec 64}
    (decided : (assembly.accept type fragment offset).2 = .found record start next) :
    (type = RecordType.full.code ∧ record = fragment ∧ start = offset) ∨
      (type = RecordType.last.code ∧ assembly.inFragmentedRecord = true ∧
        record = assembly.scratch ++ fragment ∧ start = assembly.prospectiveRecordOffset) := by
  rcases assembly.accept_cases type fragment offset with
    ⟨_, _, passed⟩ | ⟨_, _, passed⟩ | switched
  · rw [passed] at decided
    cases decided
  · rw [passed] at decided
    cases decided
  · rw [switched] at decided
    rcases switchType_cases { assembly with resyncing := false } type fragment offset with
      ⟨full, _, _, taken, _⟩ | ⟨_, _, taken⟩ | ⟨_, _, taken⟩ |
      ⟨last, fragmented, _, taken, _⟩ | ⟨_, _, taken⟩ | ⟨_, _, taken, _, _⟩
    all_goals
      rw [taken] at decided
      cases decided
    · exact .inl ⟨full, rfl, rfl⟩
    · exact .inr ⟨last, fragmented, rfl, rfl⟩

/-- Only the outcome for the end of the file ends the loop. -/
theorem accept_stop {assembly next : Assembly} {type : BitVec 32} {fragment : Slice}
    {offset : BitVec 64}
    (decided : (assembly.accept type fragment offset).2 = .stop next) : type = kEof := by
  rcases assembly.accept_cases type fragment offset with
    ⟨_, _, passed⟩ | ⟨_, _, passed⟩ | switched
  · rw [passed] at decided
    cases decided
  · rw [passed] at decided
    cases decided
  · rw [switched] at decided
    rcases switchType_cases { assembly with resyncing := false } type fragment offset with
      ⟨_, _, _, taken, _⟩ | ⟨_, _, taken⟩ | ⟨_, _, taken⟩ | ⟨_, _, _, taken, _⟩ |
      ⟨ended, _, taken⟩ | ⟨_, _, taken, _, _⟩
    all_goals
      rw [taken] at decided
      cases decided
    exact ended

end Assembly

namespace Event

variable {event : Event} {config : ReaderConfig} {assembly next : Assembly}

/-- A record under way keeps starting at or after the initial offset. -/
theorem again_invariant (event : Event) (sound : assembly.Sound)
    (initial : event.FromInitial config)
    (prospective : assembly.inFragmentedRecord = true →
      ¬ assembly.prospectiveRecordOffset < config.initialOffset)
    (verdict : (event.decision assembly).2 = .again next) :
    next.Sound ∧ (next.inFragmentedRecord = true →
      ¬ next.prospectiveRecordOffset < config.initialOffset) := by
  cases event with
  | record type payload start =>
      obtain ⟨nextSound, cases⟩ := Assembly.accept_again sound verdict
      refine ⟨nextSound, ?_⟩
      rcases cases with none_ | ⟨_, rfl⟩ | ⟨_, fragmented, rfl⟩
      · rw [none_]
        exact fun absurd => by cases absurd
      · exact fun _ => initial
      · exact fun _ => prospective fragmented
  | bad stop drop =>
      obtain ⟨nextSound, cases⟩ := Assembly.accept_again sound verdict
      refine ⟨nextSound, ?_⟩
      rcases cases with none_ | ⟨type, _⟩ | ⟨type, _⟩
      · rw [none_]
        exact fun absurd => by cases absurd
      · exact absurd type.symm (RecordType.code_ne_kBadRecord _)
      · exact absurd type.symm (RecordType.code_ne_kBadRecord _)

/-- A record found starts at or after the initial offset. -/
theorem found_offset (event : Event) {record : Slice} {offset : BitVec 64}
    (initial : event.FromInitial config)
    (prospective : assembly.inFragmentedRecord = true →
      ¬ assembly.prospectiveRecordOffset < config.initialOffset)
    (verdict : (event.decision assembly).2 = .found record offset next) :
    ¬ offset < config.initialOffset := by
  cases event with
  | record type payload start =>
      rcases Assembly.accept_found verdict with ⟨_, _, rfl⟩ | ⟨_, fragmented, _, rfl⟩
      · exact initial
      · exact prospective fragmented
  | bad stop drop =>
      rcases Assembly.accept_found verdict with ⟨type, _⟩ | ⟨type, _⟩
      · exact absurd type.symm (RecordType.code_ne_kBadRecord _)
      · exact absurd type.symm (RecordType.code_ne_kBadRecord _)

/-- Only a stored type equal to `kEof` stops the loop before the end. -/
theorem stop_type (event : Event) (verdict : (event.decision assembly).2 = .stop next) :
    event.type = kEof := by
  cases event with
  | record type payload start => exact Assembly.accept_stop verdict
  | bad stop drop => exact Assembly.accept_stop verdict

end Event

namespace Reader

@[simp] theorem reportIfAny_config (reader : Reader) (drop : Option Drop) :
    (reader.reportIfAny drop).config = reader.config := by
  obtain ⟨reports, same⟩ := reader.reportIfAny_frame drop
  rw [same]

@[simp] theorem reportIfAny_position (reader : Reader) (drop : Option Drop) :
    (reader.reportIfAny drop).position = reader.position := by
  obtain ⟨reports, same⟩ := reader.reportIfAny_frame drop
  rw [same]
  rfl

@[simp] theorem reportIfAny_lastRecordOffset (reader : Reader) (drop : Option Drop) :
    (reader.reportIfAny drop).lastRecordOffset = reader.lastRecordOffset := by
  obtain ⟨reports, same⟩ := reader.reportIfAny_frame drop
  rw [same]

theorem reportIfAny_reports {reader : Reader} {position : Nat}
    (stands : reader.position = BitVec.ofNat 64 position) (drop : Option Drop) :
    (reader.reportIfAny drop).reports =
      reader.reports ++ reader.config.report position drop := by
  cases drop with
  | none => exact (List.append_nil _).symm
  | some drop =>
      rw [ReaderConfig.report, ← stands]
      exact reader.reports_reportDrop _ _

theorem Sees.reportIfAny {reader : Reader} {events : List Event} (sees : reader.Sees events)
    (drop : Option Drop) : (reader.reportIfAny drop).Sees events := by
  obtain ⟨reports, same⟩ := reader.reportIfAny_frame drop
  rw [same]
  exact sees.congr rfl rfl rfl rfl rfl

/-- A reader that has come to the end of the file. -/
structure AtEnd (reader : Reader) : Prop where
  buffer : reader.buffer = []
  eof : reader.eof = true

/-- The call in progress, and then successive calls until one returns false. -/
def readFrom (reader : Reader) (assembly : Assembly) (fragment : Slice) :
    List (Slice × BitVec 64) × Reader :=
  match (reader.readRecordLoop assembly fragment).1 with
  | some record =>
      ((record, (reader.readRecordLoop assembly fragment).2.lastRecordOffset) ::
          (reader.readRecordLoop assembly fragment).2.readAll.1,
        (reader.readRecordLoop assembly fragment).2.readAll.2)
  | none => ([], (reader.readRecordLoop assembly fragment).2)

/-- Successive calls whose first one comes to the loop. -/
theorem readAll_of_readRecord {reader after : Reader} {assembly : Assembly}
    (calls : reader.readRecord = after.readRecordLoop assembly []) :
    reader.readAll = after.readFrom assembly [] := by
  rw [readAll, readFrom, calls]
  rcases (after.readRecordLoop assembly []).1 with _ | record <;> rfl

/-- Without a need to skip, successive calls begin in the loop. -/
theorem readAll_eq_readFrom {reader : Reader}
    (started : ¬ reader.lastRecordOffset < reader.config.initialOffset) :
    reader.readAll = reader.readFrom (.fresh reader.resyncing) [] :=
  readAll_of_readRecord (if_neg started)

/-- `ReadRecord` computes the offset of the physical record it just read from where
the reader stands. -/
theorem physicalRecordOffset_of_position {reader : Reader} {payload : Slice} {start : Nat}
    (position : reader.position = BitVec.ofNat 64 (start + (kHeaderSize + payload.length))) :
    reader.physicalRecordOffset payload = BitVec.ofNat 64 start := by
  rw [physicalRecordOffset, position, BitVec.ofNat_add, BitVec.ofNat_add, ← BitVec.add_assoc,
    BitVec.add_comm _ (BitVec.ofNat 64 payload.length), ← BitVec.add_assoc,
    BitVec.add_sub_cancel, BitVec.add_comm, BitVec.add_sub_cancel]

/-- What one iteration does when the next event is known. -/
theorem iteration_of_sees {reader : Reader} {event : Event} {later : List Event}
    (assembly : Assembly) (fragment : Slice) (sees : reader.Sees (event :: later)) :
    (reader.iteration assembly fragment).1 = (event.decision assembly).2 ∧
      (reader.iteration assembly fragment).2.1.Sees later ∧
      (reader.iteration assembly fragment).2.1.config = reader.config ∧
      (reader.iteration assembly fragment).2.1.lastRecordOffset = reader.lastRecordOffset ∧
      (reader.iteration assembly fragment).2.1.reports = reader.reports ++
        (event.reports reader.config ++
          reader.config.report event.stop (event.decision assembly).1) := by
  cases event with
  | record type payload start =>
      obtain ⟨after, read, follows, ahead, position⟩ :=
        readPhysicalRecord_of_sees_record fragment sees
      have offset := physicalRecordOffset_of_position position
      simp only [iteration, read, offset, Event.decision, Event.reports, List.nil_append,
        Event.stop]
      refine ⟨trivial, ahead.reportIfAny _, ?_, ?_, ?_⟩
      · rw [reportIfAny_config, follows.config]
      · rw [reportIfAny_lastRecordOffset, follows.lastRecordOffset]
      · rw [reportIfAny_reports position, follows.reports, follows.config]
  | bad stop drop =>
      obtain ⟨after, bad, read, follows, ahead, position⟩ :=
        readPhysicalRecord_of_sees_bad fragment sees
      have reported : (after.reportIfAny drop).position = BitVec.ofNat 64 stop := by
        rw [reportIfAny_position, position]
      simp only [iteration, bad, read, Event.decision, Event.reports, Event.stop,
        Assembly.accept_kBadRecord _ (reader.readPhysicalRecord fragment).2.1]
      refine ⟨trivial, (ahead.reportIfAny _).reportIfAny _, ?_, ?_, ?_⟩
      · rw [reportIfAny_config, reportIfAny_config, follows.config]
      · rw [reportIfAny_lastRecordOffset, reportIfAny_lastRecordOffset, follows.lastRecordOffset]
      · rw [reportIfAny_reports reported, reportIfAny_reports position, reportIfAny_config,
          follows.reports, follows.config, List.append_assoc]

/-- The iteration after the last event. -/
theorem iteration_of_sees_nil {reader : Reader} (assembly : Assembly) (fragment : Slice)
    (sees : reader.Sees []) :
    (∃ next, (reader.iteration assembly fragment).1 = .stop next) ∧
      Ended reader (reader.iteration assembly fragment).2.1 := by
  obtain ⟨ended, after⟩ := readPhysicalRecord_of_sees_nil fragment sees
  obtain ⟨next, stops⟩ := assembly.accept_kEof (reader.readPhysicalRecord fragment).2.1
    ((reader.readPhysicalRecord fragment).2.2.physicalRecordOffset
      (reader.readPhysicalRecord fragment).2.1)
  simp only [iteration, ended, stops]
  exact ⟨⟨next, rfl⟩, after⟩

/-- Over the events it meets, a reader returns and reports what `assemble` does. -/
theorem readFrom_of_sees (events : List Event) :
    ∀ (reader : Reader) (assembly : Assembly) (fragment : Slice), reader.Sees events →
      assembly.Sound → (∀ event ∈ events, event.FromInitial reader.config) →
      (assembly.inFragmentedRecord = true →
        ¬ assembly.prospectiveRecordOffset < reader.config.initialOffset) →
      (reader.readFrom assembly fragment).1 = (assemble reader.config assembly events).1 ∧
        (reader.readFrom assembly fragment).2.reports =
          reader.reports ++ (assemble reader.config assembly events).2 ∧
        (reader.readFrom assembly fragment).2.config = reader.config ∧
        ((∀ event ∈ events, event.type ≠ kEof) → (reader.readFrom assembly fragment).2.AtEnd) := by
  induction events with
  | nil =>
      intro reader assembly fragment sees _ _ _
      obtain ⟨⟨next, stops⟩, after⟩ := iteration_of_sees_nil assembly fragment sees
      have loop : reader.readRecordLoop assembly fragment =
          (none,
            { (reader.iteration assembly fragment).2.1 with resyncing := next.resyncing }) := by
        rw [readRecordLoop, stops]
      rw [readFrom, loop]
      refine ⟨rfl, ?_, after.config, fun _ => ⟨after.buffer, after.eof⟩⟩
      exact after.reports.trans (List.append_nil _).symm
  | cons event later ih =>
      intro reader assembly fragment sees sound initial prospective
      obtain ⟨decided, ahead, config, lastOffset, reports⟩ :=
        iteration_of_sees assembly fragment sees
      have laterInitial : ∀ other ∈ later, other.FromInitial reader.config :=
        fun other member => initial other (List.mem_cons_of_mem _ member)
      have headInitial := initial event List.mem_cons_self
      cases verdict : (event.decision assembly).2 with
      | again next =>
          rw [verdict] at decided
          have loop : reader.readRecordLoop assembly fragment =
              (reader.iteration assembly fragment).2.1.readRecordLoop next
                (reader.iteration assembly fragment).2.2 := by
            rw [readRecordLoop, decided]
          have rest := ih (reader.iteration assembly fragment).2.1 next
            (reader.iteration assembly fragment).2.2 ahead
          rw [config, reports] at rest
          obtain ⟨nextSound, nextProspective⟩ :=
            event.again_invariant sound headInitial prospective verdict
          have := rest nextSound laterInitial nextProspective
          have from_ : reader.readFrom assembly fragment =
              (reader.iteration assembly fragment).2.1.readFrom next
                (reader.iteration assembly fragment).2.2 := by
            rw [readFrom, readFrom, loop]
          rw [from_]
          simp only [assemble, verdict]
          refine ⟨this.1, ?_, this.2.2.1, ?_⟩
          · rw [this.2.1, List.append_assoc]
          · exact fun types => this.2.2.2
              fun other member => types other (List.mem_cons_of_mem _ member)
      | found record offset next =>
          rw [verdict] at decided
          obtain ⟨after, loop, afterSees, afterConfig, afterReports, afterLast, afterResyncing⟩ :
              ∃ after : Reader, reader.readRecordLoop assembly fragment = (some record, after) ∧
                after.Sees later ∧ after.config = reader.config ∧
                after.reports = reader.reports ++ (event.reports reader.config ++
                  reader.config.report event.stop (event.decision assembly).1) ∧
                after.lastRecordOffset = offset ∧ after.resyncing = next.resyncing := by
            refine ⟨{ (reader.iteration assembly fragment).2.1 with
              lastRecordOffset := offset, resyncing := next.resyncing }, ?_,
              ahead.congr rfl rfl rfl rfl rfl, config, reports, rfl, rfl⟩
            rw [readRecordLoop, decided]
          have started : ¬ after.lastRecordOffset < after.config.initialOffset := by
            rw [afterLast, afterConfig]
            exact event.found_offset headInitial prospective verdict
          have rest := ih after (.fresh after.resyncing) [] afterSees (Assembly.sound_fresh _)
          rw [afterConfig, afterReports, afterResyncing] at rest
          have := rest laterInitial (fun absurd => by cases absurd)
          rw [readFrom, loop]
          simp only [assemble, verdict, readAll_eq_readFrom started, afterLast, afterResyncing]
          refine ⟨?_, ?_, this.2.2.1, ?_⟩
          · rw [this.1]
          · rw [this.2.1, List.append_assoc]
          · exact fun types => this.2.2.2
              fun other member => types other (List.mem_cons_of_mem _ member)
      | stop next =>
          rw [verdict] at decided
          have loop : reader.readRecordLoop assembly fragment =
              (none,
                { (reader.iteration assembly fragment).2.1 with resyncing := next.resyncing }) := by
            rw [readRecordLoop, decided]
          rw [readFrom, loop]
          simp only [assemble, verdict]
          refine ⟨trivial, reports, config, fun types => ?_⟩
          exact absurd (event.stop_type verdict) (types event List.mem_cons_self)

/-! ## Whole reads -/

/-- `block_start_location` as a number. It wraps around for the last offsets of
all, which lie in a trailer. -/
theorem toNat_blockStartLocation (initialOffset : BitVec 64) :
    (blockStartLocation initialOffset).toNat =
      if kBlockSize - 6 < initialOffset.toNat % kBlockSize then
        (initialOffset.toNat - initialOffset.toNat % kBlockSize + kBlockSize) % 2 ^ 64
      else
        initialOffset.toNat - initialOffset.toNat % kBlockSize := by
  have bound := initialOffset.isLt
  have remainder : (initialOffset % BitVec.ofNat 64 kBlockSize).toNat =
      initialOffset.toNat % kBlockSize := by
    rw [BitVec.toNat_umod]
    rfl
  have start : (initialOffset - initialOffset % BitVec.ofNat 64 kBlockSize).toNat =
      initialOffset.toNat - initialOffset.toNat % kBlockSize := by
    rw [BitVec.toNat_sub, remainder]
    unfold kBlockSize
    omega
  have trailer : initialOffset % BitVec.ofNat 64 kBlockSize > BitVec.ofNat 64 (kBlockSize - 6) ↔
      kBlockSize - 6 < initialOffset.toNat % kBlockSize := by
    rw [gt_iff_lt, BitVec.lt_def, remainder]
    rfl
  simp only [blockStartLocation, trailer]
  split
  · rw [BitVec.toNat_add, start]
    rfl
  · exact start

/-- The block a fresh reader begins with starts where a block starts. -/
theorem space_blockStartLocation (initialOffset : BitVec 64) :
    space (blockStartLocation initialOffset).toNat = 0 := by
  rw [toNat_blockStartLocation]
  unfold space kBlockSize
  split <;> omega

/-- At a block boundary the buffer is empty. -/
theorem stands_of_boundary {reader : Reader} {offset : Nat} {data : Slice}
    (boundary : space offset = 0) (outcomes : reader.file.outcomes = [])
    (rest : reader.file.rest = data) (buffer : reader.buffer = []) (eof : reader.eof = false)
    (endOfBuffer : reader.endOfBufferOffset = BitVec.ofNat 64 offset) :
    reader.Stands offset data := by
  refine ⟨outcomes, ?_, ?_, ?_, ?_⟩
  · rw [boundary, List.drop_zero, rest]
  · rw [boundary, List.take_zero, buffer]
  · rw [boundary, eof]
    rfl
  · rw [boundary, List.take_zero, List.length_nil, Nat.add_zero, endOfBuffer]

/-- `SkipToInitialBlock` when there is something to skip. -/
theorem skipToInitialBlock_of_skip {reader : Reader} {status : Status} {file : SequentialFile}
    (moves : blockStartLocation reader.config.initialOffset > 0)
    (outcome : reader.file.skip (blockStartLocation reader.config.initialOffset).toNat =
      (status, file)) :
    reader.skipToInitialBlock =
      let moved := { reader with
        endOfBufferOffset := blockStartLocation reader.config.initialOffset
        file := file }
      if status.isOk then (true, moved)
      else
        (false,
          moved.reportDrop (blockStartLocation reader.config.initialOffset).toNat status) := by
  simp only [skipToInitialBlock, Source.skip_sequentialFile, if_pos moves, outcome]

/-- With an empty buffer skipping reports nothing: the drop is located at offset 0,
before any initial offset. -/
theorem reports_skipToInitialBlock {reader : Reader} (empty : reader.buffer = [])
    (before : reader.lastRecordOffset < reader.config.initialOffset) :
    reader.skipToInitialBlock.2.reports = reader.reports := by
  have positive : 0 < reader.config.initialOffset := by bv_omega
  unfold skipToInitialBlock
  dsimp only
  split
  · split
    · rfl
    · rw [reportDrop, if_neg]
      rintro ⟨_, reported⟩
      simp only [position, empty, List.length_nil, BitVec.ofNat_toNat, BitVec.setWidth_eq,
        BitVec.sub_zero, BitVec.sub_self] at reported
      bv_omega
  · rfl

/-- A fresh reader that has skipped to its initial block, unless `Skip` failed at
the end of the file; then there is nothing left to read and nothing to report. -/
theorem skipToInitialBlock_new (file : SequentialFile) (config : ReaderConfig)
    (sound : file.outcomes = []) (skips : 0 < config.initialOffset) :
    let location := (blockStartLocation config.initialOffset).toNat
    let skipped := (new file config).skipToInitialBlock
    skipped.2.reports = [] ∧
      ((skipped.1 = true ∧ skipped.2.config = config ∧
          skipped.2.Stands location (file.rest.drop location)) ∨
        (skipped.1 = false ∧ file.rest.drop location = [])) := by
  intro location
  have stands : ∀ after : Reader, after.file.outcomes = [] →
      after.file.rest = file.rest.drop location → after.buffer = [] → after.eof = false →
      after.endOfBufferOffset = blockStartLocation config.initialOffset →
      after.Stands location (file.rest.drop location) := by
    intro after outcomes rest buffer eof endOfBuffer
    refine stands_of_boundary (space_blockStartLocation _) outcomes rest buffer eof ?_
    rw [endOfBuffer, BitVec.ofNat_toNat, BitVec.setWidth_eq]
  refine ⟨reports_skipToInitialBlock rfl skips, ?_⟩
  by_cases moves : blockStartLocation config.initialOffset > 0
  · by_cases beyond : location > file.rest.length
    · have nothing : file.rest.drop location = [] := List.drop_eq_nil_of_le (Nat.le_of_lt beyond)
      have outcome : (new file config).file.skip location =
        (file.pastEnd, { file with rest := [] }) := if_pos beyond
      have skipped := @skipToInitialBlock_of_skip (new file config) _ _ moves outcome
      rw [skipped]
      cases passes : file.pastEnd.isOk with
      | true => exact .inl ⟨rfl, rfl, stands _ sound nothing.symm rfl rfl rfl⟩
      | false => exact .inr ⟨rfl, nothing⟩
    · have outcome : (new file config).file.skip location =
          (.ok, { file with rest := file.rest.drop location }) := if_neg beyond
      have skipped := @skipToInitialBlock_of_skip (new file config) _ _ moves outcome
      rw [skipped]
      exact .inl ⟨rfl, rfl, stands _ sound rfl rfl rfl rfl⟩
  · have start : location = 0 := by
      simp only [location]
      bv_omega
    have stays : (new file config).skipToInitialBlock = (true, { new file config with
        endOfBufferOffset := blockStartLocation config.initialOffset }) := if_neg moves
    rw [stays]
    refine .inl ⟨rfl, rfl, stands _ sound ?_ rfl rfl rfl⟩
    rw [start]
    rfl

/-- The reader over a whole file: what it returns and reports is what `assemble`
makes of the scan from its initial block. -/
theorem readAll_new (file : SequentialFile) (config : ReaderConfig) (sound : file.outcomes = []) :
    let location := (blockStartLocation config.initialOffset).toNat
    let events := scan config location (file.rest.drop location)
    let found := assemble config (.fresh (decide (0 < config.initialOffset))) events
    (new file config).readAll.1 = found.1 ∧ (new file config).readAll.2.reports = found.2 ∧
      (config.initialOffset = 0 → (∀ event ∈ events, event.type ≠ kEof) →
        (new file config).readAll.2.config = config ∧ (new file config).readAll.2.AtEnd) := by
  intro location events found
  by_cases skips : 0 < config.initialOffset
  · have positive : config.initialOffset ≠ 0 := by
      intro zero
      rw [zero] at skips
      exact absurd skips (by decide)
    have record : (new file config).readRecord =
        if (new file config).skipToInitialBlock.1 then
          (new file config).skipToInitialBlock.2.readRecordLoop (new file config).start []
        else (none, (new file config).skipToInitialBlock.2) := if_pos skips
    obtain ⟨reports, ⟨passed, same, stands⟩ | ⟨failed, nothing⟩⟩ :=
      skipToInitialBlock_new file config sound skips
    · rw [if_pos passed] at record
      have calls : (new file config).readAll = (new file config).skipToInitialBlock.2.readFrom
          (.fresh (decide (0 < config.initialOffset))) [] := readAll_of_readRecord record
      have := readFrom_of_sees events (new file config).skipToInitialBlock.2
        (.fresh (decide (0 < config.initialOffset))) [] ⟨location, _, stands, by rw [same]⟩
        (Assembly.sound_fresh _)
      rw [same, reports, List.nil_append, ← calls] at this
      obtain ⟨records, reported, _, _⟩ := this (scan_fromInitial _ _ _)
        (fun absurd => by cases absurd)
      exact ⟨records, reported, fun zero => absurd zero positive⟩
    · rw [if_neg (by rw [failed]; decide)] at record
      have empty : (new file config).readAll = ([], (new file config).skipToInitialBlock.2) := by
        rw [readAll, record]
      have ended : events = [] := by
        change scan config location (file.rest.drop (blockStartLocation _).toNat) = []
        rw [nothing, scan_nil]
      simp only [found, ended, empty]
      exact ⟨rfl, reports, fun zero => absurd zero positive⟩
  · have zero : config.initialOffset = 0 := by bv_omega
    have start : location = 0 := by
      simp only [location, zero]
      decide
    have stands : (new file config).Stands location (file.rest.drop location) := by
      rw [start]
      exact ⟨sound, rfl, rfl, rfl, rfl⟩
    have calls : (new file config).readAll = (new file config).readFrom
        (.fresh (decide (0 < config.initialOffset))) [] := readAll_eq_readFrom skips
    have := readFrom_of_sees events (new file config)
      (.fresh (decide (0 < config.initialOffset))) [] ⟨location, _, stands, rfl⟩
      (Assembly.sound_fresh _) (scan_fromInitial _ _ _) (fun absurd => by cases absurd)
    rw [← calls] at this
    obtain ⟨records, reported, same, atEnd⟩ := this
    exact ⟨records, reported, fun _ types => ⟨same, atEnd types⟩⟩

/-- The same from the start of the file. -/
theorem readAll_new_zero (file : SequentialFile) (reporter checksum : Bool)
    (sound : file.outcomes = []) :
    let config : ReaderConfig := ⟨reporter, checksum, 0⟩
    let found := assemble config (.fresh false) (scan config 0 file.rest)
    (new file config).readAll.1 = found.1 ∧ (new file config).readAll.2.reports = found.2 ∧
      ((∀ event ∈ scan config 0 file.rest, event.type ≠ kEof) →
        (new file config).readAll.2.config = config ∧ (new file config).readAll.2.AtEnd) := by
  have start : (blockStartLocation 0).toNat = 0 := by decide
  have whole := readAll_new file ⟨reporter, checksum, 0⟩ sound
  simp only [start, List.drop_zero, forall_const] at whole
  exact whole

/-- After the end of the file every call returns false and reports nothing. -/
theorem readRecord_atEnd {reader : Reader} (atEnd : reader.AtEnd)
    (zero : reader.config.initialOffset = 0) :
    reader.readRecord.1 = none ∧ reader.readRecord.2.AtEnd ∧
      reader.readRecord.2.config = reader.config ∧
      reader.readRecord.2.reports = reader.reports := by
  have read : reader.readPhysicalRecord [] = (kEof, [], reader.clearBuffer) := by
    rw [readPhysicalRecord, if_pos, if_neg]
    · rw [atEnd.eof]
      decide
    · rw [atEnd.buffer]
      decide
  obtain ⟨after, stops⟩ := reader.start.accept_kEof [] (reader.clearBuffer.physicalRecordOffset [])
  have record : reader.readRecord =
      (none, { reader.clearBuffer with resyncing := after.resyncing }) := by
    have verdict : reader.iteration reader.start [] = (.stop after, reader.clearBuffer, []) := by
      simp only [iteration, read, stops, reportIfAny]
    rw [readRecord, if_neg (by rw [zero]; bv_omega), readRecordLoop, verdict]
  rw [record]
  exact ⟨rfl, ⟨rfl, atEnd.eof⟩, rfl, rfl⟩

end Reader

end MiniLevelDb.Log
