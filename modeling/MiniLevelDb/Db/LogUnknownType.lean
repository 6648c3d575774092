import MiniLevelDb.Db.LogOutput
import MiniLevelDb.Db.LogRecovery

/-!
# Unknown record types

`ReadPhysicalRecord` returns the type byte of a header and its own outcomes `kEof` and
`kBadRecord` through the same number. A physical record of an unknown type is reported
and passed over, but one whose type byte is 5 ends the log and one whose type byte is 6
is passed over in silence.
-/

namespace MiniLevelDb.Log

/-- The file after the physical record at `start` was given another type and its checksum
was computed anew. -/
def retype (contents : Slice) (start : Nat) (type : Byte) (payload : Slice) : Slice :=
  contents.take start ++ rawBytes type payload ++
    contents.drop (start + (kHeaderSize + payload.length))

/-- All records but one are returned, and there is one report, for the size of that one. -/
def ReportedAndSkipped (read : List (Slice × BitVec 64) × Reader) (others : List Slice)
    (size : Nat) : Prop :=
  read.1.map Prod.fst = others ∧ ∃ reason, read.2.reports = [(size, reason)]

theorem signExtend_eq_iff {left right : Byte} :
    left.signExtend 32 = right.signExtend 32 ↔ left = right := by
  refine ⟨fun same => ?_, fun same => same ▸ rfl⟩
  apply BitVec.eq_of_getLsbD_eq
  intro bit inside
  have extended := congrArg (BitVec.getLsbD · bit) same
  simp only [BitVec.getLsbD_signExtend, inside, Nat.lt_trans inside (by decide : 8 < 32),
    decide_true, Bool.true_and, ↓reduceIte] at extended
  exact extended

/-- What the loop makes of a whole physical record of an unknown type. -/
theorem Assembly.accept_unknown {type : Byte} (unknown : ∀ known : RecordType, type ≠ known.toByte)
    (payload : Slice) (offset : BitVec 64) :
    (fresh false).accept (type.signExtend 32) payload offset =
      if type = 5 then (none, .stop (fresh false))
      else if type = 6 then (none, .again (fresh false))
      else (some (payload.length,
        "unknown record type " ++ toString (type.signExtend 32).toNat), .again (fresh false)) := by
  have other : ∀ known : RecordType, type.signExtend 32 ≠ known.code :=
    fun known same => unknown known (signExtend_eq_iff.mp same)
  have ended : type.signExtend 32 = kEof ↔ type = 5 :=
    @signExtend_eq_iff type 5
  have bad : type.signExtend 32 = kBadRecord ↔ type = 6 :=
    @signExtend_eq_iff type 6
  unfold accept
  rw [if_neg (by decide : ¬ (fresh false).resyncing = true), switchType, if_neg (other _),
    if_neg (other _), if_neg (other _), if_neg (other _)]
  simp only [ended, bad]
  rfl

/-- The text of the report on a record of an unknown type. -/
def unknownType (type : Byte) : Status :=
  .corruption ("unknown record type " ++ toString (type.signExtend 32).toNat)

/-- A record of an unknown type between whole records. -/
theorem assemble_unknown {type : Byte} (unknown : ∀ known : RecordType, type ≠ known.toByte)
    (checksum : Bool) (payload : Slice) (start : Nat) (later : List Event) :
    let rest := assemble ⟨true, checksum, 0⟩ (.fresh false) later
    assemble ⟨true, checksum, 0⟩ (.fresh false)
        (.record (type.signExtend 32) payload start :: later) =
      if type = 5 then ([], [])
      else (rest.1, (if type = 6 then [] else [(payload.length, unknownType type)]) ++ rest.2) := by
  intro rest
  rw [assemble, Event.decision, Assembly.accept_unknown unknown]
  by_cases ended : type = 5
  · rw [if_pos ended, if_pos ended]
    rfl
  rw [if_neg ended, if_neg ended]
  by_cases bad : type = 6
  · rw [if_pos bad, if_pos bad]
    rfl
  · rw [if_neg bad, if_neg bad]
    simp only [Event.reports, ReaderConfig.report]
    rw [if_pos ⟨trivial, Nat.zero_le _⟩]
    rfl

section Retyped

variable {before after : List Entry} {entry : Entry} {type : Byte}

/-- The log around a record. -/
theorem encodeFrom_around (chained : Chained 0 (before ++ entry :: after)) :
    encodeFrom 0 (fragmentsOf (before ++ entry :: after)) =
      encodeFrom 0 (fragmentsOf before) ++ (encodeFrom entry.offset entry.fragments ++
        encodeFrom entry.stop (fragmentsOf after)) := by
  obtain ⟨-, place, -⟩ := chained.split
  rw [fragmentsOf_append, fragmentsOf_cons, encodeFrom_append, encodeFrom_append, ← place]
  rfl

theorem length_encodeFrom_before (chained : Chained 0 (before ++ entry :: after)) :
    (encodeFrom 0 (fragmentsOf before)).length = entry.offset := by
  obtain ⟨-, place, -⟩ := chained.split
  rw [place, ← length_encodeFrom, Nat.zero_add]

/-- A record whose first header has the FULL type is written as one physical record. -/
theorem fragments_of_full (chained : Chained 0 (before ++ entry :: after))
    (full : (encodeFrom 0 (fragmentsOf (before ++ entry :: after))).getD (entry.start + 6) 0 =
      RecordType.full.toByte) :
    entry.fragments = [⟨.full, entry.record⟩] ∧
      kHeaderSize + entry.record.length ≤ room entry.start := by
  have place := length_encodeFrom_before chained
  rw [encodeFrom_around chained] at full
  obtain ⟨record, offset, fragments, cut⟩ := entry
  cases cut with
  | ends fits => exact ⟨rfl, fits⟩
  | goesOn fills rest =>
      simp only [Entry.start] at full place
      rw [List.getD_eq_getElem?_getD, ← List.getElem?_drop, nextStart, ← List.drop_drop,
        List.drop_left' place, encodeFrom, List.append_assoc, List.append_assoc,
        List.drop_left' (List.length_replicate ..)] at full
      have opens : RecordType.first.toByte = RecordType.full.toByte := full
      exact absurd opens (by decide)

/-- The log in which a record was given another type. -/
theorem retype_around (chained : Chained 0 (before ++ entry :: after))
    (single : entry.fragments = [⟨.full, entry.record⟩]) (type : Byte) :
    retype (encodeFrom 0 (fragmentsOf (before ++ entry :: after))) entry.start type
        entry.record =
      encodeFrom 0 (fragmentsOf before) ++ (List.replicate (padding entry.offset) 0 ++
        (rawBytes type entry.record ++ encodeFrom entry.stop (fragmentsOf after))) := by
  have length : (encodeFrom 0 (fragmentsOf before) ++
      List.replicate (padding entry.offset) (0 : Byte)).length = entry.start := by
    rw [List.length_append, List.length_replicate, length_encodeFrom_before chained, Entry.start,
      nextStart]
  have sized : (⟨.full, entry.record⟩ : Fragment).bytes.length =
      kHeaderSize + entry.record.length := Fragment.length_bytes _
  have pieces : encodeFrom 0 (fragmentsOf (before ++ entry :: after)) =
      (encodeFrom 0 (fragmentsOf before) ++ List.replicate (padding entry.offset) 0) ++
        ((⟨.full, entry.record⟩ : Fragment).bytes ++
          encodeFrom entry.stop (fragmentsOf after)) := by
    rw [encodeFrom_around chained, single, encodeFrom, encodeFrom, List.append_nil]
    simp only [List.append_assoc]
  rw [retype, pieces, List.take_left' length, ← List.drop_drop, List.drop_left' length,
    List.drop_left' sized]
  simp only [List.append_assoc]

/-- The scan of the log in which a record was given an unknown type. -/
theorem scan_retype {config : ReaderConfig} (zero : config.initialOffset = 0)
    (chained : Chained 0 (before ++ entry :: after))
    (single : entry.fragments = [⟨.full, entry.record⟩])
    (fits : kHeaderSize + entry.record.length ≤ room entry.start) (some_ : entry.record ≠ []) :
    scan config 0 (retype (encodeFrom 0 (fragmentsOf (before ++ entry :: after))) entry.start type
        entry.record) =
      (before.flatMap Entry.placed).map Fragment.found ++
        (.record (type.signExtend 32) entry.record entry.start ::
          (after.flatMap Entry.placed).map Fragment.found) := by
  obtain ⟨early, place, late⟩ := chained.split
  have wanted : Fragment.event config = Fragment.found := by
    funext placed
    exact Fragment.event_eq_found (by simp [zero])
  have stop : entry.stop = entry.start + (kHeaderSize + entry.record.length) := by
    rw [Entry.stop, single]
    rfl
  have counted : ¬ (type.signExtend 32 = RecordType.zero.code ∧ entry.record.length = 0) :=
    fun both => some_ (List.eq_nil_of_length_eq_zero both.2)
  have ahead : (List.replicate (padding entry.offset) (0 : Byte) ++ (rawBytes type entry.record ++
      encodeFrom entry.stop (fragmentsOf after))).drop (padding entry.offset) =
      rawBytes type entry.record ++ encodeFrom entry.stop (fragmentsOf after) :=
    List.drop_left' (List.length_replicate ..)
  have parsed := parseAt_raw config counted fits (encodeFrom entry.stop (fragmentsOf after))
  rw [if_neg (by simp [zero])] at parsed
  have behind : (List.replicate (padding entry.offset) (0 : Byte) ++ (rawBytes type entry.record ++
      encodeFrom entry.stop (fragmentsOf after))).drop (entry.stop - entry.offset) =
      encodeFrom entry.stop (fragmentsOf after) := by
    rw [show entry.stop - entry.offset = padding entry.offset +
        (kHeaderSize + entry.record.length) by rw [stop, Entry.start, nextStart]; omega,
      ← List.drop_drop, ahead, List.drop_left' (length_rawBytes _ _)]
  have met : scan config entry.offset (List.replicate (padding entry.offset) 0 ++
      (rawBytes type entry.record ++ encodeFrom entry.stop (fragmentsOf after))) =
        .record (type.signExtend 32) entry.record entry.start ::
          (after.flatMap Entry.placed).map Fragment.found := by
    have reached : (Event.record (type.signExtend 32) entry.record entry.start).stop = entry.stop :=
      stop.symm
    rw [scan_of_some (by rw [ahead]; exact parsed), reached, behind,
      scan_encodeFrom config late.typed late.fits, late.layout, wanted]
  rw [retype_around chained single,
    scan_encodeFrom_append config _ early.typed early.fits, early.layout, wanted, ← place, met]

/-- What a reader returns and reports of that log. -/
theorem readAll_retype (pastEnd : Status) (unknown : ∀ known : RecordType, type ≠ known.toByte)
    (chained : Chained 0 (before ++ entry :: after))
    (single : entry.fragments = [⟨.full, entry.record⟩])
    (fits : kHeaderSize + entry.record.length ≤ room entry.start) (some_ : entry.record ≠ []) :
    let read := (Reader.new (toRead (retype (encodeFrom 0 (fragmentsOf (before ++ entry :: after)))
      entry.start type entry.record) pastEnd) ⟨true, true, 0⟩).readAll
    read.1.map Prod.fst =
        before.map Entry.record ++ (if type = 5 then [] else after.map Entry.record) ∧
      read.2.reports =
        if type = 5 ∨ type = 6 then [] else [(entry.record.length, unknownType type)] := by
  intro read
  obtain ⟨early, -, late⟩ := chained.split
  obtain ⟨records, reports, -⟩ := Reader.readAll_toRead (retype (encodeFrom 0
    (fragmentsOf (before ++ entry :: after))) entry.start type entry.record) true true pastEnd
  have rest := assemble_chained ⟨true, true, 0⟩ [] late
  rw [List.append_nil] at rest
  rw [scan_retype rfl chained single fits some_, assemble_chained _ _ early,
    assemble_unknown unknown, rest] at records reports
  have names : ∀ entries : List Entry,
      (entries.map fun entry => (entry.record, BitVec.ofNat 64 entry.start)).map Prod.fst =
        entries.map Entry.record := fun entries => List.map_map ..
  refine ⟨(congrArg (List.map Prod.fst) records).trans ?_, reports.trans ?_⟩
  · rw [List.map_append, names]
    split
    · rfl
    · rw [assemble, List.append_nil, names]
  · by_cases ended : type = 5
    · rw [if_pos ended, if_pos (.inl ended)]
    · rw [if_neg ended]
      simp only [assemble, List.append_nil, ended, false_or]

end Retyped

/-- A record that does not fill its block is one FULL physical record. -/
theorem Cuts.eq_full {offset : Nat} {data : Slice} {fragments : List Fragment}
    (cut : Cuts offset true data fragments)
    (short : kHeaderSize + data.length < room (nextStart offset)) :
    fragments = [⟨.full, data⟩] := by
  cases cut with
  | ends fits => rfl
  | goesOn fills rest =>
      rw [List.length_append] at short
      omega

/-- A log of two records of one byte each. -/
theorem two_records : ∃ first second : Entry,
    ((Writer.new emptyFile).addRecords [[1], [2]]).1 = [] ++ first.call :: [second.call] ∧
    ((Writer.new emptyFile).addRecords [[1], [2]]).2.dest.contents =
      encodeFrom 0 (fragmentsOf ([] ++ first :: [second])) ∧
    Chained 0 ([] ++ first :: [second]) ∧ first.record = [1] ∧ second.record = [2] ∧
    first.fragments = [⟨.full, first.record⟩] ∧ first.start = 0 ∧
    ((Writer.new emptyFile).addRecords [[1], [2]]).2.dest.contents.getD (first.start + 6) 0 =
      RecordType.full.toByte := by
  obtain ⟨entries, adds, named⟩ := addRecords_entries [[1], [2]]
  rw [List.map_eq_cons_iff] at named
  obtain ⟨first, rest, rfl, firstNamed, named⟩ := named
  rw [List.map_eq_cons_iff] at named
  obtain ⟨second, rest, rfl, secondNamed, named⟩ := named
  obtain rfl := List.map_eq_nil_iff.mp named
  have chained : Chained 0 [first, second] := adds.chained
  have offset : first.offset = 0 := chained.1
  have start : first.start = 0 := by
    rw [Entry.start, offset]
    rfl
  have single : first.fragments = [⟨.full, first.record⟩] := by
    refine first.cut.eq_full ?_
    rw [firstNamed, offset]
    decide
  have contents : ((Writer.new emptyFile).addRecords [[1], [2]]).2.dest.contents =
      encodeFrom 0 (fragmentsOf [first, second]) := adds.contents
  refine ⟨first, second, adds.calls, contents, chained, firstNamed, secondNamed, single, start, ?_⟩
  rw [contents, start, fragmentsOf_cons, single]
  rfl

/-- A reader with a reporter and checksums, over a log in which one FULL record that is not
empty was given an unknown type, returns all other records and reports just that one if
and only if the type is not one of the values that the reader itself uses for the end
of the file and for bad records. -/
theorem unknownType_reported_iff (records : List Slice) (pastEnd : Status)
    {before after : List Call} {call : Call} {type : Byte}
    (chosen : ((Writer.new emptyFile).addRecords records).1 = before ++ call :: after)
    (full : ((Writer.new emptyFile).addRecords records).2.dest.contents.getD (call.start + 6) 0 =
      RecordType.full.toByte)
    (some_ : call.record ≠ []) (unknown : ∀ known : RecordType, type ≠ known.toByte) :
    ReportedAndSkipped
        (Reader.new (toRead (retype ((Writer.new emptyFile).addRecords records).2.dest.contents
          call.start type call.record) pastEnd) ⟨true, true, 0⟩).readAll
        ((before ++ after).map Call.record) call.record.length ↔
      type ≠ 5 ∧ type ≠ 6 := by
  obtain ⟨entries, adds, -⟩ := addRecords_entries records
  have calls := adds.calls
  rw [chosen, eq_comm, List.map_eq_append_iff] at calls
  obtain ⟨early, rest, rfl, rfl, named⟩ := calls
  rw [List.map_eq_cons_iff] at named
  obtain ⟨entry, late, rfl, rfl, rfl⟩ := named
  have chained : Chained 0 (early ++ entry :: late) := adds.chained
  have contents : ((Writer.new emptyFile).addRecords records).2.dest.contents =
      encodeFrom 0 (fragmentsOf (early ++ entry :: late)) := adds.contents
  rw [contents] at full ⊢
  obtain ⟨single, fits⟩ := fragments_of_full chained full
  obtain ⟨returned, reported⟩ := readAll_retype pastEnd unknown chained single fits some_
  have others : (early.map Entry.call ++ late.map Entry.call).map Call.record =
      early.map Entry.record ++ late.map Entry.record := by
    rw [List.map_append, List.map_map, List.map_map]
    rfl
  rw [others]
  constructor
  · rintro ⟨-, reason, one⟩
    rw [← not_or]
    intro taken
    exact absurd (one.symm.trans (reported.trans (if_pos taken))) (List.cons_ne_nil _ _)
  · rintro ⟨notEof, notBad⟩
    refine ⟨returned.trans ?_, unknownType type, reported.trans (if_neg ?_)⟩
    · rw [if_neg notEof]
    · exact not_or.mpr ⟨notEof, notBad⟩

/-- A log of two records, of which the first was given the type 101. -/
theorem unknownType_reported_iff_two : ∃ first second : Call,
    ((Writer.new emptyFile).addRecords [[1], [2]]).1 = [] ++ first :: [second] ∧
    first.record = [1] ∧
    (ReportedAndSkipped
        (Reader.new (toRead (retype ((Writer.new emptyFile).addRecords
          [[1], [2]]).2.dest.contents first.start 101 first.record) .ok) ⟨true, true, 0⟩).readAll
        (([] ++ [second]).map Call.record) first.record.length ↔
      (101 : Byte) ≠ 5 ∧ (101 : Byte) ≠ 6) := by
  obtain ⟨first, second, calls, -, -, firstNamed, -, -, -, full⟩ := two_records
  have some_ : first.call.record ≠ [] := by
    rw [show first.call.record = [1] from firstNamed]
    decide
  have unknown : ∀ known : RecordType, (101 : Byte) ≠ known.toByte := by
    intro known
    cases known <;> decide
  exact ⟨first.call, second.call, calls, firstNamed,
    unknownType_reported_iff [[1], [2]] .ok calls full some_ unknown⟩

/-- A log of two records, of which the first was given the type 5: nothing is returned and
nothing reported. -/
theorem unknownType_ends_log : ∃ first second : Call,
    ((Writer.new emptyFile).addRecords [[1], [2]]).1 = [first, second] ∧
    first.record = [1] ∧ second.record = [2] ∧
    ((Writer.new emptyFile).addRecords [[1], [2]]).2.dest.contents.getD (first.start + 6) 0 =
      RecordType.full.toByte ∧
    let read := (Reader.new (toRead (retype ((Writer.new emptyFile).addRecords
      [[1], [2]]).2.dest.contents first.start 5 first.record) .ok) ⟨true, true, 0⟩).readAll
    read.1 = [] ∧ read.2.reports = [] ∧ ¬ ReportedAndSkipped read [second.record] 1 := by
  obtain ⟨first, second, calls, contents, chained, firstNamed, secondNamed, single, start, full⟩ :=
    two_records
  refine ⟨first.call, second.call, calls, firstNamed, secondNamed, full, ?_⟩
  have fits : kHeaderSize + first.record.length ≤ room first.start := by
    rw [firstNamed, start]
    decide
  have unknown : ∀ known : RecordType, (5 : Byte) ≠ known.toByte := by
    intro known
    cases known <;> decide
  obtain ⟨returned, reported⟩ := readAll_retype .ok unknown chained single fits
    (by rw [firstNamed]; decide)
  rw [contents]
  refine ⟨List.map_eq_nil_iff.mp returned, reported, ?_⟩
  rintro ⟨-, reason, one⟩
  exact absurd (one.symm.trans reported) (List.cons_ne_nil _ _)

end MiniLevelDb.Log
