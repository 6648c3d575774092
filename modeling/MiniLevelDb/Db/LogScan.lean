import MiniLevelDb.Db.LogReader

/-!
# The reader as a scan

What `ReadPhysicalRecord` makes of a file depends only on where in the file it
stands and on the bytes from there on. `parseAt` is that function, `scan` repeats
it to the end of the file, and `assemble` runs the loop of `ReadRecord` over the
events of a scan. A reader over a file without read errors returns what
`assemble` returns of its scan (`readAll_of_sees`).
-/

namespace MiniLevelDb.Log

/-- What `ReadPhysicalRecord` finds: a physical record it returns, or bytes it
gives up on, with the `ReportCorruption` call it makes about them. -/
inductive Event where
  | record (type : BitVec 32) (payload : Slice) (start : Nat)
  | bad (stop : Nat) (drop : Option Drop)

/-- The file offset after an event. -/
def Event.stop : Event → Nat
  | .record _ payload start => start + (kHeaderSize + payload.length)
  | .bad stop _ => stop

/-- The event at `offset`, where `data` are the bytes of the file from there on
and the reader's buffer holds those of the same block. `none` is the end of the
file. -/
def parseAt (config : ReaderConfig) (offset : Nat) (data : Slice) : Option Event :=
  let buffer := data.take (room offset)
  let length := Reader.headerLength buffer
  if buffer.length < kHeaderSize then
    none
  else if kHeaderSize + length > buffer.length then
    if data.length < room offset then none
    else some (.bad (offset + buffer.length) (some (buffer.length, "bad record length")))
  else if Reader.headerType buffer = RecordType.zero.code ∧ length = 0 then
    some (.bad (offset + buffer.length) none)
  else if config.checksum && !Reader.checksumMatches buffer then
    some (.bad (offset + buffer.length) (some (buffer.length, "checksum mismatch")))
  else if BitVec.ofNat 64 offset < config.initialOffset then
    some (.bad (offset + (kHeaderSize + length)) none)
  else
    some (.record (Reader.headerType buffer) ((buffer.drop kHeaderSize).take length) offset)

theorem parseAt_nil (config : ReaderConfig) (offset : Nat) : parseAt config offset [] = none := by
  simp only [parseAt, List.take_nil, List.length_nil]
  rfl

/-- What is left of the block `offset` is inside of; nothing at a block
boundary. -/
def space (offset : Nat) : Nat :=
  (kBlockSize - offset % kBlockSize) % kBlockSize

theorem space_eq_room {offset : Nat} (inside : space offset ≠ 0) : space offset = room offset := by
  unfold space room kBlockSize at *
  omega

theorem room_eq_of_space_eq_zero {offset : Nat} (boundary : space offset = 0) :
    room offset = kBlockSize := by
  unfold space room kBlockSize at *
  omega

theorem space_add_of_lt {offset used : Nat} (inside : used < room offset) (some_ : 0 < used) :
    space (offset + used) = room offset - used := by
  unfold space room kBlockSize at *
  omega

theorem space_add_room (offset : Nat) : space (offset + room offset) = 0 := by
  unfold space room kBlockSize
  omega

theorem space_add_space (offset : Nat) : space (offset + space offset) = 0 := by
  unfold space kBlockSize
  omega

theorem padding_eq_space {offset : Nat} (short : space offset < kHeaderSize) :
    padding offset = space offset := by
  unfold padding space room kHeaderSize kBlockSize at *
  split <;> omega

theorem padding_eq_zero {offset : Nat} (fits : ¬ space offset < kHeaderSize) :
    padding offset = 0 := by
  unfold padding space room kHeaderSize kBlockSize at *
  split <;> omega

namespace Reader

/-- The reader, standing at `offset` with the bytes `data` of the file ahead,
`held` of which it has asked for already. -/
def holding (reader : Reader) (held offset : Nat) (data : Slice) : Reader :=
  { reader with
    file := { reader.file with rest := data.drop held }
    buffer := data.take held
    eof := decide (data.length < held)
    endOfBufferOffset := BitVec.ofNat 64 (offset + (data.take held).length) }

/-- The reader between two calls: it holds the rest of the current block. -/
def seek (reader : Reader) (offset : Nat) (data : Slice) : Reader :=
  reader.holding (space offset) offset data

@[simp] theorem position_holding (reader : Reader) (held offset : Nat) (data : Slice) :
    (reader.holding held offset data).position = BitVec.ofNat 64 offset := by
  simp only [position, holding, BitVec.ofNat_add, BitVec.add_sub_cancel]

@[simp] theorem position_seek (reader : Reader) (offset : Nat) (data : Slice) :
    (reader.seek offset data).position = BitVec.ofNat 64 offset :=
  position_holding _ _ _ _

/-- Taking bytes off the buffer moves the reader on. -/
theorem holding_drop (reader : Reader) {offset used : Nat} {data : Slice}
    (inside : used ≤ (data.take (room offset)).length) (some_ : 0 < used) :
    (reader.holding (room offset) offset data).removePrefix used =
      reader.seek (offset + used) (data.drop used) := by
  have bounded : used ≤ room offset ∧ used ≤ data.length := by
    simpa only [List.length_take, Nat.le_min] using inside
  unfold seek removePrefix holding
  by_cases whole : used = room offset
  · subst whole
    have enough : room offset ≤ data.length := bounded.2
    simp only [space_add_room, List.take_zero, List.drop_zero, List.length_nil, Nat.add_zero,
      List.length_take, min_eq_left enough, Nat.not_lt_zero, decide_false, enough.not_gt,
      List.drop_eq_nil_of_le (List.length_take_le _ _)]
  · have left : used < room offset := lt_of_le_of_ne bounded.1 whole
    have ahead : (data.drop used).length < room offset - used ↔ data.length < room offset := by
      rw [List.length_drop]
      omega
    have taken : (data.drop used).take (room offset - used) = (data.take (room offset)).drop used :=
      List.drop_take.symm
    have rest : (data.drop used).drop (room offset - used) = data.drop (room offset) := by
      rw [List.drop_drop]
      congr 1
      omega
    have stop : offset + used + ((data.take (room offset)).drop used).length =
        offset + (data.take (room offset)).length := by
      rw [List.length_drop]
      omega
    simp only [space_add_of_lt left some_, taken, rest, ahead, stop]

/-- So does giving up on the rest of the buffer. -/
theorem holding_clear (reader : Reader) {offset : Nat} {data : Slice}
    (some_ : 0 < (data.take (room offset)).length) :
    (reader.holding (room offset) offset data).clearBuffer =
      reader.seek (offset + (data.take (room offset)).length)
        (data.drop (data.take (room offset)).length) := by
  rw [← holding_drop reader (Nat.le_refl _) some_, removePrefix, clearBuffer]
  simp only [holding, List.drop_length]

/-- A reader that has come to the end of the file, without a report. -/
structure Ended (before after : Reader) : Prop where
  config : after.config = before.config
  outcomes : after.file.outcomes = before.file.outcomes
  buffer : after.buffer = []
  eof : after.eof = true
  lastRecordOffset : after.lastRecordOffset = before.lastRecordOffset
  resyncing : after.resyncing = before.resyncing
  reports : after.reports = before.reports

/-- The outcome of a `ReadPhysicalRecord` call that meets `event` when the reader
stands at `offset` before `data`. -/
def Meets (reader : Reader) (offset : Nat) (data : Slice) (result : Slice)
    (outcome : BitVec 32 × Slice × Reader) : Option Event → Prop
  | none => outcome.1 = kEof ∧ outcome.2.1 = result ∧ Ended reader outcome.2.2
  | some (.record type payload start) =>
      outcome = (type, payload, reader.seek (start + (kHeaderSize + payload.length))
        (data.drop (start + (kHeaderSize + payload.length) - offset)))
  | some (.bad stop drop) =>
      outcome.1 = kBadRecord ∧
        outcome.2.2 = (reader.seek stop (data.drop (stop - offset))).reportIfAny drop

/-- Once the buffer holds a header, `ReadPhysicalRecord` meets the event there. -/
theorem parseRecord_holding (reader : Reader) {offset : Nat} {data : Slice} (result : Slice)
    (enough : kHeaderSize ≤ (data.take (room offset)).length) :
    Meets reader offset data result
      ((reader.holding (room offset) offset data).parseRecord result)
      (parseAt reader.config offset data) := by
  have some_ : 0 < (data.take (room offset)).length := Nat.lt_of_lt_of_le (by decide) enough
  have cleared := holding_clear reader some_
  have buffer : (reader.holding (room offset) offset data).buffer = data.take (room offset) := rfl
  have config : (reader.holding (room offset) offset data).config = reader.config := rfl
  simp only [parseAt, parseRecord, buffer, config, enough.not_gt, ↓reduceIte]
  by_cases long : kHeaderSize + headerLength (data.take (room offset)) >
      (data.take (room offset)).length
  · simp only [if_pos long]
    by_cases torn : data.length < room offset
    · have eof : (reader.holding (room offset) offset data).eof = true := decide_eq_true torn
      have closed : ¬ (!(reader.holding (room offset) offset data).eof) = true := by
        rw [eof]
        decide
      simp only [if_neg closed, if_pos torn]
      exact ⟨rfl, rfl, rfl, rfl, rfl, eof, rfl, rfl, rfl⟩
    · have open_ : (!(reader.holding (room offset) offset data).eof) = true := by
        rw [show (reader.holding (room offset) offset data).eof = false from decide_eq_false torn]
        rfl
      simp only [if_pos open_, if_neg torn]
      refine ⟨rfl, ?_⟩
      rw [Nat.add_sub_cancel_left, ← cleared]
      rfl
  · simp only [if_neg long]
    by_cases zero : headerType (data.take (room offset)) = RecordType.zero.code ∧
        headerLength (data.take (room offset)) = 0
    · simp only [if_pos zero]
      refine ⟨rfl, ?_⟩
      rw [Nat.add_sub_cancel_left, ← cleared]
      rfl
    · simp only [if_neg zero]
      by_cases mismatch : (reader.config.checksum &&
          !checksumMatches (data.take (room offset))) = true
      · simp only [if_pos mismatch]
        refine ⟨rfl, ?_⟩
        rw [Nat.add_sub_cancel_left, ← cleared]
        rfl
      · simp only [if_neg mismatch]
        have used : kHeaderSize + headerLength (data.take (room offset)) ≤
            (data.take (room offset)).length := Nat.le_of_not_gt long
        have moved :=
          holding_drop reader used (Nat.lt_of_lt_of_le (by decide) (Nat.le_add_right _ _))
        have start : (reader.seek
            (offset + (kHeaderSize + headerLength (data.take (room offset))))
            (data.drop (kHeaderSize + headerLength (data.take (room offset))))).position -
              BitVec.ofNat 64 kHeaderSize -
              BitVec.ofNat 64 (headerLength (data.take (room offset))) =
            BitVec.ofNat 64 offset := by
          rw [position_seek, BitVec.ofNat_add, BitVec.ofNat_add, ← BitVec.add_assoc]
          rw [BitVec.add_comm _ (BitVec.ofNat 64 (headerLength _)), ← BitVec.add_assoc,
            BitVec.add_sub_cancel, BitVec.add_comm, BitVec.add_sub_cancel]
        rw [moved, start]
        by_cases before : BitVec.ofNat 64 offset < reader.config.initialOffset
        · simp only [if_pos before]
          refine ⟨rfl, ?_⟩
          rw [Nat.add_sub_cancel_left]
          rfl
        · simp only [if_neg before]
          have length : (((data.take (room offset)).drop kHeaderSize).take
              (headerLength (data.take (room offset)))).length =
              headerLength (data.take (room offset)) := by
            rw [List.length_take, List.length_drop]
            omega
          simp only [Meets, length, Nat.add_sub_cancel_left]

/-- `ReadPhysicalRecord` with the rest of the block at hand. -/
theorem readPhysicalRecord_holding (reader : Reader) {offset : Nat} {data : Slice} (result : Slice)
    (fits : kHeaderSize ≤ room offset) :
    Meets reader offset data result
      ((reader.holding (room offset) offset data).readPhysicalRecord result)
      (parseAt reader.config offset data) := by
  have buffer : (reader.holding (room offset) offset data).buffer = data.take (room offset) := rfl
  rw [readPhysicalRecord, buffer]
  by_cases lacking : (data.take (room offset)).length < kHeaderSize
  · have torn : data.length < room offset := by
      rw [List.length_take] at lacking
      omega
    have eof : (reader.holding (room offset) offset data).eof = true := decide_eq_true torn
    rw [if_pos lacking, if_neg (by rw [eof]; decide), parseAt]
    simp only [if_pos lacking]
    exact ⟨rfl, rfl, rfl, rfl, rfl, eof, rfl, rfl, rfl⟩
  · rw [if_neg lacking]
    exact parseRecord_holding reader result (Nat.le_of_not_lt lacking)

/-- When the rest of the block is too short for a header, the next block is
read. -/
theorem refill_seek (reader : Reader) {offset : Nat} {data : Slice}
    (sound : reader.file.outcomes = []) (short : space offset < kHeaderSize)
    (enough : space offset ≤ data.length) :
    (reader.seek offset data).clearBuffer.refill =
      (true, reader.holding (room (nextStart offset)) (nextStart offset)
        (data.drop (padding offset))) := by
  have pad : padding offset = space offset := padding_eq_space short
  have next : nextStart offset = offset + space offset := by rw [nextStart, pad]
  have block : room (offset + space offset) = kBlockSize :=
    room_eq_of_space_eq_zero (space_add_space offset)
  have taken : (data.take (space offset)).length = space offset := by
    rw [List.length_take, Nat.min_eq_left enough]
  have open_ : decide (data.length < space offset) = false := decide_eq_false enough.not_gt
  simp only [refill, seek, holding, clearBuffer, Source.read_sequentialFile,
    SequentialFile.read, sound, Status.isOk_ok,
    Bool.not_true, Bool.false_eq_true, ↓reduceIte, taken, open_, block, next, pad,
    ← BitVec.ofNat_add]
  by_cases partial_ : ((data.drop (space offset)).take kBlockSize).length < kBlockSize
  · have torn : (data.drop (space offset)).length < kBlockSize := by
      rw [List.length_take] at partial_
      omega
    simp only [if_pos partial_, decide_eq_true torn]
  · have whole : ¬ (data.drop (space offset)).length < kBlockSize := by
      rw [List.length_take] at partial_
      omega
    simp only [if_neg partial_, decide_eq_false whole]

/-- `ReadPhysicalRecord` meets the event at the next place where a header may
start. -/
theorem readPhysicalRecord_seek (reader : Reader) (offset : Nat) (data result : Slice)
    (sound : reader.file.outcomes = []) :
    Meets reader (nextStart offset) (data.drop (padding offset)) result
      ((reader.seek offset data).readPhysicalRecord result)
      (parseAt reader.config (nextStart offset) (data.drop (padding offset))) := by
  have buffer : (reader.seek offset data).buffer = data.take (space offset) := rfl
  have eof : (reader.seek offset data).eof = decide (data.length < space offset) := rfl
  by_cases short : space offset < kHeaderSize
  · have pad : padding offset = space offset := padding_eq_space short
    have lacking : (reader.seek offset data).buffer.length < kHeaderSize := by
      rw [buffer, List.length_take]
      omega
    rw [readPhysicalRecord, if_pos lacking]
    by_cases torn : data.length < space offset
    · rw [if_neg (by rw [eof, decide_eq_true torn]; decide), pad,
        List.drop_eq_nil_of_le (Nat.le_of_lt torn), parseAt_nil]
      exact ⟨rfl, rfl, rfl, rfl, rfl, decide_eq_true torn, rfl, rfl, rfl⟩
    · rw [if_pos (by rw [eof, decide_eq_false torn])]
      simp only [refill_seek reader sound short (Nat.le_of_not_lt torn), ↓reduceIte]
      exact readPhysicalRecord_holding reader result (kHeaderSize_le_room_nextStart offset)
  · have pad : padding offset = 0 := padding_eq_zero short
    have same : nextStart offset = offset := by rw [nextStart, pad, Nat.add_zero]
    have held : reader.seek offset data = reader.holding (room offset) offset data := by
      rw [seek, space_eq_room (by intro zero; rw [zero] at short; exact short (by decide))]
    have fits := kHeaderSize_le_room_nextStart offset
    rw [same] at fits
    rw [pad, same, List.drop_zero, held]
    exact readPhysicalRecord_holding reader result fits

end Reader

/-! ## Scans -/

/-- An event uses at least a header of the bytes ahead, and stays inside its
block. -/
theorem parseAt_stop {config : ReaderConfig} {offset : Nat} {data : Slice} {event : Event}
    (parsed : parseAt config offset data = some event) :
    offset + kHeaderSize ≤ event.stop ∧
      event.stop ≤ offset + (data.take (room offset)).length := by
  unfold parseAt at parsed
  dsimp only at parsed
  split at parsed
  · cases parsed
  · rename_i enough
    split at parsed
    · split at parsed
      · cases parsed
      · cases parsed
        simp only [Event.stop]
        omega
    · rename_i fits
      split at parsed
      · cases parsed
        simp only [Event.stop]
        omega
      · split at parsed
        · cases parsed
          simp only [Event.stop]
          omega
        · split at parsed
          · cases parsed
            simp only [Event.stop]
            omega
          · cases parsed
            simp only [Event.stop, List.length_take, List.length_drop] at *
            omega

/-- Repeating `parseAt` to the end of the file. -/
def scan (config : ReaderConfig) (offset : Nat) (data : Slice) : List Event :=
  match _parsed : parseAt config (nextStart offset) (data.drop (padding offset)) with
  | none => []
  | some event => event :: scan config event.stop (data.drop (event.stop - offset))
termination_by data.length
decreasing_by
  have bounds := parseAt_stop _parsed
  have positive : 0 < kHeaderSize := by decide
  unfold nextStart at bounds
  rw [List.length_take, List.length_drop] at bounds
  rw [List.length_drop]
  omega

theorem scan_of_none {config : ReaderConfig} {offset : Nat} {data : Slice}
    (parsed : parseAt config (nextStart offset) (data.drop (padding offset)) = none) :
    scan config offset data = [] := by
  rw [scan, parsed]

theorem scan_of_some {config : ReaderConfig} {offset : Nat} {data : Slice} {event : Event}
    (parsed : parseAt config (nextStart offset) (data.drop (padding offset)) = some event) :
    scan config offset data =
      event :: scan config event.stop (data.drop (event.stop - offset)) := by
  rw [scan, parsed]

theorem drop_padding (contents : Slice) (offset : Nat) :
    (contents.drop offset).drop (padding offset) = contents.drop (nextStart offset) := by
  rw [List.drop_drop, nextStart]

/-- The scan of a file from a place on. -/
theorem scan_drop_of_some {config : ReaderConfig} {contents : Slice} {offset : Nat}
    {event : Event}
    (parsed : parseAt config (nextStart offset) (contents.drop (nextStart offset)) = some event)
    (ahead : nextStart offset ≤ event.stop) :
    scan config offset (contents.drop offset) =
      event :: scan config event.stop (contents.drop event.stop) := by
  have moved : offset + (event.stop - offset) = event.stop :=
    Nat.add_sub_cancel' (Nat.le_trans (le_nextStart offset) ahead)
  rw [scan_of_some (by rw [drop_padding]; exact parsed), List.drop_drop, moved]

theorem scan_nil (config : ReaderConfig) (offset : Nat) : scan config offset [] = [] := by
  exact scan_of_none (by rw [List.drop_nil, parseAt_nil])

/-- A record returned by a scan starts at or after the initial offset. -/
def Event.FromInitial (config : ReaderConfig) : Event → Prop
  | .record _ _ start => ¬ BitVec.ofNat 64 start < config.initialOffset
  | .bad _ _ => True

theorem parseAt_fromInitial {config : ReaderConfig} {offset : Nat} {data : Slice} {event : Event}
    (parsed : parseAt config offset data = some event) : event.FromInitial config := by
  cases event with
  | bad stop drop => trivial
  | record type payload start =>
      unfold parseAt at parsed
      dsimp only at parsed
      repeat' split at parsed
      all_goals cases parsed
      assumption

theorem scan_fromInitial (config : ReaderConfig) (offset : Nat) (data : Slice) :
    ∀ event ∈ scan config offset data, event.FromInitial config := by
  induction offset, data using scan.induct config with
  | case1 offset data parsed =>
      rw [scan, parsed]
      intro event member
      cases member
  | case2 offset data event parsed ih =>
      rw [scan, parsed]
      intro other member
      rcases List.mem_cons.mp member with rfl | later
      · exact parseAt_fromInitial parsed
      · exact ih other later

namespace Reader

/-- The reader stands at `offset` with `data` ahead. -/
structure Stands (reader : Reader) (offset : Nat) (data : Slice) : Prop where
  outcomes : reader.file.outcomes = []
  rest : reader.file.rest = data.drop (space offset)
  buffer : reader.buffer = data.take (space offset)
  eof : reader.eof = decide (data.length < space offset)
  endOfBuffer : reader.endOfBufferOffset =
    BitVec.ofNat 64 (offset + (data.take (space offset)).length)

theorem Stands.eq_seek {reader : Reader} {offset : Nat} {data : Slice}
    (stands : reader.Stands offset data) : reader = reader.seek offset data := by
  obtain ⟨outcomes, rest, buffer, eof, endOfBuffer⟩ := stands
  unfold seek holding
  rw [← endOfBuffer, ← rest, ← buffer, ← eof]

theorem stands_seek {reader : Reader} (sound : reader.file.outcomes = []) (offset : Nat)
    (data : Slice) : (reader.seek offset data).Stands offset data :=
  ⟨sound, rfl, rfl, rfl, rfl⟩

/-- The events a reader is going to meet. -/
def Sees (reader : Reader) (events : List Event) : Prop :=
  ∃ offset data, reader.Stands offset data ∧ scan reader.config offset data = events

/-- Nothing but the position in the file has changed. -/
structure Follows (before after : Reader) : Prop where
  config : after.config = before.config
  lastRecordOffset : after.lastRecordOffset = before.lastRecordOffset
  resyncing : after.resyncing = before.resyncing
  reports : after.reports = before.reports

theorem follows_seek (reader : Reader) (offset : Nat) (data : Slice) :
    Follows reader (reader.seek offset data) :=
  ⟨rfl, rfl, rfl, rfl⟩

/-- What lies ahead does not depend on what has been assembled and reported. -/
theorem Sees.congr {reader other : Reader} {events : List Event} (sees : reader.Sees events)
    (config : other.config = reader.config) (file : other.file = reader.file)
    (buffer : other.buffer = reader.buffer) (eof : other.eof = reader.eof)
    (endOfBuffer : other.endOfBufferOffset = reader.endOfBufferOffset) : other.Sees events := by
  obtain ⟨offset, data, stands, scanned⟩ := sees
  refine ⟨offset, data, ⟨?_, ?_, ?_, ?_, ?_⟩, ?_⟩
  · rw [file, stands.outcomes]
  · rw [file, stands.rest]
  · rw [buffer, stands.buffer]
  · rw [eof, stands.eof]
  · rw [endOfBuffer, stands.endOfBuffer]
  · rw [config, scanned]

/-- At the end of its events the reader reports the end of the file. -/
theorem readPhysicalRecord_of_sees_nil {reader : Reader} (result : Slice)
    (sees : reader.Sees []) :
    (reader.readPhysicalRecord result).1 = kEof ∧
      Ended reader (reader.readPhysicalRecord result).2.2 := by
  obtain ⟨offset, data, stands, scanned⟩ := sees
  have meets := readPhysicalRecord_seek reader offset data result stands.outcomes
  rw [← stands.eq_seek] at meets
  cases parsed : parseAt reader.config (nextStart offset) (data.drop (padding offset)) with
  | none =>
      rw [parsed] at meets
      exact ⟨meets.1, meets.2.2⟩
  | some event =>
      rw [scan, parsed] at scanned
      cases scanned

/-- The scan after the event at hand, from where the reader stands then. -/
theorem sees_seek {reader : Reader} {offset : Nat} {data : Slice} {event : Event}
    {events : List Event} (sound : reader.file.outcomes = [])
    (parsed : parseAt reader.config (nextStart offset) (data.drop (padding offset)) = some event)
    (scanned : scan reader.config offset data = event :: events) :
    (reader.seek event.stop
      ((data.drop (padding offset)).drop (event.stop - nextStart offset))).Sees events := by
  refine ⟨event.stop, _, stands_seek sound _ _, ?_⟩
  rw [scan, parsed] at scanned
  have bounds := parseAt_stop parsed
  have ahead : (data.drop (padding offset)).drop (event.stop - nextStart offset) =
      data.drop (event.stop - offset) := by
    rw [List.drop_drop]
    congr 1
    unfold nextStart at *
    omega
  rw [ahead]
  exact (List.cons.inj scanned).2

/-- Meeting a physical record. -/
theorem readPhysicalRecord_of_sees_record {reader : Reader} {type : BitVec 32} {payload : Slice}
    {start : Nat} {events : List Event} (result : Slice)
    (sees : reader.Sees (.record type payload start :: events)) :
    ∃ after, reader.readPhysicalRecord result = (type, payload, after) ∧ Follows reader after ∧
      after.Sees events ∧
      after.position = BitVec.ofNat 64 (start + (kHeaderSize + payload.length)) := by
  obtain ⟨offset, data, stands, scanned⟩ := sees
  have meets := readPhysicalRecord_seek reader offset data result stands.outcomes
  rw [← stands.eq_seek] at meets
  cases parsed : parseAt reader.config (nextStart offset) (data.drop (padding offset)) with
  | none =>
      rw [scan, parsed] at scanned
      cases scanned
  | some event =>
      have same : event = .record type payload start := by
        rw [scan, parsed] at scanned
        exact (List.cons.inj scanned).1
      subst same
      rw [parsed] at meets
      exact ⟨_, meets, follows_seek _ _ _, sees_seek stands.outcomes parsed scanned,
        position_seek _ _ _⟩

/-- Meeting bytes that are given up on. -/
theorem readPhysicalRecord_of_sees_bad {reader : Reader} {stop : Nat} {drop : Option Drop}
    {events : List Event} (result : Slice) (sees : reader.Sees (.bad stop drop :: events)) :
    ∃ after, (reader.readPhysicalRecord result).1 = kBadRecord ∧
      (reader.readPhysicalRecord result).2.2 = after.reportIfAny drop ∧ Follows reader after ∧
      after.Sees events ∧ after.position = BitVec.ofNat 64 stop := by
  obtain ⟨offset, data, stands, scanned⟩ := sees
  have meets := readPhysicalRecord_seek reader offset data result stands.outcomes
  rw [← stands.eq_seek] at meets
  cases parsed : parseAt reader.config (nextStart offset) (data.drop (padding offset)) with
  | none =>
      rw [scan, parsed] at scanned
      cases scanned
  | some event =>
      have same : event = .bad stop drop := by
        rw [scan, parsed] at scanned
        exact (List.cons.inj scanned).1
      subst same
      rw [parsed] at meets
      exact ⟨_, meets.1, meets.2, follows_seek _ _ _, sees_seek stands.outcomes parsed scanned,
        position_seek _ _ _⟩

end Reader

end MiniLevelDb.Log
