import MiniLevelDb.Db.LogLayout
import MiniLevelDb.Db.LogWriter

/-!
# How a record is cut into physical records

`Cuts` says which physical records a record becomes when it is written from a
given file offset on. As long as `block_offset_` agrees with the file and no
bytes are refused, `AddRecord` appends the physical records of a cut
(`addRecord_cuts`), and both stay in agreement.
-/

namespace MiniLevelDb.Log

open Writer

/-- The physical records of the bytes `data` of a record, from `offset` on. All
but the last one fill their block. -/
inductive Cuts : Nat → Bool → Slice → List Fragment → Prop where
  | ends {offset : Nat} {begins : Bool} {data : Slice}
      (fits : kHeaderSize + data.length ≤ room (nextStart offset)) :
      Cuts offset begins data [⟨fragmentType begins true, data⟩]
  | goesOn {offset : Nat} {begins : Bool} {data later : Slice} {fragments : List Fragment}
      (fills : kHeaderSize + data.length = room (nextStart offset))
      (rest : Cuts (nextStart offset + (kHeaderSize + data.length)) false later fragments) :
      Cuts offset begins (data ++ later) (⟨fragmentType begins false, data⟩ :: fragments)

theorem fragmentType_ne_zero (begins ends : Bool) : fragmentType begins ends ≠ .zero := by
  cases begins <;> cases ends <;> decide

namespace Cuts

variable {offset : Nat} {begins : Bool} {data : Slice} {fragments : List Fragment}

theorem typed (cut : Cuts offset begins data fragments) :
    ∀ fragment ∈ fragments, fragment.Typed := by
  induction cut with
  | ends fits =>
      intro fragment member
      rw [List.mem_singleton.mp member]
      exact fragmentType_ne_zero _ _
  | goesOn fills rest ih =>
      intro fragment member
      rcases List.mem_cons.mp member with rfl | member
      · exact fragmentType_ne_zero _ _
      · exact ih fragment member

theorem fits (cut : Cuts offset begins data fragments) : Fits offset fragments := by
  induction cut with
  | ends fits => exact ⟨fits, trivial⟩
  | goesOn fills rest ih => exact ⟨Nat.le_of_eq fills, ih⟩

/-- The size of a cut: at least the bytes of the record, and no more than eight
for each of them after the first header. -/
theorem length_le (cut : Cuts offset begins data fragments) :
    nextStart offset + data.length ≤ endOffset offset fragments ∧
      endOffset offset fragments ≤ nextStart offset + 8 * data.length +
        if room (nextStart offset) = kHeaderSize then 2 * kHeaderSize else kHeaderSize := by
  induction cut with
  | ends fits =>
      simp only [endOffset, Fragment.size]
      split <;> omega
  | @goesOn offset begins data later fragments fills rest ih =>
      have filled := mod_add_room (nextStart offset)
      rw [← fills] at filled
      have boundary : nextStart (nextStart offset + (kHeaderSize + data.length)) =
          nextStart offset + (kHeaderSize + data.length) := nextStart_eq_self filled
      have block : room (nextStart offset + (kHeaderSize + data.length)) ≠ kHeaderSize := by
        unfold room kHeaderSize kBlockSize at *
        omega
      rw [boundary, if_neg block] at ih
      simp only [endOffset, Fragment.size, List.length_append]
      unfold kHeaderSize at *
      split <;> omega

end Cuts

namespace Writer

/-- `block_offset_` is the offset in the current block of the file. -/
structure Aligned (writer : Writer) : Prop where
  bounded : writer.blockOffset ≤ kBlockSize
  congruent : writer.blockOffset % kBlockSize = writer.dest.contents.length % kBlockSize

/-- Switching blocks leads to the next place where a header may start. -/
theorem switchBlock_aligned {writer : Writer} (aligned : writer.Aligned)
    (spared : writer.switchBlock.dest.refused = writer.dest.refused) :
    writer.switchBlock.dest.contents =
        writer.dest.contents ++ List.replicate (padding writer.dest.contents.length) 0 ∧
      writer.switchBlock.blockOffset = nextStart writer.dest.contents.length % kBlockSize := by
  obtain ⟨bounded, congruent⟩ := aligned
  unfold switchBlock at *
  dsimp only at *
  by_cases short : kBlockSize - writer.blockOffset < kHeaderSize
  · rw [if_pos short] at spared ⊢
    by_cases some_ : kBlockSize - writer.blockOffset > 0
    · rw [if_pos some_] at spared ⊢
      have pad : padding writer.dest.contents.length = kBlockSize - writer.blockOffset := by
        unfold padding room kHeaderSize kBlockSize at *
        split <;> omega
      refine ⟨?_, ?_⟩
      · rw [pad]
        exact WritableFile.append_contents spared
      · unfold nextStart padding room kHeaderSize kBlockSize at *
        dsimp only
        omega
    · rw [if_neg some_]
      have pad : padding writer.dest.contents.length = 0 := by
        unfold padding room kHeaderSize kBlockSize at *
        split <;> omega
      refine ⟨?_, ?_⟩
      · rw [pad]
        exact (List.append_nil _).symm
      · rw [nextStart, pad]
        unfold kBlockSize at *
        dsimp only
        omega
  · rw [if_neg short]
    have pad : padding writer.dest.contents.length = 0 := by
      unfold padding room kHeaderSize kBlockSize at *
      split <;> omega
    refine ⟨?_, ?_⟩
    · rw [pad]
      exact (List.append_nil _).symm
    · rw [nextStart, pad]
      unfold kHeaderSize kBlockSize at *
      omega

theorem refused_le_emitPhysicalRecord (writer : Writer) (type : RecordType) (data : Slice) :
    writer.dest.refused ≤ (writer.emitPhysicalRecord type data).2.dest.refused := by
  unfold emitPhysicalRecord
  dsimp only
  split
  · split
    · rw [Destination.flush_writableFile, WritableFile.flush_refused]
      exact (WritableFile.refused_le_append _ _).trans (WritableFile.refused_le_append _ _)
    · exact (WritableFile.refused_le_append _ _).trans (WritableFile.refused_le_append _ _)
  · exact WritableFile.refused_le_append _ _

theorem refused_le_switchBlock (writer : Writer) :
    writer.dest.refused ≤ writer.switchBlock.dest.refused := by
  unfold switchBlock
  dsimp only
  split
  · dsimp only
    split
    · exact WritableFile.refused_le_append _ _
    · exact Nat.le_refl _
  · exact Nat.le_refl _

theorem refused_le_emitFragment (writer : Writer) (data : Slice) (begins : Bool) :
    writer.switchBlock.dest.refused ≤ (writer.emitFragment data begins).2.dest.refused :=
  refused_le_emitPhysicalRecord _ _ _

theorem refused_le_addRecordLoop (writer : Writer) (data : Slice) (begins : Bool) :
    (writer.emitFragment data begins).2.dest.refused ≤
      (writer.addRecordLoop data begins).2.dest.refused := by
  induction writer, data, begins using addRecordLoop.induct with
  | case1 writer data begins continues ih =>
      rw [addRecordLoop, if_pos continues]
      exact (refused_le_switchBlock _).trans ((refused_le_emitFragment _ _ _).trans ih)
  | case2 writer data begins stops =>
      rw [addRecordLoop, if_neg stops]

/-- Emitting a physical record appends its bytes. -/
theorem emitPhysicalRecord_contents {writer : Writer} {type : RecordType} {data : Slice}
    (spared : (writer.emitPhysicalRecord type data).2.dest.refused = writer.dest.refused) :
    (writer.emitPhysicalRecord type data).2.dest.contents =
      writer.dest.contents ++ (⟨type, data⟩ : Fragment).bytes := by
  have header : encodeFixed32 (Crc32c.mask (Crc32c.extend (typeCrc type) data)) ++
      [BitVec.ofNat 8 (data.length &&& 0xff), BitVec.ofNat 8 (data.length >>> 8), type.toByte] =
        (⟨type, data⟩ : Fragment).header := by
    rw [typeCrc, Crc32c.extend_value]
    rfl
  have headed := writer.dest.refused_le_append (⟨type, data⟩ : Fragment).header
  have positive : 0 < (⟨type, data⟩ : Fragment).header.length := by
    rw [Fragment.length_header]
    decide
  have passes := writer.dest.append_isOk positive
  have headerContents := @WritableFile.append_contents writer.dest (⟨type, data⟩ : Fragment).header
  simp only [emitPhysicalRecord, header, Destination.append_writableFile,
    Destination.flush_writableFile] at spared ⊢
  generalize writer.dest.append (⟨type, data⟩ : Fragment).header = written at *
  have stored := written.2.refused_le_append data
  have dataContents := @WritableFile.append_contents written.2 data
  generalize written.2.append data = done at *
  by_cases ok : written.1.isOk = true
  · have kept : (if done.1.isOk then done.2.flush else (done.1, done.2)).2.refused =
          done.2.refused ∧
        (if done.1.isOk then done.2.flush else (done.1, done.2)).2.contents =
          done.2.contents := by
      split
      · exact ⟨WritableFile.flush_refused _, WritableFile.flush_contents _⟩
      · exact ⟨rfl, rfl⟩
    rw [if_pos ok] at spared ⊢
    rw [kept.1] at spared
    rw [kept.2, dataContents (by omega), headerContents (by omega), List.append_assoc,
      Fragment.bytes]
  · rw [if_neg ok] at spared
    exact absurd (passes spared) ok

/-- One iteration of the loop of `AddRecord`: it appends one physical record, and
the data it leaves starts a new block. -/
theorem emitFragment_aligned {writer : Writer} {data : Slice} {begins : Bool}
    (aligned : writer.Aligned)
    (spared : (writer.emitFragment data begins).2.dest.refused = writer.dest.refused) :
    ∃ fragment : Fragment,
      (writer.emitFragment data begins).2.dest.contents =
          writer.dest.contents ++ encodeFrom writer.dest.contents.length [fragment] ∧
        (writer.emitFragment data begins).2.Aligned ∧
        fragment.size ≤ room (nextStart writer.dest.contents.length) ∧ fragment.Typed ∧
        ((writer.unwritten data = [] ∧ fragment = ⟨fragmentType begins true, data⟩) ∨
          (0 < (writer.unwritten data).length ∧
            fragment.size = room (nextStart writer.dest.contents.length) ∧
            fragment.type = fragmentType begins false ∧
            data = fragment.payload ++ writer.unwritten data)) := by
  have before := refused_le_switchBlock writer
  have after := refused_le_emitFragment writer data begins
  obtain ⟨contents, offset⟩ := switchBlock_aligned aligned (by omega)
  have length : writer.switchBlock.dest.contents.length =
      nextStart writer.dest.contents.length := by
    rw [contents, List.length_append, List.length_replicate, nextStart]
  have space : kBlockSize - writer.switchBlock.blockOffset =
      room (nextStart writer.dest.contents.length) := by
    rw [offset, room]
  have header := kHeaderSize_le_room_nextStart writer.dest.contents.length
  have emitted := @emitPhysicalRecord_contents writer.switchBlock
    (fragmentType begins (data.length == writer.switchBlock.fragmentLength data))
    (data.take (writer.switchBlock.fragmentLength data)) (by
      change (writer.emitFragment data begins).2.dest.refused = _
      omega)
  have moved : (writer.emitFragment data begins).2.blockOffset =
      writer.switchBlock.blockOffset +
        (kHeaderSize + (data.take (writer.switchBlock.fragmentLength data)).length) := rfl
  have count : writer.switchBlock.fragmentLength data =
      min data.length (room (nextStart writer.dest.contents.length) - kHeaderSize) := by
    simp only [fragmentLength, space]
    split <;> omega
  have taken : (data.take (writer.switchBlock.fragmentLength data)).length =
      writer.switchBlock.fragmentLength data := by
    rw [List.length_take, count]
    omega
  refine ⟨⟨fragmentType begins (data.length == writer.switchBlock.fragmentLength data),
    data.take (writer.switchBlock.fragmentLength data)⟩, ?_, ⟨?_, ?_⟩, ?_,
      fragmentType_ne_zero _ _, ?_⟩
  · change (writer.switchBlock.emitPhysicalRecord ..).2.dest.contents = _
    rw [emitted, contents, encodeFrom, encodeFrom, List.append_nil, List.append_assoc]
  · have := switchBlock_blockOffset_le writer
    rw [moved, taken, count]
    omega
  · change _ = List.length (writer.switchBlock.emitPhysicalRecord ..).2.dest.contents % _
    rw [emitted, List.length_append, Fragment.length_bytes, moved, length, offset, Fragment.size,
      Nat.mod_add_mod]
  · rw [Fragment.size, taken, count]
    omega
  · by_cases ends : data.length ≤ room (nextStart writer.dest.contents.length) - kHeaderSize
    · left
      have all : writer.switchBlock.fragmentLength data = data.length := by omega
      rw [unwritten, all, List.drop_length, List.take_length, beq_self_eq_true]
      exact ⟨rfl, rfl⟩
    · right
      have full : writer.switchBlock.fragmentLength data =
          room (nextStart writer.dest.contents.length) - kHeaderSize := by omega
      refine ⟨?_, ?_, ?_, ?_⟩
      · rw [unwritten, List.length_drop]
        omega
      · rw [Fragment.size, taken, full]
        omega
      · rw [full, beq_eq_false_iff_ne.mpr (by omega)]
      · exact (List.take_append_drop _ _).symm

/-- `AddRecord` over a file that refuses no bytes: it appends physical records of
the format, keeps `block_offset_` in agreement with the file, and reports success
only for all physical records of a cut. -/
theorem addRecordLoop_cuts {writer : Writer} {data : Slice} {begins : Bool}
    (aligned : writer.Aligned)
    (spared : (writer.addRecordLoop data begins).2.dest.refused = writer.dest.refused) :
    ∃ fragments,
      (writer.addRecordLoop data begins).2.dest.contents =
          writer.dest.contents ++ encodeFrom writer.dest.contents.length fragments ∧
        (writer.addRecordLoop data begins).2.Aligned ∧
        Fits writer.dest.contents.length fragments ∧
        (∀ fragment ∈ fragments, fragment.Typed) ∧
        ((writer.addRecordLoop data begins).1.isOk = true →
          Cuts writer.dest.contents.length begins data fragments) := by
  induction writer, data, begins using addRecordLoop.induct with
  | case1 writer data begins continues ih =>
      rw [addRecordLoop, if_pos continues] at spared ⊢
      have first := refused_le_switchBlock writer
      have second := refused_le_emitFragment writer data begins
      have third := refused_le_switchBlock (writer.emitFragment data begins).2
      have fourth := refused_le_emitFragment (writer.emitFragment data begins).2
        (writer.unwritten data) false
      have fifth := refused_le_addRecordLoop (writer.emitFragment data begins).2
        (writer.unwritten data) false
      obtain ⟨fragment, contents, alignedNext, fits, typed, cases⟩ :=
        @emitFragment_aligned writer data begins aligned (by omega)
      obtain ⟨fragments, written, alignedLast, laterFits, laterTyped, cuts⟩ :=
        ih alignedNext (by omega)
      have length : (writer.emitFragment data begins).2.dest.contents.length =
          nextStart writer.dest.contents.length + fragment.size := by
        rw [contents, List.length_append, length_encodeFrom]
        rfl
      rw [length] at written laterFits cuts
      refine ⟨fragment :: fragments, ?_, alignedLast, ⟨fits, laterFits⟩, ?_, ?_⟩
      · rw [written, contents, List.append_assoc]
        exact congrArg _ (encodeFrom_append _ [fragment] fragments).symm
      · exact List.forall_mem_cons.mpr ⟨typed, laterTyped⟩
      · intro passed
        rcases cases with ⟨nothing, _⟩ | ⟨_, fills, type, split⟩
        · rw [nothing] at continues
          exact absurd continues.2 (by decide)
        · have step := @Cuts.goesOn _ begins _ _ _ fills (cuts passed)
          rw [← split, ← type] at step
          exact step
  | case2 writer data begins stops =>
      rw [addRecordLoop, if_neg stops] at spared ⊢
      obtain ⟨fragment, contents, alignedNext, fits, typed, cases⟩ :=
        @emitFragment_aligned writer data begins aligned spared
      refine ⟨[fragment], contents, alignedNext, ⟨fits, trivial⟩, ?_, ?_⟩
      · exact List.forall_mem_singleton.mpr typed
      · intro passed
        rcases cases with ⟨_, rfl⟩ | ⟨more, _⟩
        · exact .ends fits
        · exact absurd ⟨passed, more⟩ stops

/-- A file whose every call succeeds stays one, and refuses nothing. -/
structure Sound (before after : WritableFile) : Prop where
  outcomes : after.outcomes = []
  refused : after.refused = before.refused

theorem switchBlock_sound {writer : Writer} (sound : writer.dest.outcomes = []) :
    Sound writer.dest writer.switchBlock.dest := by
  unfold switchBlock
  dsimp only
  split
  · dsimp only
    split
    · rw [Destination.append_writableFile, WritableFile.append_sound _ sound]
      exact ⟨sound, rfl⟩
    · exact ⟨sound, rfl⟩
  · exact ⟨sound, rfl⟩

theorem emitPhysicalRecord_sound {writer : Writer} (type : RecordType) (data : Slice)
    (sound : writer.dest.outcomes = []) :
    (writer.emitPhysicalRecord type data).1 = .ok ∧
      Sound writer.dest (writer.emitPhysicalRecord type data).2.dest := by
  simp only [emitPhysicalRecord, Destination.append_writableFile, Destination.flush_writableFile,
    WritableFile.append_sound _ sound, Status.isOk_ok, ↓reduceIte]
  have again : ∀ contents,
      ({ writer.dest with contents := contents } : WritableFile).outcomes = [] :=
    fun _ => sound
  simp only [WritableFile.append_sound _ (again _), Status.isOk_ok, ↓reduceIte,
    WritableFile.flush_sound (again _)]
  exact ⟨trivial, sound, rfl⟩

theorem emitFragment_sound {writer : Writer} (data : Slice) (begins : Bool)
    (sound : writer.dest.outcomes = []) :
    (writer.emitFragment data begins).1 = .ok ∧
      Sound writer.dest (writer.emitFragment data begins).2.dest := by
  have switched := switchBlock_sound sound
  obtain ⟨status, emitted⟩ := emitPhysicalRecord_sound
    (fragmentType begins (data.length == writer.switchBlock.fragmentLength data))
    (data.take (writer.switchBlock.fragmentLength data)) switched.outcomes
  exact ⟨status, emitted.outcomes, emitted.refused.trans switched.refused⟩

theorem addRecordLoop_sound {writer : Writer} {data : Slice} {begins : Bool}
    (sound : writer.dest.outcomes = []) :
    (writer.addRecordLoop data begins).1 = .ok ∧
      Sound writer.dest (writer.addRecordLoop data begins).2.dest := by
  induction writer, data, begins using addRecordLoop.induct with
  | case1 writer data begins continues ih =>
      obtain ⟨_, emitted⟩ := emitFragment_sound data begins sound
      obtain ⟨status, rest⟩ := ih emitted.outcomes
      rw [addRecordLoop, if_pos continues]
      exact ⟨status, rest.outcomes, rest.refused.trans emitted.refused⟩
  | case2 writer data begins stops =>
      rw [addRecordLoop, if_neg stops]
      exact emitFragment_sound data begins sound

end Writer

/-! ## Written logs -/

/-- A call of `AddRecord`: the record, the length of the file before and after,
and the status returned. -/
structure Call where
  record : Slice
  before : Nat
  after : Nat
  status : Status

/-- The file offset of the header of the record's first physical record, which
follows a trailer when the block is used up. -/
def Call.start (call : Call) : Nat :=
  nextStart call.before

/-- A run of `AddRecord` calls. -/
def Writer.addRecords (writer : Writer) : List Slice → List Call × Writer
  | [] => ([], writer)
  | record :: later =>
      let added := writer.addRecord record
      let rest := added.2.addRecords later
      (⟨record, writer.dest.contents.length, added.2.dest.contents.length, added.1⟩ :: rest.1,
        rest.2)

/-- Writing in sessions, each of which opens the file with
`Writer(dest, dest_length)`; over the empty file this is `Writer(dest)`. -/
def writeSessions (dest : WritableFile) : List (List Slice) → List Call × WritableFile
  | [] => ([], dest)
  | records :: later =>
      let session := (Writer.newAt dest dest.contents.length).addRecords records
      let rest := writeSessions session.2.dest later
      (session.1 ++ rest.1, rest.2)

/-- An empty file whose every call succeeds. -/
def emptyFile : WritableFile := ⟨[], [], 0⟩

/-- A record as it lies in the file: the file offset before it and its physical
records. -/
structure Entry where
  record : Slice
  offset : Nat
  fragments : List Fragment
  cut : Cuts offset true record fragments

namespace Entry

/-- The file offset of the first header. -/
def start (entry : Entry) : Nat :=
  nextStart entry.offset

/-- The file offset after the last physical record. -/
def stop (entry : Entry) : Nat :=
  endOffset entry.offset entry.fragments

/-- The physical records with their file offsets. -/
def placed (entry : Entry) : List (Nat × Fragment) :=
  layout entry.offset entry.fragments

/-- The call that wrote the entry. -/
def call (entry : Entry) : Call :=
  ⟨entry.record, entry.offset, entry.stop, .ok⟩

end Entry

/-- The entries lie one after the other, from `offset` on. -/
def Chained (offset : Nat) : List Entry → Prop
  | [] => True
  | entry :: later => entry.offset = offset ∧ Chained entry.stop later

/-- The physical records of all entries. -/
def fragmentsOf (entries : List Entry) : List Fragment :=
  entries.flatMap Entry.fragments

theorem fragmentsOf_cons (entry : Entry) (later : List Entry) :
    fragmentsOf (entry :: later) = entry.fragments ++ fragmentsOf later :=
  List.flatMap_cons ..

theorem fragmentsOf_append (first second : List Entry) :
    fragmentsOf (first ++ second) = fragmentsOf first ++ fragmentsOf second :=
  List.flatMap_append ..

theorem endOffset_single (entry : Entry) :
    endOffset entry.offset (fragmentsOf [entry]) = entry.stop := by
  rw [fragmentsOf_cons, fragmentsOf, List.flatMap_nil, List.append_nil, Entry.stop]

theorem Chained.endOffset_cons {offset : Nat} {entry : Entry} {later : List Entry}
    (chained : Chained offset (entry :: later)) :
    endOffset offset (fragmentsOf (entry :: later)) =
      endOffset entry.stop (fragmentsOf later) := by
  rw [fragmentsOf_cons, endOffset_append, Entry.stop, chained.1]

theorem Chained.typed {offset : Nat} {entries : List Entry} (_ : Chained offset entries) :
    ∀ fragment ∈ fragmentsOf entries, fragment.Typed := by
  intro fragment member
  obtain ⟨entry, _, inside⟩ := List.mem_flatMap.mp member
  exact entry.cut.typed fragment inside

theorem Chained.fits {offset : Nat} {entries : List Entry} (chained : Chained offset entries) :
    Fits offset (fragmentsOf entries) := by
  induction entries generalizing offset with
  | nil => trivial
  | cons entry later ih =>
      obtain ⟨rfl, rest⟩ := chained
      rw [fragmentsOf_cons, fits_append]
      exact ⟨entry.cut.fits, ih rest⟩

theorem Chained.layout {offset : Nat} {entries : List Entry} (chained : Chained offset entries) :
    layout offset (fragmentsOf entries) = entries.flatMap Entry.placed := by
  induction entries generalizing offset with
  | nil => rfl
  | cons entry later ih =>
      obtain ⟨rfl, rest⟩ := chained
      rw [fragmentsOf_cons, layout_append, List.flatMap_cons]
      exact congrArg _ (ih rest)

/-- A record that leaves room in its block is one physical record. -/
theorem Entry.stop_of_short (entry : Entry)
    (short : kHeaderSize + entry.record.length < room entry.start) :
    entry.stop = entry.start + (kHeaderSize + entry.record.length) := by
  obtain ⟨record, offset, fragments, cut⟩ := entry
  cases cut with
  | ends fits => rfl
  | @goesOn _ _ data later _ fills rest =>
      change kHeaderSize + (data ++ later).length < room (nextStart offset) at short
      rw [List.length_append] at short
      omega

theorem le_endOffset (offset : Nat) (fragments : List Fragment) :
    offset ≤ endOffset offset fragments :=
  length_encodeFrom offset fragments ▸ Nat.le_add_right _ _

/-- An entry has at least one physical record. -/
theorem Entry.start_lt_stop (entry : Entry) : entry.start < entry.stop := by
  have grows : ∀ fragment later,
      nextStart entry.offset < endOffset entry.offset (fragment :: later) := by
    intro fragment later
    have := le_endOffset (nextStart entry.offset + fragment.size) later
    have := fragment.size_pos
    rw [endOffset]
    omega
  obtain ⟨record, offset, fragments, cut⟩ := entry
  cases cut with
  | ends fits => exact grows _ _
  | goesOn fills rest => exact grows _ _

theorem Chained.le_offset {offset : Nat} {entries : List Entry} {entry : Entry}
    (chained : Chained offset entries) (member : entry ∈ entries) : offset ≤ entry.offset := by
  induction entries generalizing offset with
  | nil => cases member
  | cons first later ih =>
      obtain ⟨rfl, rest⟩ := chained
      rcases List.mem_cons.mp member with rfl | member
      · exact Nat.le_refl _
      · exact (le_endOffset _ _).trans (ih rest member)

theorem chained_append {offset : Nat} {first second : List Entry}
    (chained : Chained offset first)
    (rest : Chained (endOffset offset (fragmentsOf first)) second) :
    Chained offset (first ++ second) := by
  induction first generalizing offset with
  | nil => exact rest
  | cons entry later ih =>
      obtain ⟨rfl, tail⟩ := chained
      rw [fragmentsOf_cons, endOffset_append] at rest
      exact ⟨rfl, ih tail rest⟩

/-- An entry of a chain, what is before it and what comes after it. -/
theorem Chained.split {offset : Nat} {first later : List Entry} {entry : Entry}
    (chained : Chained offset (first ++ entry :: later)) :
    Chained offset first ∧ entry.offset = endOffset offset (fragmentsOf first) ∧
      Chained entry.stop later := by
  induction first generalizing offset with
  | nil => exact ⟨trivial, chained.1, chained.2⟩
  | cons other rest ih =>
      obtain ⟨rfl, tail⟩ := chained
      obtain ⟨before, place, after⟩ := ih tail
      refine ⟨⟨rfl, before⟩, ?_, after⟩
      rw [place, fragmentsOf_cons, endOffset_append]
      rfl

/-- What a run of calls adds to the file, when every append succeeds. -/
structure Adds (before after : WritableFile) (calls : List Call) (entries : List Entry) :
    Prop where
  sound : after.outcomes = []
  chained : Chained before.contents.length entries
  contents : after.contents =
    before.contents ++ encodeFrom before.contents.length (fragmentsOf entries)
  calls : calls = entries.map Entry.call

namespace Adds

theorem length {before after : WritableFile} {calls : List Call} {entries : List Entry}
    (adds : Adds before after calls entries) :
    after.contents.length = endOffset before.contents.length (fragmentsOf entries) := by
  rw [adds.contents, List.length_append, length_encodeFrom]

theorem append {before middle after : WritableFile} {first second : List Call}
    {firstEntries secondEntries : List Entry} (adds : Adds before middle first firstEntries)
    (more : Adds middle after second secondEntries) :
    Adds before after (first ++ second) (firstEntries ++ secondEntries) where
  sound := more.sound
  chained := chained_append adds.chained (by rw [← adds.length]; exact more.chained)
  contents := by
    rw [more.contents, adds.length, adds.contents, List.append_assoc, ← encodeFrom_append,
      fragmentsOf_append]
  calls := by
    rw [adds.calls, more.calls, List.map_append]

end Adds

/-- One call over a sound file. -/
theorem Writer.addRecord_adds {writer : Writer} (record : Slice) (aligned : writer.Aligned)
    (sound : writer.dest.outcomes = []) :
    (writer.addRecord record).2.Aligned ∧
      ∃ entry, Adds writer.dest (writer.addRecord record).2.dest
        [⟨record, writer.dest.contents.length, (writer.addRecord record).2.dest.contents.length,
          (writer.addRecord record).1⟩] [entry] := by
  obtain ⟨status, after⟩ := @addRecordLoop_sound writer record true sound
  obtain ⟨fragments, contents, alignedAfter, _, _, cuts⟩ :=
    @addRecordLoop_cuts writer record true aligned after.refused
  have cut := cuts (by rw [status]; rfl)
  refine ⟨alignedAfter, ⟨record, writer.dest.contents.length, fragments, cut⟩,
    after.outcomes, ⟨rfl, trivial⟩, ?_, ?_⟩
  · rw [fragmentsOf_cons, fragmentsOf, List.flatMap_nil, List.append_nil]
    exact contents
  · have length : (writer.addRecord record).2.dest.contents.length =
        endOffset writer.dest.contents.length fragments := by
      rw [addRecord, contents, List.length_append, length_encodeFrom]
    rw [length, addRecord, status]
    rfl

theorem Writer.addRecords_adds (records : List Slice) :
    ∀ {writer : Writer}, writer.Aligned → writer.dest.outcomes = [] →
      ∃ entries, Adds writer.dest (writer.addRecords records).2.dest
        (writer.addRecords records).1 entries := by
  induction records with
  | nil =>
      intro writer _ sound
      exact ⟨[], sound, trivial, (List.append_nil _).symm, rfl⟩
  | cons record later ih =>
      intro writer aligned sound
      obtain ⟨alignedNext, entry, adds⟩ := writer.addRecord_adds record aligned sound
      obtain ⟨entries, rest⟩ := ih alignedNext adds.sound
      exact ⟨entry :: entries, adds.append rest⟩

theorem newAt_aligned (dest : WritableFile) : (newAt dest dest.contents.length).Aligned where
  bounded := Nat.le_of_lt (Nat.mod_lt _ (by decide))
  congruent := Nat.mod_mod _ _

/-- Whatever the sessions, a log is a chain of entries, one for each call. -/
theorem writeSessions_adds (sessions : List (List Slice)) :
    ∀ dest : WritableFile, dest.outcomes = [] →
      ∃ entries, Adds dest (writeSessions dest sessions).2 (writeSessions dest sessions).1
        entries := by
  induction sessions with
  | nil =>
      intro dest sound
      exact ⟨[], sound, trivial, (List.append_nil _).symm, rfl⟩
  | cons records later ih =>
      intro dest sound
      obtain ⟨first, adds⟩ := addRecords_adds records (newAt_aligned dest) sound
      obtain ⟨second, rest⟩ := ih _ adds.sound
      exact ⟨first ++ second, adds.append rest⟩

/-- Each call is about the record it was given. -/
theorem Writer.addRecords_records (writer : Writer) (records : List Slice) :
    (writer.addRecords records).1.map Call.record = records := by
  induction records generalizing writer with
  | nil => rfl
  | cons record later ih => rw [addRecords, List.map_cons, ih]

/-- The calls of a session are those of its records. -/
theorem writeSessions_records (sessions : List (List Slice)) :
    ∀ dest, (writeSessions dest sessions).1.map Call.record = sessions.flatten := by
  induction sessions with
  | nil => exact fun _ => rfl
  | cons records later ih =>
      intro dest
      rw [writeSessions, List.map_append, ih, addRecords_records, List.flatten_cons]

/-- A log written in one session. -/
theorem writeSessions_entries (records : List Slice) :
    ∃ entries, Adds emptyFile (writeSessions emptyFile [records]).2
        (writeSessions emptyFile [records]).1 entries ∧ entries.map Entry.record = records := by
  obtain ⟨entries, adds⟩ := writeSessions_adds [records] emptyFile rfl
  refine ⟨entries, adds, ?_⟩
  have calls := writeSessions_records [records] emptyFile
  rw [adds.calls, List.map_map, List.flatten_cons, List.flatten_nil, List.append_nil] at calls
  exact calls

/-- A log of a single record. -/
theorem writeSessions_single (record : Slice) :
    ∃ entry, Adds emptyFile (writeSessions emptyFile [[record]]).2
        (writeSessions emptyFile [[record]]).1 [entry] ∧
      entry.record = record ∧ entry.offset = 0 ∧ record.length ≤ entry.stop ∧
      entry.stop ≤ 8 * record.length + kHeaderSize := by
  obtain ⟨entries, adds, records⟩ := writeSessions_entries [record]
  obtain ⟨entry, rfl, recorded⟩ := List.map_eq_singleton_iff.mp records
  have offset : entry.offset = 0 := adds.chained.1
  have bounds := entry.cut.length_le
  rw [offset, recorded, nextStart_eq_self (by decide), Nat.zero_add, Nat.zero_add,
    if_neg (by decide)] at bounds
  refine ⟨entry, adds, recorded, offset, ?_, ?_⟩
  · rw [Entry.stop, offset]
    exact bounds.1
  · rw [Entry.stop, offset]
    exact bounds.2

end MiniLevelDb.Log
