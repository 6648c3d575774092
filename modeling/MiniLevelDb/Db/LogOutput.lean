import MiniLevelDb.Db.LogRecords
import Mathlib.Data.List.Forall2

/-!
# What a writer leaves in the file

`Formatted` is the log format of `doc/log.md` as a property of a file: block by block
and record by record. Everything that `AddRecord` writes from an empty file on is
formatted, and in each round of its loop the asserts hold.
-/

namespace MiniLevelDb.Log

open Writer

/-- The bytes between two multiples of `kBlockSize`. -/
def block (contents : Slice) (index : Nat) : Slice :=
  (contents.drop (index * kBlockSize)).take kBlockSize

/-- The physical records that start in a block. -/
def inBlock (index : Nat) (placed : List (Nat × Fragment)) : List (Nat × Fragment) :=
  placed.filter fun placed => placed.1 / kBlockSize = index

/-- The physical records of one record, with their file offsets. -/
structure IsRecord (record : Slice) (parts : List (Nat × Fragment)) : Prop where
  payload : parts.flatMap (·.2.payload) = record
  types : parts.map (·.2.type) = [.full] ∨
    ∃ count, parts.map (·.2.type) = .first :: (List.replicate count .middle ++ [.last])
  fills : ∀ part ∈ parts, part.2.type = .first ∨ part.2.type = .middle →
    (part.1 + part.2.size) % kBlockSize = 0

/-- The header of a physical record: checksum, length and type. -/
def HeaderHolds (header : Slice) (type : RecordType) (payload : Slice) : Prop :=
  type ≠ .zero ∧ ∃ low high : Byte,
    header = encodeFixed32 (Crc32c.mask (Crc32c.value (type.toByte :: payload))) ++
      [low, high, type.toByte] ∧
    low.toNat + 256 * high.toNat = payload.length

/-- The log format: the physical records, grouped by record, lie one after the other,
each in one block, and in a complete block at most six zeros follow them. -/
structure Formatted (contents : Slice) (records : List Slice)
    (logical : List (List (Nat × Fragment))) : Prop where
  records : List.Forall₂ IsRecord records logical
  blocks : ∀ index, ∃ trailer ≤ 6,
    block contents index =
      (inBlock index logical.flatten).flatMap (·.2.bytes) ++ List.replicate trailer 0 ∧
    (0 < trailer → (block contents index).length = kBlockSize)
  inside : ∀ placed ∈ logical.flatten, placed.1 % kBlockSize + placed.2.size ≤ kBlockSize ∧
    (contents.drop placed.1).take placed.2.size = placed.2.bytes
  headers : ∀ placed ∈ logical.flatten,
    HeaderHolds placed.2.header placed.2.type placed.2.payload
  ordered : logical.flatten.Pairwise fun placed later => placed.1 + placed.2.size ≤ later.1

section Layout

variable {offset : Nat} {fragments : List Fragment}

/-- Up to the end of a block, a written log is its physical records and then zeros. -/
theorem encodeFrom_take_block {stop : Nat} (aligned : stop % kBlockSize = 0)
    (before : offset ≤ stop) (near : stop - kBlockSize ≤ offset) (fits : Fits offset fragments) :
    ∃ trailer ≤ 6,
      (encodeFrom offset fragments).take (stop - offset) =
        ((layout offset fragments).filter (·.1 < stop)).flatMap (·.2.bytes) ++
          List.replicate trailer 0 ∧
      (0 < trailer →
        offset + ((encodeFrom offset fragments).take (stop - offset)).length = stop) := by
  induction fragments generalizing offset with
  | nil => exact ⟨0, Nat.zero_le _, by simp [encodeFrom, layout], by simp⟩
  | cons fragment later ih =>
      by_cases starts : nextStart offset < stop
      · have unpadded : padding offset = 0 := by
          unfold nextStart padding room kHeaderSize kBlockSize at *
          split at starts <;> split <;> omega
        have start : nextStart offset = offset := by rw [nextStart, unpadded, Nat.add_zero]
        have whole : fragment.size ≤ stop - offset := by
          have size := fits.1
          rw [start] at size starts
          unfold room kBlockSize at *
          omega
        obtain ⟨trailer, short, bytes, full⟩ :=
          @ih (nextStart offset + fragment.size) (by omega) (by omega) fits.2
        have taken : (encodeFrom offset (fragment :: later)).take (stop - offset) =
            fragment.bytes ++ (encodeFrom (nextStart offset + fragment.size) later).take
              (stop - (nextStart offset + fragment.size)) := by
          rw [encodeFrom, unpadded, List.replicate_zero, List.nil_append, List.take_append,
            Fragment.length_bytes, List.take_of_length_le (by rwa [Fragment.length_bytes]), start,
            Nat.sub_sub]
        refine ⟨trailer, short, ?_, fun some_ => ?_⟩
        · rw [taken, bytes, layout, List.filter_cons, if_pos (decide_eq_true starts),
            List.flatMap_cons, List.append_assoc]
        · have reached := full some_
          rw [taken, List.length_append, Fragment.length_bytes]
          omega
      · -- the next physical record belongs to a later block
        have padded : stop - offset ≤ padding offset := by
          unfold nextStart at starts
          omega
        have short : stop - offset ≤ 6 := by
          refine padded.trans ?_
          unfold padding kHeaderSize
          split <;> omega
        have taken : (encodeFrom offset (fragment :: later)).take (stop - offset) =
            List.replicate (stop - offset) 0 := by
          rw [encodeFrom, List.append_assoc, List.take_append_of_le_length
            (by rwa [List.length_replicate]), List.take_replicate, Nat.min_eq_left padded]
        have none_ : (layout offset (fragment :: later)).filter (·.1 < stop) = [] := by
          apply List.filter_eq_nil_iff.mpr
          intro placed member
          have after := nextStart_le_of_mem_layout member
          rw [decide_eq_true_eq]
          omega
        refine ⟨stop - offset, short, ?_, fun _ => ?_⟩
        · rw [taken, none_, List.flatMap_nil, List.nil_append]
        · rw [taken, List.length_replicate]
          omega

/-- A block of a written log. -/
theorem encodeFrom_block (fits : Fits 0 fragments) (index : Nat) :
    ∃ trailer ≤ 6,
      block (encodeFrom 0 fragments) index =
        (inBlock index (layout 0 fragments)).flatMap (·.2.bytes) ++ List.replicate trailer 0 ∧
      (0 < trailer → (block (encodeFrom 0 fragments) index).length = kBlockSize) := by
  have boundary : index * kBlockSize % kBlockSize = 0 := Nat.mul_mod_left _ _
  have nextBoundary : (index + 1) * kBlockSize % kBlockSize = 0 := Nat.mul_mod_left _ _
  have size : (index + 1) * kBlockSize = index * kBlockSize + kBlockSize := Nat.succ_mul _ _
  obtain ⟨later, laterFits, -, dropped, placed⟩ :=
    encodeFrom_drop boundary (Nat.zero_le _) fits
  rw [Nat.sub_zero] at dropped
  obtain ⟨trailer, short, taken, full⟩ :=
    encodeFrom_take_block nextBoundary (by omega) (by omega) laterFits
  rw [size, Nat.add_sub_cancel_left] at taken full
  have same : (layout (index * kBlockSize) later).filter
      (·.1 < index * kBlockSize + kBlockSize) = inBlock index (layout 0 fragments) := by
    rw [placed, List.filter_filter, inBlock]
    refine List.filter_congr fun placed _ => ?_
    rw [← Bool.decide_and, decide_eq_decide, Nat.div_eq_iff (by decide)]
    unfold kBlockSize
    omega
  rw [same] at taken
  refine ⟨trailer, short, ?_, fun some_ => ?_⟩
  · rw [block, dropped, taken]
  · have reached := full some_
    rw [block, dropped]
    omega

theorem layout_payload : (layout offset fragments).flatMap (·.2.payload) =
    fragments.flatMap Fragment.payload := by
  induction fragments generalizing offset with
  | nil => rfl
  | cons fragment later ih => rw [layout, List.flatMap_cons, List.flatMap_cons, ih]

theorem layout_types : (layout offset fragments).map (·.2.type) =
    fragments.map Fragment.type := by
  induction fragments generalizing offset with
  | nil => rfl
  | cons fragment later ih => rw [layout, List.map_cons, List.map_cons, ih]

end Layout

namespace Cuts

variable {offset : Nat} {begins : Bool} {data : Slice} {fragments : List Fragment}

theorem payload (cut : Cuts offset begins data fragments) :
    fragments.flatMap Fragment.payload = data := by
  induction cut with
  | ends fits => exact List.append_nil _
  | goesOn fills rest ih => rw [List.flatMap_cons, ih]

/-- After the first one, physical records are of the middle until the last one. -/
theorem types_continued (cut : Cuts offset begins data fragments) (goesOn : begins = false) :
    ∃ count, fragments.map Fragment.type = List.replicate count .middle ++ [.last] := by
  induction cut with
  | ends fits =>
      subst goesOn
      exact ⟨0, rfl⟩
  | goesOn fills rest ih =>
      subst goesOn
      obtain ⟨count, types⟩ := ih rfl
      refine ⟨count + 1, ?_⟩
      rw [List.map_cons, types]
      rfl

theorem types (cut : Cuts offset true data fragments) :
    fragments.map Fragment.type = [.full] ∨
      ∃ count, fragments.map Fragment.type =
        .first :: (List.replicate count .middle ++ [.last]) := by
  cases cut with
  | ends fits => exact .inl rfl
  | goesOn fills rest =>
      obtain ⟨count, types⟩ := rest.types_continued rfl
      refine .inr ⟨count, ?_⟩
      rw [List.map_cons, types]
      rfl

/-- A physical record that does not end its record fills its block. -/
theorem fills (cut : Cuts offset begins data fragments) :
    ∀ part ∈ layout offset fragments, part.2.type = .first ∨ part.2.type = .middle →
      (part.1 + part.2.size) % kBlockSize = 0 := by
  induction cut with
  | @ends offset begins data fits =>
      intro part member goesOn
      rw [layout, layout, List.mem_singleton] at member
      subst member
      cases begins <;> simp [fragmentType] at goesOn
  | @goesOn offset begins data later fragments fills rest ih =>
      intro part member goesOn
      rcases List.mem_cons.mp member with rfl | member
      · have filled := mod_add_room (nextStart offset)
        rw [← fills] at filled
        exact filled
      · exact ih part member goesOn

theorem isRecord (cut : Cuts offset true data fragments) :
    IsRecord data (layout offset fragments) where
  payload := layout_payload.trans cut.payload
  types := by
    rw [layout_types]
    exact cut.types
  fills := cut.fills

end Cuts

theorem Fragment.headerHolds {fragment : Fragment} (typed : fragment.Typed)
    (small : fragment.payload.length < 2 ^ 16) :
    HeaderHolds fragment.header fragment.type fragment.payload := by
  refine ⟨typed, _, _, rfl, ?_⟩
  rw [BitVec.toNat_ofNat, BitVec.toNat_ofNat, Nat.shiftRight_eq_div_pow,
    show 0xff = 2 ^ 8 - 1 from rfl, Nat.and_two_pow_sub_one_eq_mod]
  omega

/-- A chain of entries from the start of a file is formatted. -/
theorem Chained.formatted {entries : List Entry} (chained : Chained 0 entries) :
    Formatted (encodeFrom 0 (fragmentsOf entries)) (entries.map Entry.record)
      (entries.map Entry.placed) := by
  have placed : (entries.map Entry.placed).flatten = Log.layout 0 (fragmentsOf entries) := by
    rw [chained.layout, List.flatMap_def]
  refine ⟨?_, ?_, ?_, ?_, ?_⟩
  · rw [List.forall₂_map_left_iff, List.forall₂_map_right_iff, List.forall₂_same]
    exact fun entry _ => entry.cut.isRecord
  · rw [placed]
    exact encodeFrom_block chained.fits
  · rw [placed]
    intro part member
    have fits := fits_of_mem_layout chained.fits member
    have bytes := encodeFrom_at member
    rw [Nat.sub_zero] at bytes
    refine ⟨?_, bytes⟩
    unfold room kBlockSize at *
    omega
  · rw [placed]
    intro part member
    have typed := chained.typed part.2 (mem_of_mem_layout member)
    exact Fragment.headerHolds typed (payload_lt (fits_of_mem_layout chained.fits member))
  · rw [placed]
    exact layout_pairwise _ _

/-! ## The asserts of the writer -/

/-- A round of the loop of `AddRecord`: the writer at its head, and the data left. -/
structure Round where
  writer : Writer
  data : Slice
  begins : Bool

/-- The rounds of `addRecordLoop`. -/
def Writer.rounds (writer : Writer) (data : Slice) (begins : Bool) : List Round :=
  if (writer.emitFragment data begins).1.isOk ∧ 0 < (writer.unwritten data).length then
    ⟨writer, data, begins⟩ ::
      (writer.emitFragment data begins).2.rounds (writer.unwritten data) false
  else
    [⟨writer, data, begins⟩]
termination_by
  data.length + if writer.switchBlock.blockOffset + kHeaderSize = kBlockSize then 1 else 0
decreasing_by
  rename_i continues
  exact addRecordLoop_decreases begins continues.2

/-- The rounds of a run of `AddRecord` calls. -/
def Writer.allRounds (writer : Writer) : List Slice → List Round
  | [] => []
  | record :: later =>
      writer.rounds record true ++ (writer.addRecord record).2.allRounds later

/-- In a round, `block_offset_` agrees with the file at the head, after the switch of the
block and at the end, and the asserts of `AddRecord` and `EmitPhysicalRecord` hold. -/
structure Round.Asserted (round : Round) : Prop where
  head : round.writer.Aligned
  switched : round.writer.switchBlock.Aligned
  emitted : (round.writer.emitFragment round.data round.begins).2.Aligned
  header : round.writer.switchBlock.blockOffset + kHeaderSize ≤ kBlockSize
  short : round.writer.switchBlock.fragmentLength round.data ≤ 0xffff
  inside : round.writer.switchBlock.blockOffset + kHeaderSize +
    round.writer.switchBlock.fragmentLength round.data ≤ kBlockSize

theorem Writer.asserted {writer : Writer} (aligned : writer.Aligned)
    (sound : writer.dest.outcomes = []) (data : Slice) (begins : Bool) :
    Round.Asserted ⟨writer, data, begins⟩ := by
  have header := switchBlock_blockOffset_le writer
  obtain ⟨contents, offset⟩ := switchBlock_aligned aligned (switchBlock_sound sound).refused
  have emitted := emitFragment_sound data begins sound
  obtain ⟨-, -, alignedNext, -⟩ :=
    @emitFragment_aligned writer data begins aligned emitted.2.refused
  have length : writer.switchBlock.fragmentLength data ≤
      kBlockSize - writer.switchBlock.blockOffset - kHeaderSize := by
    unfold fragmentLength
    dsimp only
    split <;> omega
  refine ⟨aligned, ⟨Nat.le_of_add_right_le header, ?_⟩, alignedNext, header, ?_, ?_⟩
  · rw [offset, contents, List.length_append, List.length_replicate, Nat.mod_mod, nextStart]
  · unfold kBlockSize at length
    dsimp only
    omega
  · dsimp only
    omega

/-- The rounds of one record. -/
theorem Writer.rounds_asserted {writer : Writer} {data : Slice} {begins : Bool}
    (aligned : writer.Aligned) (sound : writer.dest.outcomes = []) :
    ∀ round ∈ writer.rounds data begins, round.Asserted := by
  induction writer, data, begins using addRecordLoop.induct with
  | case1 writer data begins continues ih =>
      have asserted := writer.asserted aligned sound data begins
      have emitted := emitFragment_sound data begins sound
      rw [rounds, if_pos continues, List.forall_mem_cons]
      exact ⟨asserted, ih asserted.emitted emitted.2.outcomes⟩
  | case2 writer data begins stops =>
      rw [rounds, if_neg stops, List.forall_mem_singleton]
      exact writer.asserted aligned sound data begins

theorem Writer.allRounds_asserted (records : List Slice) :
    ∀ {writer : Writer}, writer.Aligned → writer.dest.outcomes = [] →
      ∀ round ∈ writer.allRounds records, round.Asserted := by
  induction records with
  | nil => exact fun _ _ _ member => nomatch member
  | cons record later ih =>
      intro writer aligned sound
      obtain ⟨alignedNext, entry, adds⟩ := writer.addRecord_adds record aligned sound
      rw [allRounds, List.forall_mem_append]
      exact ⟨rounds_asserted aligned sound, ih alignedNext adds.sound⟩

theorem new_aligned : (Writer.new emptyFile).Aligned := ⟨by decide, by decide⟩

/-- The entries of the records that are added to an empty file. -/
theorem addRecords_entries (records : List Slice) :
    ∃ entries, Adds emptyFile ((Writer.new emptyFile).addRecords records).2.dest
      ((Writer.new emptyFile).addRecords records).1 entries ∧
      entries.map Entry.record = records := by
  obtain ⟨entries, adds⟩ := addRecords_adds records new_aligned rfl
  refine ⟨entries, adds, ?_⟩
  have calls := congrArg (List.map Call.record) adds.calls
  rw [addRecords_records, List.map_map] at calls
  exact calls.symm

/-- Whatever records are added to an empty file, the file is formatted, and `block_offset_`
and the asserts are in order in every round. -/
theorem addRecords_formatted (records : List Slice) :
    (∃ logical, Formatted ((Writer.new emptyFile).addRecords records).2.dest.contents records
      logical) ∧
    ∀ round ∈ (Writer.new emptyFile).allRounds records, round.Asserted := by
  obtain ⟨entries, adds, named⟩ := addRecords_entries records
  have contents : ((Writer.new emptyFile).addRecords records).2.dest.contents =
      encodeFrom 0 (fragmentsOf entries) := adds.contents
  refine ⟨⟨entries.map Entry.placed, ?_⟩, allRounds_asserted records new_aligned rfl⟩
  rw [contents, ← named]
  exact adds.chained.formatted

end MiniLevelDb.Log
