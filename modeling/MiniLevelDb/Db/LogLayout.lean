import MiniLevelDb.Db.LogScan

/-!
# What a scan finds in a written log

The reader takes every physical record of a layout back off the bytes, and
nothing of one that is not complete. So the events of a scan over any initial
part of a written log are the complete physical records (`scan_take`), and a scan
from a block boundary finds those from there on (`encodeFrom_drop`).
-/

namespace MiniLevelDb.Log

namespace Fragment

variable (fragment : Fragment) (tail : Slice)

/-- A writer never emits a physical record of the reserved type. -/
def Typed (fragment : Fragment) : Prop :=
  fragment.type ≠ .zero

/-- The event a complete physical record at `start` makes. -/
def event (config : ReaderConfig) (placed : Nat × Fragment) : Event :=
  if BitVec.ofNat 64 placed.1 < config.initialOffset then
    .bad (placed.1 + placed.2.size) none
  else
    .record placed.2.type.code placed.2.payload placed.1

theorem stop_event (config : ReaderConfig) (placed : Nat × Fragment) :
    (event config placed).stop = placed.1 + placed.2.size := by
  unfold event
  split <;> rfl

theorem headerLength_bytes (small : fragment.payload.length < 2 ^ 16) :
    Reader.headerLength (fragment.bytes ++ tail) = fragment.payload.length := by
  simp only [Reader.headerLength, bytes, header, encodeFixed32, List.cons_append, List.nil_append,
    List.getD_cons_zero, List.getD_cons_succ, BitVec.toNat_ofNat]
  have low : (fragment.payload.length &&& 0xff) % 2 ^ 8 = fragment.payload.length % 2 ^ 8 := by
    rw [show 0xff = 2 ^ 8 - 1 from rfl, Nat.and_two_pow_sub_one_eq_mod, Nat.mod_mod]
  have high : (fragment.payload.length >>> 8) % 2 ^ 8 = fragment.payload.length / 2 ^ 8 := by
    rw [Nat.shiftRight_eq_div_pow]
    omega
  rw [low, high, Nat.or_comm, Nat.shiftLeft_eq, Nat.mul_comm,
    ← Nat.two_pow_add_eq_or_of_lt (Nat.mod_lt _ (by decide))]
  omega

end Fragment

/-! ## Physical records byte by byte -/

/-- The stored form of the checksum of type and payload. -/
def storedCrc (body : Slice) : Slice :=
  encodeFixed32 (Crc32c.mask (Crc32c.value body))

/-- The two bytes of the length in a header. -/
def lengthBytes (payload : Slice) : Slice :=
  [BitVec.ofNat 8 (payload.length &&& 0xff), BitVec.ofNat 8 (payload.length >>> 8)]

/-- A physical record with any type byte. -/
def rawBytes (type : Byte) (payload : Slice) : Slice :=
  storedCrc (type :: payload) ++ (lengthBytes payload ++ type :: payload)

theorem Fragment.bytes_eq_raw (fragment : Fragment) :
    fragment.bytes = rawBytes fragment.type.toByte fragment.payload := rfl

theorem length_rawBytes (type : Byte) (payload : Slice) :
    (rawBytes type payload).length = kHeaderSize + payload.length := by
  rw [rawBytes, List.length_append, List.length_append, List.length_cons]
  simp only [storedCrc, length_encodeFixed32, lengthBytes, List.length_cons, List.length_nil,
    kHeaderSize]
  omega

theorem unmask_storedCrc (body : Slice) :
    Crc32c.unmask (decodeFixed32 (storedCrc body)) = Crc32c.value body := by
  have decoded := decodeFixed32_encodeFixed32 (Crc32c.mask (Crc32c.value body)) []
  rw [List.append_nil] at decoded
  rw [storedCrc, decoded, Crc32c.unmask_mask]

/-- The length and the comparison of the reader, with any checksum and any bytes behind
the length. -/
theorem checksumMatches_parts {stored body payload : Slice} (four : stored.length = 4)
    (length : body.length = 1 + payload.length) (small : payload.length < 2 ^ 16)
    (tail : Slice) :
    Reader.headerLength (stored ++ (lengthBytes payload ++ body) ++ tail) = payload.length ∧
      Reader.checksumMatches (stored ++ (lengthBytes payload ++ body) ++ tail) =
        (Crc32c.value body == Crc32c.unmask (decodeFixed32 stored)) := by
  match stored, four with
  | [a, b, c, d], _ =>
      have header : Reader.headerLength ([a, b, c, d] ++ (lengthBytes payload ++ body) ++ tail) =
          payload.length := by
        have original := Fragment.headerLength_bytes ⟨.full, payload⟩ tail small
        simp only [Reader.headerLength, Fragment.bytes_eq_raw, rawBytes, storedCrc, encodeFixed32,
          lengthBytes, List.cons_append, List.nil_append, List.getD_cons_zero,
          List.getD_cons_succ] at original ⊢
        exact original
      refine ⟨header, ?_⟩
      have covered : (([a, b, c, d] ++ (lengthBytes payload ++ body) ++ tail).drop 6).take
          (1 + payload.length) = body := by
        rw [← length]
        exact List.take_left
      rw [Reader.checksumMatches, header, covered]
      rfl

variable (config : ReaderConfig) {offset : Nat} {fragment : Fragment}

theorem payload_lt {offset : Nat} {fragment : Fragment}
    (fits : fragment.size ≤ room offset) : fragment.payload.length < 2 ^ 16 := by
  have := room_le offset
  unfold Fragment.size kBlockSize at *
  omega

/-- The reader finds a complete physical record, whatever its type byte, unless it is an
empty one of the reserved type. -/
theorem parseAt_raw {type : Byte} {payload : Slice}
    (counted : ¬ (type.signExtend 32 = RecordType.zero.code ∧ payload.length = 0))
    (fits : kHeaderSize + payload.length ≤ room offset) (tail : Slice) :
    parseAt config offset (rawBytes type payload ++ tail) =
      some (if BitVec.ofNat 64 offset < config.initialOffset then
        .bad (offset + (kHeaderSize + payload.length)) none
      else .record (type.signExtend 32) payload offset) := by
  have small : payload.length < 2 ^ 16 := @payload_lt offset ⟨.full, payload⟩ fits
  obtain ⟨block, cut⟩ : ∃ block, (rawBytes type payload ++ tail).take (room offset) =
      rawBytes type payload ++ block := by
    rw [List.take_append, length_rawBytes, List.take_of_length_le]
    · exact ⟨_, rfl⟩
    · rw [length_rawBytes]
      exact fits
  have length : (rawBytes type payload ++ block).length =
      kHeaderSize + payload.length + block.length := by
    rw [List.length_append, length_rawBytes]
  obtain ⟨header, matches_⟩ := @checksumMatches_parts (storedCrc (type :: payload))
    (type :: payload) payload rfl (Nat.add_comm _ _) small block
  rw [unmask_storedCrc, beq_self_eq_true] at matches_
  have headerType : Reader.headerType (rawBytes type payload ++ block) = type.signExtend 32 := rfl
  have stored : ((rawBytes type payload ++ block).drop kHeaderSize).take payload.length =
      payload := List.take_left
  change Reader.headerLength (rawBytes type payload ++ block) = _ at header
  change Reader.checksumMatches (rawBytes type payload ++ block) = _ at matches_
  simp only [parseAt, cut, header, headerType, matches_, length, stored, Bool.not_true,
    Bool.and_false, Bool.false_eq_true, ↓reduceIte, if_neg counted]
  rw [if_neg (by omega), if_neg (by omega)]
  split <;> rfl

/-- The reader finds a complete physical record. -/
theorem parseAt_bytes (typed : fragment.Typed) (fits : fragment.size ≤ room offset)
    (tail : Slice) :
    parseAt config offset (fragment.bytes ++ tail) =
      some (Fragment.event config (offset, fragment)) := by
  have counted : ¬ (fragment.type.code = RecordType.zero.code ∧ fragment.payload.length = 0) := by
    rintro ⟨zero, _⟩
    apply typed
    revert zero
    cases fragment.type <;> decide
  exact parseAt_raw config counted fits tail

/-- The reader takes a physical record that is not complete for the end of the
file. -/
theorem parseAt_torn (fits : fragment.size ≤ room offset) {count : Nat}
    (torn : count < fragment.size) :
    parseAt config offset (fragment.bytes.take count) = none := by
  have small := payload_lt fits
  have length : (fragment.bytes.take count).length = count := by
    rw [List.length_take, Fragment.length_bytes]
    omega
  have whole : (fragment.bytes.take count).take (room offset) = fragment.bytes.take count := by
    apply List.take_of_length_le
    omega
  unfold parseAt
  simp only [whole, length]
  by_cases short : count < kHeaderSize
  · rw [if_pos short]
  · have header : Reader.headerLength (fragment.bytes.take count) = fragment.payload.length := by
      have kept : fragment.bytes.take count =
          (⟨fragment.type, fragment.payload⟩ : Fragment).header ++
            fragment.payload.take (count - kHeaderSize) := by
        rw [Fragment.bytes, List.take_append, Fragment.length_header,
          List.take_of_length_le (by rw [Fragment.length_header]; omega)]
      have := Fragment.headerLength_bytes fragment [] small
      rw [List.append_nil] at this
      rw [kept, ← this]
      rfl
    rw [if_neg short, header, if_pos (by unfold Fragment.size at torn; omega), if_pos (by omega)]

/-- A block boundary is a place where a header may start. -/
theorem nextStart_eq_self {offset : Nat} (aligned : offset % kBlockSize = 0) :
    nextStart offset = offset := by
  unfold nextStart padding room kHeaderSize kBlockSize at *
  split <;> omega

/-- The physical records of a layout start at or after the first place where one
may start. -/
theorem nextStart_le_of_mem_layout {offset : Nat} {fragments : List Fragment}
    {placed : Nat × Fragment} (member : placed ∈ layout offset fragments) :
    nextStart offset ≤ placed.1 := by
  induction fragments generalizing offset with
  | nil => cases member
  | cons fragment later ih =>
      rcases List.mem_cons.mp member with rfl | member
      · exact Nat.le_refl _
      · calc nextStart offset ≤ nextStart offset + fragment.size := Nat.le_add_right _ _
          _ ≤ nextStart (nextStart offset + fragment.size) := le_nextStart _
          _ ≤ placed.1 := ih member

theorem le_of_mem_layout {offset : Nat} {fragments : List Fragment} {placed : Nat × Fragment}
    (member : placed ∈ layout offset fragments) : offset ≤ placed.1 :=
  (le_nextStart offset).trans (nextStart_le_of_mem_layout member)

/-- The physical records of a layout lie one after the other. -/
theorem layout_pairwise (offset : Nat) (fragments : List Fragment) :
    (layout offset fragments).Pairwise fun left right => left.1 + left.2.size ≤ right.1 := by
  induction fragments generalizing offset with
  | nil => exact List.Pairwise.nil
  | cons fragment later ih =>
      exact List.pairwise_cons.mpr ⟨fun placed member => le_of_mem_layout member, ih _⟩

theorem mem_of_mem_layout {offset : Nat} {fragments : List Fragment} {placed : Nat × Fragment}
    (member : placed ∈ layout offset fragments) : placed.2 ∈ fragments := by
  induction fragments generalizing offset with
  | nil => cases member
  | cons fragment later ih =>
      rcases List.mem_cons.mp member with rfl | member
      · exact List.mem_cons_self
      · exact List.mem_cons_of_mem _ (ih member)

theorem fits_of_mem_layout {offset : Nat} {fragments : List Fragment} {placed : Nat × Fragment}
    (fits : Fits offset fragments) (member : placed ∈ layout offset fragments) :
    placed.2.size ≤ room placed.1 := by
  induction fragments generalizing offset with
  | nil => cases member
  | cons fragment later ih =>
      rcases List.mem_cons.mp member with rfl | member
      · exact fits.1
      · exact ih fits.2 member

/-- The bytes of a written log at the place of a physical record. -/
theorem encodeFrom_at {offset : Nat} {fragments : List Fragment} {placed : Nat × Fragment}
    (member : placed ∈ layout offset fragments) :
    ((encodeFrom offset fragments).drop (placed.1 - offset)).take placed.2.size =
      placed.2.bytes := by
  induction fragments generalizing offset with
  | nil => cases member
  | cons fragment later ih =>
      rcases List.mem_cons.mp member with rfl | member
      · rw [encodeFrom, List.append_assoc, nextStart, Nat.add_sub_cancel_left,
          List.drop_left' (List.length_replicate ..), List.take_left' (Fragment.length_bytes _)]
      · have start := le_of_mem_layout member
        have skipped : placed.1 - offset = padding offset + fragment.size +
            (placed.1 - (nextStart offset + fragment.size)) := by
          unfold nextStart at *
          omega
        rw [encodeFrom, skipped, ← List.drop_drop, List.drop_left', ih member]
        rw [List.length_append, List.length_replicate, Fragment.length_bytes]

/-- The physical records of a layout that a file of `length` bytes holds in
full. -/
def complete (length : Nat) (placed : List (Nat × Fragment)) : List (Nat × Fragment) :=
  placed.filter fun placed => placed.1 + placed.2.size ≤ length

/-- The physical records of a layout end by its end. -/
theorem layout_stop_le {offset : Nat} {fragments : List Fragment} {placed : Nat × Fragment}
    (member : placed ∈ layout offset fragments) :
    placed.1 + placed.2.size ≤ endOffset offset fragments := by
  induction fragments generalizing offset with
  | nil => cases member
  | cons fragment later ih =>
      rcases List.mem_cons.mp member with rfl | member
      · exact length_encodeFrom (nextStart offset + fragment.size) later ▸ Nat.le_add_right _ _
      · exact ih member

theorem complete_eq_self {length offset : Nat} {fragments : List Fragment}
    (whole : endOffset offset fragments ≤ length) :
    complete length (layout offset fragments) = layout offset fragments := by
  apply List.filter_eq_self.mpr
  intro placed member
  exact decide_eq_true ((layout_stop_le member).trans whole)

theorem complete_eq_nil {length offset : Nat} {fragments : List Fragment}
    (missing : length ≤ offset) : complete length (layout offset fragments) = [] := by
  apply List.filter_eq_nil_iff.mpr
  intro placed member
  have := le_of_mem_layout member
  rw [decide_eq_true_eq, Fragment.size]
  unfold kHeaderSize
  omega

/-- Cut at any length, a written log shows exactly its complete physical
records. -/
theorem scan_take (length : Nat) {fragments : List Fragment} {offset : Nat}
    (typed : ∀ fragment ∈ fragments, fragment.Typed) (fits : Fits offset fragments) :
    scan config offset ((encodeFrom offset fragments).take (length - offset)) =
      (complete length (layout offset fragments)).map (Fragment.event config) := by
  induction fragments generalizing offset with
  | nil =>
      rw [encodeFrom, List.take_nil, scan_nil]
      rfl
  | cons fragment later ih =>
      rw [List.forall_mem_cons] at typed
      have ahead : ((encodeFrom offset (fragment :: later)).take (length - offset)).drop
          (padding offset) =
            (fragment.bytes ++ encodeFrom (nextStart offset + fragment.size) later).take
            (length - nextStart offset) := by
        rw [encodeFrom, List.append_assoc, List.drop_take,
          List.drop_left' (List.length_replicate ..)]
        unfold nextStart
        congr 1
        omega
      by_cases whole : nextStart offset + fragment.size ≤ length
      · have kept : (fragment.bytes ++ encodeFrom (nextStart offset + fragment.size) later).take
            (length - nextStart offset) = fragment.bytes ++
              (encodeFrom (nextStart offset + fragment.size) later).take
                (length - (nextStart offset + fragment.size)) := by
          rw [List.take_append, Fragment.length_bytes, List.take_of_length_le]
          · congr 2
            omega
          · rw [Fragment.length_bytes]
            omega
        have stop : (Fragment.event config (nextStart offset, fragment)).stop =
            nextStart offset + fragment.size := Fragment.stop_event config _
        have rest : ((encodeFrom offset (fragment :: later)).take (length - offset)).drop
            (nextStart offset + fragment.size - offset) =
              (encodeFrom (nextStart offset + fragment.size) later).take
                (length - (nextStart offset + fragment.size)) := by
          rw [show nextStart offset + fragment.size - offset = padding offset + fragment.size by
              unfold nextStart; omega,
            ← List.drop_drop, ahead, kept, List.drop_left' (Fragment.length_bytes _)]
        rw [scan_of_some (by rw [ahead, kept]; exact parseAt_bytes config typed.1 fits.1 _),
          stop, rest, ih typed.2 fits.2, complete, complete, layout, List.filter_cons, if_pos
            (decide_eq_true whole), List.map_cons]
      · have torn : (fragment.bytes ++ encodeFrom (nextStart offset + fragment.size) later).take
            (length - nextStart offset) = fragment.bytes.take (length - nextStart offset) := by
          rw [List.take_append_of_le_length]
          rw [Fragment.length_bytes]
          omega
        have none_ : complete length (layout offset (fragment :: later)) = [] := by
          apply List.filter_eq_nil_iff.mpr
          intro placed member
          rcases List.mem_cons.mp member with rfl | member
          · simpa using whole
          · have := le_of_mem_layout member
            simp only [decide_eq_true_eq]
            omega
        have missing : length - nextStart offset < fragment.size := by
          have := fragment.size_pos
          omega
        rw [scan_of_none (by rw [ahead, torn]; exact parseAt_torn config fits.1 missing), none_,
          List.map_nil]

/-- A written log shows all its physical records, whatever follows them. -/
theorem scan_encodeFrom_append (tail : Slice) {fragments : List Fragment} {offset : Nat}
    (typed : ∀ fragment ∈ fragments, fragment.Typed) (fits : Fits offset fragments) :
    scan config offset (encodeFrom offset fragments ++ tail) =
      (layout offset fragments).map (Fragment.event config) ++
        scan config (endOffset offset fragments) tail := by
  induction fragments generalizing offset with
  | nil => rfl
  | cons fragment later ih =>
      rw [List.forall_mem_cons] at typed
      have ahead : (encodeFrom offset (fragment :: later) ++ tail).drop (padding offset) =
          fragment.bytes ++ (encodeFrom (nextStart offset + fragment.size) later ++ tail) := by
        rw [encodeFrom, List.append_assoc, List.append_assoc,
          List.drop_left' (List.length_replicate ..)]
      have stop := Fragment.stop_event config (nextStart offset, fragment)
      have rest : (encodeFrom offset (fragment :: later) ++ tail).drop
          (nextStart offset + fragment.size - offset) =
            encodeFrom (nextStart offset + fragment.size) later ++ tail := by
        rw [show nextStart offset + fragment.size - offset = padding offset + fragment.size by
            unfold nextStart; omega,
          ← List.drop_drop, ahead, List.drop_left' (Fragment.length_bytes _)]
      rw [scan_of_some (by rw [ahead]; exact parseAt_bytes config typed.1 fits.1 _), stop, rest,
        ih typed.2 fits.2, layout, List.map_cons, List.cons_append, endOffset]

/-- A written log shows all its physical records. -/
theorem scan_encodeFrom {fragments : List Fragment} {offset : Nat}
    (typed : ∀ fragment ∈ fragments, fragment.Typed) (fits : Fits offset fragments) :
    scan config offset (encodeFrom offset fragments) =
      (layout offset fragments).map (Fragment.event config) := by
  have whole := scan_encodeFrom_append config [] typed fits
  rwa [scan_nil, List.append_nil, List.append_nil] at whole

theorem add_room_le {boundary offset : Nat} (aligned : boundary % kBlockSize = 0)
    (passed : offset < boundary) : offset + room offset ≤ boundary := by
  unfold room kBlockSize at *
  omega

/-- A block boundary between `offset` and the next physical record does not move
that record. -/
theorem nextStart_boundary {boundary offset : Nat} (aligned : boundary % kBlockSize = 0)
    (after : offset ≤ boundary) (before : boundary ≤ nextStart offset) :
    nextStart boundary = nextStart offset := by
  unfold nextStart padding room kHeaderSize kBlockSize at *
  split at before <;> split <;> omega

/-- The rest of a written log from a block boundary on is what a writer would
have written from there. -/
theorem encodeFrom_drop {boundary : Nat} (aligned : boundary % kBlockSize = 0)
    {fragments : List Fragment} {offset : Nat} (before : offset ≤ boundary)
    (fits : Fits offset fragments) :
    ∃ later, Fits boundary later ∧ later.Sublist fragments ∧
      (encodeFrom offset fragments).drop (boundary - offset) = encodeFrom boundary later ∧
      layout boundary later =
        (layout offset fragments).filter fun placed => boundary ≤ placed.1 := by
  induction fragments generalizing offset with
  | nil => exact ⟨[], trivial, List.Sublist.refl _, List.drop_nil, rfl⟩
  | cons fragment later ih =>
      by_cases passed : nextStart offset < boundary
      · -- the physical record ends before the boundary, as it stays inside its block
        have ends : nextStart offset + fragment.size ≤ boundary :=
          (Nat.add_le_add_left fits.1 _).trans (add_room_le aligned passed)
        obtain ⟨rest, restFits, sub, bytes, placed⟩ := ih ends fits.2
        refine ⟨rest, restFits, sub.cons _, ?_, ?_⟩
        · have skipped : boundary - offset = padding offset + fragment.size +
              (boundary - (nextStart offset + fragment.size)) := by
            unfold nextStart at *
            omega
          rw [encodeFrom, skipped, ← List.drop_drop, List.drop_left', bytes]
          rw [List.length_append, List.length_replicate, Fragment.length_bytes]
        · rw [layout, List.filter_cons, if_neg (by simpa using passed), placed]
      · have same := nextStart_boundary aligned before (Nat.le_of_not_lt passed)
        refine ⟨fragment :: later, ?_, List.Sublist.refl _, ?_, ?_⟩
        · rw [Fits, same]
          exact fits
        · have pad : padding offset - (boundary - offset) = padding boundary := by
            unfold nextStart at same
            omega
          rw [encodeFrom, encodeFrom, same, List.append_assoc, List.append_assoc, List.drop_append,
            List.drop_replicate, pad, List.length_replicate,
            show boundary - offset - padding offset = 0 by unfold nextStart at passed; omega,
            List.drop_zero]
        · rw [layout, layout, same]
          symm
          apply List.filter_eq_self.mpr
          intro placed member
          rw [decide_eq_true_eq]
          rcases List.mem_cons.mp member with rfl | member
          · exact Nat.le_of_not_lt passed
          · exact (Nat.le_of_not_lt passed).trans
              ((Nat.le_add_right _ _).trans (le_of_mem_layout member))

end MiniLevelDb.Log
