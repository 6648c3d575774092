import MiniLevelDb.Util.Crc32c

/-!
# The log format

A log is cut into blocks of `kBlockSize` bytes. A physical record is a header of
`kHeaderSize` bytes and a payload, and stays inside one block; fewer than
`kHeaderSize` bytes left in a block are a trailer of zeros. `layout` says where a
list of physical records goes and `encodeFrom` which bytes that makes.
-/

namespace MiniLevelDb.Log

/-- `RecordType`. -/
inductive RecordType where
  | zero
  | full
  | first
  | middle
  | last
  deriving DecidableEq, Repr

/-- The enumerator's value, as the byte a header stores. -/
def RecordType.toByte : RecordType → Byte
  | .zero => 0
  | .full => 1
  | .first => 2
  | .middle => 3
  | .last => 4

/-- The enumerator's value, as the `unsigned int` the reader switches on. -/
def RecordType.code (type : RecordType) : BitVec 32 :=
  type.toByte.signExtend 32

def kBlockSize : Nat := 32768

/-- Header is checksum (4 bytes), length (2 bytes), type (1 byte). -/
def kHeaderSize : Nat := 4 + 2 + 1

/-- A physical record: its type and its payload. -/
structure Fragment where
  type : RecordType
  payload : Slice
  deriving DecidableEq, Repr

namespace Fragment

/-- The header of the format: the masked checksum of type and payload, the
little-endian length and the type. -/
def header (fragment : Fragment) : Slice :=
  encodeFixed32 (Crc32c.mask (Crc32c.value (fragment.type.toByte :: fragment.payload))) ++
    [BitVec.ofNat 8 (fragment.payload.length &&& 0xff),
      BitVec.ofNat 8 (fragment.payload.length >>> 8), fragment.type.toByte]

/-- The bytes of the physical record. -/
def bytes (fragment : Fragment) : Slice :=
  fragment.header ++ fragment.payload

/-- The number of bytes the physical record takes. -/
def size (fragment : Fragment) : Nat :=
  kHeaderSize + fragment.payload.length

@[simp] theorem length_header (fragment : Fragment) : fragment.header.length = kHeaderSize := rfl

@[simp] theorem length_bytes (fragment : Fragment) : fragment.bytes.length = fragment.size := by
  rw [bytes, List.length_append, length_header, size]

theorem size_pos (fragment : Fragment) : 0 < fragment.size :=
  Nat.lt_of_lt_of_le (by decide) (Nat.le_add_right _ _)

end Fragment

/-- The bytes from `offset` to the end of its block, a whole block at a block
boundary. -/
def room (offset : Nat) : Nat :=
  kBlockSize - offset % kBlockSize

/-- The trailer that separates a header from `offset`: the rest of the block when
no header fits there. -/
def padding (offset : Nat) : Nat :=
  if room offset < kHeaderSize then room offset else 0

/-- The file offset at which the next physical record after `offset` starts. -/
def nextStart (offset : Nat) : Nat :=
  offset + padding offset

theorem room_pos (offset : Nat) : 0 < room offset := by
  unfold room kBlockSize
  omega

theorem room_le (offset : Nat) : room offset ≤ kBlockSize := by
  unfold room
  omega

theorem le_nextStart (offset : Nat) : offset ≤ nextStart offset :=
  Nat.le_add_right _ _

/-- A header fits at every place where one may start. -/
theorem kHeaderSize_le_room_nextStart (offset : Nat) : kHeaderSize ≤ room (nextStart offset) := by
  unfold nextStart padding room kHeaderSize kBlockSize
  split <;> omega

/-- Using up the room leads to a block boundary. -/
theorem mod_add_room (offset : Nat) : (offset + room offset) % kBlockSize = 0 := by
  unfold room kBlockSize
  omega

/-- The physical records of `fragments` written from `offset` on, each with the
file offset of its header. -/
def layout (offset : Nat) : List Fragment → List (Nat × Fragment)
  | [] => []
  | fragment :: later =>
      (nextStart offset, fragment) :: layout (nextStart offset + fragment.size) later

/-- The bytes written for `fragments` from `offset` on, trailers included. -/
def encodeFrom (offset : Nat) : List Fragment → Slice
  | [] => []
  | fragment :: later =>
      List.replicate (padding offset) 0 ++ fragment.bytes ++
        encodeFrom (nextStart offset + fragment.size) later

/-- The file offset after `fragments`. -/
def endOffset (offset : Nat) : List Fragment → Nat
  | [] => offset
  | fragment :: later => endOffset (nextStart offset + fragment.size) later

/-- Every physical record written from `offset` on stays inside one block. -/
def Fits (offset : Nat) : List Fragment → Prop
  | [] => True
  | fragment :: later =>
      fragment.size ≤ room (nextStart offset) ∧ Fits (nextStart offset + fragment.size) later

theorem length_encodeFrom (offset : Nat) (fragments : List Fragment) :
    offset + (encodeFrom offset fragments).length = endOffset offset fragments := by
  induction fragments generalizing offset with
  | nil => rfl
  | cons fragment later ih =>
      simp only [encodeFrom, endOffset, List.length_append, List.length_replicate,
        Fragment.length_bytes, ← ih]
      unfold nextStart
      omega

theorem encodeFrom_append (offset : Nat) (first second : List Fragment) :
    encodeFrom offset (first ++ second) =
      encodeFrom offset first ++ encodeFrom (endOffset offset first) second := by
  induction first generalizing offset with
  | nil => rfl
  | cons fragment later ih =>
      simp only [List.cons_append, encodeFrom, endOffset, ih, List.append_assoc]

theorem endOffset_append (offset : Nat) (first second : List Fragment) :
    endOffset offset (first ++ second) = endOffset (endOffset offset first) second := by
  induction first generalizing offset with
  | nil => rfl
  | cons fragment later ih => exact ih _

theorem layout_append (offset : Nat) (first second : List Fragment) :
    layout offset (first ++ second) =
      layout offset first ++ layout (endOffset offset first) second := by
  induction first generalizing offset with
  | nil => rfl
  | cons fragment later ih => simp only [List.cons_append, layout, endOffset, ih]

theorem fits_append (offset : Nat) (first second : List Fragment) :
    Fits offset (first ++ second) ↔ Fits offset first ∧ Fits (endOffset offset first) second := by
  induction first generalizing offset with
  | nil => exact ⟨fun fits => ⟨trivial, fits⟩, fun fits => fits.2⟩
  | cons fragment later ih =>
      simp only [List.cons_append, Fits, endOffset, ih, and_assoc]

end MiniLevelDb.Log
