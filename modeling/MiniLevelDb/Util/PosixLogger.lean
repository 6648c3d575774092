import MiniLevelDb.Util.Logging

/-!
# Log messages

`Logv` of `PosixLogger`. A buffer is a list of bytes, and a load or store outside of it, an
assertion that fails or an `int` that overflows is `none`. What the format of the caller
prints is given; it is the same in both iterations.
-/

namespace MiniLevelDb

namespace PosixLogger

def kMaxThreadIdSize : Nat := 32

def kStackBufferSize : Nat := 512

/-- The members of `std::tm` and `timeval` that are printed. -/
structure Components where
  year : BitVec 32
  mon : BitVec 32
  mday : BitVec 32
  hour : BitVec 32
  min : BitVec 32
  sec : BitVec 32
  usec : BitVec 64

/-- What `%d` prints with leading zeros, of a width at least. -/
def printInt (width : Nat) (value : BitVec 32) : Slice :=
  let sign : Slice := if value.toInt < 0 then [0x2d] else []
  let digits := decimalDigits (BitVec.ofNat 64 value.toInt.natAbs)
  sign ++ List.replicate (width - sign.length - digits.length) 0x30 ++ digits

/-- What `"%04d/%02d/%02d-%02d:%02d:%02d.%06d %s "` prints; the string ends at its first null
byte. -/
def header (components : Components) (threadId : Slice) : Slice :=
  let threadId :=
    if threadId.length > kMaxThreadIdSize then threadId.take kMaxThreadIdSize else threadId
  printInt 4 (components.year + 1900) ++ [0x2f] ++ printInt 2 (components.mon + 1) ++ [0x2f] ++
    printInt 2 components.mday ++ [0x2d] ++ printInt 2 components.hour ++ [0x3a] ++
    printInt 2 components.min ++ [0x3a] ++ printInt 2 components.sec ++ [0x2e] ++
    printInt 6 (components.usec.setWidth 32) ++ [0x20] ++ threadId.takeWhile (· ≠ 0) ++ [0x20]

def load (buffer : Slice) (index : Int) : Option Byte :=
  if 0 ≤ index then buffer[index.toNat]? else none

def store (buffer : Slice) (index : Int) (byte : Byte) : Option Slice :=
  if 0 ≤ index ∧ index < buffer.length then some (buffer.set index.toNat byte) else none

def storeAll (buffer : Slice) (index : Int) : Slice → Option Slice
  | [] => some buffer
  | byte :: bytes => do
      let buffer ← store buffer index byte
      storeAll buffer (index + 1) bytes

/-- The sum of two `int`s. -/
def plus (left right : Int) : Option Int :=
  if -2 ^ 31 ≤ left + right ∧ left + right < 2 ^ 31 then some (left + right) else none

/-- `snprintf` and `vsnprintf` at an index of a buffer: at most `size - 1` bytes of the text
and a null byte. The result is the length of the text; one that is no `int` is an error.
The size is an `int` made a `size_t`. -/
def snprintf (buffer : Slice) (index size : Int) (text : Slice) : Option (Int × Slice) := do
  let size := (BitVec.ofInt 64 size).toNat
  let length : Int := if text.length < 2 ^ 31 then text.length else -1
  let buffer ←
    if size = 0 then some buffer else storeAll buffer index (text.take (size - 1) ++ [0])
  return (length, buffer)

/-- `new char[]`, or an array on the stack; the bytes are whatever the memory held. -/
def allocate (garbage : Nat → Byte) (size : Int) : Option Slice :=
  if 0 ≤ size then some ((List.range size.toNat).map garbage) else none

/-- The header and the message in the buffer, up to `buffer_offset`. -/
def printLine (header message : Slice) (bufferSize : Int) (buffer : Slice) :
    Option (Int × Slice) := do
  let (bufferOffset, buffer) ← snprintf buffer 0 bufferSize header
  guard (bufferOffset ≤ 28 + kMaxThreadIdSize)
  guard (bufferOffset < bufferSize)
  let (length, buffer) ← snprintf buffer bufferOffset (bufferSize - bufferOffset) message
  let bufferOffset ← plus bufferOffset length
  return (bufferOffset, buffer)

/-- Adds a newline if necessary. -/
def addNewline (bufferOffset : Int) (buffer : Slice) : Option (Int × Slice) := do
  let last ← load buffer (bufferOffset - 1)
  if last ≠ 0x0a then
    let buffer ← store buffer bufferOffset 0x0a
    return (bufferOffset + 1, buffer)
  else
    return (bufferOffset, buffer)

/-- The bytes that `fwrite(buffer, 1, count, fp_)` writes. -/
def fwrite (buffer : Slice) (count : Int) : Option Slice :=
  if 0 ≤ count ∧ count ≤ buffer.length then some (buffer.take count.toNat) else none

def finish (bufferSize bufferOffset : Int) (buffer : Slice) : Option Slice := do
  let (bufferOffset, buffer) ← addNewline bufferOffset buffer
  guard (bufferOffset ≤ bufferSize)
  fwrite buffer bufferOffset

/-- How an iteration of the loop ends: with a size for the dynamic buffer, or with what it
wrote. -/
inductive Ending where
  | continues (dynamicBufferSize : Int)
  | breaks (written : Slice)
deriving DecidableEq, Repr

def iterate (header message : Slice) (iteration : Nat) (bufferSize : Int) (buffer : Slice) :
    Option Ending := do
  let (bufferOffset, buffer) ← printLine header message bufferSize buffer
  if bufferOffset ≥ bufferSize - 1 then
    if iteration = 0 then
      return .continues (← plus bufferOffset 2)
    else
      -- `assert(false)`, and the truncation behind it.
      guard False
      return .breaks (← finish bufferSize (bufferSize - 1) buffer)
  else
    return .breaks (← finish bufferSize bufferOffset buffer)

/-- The loop, with the number of iterations that are left of two: all that `fwrite` wrote. -/
def loop (header message : Slice) (garbage : Nat → Nat → Byte) :
    Nat → Int → Option (List Slice)
  | 0, _ => some []
  | left + 1, dynamicBufferSize => do
      let iteration := 1 - left
      let bufferSize := if iteration = 0 then (kStackBufferSize : Int) else dynamicBufferSize
      let buffer ← allocate (garbage iteration) bufferSize
      match ← iterate header message iteration bufferSize buffer with
      | .continues dynamicBufferSize => loop header message garbage left dynamicBufferSize
      | .breaks written => some [written]

/-- `Logv`: what each call of `fwrite` writes. -/
def logv (components : Components) (threadId message : Slice) (garbage : Nat → Nat → Byte) :
    Option (List Slice) :=
  loop (header components threadId) message garbage 2 0

theorem plus_eq {left right : Nat} (fits : left + right < 2 ^ 31) :
    plus left right = some ((left + right : Nat) : Int) := by
  have low : -2 ^ 31 ≤ (left : Int) + right := by omega
  have high : (left : Int) + right < 2 ^ 31 := by omega
  rw [plus, if_pos ⟨low, high⟩, Int.natCast_add]

section Buffers

variable {buffer : Slice} {index size : Nat}

theorem store_eq (inside : index < buffer.length) (byte : Byte) :
    store buffer index byte = some (buffer.set index byte) := by
  rw [store, if_pos ⟨Int.natCast_nonneg _, Int.ofNat_lt.mpr inside⟩, Int.toNat_natCast]

theorem take_set (inside : index < buffer.length) (byte : Byte) :
    (buffer.set index byte).take (index + 1) = buffer.take index ++ [byte] := by
  have kept : index < (buffer.set index byte).length := List.length_set.symm ▸ inside
  rw [← List.take_concat_get' _ _ kept, List.take_set_of_le (Nat.le_refl _),
    List.getElem_set_self]

/-- The bytes take the place of those that were there. -/
theorem storeAll_eq {bytes : Slice} (fits : index + bytes.length ≤ buffer.length) :
    storeAll buffer index bytes =
      some (buffer.take index ++ bytes ++ buffer.drop (index + bytes.length)) := by
  induction bytes generalizing buffer index with
  | nil => rw [storeAll, List.append_nil, List.length_nil, Nat.add_zero, List.take_append_drop]
  | cons byte bytes ih =>
      rw [List.length_cons] at fits
      have inside : index < buffer.length := by omega
      have back : (buffer.set index byte).drop (index + 1 + bytes.length) =
          buffer.drop (index + (byte :: bytes).length) := by
        rw [List.drop_set_of_lt (by omega), List.length_cons, Nat.add_assoc,
          Nat.add_comm 1 bytes.length]
      have later : storeAll (buffer.set index byte) (index + 1 : Nat) bytes = _ :=
        ih (by rw [List.length_set]; omega)
      rw [take_set inside, back, List.append_assoc (buffer.take index),
        List.singleton_append] at later
      rw [storeAll, store_eq inside]
      exact later

/-- Text is printed into the room it has, whole if that is enough. -/
theorem snprintf_spec {text : Slice} (room : 0 < size) (word : size < 2 ^ 31)
    (inside : index + size ≤ buffer.length) (short : text.length < 2 ^ 31) :
    ∃ after : Slice, snprintf buffer index size text = some ((text.length : Int), after) ∧
      after.length = buffer.length ∧
      (text.length < size → after.take (index + text.length) = buffer.take index ++ text) := by
  have given : (BitVec.ofInt 64 (size : Int)).toNat = size := by
    rw [BitVec.ofInt_natCast, BitVec.toNat_ofNat]
    exact Nat.mod_eq_of_lt (by omega)
  have fits : index + (text.take (size - 1) ++ [0]).length ≤ buffer.length := by
    rw [List.length_append, List.length_take, List.length_singleton]
    omega
  have prints : snprintf buffer index size text = some ((text.length : Int),
      buffer.take index ++ (text.take (size - 1) ++ [0]) ++
        buffer.drop (index + (text.take (size - 1) ++ [0]).length)) := by
    unfold snprintf
    rw [given]
    dsimp only
    rw [if_pos short, if_neg (Nat.ne_of_gt room), storeAll_eq fits]
    rfl
  refine ⟨_, prints, ?_, fun whole => ?_⟩
  · simp only [List.length_append, List.length_take, List.length_drop, List.length_singleton] at *
    omega
  · have front : (buffer.take index ++ text).length = index + text.length := by
      rw [List.length_append, List.length_take, Nat.min_eq_left (by omega)]
    rw [List.take_of_length_le (Nat.le_sub_one_of_lt whole), ← List.append_assoc,
      List.append_assoc, List.take_left' front]

end Buffers

section Passes

variable {header message buffer : Slice}

/-- The header goes in whole, and the offset counts the whole line even if the message does
not. -/
theorem printLine_spec (short : header.length ≤ 28 + kMaxThreadIdSize)
    (room : header.length < buffer.length) (word : buffer.length < 2 ^ 31)
    (fits : header.length + message.length + 2 < 2 ^ 31) :
    ∃ after : Slice,
      printLine header message buffer.length buffer =
        some (((header.length + message.length : Nat) : Int), after) ∧
      after.length = buffer.length ∧
      (header.length + message.length < buffer.length →
        after.take (header.length + message.length) = header ++ message) := by
  obtain ⟨headed, prints, length, starts⟩ :=
    @snprintf_spec buffer 0 buffer.length header (by omega) word (by omega) (by omega)
  have header_ : headed.take header.length = header := by
    rw [← Nat.zero_add header.length, starts room, List.take_zero, List.nil_append]
  obtain ⟨after, printsMessage, lengthAfter, goesOn⟩ :=
    @snprintf_spec headed header.length (buffer.length - header.length) message (by omega)
      (by omega) (by omega) (by omega)
  rw [Int.ofNat_sub (Nat.le_of_lt room)] at printsMessage
  have sum := @plus_eq header.length message.length (by omega)
  refine ⟨after, ?_, lengthAfter.trans length, fun whole => ?_⟩
  · have shortInt : (header.length : Int) ≤ 28 + kMaxThreadIdSize := by omega
    have roomInt : (header.length : Int) < buffer.length := by omega
    unfold printLine
    rw [Int.natCast_zero] at prints
    simp only [prints, Option.bind_eq_bind, Option.bind_some, guard]
    rw [if_pos shortInt, if_pos roomInt]
    simp only [Option.pure_def, Option.bind_some]
    rw [printsMessage, Option.bind_some]
    dsimp only
    rw [sum, Option.bind_some]
  · rw [goesOn (by omega), header_]

theorem finish_of_addNewline {offset : Int} {after : Slice} {count : Nat}
    (added : addNewline offset buffer = some ((count : Int), after))
    (length : after.length = buffer.length) (within : count ≤ buffer.length) :
    finish buffer.length offset buffer = some (after.take count) := by
  have withinInt : (count : Int) ≤ buffer.length := Int.ofNat_le.mpr within
  rw [finish, added, Option.bind_eq_bind, Option.bind_some]
  dsimp only
  rw [guard, if_pos withinInt, Option.pure_def, Option.bind_eq_bind, Option.bind_some, fwrite,
    length, if_pos ⟨Int.natCast_nonneg _, withinInt⟩, Int.toNat_natCast]

/-- A line with room behind it is written with its newline. -/
theorem finish_eq {line : Slice} (some_ : line ≠ []) (room : line.length < buffer.length)
    (holds : buffer.take line.length = line) :
    finish buffer.length line.length buffer =
      some (line ++ if line.getLast? = some 0x0a then [] else [0x0a]) := by
  have positive : 0 < line.length := List.length_pos_iff.mpr some_
  have last : load buffer ((line.length : Int) - 1) = line.getLast? := by
    have index : ((line.length : Int) - 1).toNat = line.length - 1 := by omega
    rw [load, if_pos (by omega), index, List.getLast?_eq_getElem?]
    conv_rhs => rw [← holds]
    rw [List.length_take, Nat.min_eq_left (Nat.le_of_lt room),
      List.getElem?_take_of_lt (by omega)]
  obtain ⟨byte, ends⟩ := Option.isSome_iff_exists.mp (List.getLast?_isSome.mpr some_)
  rw [ends] at last ⊢
  by_cases newline : byte = 0x0a
  · have added : addNewline line.length buffer = some ((line.length : Int), buffer) := by
      rw [addNewline, last, Option.bind_eq_bind, Option.bind_some, if_neg (not_not_intro newline)]
      rfl
    rw [finish_of_addNewline added rfl (Nat.le_of_lt room), holds,
      if_pos (congrArg some newline), List.append_nil]
  · have added : addNewline line.length buffer =
        some (((line.length + 1 : Nat) : Int), buffer.set line.length 0x0a) := by
      rw [addNewline, last, Option.bind_eq_bind, Option.bind_some, if_pos newline, store_eq room]
      rfl
    rw [finish_of_addNewline added List.length_set room, take_set room, holds,
      if_neg fun same => newline (Option.some.inj same)]

/-- The line, its newline and a null byte find room. -/
theorem iterate_breaks (some_ : header ≠ []) (short : header.length ≤ 28 + kMaxThreadIdSize)
    (word : buffer.length < 2 ^ 31) (fits : header.length + message.length + 2 < 2 ^ 31)
    (room : header.length + message.length + 1 < buffer.length) (iteration : Nat) :
    iterate header message iteration buffer.length buffer =
      some (.breaks (header ++ message ++
        if (header ++ message).getLast? = some 0x0a then [] else [0x0a])) := by
  obtain ⟨after, prints, length, holds⟩ :=
    @printLine_spec header message buffer short (by omega) word fits
  have line : (header ++ message).length = header.length + message.length := List.length_append
  have enough : ¬ ((header.length + message.length : Nat) : Int) ≥ (buffer.length : Int) - 1 := by
    omega
  have finishes := @finish_eq after (header ++ message)
    (List.append_ne_nil_of_left_ne_nil some_ _) (by omega) (by rw [line]; exact holds (by omega))
  rw [line, length] at finishes
  rw [iterate, prints, Option.bind_eq_bind, Option.bind_some]
  dsimp only
  rw [if_neg enough, finishes]
  rfl

/-- Where they do not, the first iteration asks for a buffer in which they do. -/
theorem iterate_continues (short : header.length ≤ 28 + kMaxThreadIdSize)
    (headed : header.length < buffer.length) (word : buffer.length < 2 ^ 31)
    (fits : header.length + message.length + 2 < 2 ^ 31)
    (full : buffer.length ≤ header.length + message.length + 1) :
    iterate header message 0 buffer.length buffer =
      some (.continues ((header.length + message.length + 2 : Nat) : Int)) := by
  obtain ⟨after, prints, length, holds⟩ :=
    @printLine_spec header message buffer short headed word fits
  have over_ : ((header.length + message.length : Nat) : Int) ≥ (buffer.length : Int) - 1 := by
    omega
  have sum := @plus_eq (header.length + message.length) 2 fits
  rw [iterate, prints, Option.bind_eq_bind, Option.bind_some]
  dsimp only
  rw [if_pos over_, if_pos rfl, show plus _ 2 = _ from sum]
  rfl

theorem allocate_spec (garbage : Nat → Byte) (size : Nat) :
    ∃ buffer, allocate garbage size = some buffer ∧ buffer.length = size := by
  refine ⟨_, if_pos (Int.natCast_nonneg _), ?_⟩
  rw [List.length_map, List.length_range, Int.toNat_natCast]

/-- An iteration that writes is the last one. -/
theorem loop_breaks (garbage : Nat → Nat → Byte) {left size : Nat} {dynamicBufferSize : Int}
    (sized : (if 1 - left = 0 then (kStackBufferSize : Int) else dynamicBufferSize) = size)
    {written : Slice}
    (breaks : ∀ buffer : Slice, buffer.length = size →
      iterate header message (1 - left) buffer.length buffer = some (.breaks written)) :
    loop header message garbage (left + 1) dynamicBufferSize = some [written] := by
  obtain ⟨buffer, allocated, length⟩ := allocate_spec (garbage (1 - left)) size
  have ends := breaks buffer length
  rw [length] at ends
  rw [loop, sized, allocated, Option.bind_eq_bind, Option.bind_some, ends, Option.bind_eq_bind,
    Option.bind_some]

/-- However long the message is, the line is written once, from the first buffer or from the
second. -/
theorem loop_eq (some_ : header ≠ []) (short : header.length ≤ 28 + kMaxThreadIdSize)
    (fits : header.length + message.length + 2 < 2 ^ 31) (garbage : Nat → Nat → Byte) :
    loop header message garbage 2 0 =
      some [header ++ message ++
        if (header ++ message).getLast? = some 0x0a then [] else [0x0a]] := by
  have stack : kStackBufferSize = 512 := rfl
  have threadId : kMaxThreadIdSize = 32 := rfl
  by_cases room : header.length + message.length + 1 < kStackBufferSize
  · apply @loop_breaks _ _ garbage 1 kStackBufferSize _ rfl
    intro buffer length
    apply iterate_breaks some_ short _ fits
    · omega
    · omega
  · obtain ⟨buffer, allocated, length⟩ := allocate_spec (garbage 0) kStackBufferSize
    have continues := @iterate_continues header message buffer short (by omega) (by omega) fits
      (by omega)
    rw [length] at continues
    rw [loop, if_pos rfl, allocated, Option.bind_eq_bind, Option.bind_some, continues,
      Option.bind_eq_bind, Option.bind_some]
    dsimp only
    apply @loop_breaks _ _ garbage 0 (header.length + message.length + 2) _ rfl
    intro buffer length
    apply iterate_breaks some_ short _ fits
    · omega
    · omega

end Passes

/-- A time of day on a day of the calendar, up to the year 9999. -/
structure Components.Calendar (components : Components) : Prop where
  year : (components.year + 1900).toNat < 10 ^ 4
  mon : (components.mon + 1).toNat < 10 ^ 2
  mday : components.mday.toNat < 10 ^ 2
  hour : components.hour.toNat < 10 ^ 2
  min : components.min.toNat < 10 ^ 2
  sec : components.sec.toNat < 10 ^ 2
  usec : (components.usec.setWidth 32).toNat < 10 ^ 6

theorem printInt_length {width : Nat} {value : BitVec 32} (positive : 0 < width)
    (small : value.toNat < 10 ^ width) (word : 10 ^ width < 2 ^ 31) :
    (printInt width value).length = width := by
  have exact_ : value.toInt = value.toNat := BitVec.toInt_eq_toNat_of_lt (by omega)
  have length := @decimalDigits_length_le_of_lt (BitVec.ofNat 64 value.toNat) width positive (by
    rw [BitVec.toNat_ofNat]
    exact Nat.lt_of_le_of_lt (Nat.mod_le _ _) small)
  unfold printInt
  dsimp only
  rw [exact_, if_neg (by omega), Int.natAbs_natCast, List.nil_append, List.length_append,
    List.length_replicate, List.length_nil]
  omega

/-- The first assertion of `Logv`. -/
theorem header_length_le {components : Components} (calendar : components.Calendar)
    (threadId : Slice) : (header components threadId).length ≤ 28 + kMaxThreadIdSize := by
  have cut : ∀ bytes : Slice, bytes.length ≤ kMaxThreadIdSize →
      (bytes.takeWhile (· ≠ 0)).length ≤ kMaxThreadIdSize := fun bytes short =>
    Nat.le_trans (List.takeWhile_sublist _).length_le short
  have threadIdShort := cut
    (if threadId.length > kMaxThreadIdSize then threadId.take kMaxThreadIdSize else threadId) (by
      split
      · exact List.length_take_le _ _
      · exact Nat.le_of_not_gt ‹_›)
  unfold header
  simp only [List.length_append, List.length_singleton,
    printInt_length (by decide) calendar.year (by decide),
    printInt_length (by decide) calendar.mon (by decide),
    printInt_length (by decide) calendar.mday (by decide),
    printInt_length (by decide) calendar.hour (by decide),
    printInt_length (by decide) calendar.min (by decide),
    printInt_length (by decide) calendar.sec (by decide),
    printInt_length (by decide) calendar.usec (by decide)]
  omega

theorem header_ends (components : Components) (threadId : Slice) :
    (header components threadId).getLast? = some 0x20 := List.getLast?_concat

/-- Whatever the buffers held, `Logv` writes once, the header and the whole message, with a
newline behind them unless the message ends in one. No assertion fails, also not the one
that is there for a buffer that is too small, and all stores are within the buffers. -/
theorem logv_eq (components : Components) (threadId message : Slice)
    (garbage : Nat → Nat → Byte) (short : (header components threadId).length ≤ 60)
    (fits : (header components threadId).length + message.length + 2 < 2 ^ 31) :
    logv components threadId message garbage =
      some [header components threadId ++ message ++
        if message.getLast? = some 0x0a then [] else [0x0a]] := by
  have ends := header_ends components threadId
  have some_ : header components threadId ≠ [] := by
    intro none_
    rw [none_] at ends
    cases ends
  have line : (header components threadId ++ message).getLast? = some 0x0a ↔
      message.getLast? = some 0x0a := by
    rw [List.getLast?_append, ends]
    cases message.getLast? with
    | none => decide
    | some byte => rfl
  rw [logv, loop_eq some_ short fits garbage]
  simp only [line]

/-- Behind the longest header, the shortest message that the first buffer is too small for. -/
theorem logv_eq_full :
    let components : Components := ⟨126, 8, 30, 12, 0, 0, 7⟩
    let threadId : Slice := List.replicate 40 0x37
    let message : Slice := List.replicate 451 0x78
    logv components threadId message (fun _ _ => 0) =
      some [header components threadId ++ message ++ [0x0a]] := by
  intro components threadId message
  have calendar : components.Calendar := by
    constructor <;> decide
  have short := header_length_le calendar threadId
  have length : message.length = 451 := List.length_replicate
  have long : kMaxThreadIdSize = 32 := rfl
  exact logv_eq components threadId message _ short (by omega)

end PosixLogger

end MiniLevelDb
