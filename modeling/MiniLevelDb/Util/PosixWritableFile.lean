import MiniLevelDb.Util.Slice
import MiniLevelDb.Util.LockFile

/-!
# Buffered files

`PosixWritableFile` over the system calls it makes. What the kernel answers is not up
to the file, so the answers to the calls to come are given; once they are used up every
call succeeds in full. A call on a closed descriptor fails.
-/

namespace MiniLevelDb

open LockFile (Errno posixError posixError_isOk)

def kWritableFileBufferSize : Nat := 65536

def eintr : Nat := 4

def ebadf : Errno := ⟨9, "Bad file descriptor"⟩

/-- The answers to come of `::write` (how many bytes it accepts, if there are so many),
of `::open` (the descriptor), of `::fdatasync` and of `::close`. -/
structure Kernel where
  writes : List (Except Errno Nat)
  opens : List (Except Errno Int)
  syncs : List (Option Errno)
  closes : List (Option Errno)

/-- `::memcpy(buf + pos, data, data.size())`. -/
def memcpy (buf : Slice) (pos : Nat) (data : Slice) : Slice :=
  buf.take pos ++ data ++ buf.drop (pos + data.length)

/-- The members of the source, the bytes written to the descriptor, and the kernel. -/
structure PosixWritableFile where
  buf : Slice
  pos : Nat
  fd : Int
  isManifest : Bool
  filename : String
  dirname : String
  written : Slice
  kernel : Kernel

namespace PosixWritableFile

/-- `Basename`. -/
def basenameOf (filename : String) : String :=
  String.ofList (filename.toList.reverse.takeWhile (· ≠ '/')).reverse

/-- `Dirname`. -/
def dirnameOf (filename : String) : String :=
  if '/' ∈ filename.toList then
    String.ofList ((filename.toList.reverse.dropWhile (· ≠ '/')).tail.reverse)
  else "."

/-- `IsManifest`. -/
def isManifestName (filename : String) : Bool :=
  "MANIFEST".toList.isPrefixOf (basenameOf filename).toList

/-- The constructor; the buffer is whatever the memory held. -/
def new (filename : String) (fd : Int) (buf : Slice) (kernel : Kernel) : PosixWritableFile where
  buf := buf
  pos := 0
  fd := fd
  isManifest := isManifestName filename
  filename := filename
  dirname := dirnameOf filename
  written := []
  kernel := kernel

/-- The loop of `WriteUnbuffered`: the status, the bytes written and the answers left. -/
def writeLoop (filename : String) : List (Except Errno Nat) → Slice → Slice →
    Status × Slice × List (Except Errno Nat)
  | [], written, data => (.ok, written ++ data, [])
  | answer :: later, written, data =>
      if data.isEmpty then (.ok, written, answer :: later)
      else
        match answer with
        | .error error =>
            if error.number = eintr then writeLoop filename later written data
            else (posixError filename error, written, later)
        | .ok count => writeLoop filename later (written ++ data.take count) (data.drop count)

/-- `WriteUnbuffered`. -/
def writeUnbuffered (file : PosixWritableFile) (data : Slice) : Status × PosixWritableFile :=
  if data.isEmpty then (.ok, file)
  else if file.fd < 0 then (posixError file.filename ebadf, file)
  else
    let (status, written, later) := writeLoop file.filename file.kernel.writes file.written data
    (status, { file with written := written, kernel := { file.kernel with writes := later } })

/-- `FlushBuffer`. -/
def flushBuffer (file : PosixWritableFile) : Status × PosixWritableFile :=
  let (status, after) := file.writeUnbuffered (file.buf.take file.pos)
  (status, { after with pos := 0 })

/-- `Append`. -/
def append (file : PosixWritableFile) (data : Slice) : Status × PosixWritableFile :=
  let copySize := min data.length (kWritableFileBufferSize - file.pos)
  let filled := { file with
    buf := memcpy file.buf file.pos (data.take copySize)
    pos := file.pos + copySize }
  let writeData := data.drop copySize
  if writeData.length = 0 then (.ok, filled)
  else
    let (status, flushed) := filled.flushBuffer
    if ¬ status.isOk then (status, flushed)
    else if writeData.length < kWritableFileBufferSize then
      (.ok, { flushed with buf := memcpy flushed.buf 0 writeData, pos := writeData.length })
    else flushed.writeUnbuffered writeData

/-- `SyncFd`: `::fdatasync`. -/
def syncFd (file : PosixWritableFile) (fd : Int) (path : String) : Status × PosixWritableFile :=
  if fd < 0 then (posixError path ebadf, file)
  else
    let after := { file with kernel := { file.kernel with syncs := file.kernel.syncs.tail } }
    match file.kernel.syncs.head?.join with
    | none => (.ok, after)
    | some error => (posixError path error, after)

/-- `SyncDirIfManifest`; what `::close` answers is ignored. -/
def syncDirIfManifest (file : PosixWritableFile) : Status × PosixWritableFile :=
  if ¬ file.isManifest then (.ok, file)
  else
    let opened := { file with kernel := { file.kernel with opens := file.kernel.opens.tail } }
    match file.kernel.opens.head?.getD (.ok 0) with
    | .error error => (posixError file.dirname error, opened)
    | .ok fd =>
        let (status, synced) := opened.syncFd fd file.dirname
        (status, { synced with kernel :=
          { synced.kernel with closes := synced.kernel.closes.tail } })

/-- `Flush`. -/
def flush (file : PosixWritableFile) : Status × PosixWritableFile := file.flushBuffer

/-- `Sync`. -/
def sync (file : PosixWritableFile) : Status × PosixWritableFile :=
  let (status, synced) := file.syncDirIfManifest
  if ¬ status.isOk then (status, synced)
  else
    let (status, flushed) := synced.flushBuffer
    if ¬ status.isOk then (status, flushed)
    else flushed.syncFd flushed.fd flushed.filename

/-- What `::close(fd_)` answers. -/
def closeResult (file : PosixWritableFile) : Option Errno :=
  if file.fd < 0 then some ebadf else file.kernel.closes.head?.join

/-- `Close`. -/
def close (file : PosixWritableFile) : Status × PosixWritableFile :=
  let (status, flushed) := file.flushBuffer
  let after := { flushed with
    fd := -1
    kernel := { flushed.kernel with closes := flushed.kernel.closes.tail } }
  match flushed.closeResult with
  | none => (status, after)
  | some error => (if status.isOk then posixError flushed.filename error else status, after)

inductive Operation where
  | append (data : Slice)
  | flush
  | sync
  | close

/-- What an operation adds to the file. -/
def Operation.data : Operation → Slice
  | .append data => data
  | .flush | .sync | .close => []

def perform (file : PosixWritableFile) : Operation → Status × PosixWritableFile
  | .append data => file.append data
  | .flush => file.flush
  | .sync => file.sync
  | .close => file.close

/-- The statuses of the operations, and the file after them. -/
def performAll (file : PosixWritableFile) : List Operation → List Status × PosixWritableFile
  | [] => ([], file)
  | operation :: later =>
      let (status, after) := file.perform operation
      let (statuses, last) := after.performAll later
      (status :: statuses, last)

section Steps

variable {file : PosixWritableFile} {appended : Slice}

theorem length_memcpy {buf data : Slice} {pos : Nat} (fits : pos + data.length ≤ buf.length) :
    (memcpy buf pos data).length = buf.length := by
  simp only [memcpy, List.length_append, List.length_take, List.length_drop]
  omega

theorem take_memcpy {buf : Slice} {pos : Nat} (inside : pos ≤ buf.length) (data : Slice) :
    (memcpy buf pos data).take (pos + data.length) = buf.take pos ++ data := by
  have length : (buf.take pos ++ data).length = pos + data.length := by
    simp only [List.length_append, List.length_take]
    omega
  rw [memcpy, List.take_left' length]

/-- However the answers cut it, the data is written as it is. -/
theorem writeLoop_ok {filename : String} {writes : List (Except Errno Nat)}
    {written data : Slice} (passes : (writeLoop filename writes written data).1.isOk = true) :
    (writeLoop filename writes written data).2.1 = written ++ data := by
  induction writes generalizing written data with
  | nil => rfl
  | cons answer later ih =>
      unfold writeLoop at passes ⊢
      by_cases empty : data.isEmpty = true
      · rw [if_pos empty, List.isEmpty_iff.mp empty, List.append_nil]
      · rw [if_neg empty] at passes ⊢
        cases answer with
        | error error =>
            dsimp only at passes ⊢
            split at passes
            · rename_i interrupted
              rw [if_pos interrupted]
              exact ih passes
            · rw [posixError_isOk] at passes
              cases passes
        | ok count =>
            dsimp only at passes ⊢
            rw [ih passes, List.append_assoc, List.take_append_drop]

theorem writeUnbuffered_ok {data : Slice}
    (passes : (file.writeUnbuffered data).1.isOk = true) :
    ∃ kernel, (file.writeUnbuffered data).2 =
      { file with written := file.written ++ data, kernel := kernel } := by
  unfold writeUnbuffered at *
  split at passes
  · rename_i empty
    rw [List.isEmpty_iff.mp empty, List.append_nil]
    exact ⟨file.kernel, rfl⟩
  · split at passes
    · rw [posixError_isOk] at passes
      cases passes
    · rename_i some_ opened
      rw [if_neg some_, if_neg opened]
      dsimp only at passes ⊢
      rw [writeLoop_ok passes]
      exact ⟨_, rfl⟩

theorem syncFd_kernel (file : PosixWritableFile) (fd : Int) (path : String) :
    ∃ kernel, (file.syncFd fd path).2 = { file with kernel := kernel } := by
  unfold syncFd
  split
  · exact ⟨file.kernel, rfl⟩
  · dsimp only
    split
    · exact ⟨_, rfl⟩
    · exact ⟨_, rfl⟩

theorem syncDirIfManifest_kernel (file : PosixWritableFile) :
    ∃ kernel, file.syncDirIfManifest.2 = { file with kernel := kernel } := by
  unfold syncDirIfManifest
  split
  · exact ⟨file.kernel, rfl⟩
  · dsimp only
    split
    · exact ⟨_, rfl⟩
    · rename_i fd _
      obtain ⟨kernel, synced⟩ := syncFd_kernel
        { file with kernel := { file.kernel with opens := file.kernel.opens.tail } } fd file.dirname
      rw [synced]
      exact ⟨_, rfl⟩

/-- What was written and what the buffer holds is what was appended. -/
structure Holds (file : PosixWritableFile) (appended : Slice) : Prop where
  sized : file.buf.length = kWritableFileBufferSize
  bounded : file.pos ≤ kWritableFileBufferSize
  contents : file.written ++ file.buf.take file.pos = appended

namespace Holds

theorem withKernel (holds : Holds file appended) (kernel : Kernel) :
    Holds { file with kernel := kernel } appended :=
  ⟨holds.sized, holds.bounded, holds.contents⟩

/-- Copying what fits to the end of the buffer. -/
theorem fill (holds : Holds file appended) (data : Slice)
    (fits : file.pos + data.length ≤ kWritableFileBufferSize) :
    Holds { file with buf := memcpy file.buf file.pos data, pos := file.pos + data.length }
      (appended ++ data) where
  sized := by
    rw [length_memcpy (by rw [holds.sized]; exact fits)]
    exact holds.sized
  bounded := fits
  contents := by
    rw [take_memcpy (by rw [holds.sized]; exact holds.bounded), ← List.append_assoc,
      holds.contents]

theorem flushBuffer (holds : Holds file appended) (passes : file.flushBuffer.1.isOk = true) :
    Holds file.flushBuffer.2 appended ∧ file.flushBuffer.2.pos = 0 := by
  obtain ⟨kernel, after⟩ := writeUnbuffered_ok passes
  unfold PosixWritableFile.flushBuffer
  dsimp only
  rw [after, holds.contents]
  refine ⟨⟨holds.sized, Nat.zero_le _, ?_⟩, rfl⟩
  rw [List.take_zero, List.append_nil]

theorem append (holds : Holds file appended) {data : Slice}
    (passes : (file.append data).1.isOk = true) :
    Holds (file.append data).2 (appended ++ data) := by
  have bounded := holds.bounded
  generalize copied : min data.length (kWritableFileBufferSize - file.pos) = copySize
  have length : (data.take copySize).length = copySize := by
    rw [List.length_take]
    omega
  have filled := holds.fill (data.take copySize) (by omega)
  rw [length] at filled
  unfold PosixWritableFile.append at *
  dsimp only at passes ⊢
  rw [copied] at passes ⊢
  split at passes
  · rename_i empty
    rw [if_pos empty]
    rw [List.take_of_length_le (by rw [List.length_drop] at empty; omega)] at filled ⊢
    exact filled
  · rename_i more
    rw [if_neg more]
    split at passes
    · rename_i failed
      exact absurd passes failed
    · rename_i flushes
      have flushed := filled.flushBuffer (by simpa using flushes)
      rw [if_neg flushes]
      have whole : appended ++ data = appended ++ data.take copySize ++ data.drop copySize := by
        rw [List.append_assoc, List.take_append_drop]
      rw [whole]
      split at passes
      · rename_i small
        rw [if_pos small]
        have again := flushed.1.fill (data.drop copySize) (by rw [flushed.2]; omega)
        rw [flushed.2, Nat.zero_add] at again
        exact again
      · rename_i large
        rw [if_neg large]
        obtain ⟨kernel, after⟩ := writeUnbuffered_ok passes
        have contents := flushed.1.contents
        rw [flushed.2, List.take_zero, List.append_nil] at contents
        rw [after]
        refine ⟨flushed.1.sized, flushed.1.bounded, ?_⟩
        dsimp only
        rw [flushed.2, List.take_zero, List.append_nil, contents]

theorem sync (holds : Holds file appended) (passes : file.sync.1.isOk = true) :
    Holds file.sync.2 appended ∧ file.sync.2.pos = 0 := by
  obtain ⟨kernel, synced⟩ := syncDirIfManifest_kernel file
  have kept := holds.withKernel kernel
  rw [← synced] at kept
  unfold PosixWritableFile.sync at *
  dsimp only at passes ⊢
  split at passes
  · rename_i failed
    exact absurd passes failed
  · rename_i opened
    rw [if_neg opened]
    split at passes
    · rename_i failed
      exact absurd passes failed
    · rename_i flushes
      have flushed := kept.flushBuffer (by simpa using flushes)
      obtain ⟨later, after⟩ := syncFd_kernel file.syncDirIfManifest.2.flushBuffer.2
        file.syncDirIfManifest.2.flushBuffer.2.fd file.syncDirIfManifest.2.flushBuffer.2.filename
      rw [if_neg flushes, after]
      exact ⟨flushed.1.withKernel later, flushed.2⟩

theorem close (holds : Holds file appended) (passes : file.close.1.isOk = true) :
    Holds file.close.2 appended ∧ file.close.2.pos = 0 := by
  unfold PosixWritableFile.close at *
  dsimp only at passes ⊢
  split at passes
  · have flushed := holds.flushBuffer passes
    exact ⟨⟨flushed.1.sized, flushed.1.bounded, flushed.1.contents⟩, flushed.2⟩
  · dsimp only at passes
    split at passes
    · rw [posixError_isOk] at passes
      cases passes
    · rename_i failed
      exact absurd passes failed

/-- One operation that returns OK. -/
theorem perform (holds : Holds file appended) {operation : Operation}
    (passes : (file.perform operation).1.isOk = true) :
    Holds (file.perform operation).2 (appended ++ operation.data) ∧
      ((∀ data, operation ≠ .append data) → (file.perform operation).2.pos = 0) := by
  cases operation with
  | append data => exact ⟨holds.append passes, fun other => absurd rfl (other data)⟩
  | flush =>
      obtain ⟨kept, empty⟩ := holds.flushBuffer passes
      exact ⟨(List.append_nil appended).symm ▸ kept, fun _ => empty⟩
  | sync =>
      obtain ⟨kept, empty⟩ := holds.sync passes
      exact ⟨(List.append_nil appended).symm ▸ kept, fun _ => empty⟩
  | close =>
      obtain ⟨kept, empty⟩ := holds.close passes
      exact ⟨(List.append_nil appended).symm ▸ kept, fun _ => empty⟩

/-- Operations that all return OK. -/
theorem performAll {operations : List Operation} (holds : Holds file appended)
    (passes : ∀ status ∈ (file.performAll operations).1, status.isOk = true) :
    Holds (file.performAll operations).2 (appended ++ operations.flatMap Operation.data) ∧
      ∀ operation, operations.getLast? = some operation → (∀ data, operation ≠ .append data) →
        (file.performAll operations).2.pos = 0 := by
  induction operations generalizing file appended with
  | nil =>
      rw [List.flatMap_nil, List.append_nil]
      exact ⟨holds, fun operation last => nomatch last⟩
  | cons operation later ih =>
      have first := passes _ List.mem_cons_self
      have rest := fun status member => passes status (List.mem_cons_of_mem _ member)
      obtain ⟨kept, empty⟩ := holds.perform first
      obtain ⟨whole, emptyLast⟩ := ih kept rest
      rw [List.append_assoc, ← List.flatMap_cons] at whole
      refine ⟨whole, fun last isLast => ?_⟩
      cases later with
      | nil =>
          obtain rfl : operation = last := Option.some.inj isLast
          exact empty
      | cons second later =>
          rw [List.getLast?_cons_cons] at isLast
          exact emptyLast last isLast

end Holds

/-- When the loop fails, a part of the data has been written, and not all of it. -/
theorem writeLoop_failed {filename : String} {writes : List (Except Errno Nat)}
    {written data : Slice} (fails : (writeLoop filename writes written data).1.isOk = false) :
    ∃ count < data.length,
      (writeLoop filename writes written data).2.1 = written ++ data.take count := by
  induction writes generalizing written data with
  | nil => cases fails
  | cons answer later ih =>
      unfold writeLoop at fails ⊢
      by_cases empty : data.isEmpty = true
      · rw [if_pos empty] at fails
        cases fails
      · rw [if_neg empty] at fails ⊢
        have some_ : 0 < data.length := by
          apply List.length_pos_iff.mpr
          simpa using empty
        cases answer with
        | error error =>
            dsimp only at fails ⊢
            split at fails
            · rename_i interrupted
              rw [if_pos interrupted]
              exact ih fails
            · rename_i failed
              rw [if_neg failed]
              exact ⟨0, some_, (List.append_nil _).symm⟩
        | ok accepted =>
            dsimp only at fails ⊢
            obtain ⟨count, short, after⟩ := ih fails
            rw [List.length_drop] at short
            refine ⟨accepted + count, by omega, ?_⟩
            rw [after, List.append_assoc, List.take_add]

/-- A flush that fails writes a part of what the file holds, and not all of it. -/
theorem Holds.flushBuffer_failed (holds : Holds file appended)
    (fails : file.flushBuffer.1.isOk = false) :
    ∃ count, file.written.length ≤ count ∧ count < appended.length ∧
      file.flushBuffer.2.written = appended.take count := by
  obtain ⟨sized, bounded, contents⟩ := holds
  unfold PosixWritableFile.flushBuffer writeUnbuffered at *
  dsimp only at fails ⊢
  by_cases empty : (file.buf.take file.pos).isEmpty = true
  · rw [if_pos empty] at fails
    cases fails
  · rw [if_neg empty] at fails ⊢
    by_cases closed : file.fd < 0
    · rw [if_pos closed]
      refine ⟨file.written.length, Nat.le_refl _, ?_, ?_⟩
      · rw [← contents, List.length_append]
        have := List.length_pos_iff.mpr (by simpa using empty : file.buf.take file.pos ≠ [])
        omega
      · rw [← contents, List.take_left]
    · rw [if_neg closed] at fails ⊢
      dsimp only at fails ⊢
      obtain ⟨count, short, after⟩ := writeLoop_failed fails
      refine ⟨file.written.length + count, Nat.le_add_right _ _, ?_, ?_⟩
      · rw [← contents, List.length_append]
        exact Nat.add_lt_add_left short _
      · rw [after, ← contents, List.take_length_add_append]

/-- Whatever is answered, what is written of the data is a part of it from its start. -/
theorem writeUnbuffered_part (file : PosixWritableFile) (data : Slice) :
    ∃ part kernel, part <+: data ∧ (file.writeUnbuffered data).2 =
      { file with written := file.written ++ part, kernel := kernel } := by
  by_cases passes : (file.writeUnbuffered data).1.isOk = true
  · obtain ⟨kernel, after⟩ := writeUnbuffered_ok passes
    exact ⟨data, kernel, List.prefix_rfl, after⟩
  · unfold writeUnbuffered at *
    by_cases empty : data.isEmpty = true
    · rw [if_pos empty] at passes
      exact absurd rfl passes
    · rw [if_neg empty] at passes ⊢
      by_cases closed : file.fd < 0
      · rw [if_pos closed]
        exact ⟨[], file.kernel, List.nil_prefix, by rw [List.append_nil]⟩
      · rw [if_neg closed] at passes ⊢
        dsimp only at passes ⊢
        obtain ⟨count, _, after⟩ := writeLoop_failed (Bool.eq_false_iff.mpr passes)
        rw [after]
        exact ⟨data.take count, _, List.take_prefix _ _, rfl⟩

/-- What was written and what the buffer holds is a part, from its start, of what was
appended. -/
def HoldsPart (file : PosixWritableFile) (appended : Slice) : Prop :=
  ∃ held, held <+: appended ∧ Holds file held

namespace Holds

theorem part (holds : Holds file appended) : HoldsPart file appended :=
  ⟨appended, List.prefix_rfl, holds⟩

/-- The buffer is empty after a flush, even if the flush failed. -/
theorem flushBuffer_part (holds : Holds file appended) :
    HoldsPart file.flushBuffer.2 appended := by
  obtain ⟨part, kernel, isPrefix, after⟩ := file.writeUnbuffered_part (file.buf.take file.pos)
  refine ⟨file.written ++ part, ?_, ?_⟩
  · rw [← holds.contents]
    exact (List.prefix_append_right_inj _).mpr isPrefix
  · unfold PosixWritableFile.flushBuffer
    dsimp only
    rw [after]
    refine ⟨holds.sized, Nat.zero_le _, ?_⟩
    rw [List.take_zero, List.append_nil]

theorem append_part (holds : Holds file appended) (data : Slice) :
    HoldsPart (file.append data).2 (appended ++ data) := by
  by_cases passes : (file.append data).1.isOk = true
  · exact (holds.append passes).part
  · have bounded := holds.bounded
    generalize copied : min data.length (kWritableFileBufferSize - file.pos) = copySize
    have length : (data.take copySize).length = copySize := by
      rw [List.length_take, ← copied]
      exact Nat.min_eq_left (Nat.min_le_left _ _)
    have filled := holds.fill (data.take copySize) (by omega)
    rw [length] at filled
    have whole : appended ++ data = appended ++ data.take copySize ++ data.drop copySize := by
      rw [List.append_assoc, List.take_append_drop]
    unfold PosixWritableFile.append at *
    dsimp only at passes ⊢
    rw [copied] at passes ⊢
    rw [whole]
    split at passes
    · exact absurd rfl passes
    · rename_i more
      rw [if_neg more]
      split at passes
      · rename_i failed
        rw [if_pos failed]
        obtain ⟨held, isPrefix, kept⟩ := filled.flushBuffer_part
        exact ⟨held, isPrefix.trans (List.prefix_append _ _), kept⟩
      · rename_i flushes
        rw [if_neg flushes]
        split at passes
        · exact absurd rfl passes
        · rename_i large
          rw [if_neg large]
          obtain ⟨flushed, empty⟩ := filled.flushBuffer (by simpa using flushes)
          have contents := flushed.contents
          rw [empty, List.take_zero, List.append_nil] at contents
          obtain ⟨part, kernel, isPrefix, after⟩ :=
            writeUnbuffered_part _ (data.drop copySize)
          rw [after]
          refine ⟨appended ++ data.take copySize ++ part,
            (List.prefix_append_right_inj _).mpr isPrefix, flushed.sized, flushed.bounded, ?_⟩
          dsimp only
          rw [empty, List.take_zero, List.append_nil, contents]

theorem sync_part (holds : Holds file appended) : HoldsPart file.sync.2 appended := by
  obtain ⟨kernel, synced⟩ := syncDirIfManifest_kernel file
  have kept := holds.withKernel kernel
  rw [← synced] at kept
  unfold PosixWritableFile.sync
  dsimp only
  split
  · exact kept.part
  · obtain ⟨held, isPrefix, flushed⟩ := kept.flushBuffer_part
    split
    · exact ⟨held, isPrefix, flushed⟩
    · obtain ⟨later, after⟩ := syncFd_kernel file.syncDirIfManifest.2.flushBuffer.2
        file.syncDirIfManifest.2.flushBuffer.2.fd file.syncDirIfManifest.2.flushBuffer.2.filename
      rw [after]
      exact ⟨held, isPrefix, flushed.withKernel later⟩

theorem close_part (holds : Holds file appended) : HoldsPart file.close.2 appended := by
  obtain ⟨held, isPrefix, flushed⟩ := holds.flushBuffer_part
  unfold PosixWritableFile.close
  dsimp only
  split <;> exact ⟨held, isPrefix, flushed.sized, flushed.bounded, flushed.contents⟩

end Holds

/-- Data that fits into the buffer is copied there, and nothing is written. -/
theorem append_of_fits {data : Slice}
    (fits : file.pos + data.length ≤ kWritableFileBufferSize) :
    file.append data = (.ok,
      { file with buf := memcpy file.buf file.pos data, pos := file.pos + data.length }) := by
  have all : min data.length (kWritableFileBufferSize - file.pos) = data.length := by
    apply Nat.min_eq_left
    omega
  unfold append
  dsimp only
  rw [all, List.take_length, List.drop_length, if_pos List.length_nil]

end Steps

/-- After operations that all return OK, whatever part of its requests `::write` accepted
and however often it was interrupted, the bytes written and those in the buffer are
those that were appended; after a `Flush`, `Sync` or `Close` the buffer is empty. -/
theorem performAll_holds (filename : String) (fd : Int) (kernel : Kernel) {buf : Slice}
    (sized : buf.length = kWritableFileBufferSize) {operations : List Operation}
    (passes : ∀ status ∈ ((new filename fd buf kernel).performAll operations).1,
      status.isOk = true) :
    let file := ((new filename fd buf kernel).performAll operations).2
    file.pos ≤ kWritableFileBufferSize ∧
      file.written ++ file.buf.take file.pos = operations.flatMap Operation.data ∧
      ∀ operation, operations.getLast? = some operation → (∀ data, operation ≠ .append data) →
        file.pos = 0 ∧ file.written = operations.flatMap Operation.data := by
  intro file
  have fresh : Holds (new filename fd buf kernel) [] := ⟨sized, Nat.zero_le _, rfl⟩
  obtain ⟨holds, emptied⟩ := fresh.performAll passes
  rw [List.nil_append] at holds
  refine ⟨holds.bounded, holds.contents, fun operation isLast other => ?_⟩
  have empty : file.pos = 0 := emptied operation isLast other
  have contents : file.written ++ file.buf.take file.pos = _ := holds.contents
  rw [empty, List.take_zero, List.append_nil] at contents
  exact ⟨empty, contents⟩

/-- A manifest over a buffer of zeros, with `::write` interrupted once and then accepting
one byte only. -/
theorem performAll_holds_manifest :
    let buf : Slice := List.replicate kWritableFileBufferSize 0
    let kernel : Kernel := ⟨[.error ⟨4, "Interrupted system call"⟩, .ok 1], [], [], []⟩
    let operations : List Operation := [.append [1, 2], .append [3], .sync, .append [4], .close]
    let file := ((new "db/MANIFEST-1" 3 buf kernel).performAll operations).2
    file.pos ≤ kWritableFileBufferSize ∧
      file.written ++ file.buf.take file.pos = operations.flatMap Operation.data ∧
      ∀ operation, operations.getLast? = some operation → (∀ data, operation ≠ .append data) →
        file.pos = 0 ∧ file.written = operations.flatMap Operation.data :=
  performAll_holds _ _ _ List.length_replicate (by decide +kernel)

end PosixWritableFile

end MiniLevelDb
