import MiniLevelDb.Util.PosixWritableFile

/-!
# Sequential files

`PosixSequentialFile` over the answers of `::read`. The file is regular: a read that is
not at its end returns at least one byte, and a read at its end returns none. Once the
answers are used up, every read returns all that was asked for. `Skip` needs the whole file
and the place in it, which a `SeekableFile` has.
-/

namespace MiniLevelDb

open LockFile (Errno posixError posixError_isOk)

/-- The file name, the bytes from the position of the descriptor on, and the answers to
come of `::read` (how many bytes it returns, if there are so many). -/
structure PosixSequentialFile where
  filename : String
  rest : Slice
  reads : List (Except Errno Nat)

namespace PosixSequentialFile

/-- The loop of `Read`: the status, the bytes read, the bytes left and the answers left. -/
def readLoop (filename : String) (n : Nat) (rest : Slice) :
    List (Except Errno Nat) → Status × Slice × Slice × List (Except Errno Nat)
  | [] => (.ok, rest.take n, rest.drop n, [])
  | .error error :: later =>
      if error.number = eintr then readLoop filename n rest later
      else (posixError filename error, [], rest, later)
  | .ok count :: later =>
      let readSize := min n (max 1 count)
      (.ok, rest.take readSize, rest.drop readSize, later)

/-- `Read`; the caller's slice is empty and stays so when the read fails. -/
def read (file : PosixSequentialFile) (n : Nat) : Status × Slice × PosixSequentialFile :=
  let (status, fragment, rest, later) := readLoop file.filename n file.rest file.reads
  (status, fragment, { file with rest := rest, reads := later })

/-- A read fails and moves nothing, or returns a part of what is left, some of it when
there is some. -/
theorem readLoop_cases (filename : String) {n : Nat} (some_ : 0 < n) (rest : Slice)
    (reads : List (Except Errno Nat)) :
    (∃ status later, status.isOk = false ∧
        readLoop filename n rest reads = (status, [], rest, later)) ∨
      ∃ count later, 0 < count ∧
        readLoop filename n rest reads = (.ok, rest.take count, rest.drop count, later) := by
  induction reads with
  | nil => exact .inr ⟨n, [], some_, rfl⟩
  | cons answer later ih =>
      cases answer with
      | error error =>
          by_cases interrupted : error.number = eintr
          · rw [readLoop, if_pos interrupted]
            exact ih
          · rw [readLoop, if_neg interrupted]
            exact .inl ⟨_, later, posixError_isOk _ _, rfl⟩
      | ok count =>
          refine .inr ⟨min n (max 1 count), later, ?_, rfl⟩
          exact Nat.lt_min.mpr ⟨some_, Nat.lt_of_lt_of_le Nat.one_pos (Nat.le_max_left _ _)⟩

/-- Whatever it was asked for, a read returns a part of what is left. -/
theorem readLoop_part (filename : String) (n : Nat) (rest : Slice)
    (reads : List (Except Errno Nat)) :
    ∃ status count later, count ≤ n ∧
      readLoop filename n rest reads = (status, rest.take count, rest.drop count, later) := by
  induction reads with
  | nil => exact ⟨_, n, [], Nat.le_refl _, rfl⟩
  | cons answer later ih =>
      cases answer with
      | error error =>
          by_cases interrupted : error.number = eintr
          · rw [readLoop, if_pos interrupted]
            exact ih
          · rw [readLoop, if_neg interrupted]
            exact ⟨_, 0, later, Nat.zero_le _, rfl⟩
      | ok count => exact ⟨_, _, later, Nat.min_le_left _ _, rfl⟩

/-- `Read` in the same two cases. -/
theorem read_cases (file : PosixSequentialFile) {n : Nat} (some_ : 0 < n) :
    (∃ status later, status.isOk = false ∧
        file.read n = (status, [], { file with reads := later })) ∨
      ∃ count later, 0 < count ∧
        file.read n = (.ok, file.rest.take count,
          { file with rest := file.rest.drop count, reads := later }) := by
  obtain ⟨status, later, failed, answer⟩ | ⟨count, later, positive, answer⟩ :=
    readLoop_cases file.filename some_ file.rest file.reads
  · refine .inl ⟨status, later, failed, ?_⟩
    rw [read, answer]
  · refine .inr ⟨count, later, positive, ?_⟩
    rw [read, answer]

/-- A read that returns something leaves less. -/
theorem length_rest_read_lt (file : PosixSequentialFile) {n : Nat} (some_ : 0 < n)
    (found : (file.read n).2.1.isEmpty = false) :
    (file.read n).2.2.rest.length < file.rest.length := by
  obtain ⟨status, later, failed, answer⟩ | ⟨count, later, positive, answer⟩ :=
    file.read_cases some_
  · rw [answer] at found
    cases found
  · rw [answer] at found ⊢
    dsimp only at found ⊢
    rw [List.length_drop]
    apply Nat.sub_lt _ positive
    apply List.length_pos_iff.mpr
    intro empty
    rw [empty, List.take_nil] at found
    cases found

/-- Interrupted reads apart, every answer is that at least `n` bytes can be had. -/
structure Whole (n : Nat) (reads : List (Except Errno Nat)) : Prop where
  interrupted : ∀ error, .error error ∈ reads → error.number = eintr
  long : ∀ count, .ok count ∈ reads → n ≤ count

theorem Whole.tail {n : Nat} {answer : Except Errno Nat} {later : List (Except Errno Nat)}
    (whole : Whole n (answer :: later)) : Whole n later where
  interrupted := fun error member => whole.interrupted error (List.mem_cons_of_mem _ member)
  long := fun count member => whole.long count (List.mem_cons_of_mem _ member)

/-- Reads that only such answers meet return all that was asked for. -/
theorem Whole.readLoop {n : Nat} (some_ : 0 < n) (filename : String) (rest : Slice)
    {reads : List (Except Errno Nat)} (whole : Whole n reads) :
    ∃ later, Whole n later ∧
      readLoop filename n rest reads = (.ok, rest.take n, rest.drop n, later) := by
  induction reads with
  | nil => exact ⟨[], whole, rfl⟩
  | cons answer later ih =>
      cases answer with
      | error error =>
          rw [PosixSequentialFile.readLoop, if_pos (whole.interrupted error List.mem_cons_self)]
          exact ih whole.tail
      | ok count =>
          have long := whole.long count List.mem_cons_self
          refine ⟨later, whole.tail, ?_⟩
          rw [PosixSequentialFile.readLoop, Nat.max_eq_right (some_.trans_le long),
            Nat.min_eq_left long]

end PosixSequentialFile

/-- `EINVAL`. -/
def einval : Errno := ⟨22, "Invalid argument"⟩

/-- A `PosixSequentialFile` with the bytes of its file, the offset of the descriptor and the
largest offset that the file system allows. -/
structure SeekableFile where
  filename : String
  contents : Slice
  offset : Nat
  maxOffset : Nat
  reads : List (Except Errno Nat)

namespace SeekableFile

/-- The file as `Read` needs it. -/
def ahead (file : SeekableFile) : PosixSequentialFile :=
  ⟨file.filename, file.contents.drop file.offset, file.reads⟩

/-- `Read`. -/
def read (file : SeekableFile) (n : Nat) : Status × Slice × SeekableFile :=
  let (status, fragment, after) := file.ahead.read n
  (status, fragment,
    { file with offset := file.offset + fragment.length, reads := after.reads })

/-- `Skip`: the count is converted to a signed number, and `lseek` refuses an offset before
the start of the file or beyond what the file system allows. -/
def skip (file : SeekableFile) (n : Nat) : Status × SeekableFile :=
  let target : Int := file.offset + (BitVec.ofNat 64 n).toInt
  if 0 ≤ target ∧ target ≤ file.maxOffset then
    (.ok, { file with offset := target.toNat })
  else
    (posixError file.filename einval, file)

/-- A read fails and moves nothing, or returns a part of what is left, some of it when
there is some. -/
theorem read_cases (file : SeekableFile) {n : Nat} (some_ : 0 < n) :
    (∃ status later, status.isOk = false ∧
        file.read n = (status, [], { file with reads := later })) ∨
      ∃ count later, 0 < count ∧ file.read n = (.ok, (file.contents.drop file.offset).take count,
        { file with
          offset := file.offset + ((file.contents.drop file.offset).take count).length
          reads := later }) := by
  obtain ⟨status, later, failed, answer⟩ | ⟨count, later, positive, answer⟩ :=
    file.ahead.read_cases some_
  · refine .inl ⟨status, later, failed, ?_⟩
    rw [read, answer]
    rfl
  · refine .inr ⟨count, later, positive, ?_⟩
    rw [read, answer]
    rfl

/-- A read returns no more than was asked for and no more than is left. -/
theorem length_read_le (file : SeekableFile) (n : Nat) :
    (file.read n).2.1.length ≤ n ∧
      (file.read n).2.1.length ≤ file.contents.length - file.offset := by
  obtain ⟨status, count, later, bound, answer⟩ :=
    PosixSequentialFile.readLoop_part file.filename n (file.contents.drop file.offset) file.reads
  have part : (file.read n).2.1 = (file.contents.drop file.offset).take count := by
    rw [read, PosixSequentialFile.read, ahead, answer]
  rw [part, ← List.length_drop]
  exact ⟨(List.length_take_le _ _).trans bound, List.length_take_le' _ _⟩

/-- A read that is answered in full. -/
theorem read_whole (file : SeekableFile) {n : Nat} (some_ : 0 < n)
    (whole : PosixSequentialFile.Whole n file.reads) :
    ∃ later, PosixSequentialFile.Whole n later ∧
      file.read n = (.ok, (file.contents.drop file.offset).take n,
        { file with
          offset := file.offset + ((file.contents.drop file.offset).take n).length
          reads := later }) := by
  obtain ⟨later, still, answer⟩ :=
    whole.readLoop some_ file.filename (file.contents.drop file.offset)
  refine ⟨later, still, ?_⟩
  rw [read, PosixSequentialFile.read, ahead, answer]

end SeekableFile

end MiniLevelDb
