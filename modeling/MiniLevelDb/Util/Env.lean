import MiniLevelDb.Util.Slice
import MiniLevelDb.Util.Status

/-!
# Files

The two file interfaces the log runs over. Which calls fail is not up to the
log, so a file carries the outcomes its next calls will report; once they are
used up, every call succeeds. An `Append` that fails writes nothing, a `Read`
that fails returns nothing, and a `Read` that succeeds returns as many of the
requested bytes as there are.
-/

namespace MiniLevelDb

/-- A `WritableFile`: the bytes appended so far, the outcomes of the next `Append`
and `Flush` calls, and how many bytes the `Append` calls that failed so far were
asked to write. -/
structure WritableFile where
  contents : Slice
  outcomes : List Status
  refused : Nat

namespace WritableFile

/-- `WritableFile::Append`. -/
def append (file : WritableFile) (data : Slice) : Status × WritableFile :=
  match file.outcomes with
  | [] => (.ok, { file with contents := file.contents ++ data })
  | outcome :: later =>
      (outcome,
        { contents := if outcome.isOk then file.contents ++ data else file.contents
          outcomes := later
          refused := if outcome.isOk then file.refused else file.refused + data.length })

/-- `WritableFile::Flush`. -/
def flush (file : WritableFile) : Status × WritableFile :=
  match file.outcomes with
  | [] => (.ok, file)
  | outcome :: later => (outcome, { file with outcomes := later })

theorem refused_le_append (file : WritableFile) (data : Slice) :
    file.refused ≤ (file.append data).2.refused := by
  unfold append
  split
  · exact Nat.le_refl _
  · dsimp only
    split <;> omega

theorem flush_contents (file : WritableFile) : file.flush.2.contents = file.contents := by
  unfold flush
  split <;> rfl

theorem flush_refused (file : WritableFile) : file.flush.2.refused = file.refused := by
  unfold flush
  split <;> rfl

/-- Unless bytes are refused, an append writes them, whatever its outcome. -/
theorem append_contents {file : WritableFile} {data : Slice}
    (spared : (file.append data).2.refused = file.refused) :
    (file.append data).2.contents = file.contents ++ data := by
  unfold append at *
  split at spared
  · rfl
  · rename_i outcome later _
    dsimp only at *
    cases passes : outcome.isOk with
    | true => rfl
    | false =>
        rw [passes, if_neg (by decide)] at spared
        have empty : data = [] := List.eq_nil_of_length_eq_zero (by omega)
        rw [empty, List.append_nil]
        rfl

/-- An append that is asked to write something fails only by refusing it. -/
theorem append_isOk {file : WritableFile} {data : Slice} (some_ : 0 < data.length)
    (spared : (file.append data).2.refused = file.refused) :
    (file.append data).1.isOk = true := by
  unfold append at *
  split at spared
  · rfl
  · rename_i outcome later _
    dsimp only at *
    cases passes : outcome.isOk with
    | true => rfl
    | false =>
        rw [passes, if_neg (by decide)] at spared
        omega

/-- Once the outcomes are used up every append succeeds. -/
theorem append_sound {file : WritableFile} (data : Slice) (sound : file.outcomes = []) :
    file.append data = (.ok, { file with contents := file.contents ++ data }) := by
  unfold append
  rw [sound]

theorem flush_sound {file : WritableFile} (sound : file.outcomes = []) :
    file.flush = (.ok, file) := by
  unfold flush
  rw [sound]

end WritableFile

/-- A `SequentialFile`: the bytes after the current position, the outcomes of
the next `Read` calls, and what `Skip` answers when it runs past the end (the
implementations differ: one stops at the end, one fails). -/
structure SequentialFile where
  rest : Slice
  outcomes : List Status
  pastEnd : Status

namespace SequentialFile

/-- `SequentialFile::Read`: the status, the bytes read and the file after. -/
def read (file : SequentialFile) (count : Nat) : Status × Slice × SequentialFile :=
  match file.outcomes with
  | [] => (.ok, file.rest.take count, { file with rest := file.rest.drop count })
  | outcome :: later =>
      if outcome.isOk then
        (outcome, file.rest.take count,
          { file with rest := file.rest.drop count, outcomes := later })
      else
        (outcome, [], { file with outcomes := later })

/-- `SequentialFile::Skip`. -/
def skip (file : SequentialFile) (count : Nat) : Status × SequentialFile :=
  if count > file.rest.length then
    (file.pastEnd, { file with rest := [] })
  else
    (.ok, { file with rest := file.rest.drop count })

theorem length_read_le (file : SequentialFile) (count : Nat) :
    (file.read count).2.1.length + (file.read count).2.2.rest.length ≤ file.rest.length := by
  unfold read
  split
  · simp only [List.length_take, List.length_drop]
    omega
  · split
    · simp only [List.length_take, List.length_drop]
      omega
    · simp

theorem length_read_le_count (file : SequentialFile) (count : Nat) :
    (file.read count).2.1.length ≤ count := by
  unfold read
  split
  · exact List.length_take_le _ _
  · split
    · exact List.length_take_le _ _
    · exact Nat.zero_le _

/-- A `Read` that fails returns nothing. -/
theorem read_of_failed {file : SequentialFile} {count : Nat}
    (failed : (file.read count).1.isOk = false) : (file.read count).2.1 = [] := by
  unfold read at *
  split at failed
  · cases failed
  · split at failed
    · rename_i passed
      rw [passed] at failed
      cases failed
    · rename_i refused
      rw [if_neg refused]

theorem length_skip_le (file : SequentialFile) (count : Nat) :
    (file.skip count).2.rest.length ≤ file.rest.length := by
  unfold skip
  split
  · simp
  · simp only [List.length_drop]
    omega

end SequentialFile

end MiniLevelDb
