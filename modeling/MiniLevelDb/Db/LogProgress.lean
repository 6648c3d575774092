import MiniLevelDb.Db.LogAssemble
import MiniLevelDb.Db.LogReaderSteps

/-!
# Progress of the reader

Whatever the bytes of the file are, each record the reader returns uses up a
header and its payload, taken from what is left of the file and from the fragments
collected so far.
-/

namespace MiniLevelDb.Log

/-- The bytes collected for the record under way. -/
def Assembly.held (assembly : Assembly) : Nat :=
  if assembly.inFragmentedRecord then assembly.scratch.length else 0

namespace Assembly

theorem held_of_not {assembly : Assembly} (none_ : assembly.inFragmentedRecord = false) :
    assembly.held = 0 := by
  rw [held, none_]
  rfl

theorem held_of_fragmented {assembly : Assembly}
    (fragmented : assembly.inFragmentedRecord = true) :
    assembly.held = assembly.scratch.length := by
  rw [held, fragmented]
  rfl

end Assembly

namespace Reader

variable {reader : Reader} {assembly next : Assembly} {fragment record : Slice}

/-! ## What a physical record uses up -/

theorem uses_parseRecord (result : Slice) (ended : (reader.parseRecord result).1 ≠ kEof)
    (bad : (reader.parseRecord result).1 ≠ kBadRecord) :
    kHeaderSize + (reader.parseRecord result).2.1.length +
      (reader.parseRecord result).2.2.remaining ≤ reader.remaining := by
  unfold parseRecord at *
  dsimp only at *
  split at ended
  · split at ended
    · rename_i long open_
      rw [if_pos long, if_pos open_] at bad
      exact absurd rfl bad
    · exact absurd rfl ended
  rename_i short
  rw [if_neg short] at bad ⊢
  split at ended
  · rename_i zero
    rw [if_pos zero] at bad
    exact absurd rfl bad
  rename_i some_
  rw [if_neg some_] at bad ⊢
  split at ended
  · rename_i mismatch
    rw [if_pos mismatch] at bad
    exact absurd rfl bad
  rename_i passed
  rw [if_neg passed] at bad ⊢
  split at ended
  · rename_i before
    rw [if_pos before] at bad
    exact absurd rfl bad
  rename_i wanted
  rw [if_neg wanted]
  simp only [remaining, removePrefix, List.length_take, List.length_drop]
  omega

/-- A physical record that is returned uses up its header and its payload. -/
theorem uses_readPhysicalRecord (result : Slice)
    (ended : (reader.readPhysicalRecord result).1 ≠ kEof)
    (bad : (reader.readPhysicalRecord result).1 ≠ kBadRecord) :
    kHeaderSize + (reader.readPhysicalRecord result).2.1.length +
      (reader.readPhysicalRecord result).2.2.remaining ≤ reader.remaining := by
  induction reader using readPhysicalRecord.induct with
  | case1 reader short open_ refilled passed ih =>
      rw [readPhysicalRecord, if_pos short, if_pos open_] at ended bad ⊢
      dsimp only at ended bad ⊢
      rw [if_pos passed] at ended bad ⊢
      have filled : refilled.2.remaining ≤ reader.file.rest.length :=
        remaining_refill_le reader.clearBuffer
      exact (ih ended bad).trans (filled.trans (Nat.le_add_left _ _))
  | case2 reader short open_ refilled failed =>
      rw [readPhysicalRecord, if_pos short, if_pos open_] at ended
      dsimp only at ended
      rw [if_neg failed] at ended
      exact absurd rfl ended
  | case3 reader short closed =>
      rw [readPhysicalRecord, if_pos short, if_neg closed] at ended
      exact absurd rfl ended
  | case4 reader full =>
      rw [readPhysicalRecord, if_neg full] at ended bad ⊢
      exact uses_parseRecord result ended bad

/-- The same for a record of a known type. -/
theorem uses_of_type {type : RecordType}
    (typed : (reader.readPhysicalRecord fragment).1 = type.code) :
    kHeaderSize + (reader.readPhysicalRecord fragment).2.1.length +
      (reader.readPhysicalRecord fragment).2.2.remaining ≤ reader.remaining := by
  apply uses_readPhysicalRecord
  · rw [typed]
    exact type.code_ne_kEof
  · rw [typed]
    exact type.code_ne_kBadRecord

/-! ## What a logical record uses up -/

/-- An iteration that goes on collects no more than it uses up. -/
theorem held_iteration (sound : assembly.Sound)
    (decided : (reader.iteration assembly fragment).1 = .again next) :
    next.Sound ∧ next.held + (reader.iteration assembly fragment).2.1.remaining ≤
      assembly.held + reader.remaining := by
  have progress : (reader.iteration assembly fragment).2.1.remaining < reader.remaining := by
    apply remaining_iteration_lt
    intro after stopped
    exact Verdict.noConfusion (decided.symm.trans stopped)
  obtain ⟨nextSound, cases⟩ := Assembly.accept_again sound decided
  refine ⟨nextSound, ?_⟩
  rcases cases with none_ | ⟨typed, rfl⟩ | ⟨typed, fragmented, rfl⟩
  · rw [Assembly.held_of_not none_]
    omega
  · have used := uses_of_type typed
    simp only [iteration, remaining_reportIfAny, Assembly.held, ↓reduceIte]
    omega
  · have used := uses_of_type typed
    rw [Assembly.held_of_fragmented fragmented]
    simp only [iteration, remaining_reportIfAny, Assembly.held, ↓reduceIte, List.length_append]
    omega

/-- An iteration that finds a record uses up a header and what was not collected
before. -/
theorem uses_iteration {offset : BitVec 64}
    (decided : (reader.iteration assembly fragment).1 = .found record offset next) :
    kHeaderSize + record.length + (reader.iteration assembly fragment).2.1.remaining ≤
      assembly.held + reader.remaining := by
  simp only [iteration, remaining_reportIfAny]
  rcases Assembly.accept_found decided with ⟨typed, rfl, _⟩ | ⟨typed, fragmented, rfl, _⟩
  · exact (uses_of_type typed).trans (Nat.le_add_left _ _)
  · have used := uses_of_type typed
    rw [Assembly.held_of_fragmented fragmented, List.length_append]
    omega

theorem uses_readRecordLoop (sound : assembly.Sound)
    (found : (reader.readRecordLoop assembly fragment).1 = some record) :
    kHeaderSize + record.length + (reader.readRecordLoop assembly fragment).2.remaining ≤
      assembly.held + reader.remaining := by
  induction reader, assembly, fragment using readRecordLoop.induct with
  | case1 reader assembly fragment next decided ih =>
      obtain ⟨nextSound, collected⟩ := held_iteration sound decided
      rw [readRecordLoop, decided] at found ⊢
      exact (ih nextSound found).trans collected
  | case2 reader assembly fragment record' offset next decided =>
      rw [readRecordLoop, decided] at found ⊢
      cases found
      exact uses_iteration decided
  | case3 reader assembly fragment next decided =>
      rw [readRecordLoop, decided] at found
      cases found

/-- A record uses up a header and its payload. -/
theorem uses_readRecord (found : reader.readRecord.1 = some record) :
    kHeaderSize + record.length + reader.readRecord.2.remaining ≤ reader.remaining := by
  have loop : ∀ entered : Reader,
      (entered.readRecordLoop reader.start []).1 = some record →
      kHeaderSize + record.length + (entered.readRecordLoop reader.start []).2.remaining ≤
        entered.remaining := by
    intro entered found
    have fresh : reader.start.held = 0 := Assembly.held_of_not rfl
    have used := uses_readRecordLoop (Assembly.sound_fresh reader.resyncing) found
    change _ ≤ reader.start.held + _ at used
    rwa [fresh, Nat.zero_add] at used
  unfold readRecord at found ⊢
  split at found
  · rename_i before
    rw [if_pos before]
    split at found
    · rename_i passed
      rw [if_pos passed]
      exact (loop _ found).trans (remaining_skipToInitialBlock_le reader)
    · cases found
  · rename_i after
    rw [if_neg after]
    exact loop _ found

end Reader

end MiniLevelDb.Log
