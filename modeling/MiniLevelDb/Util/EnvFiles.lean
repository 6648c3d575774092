import MiniLevelDb.Util.PosixSequentialFile

/-!
# Whole files

`WriteStringToFile`, `WriteStringToFileSync` and `ReadFileToString` over the files of
`PosixEnv`, with `RemoveFile`, `RenameFile` and `GetFileSize`. The host keeps the contents
of every file under its name and has the answers to the system calls to come. A call that
is not told to fail succeeds if it can: on a file that is not there it fails with `ENOENT`.
-/

namespace MiniLevelDb

open LockFile (Errno posixError posixError_isOk)

/-- `ReadFileToString` reads in parts of this size. -/
def kBufferSize : Nat := 8192

/-- `ENOENT`. -/
def enoent : Errno := ⟨2, "No such file or directory"⟩

/-- The memory of `PosixWritableFile::buf_` before anything is stored in it. -/
abbrev Buffer := { buf : Slice // buf.length = kWritableFileBufferSize }

/-- The files, and the answers to come of `::open`, `::unlink`, `::rename`, `::stat` and
`::read`, and of the calls of `PosixWritableFile`. -/
structure Host where
  files : String → Option Slice
  opens : List (Except Errno Nat)
  unlinks : List (Option Errno)
  renames : List (Option Errno)
  stats : List (Option Errno)
  reads : List (Except Errno Nat)
  kernel : Kernel
  memory : Buffer

namespace PosixSequentialFile

/-- The loop of `ReadFileToString`: the status, the data, and the file after it. -/
def readToEnd (file : PosixSequentialFile) (data : Slice) :
    Status × Slice × PosixSequentialFile :=
  let answer := file.read kBufferSize
  if ¬ answer.1.isOk then (answer.1, data, answer.2.2)
  else if _found : answer.2.1.isEmpty = true then (answer.1, data ++ answer.2.1, answer.2.2)
  else answer.2.2.readToEnd (data ++ answer.2.1)
termination_by file.rest.length
decreasing_by exact length_rest_read_lt _ (by decide) (Bool.eq_false_iff.mpr _found)

/-- Whatever `::read` answers, the data read is a part of the file from its start, and all
of it when the status is OK. -/
theorem readToEnd_reads (file : PosixSequentialFile) (data : Slice) :
    (∃ part, part <+: file.rest ∧ (file.readToEnd data).2.1 = data ++ part) ∧
      ((file.readToEnd data).1.isOk = true → (file.readToEnd data).2.1 = data ++ file.rest) := by
  induction size : file.rest.length using Nat.strongRecOn generalizing file data with
  | ind size ih =>
      obtain ⟨status, later, failed, answer⟩ | ⟨count, later, positive, answer⟩ :=
        file.read_cases (n := kBufferSize) (by decide)
      · rw [readToEnd, answer]
        dsimp only
        rw [if_pos (by rw [failed]; decide)]
        refine ⟨⟨[], List.nil_prefix, (List.append_nil _).symm⟩, fun passes => ?_⟩
        rw [failed] at passes
        cases passes
      · rw [readToEnd, answer]
        dsimp only
        rw [if_neg (by decide)]
        by_cases found : (file.rest.take count).isEmpty = true
        · rw [dif_pos found]
          have none_ : file.rest = [] := by
            have empty := List.isEmpty_iff.mp found
            rw [List.take_eq_nil_iff] at empty
            exact empty.resolve_left positive.ne'
          rw [none_, List.take_nil]
          exact ⟨⟨[], List.prefix_rfl, rfl⟩, fun _ => rfl⟩
        · rw [dif_neg found]
          have shorter := length_rest_read_lt file (by decide : 0 < kBufferSize)
            (by rw [answer]; exact Bool.eq_false_iff.mpr found)
          rw [answer] at shorter
          obtain ⟨⟨part, isPrefix, read⟩, whole⟩ :=
            ih _ (size ▸ shorter) _ (data ++ file.rest.take count) rfl
          refine ⟨⟨file.rest.take count ++ part, ?_, ?_⟩, fun passes => ?_⟩
          · have joined := (List.prefix_append_right_inj (file.rest.take count)).mpr isPrefix
            rw [List.take_append_drop] at joined
            exact joined
          · rw [read, List.append_assoc]
          · rw [whole passes, List.append_assoc, List.take_append_drop]

end PosixSequentialFile

namespace PosixWritableFile

/-- The destructor, which ignores what `Close` returns. -/
def delete (file : PosixWritableFile) : PosixWritableFile :=
  if 0 ≤ file.fd then file.close.2 else file

theorem delete_close (file : PosixWritableFile) : file.close.2.delete = file.close.2 := by
  have closed : file.close.2.fd = -1 := by
    unfold close
    dsimp only
    split <;> rfl
  rw [delete, if_neg (by rw [closed]; decide)]

theorem HoldsPart.written {file : PosixWritableFile} {appended : Slice}
    (holds : HoldsPart file appended) : file.written <+: appended := by
  obtain ⟨held, isPrefix, kept⟩ := holds
  rw [← kept.contents] at isPrefix
  exact (List.prefix_append _ _).trans isPrefix

theorem HoldsPart.delete {file : PosixWritableFile} {appended : Slice}
    (holds : HoldsPart file appended) : HoldsPart file.delete appended := by
  unfold PosixWritableFile.delete
  split
  · obtain ⟨held, isPrefix, kept⟩ := holds
    obtain ⟨part, shorter, closed⟩ := kept.close_part
    exact ⟨part, shorter.trans isPrefix, closed⟩
  · exact holds

end PosixWritableFile

namespace Host

/-- `NewSequentialFile`. -/
def newSequentialFile (host : Host) (filename : String) :
    Except Status PosixSequentialFile × Host :=
  let opened := { host with opens := host.opens.tail }
  match host.opens.head?, host.files filename with
  | some (.error error), _ => (.error (posixError filename error), opened)
  | _, none => (.error (posixError filename enoent), opened)
  | _, some contents => (.ok ⟨filename, contents, host.reads⟩, opened)

/-- `NewWritableFile`: `O_TRUNC` empties the file, `O_CREAT` creates it. -/
def newWritableFile (host : Host) (filename : String) :
    Except Status PosixWritableFile × Host :=
  let opened := { host with opens := host.opens.tail }
  match host.opens.head?.getD (.ok 3) with
  | .error error => (.error (posixError filename error), opened)
  | .ok fd =>
      (.ok (.new filename fd host.memory.1 host.kernel),
        { opened with files := Function.update host.files filename (some []) })

/-- What the calls on a writable file left: the bytes written to it and the answers left. -/
def wrote (host : Host) (filename : String) (file : PosixWritableFile) : Host :=
  { host with
    files := Function.update host.files filename (some file.written)
    kernel := file.kernel }

/-- `RemoveFile`. -/
def removeFile (host : Host) (filename : String) : Status × Host :=
  let called := { host with unlinks := host.unlinks.tail }
  match host.unlinks.head?.join, host.files filename with
  | some error, _ => (posixError filename error, called)
  | none, none => (posixError filename enoent, called)
  | none, some _ => (.ok, { called with files := Function.update host.files filename none })

/-- `RenameFile`. -/
def renameFile (host : Host) (source target : String) : Status × Host :=
  let called := { host with renames := host.renames.tail }
  match host.renames.head?.join, host.files source with
  | some error, _ => (posixError source error, called)
  | none, none => (posixError source enoent, called)
  | none, some contents =>
      (.ok, { called with
        files := Function.update (Function.update host.files source none) target
          (some contents) })

/-- `GetFileSize`. -/
def getFileSize (host : Host) (filename : String) : Status × Nat × Host :=
  let called := { host with stats := host.stats.tail }
  match host.stats.head?.join, host.files filename with
  | some error, _ => (posixError filename error, 0, called)
  | none, none => (posixError filename enoent, 0, called)
  | none, some contents => (.ok, contents.length, called)

/-- The calls of `DoWriteStringToFile` on the file, the destructor among them. -/
def appendSyncClose (file : PosixWritableFile) (data : Slice) (shouldSync : Bool) :
    Status × PosixWritableFile :=
  let appended := file.append data
  let synced := if appended.1.isOk ∧ shouldSync then appended.2.sync else appended
  let closed := if synced.1.isOk then synced.2.close else synced
  (closed.1, closed.2.delete)

/-- `DoWriteStringToFile`. -/
def doWriteStringToFile (host : Host) (data : Slice) (fname : String) (shouldSync : Bool) :
    Status × Host :=
  match host.newWritableFile fname with
  | (.error status, after) => (status, after)
  | (.ok file, opened) =>
      let (status, deleted) := appendSyncClose file data shouldSync
      let after := opened.wrote fname deleted
      if ¬ status.isOk then (status, (after.removeFile fname).2) else (status, after)

/-- `WriteStringToFile`. -/
def writeStringToFile (host : Host) (data : Slice) (fname : String) : Status × Host :=
  host.doWriteStringToFile data fname false

/-- `WriteStringToFileSync`. -/
def writeStringToFileSync (host : Host) (data : Slice) (fname : String) : Status × Host :=
  host.doWriteStringToFile data fname true

/-- `ReadFileToString`; the file that `NewSequentialFile` made is read and deleted. -/
def readFileToString (host : Host) (fname : String) : Status × Slice × Host :=
  match host.newSequentialFile fname with
  | (.error status, after) => (status, [], after)
  | (.ok file, opened) =>
      let (status, data, after) := file.readToEnd []
      (status, data, { opened with reads := after.reads })

/-- With all calls OK a fresh file holds the data, otherwise a part of it from its start. -/
theorem appendSyncClose_written {file : PosixWritableFile} (data : Slice) (shouldSync : Bool)
    (fresh : file.Holds []) :
    (appendSyncClose file data shouldSync).2.written <+: data ∧
      ((appendSyncClose file data shouldSync).1.isOk = true →
        (appendSyncClose file data shouldSync).2.written = data) := by
  let appended := file.append data
  let synced := if appended.1.isOk ∧ shouldSync then appended.2.sync else appended
  let closed := if synced.1.isOk then synced.2.close else synced
  change closed.2.delete.written <+: data ∧ (closed.1.isOk = true → closed.2.delete.written = data)
  have appendedPart : appended.2.HoldsPart data := fresh.append_part data
  have appendedAll : appended.1.isOk = true → appended.2.Holds data := fresh.append
  have syncedPart : synced.2.HoldsPart data := by
    by_cases syncs : appended.1.isOk ∧ shouldSync
    · rw [show synced = appended.2.sync from if_pos syncs]
      exact (appendedAll syncs.1).sync_part
    · rw [show synced = appended from if_neg syncs]
      exact appendedPart
  have syncedAll : synced.1.isOk = true → synced.2.Holds data := by
    intro passes
    by_cases syncs : appended.1.isOk ∧ shouldSync
    · have same : synced = appended.2.sync := if_pos syncs
      rw [same] at passes ⊢
      exact ((appendedAll syncs.1).sync passes).1
    · have same : synced = appended := if_neg syncs
      rw [same] at passes ⊢
      exact appendedAll passes
  by_cases syncs : synced.1.isOk = true
  · have same : closed = synced.2.close := if_pos syncs
    rw [same, PosixWritableFile.delete_close]
    refine ⟨(syncedAll syncs).close_part.written, fun passes => ?_⟩
    obtain ⟨closedAll, empty⟩ := (syncedAll syncs).close passes
    have contents := closedAll.contents
    rw [empty, List.take_zero, List.append_nil] at contents
    exact contents
  · have same : closed = synced := if_neg syncs
    rw [same]
    exact ⟨syncedPart.delete.written, fun passes => absurd passes syncs⟩

/-- The error is among the answers to come of `::open`, `::unlink`, `::rename` and
`::stat`. -/
def Answers (host : Host) (error : Errno) : Prop :=
  .error error ∈ host.opens ∨ some error ∈ host.unlinks ∨ some error ∈ host.renames ∨
    some error ∈ host.stats

/-- The answers to come of one host are what is left of those of the other. -/
structure Later (after host : Host) : Prop where
  opens : after.opens <:+ host.opens
  unlinks : after.unlinks <:+ host.unlinks
  renames : after.renames <:+ host.renames
  stats : after.stats <:+ host.stats

namespace Later

variable {host middle after : Host} {error : Errno}

theorem trans (second : Later after middle) (first : Later middle host) : Later after host :=
  ⟨second.opens.trans first.opens, second.unlinks.trans first.unlinks,
    second.renames.trans first.renames, second.stats.trans first.stats⟩

theorem answers (later : Later after host) (comes : after.Answers error) : host.Answers error := by
  rcases comes with comes | comes | comes | comes
  · exact .inl (later.opens.mem comes)
  · exact .inr (.inl (later.unlinks.mem comes))
  · exact .inr (.inr (.inl (later.renames.mem comes)))
  · exact .inr (.inr (.inr (later.stats.mem comes)))

end Later

theorem mem_of_head {answers : List (Option Errno)} {error : Errno}
    (next : answers.head?.join = some error) : some error ∈ answers := by
  cases answers with
  | nil => cases next
  | cons answer later =>
      rw [← show answer = some error from next]
      exact List.mem_cons_self

/-- A file is removed, or the error of the call is returned. -/
theorem removeFile_cases (host : Host) (filename : String) :
    (∃ error, (error = enoent ∧ host.files filename = none ∨
          host.unlinks.head?.join = some error) ∧
        host.removeFile filename =
          (posixError filename error, { host with unlinks := host.unlinks.tail })) ∨
      ∃ contents, host.files filename = some contents ∧
        host.removeFile filename = (.ok, { host with
          unlinks := host.unlinks.tail
          files := Function.update host.files filename none }) := by
  unfold removeFile
  cases answer : host.unlinks.head?.join with
  | some error => exact .inl ⟨error, .inr rfl, rfl⟩
  | none =>
      cases found : host.files filename with
      | none => exact .inl ⟨enoent, .inl ⟨rfl, rfl⟩, rfl⟩
      | some contents => exact .inr ⟨contents, rfl, rfl⟩

theorem removeFile_later (host : Host) (filename : String) :
    Later (host.removeFile filename).2 host := by
  obtain ⟨error, _, answer⟩ | ⟨contents, _, answer⟩ := host.removeFile_cases filename
  all_goals
    rw [answer]
    exact ⟨List.suffix_rfl, List.tail_suffix _, List.suffix_rfl, List.suffix_rfl⟩

/-- A file is written as a whole; otherwise it is left alone, removed, or, if it could not
be removed, holds a part of the data. -/
theorem doWriteStringToFile_cases (host : Host) (data : Slice) (fname : String)
    (shouldSync : Bool) :
    let result := host.doWriteStringToFile data fname shouldSync
    Later result.2 host ∧
      (result.1.isOk = true ∧ result.2.files = Function.update host.files fname (some data) ∨
        result.1.isOk = false ∧ (result.2.files = host.files ∨
          result.2.files = Function.update host.files fname none ∨
          host.unlinks.head?.join ≠ none ∧ ∃ part, part <+: data ∧
            result.2.files = Function.update host.files fname (some part))) := by
  unfold doWriteStringToFile newWritableFile
  dsimp only
  have opened : Later { host with opens := host.opens.tail } host :=
    ⟨List.tail_suffix _, List.suffix_rfl, List.suffix_rfl, List.suffix_rfl⟩
  cases host.opens.head?.getD (.ok 3) with
  | error error => exact ⟨opened, .inr ⟨posixError_isOk _ _, .inl rfl⟩⟩
  | ok fd =>
      dsimp only
      obtain ⟨isPrefix, whole⟩ := appendSyncClose_written data shouldSync
        (⟨host.memory.2, Nat.zero_le _, rfl⟩ :
          (PosixWritableFile.new fname fd host.memory.1 host.kernel).Holds [])
      generalize appendSyncClose _ data shouldSync = result at isPrefix whole ⊢
      obtain ⟨status, deleted⟩ := result
      dsimp only at isPrefix whole ⊢
      by_cases passes : status.isOk = true
      · rw [if_neg (not_not_intro passes), wrote, whole passes]
        refine ⟨⟨opened.opens, opened.unlinks, opened.renames, opened.stats⟩, .inl ⟨passes, ?_⟩⟩
        exact Function.update_idem _ _ _
      · rw [if_pos passes]
        let written := wrote { host with
          opens := host.opens.tail
          files := Function.update host.files fname (some []) } fname deleted
        have there : written.files fname = some deleted.written := Function.update_self _ _ _
        have removed : Later (written.removeFile fname).2 host :=
          (written.removeFile_later fname).trans
            ⟨opened.opens, opened.unlinks, opened.renames, opened.stats⟩
        refine ⟨removed, .inr ⟨Bool.eq_false_iff.mpr passes, .inr ?_⟩⟩
        obtain ⟨error, refused, answer⟩ | ⟨contents, _, answer⟩ := written.removeFile_cases fname
        · refine .inr ⟨?_, deleted.written, isPrefix, ?_⟩
          · rcases refused with ⟨_, absent⟩ | refused
            · rw [there] at absent
              cases absent
            · change host.unlinks.head?.join = some error at refused
              rw [refused]
              exact Option.some_ne_none _
          · rw [answer]
            exact Function.update_idem _ _ _
        · left
          rw [answer]
          dsimp only [written, wrote]
          rw [Function.update_idem, Function.update_idem]

/-- A file is opened, or the error of the call is returned. -/
theorem newSequentialFile_cases (host : Host) (filename : String) :
    (∃ error, (error = enoent ∨ host.Answers error) ∧
        host.newSequentialFile filename =
          (.error (posixError filename error), { host with opens := host.opens.tail })) ∨
      ∃ contents, host.files filename = some contents ∧
        host.newSequentialFile filename =
          (.ok ⟨filename, contents, host.reads⟩, { host with opens := host.opens.tail }) := by
  unfold newSequentialFile
  cases answer : host.opens.head? with
  | none =>
      cases found : host.files filename with
      | none => exact .inl ⟨enoent, .inl rfl, rfl⟩
      | some contents => exact .inr ⟨contents, rfl, rfl⟩
  | some answered =>
      cases answered with
      | error error => exact .inl ⟨error, .inr (.inl (List.mem_of_head? answer)), rfl⟩
      | ok fd =>
          cases found : host.files filename with
          | none => exact .inl ⟨enoent, .inl rfl, rfl⟩
          | some contents => exact .inr ⟨contents, rfl, rfl⟩

/-- `ReadFileToString` fails to open the file, returns the contents, or fails with a part of
them. -/
theorem readFileToString_cases (host : Host) (fname : String) :
    let result := host.readFileToString fname
    result.2.2.files = host.files ∧ Later result.2.2 host ∧
      ((∃ error, (error = enoent ∨ host.Answers error) ∧
          result.1 = posixError fname error ∧ result.2.1 = []) ∨
        ∃ contents, host.files fname = some contents ∧
          (result.1 = .ok ∧ result.2.1 = contents ∨
            result.1.isOk = false ∧ result.2.1 <+: contents)) := by
  have opened : Later { host with opens := host.opens.tail } host :=
    ⟨List.tail_suffix _, List.suffix_rfl, List.suffix_rfl, List.suffix_rfl⟩
  unfold readFileToString
  obtain ⟨error, answered, failed⟩ | ⟨contents, found, made⟩ :=
    host.newSequentialFile_cases fname
  · rw [failed]
    exact ⟨rfl, opened, .inl ⟨error, answered, rfl, rfl⟩⟩
  · rw [made]
    obtain ⟨⟨part, isPrefix, read⟩, whole⟩ :=
      PosixSequentialFile.readToEnd_reads ⟨fname, contents, host.reads⟩ []
    dsimp only
    refine ⟨rfl, ⟨opened.opens, opened.unlinks, opened.renames, opened.stats⟩,
      .inr ⟨contents, found, ?_⟩⟩
    cases passes : (PosixSequentialFile.readToEnd ⟨fname, contents, host.reads⟩ []).1 with
    | ok => exact .inl ⟨rfl, whole (by rw [passes]; rfl)⟩
    | _ =>
        refine .inr ⟨rfl, ?_⟩
        rw [read]
        exact isPrefix

/-- A request to the environment. -/
inductive Request where
  | write (fname : String) (data : Slice) (shouldSync : Bool)
  | read (fname : String)
  | remove (fname : String)
  | rename (source target : String)
  | size (fname : String)
  deriving DecidableEq

/-- What a request returns: the status, the data that was read and the size. -/
structure Answer where
  status : Status
  data : Slice
  size : Nat
  deriving DecidableEq

/-- The function of the source that the request calls. -/
def perform (host : Host) : Request → Answer × Host
  | .write fname data shouldSync =>
      let result := if shouldSync then host.writeStringToFileSync data fname
        else host.writeStringToFile data fname
      (⟨result.1, [], 0⟩, result.2)
  | .read fname =>
      let result := host.readFileToString fname
      (⟨result.1, result.2.1, 0⟩, result.2.2)
  | .remove fname =>
      let result := host.removeFile fname
      (⟨result.1, [], 0⟩, result.2)
  | .rename source target =>
      let result := host.renameFile source target
      (⟨result.1, [], 0⟩, result.2)
  | .size fname =>
      let result := host.getFileSize fname
      (⟨result.1, [], result.2.1⟩, result.2.2)

/-- The requests with their answers, and the host after them. -/
def performAll (host : Host) : List Request → List (Request × Answer) × Host
  | [] => ([], host)
  | request :: later =>
      let (answer, after) := host.perform request
      let (history, last) := after.performAll later
      ((request, answer) :: history, last)

end Host

open Host (Request Answer)

/-- The file that has to exist for a request to succeed. -/
def Host.Request.needs : Request → Option String
  | .write _ _ _ => none
  | .read fname | .remove fname | .size fname => some fname
  | .rename source _ => some source

/-- What the requests mean, on a map of files: a request whose file is missing fails with
the error of a call, `ENOENT` or one of those that are answered (`answers`); one that fails
leaves the map alone, a write apart, which can also lose the file, or leave a part of its
data in it unless files can be removed (`removes`). -/
inductive Serves (removes : Prop) (answers : Errno → Prop) :
    (String → Option Slice) → Request → Answer → (String → Option Slice) → Prop where
  | missing {files request fname error} (needs : request.needs = some fname)
      (absent : files fname = none) (answered : error = enoent ∨ answers error) :
      Serves removes answers files request ⟨posixError fname error, [], 0⟩ files
  | failed {files request status} (fails : status.isOk = false)
      (found : ∀ fname, request.needs = some fname → files fname ≠ none) :
      Serves removes answers files request ⟨status, [], 0⟩ files
  | lost {files fname data shouldSync status} (fails : status.isOk = false) :
      Serves removes answers files (.write fname data shouldSync) ⟨status, [], 0⟩
        (Function.update files fname none)
  | torn {files fname data shouldSync status part} (fails : status.isOk = false)
      (stays : ¬ removes) (isPrefix : part <+: data) :
      Serves removes answers files (.write fname data shouldSync) ⟨status, [], 0⟩
        (Function.update files fname (some part))
  | written {files fname data shouldSync} :
      Serves removes answers files (.write fname data shouldSync) ⟨.ok, [], 0⟩
        (Function.update files fname (some data))
  | partlyRead {files fname contents status part} (found : files fname = some contents)
      (fails : status.isOk = false) (isPrefix : part <+: contents) :
      Serves removes answers files (.read fname) ⟨status, part, 0⟩ files
  | read {files fname contents} (found : files fname = some contents) :
      Serves removes answers files (.read fname) ⟨.ok, contents, 0⟩ files
  | removed {files fname contents} (found : files fname = some contents) :
      Serves removes answers files (.remove fname) ⟨.ok, [], 0⟩ (Function.update files fname none)
  | renamed {files source target contents} (found : files source = some contents) :
      Serves removes answers files (.rename source target) ⟨.ok, [], 0⟩
        (Function.update (Function.update files source none) target (some contents))
  | sized {files fname contents} (found : files fname = some contents) :
      Serves removes answers files (.size fname) ⟨.ok, [], contents.length⟩ files

/-- A history of requests with their answers. -/
inductive Served (removes : Prop) (answers : Errno → Prop) :
    (String → Option Slice) → List (Request × Answer) → (String → Option Slice) → Prop where
  | nil {files} : Served removes answers files [] files
  | cons {files middle last request answer history}
      (serves : Serves removes answers files request answer middle)
      (later : Served removes answers middle history last) :
      Served removes answers files ((request, answer) :: history) last

section

variable {removes : Prop} {answers : Errno → Prop} {files : String → Option Slice}
  {request : Request} {fname : String} {error : Errno}

/-- A call that fails, whether or not its file is there. -/
theorem Serves.refused (needs : request.needs = some fname)
    (answered : error = enoent ∨ answers error) :
    Serves removes answers files request ⟨posixError fname error, [], 0⟩ files := by
  cases found : files fname with
  | none => exact .missing needs found answered
  | some contents =>
      refine .failed (posixError_isOk _ _) fun other also => ?_
      rw [← Option.some.inj (needs.symm.trans also), found]
      exact Option.some_ne_none _

theorem Serves.mono {other : Errno → Prop} {answer : Answer} {after : String → Option Slice}
    (serves : Serves removes answers files request answer after)
    (more : ∀ error, answers error → other error) :
    Serves removes other files request answer after := by
  cases serves with
  | missing needs absent answered => exact .missing needs absent (answered.imp_right (more _))
  | failed fails found => exact .failed fails found
  | lost fails => exact .lost fails
  | torn fails stays isPrefix => exact .torn fails stays isPrefix
  | written => exact .written
  | partlyRead found fails isPrefix => exact .partlyRead found fails isPrefix
  | read found => exact .read found
  | removed found => exact .removed found
  | renamed found => exact .renamed found
  | sized found => exact .sized found

end

namespace Host

/-- A file that exists is written, read, removed, renamed or measured, or the request
fails. -/
theorem perform_serves (host : Host) (request : Request) {removes : Prop}
    (removing : removes → ∀ answer ∈ host.unlinks, answer = none) :
    Serves removes host.Answers host.files request (host.perform request).1
        (host.perform request).2.files ∧
      Later (host.perform request).2 host := by
  cases request with
  | write fname data shouldSync =>
      have asked : host.perform (.write fname data shouldSync) =
          (⟨(host.doWriteStringToFile data fname shouldSync).1, [], 0⟩,
            (host.doWriteStringToFile data fname shouldSync).2) := by
        cases shouldSync <;> rfl
      rw [asked]
      obtain ⟨later, ⟨passes, files⟩ | ⟨fails, files | files | ⟨refused, part, isPrefix, files⟩⟩⟩ :=
        host.doWriteStringToFile_cases data fname shouldSync
      · refine ⟨?_, later⟩
        rw [files, Status.eq_ok passes]
        exact .written
      · refine ⟨?_, later⟩
        rw [files]
        exact .failed fails fun _ needs => absurd needs.symm (Option.some_ne_none _)
      · refine ⟨?_, later⟩
        rw [files]
        exact .lost fails
      · refine ⟨?_, later⟩
        rw [files]
        refine .torn fails (fun all => refused ?_) isPrefix
        cases answers : host.unlinks with
        | nil => rfl
        | cons answer later =>
            exact removing all answer (by rw [answers]; exact List.mem_cons_self)
  | read fname =>
      obtain ⟨files, later, ⟨error, answered, fails, nothing⟩ |
        ⟨contents, found, ⟨passes, whole⟩ | ⟨fails, isPrefix⟩⟩⟩ := host.readFileToString_cases fname
      · refine ⟨?_, later⟩
        dsimp only [perform]
        rw [files, fails, nothing]
        exact .refused rfl answered
      · refine ⟨?_, later⟩
        dsimp only [perform]
        rw [files, passes, whole]
        exact .read found
      · refine ⟨?_, later⟩
        dsimp only [perform]
        rw [files]
        exact .partlyRead found fails isPrefix
  | remove fname =>
      have later := host.removeFile_later fname
      obtain ⟨error, refused, answer⟩ | ⟨contents, found, answer⟩ := host.removeFile_cases fname
      · refine ⟨?_, later⟩
        dsimp only [perform]
        rw [answer]
        exact .refused rfl (refused.imp And.left fun next => .inr (.inl (mem_of_head next)))
      · refine ⟨?_, later⟩
        dsimp only [perform]
        rw [answer]
        exact .removed found
  | rename source target =>
      have later : Later { host with renames := host.renames.tail } host :=
        ⟨List.suffix_rfl, List.suffix_rfl, List.tail_suffix _, List.suffix_rfl⟩
      dsimp only [perform, renameFile]
      cases answer : host.renames.head?.join with
      | some error =>
          exact ⟨.refused rfl (.inr (.inr (.inr (.inl (mem_of_head answer))))), later⟩
      | none =>
          cases found : host.files source with
          | none => exact ⟨.refused rfl (.inl rfl), later⟩
          | some contents =>
              exact ⟨.renamed found, later.opens, later.unlinks, later.renames, later.stats⟩
  | size fname =>
      have later : Later { host with stats := host.stats.tail } host :=
        ⟨List.suffix_rfl, List.suffix_rfl, List.suffix_rfl, List.tail_suffix _⟩
      dsimp only [perform, getFileSize]
      cases answer : host.stats.head?.join with
      | some error =>
          exact ⟨.refused rfl (.inr (.inr (.inr (.inr (mem_of_head answer))))), later⟩
      | none =>
          cases found : host.files fname with
          | none => exact ⟨.refused rfl (.inl rfl), later⟩
          | some contents => exact ⟨.sized found, later⟩

theorem performAll_serves (host : Host) (requests : List Request) {removes : Prop}
    {answers : Errno → Prop} (removing : removes → ∀ answer ∈ host.unlinks, answer = none)
    (answered : ∀ error, host.Answers error → answers error) :
    Served removes answers host.files (host.performAll requests).1
      (host.performAll requests).2.files := by
  induction requests generalizing host with
  | nil => exact .nil
  | cons request rest ih =>
      obtain ⟨serves, later⟩ := host.perform_serves request removing
      refine .cons (serves.mono answered) (ih _ (fun all answer member => ?_) fun error comes => ?_)
      · exact removing all answer (later.unlinks.mem member)
      · exact answered error (later.answers comes)

/-- The name under which the contents of `name` are found after a request, if the request
leaves them alone; `passes` says if it returned OK. -/
def Request.follow (passes : Bool) (name : String) : Request → Option String
  | .write fname _ _ => if fname = name then none else some name
  | .read _ | .size _ => some name
  | .remove fname => if passes ∧ fname = name then none else some name
  | .rename source target =>
      if ¬ passes then some name
      else if source = name then some target
      else if target = name then none
      else some name

/-- The same after a history. -/
def follow (name : String) : List (Request × Answer) → Option String
  | [] => some name
  | (request, answer) :: later =>
      match request.follow answer.status.isOk name with
      | none => none
      | some next => follow next later

end Host

open Host (follow)

/-- A request that fails moves nothing. -/
theorem Host.Request.follow_failed {request : Request} {name next : String}
    (follows : request.follow false name = some next) : next = name := by
  cases request with
  | write fname data shouldSync =>
      dsimp only [Request.follow] at follows
      split at follows
      · cases follows
      · exact (Option.some.inj follows).symm
  | read fname | size fname | remove fname | rename source target =>
      simpa [Request.follow] using follows.symm

theorem Serves.follow {removes : Prop} {answers : Errno → Prop}
    {files after : String → Option Slice} {request : Request} {answer : Answer}
    (serves : Serves removes answers files request answer after) {name next : String}
    {contents : Slice} (holds : files name = some contents)
    (follows : request.follow answer.status.isOk name = some next) :
    after next = some contents := by
  have elsewhere : ∀ {fname value}, (if fname = name then none else some name) = some next →
      Function.update files fname value next = some contents := by
    intro fname value follows
    split at follows
    · cases follows
    · rename_i other
      obtain rfl := Option.some.inj follows
      rw [Function.update_of_ne (Ne.symm other)]
      exact holds
  cases serves with
  | missing needs absent =>
      dsimp only at follows
      rw [posixError_isOk] at follows
      rw [Request.follow_failed follows]
      exact holds
  | failed fails =>
      dsimp only at follows
      rw [fails] at follows
      rw [Request.follow_failed follows]
      exact holds
  | lost | torn | written => exact elsewhere follows
  | partlyRead | read | sized =>
      obtain rfl := Option.some.inj follows
      exact holds
  | removed =>
      apply elsewhere
      simpa [Request.follow] using follows
  | @renamed source target moved found =>
      dsimp only [Request.follow] at follows
      rw [if_neg (by decide)] at follows
      split at follows
      · rename_i same
        obtain rfl := Option.some.inj follows
        rw [Function.update_self, ← found, same, holds]
      · rename_i other
        split at follows
        · cases follows
        · rename_i untouched
          obtain rfl := Option.some.inj follows
          rw [Function.update_of_ne (Ne.symm untouched), Function.update_of_ne (Ne.symm other)]
          exact holds

theorem Served.follow {removes : Prop} {answers : Errno → Prop} {files last : String → Option Slice}
    {history : List (Request × Answer)} (served : Served removes answers files history last)
    {name next : String} {contents : Slice} (holds : files name = some contents)
    (follows : follow name history = some next) : last next = some contents := by
  induction served generalizing name with
  | nil =>
      cases follows
      exact holds
  | @cons files middle last request answer history serves later ih =>
      rw [Host.follow] at follows
      cases step : request.follow answer.status.isOk name with
      | none =>
          rw [step] at follows
          cases follows
      | some second =>
          rw [step] at follows
          exact ih (serves.follow holds step) follows

theorem Served.split {removes : Prop} {answers : Errno → Prop} {files last : String → Option Slice}
    {first second : List (Request × Answer)}
    (served : Served removes answers files (first ++ second) last) :
    ∃ middle, Served removes answers files first middle ∧
      Served removes answers middle second last := by
  induction first generalizing files with
  | nil => exact ⟨files, .nil, served⟩
  | cons entry first ih =>
      cases served with
      | cons serves later =>
          obtain ⟨middle, before, after⟩ := ih later
          exact ⟨middle, .cons serves before, after⟩

/-- A host with a file `CURRENT`, whose `::write` and `::read` are cut short and
interrupted. -/
def currentHost : Host where
  files := Function.update (fun _ => none) "CURRENT" (some [88])
  opens := []
  unlinks := []
  renames := []
  stats := []
  reads := [.ok 2, .error ⟨4, "Interrupted system call"⟩]
  kernel := ⟨[.ok 1, .error ⟨4, "Interrupted system call"⟩], [], [], []⟩
  memory := ⟨List.replicate kWritableFileBufferSize 0, List.length_replicate⟩

end MiniLevelDb
