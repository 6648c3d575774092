import MiniLevelDb.Util.RandomAccessFiles
import MiniLevelDb.Util.Slice

/-!
# Reads of random access files

`Read` of the two kinds of files that `NewRandomAccessFile` returns, over a system that
keeps the contents of the file. Offsets and sizes are machine words: the sum that the
mapped file compares with its length is one too.
-/

namespace MiniLevelDb

namespace RandomAccess

open LockFile (Descriptor Errno posixError posixError_isOk)

def einval : Errno := ⟨22, "Invalid argument"⟩

/-- The contents of the file, the memory of the process, what `::open` answers to a `Read`
that has to open the file, and `::pread`, which reads what there is from an offset on. -/
structure System where
  contents : Slice
  memory : BitVec 64 → Byte
  opens : Except Errno Descriptor
  pread : Descriptor → BitVec 64 → Int → Except Errno Slice
  short : contents.length < 2 ^ 63
  pread_reads : ∀ fd n offset, 0 ≤ offset →
    pread fd n offset = .ok ((contents.drop offset.toNat).take n.toNat)
  pread_negative : ∀ fd n offset, offset < 0 → ∃ error, pread fd n offset = .error error

namespace System

/-- The `n` bytes from an address on. -/
def bytesAt (system : System) (address n : BitVec 64) : Slice :=
  (List.range n.toNat).map fun index => system.memory (address + BitVec.ofNat 64 index)

/-- The memory of the region is the file. -/
structure Maps (system : System) (region : Region) : Prop where
  length : region.length = system.contents.length
  bytes : ∀ index (inside : index < system.contents.length),
    system.memory (BitVec.ofNat 64 (region.base + index)) = system.contents[index]

/-- What `stat` and `mmap` answer about the file is so. -/
def Truthful (system : System) : Phase → Answer → Prop
  | _, .sized size => size = system.contents.length
  | .mapping _ size, .mapped base =>
      ∀ index (inside : index < system.contents.length), index < size →
        system.memory (BitVec.ofNat 64 (base + index)) = system.contents[index]
  | _, _ => True

/-- The phases that a call of `NewRandomAccessFile` comes to, whatever other threads do to
the limiters and descriptors between its steps. -/
inductive Comes (system : System) (filename : String) : Phase → Prop where
  | opening : Comes system filename .opening
  | step {env after : Env} {phase next : Phase} {answer : Answer}
      (comes : Comes system filename phase) (truthful : system.Truthful phase answer)
      (stepped : step env filename phase answer = some (after, .goesOn next)) :
      Comes system filename next

/-- `NewRandomAccessFile` can return the file. -/
def Returns (system : System) (filename : String) (file : File) : Prop :=
  ∃ env after phase answer status, system.Comes filename phase ∧
    system.Truthful phase answer ∧
    step env filename phase answer = some (after, .returns status (some file))

def CanOpen (system : System) : Prop := ∃ fd, system.opens = .ok fd

end System

/-- `Read`: the status and `*result`. Both destructors end the life of the file. -/
def File.read (system : System) (offset n : BitVec 64) (result : Slice) :
    File → Option (Status × Slice)
  | .mmapReadable filename region =>
      if (offset + n).toNat > region.length then some (posixError filename einval, [])
      else some (.ok, system.bytesAt (BitVec.ofNat 64 region.base + offset) n)
  | .randomAccess filename permanent =>
      match permanent.elim system.opens .ok with
      | .error error => some (posixError filename error, result)
      | .ok fd =>
          match system.pread fd n offset.toInt with
          | .error error => some (posixError filename error, [])
          | .ok bytes => some (.ok, bytes)
  | .unmapped | .closed => none

/-- What a `Read` that returns OK has to return, and when it has to. -/
structure ReadsFile (contents : Slice) (offset n : Nat) (status : Status) (result : Slice) :
    Prop where
  atMost : status.isOk = true → result.length ≤ n
  bytes : status.isOk = true → result ≠ [] →
    offset + result.length ≤ contents.length ∧
      result = (contents.drop offset).take result.length
  whole : offset + n ≤ contents.length → status.isOk = true ∧ result.length = n

/-- The words `offset` and `n` have a sum that comes out too small, and within the file. -/
def Wraps (contents : Slice) (offset n : BitVec 64) : Prop :=
  2 ^ 64 ≤ offset.toNat + n.toNat ∧ offset.toNat + n.toNat ≤ 2 ^ 64 + contents.length

namespace System

variable {system : System} {filename : String}

/-- What a call knows of the file on its way. -/
def Keeps (system : System) : Phase → Prop
  | .mapping _ size => size = system.contents.length
  | .closing _ (.ok region) => system.Maps region
  | _ => True

/-- A file that can be read. -/
def Serves (system : System) : File → Prop
  | .mmapReadable _ region => system.Maps region
  | .randomAccess _ _ => True
  | .unmapped | .closed => False

def KeepsAfter (system : System) : After → Prop
  | .goesOn phase => system.Keeps phase
  | .returns _ result => ∀ file, result = some file → system.Serves file

theorem step_keeps {env after : Env} {phase : Phase} {answer : Answer} {next : After}
    (keeps : system.Keeps phase) (truthful : system.Truthful phase answer)
    (stepped : step env filename phase answer = some (after, next)) :
    system.KeepsAfter next := by
  cases phase with
  | opening =>
      cases answer <;> simp only [step, reduceCtorEq] at stepped
      case opened fd =>
        split at stepped
        · cases stepped
        · cases stepped
          trivial
      case failed error =>
        cases stepped
        intro file returned
        cases returned
  | acquiringMmap fd =>
      cases answer <;> simp only [step, reduceCtorEq] at stepped
      cases stepped
      split <;> trivial
  | undoingMmap fd =>
      cases answer <;> simp only [step, reduceCtorEq] at stepped
      cases stepped
      trivial
  | acquiringFd fd =>
      cases answer <;> simp only [step, reduceCtorEq] at stepped
      cases stepped
      split
      · intro file returned
        cases returned
        trivial
      · trivial
  | undoingFd fd =>
      cases answer <;> simp only [step, reduceCtorEq] at stepped
      cases stepped
      trivial
  | closingTemporary fd =>
      cases answer <;> simp only [step, reduceCtorEq] at stepped
      cases stepped
      intro file returned
      cases returned
      trivial
  | sizing fd =>
      cases answer <;> simp only [step, reduceCtorEq] at stepped
      case sized size =>
        cases stepped
        exact truthful
      case failed error =>
        cases stepped
        trivial
  | mapping fd size =>
      cases answer <;> simp only [step, reduceCtorEq] at stepped
      case mapped base =>
        cases stepped
        exact ⟨keeps, fun index inside => truthful index inside (keeps.symm ▸ inside)⟩
      case failed error =>
        cases stepped
        trivial
  | closing fd mapped =>
      cases mapped <;> cases answer <;> simp only [step, reduceCtorEq] at stepped
      case error.done status =>
        cases stepped
        trivial
      case ok.done region =>
        cases stepped
        intro file returned
        cases returned
        exact keeps
  | releasing status =>
      cases answer <;> simp only [step, reduceCtorEq] at stepped
      cases stepped
      intro file returned
      cases returned

theorem Comes.keeps {phase : Phase} (comes : system.Comes filename phase) :
    system.Keeps phase := by
  induction comes with
  | opening => trivial
  | step comes truthful stepped ih => exact step_keeps ih truthful stepped

/-- The file that a call returns is not destroyed, and a mapping shows the whole file. -/
theorem Returns.serves {file : File} (returns : system.Returns filename file) :
    system.Serves file := by
  obtain ⟨env, after, phase, answer, status, comes, truthful, stepped⟩ := returns
  exact step_keeps comes.keeps truthful stepped file rfl

/-- The bytes of a mapping from an offset on are those of the file, as far as it goes. -/
theorem Maps.bytesAt {region : Region} (maps : system.Maps region) {offset n : BitVec 64}
    (inside : offset.toNat + n.toNat ≤ system.contents.length) :
    system.bytesAt (BitVec.ofNat 64 region.base + offset) n =
      (system.contents.drop offset.toNat).take n.toNat := by
  apply List.ext_getElem
  · rw [System.bytesAt, List.length_map, List.length_range, List.length_take, List.length_drop]
    omega
  · intro index below _
    rw [System.bytesAt, List.length_map, List.length_range] at below
    have address : BitVec.ofNat 64 region.base + offset + BitVec.ofNat 64 index =
        BitVec.ofNat 64 (region.base + (offset.toNat + index)) := by
      rw [BitVec.ofNat_add, BitVec.ofNat_add, BitVec.ofNat_toNat, BitVec.setWidth_eq,
        BitVec.add_assoc]
    simp only [System.bytesAt, List.getElem_map, List.getElem_range, List.getElem_take,
      List.getElem_drop]
    rw [address]
    exact maps.bytes (offset.toNat + index) (by omega)

end System

namespace ReadsFile

variable {contents result : Slice} {offset n : Nat} {status : Status}

/-- A read that goes beyond the file may fail. -/
theorem refused (fails : status.isOk = false) (beyond : contents.length < offset + n) :
    ReadsFile contents offset n status result where
  atMost passes := by
    rw [fails] at passes
    cases passes
  bytes passes := by
    rw [fails] at passes
    cases passes
  whole inside := absurd inside (Nat.not_le_of_lt beyond)

/-- As many of the bytes as there are. -/
theorem available (contents : Slice) (offset n : Nat) :
    ReadsFile contents offset n .ok ((contents.drop offset).take n) := by
  have length : ((contents.drop offset).take n).length = min n (contents.length - offset) := by
    rw [List.length_take, List.length_drop]
  refine ⟨fun _ => ?_, fun _ some_ => ⟨?_, ?_⟩, fun inside => ⟨rfl, ?_⟩⟩
  · exact List.length_take_le _ _
  · have := List.length_pos_iff.mpr some_
    omega
  · rw [List.length_take, ← List.take_take, List.take_length]
  · omega

end ReadsFile

section Reads

variable {system : System}

/-- The mapped file compares a sum that may have wrapped with the length. -/
theorem read_mmapReadable (filename : String) {region : Region} (maps : system.Maps region)
    (offset n : BitVec 64) (result : Slice) :
    ∃ status after,
      (File.mmapReadable filename region).read system offset n result = some (status, after) ∧
      (ReadsFile system.contents offset.toNat n.toNat status after ↔
        ¬ Wraps system.contents offset n) := by
  have short := system.short
  have sum : (offset + n).toNat = (offset.toNat + n.toNat) % 2 ^ 64 := BitVec.toNat_add offset n
  have offsetWord := offset.isLt
  have word := n.isLt
  simp only [File.read, maps.length]
  split
  · rename_i greater
    have beyond : system.contents.length < offset.toNat + n.toNat :=
      Nat.lt_of_lt_of_le greater (sum ▸ Nat.mod_le _ _)
    refine ⟨_, _, rfl, iff_of_true (.refused (posixError_isOk _ _) beyond) ?_⟩
    rintro ⟨wraps, within⟩
    rw [sum, Nat.mod_eq_sub_mod wraps, Nat.mod_eq_of_lt (by omega)] at greater
    omega
  · rename_i small
    refine ⟨_, _, rfl, ?_⟩
    by_cases wraps : offset.toNat + n.toNat < 2 ^ 64
    · rw [sum, Nat.mod_eq_of_lt wraps] at small
      rw [maps.bytesAt (Nat.le_of_not_gt small)]
      exact iff_of_true (.available _ _ _) fun wrapped => Nat.not_le_of_lt wraps wrapped.1
    · have wrapped : Wraps system.contents offset n := by
        rw [sum, Nat.mod_eq_sub_mod (Nat.le_of_not_lt wraps), Nat.mod_eq_of_lt (by omega)] at small
        exact ⟨Nat.le_of_not_lt wraps, by omega⟩
      refine iff_of_false (fun reads => ?_) fun fits => fits wrapped
      -- The result has `n` bytes, and some, or the sum would not wrap.
      have length : (system.bytesAt (BitVec.ofNat 64 region.base + offset) n).length = n.toNat := by
        rw [System.bytesAt, List.length_map, List.length_range]
      have some_ : system.bytesAt (BitVec.ofNat 64 region.base + offset) n ≠ [] := by
        apply List.length_pos_iff.mp
        omega
      have inside := (reads.bytes rfl some_).1
      omega

/-- The other file fails only where it cannot be opened, or where the offset as an `off_t` is
negative, which is beyond every file. -/
theorem read_randomAccess (system : System) (filename : String)
    (permanent : Option Descriptor) (offset n : BitVec 64) (result : Slice) :
    ∃ status after,
      (File.randomAccess filename permanent).read system offset n result = some (status, after) ∧
      (ReadsFile system.contents offset.toNat n.toNat status after ↔
        (permanent = none → offset.toNat + n.toNat ≤ system.contents.length →
          system.CanOpen)) := by
  have short := system.short
  cases opened : permanent.elim system.opens .ok with
  | error error =>
      have temporary : permanent = none ∧ system.opens = .error error := by
        cases permanent with
        | none => exact ⟨rfl, opened⟩
        | some fd => cases opened
      have closed : ¬ system.CanOpen := by
        rintro ⟨fd, opens⟩
        rw [temporary.2] at opens
        cases opens
      simp only [File.read, opened]
      refine ⟨_, _, rfl, fun reads _ inside => ?_, fun opens => ?_⟩
      · have passes := (reads.whole inside).1
        rw [posixError_isOk] at passes
        cases passes
      · exact .refused (posixError_isOk _ _)
          (Nat.lt_of_not_le fun inside => closed (opens temporary.1 inside))
  | ok fd =>
      have opens : permanent = none → offset.toNat + n.toNat ≤ system.contents.length →
          system.CanOpen := by
        intro temporary _
        rw [temporary] at opened
        exact ⟨fd, opened⟩
      have word := offset.toInt_eq_toNat_cond
      by_cases high : offset.toInt < 0
      · obtain ⟨error, fails⟩ := system.pread_negative fd n offset.toInt high
        simp only [File.read, opened, fails]
        refine ⟨_, _, rfl, iff_of_true (.refused (posixError_isOk _ _) ?_) opens⟩
        split at word
        · omega
        · omega
      · have low : offset.toInt.toNat = offset.toNat := by
          split at word
          · omega
          · have := offset.isLt
            omega
        simp only [File.read, opened, system.pread_reads fd n _ (Int.not_lt.mp high), low]
        exact ⟨_, _, rfl, iff_of_true (.available _ _ _) opens⟩

/-- Whichever file `NewRandomAccessFile` returned, a `Read` of it returns OK only with bytes of
the file and with all of those asked for when the file has them, unless the file is mapped
and the sum of offset and size wraps to one within it, or the `Read` has to open a file
that has them and cannot. -/
theorem read_readsFile_iff {filename : String} {file : File}
    (returns : system.Returns filename file) (offset n : BitVec 64) (result : Slice) :
    ∃ status after, file.read system offset n result = some (status, after) ∧
      (ReadsFile system.contents offset.toNat n.toNat status after ↔
        (file.isMmapReadable = true → ¬ Wraps system.contents offset n) ∧
        (file.isMmapReadable = false → file.hasPermanentFd = false →
          offset.toNat + n.toNat ≤ system.contents.length → system.CanOpen)) := by
  have serves := returns.serves
  cases file with
  | mmapReadable name region =>
      obtain ⟨status, after, read, iff⟩ := read_mmapReadable name serves offset n result
      refine ⟨status, after, read, iff.trans ⟨fun fits => ⟨fun _ => fits, ?_⟩, ?_⟩⟩
      · exact fun other => nomatch other
      · intro fits
        exact fits.1 rfl
  | randomAccess name permanent =>
      obtain ⟨status, after, read, iff⟩ :=
        read_randomAccess system name permanent offset n result
      refine ⟨status, after, read, iff.trans ⟨fun opens => ⟨?_, ?_⟩, fun opens => ?_⟩⟩
      · exact fun mapped => nomatch mapped
      · intro _ temporary
        cases permanent with
        | none => exact opens rfl
        | some fd => cases temporary
      · intro temporary
        subst temporary
        exact opens.2 rfl rfl
  | unmapped => exact serves.elim
  | closed => exact serves.elim

/-- A file of one byte, mapped to a page of zeros. -/
def oneByte : System where
  contents := [0x61]
  memory address := if address = 4096 then 0x61 else 0
  opens := .ok 3
  pread _ n offset :=
    if offset < 0 then .error einval else .ok ((List.drop offset.toNat [0x61]).take n.toNat)
  short := by decide
  pread_reads _ _ _ inside := if_neg (Int.not_lt.mpr inside)
  pread_negative _ _ _ negative := ⟨einval, if_pos negative⟩

theorem oneByte_returns : oneByte.Returns "a" (.mmapReadable "a" ⟨4096, 1⟩) := by
  have opened : oneByte.Comes "a" (.acquiringMmap 3) :=
    @System.Comes.step oneByte "a" (.initial fun _ => 1) _ _ _ (.opened 3) .opening trivial rfl
  have acquired : oneByte.Comes "a" (.sizing 3) :=
    @System.Comes.step oneByte "a" (.initial fun _ => 1) _ _ _ .done opened trivial rfl
  have sized : oneByte.Comes "a" (.mapping 3 1) :=
    @System.Comes.step oneByte "a" (.initial fun _ => 1) _ _ _ (.sized 1) acquired rfl rfl
  have shows : oneByte.Truthful (.mapping 3 1) (.mapped 4096) := by
    intro index inside _
    obtain rfl : index = 0 := Nat.lt_one_iff.mp inside
    rfl
  have mapped : oneByte.Comes "a" (.closing 3 (.ok ⟨4096, 1⟩)) :=
    @System.Comes.step oneByte "a" (.initial fun _ => 1) _ _ _ (.mapped 4096) sized shows rfl
  exact ⟨Env.initial fun _ => 1, _, _, .done, _, mapped, trivial, rfl⟩

theorem read_readsFile_iff_oneByte : ∃ status after,
    (File.mmapReadable "a" ⟨4096, 1⟩).read oneByte 0 1 [] = some (status, after) ∧
      ReadsFile oneByte.contents 0 1 status after := by
  obtain ⟨status, after, read, iff⟩ := read_readsFile_iff oneByte_returns 0 1 []
  refine ⟨status, after, read, iff.mpr ⟨fun _ wraps => ?_, fun other => nomatch other⟩⟩
  exact absurd wraps.1 (by decide)

/-- At the last offset the sum wraps to zero, and the `Read` returns the byte in front of the
mapping. -/
theorem read_in_front_of_mapping : oneByte.Returns "a" (.mmapReadable "a" ⟨4096, 1⟩) ∧
    (File.mmapReadable "a" ⟨4096, 1⟩).read oneByte (BitVec.ofNat 64 (2 ^ 64 - 1)) 1 [] =
      some (.ok, [0]) ∧
    ¬ ReadsFile oneByte.contents (2 ^ 64 - 1) 1 .ok [0] := by
  refine ⟨oneByte_returns, rfl, fun reads => ?_⟩
  have inside := (reads.bytes rfl (List.cons_ne_nil _ _)).1
  exact absurd inside (by decide)

end Reads

end RandomAccess

end MiniLevelDb
