import MiniLevelDb.Util.Status
import Mathlib.Logic.Function.Basic

/-!
# The lock of a database

`LockFile` and `UnlockFile` of `PosixEnv` on one file, by any number of processes with
any number of threads each. A step is a system call or an access to the lock table of
the process, whose mutex makes it atomic. The kernel has at most one write lock on the
file; it belongs to a process, which loses it when it unlocks the file or closes any
of its descriptors of it.
-/

namespace MiniLevelDb

namespace LockFile

abbrev Process := Nat

abbrev Thread := Nat

abbrev Descriptor := Nat

structure Errno where
  number : Nat
  text : String
deriving DecidableEq, Repr

/-- `PosixError`; 2 is `ENOENT`. -/
def posixError (context : String) (error : Errno) : Status :=
  if error.number = 2 then .notFound (context ++ ": " ++ error.text)
  else .ioError (context ++ ": " ++ error.text)

theorem posixError_isOk (context : String) (error : Errno) :
    (posixError context error).isOk = false := by
  unfold posixError
  split <;> rfl

/-- Where a thread is: outside, or in front of the next step of its call. -/
inductive Call where
  | outside
  | opening
  | inserting (fd : Descriptor)
  | closingHeld (fd : Descriptor)
  | locking (fd : Descriptor)
  | granted (fd : Descriptor)
  | closingRefused (fd : Descriptor) (error : Errno)
  | removingRefused (error : Errno)
  | unlocking (fd : Descriptor)
  | removing (fd : Descriptor)
  | closing (fd : Descriptor)
deriving DecidableEq, Repr

/-- A process: whether its lock table has the file, its open descriptors of the file,
its threads, and its `FileLock` objects. `locks` has those returned by a `LockFile` whose
`UnlockFile` is not yet called, `kept` those whose `UnlockFile` failed. -/
structure Env where
  inserted : Bool
  descriptors : List Descriptor
  calls : Thread → Call
  locks : List Descriptor
  kept : List Descriptor

/-- The processes, and the owner of the kernel's lock on the file. -/
structure State where
  env : Process → Env
  owner : Option Process

def initial : State := ⟨fun _ => ⟨false, [], fun _ => .outside, [], []⟩, none⟩

/-- What a thread does next where that is not determined: the call it makes, what `open`
answers, and whether `fcntl` fails. -/
inductive Move where
  | callLockFile
  | callUnlockFile (lock : Descriptor)
  | opened (fd : Descriptor)
  | openFailed (error : Errno)
  | fcntlFailed (error : Errno)
  | goOn
deriving DecidableEq, Repr

namespace State

def setEnv (state : State) (process : Process) (env : Env) : State :=
  { state with env := Function.update state.env process env }

/-- `LockOrUnlock(fd, true)`, if granted. -/
def grant (state : State) (process : Process) : Option State :=
  if state.owner = none ∨ state.owner = some process then
    some { state with owner := some process }
  else none

/-- The process has no lock on the file any more. -/
def drop (state : State) (process : Process) : State :=
  { state with owner := if state.owner = some process then none else state.owner }

/-- `close`. -/
def close (state : State) (process : Process) (fd : Descriptor) : State :=
  (state.drop process).setEnv process { state.env process with
    descriptors := (state.env process).descriptors.erase fd }

end State

def Env.goto (env : Env) (thread : Thread) (call : Call) : Env :=
  { env with calls := Function.update env.calls thread call }

/-- A thread at some step of its call. -/
def State.goto (state : State) (process : Process) (thread : Thread) (call : Call) : State :=
  state.setEnv process ((state.env process).goto thread call)

/-- One step of a thread: what its call returns, if it does, and the state after it. -/
def step (filename : String) (state : State) (process : Process) (thread : Thread)
    (move : Move) : Option (Option Status × State) :=
  let env := state.env process
  match env.calls thread, move with
  | .outside, .callLockFile => some (none, state.goto process thread .opening)
  | .outside, .callUnlockFile lock =>
      if lock ∈ env.locks then
        some (none, state.setEnv process
          { env.goto thread (.unlocking lock) with locks := env.locks.erase lock })
      -- not yet unlocked, so the caller may try again
      else if lock ∈ env.kept then
        some (none, state.setEnv process
          { env.goto thread (.unlocking lock) with kept := env.kept.erase lock })
      else none
  | .opening, .openFailed error =>
      some (some (posixError filename error), state.goto process thread .outside)
  | .opening, .opened fd =>
      if fd ∈ env.descriptors then none
      else
        some (none, state.setEnv process
          { env.goto thread (.inserting fd) with descriptors := fd :: env.descriptors })
  | .inserting fd, .goOn =>
      if env.inserted then some (none, state.goto process thread (.closingHeld fd))
      else
        some (none, state.setEnv process
          { env.goto thread (.locking fd) with inserted := true })
  | .closingHeld fd, .goOn =>
      some (some (.ioError ("lock " ++ filename ++ ": " ++ "already held by process")),
        (state.close process fd).goto process thread .outside)
  | .locking fd, .goOn =>
      (state.grant process).map fun granted =>
        (none, granted.goto process thread (.granted fd))
  | .locking fd, .fcntlFailed error =>
      some (none, state.goto process thread (.closingRefused fd error))
  | .granted fd, .goOn =>
      some (some .ok, state.setEnv process
        { env.goto thread .outside with locks := fd :: env.locks })
  | .closingRefused fd error, .goOn =>
      some (none, (state.close process fd).goto process thread (.removingRefused error))
  | .removingRefused error, .goOn =>
      some (some (posixError ("lock " ++ filename) error), state.setEnv process
        { env.goto thread .outside with inserted := false })
  | .unlocking fd, .goOn =>
      some (none, (state.drop process).goto process thread (.removing fd))
  | .unlocking fd, .fcntlFailed error =>
      some (some (posixError ("unlock " ++ filename) error), state.setEnv process
        { env.goto thread .outside with kept := fd :: env.kept })
  | .removing fd, .goOn =>
      some (none, state.setEnv process
        { env.goto thread (.closing fd) with inserted := false })
  | .closing fd, .goOn =>
      some (some .ok, (state.close process fd).goto process thread .outside)
  | _, _ => none

/-- The thread is about to close a descriptor. -/
def Call.closes : Call → Bool
  | .closingHeld _ => true
  | .closingRefused _ _ => true
  | .closing _ => true
  | _ => false

/-- The kernel has granted the lock, and the call has not returned. -/
def Call.isGranted : Call → Bool
  | .granted _ => true
  | _ => false

/-- The process has been granted the lock, and the `UnlockFile` of that lock is not
called. -/
def Env.Locked (env : Env) : Prop :=
  env.locks ≠ [] ∨ ∃ thread, (env.calls thread).isGranted = true

/-- The step does not close a descriptor of the file in a process that has it locked. -/
def Careful (state : State) (process : Process) (thread : Thread) : Prop :=
  ((state.env process).calls thread).closes = true → ¬ (state.env process).Locked

/-- The states reached by the steps that satisfy a condition. -/
inductive Reached (filename : String) (condition : State → Process → Thread → Prop) :
    State → Prop where
  | initial : Reached filename condition initial
  | step {state after : State} {process : Process} {thread : Thread} {move : Move}
      {returned : Option Status} (reached : Reached filename condition state)
      (meets : condition state process thread)
      (stepped : step filename state process thread move = some (returned, after)) :
      Reached filename condition after

/-- At most one `LockFile` that returned OK is not yet followed by its `UnlockFile`. -/
def Exclusive (state : State) : Prop :=
  (∀ process, (state.env process).locks.length ≤ 1) ∧
  ∀ left right, (state.env left).locks ≠ [] → (state.env right).locks ≠ [] → left = right

/-- The thread has put the file into the lock table, or has a lock whose `LockFile` did,
and has not yet taken the file out or left it to a lock. -/
def Call.claims : Call → Bool
  | .locking _ => true
  | .granted _ => true
  | .closingRefused _ _ => true
  | .removingRefused _ => true
  | .unlocking _ => true
  | .removing _ => true
  | _ => false

/-- The `FileLock` objects of a process that no thread is in an `UnlockFile` of. -/
def Env.objects (env : Env) : List Descriptor := env.locks ++ env.kept

/-- At most one thread or lock of a process has the file in the lock table. -/
structure Env.Claimed (env : Env) : Prop where
  single : env.objects.length ≤ 1
  thread : ∀ left right, (env.calls left).claims = true → (env.calls right).claims = true →
    left = right
  apart : ∀ thread, (env.calls thread).claims = true → env.objects = []
  inserted : env.objects ≠ [] ∨ (∃ thread, (env.calls thread).claims = true) →
    env.inserted = true

namespace Env.Claimed

variable {env : Env} {thread : Thread} {call : Call}

/-- A thread goes on without a change in the table or the locks. -/
theorem goto (claimed : env.Claimed)
    (keeps : call.claims = true → (env.calls thread).claims = true) :
    (env.goto thread call).Claimed := by
  have was : ∀ other, ((env.goto thread call).calls other).claims = true →
      (env.calls other).claims = true := by
    intro other claims
    by_cases same : other = thread
    · subst same
      simp only [Env.goto, Function.update_self] at claims
      exact keeps claims
    · simpa only [Env.goto, Function.update_of_ne same] using claims
  refine ⟨claimed.single, fun left right first second => ?_, fun other claims => ?_, ?_⟩
  · exact claimed.thread left right (was left first) (was right second)
  · exact claimed.apart other (was other claims)
  · rintro (held | ⟨other, claims⟩)
    · exact claimed.inserted (.inl held)
    · exact claimed.inserted (.inr ⟨other, was other claims⟩)

/-- The descriptors of a process play no part. -/
theorem withDescriptors (claimed : env.Claimed) (descriptors : List Descriptor) :
    Claimed { env with descriptors := descriptors } :=
  ⟨claimed.single, claimed.thread, claimed.apart, claimed.inserted⟩

/-- A table without the file is claimed by nothing. -/
theorem free (claimed : env.Claimed) (absent : env.inserted = false) :
    env.objects = [] ∧ ∀ thread, (env.calls thread).claims = false := by
  constructor
  · by_contra held
    rw [claimed.inserted (.inl held)] at absent
    cases absent
  · intro thread
    by_contra claims
    rw [claimed.inserted (.inr ⟨thread, by simpa using claims⟩)] at absent
    cases absent

/-- A thread puts the file into the table. -/
theorem insert (claimed : env.Claimed) (absent : env.inserted = false) (call : Call) :
    Claimed { env.goto thread call with inserted := true } := by
  obtain ⟨unlocked, idle⟩ := claimed.free absent
  have only : ∀ other, (Function.update env.calls thread call other).claims = true →
      other = thread := by
    intro other claims
    by_contra differ
    rw [Function.update_of_ne differ, idle other] at claims
    cases claims
  refine ⟨claimed.single, fun left right first second => ?_, fun other _ => unlocked,
    fun _ => rfl⟩
  exact (only left first).trans (only right second).symm

/-- The thread that claims the file leaves it to no one, or to a lock. -/
theorem leave (claimed : env.Claimed) (claims : (env.calls thread).claims = true)
    (done : call.claims = false) {locks kept : List Descriptor} {inserted : Bool}
    (few : (locks ++ kept).length ≤ 1) (held : locks ++ kept ≠ [] → inserted = true) :
    Claimed { env.goto thread call with locks := locks, kept := kept, inserted := inserted } := by
  have none_left : ∀ other, (Function.update env.calls thread call other).claims = false := by
    intro other
    by_cases same : other = thread
    · rw [same, Function.update_self, done]
    · rw [Function.update_of_ne same, ← Bool.not_eq_true]
      exact fun also => same (claimed.thread other thread also claims)
  refine ⟨few, fun left right first _ => ?_, fun other also => ?_, ?_⟩
  · exact absurd first (by simp [Env.goto, none_left])
  · exact absurd also (by simp [Env.goto, none_left])
  · rintro (some_ | ⟨other, also⟩)
    · exact held some_
    · exact absurd also (by simp [Env.goto, none_left])

/-- The lock of an `UnlockFile` is the only one. -/
theorem objects_eq (claimed : env.Claimed) {lock : Descriptor} (member : lock ∈ env.objects) :
    env.objects = [lock] := by
  have few := claimed.single
  match env.objects, member, few with
  | [only], member, _ => rw [List.mem_singleton.mp member]

/-- A thread takes over from the lock it is given. -/
theorem unlock (claimed : env.Claimed) {lock : Descriptor} (member : lock ∈ env.objects)
    (call : Call) {locks kept : List Descriptor} (emptied : locks ++ kept = []) :
    Claimed { env.goto thread call with locks := locks, kept := kept } := by
  have none_claims : ∀ other, (env.calls other).claims = false := by
    intro other
    rw [← Bool.not_eq_true]
    intro claims
    rw [claimed.apart other claims] at member
    cases member
  have only : ∀ other, (Function.update env.calls thread call other).claims = true →
      other = thread := by
    intro other claims
    by_contra differ
    rw [Function.update_of_ne differ, none_claims other] at claims
    cases claims
  refine ⟨?_, fun left right first second => ?_, fun other _ => emptied, fun _ => ?_⟩
  · simp [objects, emptied]
  · exact (only left first).trans (only right second).symm
  · exact claimed.inserted (.inl (List.ne_nil_of_mem member))

/-- Nothing is left where the only lock is taken from the returned ones. -/
theorem erase_locks (claimed : env.Claimed) {lock : Descriptor} (member : lock ∈ env.locks) :
    env.locks.erase lock ++ env.kept = [] := by
  have erased : env.objects.erase lock = env.locks.erase lock ++ env.kept :=
    List.erase_append_left env.kept member
  rw [← erased, claimed.objects_eq (List.mem_append_left _ member)]
  exact List.erase_cons_head lock []

/-- Nothing is left where the only lock is taken from the kept ones. -/
theorem erase_kept (claimed : env.Claimed) {lock : Descriptor} (absent : lock ∉ env.locks)
    (member : lock ∈ env.kept) : env.locks ++ env.kept.erase lock = [] := by
  have erased : env.objects.erase lock = env.locks ++ env.kept.erase lock :=
    List.erase_append_right env.kept absent
  rw [← erased, claimed.objects_eq (List.mem_append_right _ member)]
  exact List.erase_cons_head lock []

/-- A process one of whose threads has the file in the table has it not locked, but for
that thread. -/
theorem unlocked (claimed : env.Claimed) (claims : (env.calls thread).claims = true)
    (waits : (env.calls thread).isGranted = false) : ¬ env.Locked := by
  rintro (held | ⟨other, granted⟩)
  · exact held (List.append_eq_nil_iff.mp (claimed.apart thread claims)).1
  · have also : (env.calls other).claims = true := by
      cases call : env.calls other <;> simp [call, Call.isGranted] at granted
      rfl
    rw [claimed.thread other thread also claims, waits] at granted
    cases granted

end Env.Claimed

/-- A process gets the lock by a step of a thread that is granted it, or of one that
returns it. -/
theorem Env.Locked.of_goto {env after : Env} {thread : Thread} {call : Call}
    (locked : after.Locked) (calls : after.calls = Function.update env.calls thread call)
    (waits : call.isGranted = false) (locks : after.locks ≠ [] → env.locks ≠ []) :
    env.Locked := by
  rcases locked with held | ⟨other, granted⟩
  · exact .inl (locks held)
  · rw [calls] at granted
    refine .inr ⟨other, ?_⟩
    by_cases same : other = thread
    · rw [same, Function.update_self, waits] at granted
      cases granted
    · rwa [Function.update_of_ne same] at granted

/-- The lock table of every process is in order, and a process that has the file locked
owns the kernel's lock. -/
structure Invariant (state : State) : Prop where
  claimed : ∀ process, (state.env process).Claimed
  owned : ∀ process, (state.env process).Locked → state.owner = some process

namespace Invariant

variable {state : State} {process : Process} {env : Env}

/-- A step of one process, with the owner of the kernel's lock after it. -/
theorem setEnv (inv : Invariant state) (claimed : env.Claimed) {owner : Option Process}
    (own : env.Locked → owner = some process)
    (others : ∀ other, other ≠ process → state.owner = some other → owner = some other) :
    Invariant ⟨Function.update state.env process env, owner⟩ := by
  refine ⟨fun other => ?_, fun other held => ?_⟩
  · by_cases same : other = process
    · subst same
      simpa only [Function.update_self] using claimed
    · simpa only [Function.update_of_ne same] using inv.claimed other
  · by_cases same : other = process
    · subst same
      simp only [Function.update_self] at held
      exact own held
    · simp only [Function.update_of_ne same] at held
      exact others other same (inv.owned other held)

/-- A step that leaves the kernel's lock as it is, and locks nothing. -/
theorem keep (inv : Invariant state) (claimed : env.Claimed)
    (same : env.Locked → (state.env process).Locked) :
    Invariant (state.setEnv process env) :=
  inv.setEnv claimed (fun held => inv.owned process (same held)) fun _ _ was => was

/-- A process that has not locked the file drops the kernel's lock. -/
theorem drop (inv : Invariant state) (claimed : env.Claimed) (unlocked : ¬ env.Locked) :
    Invariant ((state.drop process).setEnv process env) := by
  refine inv.setEnv claimed (fun held => absurd held unlocked) fun other differ was => ?_
  rw [State.drop, was, if_neg (by simpa using differ)]

end Invariant

/-- What a `close` and the next step of its thread write. -/
theorem State.close_goto (state : State) (process : Process) (thread : Thread) (fd : Descriptor)
    (call : Call) :
    (state.close process fd).goto process thread call = (state.drop process).setEnv process
      { (state.env process).goto thread call with
        descriptors := (state.env process).descriptors.erase fd } := by
  simp [State.goto, State.close, State.setEnv, State.drop, Env.goto]

namespace Invariant

variable {state : State} {process : Process} {thread : Thread} {call : Call} {fd : Descriptor}

/-- A thread goes on, and is not granted the lock. -/
theorem goto (inv : Invariant state) (waits : call.isGranted = false)
    (keeps : call.claims = true → ((state.env process).calls thread).claims = true) :
    Invariant (state.goto process thread call) :=
  inv.keep ((inv.claimed process).goto keeps) fun locked => locked.of_goto rfl waits id

/-- A thread opens a descriptor of the file. -/
theorem opened (inv : Invariant state) (waits : call.isGranted = false)
    (idle : call.claims = false) :
    Invariant (state.setEnv process { (state.env process).goto thread call with
      descriptors := fd :: (state.env process).descriptors }) := by
  refine inv.keep (((inv.claimed process).goto fun claims => ?_).withDescriptors _) fun locked =>
    locked.of_goto rfl waits id
  rw [idle] at claims
  cases claims

/-- A thread closes a descriptor of the file, in a process that has not locked it. -/
theorem close (inv : Invariant state) (waits : call.isGranted = false)
    (keeps : call.claims = true → ((state.env process).calls thread).claims = true)
    (unlocked : ¬ (state.env process).Locked) :
    Invariant ((state.close process fd).goto process thread call) := by
  rw [State.close_goto]
  exact inv.drop (((inv.claimed process).goto keeps).withDescriptors _) fun locked =>
    unlocked (locked.of_goto rfl waits id)

/-- A thread is granted the kernel's lock. -/
theorem grant (inv : Invariant state) {granted : State}
    (grants : state.grant process = some granted)
    (claims : ((state.env process).calls thread).claims = true) :
    Invariant (granted.goto process thread call) := by
  rw [State.grant] at grants
  split at grants
  · rename_i free
    cases grants
    refine inv.setEnv ((inv.claimed process).goto fun _ => claims) (fun _ => rfl)
      fun other differ was => ?_
    rw [was] at free
    simp [differ] at free
  · cases grants

/-- A thread takes the file out of the table. -/
theorem remove (inv : Invariant state)
    (claims : ((state.env process).calls thread).claims = true) (done : call.claims = false)
    (waits : call.isGranted = false) :
    Invariant (state.setEnv process
      { (state.env process).goto thread call with inserted := false }) := by
  have claimed := inv.claimed process
  refine inv.keep (claimed.leave claims done claimed.single fun held => ?_) fun locked =>
    locked.of_goto rfl waits id
  exact absurd (claimed.apart thread claims) held

/-- A `LockFile` returns the lock that it was granted. -/
theorem returns (inv : Invariant state)
    (granted : (state.env process).calls thread = .granted fd) :
    Invariant (state.setEnv process { (state.env process).goto thread .outside with
      locks := fd :: (state.env process).locks }) := by
  have claimed := inv.claimed process
  have claims : ((state.env process).calls thread).claims = true := by rw [granted]; rfl
  have unlocked := List.append_eq_nil_iff.mp (claimed.apart thread claims)
  refine inv.keep (claimed.leave claims rfl ?_ fun _ => ?_) fun _ => .inr ⟨thread, ?_⟩
  · simp [Env.goto, unlocked]
  · exact claimed.inserted (.inr ⟨thread, claims⟩)
  · rw [granted]
    rfl

/-- An `UnlockFile` fails, and leaves its lock to be unlocked again. -/
theorem keeps (inv : Invariant state)
    (claims : ((state.env process).calls thread).claims = true) :
    Invariant (state.setEnv process { (state.env process).goto thread .outside with
      kept := fd :: (state.env process).kept }) := by
  have claimed := inv.claimed process
  have unlocked := List.append_eq_nil_iff.mp (claimed.apart thread claims)
  refine inv.keep (claimed.leave claims rfl ?_ fun _ => ?_) fun locked =>
    locked.of_goto rfl rfl id
  · simp [Env.goto, unlocked]
  · exact claimed.inserted (.inr ⟨thread, claims⟩)

end Invariant

/-- The steps of one thread, in the order of its calls. -/
theorem step_invariant {filename : String} {state after : State} {process : Process}
    {thread : Thread} {move : Move} {returned : Option Status} (inv : Invariant state)
    (careful : Careful state process thread)
    (stepped : step filename state process thread move = some (returned, after)) :
    Invariant after := by
  have claimed := inv.claimed process
  cases call : (state.env process).calls thread with
  | outside =>
      cases move <;> simp only [step, call, reduceCtorEq] at stepped
      case callLockFile =>
        cases stepped
        exact inv.goto rfl (by simp [Call.claims])
      case callUnlockFile lock =>
        split at stepped
        · rename_i member
          cases stepped
          exact inv.keep (claimed.unlock (List.mem_append_left _ member) _
            (claimed.erase_locks member)) fun _ => .inl (List.ne_nil_of_mem member)
        · rename_i absent
          split at stepped
          · rename_i member
            cases stepped
            exact inv.keep (claimed.unlock (List.mem_append_right _ member) _
              (claimed.erase_kept absent member)) fun locked => locked.of_goto rfl rfl id
          · cases stepped
  | opening =>
      cases move <;> simp only [step, call, reduceCtorEq] at stepped
      case opened fd =>
        split at stepped
        · cases stepped
        · cases stepped
          exact inv.opened rfl rfl
      case openFailed error =>
        cases stepped
        exact inv.goto rfl (by simp [Call.claims])
  | inserting fd =>
      cases move <;> simp only [step, call, reduceCtorEq] at stepped
      split at stepped
      · cases stepped
        exact inv.goto rfl (by simp [Call.claims])
      · rename_i absent
        cases stepped
        exact inv.keep (claimed.insert (by simpa using absent) _) fun locked =>
          locked.of_goto rfl rfl id
  | closingHeld fd =>
      cases move <;> simp only [step, call, reduceCtorEq] at stepped
      cases stepped
      exact inv.close rfl (by simp [Call.claims]) (careful (by rw [call]; rfl))
  | locking fd =>
      have claims : ((state.env process).calls thread).claims = true := by rw [call]; rfl
      cases move <;> simp only [step, call, reduceCtorEq] at stepped
      case fcntlFailed error =>
        cases stepped
        exact inv.goto rfl fun _ => claims
      case goOn =>
        obtain ⟨granted, grants, rfl, rfl⟩ : ∃ granted, state.grant process = some granted ∧
            none = returned ∧ granted.goto process thread (.granted fd) = after := by
          simpa using stepped
        exact inv.grant grants claims
  | granted fd =>
      cases move <;> simp only [step, call, reduceCtorEq] at stepped
      cases stepped
      exact inv.returns call
  | closingRefused fd error =>
      cases move <;> simp only [step, call, reduceCtorEq] at stepped
      cases stepped
      have claims : ((state.env process).calls thread).claims = true := by rw [call]; rfl
      exact inv.close rfl (fun _ => claims) (claimed.unlocked claims (by rw [call]; rfl))
  | removingRefused error =>
      cases move <;> simp only [step, call, reduceCtorEq] at stepped
      cases stepped
      exact inv.remove (by rw [call]; rfl) rfl rfl
  | unlocking fd =>
      have claims : ((state.env process).calls thread).claims = true := by rw [call]; rfl
      cases move <;> simp only [step, call, reduceCtorEq] at stepped
      case fcntlFailed error =>
        cases stepped
        exact inv.keeps claims
      case goOn =>
        cases stepped
        refine inv.drop (claimed.goto fun _ => claims) fun locked => ?_
        exact claimed.unlocked claims (by rw [call]; rfl) (locked.of_goto rfl rfl id)
  | removing fd =>
      cases move <;> simp only [step, call, reduceCtorEq] at stepped
      cases stepped
      exact inv.remove (by rw [call]; rfl) rfl rfl
  | closing fd =>
      cases move <;> simp only [step, call, reduceCtorEq] at stepped
      cases stepped
      exact inv.close rfl (by simp [Call.claims]) (careful (by rw [call]; rfl))

theorem initial_invariant : Invariant initial := by
  refine ⟨fun process => ⟨by simp [initial, Env.objects], ?_, ?_, ?_⟩, ?_⟩ <;>
    simp [initial, Env.objects, Env.Locked, Call.claims, Call.isGranted]

theorem Invariant.exclusive {state : State} (inv : Invariant state) : Exclusive state := by
  refine ⟨fun process => ?_, fun left right first second => ?_⟩
  · have few := (inv.claimed process).single
    rw [Env.objects, List.length_append] at few
    exact Nat.le_trans (Nat.le_add_right _ _) few
  · have both := inv.owned left (.inl first)
    rw [inv.owned right (.inl second)] at both
    cases both
    rfl

/-- Where a thread has been granted the lock, no lock is held. -/
theorem Invariant.unlocked {state : State} {process : Process} {thread : Thread}
    {fd : Descriptor} (inv : Invariant state)
    (call : (state.env process).calls thread = .granted fd) (other : Process) :
    (state.env other).locks = [] := by
  have own := inv.owned process (.inr ⟨thread, by rw [call]; rfl⟩)
  have apart := (inv.claimed process).apart thread (by rw [call]; rfl)
  by_contra held
  rw [inv.owned other (.inl held)] at own
  cases own
  exact held (List.append_eq_nil_iff.mp apart).1

/-- As long as no process closes a descriptor of the file while it has the file locked,
there is at most one lock, and `LockFile` returns OK only where there is none. -/
theorem reached_exclusive {filename : String} {state : State}
    (reached : Reached filename Careful state) :
    Exclusive state ∧
    ∀ process thread fd move after, (state.env process).calls thread = .granted fd →
      step filename state process thread move = some (some .ok, after) →
      ∀ other, (state.env other).locks = [] := by
  have inv : Invariant state := by
    induction reached with
    | initial => exact initial_invariant
    | step reached meets stepped ih => exact step_invariant ih meets stepped
  exact ⟨inv.exclusive, fun process thread fd move after call _ other => inv.unlocked call other⟩

theorem reached_exclusive_locked : ∃ state, Reached "LOCK" Careful state ∧
    (state.env 0).locks = [3] ∧ Exclusive state := by
  obtain ⟨state, reached, locked⟩ : ∃ state, Reached "LOCK" Careful state ∧
      (state.env 0).locks = [3] :=
    ⟨_, @Reached.step _ _ _ _ 0 0 .goOn _
      (@Reached.step _ _ _ _ 0 0 .goOn _
        (@Reached.step _ _ _ _ 0 0 .goOn _
          (@Reached.step _ _ _ _ 0 0 (.opened 3) _
            (@Reached.step _ _ _ _ 0 0 .callLockFile _ .initial (fun closes => nomatch closes) rfl)
            (fun closes => nomatch closes) rfl)
          (fun closes => nomatch closes) rfl)
        (fun closes => nomatch closes) rfl)
      (fun closes => nomatch closes) rfl, rfl⟩
  exact ⟨state, reached, locked, (reached_exclusive reached).1⟩

/-- Process 0 locks the file, tries to lock it again, and so loses it to process 1. -/
theorem exclusive_fails_after_second_attempt :
    ∃ state, Reached "LOCK" (fun _ _ _ => True) state ∧ (state.env 0).locks = [3] ∧
      (state.env 1).locks = [3] ∧ ¬ Exclusive state := by
  obtain ⟨state, reached, first, second⟩ : ∃ state,
      Reached "LOCK" (fun _ _ _ => True) state ∧ (state.env 0).locks = [3] ∧
      (state.env 1).locks = [3] := by
    refine ⟨_, @Reached.step _ _ _ _ 1 0 .goOn _ (@Reached.step _ _ _ _ 1 0 .goOn _
      (@Reached.step _ _ _ _ 1 0 .goOn _
      (@Reached.step _ _ _ _ 1 0 (.opened 3) _ (@Reached.step _ _ _ _ 1 0 .callLockFile _
      (@Reached.step _ _ _ _ 0 0 .goOn _ (@Reached.step _ _ _ _ 0 0 .goOn _
      (@Reached.step _ _ _ _ 0 0 (.opened 4) _ (@Reached.step _ _ _ _ 0 0 .callLockFile _
      (@Reached.step _ _ _ _ 0 0 .goOn _ (@Reached.step _ _ _ _ 0 0 .goOn _
      (@Reached.step _ _ _ _ 0 0 .goOn _
      (@Reached.step _ _ _ _ 0 0 (.opened 3) _ (@Reached.step _ _ _ _ 0 0 .callLockFile _
      .initial trivial rfl) trivial rfl) trivial rfl) trivial rfl) trivial rfl) trivial rfl)
      trivial rfl) trivial rfl) trivial rfl) trivial rfl) trivial rfl) trivial rfl)
      trivial rfl) trivial rfl, rfl, rfl⟩
  refine ⟨state, reached, first, second, fun exclusive => ?_⟩
  have same : (0 : Process) = 1 := exclusive.2 0 1 (by simp [first]) (by simp [second])
  cases same

end LockFile

end MiniLevelDb
