import MiniLevelDb.Foundation.Permits
import MiniLevelDb.Util.LockFile
import Mathlib.Data.Finset.Basic

/-!
# Random access files

`NewRandomAccessFile` of `PosixEnv`, and the destructors of the files it returns, by any
number of threads. A step is one access to the counter of a limiter or one system call,
and each that can fail may fail at any time. Each counter is an integer; the last theorem
bounds it, so that an `int` holds it as long as it can count the calls in progress.
-/

namespace MiniLevelDb

open Foundation

/-- `Limiter`. -/
structure Limiter where
  maxAcquires : Nat
  acquiresAllowed : Int
deriving DecidableEq, Repr

namespace Limiter

def new (maxAcquires : Nat) : Limiter := ⟨maxAcquires, maxAcquires⟩

/-- What `Acquire` tests, on what its `fetch_sub` finds. -/
def allows (limiter : Limiter) : Bool := 0 < limiter.acquiresAllowed

def fetchSub (limiter : Limiter) : Limiter :=
  { limiter with acquiresAllowed := limiter.acquiresAllowed - 1 }

def fetchAdd (limiter : Limiter) : Limiter :=
  { limiter with acquiresAllowed := limiter.acquiresAllowed + 1 }

/-- What `Acquire` and `Release` assert, on what their `fetch_add` finds. -/
def asserts (limiter : Limiter) : Bool := limiter.acquiresAllowed < limiter.maxAcquires

end Limiter

namespace RandomAccess

open LockFile (Descriptor Errno posixError)

/-- What the two limiters of `PosixEnv` limit: `mmap_limiter_` and `fd_limiter_`. -/
inductive Limited where
  | mmap
  | fd
deriving DecidableEq, Repr

/-- The limiters, the descriptors that `NewRandomAccessFile` has opened and nobody has
closed, and whether all assertions held so far. -/
structure Env where
  limiter : Limited → Limiter
  descriptors : Finset Descriptor
  asserted : Bool

namespace Env

def initial (limits : Limited → Nat) : Env := ⟨fun kind => .new (limits kind), ∅, true⟩

def fetchSub (env : Env) (kind : Limited) : Env :=
  { env with limiter := Function.update env.limiter kind (env.limiter kind).fetchSub }

def fetchAdd (env : Env) (kind : Limited) : Env :=
  { env with
    limiter := Function.update env.limiter kind (env.limiter kind).fetchAdd
    asserted := env.asserted && (env.limiter kind).asserts }

def opened (env : Env) (fd : Descriptor) : Env :=
  { env with descriptors := insert fd env.descriptors }

def close (env : Env) (fd : Descriptor) : Env :=
  { env with descriptors := env.descriptors.erase fd }

end Env

/-- What `mmap` returns, and the length that `munmap` needs. -/
structure Region where
  base : Nat
  length : Nat
deriving DecidableEq, Repr

/-- A file whose destructor is not done: a `PosixMmapReadableFile`, also after its
`munmap`, or a `PosixRandomAccessFile`, with its descriptor if that is permanent, also
after its `close`. -/
inductive File where
  | mmapReadable (filename : String) (region : Region)
  | unmapped
  | randomAccess (filename : String) (fd : Option Descriptor)
  | closed
deriving DecidableEq, Repr

/-- Where a call of `NewRandomAccessFile` is, in front of its next step: the `fetch_sub`
of `Acquire` or the `fetch_add` that undoes it, in the function or in the constructor of
`PosixRandomAccessFile`; the `close` of that constructor; `stat`, `mmap`, the `close` and
the `Release` of the function. -/
inductive Phase where
  | opening
  | acquiringMmap (fd : Descriptor)
  | undoingMmap (fd : Descriptor)
  | acquiringFd (fd : Descriptor)
  | undoingFd (fd : Descriptor)
  | closingTemporary (fd : Descriptor)
  | sizing (fd : Descriptor)
  | mapping (fd : Descriptor) (size : Nat)
  | closing (fd : Descriptor) (mapped : Except Status Region)
  | releasing (status : Status)

/-- What the system answers. -/
inductive Answer where
  | opened (fd : Descriptor)
  | sized (size : Nat)
  | mapped (base : Nat)
  | failed (error : Errno)
  | done
deriving DecidableEq, Repr

/-- After a step, a call is in front of the next one, or has returned its status and file. -/
inductive After where
  | goesOn (phase : Phase)
  | returns (status : Status) (result : Option File)

/-- One step of `NewRandomAccessFile`. -/
def step (env : Env) (filename : String) : Phase → Answer → Option (Env × After)
  | .opening, .failed error => some (env, .returns (posixError filename error) none)
  | .opening, .opened fd =>
      if fd ∈ env.descriptors then none else some (env.opened fd, .goesOn (.acquiringMmap fd))
  | .acquiringMmap fd, .done =>
      some (env.fetchSub .mmap,
        .goesOn (if (env.limiter .mmap).allows then .sizing fd else .undoingMmap fd))
  | .undoingMmap fd, .done => some (env.fetchAdd .mmap, .goesOn (.acquiringFd fd))
  | .acquiringFd fd, .done =>
      some (env.fetchSub .fd,
        if (env.limiter .fd).allows then .returns .ok (some (.randomAccess filename (some fd)))
        else .goesOn (.undoingFd fd))
  | .undoingFd fd, .done => some (env.fetchAdd .fd, .goesOn (.closingTemporary fd))
  | .closingTemporary fd, .done =>
      some (env.close fd, .returns .ok (some (.randomAccess filename none)))
  | .sizing fd, .sized size => some (env, .goesOn (.mapping fd size))
  | .sizing fd, .failed error =>
      some (env, .goesOn (.closing fd (.error (posixError filename error))))
  | .mapping fd size, .mapped base => some (env, .goesOn (.closing fd (.ok ⟨base, size⟩)))
  | .mapping fd _, .failed error =>
      some (env, .goesOn (.closing fd (.error (posixError filename error))))
  | .closing fd (.ok region), .done =>
      some (env.close fd, .returns .ok (some (.mmapReadable filename region)))
  | .closing fd (.error status), .done => some (env.close fd, .goesOn (.releasing status))
  | .releasing status, .done => some (env.fetchAdd .mmap, .returns status none)
  | _, _ => none

/-- One step of the destructor of a file, and what is then left of it. -/
def destroy (env : Env) : File → Env × Option File
  | .mmapReadable _ _ => (env, some .unmapped)
  | .unmapped => (env.fetchAdd .mmap, none)
  | .randomAccess _ (some fd) => (env.close fd, some .closed)
  | .closed => (env.fetchAdd .fd, none)
  | .randomAccess _ none => (env, none)

/-- A call in progress. -/
structure Call where
  filename : String
  phase : Phase

/-- The calls in progress, each in a thread of its own, and the files they returned. -/
structure State where
  env : Env
  calls : Multiset Call
  files : Multiset File

def initial (limits : Limited → Nat) : State := ⟨.initial limits, 0, 0⟩

/-- One step of one thread. -/
inductive Step : State → State → Prop where
  | call {state : State} (filename : String) :
      Step state { state with calls := ⟨filename, .opening⟩ ::ₘ state.calls }
  | goOn {state : State} {call : Call} {others : Multiset Call} {answer : Answer} {env : Env}
      {phase : Phase} (calls : state.calls = call ::ₘ others)
      (stepped : step state.env call.filename call.phase answer = some (env, .goesOn phase)) :
      Step state ⟨env, ⟨call.filename, phase⟩ ::ₘ others, state.files⟩
  | returned {state : State} {call : Call} {others : Multiset Call} {answer : Answer} {env : Env}
      {status : Status} {result : Option File} (calls : state.calls = call ::ₘ others)
      (stepped : step state.env call.filename call.phase answer =
        some (env, .returns status result)) :
      Step state ⟨env, others, result.toList + state.files⟩
  | destroy {state : State} {file : File} {others : Multiset File}
      (files : state.files = file ::ₘ others) :
      Step state
        ⟨(destroy state.env file).1, state.calls, (destroy state.env file).2.toList + others⟩

/-- The states of all interleavings. -/
inductive Reached (limits : Limited → Nat) : State → Prop where
  | initial : Reached limits (initial limits)
  | step {state after : State} (reached : Reached limits state) (stepped : Step state after) :
      Reached limits after

/-- A `PosixMmapReadableFile`. -/
def File.isMmapReadable : File → Bool
  | .mmapReadable _ _ | .unmapped => true
  | .randomAccess _ _ | .closed => false

/-- A `PosixRandomAccessFile` with a permanent descriptor. -/
def File.hasPermanentFd : File → Bool
  | .randomAccess _ (some _) | .closed => true
  | .randomAccess _ none | .mmapReadable _ _ | .unmapped => false

def File.owns (fd : Descriptor) : File → Bool
  | .randomAccess _ (some own) => own = fd
  | .randomAccess _ none | .closed | .mmapReadable _ _ | .unmapped => false

/-- The call has constructed a `PosixMmapReadableFile` and not returned it yet. -/
def Phase.constructed : Phase → Bool
  | .closing _ (.ok _) => true
  | _ => false

/-- The call has the descriptor open and has not handed it on. -/
def Phase.owns (fd : Descriptor) : Phase → Bool
  | .opening | .releasing _ => false
  | .acquiringMmap own | .undoingMmap own | .acquiringFd own | .undoingFd own
  | .closingTemporary own | .sizing own | .mapping own _ | .closing own _ => own = fd

/-- How many live files hold a unit of the limiter. -/
def State.live (state : State) : Limited → Nat
  | .mmap => state.files.countP (fun file => file.isMmapReadable = true) +
      state.calls.countP (fun call => call.phase.constructed = true)
  | .fd => state.files.countP (fun file => file.hasPermanentFd = true)

/-- What a call or a file answers for: a unit that it got from a limiter, a `fetch_sub` that
has to be undone, a descriptor. -/
inductive Duty where
  | unit (kind : Limited)
  | undo (kind : Limited)
  | descriptor (fd : Descriptor)
deriving DecidableEq, Repr

def Phase.duties : Phase → Multiset Duty
  | .opening => 0
  | .acquiringMmap fd => {.descriptor fd}
  | .undoingMmap fd => {.undo .mmap, .descriptor fd}
  | .acquiringFd fd => {.descriptor fd}
  | .undoingFd fd => {.undo .fd, .descriptor fd}
  | .closingTemporary fd => {.descriptor fd}
  | .sizing fd => {.unit .mmap, .descriptor fd}
  | .mapping fd _ => {.unit .mmap, .descriptor fd}
  | .closing fd _ => {.unit .mmap, .descriptor fd}
  | .releasing _ => {.unit .mmap}

def File.duties : File → Multiset Duty
  | .mmapReadable _ _ => {.unit .mmap}
  | .unmapped => {.unit .mmap}
  | .randomAccess _ (some fd) => {.unit .fd, .descriptor fd}
  | .randomAccess _ none => 0
  | .closed => {.unit .fd}

def After.duties : After → Multiset Duty
  | .goesOn phase => phase.duties
  | .returns _ result => result.elim 0 File.duties

/-- The members of the environment are what the duties make of the limits, and all
assertions held. -/
structure Accounts (limits : Limited → Nat) (env : Env) (duties : Multiset Duty) : Prop where
  maxAcquires : ∀ kind, (env.limiter kind).maxAcquires = limits kind
  permits : ∀ kind, Permits (limits kind) (env.limiter kind).acquiresAllowed
    (duties.count (.unit kind)) (duties.count (.undo kind))
  owned : ∀ fd, duties.count (.descriptor fd) = if fd ∈ env.descriptors then 1 else 0
  asserted : env.asserted = true

namespace Accounts

variable {limits : Limited → Nat} {env : Env} {duties : Multiset Duty} {kind : Limited}
  {fd : Descriptor}

theorem initial (limits : Limited → Nat) : Accounts limits (.initial limits) 0 :=
  ⟨fun _ => rfl, fun kind => Permits.unused (limits kind), fun _ => rfl, rfl⟩

/-- A limiter changes, and the duties that have to do with it. -/
theorem setLimiter (accounts : Accounts limits env duties) {limiter : Limiter}
    {after : Multiset Duty} {asserted : Bool}
    (maxAcquires : limiter.maxAcquires = limits kind)
    (permits : Permits (limits kind) limiter.acquiresAllowed
      (after.count (.unit kind)) (after.count (.undo kind)))
    (same : ∀ duty, duty ≠ .unit kind → duty ≠ .undo kind → after.count duty = duties.count duty)
    (held : asserted = true) :
    Accounts limits
      { env with limiter := Function.update env.limiter kind limiter, asserted := asserted }
      after := by
  refine ⟨fun other => ?_, fun other => ?_, fun fd => ?_, held⟩
  · by_cases this : other = kind
    · subst this
      simpa only [Function.update_self] using maxAcquires
    · simpa only [Function.update_of_ne this] using accounts.maxAcquires other
  · by_cases this : other = kind
    · subst this
      simpa only [Function.update_self] using permits
    · have others := accounts.permits other
      rw [← same (.unit other) (by simpa using this) (by simp),
        ← same (.undo other) (by simp) (by simpa using this)] at others
      simpa only [Function.update_of_ne this] using others
  · rw [same (.descriptor fd) (by simp) (by simp), accounts.owned fd]

/-- A `fetch_sub` that finds a unit. -/
theorem take (accounts : Accounts limits env duties)
    (allows : (env.limiter kind).allows = true) :
    Accounts limits (env.fetchSub kind) (.unit kind ::ₘ duties) := by
  have free : 0 < (env.limiter kind).acquiresAllowed := of_decide_eq_true allows
  refine accounts.setLimiter (accounts.maxAcquires kind) ?_ (fun duty other _ => ?_)
    accounts.asserted
  · rw [Multiset.count_cons_self, Multiset.count_cons_of_ne (by simp)]
    exact (accounts.permits kind).take free
  · rw [Multiset.count_cons_of_ne other]

/-- A `fetch_sub` that finds none. -/
theorem attempt (accounts : Accounts limits env duties) (kind : Limited) :
    Accounts limits (env.fetchSub kind) (.undo kind ::ₘ duties) := by
  refine accounts.setLimiter (accounts.maxAcquires kind) ?_ (fun duty _ other => ?_)
    accounts.asserted
  · rw [Multiset.count_cons_self, Multiset.count_cons_of_ne (by simp)]
    exact (accounts.permits kind).attempt
  · rw [Multiset.count_cons_of_ne other]

/-- The assertion in `Acquire` and in `Release`. -/
theorem asserts (accounts : Accounts limits env duties)
    (some_ : 0 < duties.count (.unit kind) + duties.count (.undo kind)) :
    (env.asserted && (env.limiter kind).asserts) = true := by
  have below := (accounts.permits kind).below some_
  rw [accounts.asserted, Bool.true_and, Limiter.asserts, accounts.maxAcquires kind]
  exact decide_eq_true below

/-- The `fetch_add` of `Acquire`. -/
theorem undo (accounts : Accounts limits env (.undo kind ::ₘ duties)) :
    Accounts limits (env.fetchAdd kind) duties := by
  have permits := accounts.permits kind
  refine accounts.setLimiter (accounts.maxAcquires kind) ?_ (fun duty _ other => ?_)
    (accounts.asserts ?_)
  · rw [Multiset.count_cons_self, Multiset.count_cons_of_ne (by simp)] at permits
    exact permits.takeBack
  · rw [Multiset.count_cons_of_ne other]
  · rw [Multiset.count_cons_self]
    omega

/-- The `fetch_add` of `Release`. -/
theorem release (accounts : Accounts limits env (.unit kind ::ₘ duties)) :
    Accounts limits (env.fetchAdd kind) duties := by
  have permits := accounts.permits kind
  refine accounts.setLimiter (accounts.maxAcquires kind) ?_ (fun duty other _ => ?_)
    (accounts.asserts ?_)
  · rw [Multiset.count_cons_self, Multiset.count_cons_of_ne (by simp)] at permits
    exact permits.release
  · rw [Multiset.count_cons_of_ne other]
  · rw [Multiset.count_cons_self]
    omega

theorem opened (accounts : Accounts limits env duties) (fresh : fd ∉ env.descriptors) :
    Accounts limits (env.opened fd) (.descriptor fd ::ₘ duties) := by
  refine ⟨accounts.maxAcquires, fun kind => ?_, fun other => ?_, accounts.asserted⟩
  · rw [Multiset.count_cons_of_ne (by simp), Multiset.count_cons_of_ne (by simp)]
    exact accounts.permits kind
  · have before := accounts.owned other
    by_cases same : other = fd
    · subst same
      rw [if_neg fresh] at before
      rw [Multiset.count_cons_self, before, Env.opened, if_pos (Finset.mem_insert_self _ _)]
    · rw [Multiset.count_cons_of_ne (by simpa using same), before]
      simp only [Env.opened, Finset.mem_insert, same, false_or]

theorem close (accounts : Accounts limits env (.descriptor fd ::ₘ duties)) :
    Accounts limits (env.close fd) duties := by
  refine ⟨accounts.maxAcquires, fun kind => ?_, fun other => ?_, accounts.asserted⟩
  · have permits := accounts.permits kind
    rwa [Multiset.count_cons_of_ne (by simp), Multiset.count_cons_of_ne (by simp)] at permits
  · have before := accounts.owned other
    by_cases same : other = fd
    · subst same
      rw [Multiset.count_cons_self] at before
      rw [Env.close, if_neg (Finset.notMem_erase _ _)]
      split at before
      · exact Nat.succ.inj before
      · cases before
    · rw [Multiset.count_cons_of_ne (by simpa using same)] at before
      rw [before]
      simp only [Env.close, Finset.mem_erase, ne_eq, same, not_false_eq_true, true_and]

end Accounts

theorem pair_add (fd : Descriptor) (duty : Duty) (duties : Multiset Duty) :
    ({duty, .descriptor fd} : Multiset Duty) + duties = duty ::ₘ .descriptor fd ::ₘ duties := by
  rw [Multiset.insert_eq_cons, Multiset.cons_add, Multiset.singleton_add]

/-- A step of `NewRandomAccessFile` settles its duties. -/
theorem step_accounts {limits : Limited → Nat} {env after : Env} {duties : Multiset Duty}
    {filename : String} {phase : Phase} {answer : Answer} {next : After}
    (accounts : Accounts limits env (phase.duties + duties))
    (stepped : step env filename phase answer = some (after, next)) :
    Accounts limits after (next.duties + duties) := by
  cases phase with
  | opening =>
      cases answer <;> simp only [step, reduceCtorEq] at stepped
      case failed error =>
        cases stepped
        exact accounts
      case opened fd =>
        split at stepped
        · cases stepped
        · rename_i fresh
          cases stepped
          rw [Phase.duties, Multiset.zero_add] at accounts
          exact accounts.opened fresh
  | acquiringMmap fd =>
      cases answer <;> simp only [step, reduceCtorEq] at stepped
      cases stepped
      rw [Phase.duties, Multiset.singleton_add] at accounts
      split
      · rename_i allows
        exact pair_add fd _ _ ▸ accounts.take allows
      · exact pair_add fd _ _ ▸ accounts.attempt .mmap
  | undoingMmap fd =>
      cases answer <;> simp only [step, reduceCtorEq] at stepped
      cases stepped
      rw [Phase.duties, pair_add] at accounts
      exact accounts.undo
  | acquiringFd fd =>
      cases answer <;> simp only [step, reduceCtorEq] at stepped
      cases stepped
      rw [Phase.duties, Multiset.singleton_add] at accounts
      split
      · rename_i allows
        exact pair_add fd _ _ ▸ accounts.take allows
      · exact pair_add fd _ _ ▸ accounts.attempt .fd
  | undoingFd fd =>
      cases answer <;> simp only [step, reduceCtorEq] at stepped
      cases stepped
      rw [Phase.duties, pair_add] at accounts
      exact accounts.undo
  | closingTemporary fd =>
      cases answer <;> simp only [step, reduceCtorEq] at stepped
      cases stepped
      rw [Phase.duties, Multiset.singleton_add] at accounts
      show Accounts limits _ (0 + duties)
      rw [Multiset.zero_add]
      exact accounts.close
  | sizing fd =>
      cases answer <;> simp only [step, reduceCtorEq] at stepped
      all_goals
        cases stepped
        exact accounts
  | mapping fd size =>
      cases answer <;> simp only [step, reduceCtorEq] at stepped
      all_goals
        cases stepped
        exact accounts
  | closing fd mapped =>
      cases mapped <;> cases answer <;> simp only [step, reduceCtorEq] at stepped
      all_goals
        cases stepped
        rw [Phase.duties, pair_add, Multiset.cons_swap] at accounts
        exact accounts.close
  | releasing status =>
      cases answer <;> simp only [step, reduceCtorEq] at stepped
      cases stepped
      rw [Phase.duties, Multiset.singleton_add] at accounts
      show Accounts limits _ (0 + duties)
      rw [Multiset.zero_add]
      exact accounts.release

/-- A step of a destructor settles its duties. -/
theorem destroy_accounts {limits : Limited → Nat} {env : Env} {duties : Multiset Duty}
    {file : File} (accounts : Accounts limits env (file.duties + duties)) :
    Accounts limits (destroy env file).1
      (((destroy env file).2.elim 0 File.duties) + duties) := by
  cases file with
  | mmapReadable filename region => exact accounts
  | unmapped =>
      rw [File.duties, Multiset.singleton_add] at accounts
      exact (Multiset.zero_add duties).symm ▸ accounts.release
  | randomAccess filename fd =>
      cases fd with
      | none => exact accounts
      | some fd =>
          rw [File.duties, pair_add, Multiset.cons_swap] at accounts
          exact accounts.close
  | closed =>
      rw [File.duties, Multiset.singleton_add] at accounts
      exact (Multiset.zero_add duties).symm ▸ accounts.release

/-- The duties of all calls and files. -/
def State.duties (state : State) : Multiset Duty :=
  (state.calls.map fun call => call.phase.duties).sum + (state.files.map File.duties).sum

theorem sum_toList (result : Option File) (files : Multiset File) :
    ((result.toList + files : Multiset File).map File.duties).sum =
      result.elim 0 File.duties + (files.map File.duties).sum := by
  cases result with
  | none => simp
  | some file => simp

theorem Step.accounts {limits : Limited → Nat} {state after : State} (stepped : Step state after)
    (accounts : Accounts limits state.env state.duties) :
    Accounts limits after.env after.duties := by
  cases stepped with
  | call filename =>
      rw [State.duties, Multiset.map_cons, Multiset.sum_cons]
      simpa [State.duties, Phase.duties] using accounts
  | goOn calls stepped =>
      rw [State.duties, calls, Multiset.map_cons, Multiset.sum_cons, add_assoc] at accounts
      rw [State.duties, Multiset.map_cons, Multiset.sum_cons, add_assoc]
      exact step_accounts accounts stepped
  | returned calls stepped =>
      rw [State.duties, calls, Multiset.map_cons, Multiset.sum_cons, add_assoc] at accounts
      rw [State.duties, sum_toList, add_left_comm]
      exact step_accounts accounts stepped
  | destroy files =>
      rw [State.duties, files, Multiset.map_cons, Multiset.sum_cons, add_left_comm] at accounts
      rw [State.duties, sum_toList, add_left_comm]
      exact destroy_accounts accounts

theorem Reached.accounts {limits : Limited → Nat} {state : State}
    (reached : Reached limits state) : Accounts limits state.env state.duties := by
  induction reached with
  | initial => exact .initial limits
  | step reached stepped ih => exact stepped.accounts ih

/-- The files answer for a unit each that is live, and for the descriptors they own. -/
theorem count_files_unit_mmap (files : Multiset File) :
    (files.map File.duties).sum.count (.unit .mmap) =
      files.countP (fun file => file.isMmapReadable = true) := by
  apply count_sum_eq_countP
  intro file
  cases file with
  | randomAccess filename fd => cases fd <;> rfl
  | _ => rfl

theorem count_files_unit_fd (files : Multiset File) :
    (files.map File.duties).sum.count (.unit .fd) =
      files.countP (fun file => file.hasPermanentFd = true) := by
  apply count_sum_eq_countP
  intro file
  cases file with
  | randomAccess filename fd => cases fd <;> rfl
  | _ => rfl

theorem count_files_descriptor (files : Multiset File) (fd : Descriptor) :
    (files.map File.duties).sum.count (.descriptor fd) =
      files.countP (fun file => file.owns fd = true) := by
  apply count_sum_eq_countP
  intro file
  cases file with
  | randomAccess filename own =>
      cases own with
      | none => rfl
      | some own => simp [File.duties, File.owns, Multiset.count_singleton, eq_comm]
  | _ => rfl

theorem count_calls_descriptor (calls : Multiset Call) (fd : Descriptor) :
    (calls.map fun call : Call => call.phase.duties).sum.count (.descriptor fd) =
      calls.countP (fun call => call.phase.owns fd = true) := by
  apply count_sum_eq_countP
  intro call
  cases call.phase with
  | opening => rfl
  | releasing status => rfl
  | _ => simp [Phase.duties, Phase.owns, Multiset.count_singleton, eq_comm]

theorem countP_constructed_le (calls : Multiset Call) :
    calls.countP (fun call => call.phase.constructed = true) ≤
      (calls.map fun call : Call => call.phase.duties).sum.count (.unit .mmap) := by
  apply countP_le_count_sum
  intro call constructed
  cases phase : call.phase with
  | closing fd mapped => simp [Phase.duties]
  | _ => simp [phase, Phase.constructed] at constructed

/-- Only calls have something to undo, and each one thing at most. -/
theorem count_undo_le (state : State) (kind : Limited) :
    state.duties.count (.undo kind) ≤ state.calls.card := by
  have files : (state.files.map File.duties).sum.count (.undo kind) =
      state.files.countP (fun _ => False) := by
    apply count_sum_eq_countP
    intro file
    cases file with
    | randomAccess filename fd => cases fd <;> rfl
    | _ => rfl
  have calls : (state.calls.map fun call : Call => call.phase.duties).sum.count
      (.undo kind) = state.calls.countP (fun call => .undo kind ∈ call.phase.duties) := by
    apply count_sum_eq_countP
    intro call
    apply Multiset.count_eq_of_nodup
    cases call.phase <;> simp [Phase.duties]
  rw [State.duties, Multiset.count_add, files, calls, Multiset.countP_False, Nat.add_zero]
  exact Multiset.countP_le_card _ _

/-- The live files have units, and without calls in progress all that are not free. -/
theorem live_le (state : State) (kind : Limited) :
    state.live kind ≤ state.duties.count (.unit kind) := by
  rw [State.duties, Multiset.count_add, Nat.add_comm]
  cases kind with
  | mmap =>
      rw [count_files_unit_mmap]
      exact Nat.add_le_add_left (countP_constructed_le state.calls) _
  | fd =>
      rw [count_files_unit_fd]
      exact Nat.le_add_right _ _

theorem live_eq {state : State} (quiet : state.calls = 0) (kind : Limited) :
    state.live kind = state.duties.count (.unit kind) := by
  rw [State.duties, quiet, Multiset.map_zero, Multiset.sum_zero, Multiset.zero_add]
  cases kind with
  | mmap =>
      rw [count_files_unit_mmap, State.live, quiet]
      rfl
  | fd => exact (count_files_unit_fd state.files).symm

/-- However the steps of the calls and the destructors interleave, and whatever fails, no more
files are live than the limiters allow, and the assertions of the limiters hold. Every
descriptor that is open has one owner, and no other has one. Without a call in progress the
counters are what the live files leave of the limits, and only files own descriptors; in
between, a counter is too low by no more than the calls. -/
theorem reached_within_limits {limits : Limited → Nat} {state : State}
    (reached : Reached limits state) :
    (∀ kind, state.live kind ≤ limits kind) ∧
    state.env.asserted = true ∧
    (∀ fd, state.files.countP (fun file => file.owns fd = true) +
        state.calls.countP (fun call => call.phase.owns fd = true) =
      if fd ∈ state.env.descriptors then 1 else 0) ∧
    (state.calls = 0 →
      (∀ kind, (state.env.limiter kind).acquiresAllowed = limits kind - state.live kind) ∧
      ∀ fd ∈ state.env.descriptors, state.files.countP (fun file => file.owns fd = true) = 1) ∧
    ∀ kind, -(state.calls.card : Int) ≤ (state.env.limiter kind).acquiresAllowed ∧
      (state.env.limiter kind).acquiresAllowed ≤ limits kind := by
  have accounts := reached.accounts
  have owned : ∀ fd, state.files.countP (fun file => file.owns fd = true) +
      state.calls.countP (fun call => call.phase.owns fd = true) =
        if fd ∈ state.env.descriptors then 1 else 0 := by
    intro fd
    rw [← accounts.owned fd, State.duties, Multiset.count_add, count_files_descriptor,
      count_calls_descriptor, Nat.add_comm]
  refine ⟨fun kind => ?_, accounts.asserted, owned, fun quiet => ⟨fun kind => ?_, ?_⟩,
    fun kind => ⟨?_, ?_⟩⟩
  · exact Nat.le_trans (live_le state kind) (accounts.permits kind).bounded
  · have balance := (accounts.permits kind).balance
    have undo := count_undo_le state kind
    rw [quiet, Multiset.card_zero] at undo
    rw [live_eq quiet kind]
    omega
  · intro fd opened
    have := owned fd
    rwa [quiet, Multiset.countP_zero, if_pos opened] at this
  · have below := (accounts.permits kind).neg_attempts_le
    have undo := count_undo_le state kind
    omega
  · have balance := (accounts.permits kind).balance
    omega

/-- With one mapping allowed and no descriptor, a second call finds the mapping taken, opens a
file without a permanent descriptor, and both return. -/
theorem reached_within_limits_two_calls : ∃ state,
    Reached (fun kind => if kind = .mmap then 1 else 0) state ∧ state.calls = 0 ∧
      state.live .mmap = 1 ∧ (state.env.limiter .mmap).acquiresAllowed = 1 - 1 ∧
      state.env.asserted = true := by
  have called := Reached.step (@Reached.initial fun kind => if kind = .mmap then 1 else 0)
    (.call "a")
  have opened := called.step
    (@Step.goOn _ ⟨"a", .opening⟩ 0 (.opened 3) _ (.acquiringMmap 3) rfl rfl)
  have acquired := opened.step
    (@Step.goOn _ ⟨"a", .acquiringMmap 3⟩ 0 .done _ (.sizing 3) rfl rfl)
  have other := acquired.step (.call "b")
  have otherOpened := other.step
    (@Step.goOn _ ⟨"b", .opening⟩ {⟨"a", .sizing 3⟩} (.opened 4) _ (.acquiringMmap 4) rfl rfl)
  have attempted := otherOpened.step
    (@Step.goOn _ ⟨"b", .acquiringMmap 4⟩ {⟨"a", .sizing 3⟩} .done _ (.undoingMmap 4) rfl rfl)
  have undone := attempted.step
    (@Step.goOn _ ⟨"b", .undoingMmap 4⟩ {⟨"a", .sizing 3⟩} .done _ (.acquiringFd 4) rfl rfl)
  have attemptedFd := undone.step
    (@Step.goOn _ ⟨"b", .acquiringFd 4⟩ {⟨"a", .sizing 3⟩} .done _ (.undoingFd 4) rfl rfl)
  have undoneFd := attemptedFd.step
    (@Step.goOn _ ⟨"b", .undoingFd 4⟩ {⟨"a", .sizing 3⟩} .done _ (.closingTemporary 4) rfl rfl)
  have otherReturned := undoneFd.step
    (@Step.returned _ ⟨"b", .closingTemporary 4⟩ {⟨"a", .sizing 3⟩} .done _ .ok
      (some (.randomAccess "b" none)) rfl rfl)
  have sized := otherReturned.step
    (@Step.goOn _ ⟨"a", .sizing 3⟩ 0 (.sized 10) _ (.mapping 3 10) rfl rfl)
  have mapped := sized.step
    (@Step.goOn _ ⟨"a", .mapping 3 10⟩ 0 (.mapped 4096) _ (.closing 3 (.ok ⟨4096, 10⟩)) rfl rfl)
  have returned := mapped.step
    (@Step.returned _ ⟨"a", .closing 3 (.ok ⟨4096, 10⟩)⟩ 0 .done _ .ok
      (some (.mmapReadable "a" ⟨4096, 10⟩)) rfl rfl)
  obtain ⟨live, asserted, owned, quiet, bounds⟩ := reached_within_limits returned
  exact ⟨_, returned, rfl, rfl, (quiet rfl).1 .mmap, asserted⟩

end RandomAccess

end MiniLevelDb
