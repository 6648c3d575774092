import MiniLevelDb.Foundation.Mutex

/-!
# Background work

`PosixEnv::Schedule` called by any number of threads, and `BackgroundThreadMain`. A step
is one operation on the mutex, the condition variable, the flag or the queue, or the
call of a work function; a thread holds the mutex from the return of `Lock` to `Unlock`
or `Wait`. `Wait` gives the mutex up and blocks at once, and may return without a
signal. A work function that itself calls `Schedule` does what another thread could do.
-/

namespace MiniLevelDb

open Foundation

namespace BackgroundWork

variable {Work : Type}

/-- Where a thread is that calls `Schedule`: outside, or in front of the next step. -/
inductive Caller (Work : Type) where
  | outside
  | locking (work : Work)
  | starting (work : Work)
  | signalling (work : Work)
  | enqueueing (work : Work)
  | unlocking

/-- Where a thread is in `BackgroundThreadMain`. -/
inductive Background (Work : Type) where
  | locking
  | testing
  | waiting
  | woken
  | taking
  | unlocking (work : Work)
  | invoking (work : Work)
  | running

inductive Owner where
  | caller (thread : Nat)
  | background (index : Nat)
deriving DecidableEq

/-- Between `Lock` and `Unlock`. -/
def Caller.holds : Caller Work → Bool
  | .outside | .locking _ => false
  | .starting _ | .signalling _ | .enqueueing _ | .unlocking => true

def Background.holds : Background Work → Bool
  | .testing | .taking | .unlocking _ => true
  | .locking | .waiting | .woken | .invoking _ | .running => false

/-- What the thread has taken from the queue and not yet called. -/
def Background.hand : Background Work → List Work
  | .unlocking work | .invoking work => [work]
  | _ => []

/-- The threads, with the background threads in the order in which they were started, the
members of `PosixEnv`, the work items in the order in which they were enqueued, and
those whose function was called. -/
structure State (Work : Type) where
  callers : Nat → Caller Work
  backgrounds : List (Background Work)
  mutex : Option Owner
  startedBackgroundThread : Bool
  queue : List Work
  enqueued : List Work
  invoked : List Work

def initial : State Work := ⟨fun _ => .outside, [], none, false, [], [], []⟩

namespace State

def goto (state : State Work) (thread : Nat) (caller : Caller Work) : State Work :=
  { state with callers := Function.update state.callers thread caller }

def move (state : State Work) (index : Nat) (background : Background Work) : State Work :=
  { state with backgrounds := state.backgrounds.set index background }

def holds (state : State Work) : Owner → Bool
  | .caller thread => (state.callers thread).holds
  | .background index => (state.backgrounds[index]?).any Background.holds

end State

/-- One step of one thread. -/
inductive Step : State Work → State Work → Prop where
  | schedule {state : State Work} {thread : Nat} (work : Work)
      (outside : state.callers thread = .outside) :
      Step state (state.goto thread (.locking work))
  | lock {state : State Work} {thread : Nat} {work : Work}
      (at_ : state.callers thread = .locking work) (free : state.mutex = none) :
      Step state { state.goto thread (.starting work) with mutex := some (.caller thread) }
  | start {state : State Work} {thread : Nat} {work : Work}
      (at_ : state.callers thread = .starting work)
      (absent : state.startedBackgroundThread = false) :
      Step state { state.goto thread (.signalling work) with
        startedBackgroundThread := true
        backgrounds := state.backgrounds ++ [.locking] }
  | alreadyStarted {state : State Work} {thread : Nat} {work : Work}
      (at_ : state.callers thread = .starting work)
      (present : state.startedBackgroundThread = true) :
      Step state (state.goto thread (.signalling work))
  /-- `Signal` wakes one of the threads that wait. -/
  | signal {state : State Work} {thread index : Nat} {work : Work}
      (at_ : state.callers thread = .signalling work) (empty : state.queue = [])
      (waits : state.backgrounds[index]? = some .waiting) :
      Step state ((state.goto thread (.enqueueing work)).move index .woken)
  | signalNobody {state : State Work} {thread : Nat} {work : Work}
      (at_ : state.callers thread = .signalling work) (empty : state.queue = [])
      (nobody : .waiting ∉ state.backgrounds) :
      Step state (state.goto thread (.enqueueing work))
  | noSignal {state : State Work} {thread : Nat} {work : Work}
      (at_ : state.callers thread = .signalling work) (some_ : state.queue ≠ []) :
      Step state (state.goto thread (.enqueueing work))
  | enqueue {state : State Work} {thread : Nat} {work : Work}
      (at_ : state.callers thread = .enqueueing work) :
      Step state { state.goto thread .unlocking with
        queue := state.queue ++ [work]
        enqueued := state.enqueued ++ [work] }
  | unlock {state : State Work} {thread : Nat} (at_ : state.callers thread = .unlocking) :
      Step state { state.goto thread .outside with mutex := none }
  | backgroundLock {state : State Work} {index : Nat}
      (at_ : state.backgrounds[index]? = some .locking) (free : state.mutex = none) :
      Step state { state.move index .testing with mutex := some (.background index) }
  | wait {state : State Work} {index : Nat}
      (at_ : state.backgrounds[index]? = some .testing) (empty : state.queue = []) :
      Step state { state.move index .waiting with mutex := none }
  | wakeSpuriously {state : State Work} {index : Nat}
      (at_ : state.backgrounds[index]? = some .waiting) :
      Step state (state.move index .woken)
  | waitReturns {state : State Work} {index : Nat}
      (at_ : state.backgrounds[index]? = some .woken) (free : state.mutex = none) :
      Step state { state.move index .testing with mutex := some (.background index) }
  | leaveLoop {state : State Work} {index : Nat}
      (at_ : state.backgrounds[index]? = some .testing) (some_ : state.queue ≠ []) :
      Step state (state.move index .taking)
  | take {state : State Work} {index : Nat} {work : Work} {rest : List Work}
      (at_ : state.backgrounds[index]? = some .taking) (front : state.queue = work :: rest) :
      Step state { state.move index (.unlocking work) with queue := rest }
  | backgroundUnlock {state : State Work} {index : Nat} {work : Work}
      (at_ : state.backgrounds[index]? = some (.unlocking work)) :
      Step state { state.move index (.invoking work) with mutex := none }
  | invoke {state : State Work} {index : Nat} {work : Work}
      (at_ : state.backgrounds[index]? = some (.invoking work)) :
      Step state { state.move index .running with invoked := state.invoked ++ [work] }
  | finish {state : State Work} {index : Nat}
      (at_ : state.backgrounds[index]? = some .running) :
      Step state (state.move index .locking)

/-- The states of all interleavings. -/
inductive Reached : State Work → Prop where
  | initial : Reached initial
  | step {state after : State Work} (reached : Reached state) (stepped : Step state after) :
      Reached after

/-- A background thread waits only while the queue is empty and nobody is about to
enqueue, and what is enqueued but not in the queue any more was called or is in hand. -/
structure Inv (state : State Work) : Prop where
  single : (state.startedBackgroundThread = false ∧ state.backgrounds = []) ∨
    (state.startedBackgroundThread = true ∧ ∃ background, state.backgrounds = [background])
  guards : Guards state.mutex state.holds
  order : state.invoked ++ state.backgrounds.flatMap Background.hand ++ state.queue =
    state.enqueued
  signalled : .waiting ∈ state.backgrounds →
    state.queue = [] ∧ ∀ thread work, state.callers thread ≠ .enqueueing work
  taking : .taking ∈ state.backgrounds → state.queue ≠ []

section Steps

variable {state : State Work} {thread index : Nat} {before : Background Work}

theorem holds_goto (state : State Work) (thread : Nat) (caller : Caller Work) :
    (state.goto thread caller).holds =
      Function.update state.holds (.caller thread) caller.holds := by
  funext owner
  cases owner with
  | caller other =>
      by_cases same : other = thread
      · subst same
        simp only [State.holds, State.goto, Function.update_self]
      · have differ : Owner.caller other ≠ .caller thread := by simpa using same
        simp only [State.holds, State.goto, Function.update_of_ne same,
          Function.update_of_ne differ]
  | background index => rfl

theorem holds_move (at_ : state.backgrounds[index]? = some before)
    (background : Background Work) :
    (state.move index background).holds =
      Function.update state.holds (.background index) background.holds := by
  have inside : index < state.backgrounds.length := (List.getElem?_eq_some_iff.mp at_).1
  funext owner
  cases owner with
  | caller thread => rfl
  | background other =>
      by_cases same : other = index
      · subst same
        simp only [State.holds, State.move, Function.update_self, List.getElem?_set_self inside,
          Option.any_some]
      · have differ : Owner.background other ≠ .background index := by simpa using same
        simp only [State.holds, State.move, List.getElem?_set_ne (Ne.symm same),
          Function.update_of_ne differ]

theorem holds_of_background (at_ : state.backgrounds[index]? = some before) :
    state.holds (.background index) = before.holds := by
  rw [State.holds, at_, Option.any_some]

namespace Inv

/-- The only background thread. -/
theorem only (inv : Inv state) (at_ : state.backgrounds[index]? = some before) :
    index = 0 ∧ state.startedBackgroundThread = true ∧ state.backgrounds = [before] := by
  rcases inv.single with ⟨-, none_⟩ | ⟨started, background, single⟩
  · rw [none_] at at_
    cases at_
  · rw [single, List.getElem?_singleton] at at_
    split at at_
    · rename_i first
      cases at_
      exact ⟨first, started, single⟩
    · cases at_

/-- A step of a caller that leaves the queue and the background threads alone. -/
theorem goto (inv : Inv state) (caller : Caller Work) {mutex : Option Owner}
    (guards : Guards mutex (Function.update state.holds (.caller thread) caller.holds))
    (quiet : ∀ work, caller = .enqueueing work → .waiting ∉ state.backgrounds) :
    Inv { state.goto thread caller with mutex := mutex } where
  single := inv.single
  guards := (holds_goto state thread caller).symm ▸ guards
  order := inv.order
  signalled := by
    intro waits
    obtain ⟨empty, nobody⟩ := inv.signalled waits
    refine ⟨empty, fun other work => ?_⟩
    by_cases same : other = thread
    · subst same
      simp only [State.goto, Function.update_self]
      exact fun enqueues => quiet work enqueues waits
    · simp only [State.goto, Function.update_of_ne same]
      exact nobody other work
  taking := inv.taking

/-- A step of the background thread. -/
theorem move (inv : Inv state) (background : Background Work)
    (at_ : state.backgrounds[index]? = some before) {mutex : Option Owner}
    {queue invoked : List Work}
    (guards : Guards mutex (Function.update state.holds (.background index) background.holds))
    (order : invoked ++ background.hand ++ queue = state.invoked ++ before.hand ++ state.queue)
    (signalled : background = .waiting →
      queue = [] ∧ ∀ thread work, state.callers thread ≠ .enqueueing work)
    (taking : background = .taking → queue ≠ []) :
    Inv { state.move index background with
      mutex := mutex, queue := queue, invoked := invoked } := by
  obtain ⟨first, started, single⟩ := inv.only at_
  have moved : (state.move index background).backgrounds = [background] := by
    rw [State.move, single, first]
    rfl
  have ordered := inv.order
  rw [single, List.flatMap_singleton] at ordered
  refine ⟨.inr ⟨started, background, moved⟩, (holds_move at_ background).symm ▸ guards, ?_, ?_, ?_⟩
  · rw [moved, List.flatMap_singleton, order]
    exact ordered
  · rw [moved, List.mem_singleton]
    exact fun waits => signalled waits.symm
  · rw [moved, List.mem_singleton]
    exact fun takes => taking takes.symm

/-- Inside of `Schedule` the background thread does not hold the mutex. -/
theorem nobody_enqueues (inv : Inv state) (at_ : state.backgrounds[index]? = some before)
    (holds : before.holds = true) (thread : Nat) (work : Work) :
    state.callers thread ≠ .enqueueing work := by
  intro enqueues
  have inside : state.holds (.caller thread) = true := by
    rw [State.holds, enqueues]
    rfl
  have apart := inv.guards.exclusive ((holds_of_background at_).trans holds) inside
  cases apart

theorem initial : Inv (initial : State Work) where
  single := .inl ⟨rfl, rfl⟩
  guards := by
    intro owner
    cases owner <;> simp [State.holds, BackgroundWork.initial, Caller.holds]
  order := rfl
  signalled := fun waits => absurd waits List.not_mem_nil
  taking := fun takes => absurd takes List.not_mem_nil

/-- A step that neither locks nor unlocks keeps the mutex guarded. -/
theorem keeps (inv : Inv state) {caller next : Caller Work}
    (at_ : state.callers thread = caller) (same : next.holds = caller.holds) :
    Guards state.mutex (Function.update state.holds (.caller thread) next.holds) := by
  refine inv.guards.keep ?_
  rw [same, State.holds, at_]

theorem keepsBackground (inv : Inv state) {next : Background Work}
    (at_ : state.backgrounds[index]? = some before) (same : next.holds = before.holds) :
    Guards state.mutex (Function.update state.holds (.background index) next.holds) :=
  inv.guards.keep (same.trans (holds_of_background at_).symm)

/-- A thread that locks the free mutex. -/
theorem locks (inv : Inv state) (free : state.mutex = none) (owner : Owner) :
    Guards (some owner) (Function.update state.holds owner true) := by
  have guards := inv.guards
  rw [free] at guards
  exact guards.lock owner

/-- The first call of `Schedule` starts the background thread. -/
theorem start (inv : Inv state) {work : Work} (at_ : state.callers thread = .starting work)
    (absent : state.startedBackgroundThread = false) :
    Inv { state.goto thread (.signalling work) with
      startedBackgroundThread := true
      backgrounds := state.backgrounds ++ [.locking] } := by
  have moved := inv.goto (.signalling work) (inv.keeps at_ rfl) (fun _ => nofun)
  have none_ : state.backgrounds = [] := by
    rcases inv.single with ⟨-, none_⟩ | ⟨present, -⟩
    · exact none_
    · rw [absent] at present
      cases present
  have ordered := moved.order
  have guarded := moved.guards
  simp only [State.goto, none_, List.flatMap_nil] at ordered
  refine ⟨.inr ⟨rfl, .locking, by simp [none_]⟩, ?_, ?_, ?_, ?_⟩
  · have same : ∀ owner, State.holds { state.goto thread (.signalling work) with
        startedBackgroundThread := true
        backgrounds := state.backgrounds ++ [.locking] } owner =
        (state.goto thread (.signalling work)).holds owner := by
      intro owner
      cases owner with
      | caller other => rfl
      | background index =>
          simp only [State.holds, State.goto, none_, List.nil_append,
            List.getElem?_singleton, List.getElem?_nil]
          split <;> rfl
    intro owner
    rw [same owner]
    exact guarded owner
  · simp only [State.goto, none_]
    exact ordered
  · simp [none_]
  · simp [none_]

/-- `Signal` wakes the only thread that can wait. -/
theorem signal (inv : Inv state) {work : Work} (at_ : state.callers thread = .signalling work)
    (waits : state.backgrounds[index]? = some .waiting) :
    Inv ((state.goto thread (.enqueueing work)).move index .woken) := by
  have woken : Inv (state.move index .woken) :=
    inv.move .woken waits (inv.keepsBackground waits rfl) rfl nofun nofun
  obtain ⟨first, -, single⟩ := inv.only waits
  have guards : Guards state.mutex (Function.update
      (state.move index .woken).holds (.caller thread) (Caller.enqueueing work).holds) :=
    woken.keeps at_ rfl
  refine woken.goto (.enqueueing work) guards ?_
  intro _ _
  simp [State.move, single, first]

theorem enqueue (inv : Inv state) {work : Work} (at_ : state.callers thread = .enqueueing work) :
    Inv { state.goto thread .unlocking with
      queue := state.queue ++ [work]
      enqueued := state.enqueued ++ [work] } := by
  have moved := inv.goto .unlocking (inv.keeps at_ rfl) (fun _ => nofun)
  refine ⟨moved.single, moved.guards, ?_, ?_, ?_⟩
  · have ordered := moved.order
    simp only [State.goto] at ordered ⊢
    rw [← List.append_assoc, ordered]
  · intro waits
    exact absurd at_ ((inv.signalled waits).2 thread work)
  · intro _
    simp

theorem step (inv : Inv state) {after : State Work} (stepped : Step state after) : Inv after := by
  cases stepped with
  | schedule work outside => exact inv.goto _ (inv.keeps outside rfl) (fun _ => nofun)
  | lock at_ free => exact inv.goto _ (inv.locks free _) (fun _ => nofun)
  | start at_ absent => exact inv.start at_ absent
  | alreadyStarted at_ present => exact inv.goto _ (inv.keeps at_ rfl) (fun _ => nofun)
  | signal at_ empty waits => exact inv.signal at_ waits
  | signalNobody at_ empty nobody =>
      exact inv.goto _ (inv.keeps at_ rfl) (fun _ _ => nobody)
  | noSignal at_ some_ =>
      exact inv.goto _ (inv.keeps at_ rfl) (fun _ _ waits => some_ (inv.signalled waits).1)
  | enqueue at_ => exact inv.enqueue at_
  | @unlock thread at_ =>
      refine inv.goto _ (inv.guards.unlock ?_) (fun _ => nofun)
      rw [State.holds, at_]
      rfl
  | backgroundLock at_ free => exact inv.move .testing at_ (inv.locks free _) rfl nofun nofun
  | @wait index at_ empty =>
      refine inv.move .waiting at_ (inv.guards.unlock ?_) rfl (fun _ => ?_) nofun
      · exact holds_of_background at_
      · exact ⟨empty, inv.nobody_enqueues at_ rfl⟩
  | wakeSpuriously at_ =>
      exact inv.move .woken at_ (inv.keepsBackground at_ rfl) rfl nofun nofun
  | waitReturns at_ free => exact inv.move .testing at_ (inv.locks free _) rfl nofun nofun
  | leaveLoop at_ some_ =>
      exact inv.move .taking at_ (inv.keepsBackground at_ rfl) rfl nofun (fun _ => some_)
  | @take index work rest at_ front =>
      refine inv.move (.unlocking work) at_ (inv.keepsBackground at_ rfl) ?_ nofun nofun
      simp [Background.hand, front, State.move]
  | @backgroundUnlock index work at_ =>
      exact inv.move (.invoking work) at_
        (inv.guards.unlock (holds_of_background at_)) rfl nofun nofun
  | @invoke index work at_ =>
      refine inv.move .running at_ (inv.keepsBackground at_ rfl) ?_ nofun nofun
      simp [Background.hand, State.move]
  | finish at_ =>
      exact inv.move .locking at_ (inv.keepsBackground at_ rfl) rfl nofun nofun

end Inv

end Steps

theorem Reached.inv {state : State Work} (reached : Reached state) : Inv state := by
  induction reached with
  | initial => exact Inv.initial
  | step reached stepped ih => exact ih.step stepped

/-- In every interleaving at most one background thread is started, the work functions are
called in the order in which they were enqueued, each at most once, and when the mutex
is free the background thread does not wait, unsignalled, while there is work. -/
theorem reached_inOrder {state : State Work} (reached : Reached state) :
    state.backgrounds.length ≤ 1 ∧ state.invoked <+: state.enqueued ∧
      (state.mutex = none →
        ¬ (state.queue ≠ [] ∧ Background.waiting ∈ state.backgrounds)) := by
  have inv := reached.inv
  refine ⟨?_, ?_, fun _ stuck => stuck.1 (inv.signalled stuck.2).1⟩
  · rcases inv.single with ⟨-, none_⟩ | ⟨-, background, single⟩
    · simp [none_]
    · simp [single]
  · rw [← inv.order, List.append_assoc]
    exact List.prefix_append _ _

/-- One item is scheduled and called, and the background thread, done with it, sees the
mutex free with the next item in the queue. -/
theorem reached_inOrder_two : ∃ state : State Nat, Reached state ∧
    state.invoked = [7] ∧ state.enqueued = [7, 8] ∧ state.queue = [8] ∧ state.mutex = none ∧
    (state.backgrounds.length ≤ 1 ∧ state.invoked <+: state.enqueued ∧
      (state.mutex = none →
        ¬ (state.queue ≠ [] ∧ Background.waiting ∈ state.backgrounds))) := by
  have first := Reached.initial
    |>.step (@Step.schedule Nat _ 0 7 rfl) |>.step (@Step.lock Nat _ 0 7 rfl rfl)
    |>.step (@Step.start Nat _ 0 7 rfl rfl)
    |>.step (@Step.signalNobody Nat _ 0 7 rfl rfl (by simp [State.goto, initial]))
    |>.step (@Step.enqueue Nat _ 0 7 rfl) |>.step (@Step.unlock Nat _ 0 rfl)
    |>.step (@Step.backgroundLock Nat _ 0 rfl rfl)
    |>.step (@Step.leaveLoop Nat _ 0 rfl (List.cons_ne_nil 7 []))
    |>.step (@Step.take Nat _ 0 7 [] rfl rfl) |>.step (@Step.backgroundUnlock Nat _ 0 7 rfl)
    |>.step (@Step.invoke Nat _ 0 7 rfl)
  have second := first
    |>.step (@Step.schedule Nat _ 1 8 rfl) |>.step (@Step.lock Nat _ 1 8 rfl rfl)
    |>.step (@Step.alreadyStarted Nat _ 1 8 rfl rfl)
    |>.step (@Step.signalNobody Nat _ 1 8 rfl rfl (by simp [State.goto, State.move, initial]))
    |>.step (@Step.enqueue Nat _ 1 8 rfl) |>.step (@Step.unlock Nat _ 1 rfl)
  exact ⟨_, second, rfl, rfl, rfl, rfl, reached_inOrder second⟩

end BackgroundWork

end MiniLevelDb
