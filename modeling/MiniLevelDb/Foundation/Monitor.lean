import MiniLevelDb.Foundation.Mutex

/-!
# Objects behind mutexes

A family of objects, each with a mutex, and threads that visit them. A call of a thread is
a sequence of visits. In a visit it holds the mutex of the object and works on the object
in steps, and the steps of the other threads come between. If a visit that runs alone does
what it is meant to do, then in every order of steps the visits do, in the order in which
they end, what they are meant to do one after the other.
-/

namespace Foundation

variable {Thread Lock Visit Answer Data Local Spec : Type}

/-- The mutex of a visit, and its steps while it holds the mutex: the last one gives the
answer. -/
structure Visits (Lock Visit Answer Data Local : Type) where
  lock : Visit → Lock
  start : Visit → Local
  next : Local → Data → Option ((Local ⊕ Answer) × Data)

namespace Visits

/-- The first steps of a visit that runs alone. -/
inductive Reaches (visits : Visits Lock Visit Answer Data Local) (first : Local) (data : Data) :
    Local → Data → Prop where
  | refl : Reaches visits first data first data
  | step {middle later : Local} {between after : Data}
      (reaches : Reaches visits first data middle between)
      (stepped : visits.next middle between = some (.inl later, after)) :
      Reaches visits first data later after

/-- All steps of a visit that runs alone. -/
inductive Finishes (visits : Visits Lock Visit Answer Data Local) (answer : Answer)
    (last : Data) : Local → Data → Prop where
  | ends {first : Local} {data : Data}
      (stepped : visits.next first data = some (.inr answer, last)) :
      Finishes visits answer last first data
  | more {first middle : Local} {data between : Data}
      (stepped : visits.next first data = some (.inl middle, between))
      (later : Finishes visits answer last middle between) :
      Finishes visits answer last first data

variable {visits : Visits Lock Visit Answer Data Local} {first middle : Local}
  {data between last : Data} {answer : Answer}

/-- A visit goes on from wherever its first steps lead. -/
theorem Reaches.goes_on (reaches : Reaches visits first data middle between)
    (finishes : visits.Finishes answer last first data) :
    visits.Finishes answer last middle between := by
  induction reaches with
  | refl => exact finishes
  | step _ stepped ih =>
      cases ih with
      | ends ended =>
          rw [stepped] at ended
          cases ended
      | more again later =>
          rw [stepped] at again
          cases again
          exact later

end Visits

/-- What the objects are for: what a visit answers and makes of its object, when it is
allowed, and which data stand for an object. -/
structure Meaning (Lock Visit Answer Data Spec : Type) where
  answer : Visit → Spec → Answer
  after : Visit → Spec → Spec
  Allows : Visit → Spec → Prop
  Refines : Lock → Spec → Data → Prop

/-- A visit that runs alone does what it is meant to do. -/
def Implements (visits : Visits Lock Visit Answer Data Local)
    (meaning : Meaning Lock Visit Answer Data Spec) : Prop :=
  ∀ visit spec data, meaning.Refines (visits.lock visit) spec data → meaning.Allows visit spec →
    ∃ last, visits.Finishes (meaning.answer visit spec) last (visits.start visit) data ∧
      meaning.Refines (visits.lock visit) (meaning.after visit spec) last

/-- Where a thread is: outside, in front of a mutex, inside of a visit, or about to unlock
the mutex; with the visits to come and those done in its call. -/
inductive Phase (Visit Answer Local : Type) where
  | idle
  | waiting (visit : Visit) (todo : List Visit) (done : List (Visit × Answer))
  | inside (visit : Visit) (todo : List Visit) (done : List (Visit × Answer)) (now : Local)
  | leaving (visit : Visit) (todo : List Visit) (done : List (Visit × Answer))

namespace Phase

/-- The visit in which the thread has the mutex. -/
def holds : Phase Visit Answer Local → Option Visit
  | .inside visit _ _ _ | .leaving visit _ _ => some visit
  | .idle | .waiting _ _ _ => none

/-- The visits that have not ended. -/
def pending : Phase Visit Answer Local → List Visit
  | .idle => []
  | .waiting visit todo _ | .inside visit todo _ _ => visit :: todo
  | .leaving _ todo _ => todo

/-- The visits of the call that have ended. -/
def done : Phase Visit Answer Local → List (Visit × Answer)
  | .idle => []
  | .waiting _ _ done | .inside _ _ done _ | .leaving _ _ done => done

end Phase

/-- The objects, their mutexes and the threads. For the reader of a run it also records
what the objects are meant to be, all visits in the order in which they ended, and the
visits of the calls that returned. -/
structure Monitor (Thread Lock Visit Answer Data Local Spec : Type) where
  data : Lock → Data
  mutex : Lock → Option Thread
  phase : Thread → Phase Visit Answer Local
  specs : Lock → Spec
  history : List (Thread × Visit × Answer)
  returned : Thread → List (Visit × Answer)

namespace Monitor

variable [DecidableEq Thread] [DecidableEq Lock]

/-- The threads are idle and the mutexes free. -/
def initial (data : Lock → Data) (specs : Lock → Spec) :
    Monitor Thread Lock Visit Answer Data Local Spec where
  data := data
  mutex := fun _ => none
  phase := fun _ => .idle
  specs := specs
  history := []
  returned := fun _ => []

/-- A thread goes to another phase. -/
def goto (system : Monitor Thread Lock Visit Answer Data Local Spec) (thread : Thread)
    (phase : Phase Visit Answer Local) : Monitor Thread Lock Visit Answer Data Local Spec :=
  { system with phase := Function.update system.phase thread phase }

/-- A thread calls. -/
def call (system : Monitor Thread Lock Visit Answer Data Local Spec) (thread : Thread)
    (visit : Visit) (todo : List Visit) : Monitor Thread Lock Visit Answer Data Local Spec :=
  system.goto thread (.waiting visit todo [])

/-- A step of a thread in its call. -/
inductive Step (visits : Visits Lock Visit Answer Data Local)
    (meaning : Meaning Lock Visit Answer Data Spec) (thread : Thread)
    (system : Monitor Thread Lock Visit Answer Data Local Spec) :
    Monitor Thread Lock Visit Answer Data Local Spec → Prop where
  | lock {visit : Visit} {todo : List Visit} {done : List (Visit × Answer)}
      (waiting : system.phase thread = .waiting visit todo done)
      (free : system.mutex (visits.lock visit) = none) :
      Step visits meaning thread system
        { system.goto thread (.inside visit todo done (visits.start visit)) with
          mutex := Function.update system.mutex (visits.lock visit) (some thread) }
  | work {visit : Visit} {todo : List Visit} {done : List (Visit × Answer)} {now later : Local}
      {after : Data} (inside : system.phase thread = .inside visit todo done now)
      (stepped : visits.next now (system.data (visits.lock visit)) = some (.inl later, after)) :
      Step visits meaning thread system
        { system.goto thread (.inside visit todo done later) with
          data := Function.update system.data (visits.lock visit) after }
  | finish {visit : Visit} {todo : List Visit} {done : List (Visit × Answer)} {now : Local}
      {answer : Answer} {after : Data} (inside : system.phase thread = .inside visit todo done now)
      (stepped : visits.next now (system.data (visits.lock visit)) = some (.inr answer, after)) :
      Step visits meaning thread system
        { system.goto thread (.leaving visit todo (done ++ [(visit, answer)])) with
          data := Function.update system.data (visits.lock visit) after
          specs := Function.update system.specs (visits.lock visit)
            (meaning.after visit (system.specs (visits.lock visit)))
          history := system.history ++ [(thread, visit, answer)] }
  | unlock {visit second : Visit} {todo : List Visit} {done : List (Visit × Answer)}
      (leaving : system.phase thread = .leaving visit (second :: todo) done) :
      Step visits meaning thread system
        { system.goto thread (.waiting second todo done) with
          mutex := Function.update system.mutex (visits.lock visit) none }
  | leave {visit : Visit} {done : List (Visit × Answer)}
      (leaving : system.phase thread = .leaving visit [] done) :
      Step visits meaning thread system
        { system.goto thread .idle with
          mutex := Function.update system.mutex (visits.lock visit) none
          returned := Function.update system.returned thread (system.returned thread ++ done) }

/-- A history in which every visit does what it is meant to do, from the objects `start` on,
and the objects after it. -/
inductive Replays (lock : Visit → Lock) (meaning : Meaning Lock Visit Answer Data Spec)
    (start : Lock → Spec) : List (Thread × Visit × Answer) → (Lock → Spec) → Prop where
  | nil : Replays lock meaning start [] start
  | snoc {history : List (Thread × Visit × Answer)} {specs : Lock → Spec}
      (replays : Replays lock meaning start history specs) (thread : Thread) (visit : Visit) :
      Replays lock meaning start
        (history ++ [(thread, visit, meaning.answer visit (specs (lock visit)))])
        (Function.update specs (lock visit) (meaning.after visit (specs (lock visit))))

/-- The thread has the mutex. -/
def holds (visits : Visits Lock Visit Answer Data Local) (lock : Lock)
    (phase : Phase Visit Answer Local) : Bool :=
  phase.holds.elim false fun visit => visits.lock visit = lock

/-- What holds of the data of an object in the middle of a visit. -/
structure Busy (visits : Visits Lock Visit Answer Data Local)
    (meaning : Meaning Lock Visit Answer Data Spec) (visit : Visit) (spec : Spec) (now : Local)
    (data first last : Data) : Prop where
  refines : meaning.Refines (visits.lock visit) spec first
  allowed : meaning.Allows visit spec
  reached : visits.Reaches (visits.start visit) first now data
  finishes : visits.Finishes (meaning.answer visit spec) last now data
  result : meaning.Refines (visits.lock visit) (meaning.after visit spec) last

/-- What holds of the objects and threads at any time. -/
structure Consistent (visits : Visits Lock Visit Answer Data Local)
    (meaning : Meaning Lock Visit Answer Data Spec) (start : Lock → Spec)
    (system : Monitor Thread Lock Visit Answer Data Local Spec) : Prop where
  guarded : ∀ lock, Guards (system.mutex lock) fun thread =>
    holds visits lock (system.phase thread)
  quiet : ∀ lock, (∀ thread visit todo done now,
    system.phase thread = .inside visit todo done now → visits.lock visit ≠ lock) →
    meaning.Refines lock (system.specs lock) (system.data lock)
  busy : ∀ thread visit todo done now, system.phase thread = .inside visit todo done now →
    ∃ first last, Busy visits meaning visit (system.specs (visits.lock visit)) now
      (system.data (visits.lock visit)) first last
  replays : Replays visits.lock meaning start system.history system.specs
  own : ∀ thread, (system.history.filter fun entry => entry.1 = thread).map Prod.snd =
    system.returned thread ++ (system.phase thread).done

variable {visits : Visits Lock Visit Answer Data Local}
  {meaning : Meaning Lock Visit Answer Data Spec} {start : Lock → Spec}
  {system after : Monitor Thread Lock Visit Answer Data Local Spec} {thread : Thread}

theorem holds_update (lock : Lock) (phase : Thread → Phase Visit Answer Local) (thread : Thread)
    (later : Phase Visit Answer Local) :
    (fun other => holds visits lock (Function.update phase thread later other)) =
      Function.update (fun other => holds visits lock (phase other)) thread
        (holds visits lock later) := by
  funext other
  by_cases same : other = thread
  · subst same
    rw [Function.update_self, Function.update_self]
  · rw [Function.update_of_ne same, Function.update_of_ne same]

namespace Consistent

/-- Two threads are not inside of visits with one mutex. -/
theorem exclusive (consistent : Consistent visits meaning start system) {other : Thread}
    {visit second : Visit} (first : (system.phase thread).holds = some visit)
    (also : (system.phase other).holds = some second)
    (same : visits.lock second = visits.lock visit) : other = thread := by
  apply (consistent.guarded (visits.lock visit)).exclusive
  · simp only [Monitor.holds, first, Option.elim_some, decide_true]
  · simp only [Monitor.holds, also, Option.elim_some, same, decide_true]

/-- While its mutex is free, nobody is inside of an object. -/
theorem refines_of_free (consistent : Consistent visits meaning start system) {lock : Lock}
    (free : system.mutex lock = none) :
    meaning.Refines lock (system.specs lock) (system.data lock) := by
  apply consistent.quiet lock
  intro thread visit todo done now inside same
  have outside := (free ▸ consistent.guarded lock).outside thread
  simp [Monitor.holds, inside, Phase.holds, same] at outside

theorem lock (consistent : Consistent visits meaning start system)
    (implements : Implements visits meaning) {visit : Visit} {todo : List Visit}
    {done : List (Visit × Answer)} (waiting : system.phase thread = .waiting visit todo done)
    (free : system.mutex (visits.lock visit) = none)
    (allowed : meaning.Allows visit (system.specs (visits.lock visit))) :
    Consistent visits meaning start
      { system.goto thread (.inside visit todo done (visits.start visit)) with
        mutex := Function.update system.mutex (visits.lock visit) (some thread) } where
  guarded := by
    intro lock
    dsimp only [goto]
    rw [holds_update]
    by_cases here : lock = visits.lock visit
    · subst here
      have guards := consistent.guarded (visits.lock visit)
      rw [free] at guards
      simpa [Monitor.holds, Phase.holds] using guards.lock thread
    · rw [Function.update_of_ne here]
      apply (consistent.guarded lock).keep
      simp [Monitor.holds, Phase.holds, waiting, Ne.symm here]
  quiet := by
    intro lock nobody
    apply consistent.quiet lock
    intro other second todo done now inside
    apply nobody other second todo done now
    dsimp only [goto]
    rw [Function.update_of_ne]
    · exact inside
    · rintro rfl
      rw [waiting] at inside
      cases inside
  busy := by
    intro other second todo done now inside
    dsimp only [goto] at inside ⊢
    by_cases here : other = thread
    · subst here
      rw [Function.update_self] at inside
      cases inside
      have refines := consistent.refines_of_free free
      obtain ⟨last, finishes, result⟩ := implements visit _ _ refines allowed
      exact ⟨_, last, refines, allowed, .refl, finishes, result⟩
    · rw [Function.update_of_ne here] at inside
      exact consistent.busy other second todo done now inside
  replays := consistent.replays
  own := by
    intro other
    dsimp only [goto]
    rw [consistent.own other]
    by_cases here : other = thread
    · subst here
      rw [Function.update_self, waiting]
      rfl
    · rw [Function.update_of_ne here]

/-- A step inside of a visit touches no mutex. -/
theorem guarded_inside (consistent : Consistent visits meaning start system) {visit : Visit}
    {todo : List Visit} {done : List (Visit × Answer)} {now : Local}
    (inside : system.phase thread = .inside visit todo done now)
    {later : Phase Visit Answer Local} (kept : later.holds = some visit) (lock : Lock) :
    Guards (system.mutex lock) fun other =>
      holds visits lock (Function.update system.phase thread later other) := by
  rw [holds_update]
  apply (consistent.guarded lock).keep
  rw [Monitor.holds, Monitor.holds, kept, inside, Phase.holds]

/-- The visits of other threads are not disturbed. -/
theorem busy_elsewhere (consistent : Consistent visits meaning start system) {visit second : Visit}
    {todo rest : List Visit} {done before : List (Visit × Answer)} {now then_ : Local}
    (inside : system.phase thread = .inside visit todo done now) {other : Thread}
    (also : system.phase other = .inside second rest before then_) (differ : other ≠ thread) :
    visits.lock second ≠ visits.lock visit := by
  intro same
  apply differ
  refine consistent.exclusive ?_ ?_ same
  · rw [inside, Phase.holds]
  · rw [also, Phase.holds]

theorem work (consistent : Consistent visits meaning start system) {visit : Visit}
    {todo : List Visit} {done : List (Visit × Answer)} {now later : Local} {data : Data}
    (inside : system.phase thread = .inside visit todo done now)
    (stepped : visits.next now (system.data (visits.lock visit)) = some (.inl later, data)) :
    Consistent visits meaning start
      { system.goto thread (.inside visit todo done later) with
        data := Function.update system.data (visits.lock visit) data } where
  guarded := consistent.guarded_inside inside rfl
  quiet := by
    intro lock nobody
    dsimp only [goto] at nobody ⊢
    have apart : lock ≠ visits.lock visit := by
      rintro rfl
      exact nobody thread visit todo done later (Function.update_self _ _ _) rfl
    rw [Function.update_of_ne apart]
    apply consistent.quiet lock
    intro other second rest before then_ also
    by_cases here : other = thread
    · subst here
      rw [inside] at also
      cases also
      exact Ne.symm apart
    · exact nobody other second rest before then_ (by rw [Function.update_of_ne here, also])
  busy := by
    intro other second rest before then_ also
    dsimp only [goto] at also ⊢
    by_cases here : other = thread
    · subst here
      rw [Function.update_self] at also
      cases also
      obtain ⟨first, last, busy⟩ := consistent.busy other _ _ _ _ inside
      refine ⟨first, last, busy.refines, busy.allowed, ?_, ?_, busy.result⟩
      · rw [Function.update_self]
        exact .step busy.reached stepped
      · rw [Function.update_self]
        exact (Visits.Reaches.step .refl stepped).goes_on busy.finishes
    · rw [Function.update_of_ne here] at also
      rw [Function.update_of_ne (consistent.busy_elsewhere inside also here)]
      exact consistent.busy other _ _ _ _ also
  replays := consistent.replays
  own := by
    intro other
    dsimp only [goto]
    rw [consistent.own other]
    by_cases here : other = thread
    · subst here
      rw [Function.update_self, inside]
      rfl
    · rw [Function.update_of_ne here]

theorem finish (consistent : Consistent visits meaning start system) {visit : Visit}
    {todo : List Visit} {done : List (Visit × Answer)} {now : Local} {answer : Answer}
    {data : Data} (inside : system.phase thread = .inside visit todo done now)
    (stepped : visits.next now (system.data (visits.lock visit)) = some (.inr answer, data)) :
    answer = meaning.answer visit (system.specs (visits.lock visit)) ∧
    Consistent visits meaning start
      { system.goto thread (.leaving visit todo (done ++ [(visit, answer)])) with
        data := Function.update system.data (visits.lock visit) data
        specs := Function.update system.specs (visits.lock visit)
          (meaning.after visit (system.specs (visits.lock visit)))
        history := system.history ++ [(thread, visit, answer)] } := by
  obtain ⟨first, last, busy⟩ := consistent.busy thread _ _ _ _ inside
  have result : answer = meaning.answer visit (system.specs (visits.lock visit)) ∧ data = last := by
    cases busy.finishes with
    | ends ended =>
        rw [stepped] at ended
        cases ended
        exact ⟨rfl, rfl⟩
    | more again later =>
        rw [stepped] at again
        cases again
  obtain ⟨rfl, rfl⟩ := result
  refine ⟨rfl, consistent.guarded_inside inside rfl, ?_, ?_,
    .snoc consistent.replays thread visit, ?_⟩
  · intro lock nobody
    dsimp only [goto] at nobody ⊢
    by_cases here : lock = visits.lock visit
    · subst here
      rw [Function.update_self, Function.update_self]
      exact busy.result
    · rw [Function.update_of_ne here, Function.update_of_ne here]
      apply consistent.quiet lock
      intro other second rest before then_ also
      by_cases same : other = thread
      · subst same
        rw [inside] at also
        cases also
        exact Ne.symm here
      · exact nobody other second rest before then_ (by rw [Function.update_of_ne same, also])
  · intro other second rest before then_ also
    dsimp only [goto] at also ⊢
    by_cases here : other = thread
    · subst here
      rw [Function.update_self] at also
      cases also
    · rw [Function.update_of_ne here] at also
      have apart := consistent.busy_elsewhere inside also here
      rw [Function.update_of_ne apart, Function.update_of_ne apart]
      exact consistent.busy other _ _ _ _ also
  · intro other
    dsimp only [goto]
    rw [List.filter_append, List.map_append, consistent.own other]
    by_cases here : other = thread
    · subst here
      rw [Function.update_self, inside]
      simp [Phase.done]
    · rw [Function.update_of_ne here]
      simp [Ne.symm here]

/-- Unlocking the mutex of a visit that has ended. -/
theorem unlocked (consistent : Consistent visits meaning start system) {visit : Visit}
    {todo : List Visit} {done : List (Visit × Answer)}
    (leaving : system.phase thread = .leaving visit todo done)
    {later : Phase Visit Answer Local} {returned : Thread → List (Visit × Answer)}
    (outside : later.holds = none)
    (same : ∀ other, returned other ++ (Function.update system.phase thread later other).done =
      system.returned other ++ (system.phase other).done) :
    Consistent visits meaning start
      { system.goto thread later with
        mutex := Function.update system.mutex (visits.lock visit) none
        returned := returned } := by
  have notInside : ∀ {other second rest before then_},
      Function.update system.phase thread later other = .inside second rest before then_ →
        other ≠ thread ∧ system.phase other = .inside second rest before then_ := by
    intro other second rest before then_ also
    by_cases here : other = thread
    · subst here
      rw [Function.update_self] at also
      rw [also] at outside
      cases outside
    · rw [Function.update_of_ne here] at also
      exact ⟨here, also⟩
  refine ⟨?_, ?_, ?_, consistent.replays, ?_⟩
  · intro lock
    dsimp only [goto]
    rw [holds_update]
    have free : Monitor.holds visits lock later = false := by rw [Monitor.holds, outside]; rfl
    rw [free]
    by_cases here : lock = visits.lock visit
    · subst here
      rw [Function.update_self]
      apply (consistent.guarded _).unlock
      simp [Monitor.holds, leaving, Phase.holds]
    · rw [Function.update_of_ne here]
      apply (consistent.guarded lock).keep
      simp [Monitor.holds, leaving, Phase.holds, Ne.symm here]
  · intro lock nobody
    apply consistent.quiet lock
    intro other second rest before then_ also
    apply nobody other second rest before then_
    dsimp only [goto]
    rw [Function.update_of_ne]
    · exact also
    · rintro rfl
      rw [leaving] at also
      cases also
  · intro other second rest before then_ also
    exact consistent.busy other _ _ _ _ (notInside also).2
  · intro other
    exact (consistent.own other).trans (same other).symm

theorem call (consistent : Consistent visits meaning start system)
    (idle : system.phase thread = .idle) (visit : Visit) (todo : List Visit) :
    Consistent visits meaning start (system.call thread visit todo) := by
  have notInside : ∀ {other second rest before then_},
      system.phase other = .inside second rest before then_ → other ≠ thread := by
    rintro other second rest before then_ also rfl
    rw [idle] at also
    cases also
  refine ⟨?_, ?_, ?_, consistent.replays, ?_⟩
  · intro lock
    dsimp only [Monitor.call, goto]
    rw [holds_update]
    apply (consistent.guarded lock).keep
    rw [idle]
    rfl
  · intro lock nobody
    apply consistent.quiet lock
    intro other second rest before then_ also
    apply nobody other second rest before then_
    dsimp only [Monitor.call, goto]
    rw [Function.update_of_ne (notInside also), also]
  · intro other second rest before then_ also
    dsimp only [Monitor.call, goto] at also ⊢
    by_cases here : other = thread
    · subst here
      rw [Function.update_self] at also
      cases also
    · rw [Function.update_of_ne here] at also
      exact consistent.busy other _ _ _ _ also
  · intro other
    dsimp only [Monitor.call, goto]
    rw [consistent.own other]
    by_cases here : other = thread
    · subst here
      rw [Function.update_self, idle]
      rfl
    · rw [Function.update_of_ne here]

/-- Every step keeps the objects and threads consistent, if a visit is allowed when its
mutex is locked. -/
theorem step (consistent : Consistent visits meaning start system)
    (implements : Implements visits meaning) (stepped : Step visits meaning thread system after)
    (allowed : ∀ visit todo done, system.phase thread = .waiting visit todo done →
      system.mutex (visits.lock visit) = none →
      meaning.Allows visit (system.specs (visits.lock visit))) :
    Consistent visits meaning start after := by
  cases stepped with
  | lock waiting free =>
      exact consistent.lock implements waiting free (allowed _ _ _ waiting free)
  | work inside worked => exact consistent.work inside worked
  | finish inside worked => exact (consistent.finish inside worked).2
  | @unlock visit second todo done leaving =>
      apply consistent.unlocked leaving rfl
      intro other
      by_cases here : other = thread
      · subst here
        rw [Function.update_self, leaving]
        rfl
      · rw [Function.update_of_ne here]
        rfl
  | @leave visit done leaving =>
      apply consistent.unlocked leaving rfl
      intro other
      by_cases here : other = thread
      · subst here
        rw [Function.update_self, Function.update_self, leaving]
        exact List.append_nil _
      · rw [Function.update_of_ne here, Function.update_of_ne here]

/-- A thread that is not idle can step, or waits for one that can. -/
theorem progress (consistent : Consistent visits meaning start system)
    (busy : system.phase thread ≠ .idle) :
    ∃ other later, Step visits meaning other system later := by
  have holder : ∀ {other visit}, (system.phase other).holds = some visit →
      ∃ later, Step visits meaning other system later := by
    intro other visit held
    cases phase : system.phase other with
    | idle | waiting =>
        rw [phase] at held
        cases held
    | inside second todo done now =>
        obtain ⟨first, last, working⟩ := consistent.busy other _ _ _ _ phase
        cases working.finishes with
        | ends stepped => exact ⟨_, .finish phase stepped⟩
        | more stepped _ => exact ⟨_, .work phase stepped⟩
    | leaving second todo done =>
        cases todo with
        | nil => exact ⟨_, .leave phase⟩
        | cons next todo => exact ⟨_, .unlock phase⟩
  cases phase : system.phase thread with
  | idle => exact absurd phase busy
  | inside visit todo done now => exact ⟨thread, holder (by rw [phase, Phase.holds])⟩
  | leaving visit todo done => exact ⟨thread, holder (by rw [phase, Phase.holds])⟩
  | waiting visit todo done =>
      cases mutex : system.mutex (visits.lock visit) with
      | none => exact ⟨thread, _, .lock phase mutex⟩
      | some other =>
          have held := (consistent.guarded (visits.lock visit) other).mpr mutex
          cases inside : (system.phase other).holds with
          | none => simp [Monitor.holds, inside] at held
          | some second => exact ⟨other, holder inside⟩

end Consistent

/-- At the start. -/
theorem initial_consistent {data : Lock → Data}
    (refines : ∀ lock, meaning.Refines lock (start lock) (data lock)) :
    Consistent visits meaning start
      (initial data start : Monitor Thread Lock Visit Answer Data Local Spec) where
  guarded := by
    intro lock thread
    simp [Monitor.holds, initial, Phase.holds]
  quiet := fun lock _ => refines lock
  busy := by
    intro thread visit todo done now inside
    cases inside
  replays := .nil
  own := fun _ => rfl

/-- What threads reach that call as they like. -/
inductive Reached (visits : Visits Lock Visit Answer Data Local)
    (meaning : Meaning Lock Visit Answer Data Spec) (data : Lock → Data) (start : Lock → Spec) :
    Monitor Thread Lock Visit Answer Data Local Spec → Prop where
  | initial : Reached visits meaning data start (.initial data start)
  | call {system : Monitor Thread Lock Visit Answer Data Local Spec} {thread : Thread}
      (reached : Reached visits meaning data start system)
      (idle : system.phase thread = .idle) (visit : Visit) (todo : List Visit) :
      Reached visits meaning data start (system.call thread visit todo)
  | step {system after : Monitor Thread Lock Visit Answer Data Local Spec} {thread : Thread}
      (reached : Reached visits meaning data start system)
      (stepped : Step visits meaning thread system after) :
      Reached visits meaning data start after

theorem Reached.consistent {data : Lock → Data} (implements : Implements visits meaning)
    (refines : ∀ lock, meaning.Refines lock (start lock) (data lock))
    (always : ∀ visit spec, meaning.Allows visit spec)
    (reached : Reached visits meaning data start system) :
    Consistent visits meaning start system := by
  induction reached with
  | initial => exact initial_consistent refines
  | call _ idle visit todo ih => exact ih.call idle visit todo
  | step _ stepped ih => exact ih.step implements stepped fun _ _ _ _ _ => always _ _

end Monitor

end Foundation
