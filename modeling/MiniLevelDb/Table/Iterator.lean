import MiniLevelDb.Foundation.Owners

/-!
# Cleanups of iterators

`RegisterCleanup` and the destructor of `Iterator`. The first cleanup is kept in the iterator
and the later ones in nodes of a list behind it, the last one first. While a destructor calls
the functions, and during each of these calls, anything may happen to the other iterators,
and more cleanups may be registered with its own.
-/

namespace MiniLevelDb

open Foundation

namespace Iterators

/-- A call of a cleanup function. -/
structure Cleanup (Operation Argument : Type) where
  function : Operation
  arg1 : Argument
  arg2 : Argument
deriving DecidableEq, Repr

structure CleanupNode (Operation Argument : Type) where
  function : Option Operation
  arg1 : Argument
  arg2 : Argument
  next : Option Nat

variable {Name Operation Argument : Type}

namespace CleanupNode

def isEmpty (node : CleanupNode Operation Argument) : Bool := node.function.isNone

/-- `Run`: the call that it makes, where its assertion holds. -/
def run (node : CleanupNode Operation Argument) : Option (Cleanup Operation Argument) :=
  node.function.map fun function => ⟨function, node.arg1, node.arg2⟩

end CleanupNode

/-- Where an iterator is, with its `cleanup_head_`: not constructed, or not any more; alive;
or in its destructor, in the call of `cleanup_head_.Run()`, at the test of the loop, or in
the call of `node->Run()`. -/
inductive Phase (Operation Argument : Type) where
  | outside
  | alive (head : CleanupNode Operation Argument)
  | ran (head : CleanupNode Operation Argument)
  | testing (head : CleanupNode Operation Argument) (node : Option Nat)
  | visited (head : CleanupNode Operation Argument) (node : Nat)

/-- The iterators, the nodes that were allocated for them, and the calls made so far. -/
structure State (Name Operation Argument : Type) where
  phase : Name → Phase Operation Argument
  nodes : Nat → Option (CleanupNode Operation Argument)
  fresh : Nat
  calls : List (Name × Cleanup Operation Argument)

/-- `arg1` and `arg2` of the constructor are what the memory of the iterator held. -/
inductive Event (Name Operation Argument : Type) where
  | construct (name : Name) (arg1 arg2 : Argument)
  | registerCleanup (name : Name) (function : Option Operation) (arg1 arg2 : Argument)
  | destroy (name : Name)
  | goOn (name : Name)

def Event.name : Event Name Operation Argument → Name
  | construct name _ _ | registerCleanup name _ _ _ | destroy name | goOn name => name

namespace State

def initial : State Name Operation Argument := ⟨fun _ => .outside, fun _ => none, 0, []⟩

variable [DecidableEq Name]

def goto (state : State Name Operation Argument) (name : Name)
    (phase : Phase Operation Argument) : State Name Operation Argument :=
  { state with phase := Function.update state.phase name phase }

def call (state : State Name Operation Argument) (name : Name)
    (cleanup : Cleanup Operation Argument) : State Name Operation Argument :=
  { state with calls := state.calls ++ [(name, cleanup)] }

/-- `RegisterCleanup`, on an iterator that stays in its phase but for the head. -/
def registerCleanup (state : State Name Operation Argument) (name : Name)
    (phase : CleanupNode Operation Argument → Phase Operation Argument)
    (head : CleanupNode Operation Argument) (function : Operation) (arg1 arg2 : Argument) :
    State Name Operation Argument :=
  if head.isEmpty then
    state.goto name (phase { head with function := some function, arg1 := arg1, arg2 := arg2 })
  else
    let node := state.fresh
    { state.goto name (phase { head with next := some node }) with
      nodes := Function.update state.nodes node (some ⟨some function, arg1, arg2, head.next⟩)
      fresh := state.fresh + 1 }

/-- One step of one iterator; none where an assertion fails, a node is not there or the call
is not possible. -/
def step (state : State Name Operation Argument) :
    Event Name Operation Argument → Option (State Name Operation Argument)
  | .construct name arg1 arg2 =>
      match state.phase name with
      | .outside => some (state.goto name (.alive ⟨none, arg1, arg2, none⟩))
      | _ => none
  | .registerCleanup name function arg1 arg2 =>
      match state.phase name, function with
      | .alive head, some function =>
          some (state.registerCleanup name .alive head function arg1 arg2)
      | .ran head, some function =>
          some (state.registerCleanup name .ran head function arg1 arg2)
      | .testing head node, some function =>
          some (state.registerCleanup name (.testing · node) head function arg1 arg2)
      | .visited head node, some function =>
          some (state.registerCleanup name (.visited · node) head function arg1 arg2)
      | _, _ => none
  | .destroy name =>
      match state.phase name with
      | .alive head =>
          if head.isEmpty then some (state.goto name .outside)
          else do some ((state.goto name (.ran head)).call name (← head.run))
      | _ => none
  | .goOn name =>
      match state.phase name with
      | .ran head => some (state.goto name (.testing head head.next))
      | .testing _ none => some (state.goto name .outside)
      | .testing head (some node) => do
          let cell ← state.nodes node
          some ((state.goto name (.visited head node)).call name (← cell.run))
      | .visited head node => do
          let cell ← state.nodes node
          some { state.goto name (.testing head cell.next) with
            nodes := Function.update state.nodes node none }
      | _ => none

def run (state : State Name Operation Argument) :
    List (Event Name Operation Argument) → Option (State Name Operation Argument)
  | [] => some state
  | event :: later => do run (← state.step event) later

end State

/-! ## What it is for -/

/-- An iterator without its nodes: alive, or in the first call of its destructor, with the
cleanups registered so far; or in a later call or between two, with the calls it has still
to make. -/
inductive Lifetime (Operation Argument : Type) where
  | outside
  | alive (registered : List (Cleanup Operation Argument))
  | opening (first : Cleanup Operation Argument) (later : List (Cleanup Operation Argument))
  | calling (left : List (Cleanup Operation Argument))
  | between (left : List (Cleanup Operation Argument))

/-- The order in which the cleanups of one iterator are called: the first one first, and then
the others from the last on. -/
def inOrder : List (Cleanup Operation Argument) → List (Cleanup Operation Argument)
  | [] => []
  | first :: later => first :: later.reverse

/-- The calls that are still to be made. -/
def Lifetime.due : Lifetime Operation Argument → List (Cleanup Operation Argument)
  | outside => []
  | alive registered => inOrder registered
  | opening _ later => later.reverse
  | calling left | between left => left

/-- The iterators, the calls made so far, and the cleanups that were registered too late, the
latest first. -/
structure Spec (Name Operation Argument : Type) where
  lifetime : Name → Lifetime Operation Argument
  calls : List (Name × Cleanup Operation Argument)
  lost : List (Name × Cleanup Operation Argument)

namespace Spec

def initial : Spec Name Operation Argument := ⟨fun _ => .outside, [], []⟩

variable [DecidableEq Name]

def goto (spec : Spec Name Operation Argument) (name : Name)
    (lifetime : Lifetime Operation Argument) : Spec Name Operation Argument :=
  { spec with lifetime := Function.update spec.lifetime name lifetime }

def call (spec : Spec Name Operation Argument) (name : Name)
    (cleanup : Cleanup Operation Argument) : Spec Name Operation Argument :=
  { spec with calls := spec.calls ++ [(name, cleanup)] }

def lose (spec : Spec Name Operation Argument) (name : Name)
    (cleanup : Cleanup Operation Argument) : Spec Name Operation Argument :=
  { spec with lost := (name, cleanup) :: spec.lost }

/-- The loop of the destructor, with the calls it has to make. -/
def visit (spec : Spec Name Operation Argument) (name : Name) :
    List (Cleanup Operation Argument) → Spec Name Operation Argument
  | [] => spec.goto name .outside
  | first :: left => (spec.goto name (.calling left)).call name first

def step (spec : Spec Name Operation Argument) :
    Event Name Operation Argument → Option (Spec Name Operation Argument)
  | .construct name _ _ =>
      match spec.lifetime name with
      | .outside => some (spec.goto name (.alive []))
      | _ => none
  | .registerCleanup name function arg1 arg2 =>
      match spec.lifetime name, function with
      | .alive registered, some function =>
          some (spec.goto name (.alive (registered ++ [⟨function, arg1, arg2⟩])))
      | .opening first later, some function =>
          some (spec.goto name (.opening first (later ++ [⟨function, arg1, arg2⟩])))
      | .calling _, some function | .between _, some function =>
          some (spec.lose name ⟨function, arg1, arg2⟩)
      | _, _ => none
  | .destroy name =>
      match spec.lifetime name with
      | .alive [] => some (spec.goto name .outside)
      | .alive (first :: later) =>
          some ((spec.goto name (.opening first later)).call name first)
      | _ => none
  | .goOn name =>
      match spec.lifetime name with
      | .opening _ later => some (spec.goto name (.between later.reverse))
      | .calling left => some (spec.goto name (.between left))
      | .between left => some (spec.visit name left)
      | _ => none

def run (spec : Spec Name Operation Argument) :
    List (Event Name Operation Argument) → Option (Spec Name Operation Argument)
  | [] => some spec
  | event :: later => do run (← spec.step event) later

end Spec

/-- The cleanups that were registered with the iterators of one name: `past` has those that
came in time, the latest iterator first and of each one the oldest first, and `late` the
others, the latest first. The latest iterator takes them until its destructor goes on from
the first call. -/
structure Account (Operation Argument : Type) where
  past : List (List (Cleanup Operation Argument))
  late : List (Cleanup Operation Argument)
  takes : Bool

def Account.new : Account Operation Argument := ⟨[], [], false⟩

def enter [DecidableEq Name] (name : Name) (account : Account Operation Argument) :
    Event Name Operation Argument → Account Operation Argument
  | .construct other _ _ =>
      if other = name then { account with past := [] :: account.past, takes := true } else account
  | .registerCleanup other (some function) arg1 arg2 =>
      if other = name then
        if account.takes then
          { account with
            past := (account.past.headD [] ++ [⟨function, arg1, arg2⟩]) :: account.past.tail }
        else { account with late := ⟨function, arg1, arg2⟩ :: account.late }
      else account
  | .goOn other => if other = name then { account with takes := false } else account
  | _ => account

/-- What was entered for a name in the course of these events. -/
def account [DecidableEq Name] (name : Name) (events : List (Event Name Operation Argument)) :
    Account Operation Argument :=
  events.foldl (enter name) .new

/-- Those of the calls that are for the iterators of one name. -/
def callsOf [DecidableEq Name] (name : Name) (calls : List (Name × Cleanup Operation Argument)) :
    List (Cleanup Operation Argument) :=
  (calls.filter fun call => call.1 = name).map Prod.snd

/-! ## The list behind the head -/

variable {nodes nodes' : Nat → Option (CleanupNode Operation Argument)}

theorem CleanupNode.not_isEmpty_of_run {node : CleanupNode Operation Argument}
    {cleanup : Cleanup Operation Argument} (runs : node.run = some cleanup) :
    ¬ node.isEmpty = true := by
  rw [isEmpty, Option.isNone_iff_eq_none]
  intro unused
  rw [run, unused, Option.map_none] at runs
  cases runs

/-- The nodes from `pointer` on are at `addresses` and hold these cleanups. -/
inductive Pending (nodes : Nat → Option (CleanupNode Operation Argument)) :
    Option Nat → List Nat → List (Cleanup Operation Argument) → Prop
  | done : Pending nodes none [] []
  | node {address addresses cell cleanup left} (here : nodes address = some cell)
      (runs : cell.run = some cleanup) (behind : Pending nodes cell.next addresses left) :
      Pending nodes (some address) (address :: addresses) (cleanup :: left)

theorem Pending.frame {pointer : Option Nat} {addresses : List Nat}
    {left : List (Cleanup Operation Argument)} (pending : Pending nodes pointer addresses left)
    (same : ∀ address ∈ addresses, nodes' address = nodes address) :
    Pending nodes' pointer addresses left := by
  induction pending with
  | done => exact .done
  | node here runs behind ih =>
      refine .node ?_ runs (ih fun address member => same address (List.mem_cons_of_mem _ member))
      rw [same _ List.mem_cons_self, here]

/-- The iterator in memory, whose nodes are at `addresses`, is what the lifetime says. -/
inductive Agrees (nodes : Nat → Option (CleanupNode Operation Argument)) :
    Phase Operation Argument → Lifetime Operation Argument → List Nat → Prop
  | outside : Agrees nodes .outside .outside []
  | empty {head} (unused : head.function = none) (last : head.next = none) :
      Agrees nodes (.alive head) (.alive []) []
  | alive {head first later addresses} (runs : head.run = some first)
      (behind : Pending nodes head.next addresses later.reverse) :
      Agrees nodes (.alive head) (.alive (first :: later)) addresses
  | ran {head first later addresses} (runs : head.run = some first)
      (behind : Pending nodes head.next addresses later.reverse) :
      Agrees nodes (.ran head) (.opening first later) addresses
  | testing {head pointer left addresses} (used : ¬ head.isEmpty = true)
      (behind : Pending nodes pointer addresses left) :
      Agrees nodes (.testing head pointer) (.between left) addresses
  | visited {head node cell left addresses} (used : ¬ head.isEmpty = true)
      (here : nodes node = some cell) (behind : Pending nodes cell.next addresses left) :
      Agrees nodes (.visited head node) (.calling left) (node :: addresses)

theorem Agrees.frame {phase : Phase Operation Argument} {lifetime : Lifetime Operation Argument}
    {addresses : List Nat} (agrees : Agrees nodes phase lifetime addresses)
    (same : ∀ address ∈ addresses, nodes' address = nodes address) :
    Agrees nodes' phase lifetime addresses := by
  cases agrees with
  | outside => exact .outside
  | empty unused last => exact .empty unused last
  | alive runs behind => exact .alive runs (behind.frame same)
  | ran runs behind => exact .ran runs (behind.frame same)
  | testing used behind => exact .testing used (behind.frame same)
  | visited used here behind =>
      refine .visited used ?_ (behind.frame fun address member =>
        same address (List.mem_cons_of_mem _ member))
      rw [same _ List.mem_cons_self, here]

variable {state : State Name Operation Argument} {spec : Spec Name Operation Argument}
  {owned : Option Name → List Nat} {name : Name}

/-- The cleanup in a node, if it is there. -/
def held (nodes : Nat → Option (CleanupNode Operation Argument)) (address : Nat) :
    Option (Cleanup Operation Argument) :=
  (nodes address).bind CleanupNode.run

/-- Each node is one of an iterator, or that of a cleanup that is lost. -/
structure Inv (state : State Name Operation Argument) (spec : Spec Name Operation Argument)
    (owned : Option Name → List Nat) : Prop where
  divided : Divided state.nodes owned
  unused : ∀ address, state.fresh ≤ address → state.nodes address = none
  agrees : ∀ name, Agrees state.nodes (state.phase name) (spec.lifetime name) (owned (some name))
  calls : state.calls = spec.calls
  lost : (owned none).map (held state.nodes) = spec.lost.map fun entry => some entry.2

namespace Inv

theorem initial : Inv (State.initial : State Name Operation Argument) Spec.initial fun _ => [] where
  divided := ⟨fun _ => List.nodup_nil, fun member => absurd member List.not_mem_nil,
    fun _ => ⟨fun live => absurd rfl live, fun ⟨_, member⟩ => absurd member List.not_mem_nil⟩⟩
  unused := fun _ _ => rfl
  agrees := fun _ => .outside
  calls := rfl
  lost := rfl

theorem call (inv : Inv state spec owned) (cleanup : Cleanup Operation Argument) :
    Inv (state.call name cleanup) (spec.call name cleanup) owned where
  divided := inv.divided
  unused := inv.unused
  agrees := inv.agrees
  calls := by rw [State.call, Spec.call, inv.calls]
  lost := inv.lost

/-- A new node is none of those there are. -/
theorem apart (inv : Inv state spec owned) {owner : Option Name} {address : Nat}
    (member : address ∈ owned owner) : address ≠ state.fresh := by
  rintro rfl
  exact (inv.divided.live _).mpr ⟨owner, member⟩ (inv.unused _ (Nat.le_refl _))

/-- The nodes of the cleanups that are lost stay what they are. -/
theorem lost_frame (inv : Inv state spec owned)
    (same : ∀ address ∈ owned none, nodes address = state.nodes address) :
    (owned none).map (held nodes) = spec.lost.map fun entry => some entry.2 := by
  rw [← inv.lost]
  refine List.map_congr_left fun address member => ?_
  rw [held, held, same address member]

variable [DecidableEq Name]

/-- One iterator moves on, and only its own nodes change. -/
theorem change (inv : Inv state spec owned) (name : Name) {phase : Phase Operation Argument}
    {lifetime : Lifetime Operation Argument} {addresses : List Nat} {fresh : Nat}
    (divided : Divided nodes (Function.update owned (some name) addresses))
    (unused : ∀ address, fresh ≤ address → nodes address = none)
    (others : ∀ other ≠ some name, ∀ address ∈ owned other, nodes address = state.nodes address)
    (agrees : Agrees nodes phase lifetime addresses) :
    Inv { state.goto name phase with nodes := nodes, fresh := fresh } (spec.goto name lifetime)
      (Function.update owned (some name) addresses) where
  divided := divided
  unused := unused
  agrees := by
    intro other
    by_cases same : other = name
    · subst same
      simp only [State.goto, Spec.goto, Function.update_self]
      exact agrees
    · have differ : some other ≠ some name := fun equal => same (Option.some.inj equal)
      simp only [State.goto, Spec.goto, Function.update_of_ne same, Function.update_of_ne differ]
      exact (inv.agrees other).frame (others (some other) differ)
  calls := inv.calls
  lost := by
    rw [Function.update_of_ne (Option.some_ne_none name).symm]
    exact inv.lost_frame (others none (Option.some_ne_none name).symm)

/-- One iterator moves on over the same nodes. -/
theorem goto (inv : Inv state spec owned) (name : Name) {phase : Phase Operation Argument}
    {lifetime : Lifetime Operation Argument}
    (agrees : Agrees state.nodes phase lifetime (owned (some name))) :
    Inv (state.goto name phase) (spec.goto name lifetime) owned := by
  have divided : Divided state.nodes (Function.update owned (some name) (owned (some name))) := by
    rw [Function.update_eq_self]
    exact inv.divided
  have changed := inv.change name divided inv.unused (fun _ _ _ _ => rfl) agrees
  rw [Function.update_eq_self] at changed
  exact changed

variable {phase : CleanupNode Operation Argument → Phase Operation Argument}
  {lifetime : Cleanup Operation Argument → List (Cleanup Operation Argument) →
    Lifetime Operation Argument}
  {head : CleanupNode Operation Argument} {first : Cleanup Operation Argument}
  {later : List (Cleanup Operation Argument)}

/-- A cleanup is registered in a new node behind the head, and comes first after it. -/
theorem registerCleanup (inv : Inv state spec owned) (runs : head.run = some first)
    (behind : Pending state.nodes head.next (owned (some name)) later.reverse)
    (agrees : ∀ nodes head later addresses, head.run = some first →
      Pending nodes head.next addresses later.reverse →
      Agrees nodes (phase head) (lifetime first later) addresses)
    (function : Operation) (arg1 arg2 : Argument) :
    ∃ owned', Inv (state.registerCleanup name phase head function arg1 arg2)
      (spec.goto name (lifetime first (later ++ [⟨function, arg1, arg2⟩]))) owned' := by
  rw [State.registerCleanup, if_neg (CleanupNode.not_isEmpty_of_run runs)]
  refine ⟨_, inv.change name (inv.divided.cons (inv.unused _ (Nat.le_refl _)) (some name) _)
    ?_ ?_ ?_⟩
  · intro address above
    rw [Function.update_of_ne (by omega)]
    exact inv.unused address (by omega)
  · intro other _ address member
    exact Function.update_of_ne (inv.apart member) _ _
  · refine agrees _ _ _ _ runs ?_
    rw [List.reverse_append, List.reverse_singleton, List.singleton_append]
    refine .node (Function.update_self _ _ _) rfl (behind.frame fun address member => ?_)
    exact Function.update_of_ne (inv.apart member) _ _

/-- A cleanup is registered in a node that the destructor has passed. -/
theorem registerLate (inv : Inv state spec owned) (used : ¬ head.isEmpty = true)
    (agrees : ∀ nodes next, (∀ address ∈ owned (some name), nodes address = state.nodes address) →
      Agrees nodes (phase { head with next := next }) (spec.lifetime name) (owned (some name)))
    (function : Operation) (arg1 arg2 : Argument) :
    ∃ owned', Inv (state.registerCleanup name phase head function arg1 arg2)
      (spec.lose name ⟨function, arg1, arg2⟩) owned' := by
  rw [State.registerCleanup, if_neg used]
  have others : ∀ owner, ∀ address ∈ owned owner,
      Function.update state.nodes state.fresh (some ⟨some function, arg1, arg2, head.next⟩)
        address = state.nodes address :=
    fun owner address member => Function.update_of_ne (inv.apart member) _ _
  refine ⟨_, inv.divided.cons (inv.unused _ (Nat.le_refl _)) none _, ?_, ?_, inv.calls, ?_⟩
  · intro address above
    dsimp only at above ⊢
    rw [Function.update_of_ne (by omega)]
    exact inv.unused address (by omega)
  · intro other
    rw [Function.update_of_ne (Option.some_ne_none other)]
    by_cases same : other = name
    · subst same
      simp only [State.goto, Spec.lose, Function.update_self]
      exact agrees _ _ (others (some other))
    · simp only [State.goto, Spec.lose, Function.update_of_ne same]
      exact (inv.agrees other).frame (others (some other))
  · rw [Function.update_self, List.map_cons, inv.lost_frame (others none), Spec.lose, List.map_cons,
      held]
    dsimp only
    rw [Function.update_self]
    rfl

/-- The node that was called is freed, and the destructor goes to the next one. -/
theorem free (inv : Inv state spec owned) {node : Nat} {cell : CleanupNode Operation Argument}
    {left : List (Cleanup Operation Argument)} {addresses : List Nat}
    (mine : owned (some name) = node :: addresses) (used : ¬ head.isEmpty = true)
    (behind : Pending state.nodes cell.next addresses left) :
    Inv { state.goto name (.testing head cell.next) with
        nodes := Function.update state.nodes node none }
      (spec.goto name (.between left)) (Function.update owned (some name) addresses) := by
  have first : node ∈ owned (some name) := by
    rw [mine]
    exact List.mem_cons_self
  refine inv.change name (inv.divided.tail mine) ?_ ?_ (.testing used (behind.frame ?_))
  · intro address above
    by_cases same : address = node
    · rw [same, Function.update_self]
    · rw [Function.update_of_ne same]
      exact inv.unused address above
  · intro other differ address member
    refine Function.update_of_ne ?_ _ _
    rintro rfl
    exact differ (inv.divided.apart member first)
  · intro address member
    refine Function.update_of_ne ?_ _ _
    rintro rfl
    have once := inv.divided.nodup (some name)
    rw [mine, List.nodup_cons] at once
    exact once.1 member

/-- A step of the iterators in memory is possible when the step without nodes is, and they
agree afterwards. -/
theorem step (inv : Inv state spec owned) (event : Event Name Operation Argument) :
    Option.Rel (fun state spec => ∃ owned, Inv state spec owned) (state.step event)
      (spec.step event) := by
  have agrees := inv.agrees event.name
  generalize phaseIs : state.phase event.name = phase at agrees
  generalize lifetimeIs : spec.lifetime event.name = lifetime at agrees
  generalize addressesAre : owned (some event.name) = addresses at agrees
  cases event with
  | construct name arg1 arg2 =>
      simp only [State.step, Spec.step, Event.name] at *
      rw [phaseIs, lifetimeIs]
      cases agrees with
      | outside => exact .some ⟨owned, inv.goto name (addressesAre ▸ .empty rfl rfl)⟩
      | _ => exact .none
  | registerCleanup name function arg1 arg2 =>
      simp only [State.step, Spec.step, Event.name] at *
      rw [phaseIs, lifetimeIs]
      cases function with
      | none => cases agrees <;> exact .none
      | some function =>
          cases agrees with
          | outside => exact .none
          | empty unused last =>
              refine .some ⟨owned, ?_⟩
              rw [State.registerCleanup, if_pos (by rw [CleanupNode.isEmpty, unused]; rfl)]
              refine inv.goto name (addressesAre ▸ .alive rfl ?_)
              rw [last]
              exact .done
          | alive runs behind =>
              exact .some (@registerCleanup _ _ _ _ _ _ _ _ _
                (fun first later => .alive (first :: later)) _ _ _ inv runs
                (addressesAre ▸ behind) (fun _ _ _ _ => .alive) _ _ _)
          | ran runs behind =>
              exact .some (inv.registerCleanup runs (addressesAre ▸ behind)
                (fun _ _ _ _ => .ran) _ _ _)
          | @testing head pointer left addresses used behind =>
              refine .some (inv.registerLate used (fun nodes next same => ?_) _ _ _)
              rw [addressesAre] at same ⊢
              rw [lifetimeIs]
              exact .testing used (behind.frame same)
          | visited used here behind =>
              refine .some (inv.registerLate used (fun nodes next same => ?_) _ _ _)
              rw [addressesAre] at same ⊢
              rw [lifetimeIs]
              refine .visited used ((same _ List.mem_cons_self).trans here) (behind.frame ?_)
              exact fun address member => same address (List.mem_cons_of_mem _ member)
  | destroy name =>
      simp only [State.step, Spec.step, Event.name] at *
      rw [phaseIs, lifetimeIs]
      cases agrees with
      | empty unused last =>
          dsimp only
          rw [if_pos (by rw [CleanupNode.isEmpty, unused, Option.isNone_none])]
          exact .some ⟨owned, inv.goto name (addressesAre ▸ .outside)⟩
      | alive runs behind =>
          dsimp only
          rw [if_neg (CleanupNode.not_isEmpty_of_run runs), runs]
          have moved := inv.goto name (addressesAre ▸ Agrees.ran runs behind)
          exact .some ⟨owned, moved.call _⟩
      | _ => exact .none
  | goOn name =>
      simp only [State.step, Spec.step, Event.name] at *
      rw [phaseIs, lifetimeIs]
      cases agrees with
      | ran runs behind =>
          have used := CleanupNode.not_isEmpty_of_run runs
          exact .some ⟨owned, inv.goto name (addressesAre ▸ .testing used behind)⟩
      | testing used behind =>
          cases behind with
          | done => exact .some ⟨owned, inv.goto name (addressesAre ▸ .outside)⟩
          | node here runs behind =>
              dsimp only
              rw [here]
              dsimp only [Option.bind_some, bind]
              rw [runs]
              have moved := inv.goto name (addressesAre ▸ Agrees.visited used here behind)
              exact .some ⟨owned, moved.call _⟩
      | visited used here behind =>
          dsimp only
          rw [here]
          exact .some ⟨_, inv.free addressesAre used behind⟩
      | _ => exact .none

theorem run (inv : Inv state spec owned) (events : List (Event Name Operation Argument)) :
    Option.Rel (fun state spec => ∃ owned, Inv state spec owned) (state.run events)
      (spec.run events) := by
  induction events generalizing state spec owned with
  | nil => exact .some ⟨owned, inv⟩
  | cons event later ih =>
      rw [State.run, Spec.run]
      generalize state.step event = after, spec.step event = specAfter, inv.step event = related
      cases related with
      | none => exact .none
      | some moved =>
          obtain ⟨owned', inv'⟩ := moved
          exact ih inv'

end Inv

/-! ## What is called -/

/-- The account takes cleanups for the iterator at this point of its life, or none. -/
def Lifetime.Takes : Lifetime Operation Argument → Account Operation Argument → Prop
  | outside, _ => True
  | alive registered, account =>
      account.takes = true ∧ ∃ earlier, account.past = registered :: earlier
  | opening first later, account =>
      account.takes = true ∧ ∃ earlier, account.past = (first :: later) :: earlier
  | calling _, account | between _, account => account.takes = false

/-- The calls made for one name and those to be made are the cleanups that were registered in
time, and the others are lost. -/
structure Accounts (calls lost : List (Cleanup Operation Argument))
    (lifetime : Lifetime Operation Argument) (account : Account Operation Argument) : Prop where
  balance : calls ++ lifetime.due = account.past.reverse.flatMap inOrder
  late : lost = account.late
  takes : lifetime.Takes account

section

variable [DecidableEq Name] {current : Account Operation Argument}
  {next : Spec Name Operation Argument} {event : Event Name Operation Argument} {other : Name}
  {lifetime : Lifetime Operation Argument} {calls : List (Name × Cleanup Operation Argument)}

@[simp]
theorem Spec.goto_lifetime_self : (spec.goto name lifetime).lifetime name = lifetime :=
  Function.update_self _ _ _

theorem Spec.goto_lifetime_of_ne (differ : other ≠ name) :
    (spec.goto other lifetime).lifetime name = spec.lifetime name :=
  Function.update_of_ne differ.symm _ _

theorem callsOf_append_self (cleanup : Cleanup Operation Argument) :
    callsOf name (calls ++ [(name, cleanup)]) = callsOf name calls ++ [cleanup] := by
  simp [callsOf]

theorem callsOf_append_of_ne (differ : other ≠ name) (cleanup : Cleanup Operation Argument) :
    callsOf name (calls ++ [(other, cleanup)]) = callsOf name calls := by
  simp [callsOf, differ]

theorem callsOf_cons_self (cleanup : Cleanup Operation Argument) :
    callsOf name ((name, cleanup) :: calls) = cleanup :: callsOf name calls := by
  simp [callsOf]

theorem callsOf_cons_of_ne (differ : other ≠ name) (cleanup : Cleanup Operation Argument) :
    callsOf name ((other, cleanup) :: calls) = callsOf name calls := by
  simp [callsOf, differ]

/-- What a step does. -/
inductive Spec.Steps (spec : Spec Name Operation Argument) :
    Event Name Operation Argument → Spec Name Operation Argument → Prop
  | construct {name arg1 arg2} (outside : spec.lifetime name = .outside) :
      Steps spec (.construct name arg1 arg2) (spec.goto name (.alive []))
  | register {name function arg1 arg2 registered}
      (alive : spec.lifetime name = .alive registered) :
      Steps spec (.registerCleanup name (some function) arg1 arg2)
        (spec.goto name (.alive (registered ++ [⟨function, arg1, arg2⟩])))
  | registerOpening {name function arg1 arg2 first later}
      (opening : spec.lifetime name = .opening first later) :
      Steps spec (.registerCleanup name (some function) arg1 arg2)
        (spec.goto name (.opening first (later ++ [⟨function, arg1, arg2⟩])))
  | lose {name function arg1 arg2 left}
      (passed : spec.lifetime name = .calling left ∨ spec.lifetime name = .between left) :
      Steps spec (.registerCleanup name (some function) arg1 arg2)
        (spec.lose name ⟨function, arg1, arg2⟩)
  | destroyEmpty {name : Name} (alive : spec.lifetime name = .alive []) :
      Steps spec (.destroy name) (spec.goto name .outside)
  | destroy {name first later} (alive : spec.lifetime name = .alive (first :: later)) :
      Steps spec (.destroy name) ((spec.goto name (.opening first later)).call name first)
  | enterLoop {name first later} (opening : spec.lifetime name = .opening first later) :
      Steps spec (.goOn name) (spec.goto name (.between later.reverse))
  | return_ {name left} (calling : spec.lifetime name = .calling left) :
      Steps spec (.goOn name) (spec.goto name (.between left))
  | leave {name : Name} (between : spec.lifetime name = .between []) :
      Steps spec (.goOn name) (spec.goto name .outside)
  | visit {name first left} (between : spec.lifetime name = .between (first :: left)) :
      Steps spec (.goOn name) ((spec.goto name (.calling left)).call name first)

theorem Spec.steps (moved : spec.step event = some next) : spec.Steps event next := by
  cases event with
  | construct name arg1 arg2 =>
      simp only [Spec.step] at moved
      split at moved
      case h_1 outside =>
        cases moved
        exact .construct outside
      case h_2 => cases moved
  | registerCleanup name function arg1 arg2 =>
      simp only [Spec.step] at moved
      split at moved
      case h_1 registered function alive =>
        cases moved
        exact .register alive
      case h_2 first later function opening =>
        cases moved
        exact .registerOpening opening
      case h_3 left function calling =>
        cases moved
        exact .lose (.inl calling)
      case h_4 left function between =>
        cases moved
        exact .lose (.inr between)
      case h_5 => cases moved
  | destroy name =>
      simp only [Spec.step] at moved
      split at moved
      case h_1 alive =>
        cases moved
        exact .destroyEmpty alive
      case h_2 first later alive =>
        cases moved
        exact .destroy alive
      case h_3 => cases moved
  | goOn name =>
      simp only [Spec.step] at moved
      split at moved
      case h_1 first later opening =>
        cases moved
        exact .enterLoop opening
      case h_2 left calling =>
        cases moved
        exact .return_ calling
      case h_3 left between =>
        cases moved
        cases left with
        | nil => exact .leave between
        | cons first left => exact .visit between
      case h_4 => cases moved

/-- The other iterators are left alone. -/
theorem Spec.step_of_ne (moved : spec.step event = some next) (differ : event.name ≠ name) :
    next.lifetime name = spec.lifetime name ∧
      callsOf name next.calls = callsOf name spec.calls ∧
      callsOf name next.lost = callsOf name spec.lost := by
  cases steps moved with
  | construct | register | registerOpening | destroyEmpty | enterLoop | return_ | leave =>
      exact ⟨goto_lifetime_of_ne differ, rfl, rfl⟩
  | lose => exact ⟨rfl, rfl, callsOf_cons_of_ne differ _⟩
  | destroy | visit => exact ⟨goto_lifetime_of_ne differ, callsOf_append_of_ne differ _, rfl⟩

theorem enter_of_ne (differ : event.name ≠ name) : enter name current event = current := by
  cases event with
  | construct other arg1 arg2 => exact if_neg differ
  | registerCleanup other function arg1 arg2 =>
      cases function with
      | none => rfl
      | some function => exact if_neg differ
  | destroy other => rfl
  | goOn other => exact if_neg differ

end

namespace Accounts

variable [DecidableEq Name] {current : Account Operation Argument}
  {next : Spec Name Operation Argument} {event : Event Name Operation Argument}

theorem initial (name : Name) :
    Accounts (callsOf name (Spec.initial : Spec Name Operation Argument).calls)
      (callsOf name (Spec.initial : Spec Name Operation Argument).lost) .outside .new :=
  ⟨rfl, rfl, trivial⟩

/-- A cleanup is registered before the destructor begins. -/
theorem register {calls lost registered : List (Cleanup Operation Argument)}
    (accounts : Accounts calls lost (.alive registered) current)
    (cleanup : Cleanup Operation Argument) :
    Accounts calls lost (.alive (registered ++ [cleanup]))
      { current with past := (current.past.headD [] ++ [cleanup]) :: current.past.tail } := by
  obtain ⟨balance, late, open_, earlier, past⟩ := accounts
  rw [past, Lifetime.due, List.reverse_cons, List.flatMap_append, List.flatMap_singleton]
    at balance
  rw [past]
  refine ⟨?_, late, open_, _, rfl⟩
  rw [List.headD_cons, List.tail_cons, List.reverse_cons, List.flatMap_append,
    List.flatMap_singleton, ← List.append_cancel_right balance]
  rfl

/-- A cleanup is registered during the first call of the destructor. -/
theorem registerOpening {calls lost later : List (Cleanup Operation Argument)}
    {first : Cleanup Operation Argument}
    (accounts : Accounts calls lost (.opening first later) current)
    (cleanup : Cleanup Operation Argument) :
    Accounts calls lost (.opening first (later ++ [cleanup]))
      { current with past := (current.past.headD [] ++ [cleanup]) :: current.past.tail } := by
  obtain ⟨balance, late, open_, earlier, past⟩ := accounts
  rw [past, Lifetime.due, List.reverse_cons, List.flatMap_append, List.flatMap_singleton]
    at balance
  have made : calls = earlier.reverse.flatMap inOrder ++ [first] := by
    rw [inOrder, ← List.singleton_append, ← List.append_assoc] at balance
    exact List.append_cancel_right balance
  rw [past]
  refine ⟨?_, late, open_, _, rfl⟩
  rw [List.headD_cons, List.tail_cons, List.reverse_cons, List.flatMap_append,
    List.flatMap_singleton, List.cons_append, inOrder, Lifetime.due, made, List.append_assoc,
    List.singleton_append]

/-- A cleanup is registered while the destructor goes on. -/
theorem lose {calls lost left : List (Cleanup Operation Argument)}
    {lifetime : Lifetime Operation Argument} (accounts : Accounts calls lost lifetime current)
    (passed : lifetime = .calling left ∨ lifetime = .between left)
    (cleanup : Cleanup Operation Argument) :
    current.takes = false ∧ Accounts calls (cleanup :: lost) lifetime
      { current with late := cleanup :: current.late } := by
  obtain ⟨balance, late, takes⟩ := accounts
  obtain rfl | rfl := passed
  · exact ⟨takes, balance, by rw [late], takes⟩
  · exact ⟨takes, balance, by rw [late], takes⟩

theorem step (accounts : Accounts (callsOf name spec.calls) (callsOf name spec.lost)
      (spec.lifetime name) current) (moved : spec.step event = some next) :
    Accounts (callsOf name next.calls) (callsOf name next.lost) (next.lifetime name)
      (enter name current event) := by
  by_cases same : event.name = name
  · have ⟨balance, late, takes⟩ := accounts
    cases Spec.steps moved with
    | @construct other arg1 arg2 outside =>
        obtain rfl : other = name := same
        rw [outside, Lifetime.due, List.append_nil] at balance
        rw [enter, if_pos rfl, Spec.goto_lifetime_self]
        refine ⟨?_, late, rfl, _, rfl⟩
        rw [List.reverse_cons, List.flatMap_append, ← balance]
        rfl
    | @register other function arg1 arg2 registered alive =>
        obtain rfl : other = name := same
        rw [alive] at accounts
        rw [enter, if_pos rfl, if_pos accounts.takes.1, Spec.goto_lifetime_self]
        exact accounts.register ⟨function, arg1, arg2⟩
    | @registerOpening other function arg1 arg2 first later opening =>
        obtain rfl : other = name := same
        rw [opening] at accounts
        rw [enter, if_pos rfl, if_pos accounts.takes.1, Spec.goto_lifetime_self]
        exact accounts.registerOpening ⟨function, arg1, arg2⟩
    | @lose other function arg1 arg2 left passed =>
        obtain rfl : other = name := same
        obtain ⟨closed, lost⟩ := accounts.lose passed ⟨function, arg1, arg2⟩
        rw [enter, if_pos rfl, if_neg (by rw [closed]; exact Bool.false_ne_true), Spec.lose,
          callsOf_cons_self]
        exact lost
    | @destroyEmpty other alive =>
        obtain rfl : other = name := same
        rw [alive] at balance
        rw [Spec.goto_lifetime_self]
        exact ⟨balance, late, trivial⟩
    | @destroy other first later alive =>
        obtain rfl : other = name := same
        rw [alive] at balance takes
        rw [Spec.call, callsOf_append_self]
        change Accounts _ _ ((spec.goto other _).lifetime other) current
        rw [Spec.goto_lifetime_self]
        refine ⟨?_, late, takes⟩
        rw [← balance, List.append_assoc]
        rfl
    | @enterLoop other first later opening =>
        obtain rfl : other = name := same
        rw [opening] at balance
        rw [Spec.goto_lifetime_self, enter, if_pos rfl]
        exact ⟨balance, late, rfl⟩
    | @return_ other left calling =>
        obtain rfl : other = name := same
        rw [calling] at balance
        rw [Spec.goto_lifetime_self, enter, if_pos rfl]
        exact ⟨balance, late, rfl⟩
    | @leave other between =>
        obtain rfl : other = name := same
        rw [between] at balance
        rw [Spec.goto_lifetime_self, enter, if_pos rfl]
        exact ⟨balance, late, trivial⟩
    | @visit other first left between =>
        obtain rfl : other = name := same
        rw [between] at balance
        rw [enter, if_pos rfl, Spec.call, callsOf_append_self]
        change Accounts _ _ ((spec.goto other _).lifetime other) _
        rw [Spec.goto_lifetime_self]
        refine ⟨?_, late, rfl⟩
        rw [← balance, List.append_assoc]
        rfl
  · obtain ⟨lifetime, calls, lost⟩ := Spec.step_of_ne moved same
    rw [enter_of_ne same, lifetime, calls, lost]
    exact accounts

theorem run (events : List (Event Name Operation Argument))
    (accounts : Accounts (callsOf name spec.calls) (callsOf name spec.lost)
      (spec.lifetime name) current) (ran : spec.run events = some next) :
    Accounts (callsOf name next.calls) (callsOf name next.lost) (next.lifetime name)
      (events.foldl (enter name) current) := by
  induction events generalizing spec current with
  | nil =>
      cases ran
      exact accounts
  | cons event later ih =>
      obtain ⟨middle, moved, ran⟩ := Option.bind_eq_some_iff.mp ran
      exact ih (accounts.step moved) ran

end Accounts

namespace Spec

variable [DecidableEq Name] {next : Spec Name Operation Argument}
  {event : Event Name Operation Argument} {left : List (Cleanup Operation Argument)}

theorem run_cons (moved : spec.step event = some next)
    (later : List (Event Name Operation Argument)) :
    spec.run (event :: later) = next.run later := by
  rw [run, moved, Option.bind_eq_bind, Option.bind_some]

theorem step_calling (is : spec.lifetime name = .calling left) :
    spec.step (.goOn name) = some (spec.goto name (.between left)) := by
  rw [step, is]

theorem step_between (is : spec.lifetime name = .between left) :
    spec.step (.goOn name) = some (spec.visit name left) := by
  rw [step, is]

/-- A loop comes to its end. -/
theorem run_goOn (spec : Spec Name Operation Argument) (name : Name)
    (left : List (Cleanup Operation Argument)) :
    ∃ count last, (spec.visit name left).run (List.replicate count (.goOn name)) = some last ∧
      last.lifetime name = .outside := by
  induction left generalizing spec with
  | nil => exact ⟨0, _, rfl, goto_lifetime_self⟩
  | cons first left ih =>
      obtain ⟨count, last, ran, done⟩ :=
        ih ((spec.visit name (first :: left)).goto name (.between left))
      have calling : (spec.visit name (first :: left)).lifetime name = .calling left :=
        goto_lifetime_self
      refine ⟨count + 2, last, ?_, done⟩
      rw [List.replicate_succ, List.replicate_succ, run_cons (step_calling calling),
        run_cons (step_between goto_lifetime_self)]
      exact ran

/-- A destructor that is at the test of its loop comes to its end. -/
theorem run_between (is : spec.lifetime name = .between left) :
    ∃ count last, spec.run (List.replicate count (.goOn name)) = some last ∧
      last.lifetime name = .outside := by
  obtain ⟨count, last, ran, done⟩ := spec.run_goOn name left
  refine ⟨count + 1, last, ?_, done⟩
  rw [List.replicate_succ, run_cons (step_between is)]
  exact ran

/-- And so does one that is in its first call. -/
theorem run_opening {first : Cleanup Operation Argument} {later : List (Cleanup Operation Argument)}
    (is : spec.lifetime name = .opening first later) :
    ∃ count last, spec.run (List.replicate count (.goOn name)) = some last ∧
      last.lifetime name = .outside := by
  have moved : spec.step (.goOn name) = some (spec.goto name (.between later.reverse)) := by
    rw [step, is]
  have entered : (spec.goto name (.between later.reverse)).lifetime name =
      .between later.reverse := goto_lifetime_self
  obtain ⟨count, last, ran, done⟩ := run_between entered
  refine ⟨count + 1, last, ?_, done⟩
  rw [List.replicate_succ, run_cons moved]
  exact ran

/-- Every iterator can be brought to its end. -/
theorem finishes (spec : Spec Name Operation Argument) (name : Name) :
    ∃ events last, spec.run events = some last ∧ last.lifetime name = .outside ∧
      ∀ event ∈ events, event = .destroy name ∨ event = .goOn name := by
  cases is : spec.lifetime name with
  | outside => exact ⟨[], spec, rfl, is, fun _ member => absurd member List.not_mem_nil⟩
  | alive registered =>
      cases registered with
      | nil =>
          have moved : spec.step (.destroy name) = some (spec.goto name .outside) := by
            rw [step, is]
          refine ⟨[.destroy name], _, run_cons moved [], goto_lifetime_self, ?_⟩
          exact fun event member => .inl (List.mem_singleton.mp member)
      | cons first later =>
          have moved : spec.step (.destroy name) =
              some ((spec.goto name (.opening first later)).call name first) := by
            rw [step, is]
          have opened : ((spec.goto name (.opening first later)).call name first).lifetime name =
              .opening first later := goto_lifetime_self
          obtain ⟨count, last, ran, done⟩ := run_opening opened
          refine ⟨.destroy name :: List.replicate count (.goOn name), last, ?_, done, ?_⟩
          · rw [run_cons moved]
            exact ran
          · intro event member
            exact (List.mem_cons.mp member).imp_right List.eq_of_mem_replicate
  | opening first later =>
      obtain ⟨count, last, ran, done⟩ := run_opening is
      exact ⟨_, last, ran, done, fun event member => .inr (List.eq_of_mem_replicate member)⟩
  | between left =>
      obtain ⟨count, last, ran, done⟩ := run_between is
      exact ⟨_, last, ran, done, fun event member => .inr (List.eq_of_mem_replicate member)⟩
  | calling left =>
      have returned : (spec.goto name (.between left)).lifetime name = .between left :=
        goto_lifetime_self
      obtain ⟨count, last, ran, done⟩ := run_between returned
      refine ⟨List.replicate (count + 1) (.goOn name), last, ?_, done, fun event member =>
        .inr (List.eq_of_mem_replicate member)⟩
      rw [List.replicate_succ, run_cons (step_calling is)]
      exact ran

end Spec

/-! ## In memory -/

theorem Agrees.outside_iff {phase : Phase Operation Argument}
    {lifetime : Lifetime Operation Argument} {addresses : List Nat}
    (agrees : Agrees nodes phase lifetime addresses) :
    phase = .outside ↔ lifetime = .outside := by
  cases agrees with
  | outside => exact iff_of_true rfl rfl
  | _ =>
      refine iff_of_false ?_ ?_
      · intro is
        cases is
      · intro is
        cases is

/-- Nothing is kept for iterators that are not there but the cleanups that are lost. -/
theorem Inv.kept (inv : Inv state spec owned) (outside : ∀ name, state.phase name = .outside)
    (address : Nat) : state.nodes address ≠ none ↔ address ∈ owned none := by
  rw [inv.divided.live address]
  refine ⟨?_, fun member => ⟨none, member⟩⟩
  rintro ⟨owner, member⟩
  cases owner with
  | none => exact member
  | some name =>
      have agrees := inv.agrees name
      rw [outside name] at agrees
      generalize owned (some name) = addresses, spec.lifetime name = lifetime at agrees member
      cases agrees
      exact absurd member List.not_mem_nil

variable [DecidableEq Name]

/-- In whatever order iterators are constructed, get cleanups and are destroyed, also by
cleanups that are called: when the iterators of a name are destroyed, each cleanup that was
registered with one before its destructor went on from the first call was called once, the
first one first and the others from the last on, and the later ones were not called. Every
iterator can be brought there, and when all of them are, all nodes are freed but one for each
cleanup that came too late. -/
theorem cleanups_called (events : List (Event Name Operation Argument))
    (ran : State.initial.run events = some state) :
    (∀ name, state.phase name = .outside →
      callsOf name state.calls = (account name events).past.reverse.flatMap inOrder) ∧
    (∀ name, ∃ finish last, state.run finish = some last ∧ last.phase name = .outside ∧
      ∀ event ∈ finish, event = .destroy name ∨ event = .goOn name) ∧
    ((∀ name, state.phase name = .outside) →
      ∃ (lost : List (Name × Cleanup Operation Argument)) (addresses : List Nat),
      (∀ name, callsOf name lost = (account name events).late) ∧ addresses.Nodup ∧
      (∀ address, state.nodes address ≠ none ↔ address ∈ addresses) ∧
      addresses.map (held state.nodes) = lost.map fun entry => some entry.2) := by
  have related := Inv.initial.run events
  rw [ran] at related
  generalize specRan : Spec.initial.run events = after at related
  cases related with
  | @some _ spec related =>
      obtain ⟨owned, inv⟩ := related
      have accounts := fun name => (Accounts.initial name).run events specRan
      refine ⟨?_, ?_, fun outside => ⟨spec.lost, owned none, fun name => (accounts name).late,
        inv.divided.nodup none, inv.kept outside, inv.lost⟩⟩
      · intro name outside
        have balance := (accounts name).balance
        rw [(inv.agrees name).outside_iff.mp outside, Lifetime.due, List.append_nil] at balance
        rw [inv.calls, balance, account]
      · intro name
        obtain ⟨finish, last, specDone, done, only⟩ := spec.finishes name
        have related := inv.run finish
        rw [specDone] at related
        generalize stateDone : state.run finish = after at related
        cases related with
        | some related =>
            obtain ⟨owned', inv'⟩ := related
            exact ⟨finish, _, stateDone, (inv'.agrees name).outside_iff.mpr done, only⟩

/-- Three cleanups of one iterator: the first one registers another, the last one destroys
another iterator and registers one that is too late. -/
def nestedEvents : List (Event Bool Nat Nat) :=
  [.construct true 0 0, .construct false 0 0, .registerCleanup true (some 1) 10 11,
    .registerCleanup true (some 2) 20 21, .registerCleanup false (some 4) 40 41,
    .registerCleanup true (some 3) 30 31, .destroy true, .registerCleanup true (some 5) 50 51,
    .goOn true, .goOn true, .goOn true, .goOn true, .destroy false, .goOn false, .goOn false,
    .registerCleanup true (some 6) 60 61, .goOn true, .goOn true, .goOn true, .goOn true]

theorem cleanups_called_nested :
    ∃ state : State Bool Nat Nat, State.initial.run nestedEvents = some state ∧
      callsOf true state.calls = [⟨1, 10, 11⟩, ⟨5, 50, 51⟩, ⟨3, 30, 31⟩, ⟨2, 20, 21⟩] ∧
      callsOf false state.calls = [⟨4, 40, 41⟩] ∧
      ∃ (lost : List (Bool × Cleanup Nat Nat)) (addresses : List Nat),
        callsOf true lost = [⟨6, 60, 61⟩] ∧ callsOf false lost = [] ∧
        (∀ address, state.nodes address ≠ none ↔ address ∈ addresses) ∧
        addresses.map (held state.nodes) = lost.map fun entry => some entry.2 := by
  have isSome : (State.initial.run nestedEvents).isSome = true := by decide
  have outside : ∀ name, ((State.initial.run nestedEvents).get isSome).phase name = .outside := by
    intro name
    cases name <;> rfl
  have ran := (Option.some_get isSome).symm
  obtain ⟨called, -, freed⟩ := cleanups_called nestedEvents ran
  obtain ⟨lost, addresses, late, -, kept, held⟩ := freed outside
  exact ⟨_, ran, called true (outside true), called false (outside false), lost, addresses,
    late true, late false, kept, held⟩

end Iterators

end MiniLevelDb
