import MiniLevelDb.Db.SkipList
import Mathlib.Logic.Function.Basic
import Mathlib.Logic.Relation

/-!
# A skip list under one writer and any number of readers

One thread inserts, one call after another; the others search. A step of a thread is one
load or one store of `max_height_` or of a `next_` slot, together with what the thread
then does on its own up to its next load or store. The steps of the threads come in any
order, and each sees what the ones before it stored. A step that reads a slot which is
not there or was never written, or that fails an assertion, has no result.
-/

namespace MiniLevelDb

namespace SkipList

variable {Key : Type}

/-- `FindGreaterOrEqual` when it is about to load `x->Next(level)`. -/
structure Search (Key : Type) where
  key : Key
  x : NodePtr
  level : Nat
  prev : Option Prev

namespace Search

/-- The load of `max_height_` and what comes before the loop. -/
def start (list : SkipList Key) (key : Key) (prev : Option Prev) : Search Key :=
  ⟨key, headPtr, list.maxHeight - 1, prev⟩

/-- One round of the loop: where the search goes on, or what it returns. -/
def round (compare : Key → Key → Int) (list : SkipList Key) (search : Search Key) :
    Option (Search Key ⊕ (Option NodePtr × Option Prev)) := do
  let next ← list.next search.level search.x
  if ← keyIsAfterNode compare list search.key next then
    some (.inl { search with x := ← next })
  else
    let prev ← recordPrev search.level search.x search.prev
    match search.level with
    | 0 => some (.inr (next, prev))
    | level + 1 => some (.inl { search with level := level, prev := prev })

end Search

/-- A call of `Insert`, with what `RandomHeight()` answers in it. -/
structure Call (Key : Type) where
  key : Key
  height : Nat

/-- The writer: between two calls, or what it is about to load or store in one. -/
inductive Writer (Key : Type) where
  | idle
  /-- `max_height_`, for the search -/
  | entering (call : Call Key)
  /-- a slot, in the search -/
  | searching (call : Call Key) (search : Search Key)
  /-- `max_height_`, to compare the height with -/
  | measuring (call : Call Key) (prev : Prev)
  /-- `max_height_`, for the loop over the new levels -/
  | raising (call : Call Key) (prev : Prev)
  /-- the new `max_height_` -/
  | storing (call : Call Key) (prev : Prev)
  /-- `prev[level]->next_[level]` -/
  | loading (call : Call Key) (x : NodePtr) (prev : Prev) (level : Nat)
  /-- `x->next_[level]` -/
  | filling (call : Call Key) (x : NodePtr) (prev : Prev) (level : Nat)
      (successor : Option NodePtr)
  /-- `prev[level]->next_[level]`, where readers then find `x` -/
  | joining (call : Call Key) (x : NodePtr) (prev : Prev) (level : Nat)

namespace Writer

/-- `NewNode` and the way into the linking loop. -/
def allocate (list : SkipList Key) (call : Call Key) (prev : Prev) : SkipList Key × Writer Key :=
  let (x, list) := newNode list (some call.key) call.height
  (list, .loading call x prev 0)

instance (writer : Writer Key) : Decidable (writer = .idle) :=
  match writer with
  | idle => isTrue rfl
  | entering _ | searching _ _ | measuring _ _ | raising _ _ | storing _ _ | loading _ _ _ _
  | filling _ _ _ _ _ | joining _ _ _ _ => isFalse nofun

def step (compare : Key → Key → Int) (list : SkipList Key) :
    Writer Key → Option (SkipList Key × Writer Key)
  | idle => none
  | entering call =>
      some (list, .searching call
        (Search.start list call.key (some (List.replicate kMaxHeight none))))
  | searching call search => do
      match ← search.round compare list with
      | .inl search => some (list, .searching call search)
      | .inr (found, prev) =>
          let prev ← prev
          if ← equalsNode compare list call.key found then none
          else if call.height = 0 ∨ kMaxHeight < call.height then none
          else some (list, .measuring call prev)
  | measuring call prev =>
      if call.height > list.maxHeight then some (list, .raising call prev)
      else some (allocate list call prev)
  | raising call prev => do
      let prev ← raisePrev list.maxHeight call.height prev
      some (list, .storing call prev)
  | storing call prev => some (allocate { list with maxHeight := call.height } call prev)
  | loading call x prev level => do
      let before ← prev[level]?.join
      let successor ← list.next level before
      some (list, .filling call x prev level successor)
  | filling call x prev level successor => do
      let list ← list.setNext level x successor
      some (list, .joining call x prev level)
  | joining call x prev level => do
      let before ← prev[level]?.join
      let list ← list.setNext level before (some x)
      if level + 1 < call.height then some (list, .loading call x prev (level + 1))
      else some (list, .idle)

end Writer

/-- A reader: not yet searching, in a search, or done with one. -/
inductive Reader (Key : Type) where
  | idle
  | entering (target : Key)
  | searching (search : Search Key)
  | returned (target : Key) (result : Option NodePtr)

namespace Reader

def Busy : Reader Key → Prop
  | entering _ => True
  | searching _ => True
  | _ => False

instance (reader : Reader Key) : Decidable reader.Busy :=
  match reader with
  | entering _ | searching _ => isTrue trivial
  | idle | returned _ _ => isFalse id

def step (compare : Key → Key → Int) (list : SkipList Key) : Reader Key → Option (Reader Key)
  | entering target => some (.searching (Search.start list target none))
  | searching search => do
      match ← search.round compare list with
      | .inl search => some (.searching search)
      | .inr (found, _) => some (.returned search.key found)
  | _ => none

end Reader

/-- The list, the threads and the keys `Insert` was called with, the last one first. -/
structure System (Key : Type) where
  list : SkipList Key
  writer : Writer Key
  begun : List Key
  readers : Nat → Reader Key

inductive Event (Key : Type) where
  | insert (call : Call Key)
  | write
  | search (thread : Nat) (target : Key)
  | read (thread : Nat)

namespace System

def start (list : SkipList Key) : System Key := ⟨list, .idle, [], fun _ => .idle⟩

/-- The keys whose `Insert` has returned. -/
def finished (system : System Key) : List Key :=
  match system.writer with
  | .idle => system.begun
  | _ => system.begun.tail

variable (compare : Key → Key → Int)

def step (system : System Key) : Event Key → Option (System Key)
  | .insert call =>
      some { system with writer := .entering call, begun := call.key :: system.begun }
  | .write => (system.writer.step compare system.list).map fun (list, writer) =>
      { system with list := list, writer := writer }
  | .search thread target =>
      some { system with readers := Function.update system.readers thread (.entering target) }
  | .read thread => ((system.readers thread).step compare system.list).map fun reader =>
      { system with readers := Function.update system.readers thread reader }

/-- A thread that is in a call goes on with it, and one that is not may begin a call. The
keys that are inserted differ. -/
def Enabled (system : System Key) : Event Key → Prop
  | .insert call => system.writer = .idle ∧
      (∀ other ∈ system.begun, compare call.key other ≠ 0) ∧
      0 < call.height ∧ call.height ≤ kMaxHeight
  | .write => system.writer ≠ .idle
  | .search thread _ => ¬ (system.readers thread).Busy
  | .read thread => (system.readers thread).Busy

instance (system : System Key) (event : Event Key) :
    Decidable (system.Enabled compare event) :=
  match event with
  | .insert _ => inferInstanceAs (Decidable (_ ∧ _))
  | .write => inferInstanceAs (Decidable (¬ _))
  | .search _ _ => inferInstanceAs (Decidable (¬ _))
  | .read _ => inferInstanceAs (Decidable (Reader.Busy _))

/-- The threads take the steps of the events in turn. -/
def run (system : System Key) : List (Event Key) → Option (System Key)
  | [] => some system
  | event :: events =>
      if system.Enabled compare event then do run (← system.step compare event) events else none

/-- One step of one thread. -/
def Moves (before after : System Key) : Prop :=
  ∃ event, before.Enabled compare event ∧ before.step compare event = some after

/-- The states of all interleavings. -/
def Reached (system : System Key) : Prop :=
  ∃ list, new = some list ∧ Relation.ReflTransGen (Moves compare) (start list) system

variable {compare}

theorem run_moves {system later : System Key} {events : List (Event Key)}
    (ran : system.run compare events = some later) :
    Relation.ReflTransGen (Moves compare) system later := by
  induction events generalizing system with
  | nil =>
      obtain rfl := Option.some.inj ran
      exact .refl
  | cons event events ih =>
      unfold run at ran
      split at ran
      · obtain ⟨middle, stepped, ran⟩ := Option.bind_eq_some_iff.mp ran
        exact .head ⟨event, ‹_›, stepped⟩ (ih ran)
      · cases ran

end System

section Alone

variable {compare : Key → Key → Int} {list after : SkipList Key} {call : Call Key} {prev : Prev}

/-- The loop of `FindGreaterOrEqual` is its rounds, as long as nobody else writes. -/
theorem findLoop_succ (key : Key) (rounds : Nat) (x : NodePtr) (level : Nat)
    (prev : Option Prev) :
    findLoop compare list key (rounds + 1) x level prev =
      (Search.round compare list ⟨key, x, level, prev⟩).bind fun
        | .inl search => findLoop compare list search.key rounds search.x search.level search.prev
        | .inr outcome => some outcome := by
  simp only [findLoop, Search.round, Option.bind_eq_bind, Option.bind_assoc]
  refine Option.bind_congr fun next _ => Option.bind_congr fun greater _ => ?_
  cases greater with
  | true =>
      simp only [if_true, Option.bind_assoc, Option.bind_some]
  | false =>
      simp only [Bool.false_eq_true, if_false, Option.bind_assoc]
      refine Option.bind_congr fun recorded _ => ?_
      cases level <;> rfl

/-- One step of the writer, with nobody else there. -/
def Writer.Goes (compare : Key → Key → Int) (before after : SkipList Key × Writer Key) : Prop :=
  before.2.step compare before.1 = some after

theorem searching_goes {key : Key} {rounds level : Nat} {x : NodePtr} {prev : Option Prev}
    {outcome : Option NodePtr × Option Prev}
    (found : findLoop compare list key rounds x level prev = some outcome) :
    ∃ search, search.round compare list = some (.inr outcome) ∧
      Relation.ReflTransGen (Writer.Goes compare) (list, .searching call ⟨key, x, level, prev⟩)
        (list, .searching call search) := by
  induction rounds generalizing key x level prev with
  | zero => cases found
  | succ rounds ih =>
      rw [findLoop_succ] at found
      obtain ⟨rounded, once, rest⟩ := Option.bind_eq_some_iff.mp found
      cases rounded with
      | inr last =>
          obtain rfl := Option.some.inj rest
          exact ⟨_, once, .refl⟩
      | inl next =>
          obtain ⟨search, last, goes⟩ := ih rest
          refine ⟨search, last, .head ?_ goes⟩
          simp only [Writer.Goes, Writer.step, once, Option.bind_eq_bind, Option.bind_some]

/-- The three steps of a level are one round of the linking loop. -/
theorem splice_goes {x : NodePtr} {level : Nat} (spliced : splice prev x list level = some after) :
    Relation.ReflTransGen (Writer.Goes compare) (list, .loading call x prev level)
      (after, if level + 1 < call.height then .loading call x prev (level + 1) else .idle) := by
  obtain ⟨before, place, rest⟩ := Option.bind_eq_some_iff.mp spliced
  obtain ⟨successor, read, rest⟩ := Option.bind_eq_some_iff.mp rest
  obtain ⟨middle, written, joined⟩ := Option.bind_eq_some_iff.mp rest
  refine .head (?_ : Writer.Goes compare _ (list, .filling call x prev level successor))
    (.head (?_ : Writer.Goes compare _ (middle, .joining call x prev level)) (.single ?_))
  · simp only [Writer.Goes, Writer.step, place, read, Option.bind_eq_bind, Option.bind_some]
  · simp only [Writer.Goes, Writer.step, written, Option.bind_eq_bind, Option.bind_some]
  · simp only [Writer.Goes, Writer.step, place, joined, Option.bind_eq_bind, Option.bind_some]
    split <;> rfl

theorem linking_goes {x : NodePtr} {level count : Nat}
    (linked : (List.range' level (count + 1)).foldlM (splice prev x) list = some after)
    (last : level + (count + 1) = call.height) :
    Relation.ReflTransGen (Writer.Goes compare) (list, .loading call x prev level)
      (after, .idle) := by
  induction count generalizing level list with
  | zero =>
      rw [List.range'_succ, List.foldlM_cons] at linked
      obtain ⟨middle, spliced, rest⟩ := Option.bind_eq_some_iff.mp linked
      obtain rfl := Option.some.inj rest
      have goes := @splice_goes _ compare _ _ call _ _ _ spliced
      rwa [if_neg (by omega)] at goes
  | succ count ih =>
      rw [List.range'_succ, List.foldlM_cons] at linked
      obtain ⟨middle, spliced, rest⟩ := Option.bind_eq_some_iff.mp linked
      have goes := @splice_goes _ compare _ _ call _ _ _ spliced
      rw [if_pos (by omega)] at goes
      exact goes.trans (ih rest (by omega))

/-- From the comparison of the heights on. -/
theorem measuring_goes {maxHeight : Nat} (tall : 0 < call.height)
    (highest : maxHeight = if call.height > list.maxHeight then call.height else list.maxHeight)
    {ready : Prev} (raised : raisePrev list.maxHeight call.height prev = some ready)
    (linked : (List.range call.height).foldlM (splice ready list.nodes.length)
      (newNode { list with maxHeight := maxHeight } (some call.key) call.height).2 =
        some after) :
    Relation.ReflTransGen (Writer.Goes compare) (list, .measuring call prev) (after, .idle) := by
  obtain ⟨count, height⟩ := Nat.exists_eq_succ_of_ne_zero (Nat.ne_of_gt tall)
  have loop : Relation.ReflTransGen (Writer.Goes compare)
      (Writer.allocate { list with maxHeight := maxHeight } call ready) (after, .idle) := by
    apply @linking_goes _ _ _ _ _ _ _ 0 count
    · rw [← Nat.succ_eq_add_one, ← height, ← List.range_eq_range']
      exact linked
    · omega
  by_cases taller : call.height > list.maxHeight
  · rw [if_pos taller] at highest
    subst highest
    have measured : Writer.Goes compare (list, .measuring call prev)
        (list, .raising call prev) := if_pos taller
    have set_up : Writer.Goes compare (list, .raising call prev) (list, .storing call ready) := by
      simp only [Writer.Goes, Writer.step, raised, Option.bind_eq_bind, Option.bind_some]
    exact .head measured (.head set_up (.head rfl loop))
  · rw [if_neg taller] at highest
    subst highest
    rw [raisePrev, if_neg taller] at raised
    obtain rfl := Option.some.inj raised
    exact .head (if_neg taller) loop

/-- `Insert` is the steps of its writer taken one after another. -/
theorem insert_goes (inserted : insert compare list call.key call.height = some after) :
    Relation.ReflTransGen (Writer.Goes compare) (list, .entering call) (after, .idle) := by
  simp only [insert, Option.bind_eq_bind, Option.bind_eq_some_iff, Prod.exists] at inserted
  obtain ⟨found, filled, searched, prev, rfl, equal, compared, rest⟩ := inserted
  obtain ⟨search, last, goes⟩ := @searching_goes _ _ _ call _ _ _ _ _ _ searched
  refine .head rfl (goes.trans ?_)
  cases equal with
  | true => cases rest
  | false =>
      rw [if_neg Bool.false_ne_true] at rest
      by_cases allowed : call.height = 0 ∨ kMaxHeight < call.height
      · rw [if_pos allowed] at rest
        cases rest
      · rw [if_neg allowed] at rest
        have measured : Writer.Goes compare (list, .searching call search)
            (list, .measuring call prev) := by
          simp only [Writer.Goes, Writer.step, last, compared, if_neg allowed,
            Option.bind_eq_bind, Option.bind_some, Bool.false_eq_true, if_false]
        obtain ⟨ready, raised, linked⟩ := Option.bind_eq_some_iff.mp rest
        exact .head measured (measuring_goes
          (Nat.pos_of_ne_zero fun zero => allowed (.inl zero)) rfl raised linked)

end Alone

end SkipList

end MiniLevelDb
