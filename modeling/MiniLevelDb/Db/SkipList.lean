import Mathlib.Data.List.Basic

/-!
# The skip list

The nodes live in memory the arena hands out, one after another; a node pointer is
the place of its node there, and `head_` is the first. A node has one `next_` slot
per level of its height and the slots are not initialised, so a slot is unwritten,
null or a pointer. An operation that reads a slot a node does not have or that
nobody wrote, looks at the key of `head_`, fails an assertion or runs out of the
steps its loop is allowed has no result.
-/

namespace MiniLevelDb

/-- A `Node*` other than `nullptr`. -/
abbrev NodePtr := Nat

/-- A node. Only `head_` has no key, the source gives it `0`. -/
structure Node (Key : Type) where
  key : Option Key
  next : List (Option (Option NodePtr))
deriving Repr, DecidableEq

structure SkipList (Key : Type) where
  nodes : List (Node Key)
  maxHeight : Nat
deriving Repr, DecidableEq

/-- The `Node* prev[kMaxHeight]` of an insertion, `none` where it is not yet written. -/
abbrev Prev := List (Option NodePtr)

namespace SkipList

variable {Key : Type}

def kMaxHeight : Nat := 12

def headPtr : NodePtr := 0

/-- The number of `next_` slots the node was allocated with. -/
def height (list : SkipList Key) (node : NodePtr) : Nat :=
  (list.nodes[node]?.map fun cell => cell.next.length).getD 0

/-- `node->key`. -/
def key (list : SkipList Key) (node : NodePtr) : Option Key :=
  list.nodes[node]?.bind Node.key

/-- `node->Next(level)`. -/
def next (list : SkipList Key) (level : Nat) (node : NodePtr) : Option (Option NodePtr) :=
  list.nodes[node]?.bind fun cell => cell.next[level]?.join

/-- `node->SetNext(level, target)`. -/
def setNext (list : SkipList Key) (level : Nat) (node : NodePtr) (target : Option NodePtr) :
    Option (SkipList Key) :=
  match list.nodes[node]? with
  | none => none
  | some cell =>
      if level < cell.next.length then
        some { list with
          nodes := list.nodes.set node { cell with next := cell.next.set level (some target) } }
      else none

/-- `NewNode`: the new node and the list with it allocated. -/
def newNode (list : SkipList Key) (key : Option Key) (height : Nat) : NodePtr × SkipList Key :=
  (list.nodes.length, { list with nodes := list.nodes ++ [⟨key, List.replicate height none⟩] })

/-- The constructor. -/
def new : Option (SkipList Key) :=
  let (head, list) := newNode ⟨[], 1⟩ none kMaxHeight
  (List.range kMaxHeight).foldlM (fun list level => list.setNext level head none) list

section Operations

variable (compare : Key → Key → Int)

def keyIsAfterNode (list : SkipList Key) (key : Key) : Option NodePtr → Option Bool
  | none => some false
  | some node => (list.key node).map fun stored => decide (compare stored key < 0)

/-- `x != nullptr && Equal(key, x->key)`. -/
def equalsNode (list : SkipList Key) (key : Key) : Option NodePtr → Option Bool
  | none => some false
  | some node => (list.key node).map fun stored => decide (compare key stored = 0)

/-- `prev[level] = x` where the array is there. -/
def recordPrev (level : Nat) (node : NodePtr) : Option Prev → Option (Option Prev)
  | none => some none
  | some prev => if level < prev.length then some (some (prev.set level (some node))) else none

/-- The loop of `FindGreaterOrEqual` from node `x` on, for a number of rounds. -/
def findLoop (list : SkipList Key) (key : Key) :
    Nat → NodePtr → Nat → Option Prev → Option (Option NodePtr × Option Prev)
  | 0, _, _, _ => none
  | rounds + 1, x, level, prev => do
      let next ← list.next level x
      if ← keyIsAfterNode compare list key next then
        findLoop list key rounds (← next) level prev
      else
        let prev ← recordPrev level x prev
        match level with
        | 0 => some (next, prev)
        | level + 1 => findLoop list key rounds x level prev

/-- `FindGreaterOrEqual`. The loop passes a node at most once and a level once. -/
def findGreaterOrEqual (list : SkipList Key) (key : Key) (prev : Option Prev) :
    Option (Option NodePtr × Option Prev) :=
  findLoop compare list key (list.nodes.length + list.maxHeight) headPtr (list.maxHeight - 1) prev

/-- The levels a taller node adds above the current maximum start at `head_`. -/
def raisePrev (maxHeight height : Nat) (prev : Prev) : Option Prev :=
  if height > maxHeight then
    (List.range' maxHeight (height - maxHeight)).foldlM
      (fun prev level =>
        if level < prev.length then some (prev.set level (some headPtr)) else none) prev
  else some prev

/-- One round of the last loop of `Insert`: node `x` goes behind `prev[level]`. -/
def splice (prev : Prev) (x : NodePtr) (list : SkipList Key) (level : Nat) :
    Option (SkipList Key) := do
  let before ← prev[level]?.join
  let successor ← list.next level before
  let list ← list.setNext level x successor
  list.setNext level before (some x)

/-- `Insert` when `RandomHeight()` answers `height`. -/
def insert (list : SkipList Key) (key : Key) (height : Nat) : Option (SkipList Key) := do
  let (found, prev) ←
    findGreaterOrEqual compare list key (some (List.replicate kMaxHeight none))
  let prev ← prev
  if ← equalsNode compare list key found then none
  else if height = 0 ∨ kMaxHeight < height then none
  else
    let prev ← raisePrev list.maxHeight height prev
    let maxHeight := if height > list.maxHeight then height else list.maxHeight
    let (x, list) := newNode { list with maxHeight := maxHeight } (some key) height
    (List.range height).foldlM (splice prev x) list

/-- `Contains`. -/
def contains (list : SkipList Key) (key : Key) : Option Bool := do
  let (found, _) ← findGreaterOrEqual compare list key none
  equalsNode compare list key found

/-- Any number of insertions, each a key and the height its node gets. -/
def insertAll (calls : List (Key × Nat)) : Option (SkipList Key) := do
  let list ← new
  calls.foldlM (fun list call => insert compare list call.1 call.2) list

end Operations

/-- What no write to a slot changes. -/
structure SameShape (list after : SkipList Key) : Prop where
  key : after.key = list.key
  height : after.height = list.height
  size : after.nodes.length = list.nodes.length
  maxHeight : after.maxHeight = list.maxHeight

theorem SameShape.refl (list : SkipList Key) : SameShape list list := ⟨rfl, rfl, rfl, rfl⟩

theorem SameShape.trans {list middle after : SkipList Key} (first : SameShape list middle)
    (second : SameShape middle after) : SameShape list after where
  key := second.key.trans first.key
  height := second.height.trans first.height
  size := second.size.trans first.size
  maxHeight := second.maxHeight.trans first.maxHeight

theorem lt_size_of_lt_height {list : SkipList Key} {level : Nat} {node : NodePtr}
    (within : level < list.height node) : node < list.nodes.length := by
  by_contra outside
  simp [height, List.getElem?_eq_none (Nat.le_of_not_lt outside)] at within

theorem lt_height_of_next {list : SkipList Key} {level : Nat} {node : NodePtr}
    {target : Option NodePtr} (read : list.next level node = some target) :
    level < list.height node := by
  unfold next at read
  unfold height
  cases found : list.nodes[node]? with
  | none => simp [found] at read
  | some cell =>
      by_contra outside
      simp only [Option.map_some, Option.getD_some, Nat.not_lt] at outside
      simp [found, List.getElem?_eq_none outside] at read

/-- A write inside a tower succeeds and changes the one slot. -/
theorem setNext_spec {list : SkipList Key} {level : Nat} {node : NodePtr}
    (within : level < list.height node) (target : Option NodePtr) :
    ∃ after, list.setNext level node target = some after ∧ SameShape list after ∧
      ∀ otherLevel other, after.next otherLevel other =
        if otherLevel = level ∧ other = node then some target
        else list.next otherLevel other := by
  have inside := lt_size_of_lt_height within
  have found : list.nodes[node]? = some list.nodes[node] := List.getElem?_eq_getElem inside
  generalize list.nodes[node] = cell at found
  have slot : level < cell.next.length := by simpa [height, found] using within
  have written : list.setNext level node target = some { list with
      nodes := list.nodes.set node { cell with next := cell.next.set level (some target) } } := by
    simp only [setNext, found]
    rw [if_pos slot]
  have there : (list.nodes.set node
      { cell with next := cell.next.set level (some target) })[node]? =
        some { cell with next := cell.next.set level (some target) } := by
    simp [inside]
  refine ⟨_, written, ⟨?_, ?_, by simp, rfl⟩, ?_⟩
  · funext other
    by_cases same : node = other
    · subst same
      simp only [key, there, found, Option.bind_some]
    · simp only [key, List.getElem?_set_ne same]
  · funext other
    by_cases same : node = other
    · subst same
      simp only [height, there, found, Option.map_some, List.length_set]
    · simp only [height, List.getElem?_set_ne same]
  · intro otherLevel other
    by_cases same : node = other
    · subst same
      simp only [next, there, found, Option.bind_some, and_true]
      by_cases sameLevel : level = otherLevel
      · subst sameLevel
        simp [slot]
      · rw [List.getElem?_set_ne sameLevel, if_neg (Ne.symm sameLevel)]
    · rw [if_neg fun both => same both.2.symm]
      simp only [next, List.getElem?_set_ne same]

/-- A new node has its height and its key, and its slots are still unreadable. -/
theorem newNode_spec (list : SkipList Key) (stored : Key) (tall : Nat) :
    (newNode list (some stored) tall).2.next = list.next ∧
      (newNode list (some stored) tall).2.nodes.length = list.nodes.length + 1 ∧
      (newNode list (some stored) tall).2.key list.nodes.length = some stored ∧
      (newNode list (some stored) tall).2.height list.nodes.length = tall ∧
      ∀ node, node < list.nodes.length →
        (newNode list (some stored) tall).2.key node = list.key node ∧
          (newNode list (some stored) tall).2.height node = list.height node := by
  refine ⟨?_, by simp [newNode], by simp [newNode, key], by simp [newNode, height], ?_⟩
  · funext level node
    rcases Nat.lt_trichotomy node list.nodes.length with old | rfl | beyond
    · simp [newNode, next, List.getElem?_append_left old]
    · simp only [newNode, next, List.getElem?_concat_length, Option.bind_some,
        List.getElem?_replicate, List.getElem?_eq_none (Nat.le_refl _), Option.bind_none]
      split <;> rfl
    · have outside : (list.nodes ++
          [(⟨some stored, List.replicate tall none⟩ : Node Key)]).length ≤ node := by
        rw [List.length_append, List.length_singleton]
        exact beyond
      simp only [newNode, next, List.getElem?_eq_none outside,
        List.getElem?_eq_none (Nat.le_of_lt beyond), Option.bind_none]
  · intro node old
    simp [newNode, key, height, List.getElem?_append_left old]

end SkipList

end MiniLevelDb
