import MiniLevelDb.Db.SkipListIterator

/-!
# Searches and scans

A search gives what a scan of whole levels would give: `FindGreaterOrEqual` the first node
of the bottom level that is not before the target, and for every level the last one that
is; `FindLessThan` the last one of the bottom level, and `FindLast` its last node. On the
way a search only reads slots that the node it stands at has.
-/

namespace MiniLevelDb

open Foundation

namespace SkipList

variable {Key : Type}

section Operations

variable (compare : Key → Key → Int)

/-- The node has a key, and it comes before the target. -/
def isBefore (list : SkipList Key) (target : Key) (node : NodePtr) : Bool :=
  (list.key node).any fun stored => compare stored target < 0

/-- The first of the nodes that is not before the target. -/
def scanFirst (list : SkipList Key) (target : Key) (nodes : List NodePtr) : Option NodePtr :=
  nodes.find? fun node => !isBefore compare list target node

/-- The last of the nodes that is before the target, `head_` if none is. -/
def scanLast (list : SkipList Key) (target : Key) (nodes : List NodePtr) : NodePtr :=
  (nodes.filter (isBefore compare list target)).getLast?.getD headPtr

end Operations

/-- Where a search goes from node `x` when it has read `next`: there if it `passes`, else down. -/
def moveOn (passes : Option NodePtr → Option Bool) (next : Option NodePtr) (x : NodePtr)
    (level : Nat) : Option (NodePtr × Nat) := do
  if ← passes next then return (← next, level)
  else match level with
    | 0 => none
    | level + 1 => some (x, level)

/-- The calls of `Next` that a search makes, by node and level. -/
def nextCalls (list : SkipList Key) (passes : Option NodePtr → Option Bool) :
    Nat → NodePtr → Nat → List (NodePtr × Nat)
  | 0, _, _ => []
  | rounds + 1, x, level =>
      (x, level) :: match (list.next level x).bind fun next => moveOn passes next x level with
        | none => []
        | some (node, lower) => nextCalls list passes rounds node lower

/-- The calls of a whole search. -/
def searchCalls (list : SkipList Key) (passes : Option NodePtr → Option Bool) :
    List (NodePtr × Nat) :=
  nextCalls list passes (list.nodes.length + list.maxHeight) headPtr (list.maxHeight - 1)

/-- Every call is of a level that the node has. -/
def WithinTowers (list : SkipList Key) (calls : List (NodePtr × Nat)) : Prop :=
  ∀ node level, (node, level) ∈ calls → level < list.height node

variable {compare : Key → Key → Int} {list : SkipList Key} {target : Key} {rounds level : Nat}
  {x : NodePtr}

section Calls

variable {passes : Option NodePtr → Option Bool}

/-- A loop that reads in every round, and goes on as long as it succeeds, stays inside. -/
theorem nextCalls_within {runs : Nat → NodePtr → Nat → Prop}
    (round : ∀ rounds x level, runs (rounds + 1) x level → ∃ next,
      list.next level x = some next ∧
      ∀ place, moveOn passes next x level = some place → runs rounds place.1 place.2)
    (ran : runs rounds x level) : WithinTowers list (nextCalls list passes rounds x level) := by
  induction rounds generalizing x level with
  | zero => exact fun _ _ member => absurd member List.not_mem_nil
  | succ rounds ih =>
      obtain ⟨next, read, goes⟩ := round rounds x level ran
      intro node other member
      rw [nextCalls, read, Option.bind_some] at member
      rcases List.mem_cons.mp member with same | later
      · cases same
        exact lt_height_of_next read
      · cases moved : moveOn passes next x level with
        | none =>
            rw [moved] at later
            cases later
        | some place =>
            rw [moved] at later
            exact ih (goes place moved) node other later

theorem findLoop_within {prev : Option Prev} {result : Option NodePtr × Option Prev}
    (found : findLoop compare list target rounds x level prev = some result) :
    WithinTowers list (nextCalls list (keyIsAfterNode compare list target) rounds x level) := by
  apply @nextCalls_within _ _ rounds level x _
    fun rounds x level => ∃ prev, findLoop compare list target rounds x level prev = some result
  · rintro rounds x level ⟨prev, found⟩
    simp only [findLoop, Option.bind_eq_bind, Option.bind_eq_some_iff] at found
    obtain ⟨next, read, after, passed, rest⟩ := found
    refine ⟨next, read, fun place moved => ?_⟩
    simp only [moveOn, passed, Option.bind_eq_bind, Option.bind_some] at moved
    cases after with
    | true =>
        obtain ⟨node, rfl, continues⟩ := Option.bind_eq_some_iff.mp rest
        cases moved
        exact ⟨prev, continues⟩
    | false =>
        obtain ⟨recorded, -, continues⟩ := Option.bind_eq_some_iff.mp rest
        cases level with
        | zero => cases moved
        | succ level =>
            cases moved
            exact ⟨recorded, continues⟩
  · exact ⟨prev, found⟩

/-- A search that stops where the other one does not pass. -/
theorem lastBeforeLoop_within {holds : NodePtr → Option Bool}
    {stops : Option NodePtr → Option Bool} {last : NodePtr}
    (found : lastBeforeLoop list holds stops rounds x level = some last) :
    WithinTowers list (nextCalls list (fun next => (stops next).map not) rounds x level) := by
  apply @nextCalls_within _ _ rounds level x _
    fun rounds x level => lastBeforeLoop list holds stops rounds x level = some last
  · intro rounds x level found
    simp only [lastBeforeLoop, Option.bind_eq_bind, Option.bind_eq_some_iff] at found
    obtain ⟨holding, -, rest⟩ := found
    cases holding with
    | false => cases rest
    | true =>
        simp only [if_true, Option.bind_eq_some_iff] at rest
        obtain ⟨next, read, stopped, stopping, rest⟩ := rest
        refine ⟨next, read, fun place moved => ?_⟩
        simp only [moveOn, stopping, Option.map_some, Option.bind_eq_bind, Option.bind_some]
          at moved
        cases stopped with
        | true =>
            cases level with
            | zero => cases moved
            | succ level =>
                cases moved
                exact rest
        | false =>
            obtain ⟨node, rfl, continues⟩ := Option.bind_eq_some_iff.mp rest
            cases moved
            exact continues
  · exact found

end Calls

section Scans

variable {rows front back : List (Row Key)}

theorem isBefore_row (layered : Layered compare list rows) {row : Row Key} (member : row ∈ rows) :
    isBefore compare list target row.node = decide (compare row.key target < 0) := by
  rw [isBefore, (layered.stored row member).1, Option.any_some]

theorem spot_eq_getLast (rows : List (Row Key)) (level : Nat) :
    spot rows level = (layer rows level).getLast?.getD headPtr := by
  rw [spot]
  cases layer rows level using List.reverseRecOn with
  | nil => rfl
  | append_singleton nodes last =>
      rw [endSlot_append, List.getLast?_append, List.getLast?_singleton]
      rfl

/-- A level of what is before the target and of what is not. -/
theorem isBefore_layers (layered : Layered compare list (front ++ back))
    (below : ∀ row ∈ front, compare row.key target < 0)
    (beyond : ∀ row ∈ back, ¬ compare row.key target < 0) (level : Nat) :
    (∀ node ∈ layer front level, isBefore compare list target node = true) ∧
      ∀ node ∈ layer back level, isBefore compare list target node = false := by
  constructor
  · intro node member
    obtain ⟨row, shown, rfl⟩ := List.mem_map.mp member
    have listed := List.mem_of_mem_filter shown
    rw [isBefore_row layered (List.mem_append_left _ listed), decide_eq_true (below row listed)]
  · intro node member
    obtain ⟨row, shown, rfl⟩ := List.mem_map.mp member
    have listed := List.mem_of_mem_filter shown
    rw [isBefore_row layered (List.mem_append_right _ listed), decide_eq_false (beyond row listed)]

theorem scanFirst_eq (layered : Layered compare list (front ++ back))
    (below : ∀ row ∈ front, compare row.key target < 0)
    (beyond : ∀ row ∈ back, ¬ compare row.key target < 0) :
    scanFirst compare list target (layer (front ++ back) 0) = back.head?.map Row.node := by
  obtain ⟨first, second⟩ := isBefore_layers layered below beyond 0
  have passed : (layer front 0).find? (fun node => !isBefore compare list target node) = none := by
    rw [List.find?_eq_none]
    intro node member
    rw [first node member]
    exact Bool.false_ne_true
  have heights : ∀ row ∈ back, 0 < row.height := fun row member =>
    (layered.tall row (List.mem_append_right _ member)).1
  rw [scanFirst, layer_append, List.find?_append, passed, Option.none_or]
  rw [layer_zero heights] at second ⊢
  cases back with
  | nil => rfl
  | cons row later =>
      rw [List.map_cons, List.find?_cons_of_pos]
      · rfl
      · rw [second row.node (List.mem_map_of_mem List.mem_cons_self)]
        rfl

theorem scanLast_eq (layered : Layered compare list (front ++ back))
    (below : ∀ row ∈ front, compare row.key target < 0)
    (beyond : ∀ row ∈ back, ¬ compare row.key target < 0) (level : Nat) :
    scanLast compare list target (layer (front ++ back) level) = spot front level := by
  obtain ⟨first, second⟩ := isBefore_layers layered below beyond level
  have nothing : (layer back level).filter (isBefore compare list target) = [] := by
    rw [List.filter_eq_nil_iff]
    intro node member
    rw [second node member]
    exact Bool.false_ne_true
  rw [scanLast, layer_append, List.filter_append, List.filter_eq_self.mpr first, nothing,
    List.append_nil, spot_eq_getLast]

end Scans

/-- On every list that insertions lead to, the searches end where scans of whole levels end,
their assertions hold, and they read only slots that are there. -/
theorem searches_scan (order : ThreeWay compare) (calls : List (Key × Nat))
    (tall : ∀ call ∈ calls, 0 < call.2 ∧ call.2 ≤ kMaxHeight)
    (distinct : calls.Pairwise fun left right => compare left.1 right.1 ≠ 0) :
    ∃ (list : SkipList Key) (nodes : Nat → List NodePtr), insertAll compare calls = some list ∧
      (∀ level < kMaxHeight, Chain (list.next level) id headPtr (nodes level)) ∧
      ∀ target,
        (∀ prev : Option Prev, (∀ array, prev = some array → array.length = kMaxHeight) →
          ∃ after, findGreaterOrEqual compare list target prev =
              some (scanFirst compare list target (nodes 0), after) ∧
            after.isSome = prev.isSome ∧
            ∀ filled, after = some filled → ∀ level < list.maxHeight,
              filled[level]? = some (some (scanLast compare list target (nodes level)))) ∧
        findLessThan compare list target = some (scanLast compare list target (nodes 0)) ∧
        findLast list = some ((nodes 0).getLast?.getD headPtr) ∧
        WithinTowers list (searchCalls list (keyIsAfterNode compare list target)) ∧
        WithinTowers list
          (searchCalls list fun next => (notBefore compare list target next).map not) ∧
        WithinTowers list (searchCalls list fun next => some next.isSome) := by
  obtain ⟨list, rows, ran, layered, -⟩ := insertAll_layered order calls tall distinct
  refine ⟨list, layer rows, ran, layered.chains, fun target => ?_⟩
  obtain ⟨front, back, rfl, below, beyond⟩ := order.split_increasing layered.increasing target
  have lessThan := findLessThan_spec layered below beyond
  have last := findLast_spec layered
  refine ⟨fun prev room => ?_, ?_, ?_, ?_, ?_, ?_⟩
  · obtain ⟨after, found, recorded⟩ := @findGreaterOrEqual_spec _ _ _ _ _ _ layered below beyond
      prev fun array same => Nat.le_of_eq (room array same).symm
    rw [scanFirst_eq layered below beyond]
    have positive := layered.maxHeight_pos
    cases prev with
    | none =>
        cases recorded
        exact ⟨none, found, rfl, nofun⟩
    | some array =>
        obtain ⟨filled, rfl, -, slots⟩ := recorded
        refine ⟨some filled, found, rfl, ?_⟩
        rintro _ ⟨⟩ level used
        rw [slots, if_pos (by omega), scanLast_eq layered below beyond]
  · rw [lessThan, scanLast_eq layered below beyond]
  · rw [last, spot_eq_getLast]
  · obtain ⟨after, found, -⟩ :=
      @findGreaterOrEqual_spec _ _ _ _ _ _ layered below beyond none nofun
    exact findLoop_within found
  · exact lastBeforeLoop_within lessThan
  · have passes : (fun next : Option NodePtr => (some next.isNone).map not) =
        fun next => some next.isSome := by
      funext next
      cases next <;> rfl
    have within := lastBeforeLoop_within last
    rwa [passes] at within

/-- Between two keys of a list, and behind its end. -/
theorem searches_scan_three :
    ∃ list nodes, insertAll (fun left right : Int => left - right) [(5, 2), (3, 12), (9, 1)] =
        some list ∧
      findLessThan (fun left right : Int => left - right) list 7 =
        some (scanLast (fun left right : Int => left - right) list 7 nodes) ∧
      findLast list = some (nodes.getLast?.getD headPtr) := by
  have order : ThreeWay fun left right : Int => left - right :=
    ⟨by intros; omega, by intros; omega⟩
  obtain ⟨list, nodes, ran, -, searches⟩ :=
    searches_scan order [(5, 2), (3, 12), (9, 1)] (by decide) (by decide)
  obtain ⟨-, lessThan, last, -⟩ := searches 7
  exact ⟨list, nodes 0, ran, lessThan, last⟩

end SkipList

end MiniLevelDb
