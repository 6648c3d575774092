import MiniLevelDb.Db.SkipList
import MiniLevelDb.Foundation.Chain
import MiniLevelDb.Foundation.ThreeWay
import Mathlib.Data.List.Induction
import Mathlib.Data.List.Perm.Subperm

/-!
# The layers of a skip list

A skip list stands for its nodes in increasing order of their keys. Every level is
the chain of the nodes that are tall enough, so a search that walks right and down
always stands at the last of the nodes below its key that its level shows.
-/

namespace MiniLevelDb

open Foundation

namespace SkipList

variable {Key : Type} {compare : Key → Key → Int} {list : SkipList Key}

/-- A node as the list of all nodes shows it. -/
structure Row (Key : Type) where
  node : NodePtr
  key : Key
  height : Nat

/-- The nodes that `level` shows. -/
def layer (rows : List (Row Key)) (level : Nat) : List NodePtr :=
  (rows.filter fun row => level < row.height).map Row.node

/-- The node behind which a key that comes after `rows` belongs on `level`. -/
def spot (rows : List (Row Key)) (level : Nat) : NodePtr :=
  endSlot id headPtr (layer rows level)

/-- The representation invariant: `rows` are the nodes in order. -/
structure Layered (compare : Key → Key → Int) (list : SkipList Key) (rows : List (Row Key)) :
    Prop where
  stored : ∀ row ∈ rows, list.key row.node = some row.key ∧ list.height row.node = row.height
  present : ∀ node : Nat, node ∈ rows.map Row.node ↔ node ≠ headPtr ∧ node < list.nodes.length
  tall : ∀ row ∈ rows, 0 < row.height ∧ row.height ≤ kMaxHeight
  increasing : rows.Pairwise fun left right => compare left.key right.key < 0
  head : list.height headPtr = kMaxHeight
  chains : ∀ level < kMaxHeight, Chain (list.next level) id headPtr (layer rows level)
  maxHeight : list.maxHeight = (rows.map Row.height).foldr max 1

section Layers

variable {rows front back : List (Row Key)} {level : Nat}

@[simp] theorem layer_append :
    layer (front ++ back) level = layer front level ++ layer back level := by
  simp [layer]

theorem layer_cons (row : Row Key) :
    layer (row :: rows) level =
      if level < row.height then row.node :: layer rows level else layer rows level := by
  by_cases shown : level < row.height <;> simp [layer, shown]

theorem layer_eq_nil_iff : layer rows level = [] ↔ ∀ row ∈ rows, row.height ≤ level := by
  simp [layer]

/-- The levels only lose nodes on the way up. -/
theorem layer_sublist (rows : List (Row Key)) (level : Nat) :
    (layer rows (level + 1)).Sublist (layer rows level) := by
  apply List.Sublist.map
  apply List.monotone_filter_right
  intro row shown
  simp only [decide_eq_true_eq] at *
  omega

theorem layer_zero (tall : ∀ row ∈ rows, 0 < row.height) :
    layer rows 0 = rows.map Row.node := by
  unfold layer
  rw [List.filter_eq_self.mpr fun row member => by simpa using tall row member]

theorem spot_append (last : Row Key) (shown : level < last.height) :
    spot (front ++ [last]) level = last.node := by
  rw [spot, layer_append, endSlot_append, layer_cons, if_pos shown]
  rfl

theorem spot_mem_layer (rows : List (Row Key)) (level : Nat) :
    spot rows level ∈ headPtr :: layer rows level := by
  have reached : spot rows level ∈ headPtr :: (layer rows level).map id := endSlot_mem
  rwa [List.map_id] at reached

theorem not_mem_layers {node : NodePtr} (outside : node ∉ headPtr :: (front ++ back).map Row.node)
    (level : Nat) : node ∉ headPtr :: (layer front level ++ layer back level) := by
  rw [← layer_append]
  intro member
  exact outside (List.cons_subset_cons _ (List.filter_sublist.map _).subset member)

/-- One level after a new node is linked in behind `front`. -/
theorem chain_linked {before after : NodePtr → Option (Option NodePtr)} {node : NodePtr}
    (chain : Chain before id headPtr (layer front level ++ layer back level))
    (outside : node ∉ headPtr :: (front ++ back).map Row.node)
    (linked : after (spot front level) = some (some node))
    (next : node ≠ spot front level → after node = some (layer back level).head?)
    (frame : ∀ other, other ≠ spot front level → other ≠ node → after other = before other) :
    Chain after id headPtr (layer front level ++ node :: layer back level) := by
  have unlisted := not_mem_layers outside level
  have apart : node ≠ spot front level := by
    rintro rfl
    exact unlisted (List.cons_subset_cons _ (List.subset_append_left _ _) (spot_mem_layer _ _))
  refine chain.insert (Chain.slots_nodup chain) (by simpa using unlisted) linked ?_ frame
  exact (next apart).trans (Chain.read_head (Segment.drop chain)).symm

theorem mem_of_layer_head? {node : NodePtr} (first : (layer rows level).head? = some node) :
    ∃ row ∈ rows, row.node = node := by
  obtain ⟨row, shown, same⟩ := List.mem_map.mp (List.mem_of_head? first)
  exact ⟨row, List.mem_of_mem_filter shown, same⟩

theorem foldr_max_le_iff {heights : List Nat} {bound : Nat} :
    heights.foldr max 1 ≤ bound ↔ 1 ≤ bound ∧ ∀ height ∈ heights, height ≤ bound := by
  induction heights with
  | nil => simp
  | cons height rest ih =>
      rw [List.foldr_cons, Nat.max_le, ih, List.forall_mem_cons, and_left_comm]

end Layers

namespace Layered

variable {rows front rest back : List (Row Key)}

theorem maxHeight_pos (layered : Layered compare list rows) : 1 ≤ list.maxHeight :=
  layered.maxHeight ▸ (foldr_max_le_iff.mp (Nat.le_refl _)).1

theorem height_le (layered : Layered compare list rows) {row : Row Key} (member : row ∈ rows) :
    row.height ≤ list.maxHeight :=
  layered.maxHeight ▸
    (foldr_max_le_iff.mp (Nat.le_refl _)).2 _ (List.mem_map_of_mem member)

theorem maxHeight_le (layered : Layered compare list rows) : list.maxHeight ≤ kMaxHeight := by
  rw [layered.maxHeight, foldr_max_le_iff]
  refine ⟨by decide, fun height member => ?_⟩
  obtain ⟨row, shown, rfl⟩ := List.mem_map.mp member
  exact (layered.tall row shown).2

theorem layer_above (layered : Layered compare list rows) {level : Nat}
    (above : list.maxHeight ≤ level) : layer rows level = [] :=
  layer_eq_nil_iff.mpr fun _ member => Nat.le_trans (layered.height_le member) above

theorem nodes_nodup (layered : Layered compare list rows) :
    (headPtr :: rows.map Row.node).Nodup := by
  have nodup := (layered.chains 0 (by decide)).slots_nodup
  rwa [layer_zero fun row member => (layered.tall row member).1, List.map_id] at nodup

/-- There is a round of the search loop for every node. -/
theorem length_lt (layered : Layered compare list rows) : rows.length < list.nodes.length := by
  have within : headPtr :: rows.map Row.node ⊆ List.range list.nodes.length := by
    intro node member
    rw [List.mem_range]
    rcases List.mem_cons.mp member with rfl | member
    · exact lt_size_of_lt_height (layered.head ▸ (by decide : 0 < kMaxHeight))
    · exact ((layered.present node).mp member).2
  have bound := (layered.nodes_nodup.subperm within).length_le
  rw [List.length_cons, List.length_map, List.length_range] at bound
  exact bound

theorem fresh (layered : Layered compare list rows) :
    list.nodes.length ∉ headPtr :: rows.map Row.node := by
  intro member
  rcases List.mem_cons.mp member with same | member
  · have := layered.length_lt
    unfold headPtr at same
    omega
  · exact Nat.lt_irrefl _ ((layered.present _).mp member).2

/-- Reading on from the node behind `front`. -/
theorem next_spot (layered : Layered compare list (front ++ back)) {level : Nat}
    (within : level < kMaxHeight) :
    list.next level (spot front level) = some (layer back level).head? := by
  have chain := layered.chains level within
  rw [layer_append] at chain
  exact Chain.read_head chain.drop

/-- What a search that stands at the last node of `front` reads: the first row of `rest`
that its level shows, or what comes behind `rest` if it shows none of them. -/
theorem look_right (layered : Layered compare list (front ++ rest ++ back)) {level : Nat}
    {x : NodePtr} (standing : ∀ other ≤ level, spot front other = x)
    (within : level < kMaxHeight) :
    (∃ hidden row later, rest = hidden ++ row :: later ∧ level < row.height ∧
      list.next level x = some (some row.node)) ∨
    (layer rest level = [] ∧ list.next level x = some (layer back level).head?) := by
  have next : list.next level x = some (layer (rest ++ back) level).head? := by
    rw [← standing level (Nat.le_refl _)]
    rw [List.append_assoc] at layered
    exact layered.next_spot within
  rw [layer_append] at next
  cases shown : rest.filter fun row => level < row.height with
  | cons row others =>
      obtain ⟨hidden, later, split, -, tall, -⟩ := List.filter_eq_cons_iff.mp shown
      refine .inl ⟨hidden, row, later, split, by simpa using tall, ?_⟩
      rw [next, layer, shown]
      rfl
  | nil =>
      have none_shown : layer rest level = [] := by rw [layer, shown, List.map_nil]
      rw [none_shown, List.nil_append] at next
      exact .inr ⟨none_shown, next⟩

theorem keyIsAfterNode_row (layered : Layered compare list rows) (key : Key) {row : Row Key}
    (member : row ∈ rows) :
    keyIsAfterNode compare list key (some row.node) = some (decide (compare row.key key < 0)) := by
  simp [keyIsAfterNode, (layered.stored row member).1]

theorem equalsNode_row (layered : Layered compare list rows) (key : Key) {row : Row Key}
    (member : row ∈ rows) :
    equalsNode compare list key (some row.node) = some (decide (compare key row.key = 0)) := by
  simp [equalsNode, (layered.stored row member).1]

end Layered

/-- What a search leaves in `prev`: the place of each level it passed. -/
def Recorded (place : Nat → NodePtr) (level : Nat) : Option Prev → Option Prev → Prop
  | none, after => after = none
  | some prev, after => ∃ filled, after = some filled ∧ filled.length = prev.length ∧
      ∀ other, filled[other]? = if other ≤ level then some (some (place other)) else prev[other]?

theorem recordPrev_recorded {place : Nat → NodePtr} {prev : Option Prev} {level : Nat}
    (room : ∀ array, prev = some array → level < array.length) :
    ∃ after, recordPrev level (place level) prev = some after ∧
      (∀ array, after = some array → level < array.length) ∧
      (level = 0 → Recorded place level prev after) ∧
      ∀ lower last, level = lower + 1 → Recorded place lower after last →
        Recorded place level prev last := by
  cases prev with
  | none =>
      refine ⟨none, rfl, by simp, fun _ => rfl, ?_⟩
      intro lower last _ recorded
      exact recorded
  | some array =>
      have inside := room array rfl
      refine ⟨some (array.set level (some (place level))), if_pos inside, by simpa using inside,
        ?_, ?_⟩
      · rintro rfl
        refine ⟨_, rfl, by simp, fun other => ?_⟩
        rcases Nat.eq_zero_or_pos other with rfl | above
        · simp [inside]
        · rw [if_neg (by omega), List.getElem?_set_ne (by omega)]
      · rintro lower last rfl ⟨filled, rfl, length, slots⟩
        refine ⟨filled, rfl, by simpa using length, fun other => ?_⟩
        rw [slots]
        rcases Nat.lt_trichotomy other (lower + 1) with below | rfl | above
        · rw [if_pos (by omega), if_pos (by omega)]
        · rw [if_neg (by omega), if_pos (Nat.le_refl _), List.getElem?_set_self inside]
        · rw [if_neg (by omega), if_neg (by omega), List.getElem?_set_ne (by omega)]

/-- The search loop, standing at the last node of `front` with `rest` still to pass. -/
theorem findLoop_spec {front rest back : List (Row Key)} {key : Key} {rounds level : Nat}
    {x : NodePtr} {prev : Option Prev}
    (layered : Layered compare list (front ++ rest ++ back))
    (below : ∀ row ∈ rest, compare row.key key < 0)
    (beyond : ∀ row ∈ back, ¬ compare row.key key < 0)
    (standing : ∀ other ≤ level, spot front other = x)
    (within : level < kMaxHeight)
    (room : ∀ array, prev = some array → level < array.length)
    (enough : rest.length + level < rounds) :
    ∃ after, findLoop compare list key rounds x level prev =
        some (back.head?.map Row.node, after) ∧
      Recorded (spot (front ++ rest)) level prev after := by
  induction rounds generalizing front rest x level prev with
  | zero => omega
  | succ rounds ih =>
      rcases layered.look_right standing within with
        ⟨hidden, row, later, rfl, tall, next⟩ | ⟨none_shown, next⟩
      · have member : row ∈ front ++ (hidden ++ row :: later) ++ back := by simp
        have after : keyIsAfterNode compare list key (some row.node) = some true := by
          rw [layered.keyIsAfterNode_row key member, decide_eq_true (below row (by simp))]
        have regroup : front ++ (hidden ++ row :: later) =
            (front ++ hidden ++ [row]) ++ later := by simp
        rw [regroup] at layered ⊢
        obtain ⟨last, found, recorded⟩ := ih layered
          (fun other member => below other (by simp [member]))
          (fun other le => spot_append row (Nat.lt_of_le_of_lt le tall)) within room (by
            simp only [List.length_append, List.length_cons] at enough
            omega)
        refine ⟨last, ?_, recorded⟩
        unfold findLoop
        simp only [next, Option.bind_eq_bind, Option.bind_some, after, if_true]
        exact found
      · have stop : keyIsAfterNode compare list key (layer back level).head? = some false := by
          cases visible : (layer back level).head? with
          | none => rfl
          | some node =>
              obtain ⟨row, member, rfl⟩ := mem_of_layer_head? visible
              rw [layered.keyIsAfterNode_row key (List.mem_append_right _ member),
                decide_eq_false (beyond row member)]
        have place : spot (front ++ rest) level = x := by
          rw [spot, layer_append, none_shown, List.append_nil]
          exact standing level (Nat.le_refl _)
        obtain ⟨middle, written, roomy, last, lower⟩ :=
          @recordPrev_recorded (spot (front ++ rest)) prev level room
        rw [place] at written
        unfold findLoop
        simp only [next, stop, Option.bind_eq_bind, Option.bind_some, written]
        cases level with
        | zero =>
            refine ⟨middle, ?_, last rfl⟩
            have first : (layer back 0).head? = back.head?.map Row.node := by
              rw [layer_zero fun row member =>
                (layered.tall row (List.mem_append_right _ member)).1, List.head?_map]
            simp [first]
        | succ level =>
            obtain ⟨after, found, recorded⟩ := ih layered below
              (fun other le => standing other (Nat.le_succ_of_le le)) (by omega)
              (fun array same => Nat.lt_of_succ_lt (roomy array same)) (by omega)
            exact ⟨after, by simpa using found, lower _ _ rfl recorded⟩

section Search

variable {rows front back : List (Row Key)} {key : Key}

/-- `FindGreaterOrEqual` returns the first node at or after the key and leaves, for
every level in use, the place of the key there. -/
theorem findGreaterOrEqual_spec (layered : Layered compare list (front ++ back))
    (below : ∀ row ∈ front, compare row.key key < 0)
    (beyond : ∀ row ∈ back, ¬ compare row.key key < 0) {prev : Option Prev}
    (room : ∀ array, prev = some array → kMaxHeight ≤ array.length) :
    ∃ after, findGreaterOrEqual compare list key prev =
        some (back.head?.map Row.node, after) ∧
      Recorded (spot front) (list.maxHeight - 1) prev after := by
  have top : list.maxHeight - 1 < kMaxHeight := by
    have := layered.maxHeight_pos
    have := layered.maxHeight_le
    omega
  have enough : front.length + (list.maxHeight - 1) < list.nodes.length + list.maxHeight := by
    have := layered.length_lt
    rw [List.length_append] at this
    omega
  exact @findLoop_spec _ _ _ [] front back _ _ _ _ _ layered below beyond
    (fun _ _ => rfl) top (fun array same => Nat.lt_of_lt_of_le top (room array same)) enough

/-- The first row that is not before a key decides whether any row equals it. -/
theorem equalsNode_first (order : ThreeWay compare)
    (layered : Layered compare list (front ++ back))
    (below : ∀ row ∈ front, compare row.key key < 0)
    (beyond : ∀ row ∈ back, ¬ compare row.key key < 0) :
    equalsNode compare list key (back.head?.map Row.node) =
      some (decide (∃ row ∈ front ++ back, compare key row.key = 0)) := by
  have front_apart : ∀ row ∈ front, compare key row.key ≠ 0 := by
    intro row member equal
    have := below row member
    have := order.zero_comm.mp equal
    omega
  cases back with
  | nil =>
      have absent : ¬ ∃ row ∈ front ++ [], compare key row.key = 0 := by
        rintro ⟨row, member, equal⟩
        exact front_apart row (by simpa using member) equal
      rw [decide_eq_false absent]
      rfl
  | cons first later =>
      rw [List.head?_cons, Option.map_some, layered.equalsNode_row key (by simp)]
      refine congrArg some (decide_eq_decide.mpr ⟨?_, ?_⟩)
      · intro equal
        exact ⟨first, by simp, equal⟩
      · rintro ⟨row, member, equal⟩
        rcases List.mem_append.mp member with before | after
        · exact absurd equal (front_apart row before)
        · rcases List.mem_cons.mp after with rfl | after
          · exact equal
          · have ordered := (List.pairwise_append.mp layered.increasing).2.1
            have under := (List.pairwise_cons.mp ordered).1 row after
            have le : compare first.key key ≤ 0 :=
              Int.le_of_lt (order.lt_of_lt_of_le under
                (Int.le_of_eq (order.zero_comm.mp equal)))
            have not_less := beyond first List.mem_cons_self
            exact order.zero_comm.mp (by omega)

theorem contains_spec (order : ThreeWay compare) (layered : Layered compare list rows)
    (key : Key) :
    contains compare list key = some (decide (∃ row ∈ rows, compare key row.key = 0)) := by
  obtain ⟨front, back, rfl, below, beyond⟩ := order.split_increasing layered.increasing key
  obtain ⟨after, found, -⟩ :=
    @findGreaterOrEqual_spec _ _ _ _ _ _ layered below beyond none (by simp)
  simp only [contains, found, Option.bind_eq_bind, Option.bind_some]
  exact equalsNode_first order layered below beyond

end Search

section Insert

variable {rows front back : List (Row Key)} {key : Key} {height : Nat}

theorem raisePrev_loop {prev : Prev} {first count : Nat} (room : first + count ≤ prev.length) :
    ∃ after, (List.range' first count).foldlM
        (fun prev level =>
          if level < prev.length then some (prev.set level (some headPtr)) else none) prev =
        some after ∧
      ∀ level, after[level]? =
        if first ≤ level ∧ level < first + count then some (some headPtr) else prev[level]? := by
  induction count generalizing first prev with
  | zero => exact ⟨prev, rfl, fun level => by rw [if_neg (by omega)]⟩
  | succ count ih =>
      have inside : first < prev.length := by omega
      obtain ⟨after, raised, slots⟩ :=
        @ih (prev.set first (some headPtr)) (first + 1) (by rw [List.length_set]; omega)
      refine ⟨after, ?_, fun level => ?_⟩
      · rw [List.range'_succ, List.foldlM_cons, if_pos inside]
        exact raised
      · rw [slots]
        rcases Nat.lt_trichotomy level first with below | rfl | above
        · rw [if_neg (by omega), if_neg (by omega), List.getElem?_set_ne (by omega)]
        · rw [if_neg (by omega), if_pos (by omega), List.getElem?_set_self inside]
        · rw [List.getElem?_set_ne (by omega)]
          by_cases last : level < first + 1 + count
          · rw [if_pos (by omega), if_pos (by omega)]
          · rw [if_neg (by omega), if_neg (by omega)]

/-- One round of the linking loop, at a place whose slot can be read. -/
theorem splice_spec {prev : Prev} {level : Nat} {x before : NodePtr}
    {successor : Option NodePtr} (place : prev[level]? = some (some before))
    (read : list.next level before = some successor) (within : level < list.height x) :
    ∃ after, splice prev x list level = some after ∧ SameShape list after ∧
      ∀ otherLevel other, after.next otherLevel other =
        if otherLevel = level ∧ other = before then some (some x)
        else if otherLevel = level ∧ other = x then some successor
        else list.next otherLevel other := by
  obtain ⟨middle, written, shape, slots⟩ := setNext_spec within successor
  have reachable : level < middle.height before := shape.height ▸ lt_height_of_next read
  obtain ⟨after, linked, sameShape, finalSlots⟩ := setNext_spec reachable (some x)
  refine ⟨after, ?_, shape.trans sameShape, fun otherLevel other => ?_⟩
  · simp [splice, place, read, written, linked]
  · rw [finalSlots, slots]

/-- The linking loop after `count` levels: they show the new node, the others are as
they were. -/
theorem spliceAll_spec {prev : Prev} {x : NodePtr} {place : Nat → NodePtr}
    {successor : Nat → Option NodePtr} {count : Nat}
    (places : ∀ level < count, prev[level]? = some (some (place level)))
    (read : ∀ level < count, list.next level (place level) = some (successor level))
    (within : count ≤ list.height x) :
    ∃ after, (List.range count).foldlM (splice prev x) list = some after ∧
      SameShape list after ∧
      ∀ level other, after.next level other =
        if level < count ∧ other = place level then some (some x)
        else if level < count ∧ other = x then some (successor level)
        else list.next level other := by
  induction count with
  | zero => exact ⟨list, rfl, SameShape.refl list, by simp⟩
  | succ count ih =>
      obtain ⟨middle, ran, shape, slots⟩ := ih (fun level lt => places level (by omega))
        (fun level lt => read level (by omega)) (by omega)
      have untouched : middle.next count (place count) = some (successor count) := by
        rw [slots, if_neg (by omega), if_neg (by omega), read count (by omega)]
      have tower : count < middle.height x := shape.height ▸ within
      obtain ⟨after, spliced, lastShape, lastSlots⟩ :=
        splice_spec (places count (by omega)) untouched tower
      refine ⟨after, ?_, shape.trans lastShape, fun level other => ?_⟩
      · rw [List.range_succ, List.foldlM_append, ran]
        simp [spliced]
      · rw [lastSlots, slots]
        rcases Nat.lt_trichotomy level count with below | rfl | above
        · simp only [Nat.ne_of_lt below, below, Nat.lt_succ_of_lt below, false_and, true_and,
            if_false]
        · simp
        · have beyond : ¬ level < count := by omega
          have outside : ¬ level < count + 1 := by omega
          simp only [Nat.ne_of_gt above, beyond, outside, false_and, if_false]

/-- After the levels above the old maximum are set up, `prev` holds the place of the
key on every level the new node will have. -/
theorem places_ready {maxHeight : Nat}
    (nobody : ∀ level, maxHeight ≤ level → layer front level = []) {prev : Prev}
    (room : prev.length = kMaxHeight) (top : height ≤ kMaxHeight)
    (filled : ∀ level < maxHeight, prev[level]? = some (some (spot front level))) :
    ∃ ready, raisePrev maxHeight height prev = some ready ∧
      ∀ level < height, ready[level]? = some (some (spot front level)) := by
  unfold raisePrev
  by_cases taller : height > maxHeight
  · obtain ⟨ready, raised, slots⟩ :=
      @raisePrev_loop prev maxHeight (height - maxHeight) (by omega)
    refine ⟨ready, by rw [if_pos taller]; exact raised, fun level lt => ?_⟩
    rw [slots]
    by_cases above : maxHeight ≤ level
    · rw [if_pos (by omega), spot, nobody level above]
      rfl
    · rw [if_neg (by omega), filled level (by omega)]
  · exact ⟨prev, if_neg taller, fun level lt => filled level (by omega)⟩

/-- The list with the new node linked in everywhere is layered again. -/
theorem Layered.linked {after : SkipList Key} (order : ThreeWay compare)
    (layered : Layered compare list (front ++ back))
    (below : ∀ row ∈ front, compare row.key key < 0)
    (beyond : ∀ row ∈ back, ¬ compare row.key key < 0)
    (distinct : ∀ row ∈ front ++ back, compare key row.key ≠ 0)
    (tall : 0 < height ∧ height ≤ kMaxHeight)
    (size : after.nodes.length = list.nodes.length + 1)
    (newKey : after.key list.nodes.length = some key)
    (newHeight : after.height list.nodes.length = height)
    (oldNodes : ∀ node, node < list.nodes.length →
      after.key node = list.key node ∧ after.height node = list.height node)
    (maxHeight : after.maxHeight = max height list.maxHeight)
    (slots : ∀ level other, after.next level other =
      if level < height ∧ other = spot front level then some (some list.nodes.length)
      else if level < height ∧ other = list.nodes.length then some (layer back level).head?
      else list.next level other) :
    Layered compare after (front ++ ⟨list.nodes.length, key, height⟩ :: back) where
  stored := by
    intro row member
    rcases List.mem_cons.mp (List.perm_middle.mem_iff.mp member) with rfl | old
    · exact ⟨newKey, newHeight⟩
    · have within := ((layered.present row.node).mp (List.mem_map_of_mem old)).2
      rw [(oldNodes _ within).1, (oldNodes _ within).2]
      exact layered.stored row old
  present := by
    intro node
    have positive := layered.length_lt
    rw [(List.perm_middle.map Row.node).mem_iff, List.map_cons, List.mem_cons,
      layered.present, size]
    show node = list.nodes.length ∨ node ≠ headPtr ∧ node < list.nodes.length ↔ _
    unfold headPtr
    omega
  tall := by
    intro row member
    rcases List.mem_cons.mp (List.perm_middle.mem_iff.mp member) with rfl | old
    · exact tall
    · exact layered.tall row old
  increasing := order.insert_increasing layered.increasing below beyond
    fun row member => distinct row (List.mem_append_right _ member)
  head := by
    have positive := layered.length_lt
    rw [(oldNodes headPtr (by unfold headPtr; omega)).2, layered.head]
  chains := by
    intro level within
    have chain := layered.chains level within
    rw [layer_append] at chain
    rw [layer_append, layer_cons]
    by_cases shown : level < height
    · rw [if_pos shown]
      refine chain_linked chain layered.fresh ?_ ?_ ?_
      · exact (slots _ _).trans (if_pos ⟨shown, rfl⟩)
      · intro apart
        rw [slots, if_neg (fun both => apart both.2), if_pos ⟨shown, rfl⟩]
      · intro other notPlace notNew
        rw [slots, if_neg (fun both => notPlace both.2), if_neg (fun both => notNew both.2)]
    · rw [if_neg shown]
      refine chain.congr fun other _ => ?_
      rw [slots, if_neg (fun both => shown both.1), if_neg (fun both => shown both.1)]
  maxHeight := by
    rw [maxHeight, layered.maxHeight]
    simp only [List.map_append, List.map_cons, List.foldr_append, List.foldr_cons]
    generalize List.foldr max 1 (List.map Row.height back) = base
    induction front.map Row.height with
    | nil => rfl
    | cons first rest ih =>
        rw [List.foldr_cons, List.foldr_cons, ← ih]
        omega

/-- `Insert` of a key no node equals links one new node in at its place. -/
theorem insert_spec (order : ThreeWay compare)
    (layered : Layered compare list (front ++ back))
    (below : ∀ row ∈ front, compare row.key key < 0)
    (beyond : ∀ row ∈ back, ¬ compare row.key key < 0)
    (distinct : ∀ row ∈ front ++ back, compare key row.key ≠ 0)
    (tall : 0 < height ∧ height ≤ kMaxHeight) :
    ∃ after, insert compare list key height = some after ∧
      Layered compare after (front ++ ⟨list.nodes.length, key, height⟩ :: back) := by
  obtain ⟨-, found, prev, rfl, room, filled⟩ :=
    @findGreaterOrEqual_spec _ _ _ _ _ _ layered below beyond
      (some (List.replicate kMaxHeight none)) (by simp)
  have unequal : equalsNode compare list key (back.head?.map Row.node) = some false := by
    rw [equalsNode_first order layered below beyond, decide_eq_false]
    rintro ⟨row, member, equal⟩
    exact distinct row member equal
  rw [List.length_replicate] at room
  have nobody : ∀ level, list.maxHeight ≤ level → layer front level = [] := by
    intro level above
    have empty := layered.layer_above above
    rw [layer_append, List.append_eq_nil_iff] at empty
    exact empty.1
  obtain ⟨ready, raised, places⟩ := places_ready nobody room tall.2 fun level lt => by
    rw [filled, if_pos (by omega)]
  have allowed : ¬ (height = 0 ∨ kMaxHeight < height) := by omega
  let raisedList : SkipList Key :=
    { list with maxHeight := if height > list.maxHeight then height else list.maxHeight }
  obtain ⟨next, size, newKey, newHeight, oldNodes⟩ := newNode_spec raisedList key height
  have read : ∀ level < height,
      (newNode raisedList (some key) height).2.next level (spot front level) =
        some (layer back level).head? := by
    intro level lt
    rw [next]
    exact layered.next_spot (Nat.lt_of_lt_of_le lt tall.2)
  obtain ⟨after, linked, shape, slots⟩ :=
    spliceAll_spec places read (Nat.le_of_eq newHeight.symm)
  refine ⟨after, ?_, layered.linked order below beyond distinct tall ?_ ?_ ?_ ?_ ?_ ?_⟩
  · simp only [insert, found, unequal, raised, Option.bind_eq_bind, Option.bind_some,
      Bool.false_eq_true, if_false, if_neg allowed]
    exact linked
  · rw [shape.size, size]
  · rw [shape.key]
    exact newKey
  · rw [shape.height]
    exact newHeight
  · rw [shape.key, shape.height]
    exact oldNodes
  · rw [shape.maxHeight]
    show (if height > list.maxHeight then height else list.maxHeight) = _
    split <;> omega
  · intro level other
    rw [slots, next]
    rfl

end Insert

/-- The loop of the constructor nulls the levels it has passed. -/
theorem clearLevels_spec {node : NodePtr} {count : Nat} (within : count ≤ list.height node) :
    ∃ after, (List.range count).foldlM (fun list level => list.setNext level node none) list =
        some after ∧ SameShape list after ∧
      ∀ level < count, after.next level node = some none := by
  induction count with
  | zero => exact ⟨list, rfl, SameShape.refl list, by simp⟩
  | succ count ih =>
      obtain ⟨middle, ran, shape, cleared⟩ := ih (by omega)
      have tower : count < middle.height node := shape.height ▸ within
      obtain ⟨after, written, lastShape, slots⟩ := setNext_spec tower none
      refine ⟨after, ?_, shape.trans lastShape, fun level lt => ?_⟩
      · rw [List.range_succ, List.foldlM_append, ran]
        simp [written]
      · rw [slots]
        by_cases last : level = count
        · rw [if_pos ⟨last, rfl⟩]
        · rw [if_neg fun both => last both.1, cleared level (by omega)]

theorem new_layered : ∃ list : SkipList Key, new = some list ∧ Layered compare list [] := by
  obtain ⟨list, made, shape, cleared⟩ :=
    @clearLevels_spec Key (newNode ⟨[], 1⟩ none kMaxHeight).2 headPtr kMaxHeight
      (by simp [newNode, height, headPtr])
  refine ⟨list, made, by simp, ?_, by simp, List.Pairwise.nil, ?_, cleared, shape.maxHeight⟩
  · intro node
    rw [shape.size]
    simp only [newNode, List.map_nil, List.not_mem_nil, false_iff, List.nil_append,
      List.length_singleton]
    unfold headPtr
    omega
  · rw [shape.height]
    simp [newNode, height, headPtr]

/-- Any insertions of different keys lead to a layered list of exactly these keys, each
with its height. -/
theorem insertAll_layered (order : ThreeWay compare) (calls : List (Key × Nat))
    (tall : ∀ call ∈ calls, 0 < call.2 ∧ call.2 ≤ kMaxHeight)
    (distinct : calls.Pairwise fun left right => compare left.1 right.1 ≠ 0) :
    ∃ list rows, insertAll compare calls = some list ∧ Layered compare list rows ∧
      (rows.map fun row => (row.key, row.height)).Perm calls := by
  induction calls using List.reverseRecOn with
  | nil =>
      obtain ⟨list, made, layered⟩ := @new_layered Key compare
      exact ⟨list, [], by simp [insertAll, made], layered, List.Perm.nil⟩
  | append_singleton calls call ih =>
      obtain ⟨earlier, -, across⟩ := List.pairwise_append.mp distinct
      obtain ⟨list, rows, ran, layered, perm⟩ :=
        ih (fun other member => tall other (List.mem_append_left _ member)) earlier
      obtain ⟨front, back, rfl, below, beyond⟩ :=
        order.split_increasing layered.increasing call.1
      have new : ∀ row ∈ front ++ back, compare call.1 row.key ≠ 0 := by
        intro row member equal
        have called : (row.key, row.height) ∈ calls :=
          perm.mem_iff.mp (List.mem_map_of_mem member)
        exact across _ called call (by simp) (order.zero_comm.mp equal)
      obtain ⟨after, inserted, relayered⟩ :=
        insert_spec order layered below beyond new (tall call (by simp))
      refine ⟨after, _, ?_, relayered, ?_⟩
      · unfold insertAll at ran ⊢
        cases made : (SkipList.new : Option (SkipList Key)) with
        | none => simp [made] at ran
        | some start =>
            simp only [made, Option.bind_eq_bind, Option.bind_some] at ran ⊢
            rw [List.foldlM_append, ran]
            simp [inserted]
      · rw [List.map_append, List.map_cons]
        refine List.perm_middle.trans (List.Perm.trans (List.Perm.cons _ ?_)
          (List.perm_append_singleton call calls).symm)
        rwa [List.map_append] at perm

/-- The keys of the nodes increase strictly. -/
def Increasing (compare : Key → Key → Int) (list : SkipList Key) (nodes : List NodePtr) : Prop :=
  nodes.Pairwise fun left right => ∃ leftKey rightKey,
    list.key left = some leftKey ∧ list.key right = some rightKey ∧ compare leftKey rightKey < 0

namespace Layered

variable {rows : List (Row Key)} {level : Nat}

theorem layer_increasing (layered : Layered compare list rows) :
    Increasing compare list (layer rows level) := by
  unfold Increasing layer
  rw [List.pairwise_map]
  refine List.Pairwise.imp_of_mem ?_ (layered.increasing.sublist List.filter_sublist)
  intro left right leftMember rightMember less
  exact ⟨left.key, right.key,
    (layered.stored left (List.mem_of_mem_filter leftMember)).1,
    (layered.stored right (List.mem_of_mem_filter rightMember)).1, less⟩

/-- A level shows exactly the nodes whose height exceeds it. -/
theorem mem_layer_iff (layered : Layered compare list rows) (node : NodePtr) :
    node ∈ layer rows level ↔ node ≠ headPtr ∧ level < list.height node := by
  constructor
  · intro member
    obtain ⟨row, shown, rfl⟩ := List.mem_map.mp member
    obtain ⟨present, tall⟩ := List.mem_filter.mp shown
    refine ⟨((layered.present row.node).mp (List.mem_map_of_mem present)).1, ?_⟩
    rw [(layered.stored row present).2]
    simpa using tall
  · rintro ⟨other, tall⟩
    obtain ⟨row, present, rfl⟩ := List.mem_map.mp
      ((layered.present node).mpr ⟨other, lt_size_of_lt_height tall⟩)
    rw [(layered.stored row present).2] at tall
    exact List.mem_map_of_mem (List.mem_filter.mpr ⟨present, by simpa using tall⟩)

/-- The bottom level shows every key with its height. -/
theorem layer_zero_contents (layered : Layered compare list rows) :
    ((layer rows 0).map fun node => (list.key node, list.height node)) =
      (rows.map fun row => (row.key, row.height)).map fun call => (some call.1, call.2) := by
  rw [layer_zero fun row member => (layered.tall row member).1, List.map_map, List.map_map]
  apply List.map_congr_left
  intro row member
  have stored := layered.stored row member
  simp [stored.1, stored.2]

theorem maxHeight_of_perm (layered : Layered compare list rows) {calls : List (Key × Nat)}
    (perm : (rows.map fun row => (row.key, row.height)).Perm calls) :
    list.maxHeight = (calls.map Prod.snd).foldr max 1 := by
  have heights : (rows.map Row.height).Perm (calls.map Prod.snd) := by
    have := perm.map Prod.snd
    rwa [List.map_map] at this
  rw [layered.maxHeight]
  exact heights.foldr_op_eq

end Layered

/-- A skip list is the finite set of the keys inserted into it. After every insertion
each level is a strictly increasing chain of exactly the nodes tall enough for it, the
bottom one shows every key once with the height it was given, `max_height_` is the
greatest height, `head_` has nothing above it, and `Contains` answers by the set. -/
theorem insertAll_refines (order : ThreeWay compare) (calls : List (Key × Nat))
    (tall : ∀ call ∈ calls, 0 < call.2 ∧ call.2 ≤ kMaxHeight)
    (distinct : calls.Pairwise fun left right => compare left.1 right.1 ≠ 0) :
    ∀ done, done <+: calls → ∃ (list : SkipList Key) (nodes : Nat → List NodePtr),
      insertAll compare done = some list ∧
      (∀ level < kMaxHeight,
        Chain (list.next level) id headPtr (nodes level) ∧
        Increasing compare list (nodes level) ∧
        ∀ node, node ∈ nodes level ↔ node ≠ headPtr ∧ level < list.height node) ∧
      ((nodes 0).map fun node => (list.key node, list.height node)).Perm
        (done.map fun call => (some call.1, call.2)) ∧
      (∀ level, (nodes (level + 1)).Sublist (nodes level)) ∧
      list.maxHeight = (done.map Prod.snd).foldr max 1 ∧
      (∀ level, list.maxHeight ≤ level → level < kMaxHeight →
        list.next level headPtr = some none) ∧
      ∀ key, contains compare list key =
        some (decide (∃ call ∈ done, compare key call.1 = 0)) := by
  rintro done ⟨later, rfl⟩
  obtain ⟨list, rows, ran, layered, perm⟩ := insertAll_layered order done
    (fun call member => tall call (List.mem_append_left _ member))
    (List.pairwise_append.mp distinct).1
  refine ⟨list, layer rows, ran, ?_, ?_, layer_sublist rows, layered.maxHeight_of_perm perm,
    ?_, ?_⟩
  · intro level within
    exact ⟨layered.chains level within, layered.layer_increasing, layered.mem_layer_iff⟩
  · rw [layered.layer_zero_contents]
    exact perm.map _
  · intro level above within
    have chain := layered.chains level within
    rwa [layered.layer_above above] at chain
  · intro key
    rw [contains_spec order layered]
    refine congrArg some (decide_eq_decide.mpr ⟨?_, ?_⟩)
    · rintro ⟨row, member, equal⟩
      exact ⟨_, perm.mem_iff.mp (List.mem_map_of_mem member), equal⟩
    · rintro ⟨call, member, equal⟩
      obtain ⟨row, present, rfl⟩ := List.mem_map.mp (perm.mem_iff.mpr member)
      exact ⟨row, present, equal⟩

/-- Three numbers, one of them as tall as a node gets. -/
theorem insertAll_refines_three :
    ∃ list, insertAll (fun left right : Int => left - right) [(5, 2), (3, 12), (9, 1)] =
        some list ∧ list.maxHeight = 12 ∧
      contains (fun left right : Int => left - right) list 9 = some true := by
  have order : ThreeWay fun left right : Int => left - right :=
    ⟨by intros; omega, by intros; omega⟩
  obtain ⟨list, -, ran, -, -, -, highest, -, answers⟩ :=
    insertAll_refines order [(5, 2), (3, 12), (9, 1)] (by decide) (by decide) _
      (List.prefix_refl _)
  exact ⟨list, ran, highest, answers 9⟩

end SkipList

end MiniLevelDb
