import MiniLevelDb.Db.SkipListLayers
import MiniLevelDb.Db.SkipListThreads

/-!
# Readers beside a writer

While a node is linked in, level by level from the bottom, the levels up to some height
show it and the others do not yet. So at every moment the list stands for rows as it does
between insertions, only that the height of a row is the number of levels the node is
linked on so far; `max_height_` may be ahead of all of them. Rows come and grow and never
go, so a reader keeps standing at a row below its target that its level shows.
-/

namespace MiniLevelDb

open Foundation

namespace SkipList

variable {Key : Type} {compare : Key → Key → Int} {list after : SkipList Key}
  {rows front back : List (Row Key)}

/-- The nodes that are linked, each on as many levels as its row is high. -/
structure Linked (compare : Key → Key → Int) (list : SkipList Key) (rows : List (Row Key)) :
    Prop where
  stored : ∀ row ∈ rows, list.key row.node = some row.key
  present : ∀ row ∈ rows, row.node ≠ headPtr ∧ row.node < list.nodes.length
  tall : ∀ row ∈ rows, 0 < row.height ∧ row.height ≤ list.maxHeight
  increasing : rows.Pairwise fun left right => compare left.key right.key < 0
  chains : ∀ level < kMaxHeight, Chain (list.next level) id headPtr (layer rows level)
  maxHeight : 1 ≤ list.maxHeight ∧ list.maxHeight ≤ kMaxHeight

/-- A key splits the rows into those before it and the others. -/
structure Splits (compare : Key → Key → Int) (key : Key) (rows front back : List (Row Key)) :
    Prop where
  whole : rows = front ++ back
  below : ∀ row ∈ front, compare row.key key < 0
  beyond : ∀ row ∈ back, ¬ compare row.key key < 0

/-- The search is at `head_` or at a row below its key that its level shows. -/
def Standing (compare : Key → Key → Int) (rows : List (Row Key)) (search : Search Key) : Prop :=
  search.level < kMaxHeight ∧
    (search.x = headPtr ∨ ∃ row ∈ rows, row.node = search.x ∧ search.level < row.height ∧
      compare row.key search.key < 0)

theorem Splits.exists (order : ThreeWay compare)
    (increasing : rows.Pairwise fun left right => compare left.key right.key < 0) (key : Key) :
    ∃ front back, Splits compare key rows front back := by
  obtain ⟨front, back, whole, below, beyond⟩ := order.split_increasing increasing key
  exact ⟨front, back, whole, below, beyond⟩

/-- One level down a search stands at the same node. -/
theorem Standing.down {search : Search Key} {prev : Option Prev} {lower : Nat}
    (standing : Standing compare rows search) (level : search.level = lower + 1) :
    Standing compare rows { search with level := lower, prev := prev } := by
  obtain ⟨within, at_⟩ := standing
  rw [level] at within
  refine ⟨Nat.lt_of_succ_lt within, at_.imp_right ?_⟩
  rintro ⟨row, member, same, shown, less⟩
  rw [level] at shown
  exact ⟨row, member, same, Nat.lt_of_succ_lt shown, less⟩

/-- Where a search stands, on the level it is on. -/
theorem Standing.mem {search : Search Key} (standing : Standing compare rows search)
    (splits : Splits compare search.key rows front back) :
    search.x ∈ headPtr :: layer front search.level := by
  rcases standing.2 with atHead | ⟨row, member, same, shown, less⟩
  · exact atHead ▸ List.mem_cons_self
  · refine List.mem_cons_of_mem _ (List.mem_map.mpr ⟨row, List.mem_filter.mpr ⟨?_, ?_⟩, same⟩)
    · rw [splits.whole] at member
      rcases List.mem_append.mp member with before | behind
      · exact before
      · exact absurd less (splits.beyond row behind)
    · exact decide_eq_true shown

theorem Standing.of_mem {search : Search Key}
    (splits : Splits compare search.key rows front back) (within : search.level < kMaxHeight)
    (member : search.x ∈ headPtr :: layer front search.level) :
    Standing compare rows search := by
  refine ⟨within, ?_⟩
  rcases List.mem_cons.mp member with atHead | member
  · exact .inl atHead
  · obtain ⟨row, shown, same⟩ := List.mem_map.mp member
    obtain ⟨listed, tall⟩ := List.mem_filter.mp shown
    refine .inr ⟨row, ?_, same, of_decide_eq_true tall, splits.below row listed⟩
    rw [splits.whole]
    exact List.mem_append_left _ listed

/-- What one round of a search does: a step to the right below the key, or, at the place
of the key on its level, a step down or the return. -/
theorem Linked.round_cases {search : Search Key} (linked : Linked compare list rows)
    (splits : Splits compare search.key rows front back)
    (standing : Standing compare rows search) :
    (∃ next, list.next search.level search.x = some next) ∧
    ((∃ x ∈ layer front search.level,
        search.round compare list = some (.inl { search with x := x })) ∨
      (search.x = spot front search.level ∧
        search.round compare list =
          (recordPrev search.level search.x search.prev).bind fun prev =>
            match search.level with
            | 0 => some (.inr (back.head?.map Row.node, prev))
            | level + 1 => some (.inl { search with level := level, prev := prev }))) := by
  have passed : search.x ∈ headPtr :: (layer front search.level).map id := by
    rw [List.map_id]
    exact standing.mem splits
  obtain ⟨ahead, rest, split, place⟩ := exists_endSlot passed
  have chain := linked.chains search.level standing.1
  rw [splits.whole, layer_append, split, List.append_assoc] at chain
  have read := Chain.read_head (Segment.drop chain)
  rw [place] at read
  refine ⟨⟨_, read⟩, ?_⟩
  cases rest with
  | cons x rest =>
      have member : x ∈ layer front search.level := by
        rw [split]
        simp
      obtain ⟨row, listed, rfl⟩ := List.mem_map.mp member
      have stored := linked.stored row (by
        rw [splits.whole]
        exact List.mem_append_left _ (List.mem_of_mem_filter listed))
      have less := splits.below row (List.mem_of_mem_filter listed)
      refine .inl ⟨row.node, member, ?_⟩
      simp only [Search.round, read, List.cons_append, List.head?_cons, keyIsAfterNode, stored,
        Option.map_some, decide_eq_true less, Option.bind_eq_bind, Option.bind_some, if_true]
  | nil =>
      rw [List.append_nil] at split
      rw [List.nil_append] at read
      have stop : keyIsAfterNode compare list search.key (layer back search.level).head? =
          some false := by
        cases visible : (layer back search.level).head? with
        | none => rfl
        | some node =>
            obtain ⟨row, member, rfl⟩ := mem_of_layer_head? visible
            have stored := linked.stored row (by
              rw [splits.whole]
              exact List.mem_append_right _ member)
            rw [keyIsAfterNode, stored, Option.map_some, decide_eq_false (splits.beyond row member)]
      refine .inr ⟨by rw [spot, split, place], ?_⟩
      simp only [Search.round, read, stop, Option.bind_eq_bind, Option.bind_some,
        Bool.false_eq_true, if_false]
      refine Option.bind_congr fun prev _ => ?_
      cases level : search.level with
      | zero =>
          have first : (layer back 0).head? = back.head?.map Row.node := by
            rw [layer_zero fun row member => (linked.tall row (by
              rw [splits.whole]
              exact List.mem_append_right _ member)).1, List.head?_map]
          simp only [first]
      | succ lower => rfl

theorem Linked.start_standing (linked : Linked compare list rows) (key : Key)
    (prev : Option Prev) : Standing compare rows (Search.start list key prev) := by
  have := linked.maxHeight
  refine ⟨?_, .inl rfl⟩
  show list.maxHeight - 1 < kMaxHeight
  omega

/-- Rows come and grow, with their node and key. -/
def Grows (rows later : List (Row Key)) : Prop :=
  ∀ row ∈ rows, ∃ grown ∈ later,
    grown.node = row.node ∧ grown.key = row.key ∧ row.height ≤ grown.height

theorem Grows.refl (rows : List (Row Key)) : Grows rows rows :=
  fun row member => ⟨row, member, rfl, rfl, Nat.le_refl _⟩

theorem Grows.trans {rows middle later : List (Row Key)} (first : Grows rows middle)
    (second : Grows middle later) : Grows rows later := by
  intro row member
  obtain ⟨grown, listed, node, key, height⟩ := first row member
  obtain ⟨last, found, lastNode, lastKey, lastHeight⟩ := second grown listed
  exact ⟨last, found, lastNode.trans node, lastKey.trans key, Nat.le_trans height lastHeight⟩

theorem Standing.mono {later : List (Row Key)} {search : Search Key}
    (standing : Standing compare rows search) (grows : Grows rows later) :
    Standing compare later search := by
  refine ⟨standing.1, standing.2.imp_right ?_⟩
  rintro ⟨row, member, same, shown, less⟩
  obtain ⟨grown, listed, node, key, height⟩ := grows row member
  exact ⟨grown, listed, node.trans same, Nat.lt_of_lt_of_le shown height, key ▸ less⟩

/-- What holds of a reader at any time. -/
def Reader.Placed (compare : Key → Key → Int) (rows : List (Row Key)) : Reader Key → Prop
  | .searching search => search.prev = none ∧ Standing compare rows search
  | _ => True

theorem Reader.Placed.mono {later : List (Row Key)} {reader : Reader Key}
    (placed : reader.Placed compare rows) (grows : Grows rows later) :
    reader.Placed compare later := by
  cases reader with
  | searching search => exact ⟨placed.1, placed.2.mono grows⟩
  | idle => trivial
  | entering target => trivial
  | returned target result => trivial

/-- A step of a reader has a result, and where the search returns, it is the first row
that is not before its target. -/
theorem Linked.reader_step (order : ThreeWay compare) (linked : Linked compare list rows)
    {reader : Reader Key} (placed : reader.Placed compare rows) (busy : reader.Busy) :
    ∃ later, reader.step compare list = some later ∧ later.Placed compare rows ∧
      ∀ target result, later = .returned target result →
        ∃ front back, Splits compare target rows front back ∧
          result = back.head?.map Row.node := by
  cases reader with
  | idle => exact busy.elim
  | returned target result => exact busy.elim
  | entering target =>
      refine ⟨_, rfl, ⟨rfl, linked.start_standing target none⟩, ?_⟩
      intro target result same
      cases same
  | searching search =>
      obtain ⟨unrecorded, standing⟩ := placed
      obtain ⟨front, back, splits⟩ := Splits.exists order linked.increasing search.key
      obtain ⟨-, ⟨x, member, moved⟩ | ⟨place, stopped⟩⟩ := linked.round_cases splits standing
      · refine ⟨.searching { search with x := x }, ?_, ⟨unrecorded, ?_⟩, ?_⟩
        · simp only [Reader.step, moved, Option.bind_eq_bind, Option.bind_some]
        · exact @Standing.of_mem _ _ _ _ _ { search with x := x } splits standing.1
            (List.mem_cons_of_mem _ member)
        · intro target result same
          cases same
      · rw [unrecorded, recordPrev, Option.bind_some] at stopped
        cases level : search.level with
        | zero =>
            rw [level] at stopped
            refine ⟨.returned search.key (back.head?.map Row.node), ?_, trivial, ?_⟩
            · simp only [Reader.step, stopped, Option.bind_eq_bind, Option.bind_some]
            · intro target result same
              cases same
              exact ⟨front, back, splits, rfl⟩
        | succ lower =>
            rw [level] at stopped
            refine ⟨.searching { search with level := lower, prev := none }, ?_, ⟨rfl, ?_⟩, ?_⟩
            · simp only [Reader.step, stopped, Option.bind_eq_bind, Option.bind_some]
            · exact standing.down level
            · intro target result same
              cases same

/-- The rows with one that is linked on none of the levels yet, or on some. -/
def withRow (front back : List (Row Key)) (row : Row Key) : List (Row Key) :=
  if row.height = 0 then front ++ back else front ++ row :: back

theorem layer_withRow (row : Row Key) (level : Nat) :
    layer (withRow front back row) level =
      layer front level ++ ((if level < row.height then [row.node] else []) ++
        layer back level) := by
  unfold withRow
  split
  · rw [if_neg (by omega), layer_append, List.nil_append]
  · rw [layer_append, layer_cons]
    split <;> rfl

theorem mem_withRow {row other : Row Key} (member : other ∈ withRow front back row) :
    other ∈ front ++ back ∨ other = row := by
  unfold withRow at member
  split at member
  · exact .inl member
  · simp only [List.mem_append, List.mem_cons] at member ⊢
    rcases member with before | same | behind
    · exact .inl (.inl before)
    · exact .inr same
    · exact .inl (.inr behind)

/-- What a call that is under way was given and has still to do. -/
structure Admitted (compare : Key → Key → Int) (rows : List (Row Key)) (begun : List Key)
    (call : Call Key) : Prop where
  tall : 0 < call.height ∧ call.height ≤ kMaxHeight
  last : begun.head? = some call.key
  fresh : ∀ row ∈ rows, compare call.key row.key ≠ 0

/-- `prev` holds the place behind `front` on every level below the bound. -/
def Places (front : List (Row Key)) (bound : Nat) (prev : Prev) : Prop :=
  ∀ level < bound, prev[level]? = some (some (spot front level))

/-- The node `x` is linked on the levels below `level`, between `front` and `back`. -/
structure Linking (compare : Key → Key → Int) (list : SkipList Key)
    (rows front back : List (Row Key)) (begun : List Key) (call : Call Key) (x : NodePtr)
    (prev : Prev) (level : Nat) : Prop where
  whole : rows = withRow front back ⟨x, call.key, level⟩
  admitted : Admitted compare (front ++ back) begun call
  below : ∀ row ∈ front, compare row.key call.key < 0
  beyond : ∀ row ∈ back, ¬ compare row.key call.key < 0
  places : Places front call.height prev
  within : level < call.height
  raised : call.height ≤ list.maxHeight
  key : list.key x = some call.key
  height : list.height x = call.height
  inside : x ≠ headPtr ∧ x ∉ (front ++ back).map Row.node

namespace Writer

/-- What holds of the writer at any time. -/
def Placed (compare : Key → Key → Int) (list : SkipList Key) (rows : List (Row Key))
    (begun : List Key) : Writer Key → Prop
  | idle => True
  | entering call => Admitted compare rows begun call
  | searching call search => Admitted compare rows begun call ∧ search.key = call.key ∧
      Standing compare rows search ∧
      ∃ front back prev, Splits compare call.key rows front back ∧ search.prev = some prev ∧
        prev.length = kMaxHeight ∧ ∀ level, search.level < level → level < list.maxHeight →
          prev[level]? = some (some (spot front level))
  | measuring call prev => Admitted compare rows begun call ∧ prev.length = kMaxHeight ∧
      ∃ front back, Splits compare call.key rows front back ∧ Places front list.maxHeight prev
  | raising call prev => Admitted compare rows begun call ∧ prev.length = kMaxHeight ∧
      list.maxHeight < call.height ∧
      ∃ front back, Splits compare call.key rows front back ∧ Places front list.maxHeight prev
  | storing call prev => Admitted compare rows begun call ∧ list.maxHeight < call.height ∧
      ∃ front back, Splits compare call.key rows front back ∧ Places front call.height prev
  | loading call x prev level =>
      ∃ front back, Linking compare list rows front back begun call x prev level
  | filling call x prev level successor =>
      ∃ front back, Linking compare list rows front back begun call x prev level ∧
        successor = (layer back level).head?
  | joining call x prev level =>
      ∃ front back, Linking compare list rows front back begun call x prev level ∧
        list.next level x = some (layer back level).head?

end Writer

namespace Linked

/-- A node that is allocated is not linked yet. -/
theorem allocated (linked : Linked compare list rows) (call : Call Key) :
    Linked compare (newNode list (some call.key) call.height).2 rows := by
  obtain ⟨next, size, -, -, oldNodes⟩ := newNode_spec list call.key call.height
  refine ⟨?_, ?_, linked.tall, linked.increasing, ?_, linked.maxHeight⟩
  · intro row member
    rw [(oldNodes row.node (linked.present row member).2).1]
    exact linked.stored row member
  · intro row member
    rw [size]
    exact ⟨(linked.present row member).1, Nat.lt_succ_of_lt (linked.present row member).2⟩
  · rw [next]
    exact linked.chains

/-- Readers may see a new `max_height_` before any node that is as high. -/
theorem raised (linked : Linked compare list rows) {height : Nat}
    (taller : list.maxHeight < height) (top : height ≤ kMaxHeight) :
    Linked compare { list with maxHeight := height } rows where
  stored := linked.stored
  present := linked.present
  tall row member := ⟨(linked.tall row member).1,
    Nat.le_trans (linked.tall row member).2 (Nat.le_of_lt taller)⟩
  increasing := linked.increasing
  chains := linked.chains
  maxHeight := ⟨Nat.le_trans linked.maxHeight.1 (Nat.le_of_lt taller), top⟩

/-- A store to a slot no level passes changes nothing. -/
theorem frame (linked : Linked compare list rows) (shape : SameShape list after)
    (slots : ∀ level, ∀ slot ∈ headPtr :: layer rows level,
      after.next level slot = list.next level slot) : Linked compare after rows where
  stored := by
    rw [shape.key]
    exact linked.stored
  present := by
    rw [shape.size]
    exact linked.present
  tall := by
    rw [shape.maxHeight]
    exact linked.tall
  increasing := linked.increasing
  chains level within := by
    refine (linked.chains level within).congr ?_
    rw [List.map_id]
    exact slots level
  maxHeight := by
    rw [shape.maxHeight]
    exact linked.maxHeight

end Linked

namespace Linking

variable {begun : List Key} {call : Call Key} {x : NodePtr} {prev : Prev} {level : Nat}

/-- The level the node is linked on next does not show it yet. -/
theorem layer_eq (linking : Linking compare list rows front back begun call x prev level) :
    layer rows level = layer front level ++ layer back level := by
  rw [linking.whole, layer_withRow, if_neg (Nat.lt_irrefl _), List.nil_append]

theorem top (linking : Linking compare list rows front back begun call x prev level) :
    level < kMaxHeight :=
  Nat.lt_of_lt_of_le linking.within linking.admitted.tall.2

/-- What stands at the place of the key on the next level. -/
theorem next_place (linking : Linking compare list rows front back begun call x prev level)
    (linked : Linked compare list rows) :
    list.next level (spot front level) = some (layer back level).head? := by
  have chain := linked.chains level linking.top
  rw [linking.layer_eq] at chain
  exact Chain.read_head (Segment.drop chain)

theorem outside (linking : Linking compare list rows front back begun call x prev level) :
    x ∉ headPtr :: (front ++ back).map Row.node :=
  List.not_mem_cons_of_ne_of_not_mem linking.inside.1 linking.inside.2

/-- The two stores of a level change neither the keys nor the heights. -/
theorem frame (linking : Linking compare list rows front back begun call x prev level)
    (shape : SameShape list after) :
    Linking compare after rows front back begun call x prev level :=
  { linking with
    raised := shape.maxHeight ▸ linking.raised
    key := shape.key ▸ linking.key
    height := shape.height ▸ linking.height }

theorem sublist (linking : Linking compare list rows front back begun call x prev level) :
    (front ++ back).Sublist rows := by
  rw [linking.whole, withRow]
  split
  · exact List.Sublist.refl _
  · exact (List.Sublist.refl _).append (List.sublist_cons_self _ _)

/-- With the second store of a level the node is linked on one level more. -/
theorem joined (linking : Linking compare list rows front back begun call x prev level)
    (order : ThreeWay compare) (linked : Linked compare list rows)
    (filled : list.next level x = some (layer back level).head?) (shape : SameShape list after)
    (slots : ∀ otherLevel other, after.next otherLevel other =
      if otherLevel = level ∧ other = spot front level then some (some x)
      else list.next otherLevel other) :
    Linked compare after (front ++ ⟨x, call.key, level + 1⟩ :: back) := by
  have members : ∀ row ∈ front ++ (⟨x, call.key, level + 1⟩ : Row Key) :: back,
      row ∈ rows ∨ row = ⟨x, call.key, level + 1⟩ := by
    intro row member
    rcases List.mem_cons.mp (List.perm_middle.mem_iff.mp member) with same | old
    · exact .inr same
    · exact .inl (linking.sublist.subset old)
  refine ⟨?_, ?_, ?_, ?_, ?_, shape.maxHeight ▸ linked.maxHeight⟩
  · rw [shape.key]
    intro row member
    rcases members row member with member | rfl
    · exact linked.stored row member
    · exact linking.key
  · rw [shape.size]
    intro row member
    rcases members row member with member | rfl
    · exact linked.present row member
    · exact ⟨linking.inside.1, lt_size_of_lt_height (linking.height ▸ linking.within)⟩
  · rw [shape.maxHeight]
    intro row member
    rcases members row member with member | rfl
    · exact linked.tall row member
    · exact ⟨Nat.succ_pos _, Nat.le_trans linking.within linking.raised⟩
  · exact order.insert_increasing (linked.increasing.sublist linking.sublist) linking.below
      linking.beyond fun row member => linking.admitted.fresh row (List.mem_append_right _ member)
  · intro otherLevel within
    have chain := linked.chains otherLevel within
    have shows : layer (front ++ (⟨x, call.key, level + 1⟩ : Row Key) :: back) otherLevel =
        layer front otherLevel ++
          ((if otherLevel < level + 1 then [x] else []) ++ layer back otherLevel) :=
      @layer_withRow _ front back ⟨x, call.key, level + 1⟩ otherLevel
    rw [shows]
    by_cases same : otherLevel = level
    · subst same
      rw [linking.layer_eq] at chain
      rw [if_pos (Nat.lt_succ_self _), List.singleton_append]
      refine chain_linked chain linking.outside ?_ ?_ ?_
      · exact (slots _ _).trans (if_pos ⟨rfl, rfl⟩)
      · intro apart
        rw [slots, if_neg fun both => apart both.2, filled]
      · intro other notPlace _
        rw [slots, if_neg fun both => notPlace both.2]
    · -- a level further down has shown the node before, one further up does not yet
      have kept : layer rows otherLevel = layer front otherLevel ++
          ((if otherLevel < level + 1 then [x] else []) ++ layer back otherLevel) := by
        rw [linking.whole, layer_withRow]
        by_cases lower : otherLevel < level
        · rw [if_pos lower, if_pos (Nat.lt_succ_of_lt lower)]
        · rw [if_neg lower, if_neg (by omega)]
      rw [kept] at chain
      refine chain.congr fun other _ => ?_
      rw [slots, if_neg fun both => same both.1]

end Linking

namespace Writer

variable {begun : List Key} {call : Call Key} {prev : Prev}

/-- The next step of the writer has a result. The rows grow by at most the row of the
key that is being inserted, which is there when the call returns. -/
def Proceeds (compare : Key → Key → Int) (list : SkipList Key) (rows : List (Row Key))
    (begun : List Key) (writer : Writer Key) : Prop :=
  ∃ after later grown, writer.step compare list = some (after, later) ∧
    Linked compare after grown ∧ later.Placed compare after grown begun ∧ Grows rows grown ∧
    (∀ row ∈ grown, row.key ∈ rows.map Row.key ∨ begun.head? = some row.key) ∧
    (later = .idle → ∃ row ∈ grown, begun.head? = some row.key)

/-- A step that leaves the rows as they are and does not end the call. -/
theorem Proceeds.same {writer later : Writer Key}
    (stepped : writer.step compare list = some (after, later))
    (linked : Linked compare after rows) (placed : later.Placed compare after rows begun)
    (active : later ≠ .idle) : Proceeds compare list rows begun writer :=
  ⟨after, later, rows, stepped, linked, placed, Grows.refl rows,
    fun _ member => .inl (List.mem_map_of_mem member), fun ended => absurd ended active⟩

/-- A new node is linked nowhere. -/
theorem allocate_linking (linked : Linked compare list rows)
    (admitted : Admitted compare rows begun call) (splits : Splits compare call.key rows front back)
    (places : Places front call.height prev) (raised : call.height ≤ list.maxHeight) :
    Linking compare (newNode list (some call.key) call.height).2 rows front back begun call
      list.nodes.length prev 0 := by
  obtain ⟨next, -, newKey, newHeight, -⟩ := newNode_spec list call.key call.height
  have whole := splits.whole
  refine ⟨whole, whole ▸ admitted, splits.below, splits.beyond, places, admitted.tall.1, raised,
    newKey, newHeight, ?_, ?_⟩
  · have read := Chain.read_head (linked.chains 0 (by decide))
    have positive := lt_size_of_lt_height (lt_height_of_next read)
    exact Nat.ne_of_gt positive
  · rw [← whole]
    intro member
    obtain ⟨row, listed, same⟩ := List.mem_map.mp member
    exact Nat.lt_irrefl _ (same ▸ (linked.present row listed).2)

theorem measuring_proceeds (linked : Linked compare list rows)
    (placed : (measuring call prev).Placed compare list rows begun) :
    Proceeds compare list rows begun (.measuring call prev) := by
  obtain ⟨admitted, room, front, back, splits, places⟩ := placed
  by_cases taller : call.height > list.maxHeight
  · exact .same (if_pos taller) linked ⟨admitted, room, taller, front, back, splits, places⟩
      (by simp)
  · have low := Nat.le_of_not_lt taller
    refine .same (if_neg taller) (linked.allocated call) ⟨front, back, ?_⟩ (by simp)
    exact allocate_linking linked admitted splits
      (fun level lt => places level (Nat.lt_of_lt_of_le lt low)) low

theorem raising_proceeds (linked : Linked compare list rows)
    (placed : (raising call prev).Placed compare list rows begun) :
    Proceeds compare list rows begun (.raising call prev) := by
  obtain ⟨admitted, room, taller, front, back, splits, places⟩ := placed
  have nobody : ∀ level, list.maxHeight ≤ level → layer front level = [] := by
    intro level above
    refine layer_eq_nil_iff.mpr fun row member => Nat.le_trans (linked.tall row ?_).2 above
    rw [splits.whole]
    exact List.mem_append_left _ member
  obtain ⟨ready, raised, filled⟩ := places_ready nobody room admitted.tall.2 places
  refine @Proceeds.same _ _ _ list _ _ _ (.storing call ready) ?_ linked
    ⟨admitted, taller, front, back, splits, filled⟩ (by simp)
  simp only [step, raised, Option.bind_eq_bind, Option.bind_some]

theorem storing_proceeds (linked : Linked compare list rows)
    (placed : (storing call prev).Placed compare list rows begun) :
    Proceeds compare list rows begun (.storing call prev) := by
  obtain ⟨admitted, taller, front, back, splits, places⟩ := placed
  have raised := linked.raised taller admitted.tall.2
  exact .same rfl (raised.allocated call)
    ⟨front, back, allocate_linking raised admitted splits places (Nat.le_refl _)⟩ (by simp)

theorem loading_proceeds {x : NodePtr} {level : Nat} (linked : Linked compare list rows)
    (placed : (loading call x prev level).Placed compare list rows begun) :
    Proceeds compare list rows begun (.loading call x prev level) := by
  obtain ⟨front, back, linking⟩ := placed
  refine @Proceeds.same _ _ _ list _ _ _ (.filling call x prev level (layer back level).head?) ?_
    linked ⟨front, back, linking, rfl⟩ (by simp)
  simp only [step, linking.places level linking.within, Option.join_some,
    linking.next_place linked, Option.bind_eq_bind, Option.bind_some]

theorem filling_proceeds {x : NodePtr} {level : Nat} {successor : Option NodePtr}
    (linked : Linked compare list rows)
    (placed : (filling call x prev level successor).Placed compare list rows begun) :
    Proceeds compare list rows begun (.filling call x prev level successor) := by
  obtain ⟨front, back, linking, rfl⟩ := placed
  have within : level < list.height x := linking.height ▸ linking.within
  obtain ⟨after, written, shape, slots⟩ := setNext_spec within (layer back level).head?
  have framed : Linked compare after rows := by
    refine linked.frame shape fun otherLevel slot passed => ?_
    rw [slots]
    refine if_neg ?_
    rintro ⟨rfl, rfl⟩
    rw [linking.layer_eq] at passed
    exact not_mem_layers linking.outside _ passed
  refine @Proceeds.same _ _ _ after _ _ _ (.joining call x prev level) ?_ framed
    ⟨front, back, linking.frame shape, ?_⟩ (by simp)
  · simp only [step, written, Option.bind_eq_bind, Option.bind_some]
  · rw [slots, if_pos ⟨rfl, rfl⟩]

theorem joining_proceeds {x : NodePtr} {level : Nat} (order : ThreeWay compare)
    (linked : Linked compare list rows)
    (placed : (joining call x prev level).Placed compare list rows begun) :
    Proceeds compare list rows begun (.joining call x prev level) := by
  obtain ⟨front, back, linking, filled⟩ := placed
  obtain ⟨after, written, shape, slots⟩ :=
    setNext_spec (lt_height_of_next (linking.next_place linked)) (some x)
  have joined := linking.joined order linked filled shape slots
  have grows : Grows rows (front ++ ⟨x, call.key, level + 1⟩ :: back) := by
    intro row member
    rw [linking.whole] at member
    rcases mem_withRow member with old | rfl
    · refine ⟨row, ?_, rfl, rfl, Nat.le_refl _⟩
      simp only [List.mem_append, List.mem_cons] at old ⊢
      exact old.imp_right .inr
    · exact ⟨⟨x, call.key, level + 1⟩, by simp, rfl, rfl, Nat.le_succ _⟩
  have known : ∀ row ∈ front ++ (⟨x, call.key, level + 1⟩ : Row Key) :: back,
      row.key ∈ rows.map Row.key ∨ begun.head? = some row.key := by
    intro row member
    have : row ∈ front ++ back ∨ row = ⟨x, call.key, level + 1⟩ := mem_withRow member
    rcases this with old | rfl
    · exact .inl (List.mem_map_of_mem (linking.sublist.subset old))
    · exact .inr linking.admitted.last
  by_cases more : level + 1 < call.height
  · refine ⟨after, .loading call x prev (level + 1), _, ?_, joined, ⟨front, back, ?_⟩, grows,
      known, by simp⟩
    · simp only [step, linking.places level linking.within, Option.join_some, written,
        Option.bind_eq_bind, Option.bind_some, if_pos more]
    · exact { linking.frame shape with
        whole := rfl
        within := more }
  · refine ⟨after, .idle, _, ?_, joined, trivial, grows, known, fun _ => ?_⟩
    · simp only [step, linking.places level linking.within, Option.join_some, written,
        Option.bind_eq_bind, Option.bind_some, if_neg more]
    · exact ⟨⟨x, call.key, level + 1⟩, by simp, linking.admitted.last⟩

theorem entering_proceeds (order : ThreeWay compare) (linked : Linked compare list rows)
    (admitted : Admitted compare rows begun call) :
    Proceeds compare list rows begun (.entering call) := by
  obtain ⟨front, back, splits⟩ := Splits.exists order linked.increasing call.key
  refine .same rfl linked ⟨admitted, rfl, linked.start_standing _ _, front, back, _, splits, rfl,
    List.length_replicate, ?_⟩ (by simp)
  intro level above below
  have : list.maxHeight - 1 < level := above
  omega

theorem searching_proceeds {search : Search Key} (linked : Linked compare list rows)
    (placed : (searching call search).Placed compare list rows begun) :
    Proceeds compare list rows begun (.searching call search) := by
  obtain ⟨admitted, key, standing, front, back, prev, splits, recorded, room, filled⟩ := placed
  obtain ⟨-, ⟨x, member, moved⟩ | ⟨place, stopped⟩⟩ :=
    linked.round_cases (key ▸ splits) standing
  · refine @Proceeds.same _ _ _ list _ _ _ (.searching call { search with x := x }) ?_ linked
      ⟨admitted, key, ?_, front, back, prev, splits, recorded, room, filled⟩ (by simp)
    · simp only [step, moved, Option.bind_eq_bind, Option.bind_some]
    · exact @Standing.of_mem _ _ _ _ _ { search with x := x } (key ▸ splits) standing.1
        (List.mem_cons_of_mem _ member)
  · have inside : search.level < prev.length := room ▸ standing.1
    have written : recordPrev search.level search.x search.prev =
        some (some (prev.set search.level (some search.x))) := by
      rw [recorded]
      exact if_pos inside
    rw [written, Option.bind_some] at stopped
    have slots : ∀ level, search.level ≤ level → level < list.maxHeight →
        (prev.set search.level (some search.x))[level]? = some (some (spot front level)) := by
      intro level above below
      rcases Nat.eq_or_lt_of_le above with rfl | above
      · rw [List.getElem?_set_self inside, place]
      · rw [List.getElem?_set_ne (Nat.ne_of_lt above), filled level above below]
    cases level : search.level with
    | zero =>
        rw [level] at stopped slots
        have unequal : equalsNode compare list call.key (back.head?.map Row.node) =
            some false := by
          cases back with
          | nil => rfl
          | cons row rest =>
              have listed : row ∈ rows := by
                rw [splits.whole]
                simp
              rw [List.head?_cons, Option.map_some, equalsNode, linked.stored row listed,
                Option.map_some, decide_eq_false (admitted.fresh row listed)]
        have allowed : ¬ (call.height = 0 ∨ kMaxHeight < call.height) := by
          have := admitted.tall
          omega
        refine @Proceeds.same _ _ _ list _ _ _
          (.measuring call (prev.set 0 (some search.x))) ?_ linked
          ⟨admitted, by rw [List.length_set, room], front, back, splits,
            fun level => slots level (Nat.zero_le _)⟩ (by simp)
        simp only [step, stopped, unequal, if_neg allowed, Option.bind_eq_bind, Option.bind_some,
          Bool.false_eq_true, if_false]
    | succ lower =>
        rw [level] at stopped slots
        refine @Proceeds.same _ _ _ list _ _ _ (.searching call
          { search with level := lower, prev := some (prev.set (lower + 1) (some search.x)) })
          ?_ linked ⟨admitted, key, standing.down level, front, back, _, splits, rfl,
            by rw [List.length_set, room], slots⟩ (by simp)
        simp only [step, stopped, Option.bind_eq_bind, Option.bind_some]

theorem Placed.proceeds (order : ThreeWay compare) (linked : Linked compare list rows)
    {writer : Writer Key} (placed : writer.Placed compare list rows begun)
    (active : writer ≠ .idle) : Proceeds compare list rows begun writer := by
  cases writer with
  | idle => exact absurd rfl active
  | entering call => exact entering_proceeds order linked placed
  | searching call search => exact searching_proceeds linked placed
  | measuring call prev => exact measuring_proceeds linked placed
  | raising call prev => exact raising_proceeds linked placed
  | storing call prev => exact storing_proceeds linked placed
  | loading call x prev level => exact loading_proceeds linked placed
  | filling call x prev level successor => exact filling_proceeds linked placed
  | joining call x prev level => exact joining_proceeds order linked placed

end Writer

/-- The result is the node of the least key not below the target on the bottom level, and
null if there is no such key. -/
def FirstAtLeast (compare : Key → Key → Int) (list : SkipList Key) (target : Key)
    (result : Option NodePtr) : Prop :=
  ∃ nodes keys, Chain (list.next 0) id headPtr nodes ∧ nodes.map list.key = keys.map some ∧
    (∀ node, result = some node → node ∈ nodes) ∧
    ThreeWay.Least compare keys (fun key => compare key target ≥ 0) (result.bind list.key)

theorem Linked.bottom (linked : Linked compare list rows) :
    Chain (list.next 0) id headPtr (rows.map Row.node) ∧
      (rows.map Row.node).map list.key = (rows.map Row.key).map some := by
  have chain := linked.chains 0 (by decide)
  rw [layer_zero fun row member => (linked.tall row member).1] at chain
  refine ⟨chain, ?_⟩
  rw [List.map_map, List.map_map]
  exact List.map_congr_left linked.stored

/-- The first row that is not before the target. -/
theorem Linked.least (linked : Linked compare list rows) (order : ThreeWay compare)
    {target : Key} (splits : Splits compare target rows front back) :
    ThreeWay.Least compare (rows.map Row.key) (fun key => compare key target ≥ 0)
      ((back.head?.map Row.node).bind list.key) := by
  have increasing := linked.increasing
  rw [splits.whole] at increasing
  have least := @ThreeWay.least_of_split _ _ _ order _ _ _ (fun key => compare key target ≥ 0)
    increasing (fun row member => Int.not_le.mpr (splits.below row member))
    (fun row member => Int.not_lt.mp (splits.beyond row member))
  rw [splits.whole]
  cases back with
  | nil => exact least
  | cons row rest =>
      have stored := linked.stored row (by rw [splits.whole]; simp)
      rw [List.head?_cons, Option.map_some, Option.bind_some, stored]
      exact least

theorem Linked.firstAtLeast (linked : Linked compare list rows) (order : ThreeWay compare)
    {target : Key} (splits : Splits compare target rows front back) :
    FirstAtLeast compare list target (back.head?.map Row.node) := by
  obtain ⟨chain, keys⟩ := linked.bottom
  refine ⟨_, _, chain, keys, ?_, linked.least order splits⟩
  intro node found
  obtain ⟨row, first, rfl⟩ := Option.map_eq_some_iff.mp found
  rw [splits.whole]
  exact List.mem_map_of_mem (List.mem_append_right _ (List.mem_of_head? first))

/-- A search returns by a load on the bottom level, and what it loads is its result. -/
theorem Search.round_returned {search : Search Key} {found : Option NodePtr}
    {prev : Option Prev} (returned : search.round compare list = some (.inr (found, prev))) :
    search.level = 0 ∧ list.next search.level search.x = some found := by
  simp only [Search.round, Option.bind_eq_bind, Option.bind_eq_some_iff] at returned
  obtain ⟨next, read, greater, -, rest⟩ := returned
  cases greater with
  | true =>
      obtain ⟨node, -, moved⟩ := Option.bind_eq_some_iff.mp rest
      cases moved
  | false =>
      obtain ⟨recorded, -, rest⟩ := Option.bind_eq_some_iff.mp rest
      cases level : search.level with
      | succ lower =>
          simp only [level] at rest
          cases rest
      | zero =>
          simp only [level] at rest read
          cases rest
          exact ⟨rfl, read⟩

theorem Reader.step_returned {reader : Reader Key} {target : Key} {result : Option NodePtr}
    (stepped : reader.step compare list = some (.returned target result)) :
    ∃ search, reader = .searching search ∧ search.key = target ∧ search.level = 0 ∧
      list.next search.level search.x = some result := by
  cases reader with
  | idle => cases stepped
  | entering target => cases stepped
  | returned target result => cases stepped
  | searching search =>
      obtain ⟨outcome, rounded, rest⟩ := Option.bind_eq_some_iff.mp stepped
      cases outcome with
      | inl search => cases rest
      | inr outcome =>
          cases rest
          exact ⟨search, rfl, rfl, Search.round_returned rounded⟩

namespace System

/-- What holds in every state, of the rows that are linked in it. -/
structure Inv (compare : Key → Key → Int) (system : System Key) (rows : List (Row Key)) :
    Prop where
  linked : Linked compare system.list rows
  known : ∀ row ∈ rows, row.key ∈ system.begun
  finished : ∀ key ∈ system.finished, key ∈ rows.map Row.key
  writer : system.writer.Placed compare system.list rows system.begun
  readers : ∀ thread, (system.readers thread).Placed compare rows

variable {system later : System Key}

theorem finished_of_idle (idle : system.writer = .idle) : system.finished = system.begun := by
  rw [finished, idle]

theorem finished_of_active (active : system.writer ≠ .idle) :
    system.finished = system.begun.tail := by
  unfold finished
  split
  · exact absurd ‹_› active
  · rfl

namespace Inv

theorem insert (inv : Inv compare system rows) {call : Call Key}
    (enabled : system.Enabled compare (.insert call)) :
    Inv compare { system with writer := .entering call, begun := call.key :: system.begun }
      rows where
  linked := inv.linked
  known row member := List.mem_cons_of_mem _ (inv.known row member)
  finished := by
    have before := inv.finished
    rw [finished_of_idle enabled.1] at before
    exact before
  writer := ⟨enabled.2.2, rfl, fun row member => enabled.2.1 row.key (inv.known row member)⟩
  readers := inv.readers

theorem write (inv : Inv compare system rows) (order : ThreeWay compare)
    (active : system.writer ≠ .idle) :
    ∃ later grown, system.step compare .write = some later ∧ Inv compare later grown ∧
      Grows rows grown := by
  obtain ⟨after, writer, grown, stepped, linked, placed, grows, known, ended⟩ :=
    inv.writer.proceeds order inv.linked active
  have kept : ∀ key ∈ rows.map Row.key, key ∈ grown.map Row.key := by
    intro key member
    obtain ⟨row, listed, rfl⟩ := List.mem_map.mp member
    obtain ⟨other, found, -, same, -⟩ := grows row listed
    exact same ▸ List.mem_map_of_mem found
  refine ⟨{ system with list := after, writer := writer }, grown, ?_, ⟨linked, ?_, ?_, placed,
    fun thread => (inv.readers thread).mono grows⟩, grows⟩
  · simp only [System.step, stepped, Option.map_some]
  · intro row member
    rcases known row member with old | new
    · obtain ⟨other, listed, same⟩ := List.mem_map.mp old
      exact same ▸ inv.known other listed
    · exact List.mem_of_head? new
  · intro key member
    have before := inv.finished
    rw [finished_of_active active] at before
    by_cases idle : writer = .idle
    · subst idle
      obtain ⟨row, listed, last⟩ := ended rfl
      have begun : key ∈ system.begun := member
      rw [List.eq_cons_of_mem_head? last] at begun
      rcases List.mem_cons.mp begun with rfl | earlier
      · exact List.mem_map_of_mem listed
      · exact kept key (before key earlier)
    · have same := @finished_of_active _ { system with list := after, writer := writer } idle
      exact kept key (before key (same ▸ member))

theorem setReader (inv : Inv compare system rows) (thread : Nat) {reader : Reader Key}
    (placed : reader.Placed compare rows) :
    Inv compare { system with readers := Function.update system.readers thread reader } rows :=
  { inv with
    readers := by
      intro other
      show (Function.update system.readers thread reader other).Placed compare rows
      by_cases same : other = thread
      · rw [same, Function.update_self]
        exact placed
      · rw [Function.update_of_ne same]
        exact inv.readers other }

/-- Every step that is enabled has a result. It keeps the invariant and the rows. -/
theorem step_grows (inv : Inv compare system rows) (order : ThreeWay compare)
    {event : Event Key} (enabled : system.Enabled compare event) :
    ∃ later grown, system.step compare event = some later ∧ Inv compare later grown ∧
      Grows rows grown := by
  cases event with
  | insert call => exact ⟨_, rows, rfl, inv.insert enabled, .refl rows⟩
  | write => exact inv.write order enabled
  | search thread target => exact ⟨_, rows, rfl, inv.setReader thread trivial, .refl rows⟩
  | read thread =>
      obtain ⟨reader, stepped, placed, -⟩ :=
        inv.linked.reader_step order (inv.readers thread) enabled
      refine ⟨_, rows, ?_, inv.setReader thread placed, .refl rows⟩
      simp only [System.step, stepped, Option.map_some]

theorem step (inv : Inv compare system rows) (order : ThreeWay compare) {event : Event Key}
    (enabled : system.Enabled compare event) :
    ∃ later grown, system.step compare event = some later ∧ Inv compare later grown := by
  obtain ⟨later, grown, stepped, kept, -⟩ := inv.step_grows order enabled
  exact ⟨later, grown, stepped, kept⟩

theorem moves_grows (inv : Inv compare system rows) (order : ThreeWay compare)
    (runs : Relation.ReflTransGen (Moves compare) system later) :
    ∃ grown, Inv compare later grown ∧ Grows rows grown := by
  induction runs with
  | refl => exact ⟨rows, inv, .refl rows⟩
  | tail _ moved ih =>
      obtain ⟨grown, inv, grows⟩ := ih
      obtain ⟨event, enabled, stepped⟩ := moved
      obtain ⟨after, last, same, kept, further⟩ := inv.step_grows order enabled
      obtain rfl := Option.some.inj (stepped.symm.trans same)
      exact ⟨last, kept, grows.trans further⟩

theorem moves (inv : Inv compare system rows) (order : ThreeWay compare)
    (runs : Relation.ReflTransGen (Moves compare) system later) :
    ∃ grown, Inv compare later grown := by
  obtain ⟨grown, kept, -⟩ := inv.moves_grows order runs
  exact ⟨grown, kept⟩

end Inv

theorem start_inv : ∃ list : SkipList Key, new = some list ∧ Inv compare (start list) [] := by
  obtain ⟨list, made, layered⟩ := @new_layered Key compare
  refine ⟨list, made, ⟨by simp, by simp, by simp, List.Pairwise.nil, layered.chains, ?_⟩,
    by simp, by simp [finished, start], trivial, fun _ => trivial⟩
  exact ⟨layered.maxHeight_pos, layered.maxHeight_le⟩

theorem reached_inv (order : ThreeWay compare) (reached : Reached compare system) :
    ∃ rows, Inv compare system rows := by
  obtain ⟨list, made, runs⟩ := reached
  obtain ⟨other, same, inv⟩ := @start_inv Key compare
  obtain rfl := Option.some.inj (made.symm.trans same)
  exact inv.moves order runs

/-- A call that has returned stays so. -/
theorem finished_mono (runs : Relation.ReflTransGen (Moves compare) system later) {key : Key}
    (member : key ∈ system.finished) : key ∈ later.finished := by
  induction runs with
  | refl => exact member
  | @tail middle last _ moved ih =>
      obtain ⟨event, enabled, stepped⟩ := moved
      cases event with
      | insert call =>
          obtain rfl := Option.some.inj stepped
          rw [finished_of_idle enabled.1] at ih
          exact ih
      | write =>
          obtain ⟨⟨list, writer⟩, -, rfl⟩ := Option.map_eq_some_iff.mp stepped
          rw [finished_of_active enabled] at ih
          by_cases idle : writer = .idle
          · subst idle
            exact List.mem_of_mem_tail ih
          · have same := @finished_of_active _ { middle with list := list, writer := writer } idle
            exact same ▸ ih
      | search thread target =>
          obtain rfl := Option.some.inj stepped
          exact ih
      | read thread =>
          obtain ⟨reader, -, rfl⟩ := Option.map_eq_some_iff.mp stepped
          exact ih

/-- Readers are linearizable against the writer. In every interleaving no step fails and
a search only loads slots that its node has and that were written. A search that returns
does so at a load on the bottom level, and it returns the least key not below its target
that the level showed at that load; a key whose insertion had returned when the search
began is never passed over. -/
theorem search_linearizable (order : ThreeWay compare) (reached : Reached compare system) :
    (∀ event, system.Enabled compare event → ∃ after, system.step compare event = some after) ∧
    (∀ thread search, system.readers thread = .searching search →
      search.level < system.list.height search.x ∧
        ∃ next, system.list.next search.level search.x = some next) ∧
    ∀ thread target began before after result,
      system.Enabled compare (.search thread target) →
      system.step compare (.search thread target) = some began →
      Relation.ReflTransGen (Moves compare) began before →
      before.Enabled compare (.read thread) → before.step compare (.read thread) = some after →
      after.readers thread = .returned target result →
      (∃ search, before.readers thread = .searching search ∧ search.level = 0 ∧
        before.list.next search.level search.x = some result) ∧
      FirstAtLeast compare before.list target result ∧
      ∀ key ∈ system.finished, compare key target ≥ 0 →
        ∃ node stored, result = some node ∧ before.list.key node = some stored ∧
          compare stored target ≥ 0 ∧ compare stored key ≤ 0 := by
  obtain ⟨rows, inv⟩ := reached_inv order reached
  refine ⟨?_, ?_, ?_⟩
  · intro event enabled
    obtain ⟨after, grown, stepped, -⟩ := inv.step order enabled
    exact ⟨after, stepped⟩
  · intro thread search searching
    obtain ⟨-, standing⟩ : Reader.Placed compare rows (.searching search) :=
      searching ▸ inv.readers thread
    obtain ⟨front, back, splits⟩ := Splits.exists order inv.linked.increasing search.key
    obtain ⟨⟨next, read⟩, -⟩ := inv.linked.round_cases splits standing
    exact ⟨lt_height_of_next read, next, read⟩
  · intro thread target began before after result enabled asked runs busy stepped returned
    have called : Moves compare system began := ⟨_, enabled, asked⟩
    obtain ⟨rows, inv⟩ := inv.moves order (.head called runs)
    obtain ⟨reader, moved, -, found⟩ := inv.linked.reader_step order (inv.readers thread) busy
    obtain rfl : reader = .returned target result := by
      simp only [System.step, moved, Option.map_some, Option.some.injEq] at stepped
      rw [← returned, ← stepped]
      exact (Function.update_self thread reader before.readers).symm
    obtain ⟨front, back, splits, rfl⟩ := found target result rfl
    obtain ⟨search, searching, -, bottom, read⟩ := Reader.step_returned moved
    refine ⟨⟨search, searching, bottom, read⟩, inv.linked.firstAtLeast order splits, ?_⟩
    intro key done above
    have listed := inv.finished key (finished_mono (.head called runs) done)
    have least := inv.linked.least order splits
    cases first : back.head? with
    | none =>
        rw [first] at least
        exact absurd above (least key listed)
    | some row =>
        have stored := inv.linked.stored row (by
          rw [splits.whole]
          exact List.mem_append_right _ (List.mem_of_head? first))
        rw [first, Option.map_some, Option.bind_some, stored] at least
        exact ⟨row.node, row.key, rfl, stored, least.2.1, least.2.2 key listed above⟩

/-- A reader sees the new `max_height_` before the node it is for, and then that node
while only the bottom level shows it. -/
theorem search_linearizable_half_linked :
    ∃ system began before after : System Int, Reached (· - ·) system ∧ system.finished = [5] ∧
      system.step (· - ·) (.search 0 3) = some began ∧
      before.writer = .loading ⟨4, 2⟩ 2 (some 0 :: some 0 :: List.replicate 10 none) 1 ∧
      before.step (· - ·) (.read 0) = some after ∧
      after.readers 0 = .returned 3 (some 2) ∧ FirstAtLeast (· - ·) before.list 3 (some 2) := by
  have order : ThreeWay fun left right : Int => left - right :=
    ⟨by intros; omega, by intros; omega⟩
  -- the writer stops between its store of `max_height_` and its first store of a slot
  obtain ⟨list, made, system, ran, done, free, began, asked, before, went, writing, busy,
      after, stepped, returned⟩ :
      ∃ list, (new : Option (SkipList Int)) = some list ∧ ∃ system,
        (start list).run (· - ·) ([.insert ⟨5, 1⟩] ++ List.replicate 6 .write ++
          [.insert ⟨4, 2⟩] ++ List.replicate 5 .write) = some system ∧
        system.finished = [5] ∧ system.Enabled (· - ·) (.search 0 3) ∧
        ∃ began, system.step (· - ·) (.search 0 3) = some began ∧ ∃ before,
          began.run (· - ·) ([.read 0, .read 0] ++ List.replicate 3 .write) = some before ∧
          before.writer = .loading ⟨4, 2⟩ 2 (some 0 :: some 0 :: List.replicate 10 none) 1 ∧
          before.Enabled (· - ·) (.read 0) ∧ ∃ after,
            before.step (· - ·) (.read 0) = some after ∧
            after.readers 0 = .returned 3 (some 2) :=
    ⟨_, rfl, _, rfl, rfl, by exact not_false, _, rfl, _, rfl, rfl, by exact trivial, _, rfl, rfl⟩
  have reached : Reached (· - ·) system := ⟨list, made, run_moves ran⟩
  have answer := (search_linearizable order reached).2.2 0 3 began before after (some 2) free
    asked (run_moves went) busy stepped returned
  exact ⟨system, began, before, after, reached, done, asked, writing, stepped, returned,
    answer.2.1⟩

end System

end SkipList

end MiniLevelDb
